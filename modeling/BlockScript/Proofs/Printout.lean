/-
BlockScript/Proofs/Printout.lean

Reading printed data back.

The text of plain data determines the data, the order of the fields included.
Nothing of the layout is needed for it: the reader ignores gaps, and goes through
the tokens from the back.  It keeps the data it has read on this level, and what
it has read behind that, level by level:

    [[1, │ 2.5, {"x": null}], true]

    level    2.5, {"x": null}    items of the inner list
    outer    true, none          items of the outer list; data behind it

A closing bracket begins a level and an opening one ends it.  Inside a record the
names stand among the data and are told from it by their places.

The words are told apart by their characters.  A number has a point or an exponent
in its text, an integer has neither, and a constant has a letter that no number has.
-/
import BlockScript.Command.Report
import BlockScript.Proofs.Lexeme
import BlockScript.Proofs.Nearest
import BlockScript.Proofs.RoundTrip
import Mathlib.Data.List.Forall2

namespace BlockScript

/-! ### The numbers that no decimal denotes -/

/-- There is one NaN. -/
theorem eq_notANumber {x : Float} (h : x.isNaN = true) : x = notANumber := by
  obtain ⟨hexponent, hfraction⟩ := (isNaN_iff x).1 h
  refine float_ext ?_
  -- a float with all exponent bits set has no fraction bits but those of the one NaN
  obtain ⟨⟨bits, hvalid⟩⟩ := x
  have hbits : bits.toBitVec = Float.Model.UnpackedFloat.packedNaN .binary64 := by
    refine hvalid.eq_packedNaN ((unpackExponent_eq_iff _ _).2 hexponent) fun hzero => ?_
    exact hfraction ((unpackMantissa_eq_iff _ _).1 hzero)
  exact UInt64.toBitVec_inj.1 hbits

/-- There are two infinities. -/
theorem eq_infinity {x : Float} (h : x.isInf = true) : x = infinity (signBit x) := by
  obtain ⟨hexponent, hfraction⟩ := (isInf_iff x).1 h
  have hlt : x.toBits.toNat < 2 ^ 64 := x.toBits.toNat_lt
  refine float_ext (UInt64.toNat_inj.1 ?_)
  rw [infinity, toBits_ofSignBits _ le_rfl]
  simp only [exponentField, fractionField, Nat.pow_eq] at hexponent hfraction
  simp only [signBit, infinityBits, Nat.pow_eq, decide_eq_true_eq]
  split <;> omega

namespace Data

open Json

/-! ### Words -/

/-- The words that are not spelled in digits. -/
def constants : List (String × Data) :=
  [("null", null), ("true", bool true), ("false", bool false), ("NaN", number notANumber),
    ("Infinity", number (infinity false)), ("-Infinity", number (infinity true))]

/-- The integer that a sign and digits spell. -/
def integer (w : List Char) : Int :=
  let (negative, digits) := Literal.splitSign w
  if negative then -(decimalValue digits : Int) else decimalValue digits

/-- The data that a word denotes. -/
def ofWord? (w : List Char) : Option Data :=
  match constants.lookup (String.ofList w) with
  | some d => some d
  | none =>
    if w.all fun c => c.isDigit || c == '-' then some (int (integer w))
    else (literalValue (String.ofList w)).toOption.map number

/-- The word that stands for a piece of data. -/
structure IsWord (s : String) (d : Data) : Prop where
  ne_nil : s.toList ≠ []
  inner : ∀ c ∈ s.toList, isInner c = true
  prints : ∀ c ∈ s.toList, Prints c
  read : ofWord? s.toList = some d

theorem isWord_of_mem {s : String} {d : Data} (h : (s, d) ∈ constants) : IsWord s d := by
  have hchars : ∀ p ∈ constants, p.1.toList ≠ [] ∧
      p.1.toList.all (fun c => isInner c && decide (Prints c)) = true := by
    simp only [constants, List.forall_mem_cons]
    decide
  have hread : ∀ p ∈ constants, ofWord? p.1.toList = some p.2 := by
    simp [ofWord?, constants, List.lookup_cons]
  obtain ⟨hne, hall⟩ := hchars (s, d) h
  simp only [List.all_eq_true, Bool.and_eq_true, decide_eq_true_eq] at hall
  exact ⟨hne, fun c hc => (hall c hc).1, fun c hc => (hall c hc).2, hread (s, d) h⟩

section Digits

open Decimal (IsPlain)

/-- The characters of numbers print and are no marks, gaps or quotes. -/
theorem inner_of_isPlain {c : Char} (hc : IsPlain c) : isInner c = true ∧ Prints c := by
  have hne {d : Char} (hd : ¬ IsPlain d) : c ≠ d := fun heq => hd (heq ▸ hc)
  constructor
  · simp [isInner, isMark, isGap, hne (d := doubleQuote) (by decide), hne (d := '[') (by decide),
      hne (d := ']') (by decide), hne (d := '\x7b') (by decide), hne (d := '\x7d') (by decide),
      hne (d := '\n') (by decide), hne (d := ' ') (by decide), hne (d := ',') (by decide),
      hne (d := ':') (by decide)]
  · rcases hc with hdigit | hmark
    · have hrange : 48 ≤ c.toNat ∧ c.toNat ≤ 57 := Char.isDigit_iff_toNat.1 hdigit
      have hbounds : 32 ≤ c.toNat ∧ c.toNat ≤ 126 := by omega
      exact hbounds
    · simp only [List.mem_cons, List.not_mem_nil, or_false] at hmark
      rcases hmark with rfl | rfl | rfl | rfl <;> decide

/-- No constant is spelled in the characters of numbers. -/
theorem lookup_plain {w : List Char} (hw : ∀ c ∈ w, IsPlain c) :
    constants.lookup (String.ofList w) = none := by
  -- every constant has a letter that is not among the characters of numbers
  have hletters : ∀ p ∈ constants, p.1.toList.any (fun c => !decide (IsPlain c)) = true := by
    simp only [constants, List.forall_mem_cons]
    decide
  refine List.lookup_eq_none_iff.2 fun p hp => bne_iff_ne.2 fun heq => ?_
  obtain ⟨c, hc, hletter⟩ := List.any_eq_true.1 (hletters p hp)
  rw [← heq, String.toList_ofList] at hc
  simp [hw c hc] at hletter

/-- A word of the characters of numbers denotes what its sort of number denotes. -/
theorem isWord_of_plain {w : List Char} {d : Data} (hne : w ≠ []) (hw : ∀ c ∈ w, IsPlain c)
    (h : (if w.all fun c => c.isDigit || c == '-' then some (int (integer w))
      else (literalValue (String.ofList w)).toOption.map number) = some d) :
    IsWord (String.ofList w) d := by
  refine ⟨?_, ?_, ?_, ?_⟩ <;> rw [String.toList_ofList]
  · exact hne
  · exact fun c hc => (inner_of_isPlain (hw c hc)).1
  · exact fun c hc => (inner_of_isPlain (hw c hc)).2
  · rw [ofWord?, lookup_plain hw]
    exact h

theorem signText_plain (negative : Bool) : ∀ c ∈ signText negative, c = '-' := by
  cases negative <;> simp [signText]

/-- A sign and digits spell an integer. -/
theorem integer_digits (negative : Bool) (n : ℕ) :
    integer (signText negative ++ Nat.toDigits 10 n) = if negative then -(n : Int) else n := by
  have hsplit : Literal.splitSign (signText negative ++ Nat.toDigits 10 n)
      = (negative, Nat.toDigits 10 n) := by
    cases hdigits : Nat.toDigits 10 n with
    | nil => exact absurd hdigits Nat.toDigits_ne_nil
    | cons c cs =>
      have hc : c ∈ Nat.toDigits 10 n := hdigits ▸ List.mem_cons_self
      exact Literal.splitSign_signText (isDigit_toDigits c hc) cs
  simp only [integer, hsplit, decimalValue_toDigits]

theorem toString_int (n : Int) :
    toString n = String.ofList (signText (decide (n < 0)) ++ Nat.toDigits 10 n.natAbs) := by
  rw [Int.toString_eq_repr]
  cases n with
  | ofNat n => exact Nat.repr_eq_ofList_toDigits
  | negSucc n =>
    have hsign : signText (decide (Int.negSucc n < 0)) = ['-'] := by simp [signText]
    rw [hsign, Int.repr, Nat.repr_eq_ofList_toDigits, String.ofList_append]
    rfl

/-- An integer is a word, and read as an integer. -/
theorem isWord_int (n : Int) : IsWord (toString n) (int n) := by
  have hchars : ∀ c ∈ signText (decide (n < 0)) ++ Nat.toDigits 10 n.natAbs,
      c.isDigit = true ∨ c = '-' :=
    List.forall_mem_append.2 ⟨fun c hc => .inr (signText_plain _ c hc),
      fun c hc => .inl (isDigit_toDigits c hc)⟩
  rw [toString_int]
  -- a row of digits, and hence no other sort of number
  refine isWord_of_plain (by simp) (fun c hc => ?_) ?_
  · rcases hchars c hc with hdigit | rfl
    · exact .inl hdigit
    · decide
  · have hall : (signText (decide (n < 0)) ++ Nat.toDigits 10 n.natAbs).all
        (fun c => c.isDigit || c == '-') = true :=
      List.all_eq_true.2 fun c hc => by simpa using hchars c hc
    rw [if_pos hall, integer_digits]
    congr
    simp only [decide_eq_true_eq]
    split <;> omega

/-- A laid out decimal is no row of digits. -/
theorem exists_mark_layout (d : Decimal) : ∃ c ∈ d.layout, c = '.' ∨ c = 'e' := by
  unfold Decimal.layout Decimal.positional Decimal.scientific
  dsimp only
  split
  · refine ⟨'.', ?_, .inl rfl⟩
    split
    · simp
    · split <;> simp
  · exact ⟨'e', by simp, .inr rfl⟩

/-- A number is a word, be it finite or not. -/
theorem isWord_number (x : Float) : IsWord (jsonSpelling.write x) (number x) := by
  rcases value_cases x with ⟨p, hp, -⟩ | ⟨hnone, hinf, hnan⟩ | ⟨hnone, -, hnan⟩
  · -- a finite number is spelled as in the language
    have hplain : jsonSpelling.write x = numberText x := by
      rw [numberText, Spelling.write, Spelling.write, hp]
    obtain ⟨d, -, htext⟩ := numberText_eq hp
    have hvalue := literalValue_numberText hp
    obtain ⟨c, hc, hmark⟩ := exists_mark_layout d
    rw [htext] at hvalue
    rw [hplain, htext]
    refine isWord_of_plain ?_ ?_ ?_
    · exact List.append_ne_nil_of_right_ne_nil _ (List.ne_nil_of_mem hc)
    · refine List.forall_mem_append.2 ⟨fun c hc => ?_, d.layout_plain⟩
      rw [signText_plain _ c hc]
      decide
    · -- the point or the exponent tells the number from an integer
      have hnot : ¬ ((signText (signBit x) ++ d.layout).all fun c => c.isDigit || c == '-') := by
        simp only [List.all_eq_true]
        intro hall
        have hdigit := hall c (List.mem_append_right _ hc)
        rcases hmark with rfl | rfl <;> exact absurd hdigit (by decide)
      rw [if_neg hnot, hvalue]
      rfl
  · -- the infinities are constants, and so is the NaN
    have hwrite : jsonSpelling.write x = (if signBit x then "-" else "") ++ "Infinity" := by
      rw [Spelling.write, hnone]
      exact if_neg (Bool.eq_false_iff.1 hnan)
    have hword (negative : Bool) :
        IsWord ((if negative then "-" else "") ++ "Infinity") (number (infinity negative)) := by
      cases negative <;> exact isWord_of_mem (by simp [constants])
    have hx := hword (signBit x)
    rwa [← eq_infinity hinf, ← hwrite] at hx
  · have hwrite : jsonSpelling.write x = "NaN" := by
      rw [Spelling.write, hnone]
      exact if_pos hnan
    rw [hwrite, eq_notANumber hnan]
    exact isWord_of_mem (by simp [constants])

end Digits

/-! ### The reader -/

/-- What has been read behind some place. -/
structure Pile where
  level : List Data
  outer : List (List Data)

namespace Pile

/-- Puts data in front of the current level. -/
def add (ds : List Data) (p : Pile) : Pile :=
  { p with level := ds ++ p.level }

/-- Begins a level. -/
def deeper (p : Pile) : Pile :=
  ⟨[], p.level :: p.outer⟩

@[simp] theorem add_add (ds es : List Data) (p : Pile) : (p.add es).add ds = p.add (ds ++ es) := by
  simp [add]

/-- Ends a level whose data make up `d`. -/
def close? (p : Pile) (d : Data) : Option Pile :=
  match p.outer with
  | [] => none
  | level :: outer => some ⟨d :: level, outer⟩

@[simp] theorem level_add_deeper (ds : List Data) (p : Pile) : (p.deeper.add ds).level = ds :=
  List.append_nil ds

@[simp] theorem close?_add_deeper (ds : List Data) (d : Data) (p : Pile) :
    (p.deeper.add ds).close? d = some (p.add [d]) :=
  rfl

end Pile

/-- The fields that names and data make up in turn. -/
def fields? : List Data → Option (List (String × Data))
  | [] => some []
  | .text name :: d :: ds => (fields? ds).map ((name, d) :: ·)
  | _ => none

/-- Reads a token in front of what has been read. -/
def step (p : Pile) : Token → Option Pile
  | .gap => some p
  | .text s => some (p.add [text s])
  | .word w => (ofWord? w).map fun d => p.add [d]
  | .mark c =>
    if c = '[' then p.close? (list p.level)
    else if c = '\x7b' then (fields? p.level).bind fun fields => p.close? (record fields)
    else some p.deeper

/-- Reads a text from the back. -/
def scan (cs : List Char) : Option Pile :=
  (lex cs).foldr (fun token p => p.bind (step · token)) (some ⟨[], []⟩)

/-- The data that a text shows. -/
def read? (s : String) : Option Data :=
  match scan s.toList with
  | some ⟨[d], []⟩ => some d
  | _ => none

/-- The first token is read last. -/
theorem scan_of_lex {cs rest : List Char} {token : Token} (h : lex cs = token :: lex rest) :
    scan cs = (scan rest).bind (step · token) := by
  rw [scan, h, List.foldr_cons, scan]

theorem scan_gaps {cs : List Char} (h : ∀ c ∈ cs, isGap c = true) (rest : List Char) :
    scan (cs ++ rest) = scan rest := by
  induction cs with
  | nil => rfl
  | cons c cs ih =>
    obtain ⟨hc, h⟩ := List.forall_mem_cons.1 h
    rw [List.cons_append, scan_of_lex (lex_gap hc), ih h]
    cases scan rest <;> rfl

/-! ### Texts and the data they show -/

/-- A text that is read as data, whatever stands behind it, and that is made of printable
characters and line breaks. -/
structure Shows (s : String) (ds : List Data) : Prop where
  scan_eq : ∀ rest, Ended (!isGap ·) rest → scan (s.toList ++ rest) = (scan rest).map (·.add ds)
  prints : ∀ c ∈ s.toList, c = '\n' ∨ Prints c

/-- A word shows its data, as the word ends where a gap follows. -/
theorem IsWord.shows {s : String} {d : Data} (h : IsWord s d) : Shows s [d] where
  scan_eq rest hrest := by
    rw [scan_of_lex (lex_word h.ne_nil h.inner hrest)]
    simp only [step, h.read]
    exact (Option.map_eq_bind ..).symm
  prints c hc := .inr (h.prints c hc)

theorem shows_jsonString (s : String) : Shows (jsonString s) [text s] where
  scan_eq rest _ := by
    rw [scan_of_lex (lex_jsonString s rest)]
    exact (Option.map_eq_bind ..).symm
  prints c hc := .inr (prints_jsonString s c hc)

/-! ### Gaps between texts -/

/-- A text that keeps others apart. -/
structure IsSpace (s : String) : Prop where
  ne_nil : s.toList ≠ []
  gaps : ∀ c ∈ s.toList, isGap c = true

theorem isSpace_lineBreak (level : ℕ) : IsSpace (lineBreak level) := by
  have hchars : (lineBreak level).toList = '\n' :: List.replicate (2 * level) ' ' := by
    simp [lineBreak]
  refine ⟨by simp [hchars], ?_⟩
  rw [hchars]
  exact List.forall_mem_cons.2 ⟨rfl, List.forall_mem_replicate.2 (.inr rfl)⟩

theorem IsSpace.append {s t : String} (hs : ∀ c ∈ s.toList, isGap c = true) (ht : IsSpace t) :
    IsSpace (s ++ t) := by
  refine ⟨?_, ?_⟩ <;> rw [String.toList_append]
  · exact List.append_ne_nil_of_right_ne_nil _ ht.ne_nil
  · exact List.forall_mem_append.2 ⟨hs, ht.gaps⟩

theorem IsSpace.ended {s : String} (h : IsSpace s) (rest : List Char) :
    Ended (!isGap ·) (s.toList ++ rest) := by
  obtain ⟨hne, hgaps⟩ := h
  cases hchars : s.toList with
  | nil => exact absurd hchars hne
  | cons c cs => exact ended_cons (by simp [hgaps c (by simp [hchars])]) _

theorem IsSpace.prints {s : String} (h : IsSpace s) : ∀ c ∈ s.toList, c = '\n' ∨ Prints c := by
  intro c hc
  have hgap : c ∈ ['\n', ' ', ',', ':'] := List.contains_iff_mem.1 (h.gaps c hc)
  simp only [List.mem_cons, List.not_mem_nil, or_false] at hgap
  rcases hgap with rfl | rfl | rfl | rfl <;> decide

/-- Texts that are kept apart show their data one after the other. -/
theorem Shows.join {s t gap : String} {ds es : List Data} (hs : Shows s ds) (hgap : IsSpace gap)
    (ht : Shows t es) : Shows (s ++ gap ++ t) (ds ++ es) where
  scan_eq rest hrest := by
    simp only [String.toList_append, List.append_assoc]
    rw [hs.scan_eq _ (hgap.ended _), scan_gaps hgap.gaps, ht.scan_eq rest hrest, Option.map_map]
    congr 1
    funext p
    exact Pile.add_add ds es p
  prints := by
    simp only [String.toList_append, List.forall_mem_append]
    exact ⟨⟨hs.prints, hgap.prints⟩, ht.prints⟩

/-- Items that are kept apart show their data in order. -/
theorem shows_intercalate {gap : String} (hgap : IsSpace gap) {items : List String}
    {dss : List (List Data)} (h : List.Forall₂ Shows items dss) :
    Shows (gap.intercalate items) dss.flatten := by
  induction h with
  | nil =>
    refine ⟨fun rest _ => ?_, List.forall_mem_nil _⟩
    exact (Option.map_id' (x := scan rest)).symm
  | @cons s ds items dss hs h ih =>
    -- a gap follows an item just if another item follows
    cases h with
    | nil =>
      rw [String.intercalate_singleton, List.flatten_singleton]
      exact hs
    | cons =>
      rw [String.intercalate_cons_cons]
      exact hs.join hgap ih

/-! ### Brackets -/

theorem prints_of_isMark {c : Char} (h : isMark c = true) : Prints c := by
  have hmark : c ∈ ['[', ']', '\x7b', '\x7d'] := List.contains_iff_mem.1 h
  simp only [List.mem_cons, List.not_mem_nil, or_false] at hmark
  rcases hmark with rfl | rfl | rfl | rfl <;> decide

section Bracketed

variable {opening closing : String} {items : List String} {dss : List (List Data)}

/-- What stands between the brackets shows the items. -/
theorem exists_between (opening closing : String) (level : ℕ) (h : List.Forall₂ Shows items dss) :
    ∃ cs : List Char,
      (bracketed opening closing level items).toList = opening.toList ++ cs ++ closing.toList ∧
      (∀ rest, scan (cs ++ rest) = (scan rest).map (·.add dss.flatten)) ∧
      ∀ c ∈ cs, c = '\n' ∨ Prints c := by
  rw [bracketed]
  split
  next hempty =>
    -- brackets with nothing inside stand on one line
    rw [List.isEmpty_iff.1 hempty, List.forall₂_nil_left_iff] at h
    refine ⟨[], by simp, fun rest => ?_, List.forall_mem_nil _⟩
    rw [h]
    exact (Option.map_id' (x := scan rest)).symm
  next =>
    have hbreak := isSpace_lineBreak (level + 1)
    have hback := isSpace_lineBreak level
    have hcomma : ∀ c ∈ ",".toList, isGap c = true := List.forall_mem_singleton.2 rfl
    have hitems := shows_intercalate (hbreak.append hcomma) h
    refine ⟨(lineBreak (level + 1)).toList ++
      ((("," ++ lineBreak (level + 1)).intercalate items).toList ++ (lineBreak level).toList),
      by simp, fun rest => ?_, ?_⟩
    · rw [List.append_assoc, List.append_assoc, scan_gaps hbreak.gaps,
        hitems.scan_eq _ (hback.ended rest), scan_gaps hback.gaps]
    · simp only [List.forall_mem_append]
      exact ⟨hbreak.prints, hitems.prints, hback.prints⟩

/-- Brackets show what their marks make of the items. -/
theorem shows_bracketed {o c : Char} (ho : opening.toList = [o]) (hc : closing.toList = [c])
    (homark : isMark o = true) (hcmark : isMark c = true) (level : ℕ)
    (h : List.Forall₂ Shows items dss) {d : Data}
    (hstep : ∀ p, (step p (.mark c)).bind (fun p => step (p.add dss.flatten) (.mark o))
      = some (p.add [d])) :
    Shows (bracketed opening closing level items) [d] := by
  obtain ⟨cs, htext, hscan, hprints⟩ := exists_between opening closing level h
  rw [ho, hc] at htext
  constructor
  · intro rest _
    have hchars : (bracketed opening closing level items).toList ++ rest
        = o :: (cs ++ c :: rest) := by
      simp [htext]
    -- from the back: the closing mark, the items, the opening mark
    rw [hchars, scan_of_lex (lex_mark homark), hscan, scan_of_lex (lex_mark hcmark)]
    cases scan rest with
    | none => rfl
    | some p =>
      rw [Option.map_some, ← hstep p, Option.bind_some, Option.bind_map]
      rfl
  · simp only [htext, List.forall_mem_append, List.forall_mem_singleton]
    exact ⟨⟨.inr (prints_of_isMark homark), hprints⟩, .inr (prints_of_isMark hcmark)⟩

end Bracketed

/-! ### Data of any shape -/

/-- Names and data in turn make up the fields they come from. -/
theorem fields?_flatten (fields : List (String × Data)) :
    fields? (fields.map fun field => [text field.1, field.2]).flatten = some fields := by
  induction fields with
  | nil => rfl
  | cons field fields ih =>
    rw [List.map_cons, List.flatten_cons, List.cons_append, List.singleton_append, fields?, ih]
    rfl

mutual

/-- The text of data shows the data, on any level. -/
theorem shows_jsonAt (level : ℕ) : ∀ d : Data, Shows (jsonAt level d) [d]
  | null => by
    rw [jsonAt]
    exact (isWord_of_mem (by simp [constants])).shows
  | bool b => by
    rw [jsonAt]
    cases b <;> exact (isWord_of_mem (by simp [constants])).shows
  | int n => by
    rw [jsonAt]
    exact (isWord_int n).shows
  | number x => by
    rw [jsonAt]
    exact (isWord_number x).shows
  | text s => by
    rw [jsonAt]
    exact shows_jsonString s
  | list items => by
    have hflatten : (items.map fun d => [d]).flatten = items := List.flatMap_singleton' items
    rw [jsonAt]
    refine shows_bracketed (o := '[') (c := ']') rfl rfl rfl rfl level
      (shows_jsonItems (level + 1) items) fun p => ?_
    simp [hflatten, step]
  | record fields => by
    rw [jsonAt]
    refine shows_bracketed (o := '\x7b') (c := '\x7d') rfl rfl rfl rfl level
      (shows_jsonFields (level + 1) fields) fun p => ?_
    simp [fields?_flatten, step]

/-- The items of a list each show one piece of data. -/
theorem shows_jsonItems (level : ℕ) :
    ∀ ds : List Data, List.Forall₂ Shows (jsonItems level ds) (ds.map fun d => [d])
  | [] => by
    rw [jsonItems]
    exact .nil
  | d :: ds => by
    rw [jsonItems]
    exact .cons (shows_jsonAt level d) (shows_jsonItems level ds)

/-- The fields of a record each show their name and their data. -/
theorem shows_jsonFields (level : ℕ) : ∀ fields : List (String × Data),
    List.Forall₂ Shows (jsonFields level fields) (fields.map fun field => [text field.1, field.2])
  | [] => by
    rw [jsonFields]
    exact .nil
  | (name, d) :: fields => by
    have hcolon : IsSpace ": " :=
      ⟨by decide, List.forall_mem_cons.2 ⟨rfl, List.forall_mem_singleton.2 rfl⟩⟩
    rw [jsonFields]
    exact .cons ((shows_jsonString name).join hcolon (shows_jsonAt level d))
      (shows_jsonFields level fields)

end

/-- **The text of plain data is read as the data.** -/
theorem read?_json (d : Data) : read? d.json = some d := by
  have hscan := (shows_jsonAt 0 d).scan_eq [] ended_nil
  rw [List.append_nil] at hscan
  rw [read?, json, hscan]
  rfl

theorem json_inj {d e : Data} : d.json = e.json ↔ d = e := by
  refine ⟨fun h => ?_, congrArg json⟩
  have hd := read?_json d
  rw [h, read?_json e] at hd
  exact (Option.some.inj hd).symm

end Data

/-- **The printed data determines the data.**  Its text is read back as the data, with the
fields in their order, so data that is not the same has not the same text.  Numbers are the
same if they have the same bits; the NaN is the same as itself.  The text is made of
printable ASCII characters and line breaks, and the command prints it as it stands. -/
theorem printout_determines_data (d e : Data) :
    Data.read? d.json = some d ∧ (d.json = e.json ↔ d = e) ∧
    (∀ x y : Float, (Data.number x).json = (Data.number y).json ↔
      x.toBits = y.toBits ∨ (x.isNaN = true ∧ y.isNaN = true)) ∧
    (∀ c ∈ d.json.toList, c = '\n' ∨ (' ' ≤ c ∧ c ≤ '~')) ∧
    printed ["", "Result:", d.json] = "\nResult:\n" ++ d.json ++ "\n" := by
  have hprints := (Data.shows_jsonAt 0 d).prints
  refine ⟨Data.read?_json d, Data.json_inj, fun x y => ?_, hprints, ?_⟩
  · rw [Data.json_inj, Data.number.injEq]
    constructor
    · rintro rfl
      exact .inl rfl
    · rintro (hbits | ⟨hx, hy⟩)
      · exact float_ext hbits
      · rw [eq_notANumber hx, eq_notANumber hy]
  · have hplain : plainText d.json = d.json := by
      refine plainText_eq_self fun hescape => ?_
      exact absurd (hprints _ hescape) (by decide)
    have hempty : plainText "" = "" := plainText_eq_self (by decide)
    have htitle : plainText "Result:" = "Result:" := plainText_eq_self (by decide)
    have hhead : "" ++ ("" ++ "\n") ++ ("Result:" ++ "\n") = "\nResult:\n" := by decide
    rw [printed, List.map_cons, List.map_cons, List.map_singleton, hempty, htitle, hplain]
    show "" ++ ("" ++ "\n") ++ ("Result:" ++ "\n") ++ (d.json ++ "\n") = _
    rw [hhead, ← String.append_assoc]

/-- The order of fields shows, also where a name is written in surrogates. -/
theorem printout_determines_data_in_order :
    let d := Data.record [("a", .bool true), ("😀", .null)]
    let e := Data.record [("😀", .null), ("a", .bool true)]
    d.json = "\x7b\n  \"a\": true,\n  \"\\ud83d\\ude00\": null\n\x7d" ∧
      Data.read? d.json = some d ∧ d.json ≠ e.json := by
  intro d e
  obtain ⟨hread, hsame, -⟩ := printout_determines_data d e
  refine ⟨by decide +kernel, hread, fun h => ?_⟩
  have hde := hsame.1 h
  simp [d, e] at hde

end BlockScript
