/-
BlockScript/Proofs/Lexeme.lean

The words of a JSON text.

`lex` cuts a text into brackets, gaps, words and quoted texts.  The line breaks,
blanks, commas and colons are gaps; they only keep the words apart.  A quoted text
is decoded on the way, from escapes to 16-bit units and from those to characters:

    characters  —charUnits→  units  —unitEscape→  escapes
                ←ofUnits—           ←inQuotes—

Every statement is about a text with more text behind it.  A word ends only where
a gap begins or nothing follows, which is what stands behind a word in the text of
plain data.
-/
import BlockScript.Scope.Data
import BlockScript.Text.Blank
import Mathlib.Data.Nat.Digits.Defs

namespace BlockScript

/-! ### Hexadecimal digits -/

theorem basedDigit?_digitChar : ∀ v < 16, basedDigit? 16 v.digitChar = some v := by
  decide

/-- Hexadecimal digits spell their number. -/
theorem basedValue_toDigits (n : ℕ) : basedValue 16 (Nat.toDigits 16 n) = n := by
  induction n using Nat.strongRecOn with
  | ind n ih =>
    rcases Nat.lt_or_ge n 16 with hlt | hge
    · rw [Nat.toDigits_of_lt_base hlt]
      simp [basedValue, basedDigit?_digitChar n hlt]
    · have hlast := basedDigit?_digitChar (n % 16) (Nat.mod_lt n (by norm_num))
      have hfront := ih (n / 16) (by omega)
      unfold basedValue at hfront
      rw [Nat.toDigits_of_base_le (by norm_num) hge, basedValue, List.foldl_append, hfront]
      simp only [List.foldl_cons, List.foldl_nil, hlast, Option.getD_some]
      omega

theorem mem_toDigits {n : ℕ} {c : Char} (h : c ∈ Nat.toDigits 16 n) :
    ∃ v < 16, c = v.digitChar := by
  induction n using Nat.strongRecOn with
  | ind n ih =>
    rcases Nat.lt_or_ge n 16 with hlt | hge
    · rw [Nat.toDigits_of_lt_base hlt] at h
      exact ⟨n, hlt, List.mem_singleton.1 h⟩
    · rw [Nat.toDigits_of_base_le (by norm_num) hge, List.mem_append, List.mem_singleton] at h
      rcases h with hfront | hlast
      · exact ih (n / 16) (by omega) hfront
      · exact ⟨n % 16, Nat.mod_lt n (by norm_num), hlast⟩

/-- Zeros in front make no difference. -/
theorem basedValue_hexDigits (width n : ℕ) : basedValue 16 (hexDigits width n) = n := by
  have hzeros (k : ℕ) (cs : List Char) :
      basedValue 16 (List.replicate k '0' ++ cs) = basedValue 16 cs := by
    induction k with
    | zero => rfl
    | succ k ih => exact ih
  rw [hexDigits, hzeros, basedValue_toDigits]

/-- A number that fits has as many digits as there is room for. -/
theorem length_hexDigits {width n : ℕ} (hwidth : 0 < width) (hn : n < 16 ^ width) :
    (hexDigits width n).length = width := by
  have hle := (Nat.length_toDigits_le_iff (b := 16) (by norm_num) hwidth).2 hn
  simp only [hexDigits, List.length_append, List.length_replicate]
  omega

namespace Json

/-! ### Characters and their units -/

/-- The 16-bit units of a character. -/
def charUnits (c : Char) : List ℕ :=
  if c.toNat < 0x10000 then [c.toNat]
  else [0xd800 + (c.toNat - 0x10000) / 0x400, 0xdc00 + (c.toNat - 0x10000) % 0x400]

/-- The characters of a row of units. -/
def ofUnits : List ℕ → List Char
  | [] => []
  | high :: units =>
    if 0xd800 ≤ high ∧ high < 0xdc00 then
      match units with
      | [] => []
      | low :: units =>
        Char.ofNat (0x10000 + (high - 0xd800) * 0x400 + (low - 0xdc00)) :: ofUnits units
    else Char.ofNat high :: ofUnits units

/-- No character has the code point of a surrogate. -/
theorem toNat_cases (c : Char) :
    c.toNat < 0xd800 ∨ (0xdfff < c.toNat ∧ c.toNat < 0x110000) :=
  c.valid

/-- Units are put together to the character they come from, be they one or two. -/
theorem ofUnits_charUnits (c : Char) (units : List ℕ) :
    ofUnits (charUnits c ++ units) = c :: ofUnits units := by
  have hvalid := toNat_cases c
  rw [charUnits]
  split
  next hsmall =>
    -- one unit, which is no surrogate
    have hlow : ¬ (0xd800 ≤ c.toNat ∧ c.toNat < 0xdc00) := by omega
    rw [List.singleton_append, ofUnits.eq_def]
    simp only [if_neg hlow, Char.ofNat_toNat]
  next hlarge =>
    -- two surrogates, which carry ten bits each
    have hhigh : 0xd800 ≤ 0xd800 + (c.toNat - 0x10000) / 0x400 ∧
        0xd800 + (c.toNat - 0x10000) / 0x400 < 0xdc00 := by omega
    have hjoined : 0x10000 + (0xd800 + (c.toNat - 0x10000) / 0x400 - 0xd800) * 0x400 +
        (0xdc00 + (c.toNat - 0x10000) % 0x400 - 0xdc00) = c.toNat := by omega
    rw [List.cons_append, List.singleton_append, ofUnits.eq_def]
    simp only [if_pos hhigh, hjoined, Char.ofNat_toNat]

/-- **The units of a text determine the text.** -/
theorem ofUnits_flatMap (cs : List Char) : ofUnits (cs.flatMap charUnits) = cs := by
  induction cs with
  | nil => rfl
  | cons c cs ih => rw [List.flatMap_cons, ofUnits_charUnits, ih]

theorem charUnits_lt (c : Char) : ∀ n ∈ charUnits c, n < 0x10000 := by
  have hvalid := toNat_cases c
  rw [charUnits]
  split
  next hsmall => exact List.forall_mem_singleton.2 hsmall
  next hlarge =>
    refine List.forall_mem_cons.2 ⟨?_, List.forall_mem_singleton.2 ?_⟩ <;> omega

/-! ### Cutting a text -/

/-- The pieces of a JSON text: a bracket, a gap, a quoted text, or a word of unquoted
characters. -/
inductive Token where
  | mark (c : Char)
  | gap
  | text (s : String)
  | word (w : List Char)
deriving Repr, DecidableEq

/-- The brackets. -/
def isMark (c : Char) : Bool :=
  ['[', ']', '\x7b', '\x7d'].contains c

/-- What stands between words. -/
def isGap (c : Char) : Bool :=
  ['\n', ' ', ',', ':'].contains c

/-- What words are made of. -/
def isInner (c : Char) : Bool :=
  c != doubleQuote && !isMark c && !isGap c

/-- A character in front of a word, or as a word of its own. -/
def grow (c : Char) : List Token → List Token
  | .word w :: tokens => .word (c :: w) :: tokens
  | tokens => .word [c] :: tokens

/-- The unit of an escape that is no number. -/
def letterUnit (c : Char) : ℕ :=
  if c = 'n' then 0x0a
  else if c = 'r' then 0x0d
  else if c = 't' then 0x09
  else if c = 'b' then 0x08
  else if c = 'f' then 0x0c
  else c.toNat

mutual

/-- The tokens of a text. -/
def lex : List Char → List Token
  | [] => []
  | c :: cs =>
    if c = doubleQuote then inQuotes [] cs
    else if isMark c then .mark c :: lex cs
    else if isGap c then .gap :: lex cs
    else grow c (lex cs)

/-- The tokens of a text that begins inside quotes, behind some units. -/
def inQuotes (units : List ℕ) : List Char → List Token
  | [] => []
  | c :: cs =>
    if c = doubleQuote then .text (String.ofList (ofUnits units)) :: lex cs
    else if c = backslash then
      match cs with
      | 'u' :: h₁ :: h₂ :: h₃ :: h₄ :: cs =>
        inQuotes (units ++ [basedValue 16 [h₁, h₂, h₃, h₄]]) cs
      | letter :: cs => inQuotes (units ++ [letterUnit letter]) cs
      | [] => []
    else inQuotes (units ++ [c.toNat]) cs

end

/-! ### Quoted texts -/

/-- The printable ASCII characters. -/
def Prints (c : Char) : Prop :=
  ' ' ≤ c ∧ c ≤ '~'

instance : DecidablePred Prints :=
  fun _ => inferInstanceAs (Decidable (_ ∧ _))

theorem prints_digitChar : ∀ v < 16, Prints v.digitChar := by
  decide

theorem prints_unitEscape (n : ℕ) : ∀ c ∈ Data.unitEscape n, Prints c := by
  have hzeros : ∀ c ∈ List.replicate (4 - (Nat.toDigits 16 n).length) '0', Prints c :=
    List.forall_mem_replicate.2 (.inr (by decide))
  have hdigits : ∀ c ∈ Nat.toDigits 16 n, Prints c := by
    intro c hc
    obtain ⟨v, hv, rfl⟩ := mem_toDigits hc
    exact prints_digitChar v hv
  simp only [Data.unitEscape, hexDigits, List.forall_mem_cons, List.forall_mem_append]
  exact ⟨by decide, by decide, hzeros, hdigits⟩

/-- A character stands for itself, behind a backslash or as the escapes of its
units. -/
theorem jsonChar_cases (c : Char) :
    (Prints c ∧ c ≠ doubleQuote ∧ c ≠ backslash ∧ [c.toNat] = charUnits c ∧
      Data.jsonChar c = [c]) ∨
    (∃ letter, Prints letter ∧ letter ≠ 'u' ∧ [letterUnit letter] = charUnits c ∧
      Data.jsonChar c = [backslash, letter]) ∨
    Data.jsonChar c = (charUnits c).flatMap Data.unitEscape := by
  fun_cases Data.jsonChar c with
  | case1 h =>
    -- a quote or a backslash, behind a backslash
    rcases (by simpa using h : c = doubleQuote ∨ c = backslash) with rfl | rfl
    · exact .inr (.inl ⟨doubleQuote, by decide, by decide, rfl, rfl⟩)
    · exact .inr (.inl ⟨backslash, by decide, by decide, rfl, rfl⟩)
  | case2 _ h => exact .inr (.inl ⟨'n', by decide, by decide, h ▸ rfl, rfl⟩)
  | case3 _ _ h => exact .inr (.inl ⟨'r', by decide, by decide, h ▸ rfl, rfl⟩)
  | case4 _ _ _ h => exact .inr (.inl ⟨'t', by decide, by decide, h ▸ rfl, rfl⟩)
  | case5 _ _ _ _ h => exact .inr (.inl ⟨'b', by decide, by decide, h ▸ rfl, rfl⟩)
  | case6 _ _ _ _ _ h => exact .inr (.inl ⟨'f', by decide, by decide, h ▸ rfl, rfl⟩)
  -- the letters are done; what is left prints or is escaped by its units
  | case7 hspecial _ _ _ _ _ h =>
    simp only [Bool.or_eq_true, decide_eq_true_eq, not_or] at hspecial
    have hprints : Prints c := by simpa [Prints] using h
    have hsmall : c.toNat ≤ '~'.toNat := hprints.2
    refine .inl ⟨hprints, hspecial.1, hspecial.2, ?_, rfl⟩
    rw [charUnits, if_pos (hsmall.trans_lt (by decide))]
  | case8 _ _ _ _ _ _ _ hsmall =>
    refine .inr (.inr ?_)
    rw [charUnits, if_pos hsmall, List.flatMap_singleton]
  | case9 _ _ _ _ _ _ _ hlarge =>
    refine .inr (.inr ?_)
    rw [charUnits, if_neg hlarge, List.flatMap_cons, List.flatMap_singleton]

section Quoted

variable (units : List ℕ) (rest : List Char)

theorem inQuotes_plain {c : Char} (hquote : c ≠ doubleQuote) (hbackslash : c ≠ backslash) :
    inQuotes units (c :: rest) = inQuotes (units ++ [c.toNat]) rest := by
  rw [inQuotes.eq_def]
  simp only [if_neg hquote, if_neg hbackslash]

/-- A backslash with a letter other than `u` is one unit. -/
theorem inQuotes_letter {c : Char} (hc : c ≠ 'u') :
    inQuotes units (backslash :: c :: rest) = inQuotes (units ++ [letterUnit c]) rest := by
  have hquote : backslash ≠ doubleQuote := by decide
  rw [inQuotes.eq_def]
  simp only [if_neg hquote, if_true]
  split
  next heq => exact absurd (List.cons.inj heq).1 hc
  next heq =>
    cases heq
    rfl
  next heq => cases heq

/-- Four digits behind `u` are one unit. -/
theorem inQuotes_unit {n : ℕ} (hn : n < 0x10000) :
    inQuotes units (Data.unitEscape n ++ rest) = inQuotes (units ++ [n]) rest := by
  have hlength : (hexDigits 4 n).length = 4 := length_hexDigits (by norm_num) hn
  have hvalue := basedValue_hexDigits 4 n
  -- the digits are four, whatever they are
  rw [Data.unitEscape]
  generalize hexDigits 4 n = digits at hlength hvalue
  match digits, hlength with
  | [h₁, h₂, h₃, h₄], _ =>
    rw [← hvalue]
    rfl

theorem inQuotes_units {units' : List ℕ} (h : ∀ n ∈ units', n < 0x10000) :
    inQuotes units (units'.flatMap Data.unitEscape ++ rest) = inQuotes (units ++ units') rest := by
  induction units' generalizing units with
  | nil => rw [List.flatMap_nil, List.nil_append, List.append_nil]
  | cons n units' ih =>
    obtain ⟨hn, h⟩ := List.forall_mem_cons.1 h
    rw [List.flatMap_cons, List.append_assoc, inQuotes_unit _ _ hn, ih _ h, List.append_assoc,
      List.singleton_append]

/-- The text of a character is read as its units. -/
theorem inQuotes_jsonChar (c : Char) :
    inQuotes units (Data.jsonChar c ++ rest) = inQuotes (units ++ charUnits c) rest := by
  obtain ⟨-, hquote, hbackslash, hunits, htext⟩ | ⟨letter, -, hletter, hunits, htext⟩ | htext :=
    jsonChar_cases c
  · rw [htext, ← hunits]
    exact inQuotes_plain units rest hquote hbackslash
  · rw [htext, ← hunits]
    exact inQuotes_letter units rest hletter
  · rw [htext, inQuotes_units units rest (charUnits_lt c)]

/-- Up to the closing quote, the characters of a text are read. -/
theorem inQuotes_body (cs : List Char) :
    inQuotes units (cs.flatMap Data.jsonChar ++ doubleQuote :: rest) =
      .text (String.ofList (ofUnits (units ++ cs.flatMap charUnits))) :: lex rest := by
  -- on the characters; the units of those that were read are carried along
  induction cs generalizing units with
  | nil =>
    rw [List.flatMap_nil, List.flatMap_nil, List.append_nil, List.nil_append, inQuotes.eq_def]
    simp only [if_true]
  | cons c cs ih =>
    rw [List.flatMap_cons, List.append_assoc, inQuotes_jsonChar, ih, List.append_assoc,
      List.flatMap_cons]

end Quoted

/-- **A quoted text is read as the text**, whatever follows. -/
theorem lex_jsonString (s : String) (rest : List Char) :
    lex ((Data.jsonString s).toList ++ rest) = .text s :: lex rest := by
  have htext : (Data.jsonString s).toList ++ rest =
      doubleQuote :: (s.toList.flatMap Data.jsonChar ++ doubleQuote :: rest) := by
    simp [Data.jsonString]
  rw [htext, lex]
  simp only [if_true]
  rw [inQuotes_body, List.nil_append, ofUnits_flatMap, String.ofList_toList]

theorem prints_jsonChar (c : Char) : ∀ d ∈ Data.jsonChar c, Prints d := by
  obtain ⟨hprints, -, -, -, htext⟩ | ⟨letter, hprints, -, -, htext⟩ | htext := jsonChar_cases c
  · rw [htext]
    exact List.forall_mem_singleton.2 hprints
  · rw [htext]
    exact List.forall_mem_cons.2 ⟨by decide, List.forall_mem_singleton.2 hprints⟩
  · intro d hd
    rw [htext, List.mem_flatMap] at hd
    obtain ⟨n, -, hd⟩ := hd
    exact prints_unitEscape n d hd

theorem prints_jsonString (s : String) : ∀ c ∈ (Data.jsonString s).toList, Prints c := by
  have hquote : Prints doubleQuote := by decide
  intro c hc
  simp only [Data.jsonString, String.toList_ofList, List.mem_append, List.mem_cons,
    List.mem_flatMap, List.not_mem_nil, or_false] at hc
  rcases hc with (rfl | ⟨d, -, hd⟩) | rfl
  · exact hquote
  · exact prints_jsonChar d c hd
  · exact hquote

/-! ### Marks, gaps and words -/

section Outside

variable {rest : List Char}

theorem lex_mark {c : Char} (hc : isMark c = true) : lex (c :: rest) = .mark c :: lex rest := by
  have hquote : c ≠ doubleQuote := by
    rintro rfl
    exact absurd hc (by decide)
  rw [lex]
  simp only [if_neg hquote, if_pos hc]

theorem lex_gap {c : Char} (hc : isGap c = true) : lex (c :: rest) = .gap :: lex rest := by
  have hne {d : Char} (hd : isGap d = false) : c ≠ d := by
    rintro rfl
    exact absurd hc (by simp [hd])
  have hmark : ¬ isMark c = true := by
    simp [isMark, hne (d := '[') rfl, hne (d := ']') rfl, hne (d := '\x7b') rfl,
      hne (d := '\x7d') rfl]
  rw [lex]
  simp only [if_neg (hne (d := doubleQuote) rfl), if_neg hmark, if_pos hc]

theorem lex_inner {c : Char} (hc : isInner c = true) : lex (c :: rest) = grow c (lex rest) := by
  simp only [isInner, Bool.and_eq_true, bne_iff_ne, Bool.not_eq_true'] at hc
  obtain ⟨⟨hquote, hmark⟩, hgap⟩ := hc
  rw [lex]
  simp [hquote, hmark, hgap]

/-- In front of a gap, a character is a word of its own. -/
theorem grow_of_ended (c : Char) (hrest : Ended (!isGap ·) rest) :
    grow c (lex rest) = .word [c] :: lex rest := by
  cases rest with
  | nil => rw [lex, grow.eq_def]
  | cons d rest =>
    have hgap : isGap d = true := by simpa using hrest d rfl
    rw [lex_gap hgap, grow.eq_def]

/-- **A word is read as it stands**, as long as it ends where the text behind it
begins. -/
theorem lex_word {w : List Char} (hne : w ≠ []) (hw : ∀ c ∈ w, isInner c = true)
    (hrest : Ended (!isGap ·) rest) : lex (w ++ rest) = .word w :: lex rest := by
  induction w with
  | nil => exact absurd rfl hne
  | cons c w ih =>
    obtain ⟨hc, hw⟩ := List.forall_mem_cons.1 hw
    rw [List.cons_append, lex_inner hc]
    -- only the last character meets the text behind the word
    cases w with
    | nil => exact grow_of_ended c hrest
    | cons d w =>
      rw [ih (List.cons_ne_nil d w) hw]
      rfl

end Outside

end Json

end BlockScript
