/-
BlockScript/Proofs/Spelling.lean

The texts that are number literals, and the numbers they denote.

A literal is an integer behind a base prefix, or a decimal:

    Prefixed     0x 0X 0o 0O 0b 0B, then digits of the base
    IsDecimal    sign?  significand  exponent?

Both are stated part by part, each part with what it denotes: a row of digits
denotes a natural number, a significand a rational, an exponent a power of ten.
No text is both.  The reader accepts these texts and no others, and gives the float
nearest to the rational that is denoted.  Only a prefixed integer beyond the range
of floats has no value.
-/
import BlockScript.Evaluation.Evaluate
import BlockScript.Proofs.Nearest
import Mathlib.Data.Nat.Digits.Defs

namespace BlockScript

namespace Literal

/-! ### Digits -/

/-- The character is the digit `v` of a base up to sixteen, in either case. -/
def BasedDigit (base : ℕ) (c : Char) (v : ℕ) : Prop :=
  v < base ∧ ("0123456789abcdef".toList[v]? = some c ∨ "0123456789ABCDEF".toList[v]? = some c)

/-- The character is the decimal digit `v` of some script. -/
def DecimalDigit (c : Char) (v : ℕ) : Prop :=
  v < 10 ∧ ∃ z ∈ zeroDigits, c.toNat = z + v

theorem eq_ofNat_iff {c : Char} {k : ℕ} (hk : k < 128) : Char.ofNat k = c ↔ c.toNat = k := by
  have hascii : ∀ k < 128, (Char.ofNat k).toNat = k := by decide
  constructor
  · rintro rfl
    exact hascii k hk
  · rintro rfl
    exact Char.ofNat_toNat c

/-- A row of sixteen digits, in which the letters follow one another. -/
theorem digit_iff {digits : String} {letters : ℕ} (hletters : letters + 16 ≤ 128)
    (hdigits : ∀ v < 16, digits.toList[v]? =
      some (Char.ofNat (if v < 10 then 48 + v else letters + v)))
    {c : Char} {v : ℕ} (hv : v < 16) :
    digits.toList[v]? = some c ↔ c.toNat = if v < 10 then 48 + v else letters + v := by
  rw [hdigits v hv, Option.some_inj]
  exact eq_ofNat_iff (by split <;> omega)

theorem lower_digit_iff {c : Char} {v : ℕ} (hv : v < 16) :
    "0123456789abcdef".toList[v]? = some c ↔ c.toNat = if v < 10 then 48 + v else 87 + v :=
  digit_iff (by decide) (by decide) hv

theorem upper_digit_iff {c : Char} {v : ℕ} (hv : v < 16) :
    "0123456789ABCDEF".toList[v]? = some c ↔ c.toNat = if v < 10 then 48 + v else 55 + v :=
  digit_iff (by decide) (by decide) hv

/-- The digits of a base are those of the alphabet below it. -/
theorem basedDigit?_eq_some_iff {base : ℕ} (hbase : base ≤ 16) {c : Char} {v : ℕ} :
    basedDigit? base c = some v ↔ BasedDigit base c v := by
  have hle (a b : Char) : a ≤ b ↔ a.toNat ≤ b.toNat := Iff.rfl
  have hcode : '0'.toNat = 48 ∧ '9'.toNat = 57 ∧ 'a'.toNat = 97 ∧ 'f'.toNat = 102 ∧
      'A'.toNat = 65 ∧ 'F'.toNat = 70 := by decide
  unfold basedDigit? BasedDigit
  simp only [Option.ite_none_right_eq_some, Option.some_inj, Bool.and_eq_true, decide_eq_true_eq,
    hle, hcode]
  constructor
  · rintro ⟨hlt, rfl⟩
    refine ⟨hlt, ?_⟩
    rw [lower_digit_iff (by omega), upper_digit_iff (by omega)]
    split_ifs at hlt ⊢ <;> omega
  · -- the three ranges do not meet, so the character tells the digit
    rintro ⟨hlt, hdigit⟩
    rw [lower_digit_iff (by omega), upper_digit_iff (by omega)] at hdigit
    split_ifs at hdigit ⊢ <;> omega

/-- The digits of two scripts are apart. -/
theorem zeroDigits_apart : ∀ z ∈ zeroDigits, ∀ z' ∈ zeroDigits,
    z = z' ∨ z + 10 ≤ z' ∨ z' + 10 ≤ z := by
  decide +kernel

/-- The decimal digits are those of the known scripts. -/
theorem digitValue?_eq_some_iff {c : Char} {v : ℕ} :
    digitValue? c = some v ↔ DecimalDigit c v := by
  unfold digitValue?
  rw [Option.map_eq_some_iff]
  constructor
  · rintro ⟨z, hz, rfl⟩
    have hrange := List.find?_some hz
    simp only [Bool.and_eq_true, decide_eq_true_eq] at hrange
    exact ⟨by omega, z, List.mem_of_find?_eq_some hz, by omega⟩
  · -- the first script that fits is the only one
    rintro ⟨hv, z, hz, hc⟩
    obtain ⟨z', hz'⟩ :
        ∃ z', (zeroDigits.find? fun z => z ≤ c.toNat && c.toNat < z + 10) = some z' := by
      rw [← Option.isSome_iff_exists, List.find?_isSome]
      exact ⟨z, hz, by simp; omega⟩
    have hrange := List.find?_some hz'
    simp only [Bool.and_eq_true, decide_eq_true_eq] at hrange
    have hapart := zeroDigits_apart z hz z' (List.mem_of_find?_eq_some hz')
    exact ⟨z', hz', by omega⟩

/-! ### Rows of digits -/

/-- A row of digits spells a number in a base. -/
def Spells (digit : Char → ℕ → Prop) (base : ℕ) (cs : List Char) (n : ℕ) : Prop :=
  ∃ ds, List.Forall₂ digit cs ds ∧ n = Nat.ofDigits base ds.reverse

/-- Reading digit by digit gives the number in positional notation. -/
theorem foldl_eq_ofDigits (value? : Char → Option ℕ) (base : ℕ) (cs : List Char) :
    cs.foldl (fun n c => base * n + (value? c).getD 0) 0 =
      Nat.ofDigits base (cs.map fun c => (value? c).getD 0).reverse := by
  rw [Nat.ofDigits_eq_foldr, List.foldr_reverse, List.foldl_map]
  simp only [Nat.cast_id, add_comm]

/-- A row of digits has the row of their values, if each has one. -/
theorem forall₂_value_iff {digit : Char → ℕ → Prop} {value? : Char → Option ℕ}
    (hdigit : ∀ c v, value? c = some v ↔ digit c v) (cs : List Char) (ds : List ℕ) :
    List.Forall₂ digit cs ds ↔
      (∀ c ∈ cs, (value? c).isSome) ∧ ds = cs.map fun c => (value? c).getD 0 := by
  induction cs generalizing ds with
  | nil => simp
  | cons c cs ih =>
    rw [List.forall₂_cons_left_iff, List.forall_mem_cons, List.map_cons]
    constructor
    · rintro ⟨v, ds, hv, hds, rfl⟩
      obtain ⟨hall, rfl⟩ := (ih ds).1 hds
      rw [← hdigit] at hv
      exact ⟨⟨by rw [hv]; rfl, hall⟩, by rw [hv]; rfl⟩
    · rintro ⟨⟨hc, hall⟩, rfl⟩
      obtain ⟨v, hv⟩ := Option.isSome_iff_exists.1 hc
      exact ⟨v, _, (hdigit c v).1 hv, (ih _).2 ⟨hall, rfl⟩, by rw [hv]; rfl⟩

/-- A row of digits spells what reading it digit by digit gives. -/
theorem spells_iff {digit : Char → ℕ → Prop} {value? : Char → Option ℕ}
    (hdigit : ∀ c v, value? c = some v ↔ digit c v) {base n : ℕ} {cs : List Char} :
    Spells digit base cs n ↔ (∀ c ∈ cs, (value? c).isSome) ∧
      n = cs.foldl (fun n c => base * n + (value? c).getD 0) 0 := by
  unfold Spells
  simp only [forall₂_value_iff hdigit, foldl_eq_ofDigits]
  constructor
  · rintro ⟨ds, ⟨hall, rfl⟩, hn⟩
    exact ⟨hall, hn⟩
  · rintro ⟨hall, hn⟩
    exact ⟨_, ⟨hall, rfl⟩, hn⟩

theorem forall₂_based_iff {base : ℕ} (hbase : base ≤ 16) (cs : List Char) (ds : List ℕ) :
    List.Forall₂ (BasedDigit base) cs ds ↔ (∀ c ∈ cs, (basedDigit? base c).isSome) ∧
      ds = cs.map fun c => (basedDigit? base c).getD 0 :=
  forall₂_value_iff (fun _ _ => basedDigit?_eq_some_iff hbase) cs ds

theorem spells_based_iff {base : ℕ} (hbase : base ≤ 16) {cs : List Char} {n : ℕ} :
    Spells (BasedDigit base) base cs n ↔
      (∀ c ∈ cs, (basedDigit? base c).isSome) ∧ n = basedValue base cs :=
  spells_iff fun _ _ => basedDigit?_eq_some_iff hbase

theorem spells_decimal_iff {cs : List Char} {n : ℕ} :
    Spells DecimalDigit 10 cs n ↔ (∀ c ∈ cs, isDecimalDigit c = true) ∧ n = decimalValue cs :=
  spells_iff fun _ _ => digitValue?_eq_some_iff

theorem spells_decimalValue {cs : List Char} (hcs : ∀ c ∈ cs, isDecimalDigit c = true) :
    Spells DecimalDigit 10 cs (decimalValue cs) :=
  spells_decimal_iff.2 ⟨hcs, rfl⟩

/-! ### Integers behind a prefix -/

/-- The letters of the bases. -/
def baseMarks : List (Char × ℕ) :=
  [('x', 16), ('X', 16), ('o', 8), ('O', 8), ('b', 2), ('B', 2)]

/-- The text is a zero, the letter of a base and a row of its digits. -/
inductive Prefixed : List Char → ℕ → Prop
  | intro {mark : Char} {base : ℕ} {cs : List Char} {n : ℕ} :
      (mark, base) ∈ baseMarks → cs ≠ [] → Spells (BasedDigit base) base cs n →
      Prefixed ('0' :: mark :: cs) n

theorem base_le_of_mem {mark : Char} {base : ℕ} (h : (mark, base) ∈ baseMarks) : base ≤ 16 := by
  have hall : ∀ entry ∈ baseMarks, entry.2 ≤ 16 := by decide
  exact hall _ h

theorem basedInteger?_eq_some_iff {base : ℕ} (hbase : base ≤ 16) {cs : List Char} {n : ℕ} :
    basedInteger? base cs = some n ↔ cs ≠ [] ∧ Spells (BasedDigit base) base cs n := by
  rw [spells_based_iff hbase, basedInteger?, Option.ite_none_right_eq_some, Bool.and_eq_true,
    decide_eq_true_eq, List.all_eq_true, Option.some_inj, and_assoc, eq_comm]

/-- The letter of a base tells in which base the digits are read. -/
theorem prefixed?_mark {mark : Char} {base : ℕ} (h : (mark, base) ∈ baseMarks) (cs : List Char) :
    prefixed? ('0' :: mark :: cs) = basedInteger? base cs := by
  simp only [baseMarks, List.mem_cons, Prod.mk.injEq, List.not_mem_nil, or_false] at h
  rcases h with ⟨rfl, rfl⟩ | ⟨rfl, rfl⟩ | ⟨rfl, rfl⟩ | ⟨rfl, rfl⟩ | ⟨rfl, rfl⟩ | ⟨rfl, rfl⟩ <;> rfl

theorem exists_mark_of_prefixed? {cs : List Char} {n : ℕ} (h : prefixed? cs = some n) :
    ∃ mark base ds, cs = '0' :: mark :: ds ∧ (mark, base) ∈ baseMarks ∧
      basedInteger? base ds = some n := by
  unfold prefixed? at h
  split at h
  next mark ds =>
    simp only [Bool.or_eq_true, decide_eq_true_eq] at h
    split_ifs at h with hhex hoctal hbinary
    · exact ⟨mark, 16, ds, rfl, by rcases hhex with rfl | rfl <;> decide, h⟩
    · exact ⟨mark, 8, ds, rfl, by rcases hoctal with rfl | rfl <;> decide, h⟩
    · exact ⟨mark, 2, ds, rfl, by rcases hbinary with rfl | rfl <;> decide, h⟩
  next => cases h

/-- **Prefixed integers are read, and nothing else is read as one.** -/
theorem prefixed?_eq_some_iff {cs : List Char} {n : ℕ} : prefixed? cs = some n ↔ Prefixed cs n := by
  constructor
  · intro h
    obtain ⟨mark, base, ds, rfl, hmark, hds⟩ := exists_mark_of_prefixed? h
    obtain ⟨hne, hspells⟩ := (basedInteger?_eq_some_iff (base_le_of_mem hmark)).1 hds
    exact .intro hmark hne hspells
  · rintro ⟨hmark, hne, hspells⟩
    rw [prefixed?_mark hmark, basedInteger?_eq_some_iff (base_le_of_mem hmark)]
    exact ⟨hne, hspells⟩

/-! ### Decimals -/

/-- A sign, or none. -/
inductive Signs : List Char → Bool → Prop
  | none : Signs [] false
  | plus : Signs ['+'] false
  | minus : Signs ['-'] true

/-- Digits with or without a point; the point may come first or last. -/
inductive Significand : List Char → ℚ → Prop
  | whole {cs : List Char} {n : ℕ} : cs ≠ [] → Spells DecimalDigit 10 cs n → Significand cs n
  | point {whole fraction : List Char} {n k : ℕ} : whole ≠ [] ∨ fraction ≠ [] →
      Spells DecimalDigit 10 whole n → Spells DecimalDigit 10 fraction k →
      Significand (whole ++ '.' :: fraction) (n + k / 10 ^ fraction.length)

/-- An exponent, or none. -/
inductive Scale : List Char → ℤ → Prop
  | none : Scale [] 0
  | power {mark : Char} {sign digits : List Char} {negative : Bool} {n : ℕ} :
      mark ∈ ['e', 'E'] → Signs sign negative → digits ≠ [] → Spells DecimalDigit 10 digits n →
      Scale (mark :: (sign ++ digits)) (if negative then -n else n)

/-- The text is a decimal of a sign and a magnitude. -/
inductive IsDecimal : List Char → Bool → ℚ → Prop
  | intro {sign significand scale : List Char} {negative : Bool} {q : ℚ} {e : ℤ} :
      Signs sign negative → Significand significand q → Scale scale e →
      IsDecimal (sign ++ (significand ++ scale)) negative (q * 10 ^ e)

/-- The text does not begin with a sign. -/
def Unsigned (cs : List Char) : Prop :=
  ∀ c ∈ cs.head?, c ≠ '+' ∧ c ≠ '-'

theorem unsigned_digits {ds : List Char} (hne : ds ≠ []) (hds : ∀ c ∈ ds, isDecimalDigit c = true)
    (rest : List Char) : Unsigned (ds ++ rest) := by
  cases ds with
  | nil => exact absurd rfl hne
  | cons d ds =>
    rintro _ ⟨⟩
    have hd := hds d List.mem_cons_self
    constructor
    · rintro rfl
      exact absurd hd (by decide)
    · rintro rfl
      exact absurd hd (by decide)

theorem unsigned_point {ds : List Char} (hds : ∀ c ∈ ds, isDecimalDigit c = true)
    (rest : List Char) : Unsigned (ds ++ '.' :: rest) := by
  cases ds with
  | nil =>
    rintro _ ⟨⟩
    decide
  | cons d ds => exact unsigned_digits (List.cons_ne_nil d ds) hds _

/-- A sign is split off what does not begin with another. -/
theorem splitSign_of_signs {sign cs : List Char} {negative : Bool} (hsign : Signs sign negative)
    (hcs : Unsigned cs) : splitSign (sign ++ cs) = (negative, cs) := by
  cases hsign with
  | none =>
    show splitSign cs = _
    unfold splitSign
    split
    next => exact absurd rfl (hcs _ rfl).2
    next => exact absurd rfl (hcs _ rfl).1
    next => rfl
  | plus => rfl
  | minus => rfl

theorem exists_signs {cs rest : List Char} {negative : Bool}
    (h : splitSign cs = (negative, rest)) : ∃ sign, Signs sign negative ∧ cs = sign ++ rest := by
  unfold splitSign at h
  split at h <;> cases h
  · exact ⟨_, .minus, rfl⟩
  · exact ⟨_, .plus, rfl⟩
  · exact ⟨_, .none, rfl⟩

/-- An exponent is a letter, perhaps a sign, and digits. -/
theorem exponentPart?_cons {mark : Char} {cs digits : List Char} {negative : Bool} {e : ℤ}
    (hsplit : splitSign cs = (negative, digits)) :
    exponentPart? (mark :: cs) = some e ↔ mark ∈ ['e', 'E'] ∧ digits ≠ [] ∧
      (∀ c ∈ digits, isDecimalDigit c = true) ∧
      e = if negative then -(decimalValue digits : ℤ) else decimalValue digits := by
  unfold exponentPart?
  dsimp only
  rw [hsplit]
  simp only [Option.ite_none_right_eq_some, Bool.and_eq_true, Bool.or_eq_true, decide_eq_true_eq,
    List.all_eq_true, Option.some_inj, List.mem_cons, List.not_mem_nil, or_false, and_assoc]
  rw [@eq_comm ℤ e]

/-- **Exponents are read, and nothing else is read as one.** -/
theorem exponentPart?_eq_some_iff {cs : List Char} {e : ℤ} :
    exponentPart? cs = some e ↔ Scale cs e := by
  constructor
  · cases cs with
    | nil =>
      rintro ⟨⟩
      exact .none
    | cons mark cs =>
      intro h
      rcases hsplit : splitSign cs with ⟨negative, digits⟩
      obtain ⟨hmark, hne, hdigits, rfl⟩ := (exponentPart?_cons hsplit).1 h
      obtain ⟨sign, hsign, rfl⟩ := exists_signs hsplit
      exact .power hmark hsign hne (spells_decimalValue hdigits)
  · rintro (- | ⟨hmark, hsign, hne, hspells⟩)
    · rfl
    · -- the digits are not taken for a sign
      obtain ⟨hdigits, rfl⟩ := spells_decimal_iff.1 hspells
      have hunsigned := unsigned_digits hne hdigits []
      rw [List.append_nil] at hunsigned
      exact (exponentPart?_cons (splitSign_of_signs hsign hunsigned)).2 ⟨hmark, hne, hdigits, rfl⟩

/-- An exponent does not begin with a digit, so the digits before it end there. -/
theorem Scale.ended {cs : List Char} {e : ℤ} (h : Scale cs e) : Ended isDecimalDigit cs := by
  cases h with
  | none => exact ended_nil
  | power hmark =>
    apply ended_cons
    simp only [List.mem_cons, List.not_mem_nil, or_false] at hmark
    rcases hmark with rfl | rfl <;> decide

/-- Nothing is split off but behind a point. -/
theorem splitFraction_of_scale {cs : List Char} {e : ℤ} (h : Scale cs e) :
    splitFraction cs = ([], cs) := by
  unfold splitFraction
  split
  · cases h with
    | power hmark => exact absurd hmark (by decide)
  · rfl

/-- Digits in front count for powers of ten more. -/
theorem decimalValue_append (whole fraction : List Char) :
    decimalValue (whole ++ fraction) =
      decimalValue whole * 10 ^ fraction.length + decimalValue fraction := by
  unfold decimalValue
  simp only [foldl_eq_ofDigits, List.map_append, List.reverse_append, Nat.ofDigits_append,
    List.length_reverse, List.length_map]
  ring

/-- The digits around a point, taken together, count units of the last place. -/
theorem value_split (whole fraction : List Char) (e : ℤ) :
    (⟨decimalValue (whole ++ fraction), e - fraction.length⟩ : Decimal).value =
      (decimalValue whole + decimalValue fraction / 10 ^ fraction.length : ℚ) * 10 ^ e := by
  rw [Decimal.value, decimalValue_append, zpow_sub₀ (by norm_num), zpow_natCast]
  push_cast
  field_simp

/-- Every decimal is read, as one of its sign and magnitude. -/
theorem IsDecimal.reads {cs : List Char} {negative : Bool} {q : ℚ} (h : IsDecimal cs negative q) :
    ∃ d : Decimal, decimal? cs = some (.decimal negative d) ∧ d.value = q := by
  obtain ⟨hsign, hsignificand, hscale⟩ := h
  have hexponent := exponentPart?_eq_some_iff.2 hscale
  cases hsignificand with
  | whole hne hspells =>
    obtain ⟨hdigits, rfl⟩ := spells_decimal_iff.1 hspells
    refine ⟨_, decimal?_of_split (splitSign_of_signs hsign (unsigned_digits hne hdigits _)) hdigits
      hscale.ended (splitFraction_of_scale hscale) (.inl hne) hexponent, ?_⟩
    rw [value_split]
    simp [decimalValue]
  | point hne hwhole hfraction =>
    -- the point ends the whole digits, and the exponent ends the fraction
    obtain ⟨hwhole', rfl⟩ := spells_decimal_iff.1 hwhole
    obtain ⟨hfraction', rfl⟩ := spells_decimal_iff.1 hfraction
    rw [List.append_assoc, List.cons_append]
    exact ⟨_, decimal?_of_split (splitSign_of_signs hsign (unsigned_point hwhole' _)) hwhole'
      (ended_cons (by decide) _) (splitFraction_point hfraction' hscale.ended) hne hexponent,
      value_split ..⟩

theorem eq_append_of_span {cs ds rest : List Char} (h : cs.span isDecimalDigit = (ds, rest)) :
    cs = ds ++ rest ∧ ∀ c ∈ ds, isDecimalDigit c = true := by
  rw [List.span_eq_takeWhile_dropWhile] at h
  cases h
  exact ⟨List.takeWhile_append_dropWhile.symm, List.all_eq_true.1 List.all_takeWhile⟩

/-- A fraction is split off behind a point only. -/
theorem splitFraction_cases {rest fraction tail : List Char}
    (h : splitFraction rest = (fraction, tail)) :
    (fraction = [] ∧ rest = tail) ∨
      (rest = '.' :: (fraction ++ tail) ∧ ∀ c ∈ fraction, isDecimalDigit c = true) := by
  unfold splitFraction at h
  split at h
  · obtain ⟨rfl, hfraction⟩ := eq_append_of_span h
    exact .inr ⟨rfl, hfraction⟩
  · cases h
    exact .inl ⟨rfl, rfl⟩

/-- The parts that a decimal is read from. -/
theorem exists_split_of_decimal? {cs : List Char} {literal : Literal}
    (h : decimal? cs = some literal) :
    ∃ negative whole rest fraction tail e, splitSign cs = (negative, whole ++ rest) ∧
      (∀ c ∈ whole, isDecimalDigit c = true) ∧ splitFraction rest = (fraction, tail) ∧
      (whole ≠ [] ∨ fraction ≠ []) ∧ exponentPart? tail = some e ∧
      literal = .decimal negative ⟨decimalValue (whole ++ fraction), e - fraction.length⟩ := by
  rcases hsign : splitSign cs with ⟨negative, unsigned⟩
  rcases hspan : unsigned.span isDecimalDigit with ⟨whole, rest⟩
  rcases hfraction : splitFraction rest with ⟨fraction, tail⟩
  obtain ⟨rfl, hwhole⟩ := eq_append_of_span hspan
  simp only [decimal?, hsign, hspan, hfraction, Option.ite_none_left_eq_some, Bool.and_eq_true,
    decide_eq_true_eq, not_and_or, Option.map_eq_some_iff] at h
  obtain ⟨hne, e, he, rfl⟩ := h
  exact ⟨negative, whole, rest, fraction, tail, e, rfl, hwhole, hfraction, hne, he, rfl⟩

/-- What is read as a decimal is one. -/
theorem isDecimal_of_decimal? {cs : List Char} {literal : Literal}
    (h : decimal? cs = some literal) :
    ∃ negative d, literal = .decimal negative d ∧ IsDecimal cs negative d.value := by
  obtain ⟨negative, whole, rest, fraction, tail, e, hsplit, hwhole, hfraction, hne, he, rfl⟩ :=
    exists_split_of_decimal? h
  obtain ⟨sign, hsign, rfl⟩ := exists_signs hsplit
  refine ⟨negative, _, rfl, ?_⟩
  have hscale := exponentPart?_eq_some_iff.1 he
  have hspells := spells_decimalValue hwhole
  rcases splitFraction_cases hfraction with ⟨rfl, rfl⟩ | ⟨rfl, hdigits⟩
  · -- without a point there must be whole digits
    have hsignificand := Significand.whole (hne.resolve_right fun h => h rfl) hspells
    have hdecimal := IsDecimal.intro hsign hsignificand hscale
    rw [value_split]
    simpa [decimalValue] using hdecimal
  · have hsignificand := Significand.point hne hspells (spells_decimalValue hdigits)
    have hdecimal := IsDecimal.intro hsign hsignificand hscale
    rwa [List.append_assoc, List.cons_append, ← value_split] at hdecimal

/-! ### Both kinds of literals -/

/-- The characters of decimals. -/
def IsPart (c : Char) : Prop :=
  isDecimalDigit c = true ∨ c ∈ ['+', '-', '.', 'e', 'E']

instance : DecidablePred IsPart :=
  fun _ => inferInstanceAs (Decidable (_ ∨ _))

theorem Spells.isPart {cs : List Char} {n : ℕ} (h : Spells DecimalDigit 10 cs n) :
    ∀ c ∈ cs, IsPart c :=
  fun c hc => .inl ((spells_decimal_iff.1 h).1 c hc)

theorem Signs.isPart {cs : List Char} {negative : Bool} (h : Signs cs negative) :
    ∀ c ∈ cs, IsPart c := by
  cases h with
  | none => exact List.forall_mem_nil _
  | plus => exact List.forall_mem_singleton.2 (by decide)
  | minus => exact List.forall_mem_singleton.2 (by decide)

theorem Significand.isPart {cs : List Char} {q : ℚ} (h : Significand cs q) :
    ∀ c ∈ cs, IsPart c := by
  cases h with
  | whole _ hspells => exact hspells.isPart
  | point _ hwhole hfraction =>
    rw [List.forall_mem_append, List.forall_mem_cons]
    exact ⟨hwhole.isPart, by decide, hfraction.isPart⟩

theorem Scale.isPart {cs : List Char} {e : ℤ} (h : Scale cs e) : ∀ c ∈ cs, IsPart c := by
  cases h with
  | none => exact List.forall_mem_nil _
  | power hmark hsign _ hspells =>
    rw [List.forall_mem_cons, List.forall_mem_append]
    refine ⟨.inr ?_, hsign.isPart, hspells.isPart⟩
    exact List.mem_of_mem_drop (i := 3) hmark

/-- Decimals are made of digits, signs, a point and the letter of an exponent. -/
theorem IsDecimal.isPart {cs : List Char} {negative : Bool} {q : ℚ} (h : IsDecimal cs negative q) :
    ∀ c ∈ cs, IsPart c := by
  obtain ⟨hsign, hsignificand, hscale⟩ := h
  rw [List.forall_mem_append, List.forall_mem_append]
  exact ⟨hsign.isPart, hsignificand.isPart, hscale.isPart⟩

/-- No decimal is a prefixed integer: the letters of the bases do not occur in it. -/
theorem IsDecimal.prefixed?_eq_none {cs : List Char} {negative : Bool} {q : ℚ}
    (h : IsDecimal cs negative q) : prefixed? cs = none := by
  have hmarks : ∀ entry ∈ baseMarks, ¬ IsPart entry.1 := by decide
  rw [Option.eq_none_iff_forall_ne_some]
  intro n hn
  obtain ⟨mark, base, ds, rfl, hmark, -⟩ := exists_mark_of_prefixed? hn
  exact hmarks _ hmark (h.isPart mark (by simp))

end Literal

/-! ### The value of a literal -/

open Literal

theorem Decimal.value_nonneg (d : Decimal) : 0 ≤ d.value := by
  unfold Decimal.value
  positivity

/-- The value of a decimal is the nearest float. -/
theorem Decimal.toFloat_isNearest (d : Decimal) (negative : Bool) :
    IsNearest negative d.value (d.toFloat negative) := by
  rw [Decimal.toFloat_eq d.rounded_nearestBits]
  exact d.rounded_nearestBits.isNearest d.value_nonneg negative

theorem rounded_natCast (n : ℕ) : Rounded n (nearestBits n 1) := by
  have hround := nearestBits_rounded n one_pos
  rwa [Nat.cast_one, div_one] at hround

theorem nearest_natCast_isNearest (n : ℕ) : IsNearest false n (nearest false n 1) :=
  (rounded_natCast n).isNearest (Nat.cast_nonneg n) false

/-- An integer has the nearest float as its value, below the limit. -/
theorem ofInt?_natCast (n : ℕ) :
    ofInt? n = if (n : ℚ) < overflowLimit then some (nearest false n 1) else none := by
  unfold ofInt?
  simp only [Int.natAbs_natCast, (rounded_natCast n).lt_infinityBits_iff]
  rfl

section Text

variable {text : String}

/-- A prefixed integer has the value of the nearest float, unless that is infinite. -/
theorem literalValue_of_prefixed {n : ℕ} (h : Prefixed (strip text).toList n) :
    literalValue text = if (n : ℚ) < overflowLimit then .ok (nearest false n 1)
      else .error (.hard .integerOverflow) := by
  have hread : read? text = some (.integer n) := by
    rw [read?, prefixed?_eq_some_iff.2 h]
  rw [literalValue, hread]
  dsimp only [value?]
  rw [ofInt?_natCast]
  by_cases hn : (n : ℚ) < overflowLimit
  · rw [if_pos hn, if_pos hn]
  · rw [if_neg hn, if_neg hn]

/-- A decimal has the value of the nearest float. -/
theorem literalValue_of_isDecimal {negative : Bool} {q : ℚ}
    (h : IsDecimal (strip text).toList negative q) :
    ∃ d : Decimal, d.value = q ∧ literalValue text = .ok (d.toFloat negative) := by
  obtain ⟨d, hd, hvalue⟩ := h.reads
  have hread : read? text = some (.decimal negative d) := by
    rw [read?, h.prefixed?_eq_none, hd]
  exact ⟨d, hvalue, by rw [literalValue, hread]; rfl⟩

/-- Other texts have none. -/
theorem literalValue_of_neither (hprefixed : ¬ ∃ n, Prefixed (strip text).toList n)
    (hdecimal : ¬ ∃ negative q, IsDecimal (strip text).toList negative q) :
    literalValue text = .error (.soft (.badLiteral text)) := by
  have hread : read? text = none := by
    have hnone : prefixed? (strip text).toList = none :=
      Option.eq_none_iff_forall_ne_some.2 fun n hn => hprefixed ⟨n, prefixed?_eq_some_iff.1 hn⟩
    rw [read?, hnone]
    refine Option.eq_none_iff_forall_ne_some.2 fun literal hliteral => hdecimal ?_
    obtain ⟨negative, d, -, h⟩ := isDecimal_of_decimal? hliteral
    exact ⟨negative, _, h⟩
  rw [literalValue, hread]

end Text

/-- **The literals are the texts of the grammar, and their values are rounded
correctly.**  A text is refused if it is neither a prefixed integer nor a decimal.
A decimal has the float nearest to it as its value, with its sign; so has a prefixed
integer, unless it rounds beyond the largest number. -/
theorem literal_values_of_grammar (text : String) :
    (literalValue text = .error (.soft (.badLiteral text)) ↔
      (¬ ∃ n, Prefixed (strip text).toList n) ∧
        ¬ ∃ negative q, IsDecimal (strip text).toList negative q) ∧
    (∀ negative q, IsDecimal (strip text).toList negative q →
      ∃ x, literalValue text = .ok x ∧ IsNearest negative q x) ∧
    (∀ n, Prefixed (strip text).toList n →
      if (n : ℚ) < overflowLimit then ∃ x, literalValue text = .ok x ∧ IsNearest false n x
      else literalValue text = .error (.hard .integerOverflow)) := by
  refine ⟨⟨fun h => ⟨?_, ?_⟩, fun h => literalValue_of_neither h.1 h.2⟩, fun negative q hq => ?_,
    fun n hn => ?_⟩
  · rintro ⟨n, hn⟩
    rw [literalValue_of_prefixed hn] at h
    split at h <;> cases h
  · rintro ⟨negative, q, hq⟩
    obtain ⟨d, -, hd⟩ := literalValue_of_isDecimal hq
    rw [hd] at h
    cases h
  · obtain ⟨d, rfl, hd⟩ := literalValue_of_isDecimal hq
    exact ⟨_, hd, d.toFloat_isNearest negative⟩
  · rw [literalValue_of_prefixed hn]
    split
    · exact ⟨_, rfl, nearest_natCast_isNearest n⟩
    · rfl

/-- Halfway between two numbers, in digits of two scripts and with blanks around, and
the same integer behind a prefix. -/
theorem literal_values_of_grammar_of_tie :
    IsDecimal (strip " -٩007199254740.993E+3\n").toList true (9007199254740993 : ℕ) ∧
    Prefixed (strip "\t0X20000000000001").toList 9007199254740993 ∧
    ∃ x y, literalValue " -٩007199254740.993E+3\n" = .ok x ∧
      literalValue "\t0X20000000000001" = .ok y ∧
      IsNearest true (9007199254740993 : ℕ) x ∧ IsNearest false (9007199254740993 : ℕ) y := by
  have hdecimal : IsDecimal (strip " -٩007199254740.993E+3\n").toList true
      (9007199254740993 : ℕ) := by
    have htext : (strip " -٩007199254740.993E+3\n").toList =
        ['-'] ++ ("٩007199254740".toList ++ '.' :: "993".toList ++ 'E' :: (['+'] ++ ['3'])) := by
      decide
    have hvalue : ((9007199254740993 : ℕ) : ℚ) =
        ((9007199254740 : ℕ) + (993 : ℕ) / 10 ^ "993".toList.length) * 10 ^ ((3 : ℕ) : ℤ) := by
      rw [show "993".toList.length = 3 by decide]
      norm_num
    rw [htext, hvalue]
    exact .intro .minus
      (.point (.inl (by decide)) (spells_decimalValue (List.all_eq_true.1 (by decide)))
        (spells_decimalValue (List.all_eq_true.1 (by decide))))
      (.power (by decide) .plus (by decide) (spells_decimalValue (List.all_eq_true.1 (by decide))))
  have hprefixed : Prefixed (strip "\t0X20000000000001").toList 9007199254740993 :=
    prefixed?_eq_some_iff.1 (by decide)
  obtain ⟨x, hx, hnearest⟩ :=
    (literal_values_of_grammar " -٩007199254740.993E+3\n").2.1 _ _ hdecimal
  have hvalue := (literal_values_of_grammar "\t0X20000000000001").2.2 _ hprefixed
  rw [if_pos ((rounded_natCast _).lt_infinityBits_iff.1 (by decide))] at hvalue
  obtain ⟨y, hy, hnearest'⟩ := hvalue
  exact ⟨hdecimal, hprefixed, x, y, hx, hy, hnearest, hnearest'⟩

end BlockScript
