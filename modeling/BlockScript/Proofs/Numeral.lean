/-
BlockScript/Proofs/Numeral.lean

Decimals, the texts they are laid out in, and the floats they are rounded to.

A decimal stands for the rational `digits · 10^exponent`.  Laid out, it is a row
of digits with a point somewhere in it or with an exponent behind it:

    positional   1234.5    1234500.0    0.0012345
    scientific   1e+16     1.2345e-05

Each of these texts reads as a decimal of the same value, with the sign that was
put in front.  Rounding takes nothing but the value into account, not even where
it settles far exponents without computing the power.
-/
import BlockScript.Number.Literal
import BlockScript.Proofs.Rounding

namespace BlockScript

/-! ### The value of a decimal -/

namespace Decimal

/-- The rational that a decimal stands for. -/
def value (d : Decimal) : ℚ :=
  d.digits * 10 ^ d.exponent

theorem value_eq_div (d : Decimal) :
    ((d.digits * 10 ^ d.exponent.toNat : ℕ) : ℚ) / (10 ^ (-d.exponent).toNat : ℕ) = d.value :=
  mul_zpow_eq_div (by norm_num) d.digits d.exponent

/-- The fraction that a decimal is computed from is rounded like its value. -/
theorem rounded_nearestBits (d : Decimal) :
    Rounded d.value
      (nearestBits (d.digits * 10 ^ d.exponent.toNat) (10 ^ (-d.exponent).toNat)) := by
  rw [← value_eq_div]
  exact nearestBits_rounded _ (by positivity)

/-- Past 400 decimal places, anything but zero is infinite. -/
theorem eq_infinityBits {d : Decimal} {bits : ℕ} (h : Rounded d.value bits) (hdigits : d.digits ≠ 0)
    (hexp : 400 < d.exponent) : bits = infinityBits := by
  apply h.eq_infinityBits
  have hone : (1 : ℚ) ≤ d.digits := by exact_mod_cast Nat.one_le_iff_ne_zero.2 hdigits
  have hpowers : 2 ^ 1024 ≤ 10 ^ 400 := by decide +kernel
  calc (2 : ℚ) ^ (1024 : ℤ) ≤ 10 ^ (400 : ℤ) := by exact_mod_cast hpowers
    _ ≤ 10 ^ d.exponent := zpow_le_zpow_right₀ (by norm_num) hexp.le
    _ ≤ d.value := le_mul_of_one_le_left (by positivity) hone

/-- Below 400 decimal places everything is zero. -/
theorem eq_zero {d : Decimal} {bits : ℕ} (h : Rounded d.value bits)
    (hexp : d.exponent + d.digits.log2 < -400) : bits = 0 := by
  apply h.eq_zero
  have hpowers : 2 ^ 1075 ≤ 10 ^ 400 := by decide +kernel
  -- each binary digit is outweighed by a decimal one
  calc d.value ≤ 2 ^ ((d.digits.log2 : ℤ) + 1) * 10 ^ d.exponent := by
        unfold value
        gcongr
        exact (lt_two_pow_log2 _).le
    _ ≤ 10 ^ ((d.digits.log2 : ℤ) + 1) * 10 ^ d.exponent := by
        gcongr
        exact zpow_le_zpow_left₀ (by omega) (by norm_num) (by norm_num)
    _ = 10 ^ ((d.digits.log2 : ℤ) + 1 + d.exponent) := by rw [← zpow_add₀ (by norm_num)]
    _ ≤ 10 ^ (-400 : ℤ) := zpow_le_zpow_right₀ (by norm_num) (by omega)
    _ ≤ 2 ^ (-1075 : ℤ) := by
        rw [zpow_neg, zpow_neg]
        apply inv_anti₀ (by positivity)
        exact_mod_cast hpowers

/-- The float of a decimal is the one its value is rounded to. -/
theorem toFloat_eq {d : Decimal} {bits : ℕ} (h : Rounded d.value bits) (negative : Bool) :
    d.toFloat negative = ofSignBits negative bits := by
  have hzero : nearestBits 0 1 = 0 := rfl
  unfold toFloat
  split
  next hdigits =>
    -- zero is rounded to zero, at any exponent
    have hbits : bits = 0 := by
      apply h.eq_zero
      rw [value, hdigits, Nat.cast_zero, zero_mul]
      positivity
    rw [nearest, hzero, hbits]
  next hdigits =>
    split
    next hexp => rw [infinity, eq_infinityBits h hdigits hexp]
    next =>
      split
      next hexp => rw [nearest, hzero, eq_zero h hexp]
      next => rw [nearest, Nat.pow_eq, Nat.pow_eq, d.rounded_nearestBits.eq h]

end Decimal

/-! ### The value of a row of digits -/

/-- The ASCII digits are the first row of digits. -/
theorem digitValue?_of_isDigit {c : Char} (hc : c.isDigit) :
    digitValue? c = some (c.toNat - '0'.toNat) := by
  have hrange : 48 ≤ c.toNat ∧ c.toNat ≤ 57 := Char.isDigit_iff_toNat.1 hc
  have hfind : (zeroDigits.find? fun z => z ≤ c.toNat && c.toNat < z + 10) = some 0x30 := by
    rw [zeroDigits, List.find?_cons_of_pos]
    simp
    omega
  rw [digitValue?, hfind]
  rfl

theorem isDecimalDigit_of_isDigit {c : Char} (hc : c.isDigit) : isDecimalDigit c = true := by
  rw [isDecimalDigit, digitValue?_of_isDigit hc]
  rfl

theorem isDecimalDigit_of_digits {cs : List Char} (hcs : ∀ c ∈ cs, c.isDigit) :
    ∀ c ∈ cs, isDecimalDigit c = true :=
  fun c hc => isDecimalDigit_of_isDigit (hcs c hc)

/-- On ASCII digits the value of a row is the usual one. -/
theorem decimalValue_eq_ofDigitChars {cs : List Char} (hcs : ∀ c ∈ cs, c.isDigit) :
    decimalValue cs = Nat.ofDigitChars 10 cs 0 := by
  apply List.foldl_ext
  intro n c hc
  rw [digitValue?_of_isDigit (hcs c hc)]
  rfl

theorem isDigit_toDigits {n : ℕ} : ∀ c ∈ Nat.toDigits 10 n, c.isDigit :=
  fun _ hc => Nat.isDigit_of_mem_toDigits (by norm_num) le_rfl hc

theorem isDigit_zeros {k : ℕ} : ∀ c ∈ List.replicate k '0', c.isDigit :=
  fun _ hc => by
    rw [List.eq_of_mem_replicate hc]
    rfl

/-- Zeros at the end multiply by powers of ten. -/
theorem decimalValue_append_zeros {cs : List Char} (hcs : ∀ c ∈ cs, c.isDigit) (k : ℕ) :
    decimalValue (cs ++ List.replicate k '0') = decimalValue cs * 10 ^ k := by
  have happend : ∀ c ∈ cs ++ List.replicate k '0', c.isDigit :=
    List.forall_mem_append.2 ⟨hcs, isDigit_zeros⟩
  rw [decimalValue_eq_ofDigitChars happend, decimalValue_eq_ofDigitChars hcs,
    Nat.ofDigitChars_append, Nat.ofDigitChars_replicate_zero, mul_comm]

/-- Zeros in front make no difference. -/
theorem decimalValue_zeros_append {cs : List Char} (hcs : ∀ c ∈ cs, c.isDigit) (k : ℕ) :
    decimalValue (List.replicate k '0' ++ cs) = decimalValue cs := by
  have happend : ∀ c ∈ List.replicate k '0' ++ cs, c.isDigit :=
    List.forall_mem_append.2 ⟨isDigit_zeros, hcs⟩
  rw [decimalValue_eq_ofDigitChars happend, decimalValue_eq_ofDigitChars hcs,
    Nat.ofDigitChars_append, Nat.ofDigitChars_replicate_zero, mul_zero]

theorem decimalValue_toDigits (n : ℕ) : decimalValue (Nat.toDigits 10 n) = n := by
  rw [decimalValue_eq_ofDigitChars isDigit_toDigits, Nat.ofDigitChars_ten_toDigits]

/-! ### Reading a decimal part by part -/

/-- A minus in front of a negative number, nothing in front of another. -/
def signText (negative : Bool) : List Char :=
  if negative then ['-'] else []

/-- A run is taken off a text up to where it ends. -/
theorem span_of_ended {inside : Char → Bool} {run rest : List Char}
    (hrun : ∀ c ∈ run, inside c = true) (hrest : Ended inside rest) :
    (run ++ rest).span inside = (run, rest) := by
  have hfirst : rest.takeWhile inside = [] ∧ rest.dropWhile inside = rest := by
    cases rest with
    | nil => exact ⟨rfl, rfl⟩
    | cons c cs =>
      have hc : ¬ inside c = true := by simp [hrest c rfl]
      exact ⟨List.takeWhile_cons_of_neg hc, List.dropWhile_cons_of_neg hc⟩
  rw [List.span_eq_takeWhile_dropWhile, List.takeWhile_append_of_pos hrun,
    List.dropWhile_append_of_pos hrun, hfirst.1, hfirst.2, List.append_nil]

namespace Literal

/-- The sign is split off again, as the first digit is not one. -/
theorem splitSign_signText {negative : Bool} {c : Char} (hc : c.isDigit) (cs : List Char) :
    splitSign (signText negative ++ c :: cs) = (negative, c :: cs) := by
  cases negative with
  | true => rfl
  | false =>
    -- a digit is neither of the two signs
    show splitSign (c :: cs) = _
    unfold splitSign
    split
    next heq =>
      cases heq
      exact absurd hc (by decide)
    next heq =>
      cases heq
      exact absurd hc (by decide)
    next => rfl

theorem splitFraction_point {fraction tail : List Char}
    (hfraction : ∀ c ∈ fraction, isDecimalDigit c = true) (htail : Ended isDecimalDigit tail) :
    splitFraction ('.' :: (fraction ++ tail)) = (fraction, tail) :=
  span_of_ended hfraction htail

theorem splitFraction_last {fraction : List Char}
    (hfraction : ∀ c ∈ fraction, isDecimalDigit c = true) :
    splitFraction ('.' :: fraction) = (fraction, []) := by
  have h := splitFraction_point hfraction ended_nil
  rwa [List.append_nil] at h

theorem exponentPart?_signed (negative : Bool) {digits : List Char} (hne : digits ≠ [])
    (hdigits : ∀ c ∈ digits, c.isDigit) :
    exponentPart? ('e' :: (if negative then '-' else '+') :: digits) =
      some (if negative then -(decimalValue digits : ℤ) else decimalValue digits) := by
  have hall : digits.all isDecimalDigit = true :=
    List.all_eq_true.2 (isDecimalDigit_of_digits hdigits)
  cases negative <;> simp [exponentPart?, splitSign, hne, hall]

/-- A decimal is read from its sign, its whole digits, its fraction and its
exponent. -/
theorem decimal?_of_split {cs whole rest fraction tail : List Char} {negative : Bool} {e : ℤ}
    (hsign : splitSign cs = (negative, whole ++ rest))
    (hwhole : ∀ c ∈ whole, isDecimalDigit c = true) (hrest : Ended isDecimalDigit rest)
    (hfraction : splitFraction rest = (fraction, tail)) (hne : whole ≠ [] ∨ fraction ≠ [])
    (he : exponentPart? tail = some e) :
    decimal? cs =
      some (.decimal negative ⟨decimalValue (whole ++ fraction), e - fraction.length⟩) := by
  unfold decimal?
  rw [hsign]
  dsimp only
  rw [span_of_ended hwhole hrest]
  dsimp only
  rw [hfraction]
  dsimp only
  rw [he, if_neg]
  · rfl
  · rw [Bool.and_eq_true, decide_eq_true_iff, decide_eq_true_iff]
    exact not_and_or.2 hne

theorem decimal?_spelled (negative : Bool) {whole rest fraction tail : List Char} {e : ℤ}
    (hne : whole ≠ []) (hwhole : ∀ c ∈ whole, c.isDigit) (hrest : Ended isDecimalDigit rest)
    (hfraction : splitFraction rest = (fraction, tail)) (he : exponentPart? tail = some e) :
    decimal? (signText negative ++ (whole ++ rest)) =
      some (.decimal negative ⟨decimalValue (whole ++ fraction), e - fraction.length⟩) := by
  have hsign : splitSign (signText negative ++ (whole ++ rest)) = (negative, whole ++ rest) := by
    cases whole with
    | nil => exact absurd rfl hne
    | cons c cs => exact splitSign_signText (hwhole c List.mem_cons_self) _
  exact decimal?_of_split hsign (isDecimalDigit_of_digits hwhole) hrest hfraction (.inl hne) he

end Literal

/-! ### Reading a decimal that was laid out -/

namespace Decimal

open Literal

/-- Zeros fill up to the point, and one stands behind it. -/
theorem reads_filled (d : Decimal) (negative : Bool) (hexp : 0 ≤ d.exponent) :
    ∃ d' : Decimal, decimal? (signText negative ++ (Nat.toDigits 10 d.digits ++
      List.replicate d.exponent.toNat '0' ++ ['.', '0'])) = some (.decimal negative d') ∧
      d'.value = d.value := by
  have hdigits := isDigit_toDigits (n := d.digits)
  have hwhole : ∀ c ∈ Nat.toDigits 10 d.digits ++ List.replicate d.exponent.toNat '0',
      c.isDigit :=
    List.forall_mem_append.2 ⟨hdigits, isDigit_zeros⟩
  have hfraction : splitFraction ['.', '0'] = (['0'], []) := by decide
  refine ⟨_, decimal?_spelled negative (by simp [Nat.toDigits_ne_nil]) hwhole
    (ended_cons (by decide) _) hfraction rfl, ?_⟩
  rw [List.append_assoc, ← List.replicate_succ', decimalValue_append_zeros hdigits,
    decimalValue_toDigits]
  obtain ⟨k, hk⟩ := Int.eq_ofNat_of_zero_le hexp
  show ((d.digits * 10 ^ (d.exponent.toNat + 1) : ℕ) : ℚ) * 10 ^ (0 - (1 : ℤ)) = _
  rw [value, hk, Int.toNat_natCast, zpow_natCast, pow_succ]
  push_cast
  norm_num
  ring

/-- The parts spell the digits and the exponent of a decimal. -/
theorem reads_self {d : Decimal} (negative : Bool) {whole rest fraction tail : List Char} {e : ℤ}
    (hne : whole ≠ []) (hwhole : ∀ c ∈ whole, c.isDigit) (hrest : Ended isDecimalDigit rest)
    (hfraction : splitFraction rest = (fraction, tail)) (he : exponentPart? tail = some e)
    (hdigits : decimalValue (whole ++ fraction) = d.digits)
    (hexp : e - fraction.length = d.exponent) :
    decimal? (signText negative ++ (whole ++ rest)) = some (.decimal negative d) := by
  rw [decimal?_spelled negative hne hwhole hrest hfraction he, hdigits, hexp]

/-- With its point at its place, a decimal reads as one of its value. -/
theorem positional_reads (d : Decimal) (negative : Bool) :
    ∃ d' : Decimal, decimal? (signText negative ++ d.positional) = some (.decimal negative d') ∧
      d'.value = d.value := by
  have hdigits := isDigit_toDigits (n := d.digits)
  have hlength := Nat.length_toDigits_pos (b := 10) (n := d.digits)
  unfold positional
  dsimp only
  split
  next hexp => exact d.reads_filled negative hexp
  next hexp =>
    refine ⟨d, ?_, rfl⟩
    split
    next hlead =>
      -- the point stands among the digits
      refine reads_self negative ?_ (fun c hc => hdigits c (List.mem_of_mem_take hc))
        (ended_cons (by decide) _)
        (splitFraction_last (isDecimalDigit_of_digits fun c hc =>
          hdigits c (List.mem_of_mem_drop hc))) rfl ?_ ?_
      · simp [Nat.toDigits_ne_nil]
        omega
      · rw [List.take_append_drop, decimalValue_toDigits]
      · rw [List.length_drop]
        unfold leading at hlead ⊢
        omega
    next hlead =>
      -- the digits stand behind the point, after zeros
      have hfraction : ∀ c ∈ List.replicate (-d.leading - 1).toNat '0' ++ Nat.toDigits 10 d.digits,
          c.isDigit :=
        List.forall_mem_append.2 ⟨isDigit_zeros, hdigits⟩
      show decimal? (signText negative ++ (['0'] ++ '.' ::
        (List.replicate (-d.leading - 1).toNat '0' ++ Nat.toDigits 10 d.digits))) = _
      refine reads_self negative (by simp) (isDigit_zeros (k := 1)) (ended_cons (by decide) _)
        (splitFraction_last (isDecimalDigit_of_digits hfraction)) rfl ?_ ?_
      · show decimalValue ('0' :: List.replicate _ '0' ++ Nat.toDigits 10 d.digits) = _
        rw [← List.replicate_succ, decimalValue_zeros_append hdigits, decimalValue_toDigits]
      · rw [List.length_append, List.length_replicate]
        unfold leading at hlead ⊢
        omega

/-- With an exponent, a decimal reads as itself. -/
theorem scientific_reads (d : Decimal) (negative : Bool) :
    decimal? (signText negative ++ d.scientific) = some (.decimal negative d) := by
  have hdigits := isDigit_toDigits (n := d.digits)
  have hlength := Nat.length_toDigits_pos (b := 10) (n := d.digits)
  have hpower : ∀ c ∈ List.replicate (2 - (Nat.toDigits 10 d.leading.natAbs).length) '0' ++
      Nat.toDigits 10 d.leading.natAbs, c.isDigit :=
    List.forall_mem_append.2 ⟨isDigit_zeros, isDigit_toDigits⟩
  have hexponent := exponentPart?_signed (d.leading < 0) (by simp [Nat.toDigits_ne_nil]) hpower
  have hleading :
      (if d.leading < 0 then -(d.leading.natAbs : ℤ) else d.leading.natAbs) = d.leading := by
    split <;> omega
  simp only [decimalValue_zeros_append isDigit_toDigits, decimalValue_toDigits, decide_eq_true_eq,
    hleading] at hexponent
  have hne : (Nat.toDigits 10 d.digits).take 1 ≠ [] := by simp [Nat.toDigits_ne_nil]
  have hwhole : ∀ c ∈ (Nat.toDigits 10 d.digits).take 1, c.isDigit :=
    fun c hc => hdigits c (List.mem_of_mem_take hc)
  unfold scientific
  simp only [List.append_assoc, List.cons_append, List.nil_append]
  split
  next hone =>
    -- a single digit, with no point behind it
    refine reads_self negative hne hwhole (ended_cons (by decide) _) rfl hexponent ?_ ?_
    · rw [List.append_nil, List.take_of_length_le hone.le, decimalValue_toDigits]
    · show d.leading - 0 = _
      unfold leading
      omega
  next hmore =>
    -- a point behind the first digit
    refine reads_self negative hne hwhole (ended_cons (by decide) _)
      (splitFraction_point (isDecimalDigit_of_digits fun c hc =>
        hdigits c (List.mem_of_mem_drop hc)) (ended_cons (by decide) _)) hexponent ?_ ?_
    · rw [List.take_append_drop, decimalValue_toDigits]
    · rw [List.length_drop]
      unfold leading
      omega

/-- **A decimal that was laid out reads as one of the same value.** -/
theorem layout_reads (d : Decimal) (negative : Bool) :
    ∃ d' : Decimal, decimal? (signText negative ++ d.layout) = some (.decimal negative d') ∧
      d'.value = d.value := by
  unfold layout
  split
  next => exact d.positional_reads negative
  next => exact ⟨d, d.scientific_reads negative, rfl⟩

/-! ### Reading the text as a whole -/

/-- The characters of a decimal that was laid out. -/
def IsPlain (c : Char) : Prop :=
  c.isDigit ∨ c ∈ ['.', 'e', '+', '-']

instance : DecidablePred IsPlain :=
  fun _ => inferInstanceAs (Decidable (_ ∨ _))

theorem isBlank_of_isPlain {c : Char} (hc : IsPlain c) : isBlank c = false := by
  rcases hc with hdigit | hmark
  · have hrange : 48 ≤ c.toNat ∧ c.toNat ≤ 57 := Char.isDigit_iff_toNat.1 hdigit
    simp [isBlank, blankRanges]
    omega
  · simp only [List.mem_cons, List.not_mem_nil, or_false] at hmark
    rcases hmark with rfl | rfl | rfl | rfl <;> rfl

/-- The marks of the bases are not among the characters of a decimal. -/
theorem prefixed?_plain {cs : List Char} (hcs : ∀ c ∈ cs, IsPlain c) : prefixed? cs = none := by
  unfold prefixed?
  split
  next mark cs' =>
    have hmark := hcs mark (by simp)
    have hne (c : Char) (hc : ¬ IsPlain c) : mark ≠ c := fun heq => hc (heq ▸ hmark)
    simp [hne 'x' (by decide), hne 'X' (by decide), hne 'o' (by decide), hne 'O' (by decide),
      hne 'b' (by decide), hne 'B' (by decide)]
  next => rfl

/-- Plain characters are neither stripped nor in another base. -/
theorem read?_plain {cs : List Char} (hcs : ∀ c ∈ cs, IsPlain c) :
    read? (String.ofList cs) = decimal? cs := by
  have hstrip : strip (String.ofList cs) = String.ofList cs :=
    strip_of_not_blank fun c hc => isBlank_of_isPlain (hcs c hc)
  rw [read?, hstrip, String.toList_ofList, prefixed?_plain hcs]

theorem layout_plain (d : Decimal) : ∀ c ∈ d.layout, IsPlain c := by
  have hdigits (n : ℕ) : ∀ c ∈ Nat.toDigits 10 n, IsPlain c :=
    fun c hc => .inl (isDigit_toDigits c hc)
  have hzeros (k : ℕ) : ∀ c ∈ List.replicate k '0', IsPlain c :=
    fun c hc => .inl (isDigit_zeros c hc)
  have htake (n k : ℕ) : ∀ c ∈ (Nat.toDigits 10 n).take k, IsPlain c :=
    fun c hc => hdigits n c (List.mem_of_mem_take hc)
  have hdrop (n k : ℕ) : ∀ c ∈ (Nat.toDigits 10 n).drop k, IsPlain c :=
    fun c hc => hdigits n c (List.mem_of_mem_drop hc)
  have hpoint : IsPlain '.' := by decide
  have hzero : IsPlain '0' := by decide
  have hmark : IsPlain 'e' := by decide
  have hsign : IsPlain (if d.leading < 0 then '-' else '+') := by split <;> decide
  unfold layout positional scientific
  dsimp only
  split
  · -- digits and zeros, with the point somewhere among them
    split
    · simp only [List.forall_mem_append, List.forall_mem_cons]
      exact ⟨⟨hdigits _, hzeros _⟩, hpoint, hzero, List.forall_mem_nil _⟩
    · split
      · simp only [List.forall_mem_append, List.forall_mem_cons]
        exact ⟨htake _ _, hpoint, hdrop _ _⟩
      · show ∀ c ∈ '0' :: '.' :: (List.replicate _ '0' ++ _), IsPlain c
        simp only [List.forall_mem_append, List.forall_mem_cons]
        exact ⟨hzero, hpoint, hzeros _, hdigits _⟩
  · simp only [List.forall_mem_append, List.forall_mem_cons]
    refine ⟨⟨⟨⟨htake _ _, ?_⟩, hmark, hsign, List.forall_mem_nil _⟩, hzeros _⟩, hdigits _⟩
    split
    · exact List.forall_mem_nil _
    · exact List.forall_mem_cons.2 ⟨hpoint, hdrop _ _⟩

/-- **The text of a decimal spells a decimal of the same value and sign.** -/
theorem read?_layout (d : Decimal) (negative : Bool) :
    ∃ d' : Decimal, read? (String.ofList (signText negative ++ d.layout)) =
      some (.decimal negative d') ∧ d'.value = d.value := by
  have hsign : ∀ c ∈ signText negative, IsPlain c := by
    cases negative with
    | false => exact List.forall_mem_nil _
    | true => exact List.forall_mem_singleton.2 (by decide)
  rw [read?_plain (List.forall_mem_append.2 ⟨hsign, d.layout_plain⟩)]
  exact d.layout_reads negative

end Decimal

end BlockScript
