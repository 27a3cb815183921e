/-
BlockScript/Proofs/Power.lean

The sign of an infinite power.

A power that overflows, or divides by zero, is an infinity whose sign is that
of the base if the exponent is an odd integer.  Two tests decide it, one for
each error: a base that overflows is negative if it is below zero, but of a
zero only the sign bit tells.  On the numbers that reach them both say the
same.

Whether a number is an odd integer is read from its floor and from what two
leaves of it.  Both are exact, so the test is right for every float:

    isOddInteger x  ↔  x = 2j + 1 for an integer j,

and it holds of no number from `2^53` on, where all floats are even.
-/
import BlockScript.Proofs.Line
import BlockScript.Proofs.Remainder
import Mathlib.Data.Rat.Floor

namespace BlockScript

/-! ### Odd integers -/

/-- The exact value of the float is an odd integer. -/
def IsOdd (x : Float) : Prop :=
  ∃ k : ℤ, exactValue? x = some (k : ℚ) ∧ Odd k

namespace Parts

/-- Numerator and denominator make up the exact value, sign included. -/
theorem signedNumerator_div (p : Parts) : (p.signedNumerator : ℚ) / p.denominator = p.exact := by
  rw [exact, ← p.value_eq_div, signedNumerator]
  cases p.negative with
  | false => exact congrArg (· / (p.denominator : ℚ)) (Int.cast_natCast _)
  | true =>
    show ((-(p.numerator : ℤ) : ℤ) : ℚ) / p.denominator = -(p.numerator / p.denominator)
    rw [Int.cast_neg, Int.cast_natCast, neg_div]

theorem equalsInt_iff (p : Parts) (n : ℤ) : p.equalsInt n = true ↔ p.exact = n := by
  have hden : (p.denominator : ℚ) ≠ 0 := Nat.cast_ne_zero.2 p.denominator_pos.ne'
  rw [equalsInt, decide_eq_true_iff, ← p.signedNumerator_div, div_eq_iff hden]
  exact_mod_cast Iff.rfl

theorem floor_eq (p : Parts) : p.floor = ⌊p.exact⌋ := by
  rw [← p.signedNumerator_div, Rat.floor_intCast_div_natCast]
  rfl

/-- The floor is the number itself just if the number is an integer. -/
theorem equalsInt_floor_iff (p : Parts) : p.equalsInt p.floor = true ↔ ∃ k : ℤ, p.exact = k := by
  rw [equalsInt_iff, floor_eq]
  constructor
  · exact fun h => ⟨_, h⟩
  · rintro ⟨k, hk⟩
    rw [hk, Int.floor_intCast]

/-- Above the exponent zero all numbers are even. -/
theorem Proper.abs_lt_of_odd {p : Parts} (hp : p.Proper) {k : ℤ} (hk : p.exact = k)
    (hodd : Odd k) : |p.exact| < 2 ^ 53 := by
  have habs : |p.exact| = p.value := by rw [exact, abs_signed, abs_of_nonneg p.value_nonneg]
  rcases le_or_gt p.exponent 0 with hle | hgt
  · -- no more than the mantissa, which has 53 bits
    have hmantissa : (p.mantissa : ℚ) < 2 ^ 53 := by exact_mod_cast hp.mantissa_lt
    calc |p.exact| = p.mantissa * 2 ^ p.exponent := habs
      _ ≤ p.mantissa * 1 := by
          gcongr
          exact zpow_le_one_of_nonpos₀ one_le_two hle
      _ < 2 ^ 53 := by rwa [mul_one]
  · -- a multiple of two, as the exponent is at least one
    have heven : Even |k| := by
      have hvalue := p.value_eq_mul (u := 1) hgt
      rw [← habs, hk, zpow_one] at hvalue
      have hint : |k| = (p.mantissa * 2 ^ (p.exponent - 1).toNat : ℕ) * 2 := by
        exact_mod_cast hvalue
      exact hint ▸ even_two.mul_left _
    exact absurd (even_abs.1 heven) (Int.not_even_iff_odd.2 hodd)

end Parts

theorem exists_int_eq_half_iff (k : ℤ) : (∃ j : ℤ, (k : ℚ) / 2 = j) ↔ Even k := by
  rw [even_iff_exists_two_mul]
  refine exists_congr fun j => ?_
  rw [div_eq_iff two_ne_zero, mul_comm (j : ℚ) 2]
  exact_mod_cast Iff.rfl

/-- **The test for odd integers is exact.** -/
theorem isOddInteger_iff (x : Float) : isOddInteger x = true ↔ IsOdd x := by
  rcases hp : Parts.ofFloat? x with - | p
  · have hvalue : exactValue? x = none := by rw [exactValue?, hp]; rfl
    rw [isOddInteger, hp, IsOdd, hvalue]
    simp
  · have htwo : Parts.ofFloat? 2.0 = some ⟨false, 2 ^ 52, -51⟩ := by decide
    have hexact : (⟨false, 2 ^ 52, -51⟩ : Parts).exact = 2 := by
      show ((2 ^ 52 : ℕ) : ℚ) * 2 ^ (-51 : ℤ) = 2
      norm_num
    have hrest : (modulo x 2.0 != 0.0) = true ↔ ¬ ∃ j : ℤ, p.exact / 2 = j := by
      rw [bne, Bool.not_eq_true', ← Bool.not_eq_true, modulo_beq_zero_iff hp htwo (by decide),
        hexact]
    -- an integer leaves a remainder just if it is no multiple of two
    rw [isOddInteger, hp, IsOdd, exactValue?_of_parts hp]
    show (p.equalsInt p.floor && modulo x 2.0 != 0.0) = true ↔ _
    rw [Bool.and_eq_true, p.equalsInt_floor_iff, hrest]
    constructor
    · rintro ⟨⟨k, hk⟩, hodd⟩
      rw [hk, exists_int_eq_half_iff, Int.not_even_iff_odd] at hodd
      exact ⟨k, congrArg some hk, hodd⟩
    · rintro ⟨k, hk, hodd⟩
      rw [Option.some_inj] at hk
      rw [hk, exists_int_eq_half_iff, Int.not_even_iff_odd]
      exact ⟨⟨k, rfl⟩, hodd⟩

/-- From `2^53` on no float is odd. -/
theorem not_isOdd_of_le_abs {x : Float} {v : ℚ} (hv : exactValue? x = some v)
    (hle : 2 ^ 53 ≤ |v|) : ¬ IsOdd x := by
  rintro ⟨k, hk, hodd⟩
  obtain ⟨p, hp, rfl⟩ := exactValue?_eq_some_iff.1 hv
  rw [hv, Option.some_inj] at hk
  exact absurd ((Parts.ofFloat?_spec hp).1.abs_lt_of_odd hk hodd) (not_lt.2 hle)

/-! ### Numbers below zero -/

theorem isFinite_iff (x : Float) : x.isFinite = true ↔ ∃ p, Parts.ofFloat? x = some p := by
  have hnone : exponentField x = 2047 → ¬ ∃ p, Parts.ofFloat? x = some p := by
    rintro he ⟨p, hp⟩
    exact absurd he ((finiteBits_iff_parts x).2 ⟨p, hp⟩)
  show x.toModel.unpack.isFinite = true ↔ _
  rcases kind_cases x with ⟨he, -, s, h⟩ | ⟨he, -, h⟩ | ⟨he, -, s, h⟩ | ⟨he, -, s, m, e, hm, h⟩ <;>
    rw [h]
  · exact iff_of_false Bool.false_ne_true (hnone he)
  · exact iff_of_false Bool.false_ne_true (hnone he)
  · exact iff_of_true rfl ((finiteBits_iff_parts x).1 fun h => absurd (he.symm.trans h) (by decide))
  · exact iff_of_true rfl ((finiteBits_iff_parts x).1 he)

section Signs

variable {a b : Float} {p q : Parts}

/-- Finite numbers compare by their exact values. -/
theorem lt_iff_exact (ha : Parts.ofFloat? a = some p) (hb : Parts.ofFloat? b = some q) :
    a < b ↔ p.exact < q.exact := by
  have hplaces : Line.ofRat p.exact < Line.ofRat q.exact ↔ p.exact < q.exact :=
    WithBot.coe_lt_coe.trans WithTop.coe_lt_coe
  rw [float_lt_iff, place?_of_parts ha, place?_of_parts hb, ← hplaces]
  constructor
  · rintro ⟨_, _, ⟨⟩, ⟨⟩, hlt⟩
    exact hlt
  · intro hlt
    exact ⟨_, _, rfl, rfl, hlt⟩

/-- A magnitude other than zero is below zero just with a sign. -/
theorem Parts.exact_lt_zero_iff (hne : p.mantissa ≠ 0) : p.exact < 0 ↔ p.negative = true := by
  have hmantissa : (0 : ℚ) < p.mantissa := Nat.cast_pos.2 (Nat.pos_of_ne_zero hne)
  have hpos : 0 < p.value := mul_pos hmantissa (zpow_pos two_pos _)
  rw [exact]
  cases p.negative with
  | false => exact iff_of_false (not_lt.2 hpos.le) Bool.false_ne_true
  | true => exact iff_of_true (neg_neg_of_pos hpos) rfl

theorem lt_zero_iff_exact (ha : Parts.ofFloat? a = some p) : a < 0.0 ↔ p.exact < 0 := by
  have hzero : Parts.ofFloat? 0.0 = some ⟨false, 0, -1074⟩ := by decide
  have hexact : (⟨false, 0, -1074⟩ : Parts).exact = 0 := (Parts.exact_eq_zero_iff _).2 rfl
  rw [lt_iff_exact ha hzero, hexact]

/-- Of a number other than zero, the sign bit tells whether it is below zero. -/
theorem lt_zero_iff_signBit (ha : Parts.ofFloat? a = some p) (hne : p.mantissa ≠ 0) :
    a < 0.0 ↔ signBit a = true := by
  rw [lt_zero_iff_exact ha, Parts.exact_lt_zero_iff hne, (Parts.ofFloat?_spec ha).2.1]

end Signs

/-! ### Infinite powers -/

section Powers

variable {pow : Float → Float → Float} {a b : Float} {p q : Parts}

theorem not_finite_eq_false (ha : Parts.ofFloat? a = some p) (hb : Parts.ofFloat? b = some q) :
    (!(a.isFinite && b.isFinite)) = false := by
  rw [(isFinite_iff a).2 ⟨p, ha⟩, (isFinite_iff b).2 ⟨q, hb⟩]
  rfl

/-- An overflow is reported just for the infinite powers of finite numbers other than
zero. -/
theorem reportedPower_overflow_iff : reportedPower pow a b = .error .overflow ↔
    ∃ p q, Parts.ofFloat? a = some p ∧ Parts.ofFloat? b = some q ∧ p.mantissa ≠ 0 ∧
      (pow a b).isInf = true := by
  constructor
  · -- the other branches report something else, or nothing
    intro h
    unfold reportedPower at h
    split at h
    next => cases h
    next hfinite =>
      rw [Bool.not_eq_true', Bool.not_eq_false, Bool.and_eq_true, isFinite_iff,
        isFinite_iff] at hfinite
      obtain ⟨⟨p, hp⟩, q, hq⟩ := hfinite
      split at h
      next => split at h <;> cases h
      next hzero =>
        split at h
        next hinf => exact ⟨p, q, hp, hq, hzero ∘ (beq_zero_of_parts hp).2, hinf⟩
        next => split at h <;> cases h
  · rintro ⟨p, q, hp, hq, hne, hinf⟩
    have hzero : (a == 0.0) = false := Bool.eq_false_iff.2 (hne ∘ (beq_zero_of_parts hp).1)
    rw [reportedPower, not_finite_eq_false hp hq, hzero, hinf]
    rfl

theorem undefined_of_zero (ha : Parts.ofFloat? a = some p) (hb : Parts.ofFloat? b = some q)
    (hzero : p.mantissa = 0) (hneg : b < 0.0) : reportedPower pow a b = .error .undefined := by
  rw [reportedPower, not_finite_eq_false ha hb, (beq_zero_of_parts ha).2 hzero]
  exact if_pos hneg

/-- An error of finite operands is settled by its kind, unless the exponent is zero. -/
theorem powerBy_of_error {error : PowerError} (ha : Parts.ofFloat? a = some p)
    (hb : Parts.ofFloat? b = some q) (hzero : q.mantissa ≠ 0)
    (h : reportedPower pow a b = .error error) : powerBy pow a b = error.result a b := by
  obtain ⟨hainf, hanan⟩ := kind_of_parts ha
  obtain ⟨hbinf, hbnan⟩ := kind_of_parts hb
  have hbzero : (b == 0.0) = false := Bool.eq_false_iff.2 (hzero ∘ (beq_zero_of_parts hb).1)
  unfold powerBy
  rw [hanan, hbnan, hbinf, hbzero, Bool.and_false, h]
  rfl

/-- Both errors that stand for an infinity give it the sign of the base, if the
exponent is an odd integer. -/
theorem powerBy_of_diverging (hone : ∀ x y, (y == 0.0) = true → pow x y = 1.0)
    (h : reportedPower pow a b = .error .overflow ∨
      exactValue? a = some 0 ∧ ∃ v < 0, exactValue? b = some v) :
    powerBy pow a b = infinity (signBit a && isOddInteger b) := by
  rcases h with hover | ⟨ha, v, hneg, hb⟩
  · -- the exponent is not zero, for one is finite, and the base has a sign on the line
    obtain ⟨p, q, hp, hq, hne, hinf⟩ := reportedPower_overflow_iff.1 hover
    have hzero : q.mantissa ≠ 0 := fun hzero => by
      rw [hone a b ((beq_zero_of_parts hq).2 hzero)] at hinf
      exact absurd hinf (by decide)
    have hsign : decide (a < 0.0) = signBit a := by
      rw [Bool.eq_iff_iff, decide_eq_true_iff]
      exact lt_zero_iff_signBit hp hne
    rw [powerBy_of_error hp hq hzero hover, PowerError.result, hsign]
  · -- the base is a zero of either sign, which only the bit tells
    obtain ⟨p, hp, hpzero⟩ := exactValue?_eq_some_iff.1 ha
    obtain ⟨q, hq, rfl⟩ := exactValue?_eq_some_iff.1 hb
    have hzero : q.mantissa ≠ 0 := fun hzero => by
      rw [(q.exact_eq_zero_iff).2 hzero] at hneg
      exact absurd hneg (lt_irrefl 0)
    have hundefined : reportedPower pow a b = .error .undefined :=
      undefined_of_zero hp hq (p.exact_eq_zero_iff.1 hpzero) ((lt_zero_iff_exact hq).2 hneg)
    rw [powerBy_of_error hp hq hzero hundefined, PowerError.result,
      if_pos ((beq_zero_iff_exactValue? a).2 ha)]

end Powers

/-- **The sign of infinite powers.**  The test for odd integers is exact, and fails from
`2^53` on.  Whatever computes powers, with every number to the zero being one: where it
overflows, and for a zero and a negative exponent, the power is the negative infinity if
the base has the sign bit and the exponent is an odd integer, else the positive one. -/
theorem infinite_power_sign (pow : Float → Float → Float)
    (hone : ∀ x y, (y == 0.0) = true → pow x y = 1.0) (a b : Float) :
    (isOddInteger b = true ↔ IsOdd b) ∧
    (∀ v, exactValue? b = some v → 2 ^ 53 ≤ |v| → isOddInteger b = false) ∧
    (reportedPower pow a b = .error .overflow ∨
        exactValue? a = some 0 ∧ (∃ v < 0, exactValue? b = some v) →
      (signBit a = true ∧ IsOdd b → powerBy pow a b = infinity true) ∧
      (¬ (signBit a = true ∧ IsOdd b) → powerBy pow a b = infinity false)) := by
  refine ⟨isOddInteger_iff b, fun v hv hle => ?_, fun h => ?_⟩
  · rw [Bool.eq_false_iff, Ne, isOddInteger_iff]
    exact not_isOdd_of_le_abs hv hle
  · rw [powerBy_of_diverging hone h, ← isOddInteger_iff, ← Bool.and_eq_true]
    refine ⟨fun hsign => ?_, fun hsign => ?_⟩
    · rw [hsign]
    · rw [Bool.eq_false_iff.2 hsign]

/-- Powers with a natural number as exponent, rounded to the nearest float. -/
def naturalPower (x y : Float) : Float :=
  match Parts.ofFloat? x, Parts.ofFloat? y with
  | some p, some q =>
    nearest (p.negative && isOddInteger y) (Nat.pow p.numerator q.floor.toNat)
      (Nat.pow p.denominator q.floor.toNat)
  | _, _ => 1.0

/-- Everything to the zero is one, as the exponent zero is no odd integer. -/
theorem naturalPower_zero (x y : Float) (hy : (y == 0.0) = true) : naturalPower x y = 1.0 := by
  have hvalue := (beq_zero_iff_exactValue? y).1 hy
  obtain ⟨q, hq, hzero⟩ := exactValue?_eq_some_iff.1 hvalue
  have hodd : isOddInteger y = false := by
    rw [Bool.eq_false_iff, Ne, isOddInteger_iff]
    rintro ⟨k, hk, hodd⟩
    rw [hvalue, Option.some_inj, eq_comm, Int.cast_eq_zero] at hk
    exact absurd (hk ▸ hodd) (by decide)
  have hfloor : q.floor.toNat = 0 := by rw [q.floor_eq, hzero, Int.floor_zero]; rfl
  unfold naturalPower
  rw [hq, hodd]
  split
  next p q' _ hq' =>
    obtain rfl : q = q' := Option.some_inj.1 hq'
    rw [hfloor, Bool.and_false]
    show nearest false 1 1 = 1.0
    decide
  next => rfl

/-- Minus ten to the 401 overflows, and `-0.0` to the minus one divides by zero. -/
theorem infinite_power_sign_of_minus_ten :
    let a := Float.ofBits 0xc024000000000000
    let b := Float.ofBits 0x4079100000000000
    let zero := Float.ofBits 0x8000000000000000
    let minusOne := Float.ofBits 0xbff0000000000000
    (∀ x y, (y == 0.0) = true → naturalPower x y = 1.0) ∧
      reportedPower naturalPower a b = .error .overflow ∧ signBit a = true ∧ IsOdd b ∧
      powerBy naturalPower a b = infinity true ∧
      exactValue? zero = some 0 ∧ exactValue? minusOne = some (-1) ∧
      powerBy naturalPower zero minusOne = infinity true := by
  intro a b zero minusOne
  have hover : reportedPower naturalPower a b = .error .overflow :=
    reportedPower_overflow_iff.2
      ⟨⟨true, 5 * 2 ^ 50, -49⟩, ⟨false, 401 * 2 ^ 44, -44⟩, by decide, by decide, by decide,
        by decide +kernel⟩
  have hodd : IsOdd b := (isOddInteger_iff b).1 (by decide +kernel)
  have hzero : exactValue? zero = some 0 := (beq_zero_iff_exactValue? zero).1 (by decide)
  have hone : exactValue? minusOne = some (-1) := by
    have hparts : Parts.ofFloat? minusOne = some ⟨true, 2 ^ 52, -52⟩ := by decide
    rw [exactValue?_of_parts hparts, Option.some_inj]
    show -(((2 ^ 52 : ℕ) : ℚ) * 2 ^ (-52 : ℤ)) = -1
    norm_num
  have hdivides := (infinite_power_sign naturalPower naturalPower_zero zero minusOne).2.2
    (.inr ⟨hzero, -1, by norm_num, hone⟩)
  refine ⟨naturalPower_zero, hover, by decide, hodd, ?_, hzero, hone, ?_⟩
  · exact ((infinite_power_sign naturalPower naturalPower_zero a b).2.2 (.inl hover)).1
      ⟨by decide, hodd⟩
  · exact hdivides.1 ⟨by decide, -1, by exact_mod_cast hone, by decide⟩

end BlockScript
