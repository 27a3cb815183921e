/-
BlockScript/Proofs/Remainder.lean

The remainder of two numbers is exact.

At the smaller of the two exponents, `u`, both magnitudes are integers,

    a  =  ±m · 2^u        b  =  ±n · 2^u

and the remainder is `±(m % n) · 2^u`.  However far the exponents lie apart, it
has at most 53 bits: one operand stands at `u` itself, and `m % n` is at most `m`
and less than `n`.  So it is a number, and nothing is rounded.
-/
import BlockScript.Number.Arithmetic
import BlockScript.Proofs.Nearest

namespace BlockScript

namespace Parts

variable {p q : Parts}

/-- The dividend as a multiple of the common unit. -/
theorem value_dividend (p q : Parts) : p.value = (p.align q).1 * 2 ^ (p.align q).2.2 :=
  p.value_eq_mul (min_le_left _ _)

/-- The divisor as a multiple of the common unit. -/
theorem value_divisor (p q : Parts) : q.value = (p.align q).2.1 * 2 ^ (p.align q).2.2 :=
  q.value_eq_mul (min_le_right _ _)

theorem align_divisor_pos (hq : q.mantissa ≠ 0) : 0 < (p.align q).2.1 :=
  Nat.mul_pos (Nat.pos_of_ne_zero hq) (Nat.pow_pos two_pos)

/-- One operand stands at the unit, and the remainder is below its mantissa. -/
theorem Proper.mod_lt (hp : p.Proper) (hq : q.Proper) (hzero : q.mantissa ≠ 0) :
    (p.align q).1 % (p.align q).2.1 < 2 ^ 53 := by
  rcases le_total p.exponent q.exponent with hle | hge
  · -- the dividend stands at the unit, and the remainder is no greater
    have hdividend : (p.align q).1 = p.mantissa := by
      show p.mantissa * Nat.pow 2 (p.exponent - min p.exponent q.exponent).toNat = _
      rw [min_eq_left hle, sub_self]
      exact mul_one _
    rw [hdividend]
    exact (Nat.mod_le _ _).trans_lt hp.mantissa_lt
  · -- the divisor stands at the unit, and the remainder is less
    have hdivisor : (p.align q).2.1 = q.mantissa := by
      show q.mantissa * Nat.pow 2 (q.exponent - min p.exponent q.exponent).toNat = _
      rw [min_eq_right hge, sub_self]
      exact mul_one _
    rw [hdivisor]
    exact (Nat.mod_lt _ (Nat.pos_of_ne_zero hzero)).trans hq.mantissa_lt

/-- **The remainder of the integers is the remainder of the numbers, unrounded.** -/
theorem Proper.remainder_exact (hp : p.Proper) (hq : q.Proper) (hzero : q.mantissa ≠ 0) :
    exactValue? (p.remainder q) =
        some (signed p.negative (((p.align q).1 % (p.align q).2.1 : ℕ) * 2 ^ (p.align q).2.2)) ∧
      signBit (p.remainder q) = p.negative := by
  apply nearest_exact p.negative (Nat.pow_pos two_pos)
  · exact mul_zpow_eq_div two_ne_zero _ _
  · exact hp.mod_lt hq hzero
  · exact le_min hp.least hq.least
  · exact (min_le_left _ _).trans hp.greatest

end Parts

/-! ### The quotient -/

/-- Equal signs cancel out in a quotient. -/
theorem signed_div_signed (s t : Bool) (a b : ℚ) :
    signed s a / signed t b = signed (s ^^ t) (a / b) := by
  cases s with
  | false =>
    cases t with
    | false => rfl
    | true => exact div_neg a
  | true =>
    cases t with
    | false => exact neg_div b a
    | true => exact neg_div_neg_eq a b

/-- A sign does not matter to being an integer. -/
theorem exists_int_eq_signed_iff (negative : Bool) (q : ℚ) :
    (∃ k : ℤ, signed negative q = k) ↔ ∃ k : ℤ, q = k := by
  cases negative with
  | false => rfl
  | true =>
    constructor
    · rintro ⟨k, hk⟩
      exact ⟨-k, by rw [Int.cast_neg, ← hk]; exact (neg_neg q).symm⟩
    · rintro ⟨k, rfl⟩
      exact ⟨-k, (Int.cast_neg k).symm⟩

theorem exists_int_eq_signed (negative : Bool) (n : ℕ) : ∃ k : ℤ, signed negative n = k :=
  (exists_int_eq_signed_iff negative n).2 ⟨n, (Int.cast_natCast n).symm⟩

/-- What the remainder leaves is a multiple of the divisor. -/
theorem sub_mod_div (m : ℕ) {n : ℕ} {c : ℚ} (hn : 0 < n) (hc : c ≠ 0) :
    (m * c - (m % n : ℕ) * c) / (n * c) = (m / n : ℕ) := by
  have hn' : (n : ℚ) ≠ 0 := Nat.cast_ne_zero.2 hn.ne'
  have hm : (m : ℚ) = n * (m / n : ℕ) + (m % n : ℕ) := by
    exact_mod_cast (Nat.div_add_mod m n).symm
  rw [← sub_mul, mul_div_mul_right _ _ hc, div_eq_iff hn']
  linarith

/-- A quotient is an integer just if the division has no remainder. -/
theorem exists_int_eq_div_iff (m : ℕ) {n : ℕ} (hn : 0 < n) :
    (∃ k : ℤ, (m : ℚ) / n = k) ↔ n ∣ m := by
  have hn' : (n : ℚ) ≠ 0 := Nat.cast_ne_zero.2 hn.ne'
  constructor
  · rintro ⟨k, hk⟩
    rw [div_eq_iff hn'] at hk
    have hmul : (m : ℤ) = k * n := by exact_mod_cast hk
    exact Int.natCast_dvd_natCast.1 ⟨k, hmul.trans (mul_comm _ _)⟩
  · rintro ⟨k, rfl⟩
    exact ⟨k, by rw [Nat.cast_mul, mul_div_cancel_left₀ _ hn', Int.cast_natCast]⟩

/-! ### Remainders of all floats -/

section Modulo

variable {a b : Float} {p q : Parts}

theorem beq_zero_of_parts (hb : Parts.ofFloat? b = some q) :
    (b == 0.0) = true ↔ q.mantissa = 0 := by
  rw [beq_zero_iff_exactValue?, exactValue?_of_parts hb, Option.some_inj, q.exact_eq_zero_iff]

/-- Finite numbers are divided exactly, if the divisor is not zero. -/
theorem modulo_of_parts (ha : Parts.ofFloat? a = some p) (hb : Parts.ofFloat? b = some q)
    (hzero : q.mantissa ≠ 0) : modulo a b = p.remainder q := by
  obtain ⟨hainf, hanan⟩ := kind_of_parts ha
  obtain ⟨hbinf, hbnan⟩ := kind_of_parts hb
  have hbzero : (b == 0.0) = false := Bool.eq_false_iff.2 (hzero ∘ (beq_zero_of_parts hb).1)
  unfold modulo
  rw [hainf, hanan, hbinf, hbnan, hbzero, ha, hb]
  rfl

/-- Nothing remains of the multiples of the divisor. -/
theorem modulo_beq_zero_iff (ha : Parts.ofFloat? a = some p) (hb : Parts.ofFloat? b = some q)
    (hzero : q.mantissa ≠ 0) :
    (modulo a b == 0.0) = true ↔ ∃ k : ℤ, p.exact / q.exact = k := by
  have hexact := ((Parts.ofFloat?_spec ha).1.remainder_exact (Parts.ofFloat?_spec hb).1 hzero).1
  have hn := Parts.align_divisor_pos (p := p) hzero
  have hunit : (2 : ℚ) ^ (p.align q).2.2 ≠ 0 := by positivity
  have hquotient : p.exact / q.exact
      = signed (p.negative ^^ q.negative) ((p.align q).1 / (p.align q).2.1) := by
    rw [Parts.exact, Parts.exact, signed_div_signed, p.value_dividend q, p.value_divisor q,
      mul_div_mul_right _ _ hunit]
  rw [modulo_of_parts ha hb hzero, beq_zero_iff_exactValue?, hexact, Option.some_inj, hquotient,
    exists_int_eq_signed_iff, exists_int_eq_div_iff _ hn, ← abs_eq_zero, abs_signed, abs_eq_zero,
    mul_eq_zero, or_iff_left hunit, Nat.cast_eq_zero, Nat.dvd_iff_mod_eq_zero]

theorem modulo_of_infinite (ha : Parts.ofFloat? a = some p) (hb : b.isInf = true) :
    modulo a b = a := by
  obtain ⟨hainf, hanan⟩ := kind_of_parts ha
  have hbfield := ((isInf_iff b).1 hb).1
  have hbnan : b.isNaN = false :=
    Bool.eq_false_iff.2 fun h => ((isNaN_iff b).1 h).2 ((isInf_iff b).1 hb).2
  have hbzero : (b == 0.0) = false :=
    Bool.eq_false_iff.2 fun h => absurd (((beq_zero_iff b).1 h).1.symm.trans hbfield) (by decide)
  unfold modulo
  rw [hainf, hanan, hb, hbnan, hbzero]
  rfl

theorem modulo_undefined
    (h : a.isNaN = true ∨ a.isInf = true ∨ b.isNaN = true ∨ (b == 0.0) = true) :
    modulo a b = notANumber := by
  apply if_pos
  simp only [Bool.or_eq_true]
  tauto

/-- Otherwise the remainder is a number. -/
theorem isNaN_modulo_of_defined
    (h : ¬ (a.isNaN = true ∨ a.isInf = true ∨ b.isNaN = true ∨ (b == 0.0) = true)) :
    (modulo a b).isNaN = false := by
  obtain ⟨hanan, hainf, hbnan, hbzero⟩ :
      ¬ a.isNaN = true ∧ ¬ a.isInf = true ∧ ¬ b.isNaN = true ∧ ¬ (b == 0.0) = true := by
    simpa only [not_or] using h
  rcases value_cases a with ⟨p, hp, -, -⟩ | ⟨-, hinf, -⟩ | ⟨-, -, hnan⟩
  · rcases value_cases b with ⟨q, hq, -, -⟩ | ⟨-, hinf, -⟩ | ⟨-, -, hnan⟩
    · have hzero : q.mantissa ≠ 0 := hbzero ∘ (beq_zero_of_parts hq).2
      have hexact :=
        (Parts.ofFloat?_spec hp).1.remainder_exact (Parts.ofFloat?_spec hq).1 hzero
      obtain ⟨r, hr, -⟩ := exactValue?_eq_some_iff.1 hexact.1
      rw [modulo_of_parts hp hq hzero]
      exact (kind_of_parts hr).2
    · -- the dividend itself, which is a number
      rw [modulo_of_infinite hp hinf]
      exact Bool.eq_false_iff.2 hanan
    · exact absurd hnan hbnan
  · exact absurd hinf hainf
  · exact absurd hnan hanan

end Modulo

/-- **The remainder is exact**: it has the sign of the dividend, is smaller than the
divisor, and differs from the dividend by a multiple of the divisor.  An infinite
divisor leaves the dividend as it is; in all other cases the remainder is the NaN. -/
theorem modulo_exact_remainder (a b : Float) :
    (∀ va vb, exactValue? a = some va → exactValue? b = some vb → vb ≠ 0 →
      ∃ vr, exactValue? (modulo a b) = some vr ∧ signBit (modulo a b) = signBit a ∧
        |vr| < |vb| ∧ ∃ k : ℤ, (va - vr) / vb = k) ∧
    (∀ va, exactValue? a = some va → b.isInf = true → modulo a b = a) ∧
    ((modulo a b).isNaN = true ↔
      a.isNaN = true ∨ a.isInf = true ∨ b.isNaN = true ∨ exactValue? b = some 0) := by
  refine ⟨fun va vb ha hb hne => ?_, fun va ha hb => ?_, ?_⟩
  · obtain ⟨p, hp, rfl⟩ := exactValue?_eq_some_iff.1 ha
    obtain ⟨q, hq, rfl⟩ := exactValue?_eq_some_iff.1 hb
    obtain ⟨hproper, hsign, -⟩ := Parts.ofFloat?_spec hp
    have hproper' := (Parts.ofFloat?_spec hq).1
    have hzero : q.mantissa ≠ 0 := fun h => hne (q.exact_eq_zero_iff.2 h)
    obtain ⟨hvalue, hsign'⟩ := hproper.remainder_exact hproper' hzero
    have hn := Parts.align_divisor_pos (p := p) hzero
    -- both are multiples of one unit, in which everything is an integer
    have hunit : (0 : ℚ) < 2 ^ (p.align q).2.2 := by positivity
    rw [modulo_of_parts hp hq hzero]
    refine ⟨_, hvalue, hsign'.trans hsign, ?_, ?_⟩
    · rw [abs_signed, Parts.exact, abs_signed, abs_of_nonneg (by positivity),
        abs_of_nonneg q.value_nonneg, p.value_divisor q]
      gcongr
      exact Nat.mod_lt _ hn
    · rw [Parts.exact, Parts.exact, p.value_dividend q, p.value_divisor q, signed_sub,
        signed_div_signed, sub_mod_div _ hn hunit.ne']
      exact exists_int_eq_signed _ _
  · obtain ⟨p, hp, -⟩ := exactValue?_eq_some_iff.1 ha
    exact modulo_of_infinite hp hb
  · rw [← beq_zero_iff_exactValue?]
    refine ⟨fun hnan => ?_, fun h => ?_⟩
    · by_contra hdefined
      rw [isNaN_modulo_of_defined hdefined] at hnan
      cases hnan
    · rw [modulo_undefined h]
      decide

/-- The largest number over three times the least, with a sign: the exponents differ
by more than two thousand. -/
theorem modulo_exact_remainder_of_far_exponents :
    let a := Float.ofBits 0xffefffffffffffff
    let b := Float.ofBits 0x0000000000000003
    ∃ va vb vr, exactValue? a = some va ∧ exactValue? b = some vb ∧ vb ≠ 0 ∧
      exactValue? (modulo a b) = some vr ∧ signBit (modulo a b) = true ∧ |vr| < |vb| ∧
      ∃ k : ℤ, (va - vr) / vb = k := by
  intro a b
  have ha : Parts.ofFloat? a = some ⟨true, 2 ^ 53 - 1, 971⟩ := by decide
  have hb : Parts.ofFloat? b = some ⟨false, 3, -1074⟩ := by decide
  have hne : (⟨false, 3, -1074⟩ : Parts).exact ≠ 0 := fun h =>
    absurd ((Parts.exact_eq_zero_iff _).1 h) (by decide)
  obtain ⟨vr, hvalue, hsign, hlt, hquotient⟩ := (modulo_exact_remainder a b).1 _ _
    (exactValue?_of_parts ha) (exactValue?_of_parts hb) hne
  exact ⟨_, _, vr, exactValue?_of_parts ha, exactValue?_of_parts hb, hne, hvalue, hsign, hlt,
    hquotient⟩

end BlockScript
