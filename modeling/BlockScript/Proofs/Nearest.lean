/-
BlockScript/Proofs/Nearest.lean

The exact value of a number, and the number nearest to a rational.

A number `x` with the parts `s`, `m`, `e` has the exact value `±m · 2^e`.
`IsNearest` says of a sign and a magnitude `q`, without units or patterns, which
float stands for `±q`: no number is nearer, and the last bit of the float is zero
if another is as near; from

    2^1024 - 2^970

on, which is half a unit above the largest number, it is an infinity.  What
`Rounded` lays out as a pattern is nearest in this sense: all numbers lie on the
grid of the unit or below its first point with 53 bits, so none comes between a
magnitude and the point of the grid that it is rounded to.

With at most 53 bits nothing is lost (`nearest_exact`).
-/
import BlockScript.Proofs.Shortest

namespace BlockScript

/-! ### Exact values -/

/-- A magnitude with a sign. -/
def signed (negative : Bool) (q : ℚ) : ℚ :=
  if negative then -q else q

theorem abs_signed (negative : Bool) (q : ℚ) : |signed negative q| = |q| := by
  cases negative with
  | false => rfl
  | true => exact abs_neg q

theorem signed_sub (negative : Bool) (a b : ℚ) :
    signed negative a - signed negative b = signed negative (a - b) := by
  cases negative with
  | false => rfl
  | true => exact (neg_sub_neg a b).trans (neg_sub a b).symm

theorem abs_signed_sub (negative : Bool) (a b : ℚ) :
    |signed negative a - signed negative b| = |a - b| := by
  rw [signed_sub, abs_signed]

/-- Two magnitudes are nearest to each other with the same sign. -/
theorem abs_sub_le_signed (s t : Bool) {a b : ℚ} (ha : 0 ≤ a) (hb : 0 ≤ b) :
    |a - b| ≤ |signed s a - signed t b| := by
  have hsum : |a - b| ≤ a + b := abs_le.2 ⟨by linarith, by linarith⟩
  cases s with
  | false =>
    cases t with
    | false => exact le_rfl
    | true =>
      show |a - b| ≤ |a - -b|
      rwa [sub_neg_eq_add, abs_of_nonneg (add_nonneg ha hb)]
  | true =>
    cases t with
    | false =>
      show |a - b| ≤ |-a - b|
      rwa [← neg_add', abs_neg, abs_of_nonneg (add_nonneg ha hb)]
    | true => exact (abs_signed_sub true a b).ge

/-- The exact value of a number. -/
def Parts.exact (p : Parts) : ℚ :=
  signed p.negative p.value

/-- The exact value of a float; the infinities and the NaN have none. -/
def exactValue? (x : Float) : Option ℚ :=
  (Parts.ofFloat? x).map Parts.exact

theorem Parts.value_nonneg (p : Parts) : 0 ≤ p.value := by
  unfold Parts.value
  positivity

theorem exactValue?_eq_some_iff {x : Float} {v : ℚ} :
    exactValue? x = some v ↔ ∃ p, Parts.ofFloat? x = some p ∧ p.exact = v :=
  Option.map_eq_some_iff

theorem exactValue?_of_parts {x : Float} {p : Parts} (h : Parts.ofFloat? x = some p) :
    exactValue? x = some p.exact :=
  exactValue?_eq_some_iff.2 ⟨p, h, rfl⟩

/-- A float is a number, an infinity or the NaN. -/
theorem value_cases (x : Float) :
    (∃ p, Parts.ofFloat? x = some p ∧ x.isInf = false ∧ x.isNaN = false) ∨
    (Parts.ofFloat? x = none ∧ x.isInf = true ∧ x.isNaN = false) ∨
    (Parts.ofFloat? x = none ∧ x.isInf = false ∧ x.isNaN = true) := by
  have hinf := isInf_iff x
  have hnan := isNaN_iff x
  by_cases hfield : exponentField x = 2047
  · have hnone : Parts.ofFloat? x = none := if_pos hfield
    by_cases hfraction : fractionField x = 0
    · refine .inr (.inl ⟨hnone, hinf.2 ⟨hfield, hfraction⟩, ?_⟩)
      exact Bool.eq_false_iff.2 fun h => (hnan.1 h).2 hfraction
    · refine .inr (.inr ⟨hnone, ?_, hnan.2 ⟨hfield, hfraction⟩⟩)
      exact Bool.eq_false_iff.2 fun h => hfraction (hinf.1 h).2
  · left
    obtain ⟨p, hp⟩ := (finiteBits_iff_parts x).1 hfield
    refine ⟨p, hp, ?_, ?_⟩
    · exact Bool.eq_false_iff.2 fun h => hfield (hinf.1 h).1
    · exact Bool.eq_false_iff.2 fun h => hfield (hnan.1 h).1

theorem kind_of_parts {x : Float} {p : Parts} (h : Parts.ofFloat? x = some p) :
    x.isInf = false ∧ x.isNaN = false := by
  rcases value_cases x with ⟨-, -, hkind⟩ | ⟨hnone, -⟩ | ⟨hnone, -⟩
  · exact hkind
  · rw [h] at hnone
    cases hnone
  · rw [h] at hnone
    cases hnone

/-- The pattern of bits is zero for the number zero only. -/
theorem Parts.Proper.magnitude_eq_zero_iff {p : Parts} (hp : p.Proper) :
    p.magnitude = 0 ↔ p.mantissa = 0 := by
  have hleast := hp.least
  unfold Parts.magnitude pattern
  split <;> omega

theorem Parts.exact_eq_zero_iff (p : Parts) : p.exact = 0 ↔ p.mantissa = 0 := by
  have hpos : (0 : ℚ) < 2 ^ p.exponent := by positivity
  rw [← abs_eq_zero, Parts.exact, abs_signed, abs_eq_zero, Parts.value, mul_eq_zero,
    or_iff_left hpos.ne', Nat.cast_eq_zero]

/-- The floats that equal zero are those of the value zero. -/
theorem beq_zero_iff_exactValue? (x : Float) : (x == 0.0) = true ↔ exactValue? x = some 0 := by
  rw [beq_zero_iff]
  rcases value_cases x with ⟨p, hp, -, -⟩ | ⟨hnone, hinf, -⟩ | ⟨hnone, -, hnan⟩
  · obtain ⟨hproper, -, hmagnitude⟩ := Parts.ofFloat?_spec hp
    rw [exactValue?_of_parts hp, Option.some_inj, p.exact_eq_zero_iff,
      ← hproper.magnitude_eq_zero_iff, hmagnitude]
    omega
  · refine iff_of_false (fun h => ?_) (by simp [exactValue?, hnone])
    exact absurd (h.1.symm.trans ((isInf_iff x).1 hinf).1) (by decide)
  · refine iff_of_false (fun h => ?_) (by simp [exactValue?, hnone])
    exact absurd (h.1.symm.trans ((isNaN_iff x).1 hnan).1) (by decide)

/-! ### Numbers made from parts -/

/-- Sign, exponent and fraction are found where they were packed. -/
theorem fields_ofSignBits (negative : Bool) {bits : ℕ} (h : bits ≤ infinityBits) :
    signBit (ofSignBits negative bits) = negative ∧
      exponentField (ofSignBits negative bits) = bits / 2 ^ 52 ∧
      fractionField (ofSignBits negative bits) = bits % 2 ^ 52 := by
  have hlimit : infinityBits = 2047 * 2 ^ 52 := rfl
  unfold signBit exponentField fractionField
  rw [toBits_ofSignBits negative h]
  simp only [Nat.pow_eq]
  cases negative with
  | false =>
    refine ⟨decide_eq_false ?_, ?_, ?_⟩
    · simp only [Bool.false_eq_true, if_false]
      omega
    · simp only [Bool.false_eq_true, if_false]
      omega
    · simp only [Bool.false_eq_true, if_false]
      omega
  | true =>
    refine ⟨decide_eq_true ?_, ?_, ?_⟩
    · simp only [if_true]
      omega
    · simp only [if_true]
      omega
    · simp only [if_true]
      omega

theorem isInf_infinity (negative : Bool) : (infinity negative).isInf = true := by
  obtain ⟨-, hfield, hfraction⟩ := fields_ofSignBits negative (le_refl infinityBits)
  rw [isInf_iff, infinity, hfield, hfraction]
  decide

namespace Parts

variable {p : Parts}

/-- Proper parts are those of the float they are packed to. -/
theorem Proper.ofFloat?_eq (hp : p.Proper) :
    ofFloat? (ofSignBits p.negative p.magnitude) = some p := by
  obtain ⟨hsign, hfield, hfraction⟩ := fields_ofSignBits p.negative hp.magnitude_lt.le
  have hgreatest := hp.greatest
  have hleast := hp.least
  have hmantissa := hp.mantissa_lt
  unfold ofFloat?
  rw [hsign, hfield, hfraction]
  unfold magnitude pattern
  dsimp only
  by_cases hsmall : p.mantissa < 2 ^ 52
  · -- fewer than 53 bits stand at the least exponent only
    have hexponent : p.exponent = -1074 := hp.normal.resolve_right (by omega)
    rw [if_pos hsmall, if_neg (by omega), if_pos (by omega), Nat.mod_eq_of_lt hsmall, ← hexponent]
  · have hfield : ((p.exponent + 1075).toNat * 2 ^ 52 + (p.mantissa - 2 ^ 52)) / 2 ^ 52 =
        (p.exponent + 1075).toNat := by omega
    have hrest : ((p.exponent + 1075).toNat * 2 ^ 52 + (p.mantissa - 2 ^ 52)) % 2 ^ 52 =
        p.mantissa - 2 ^ 52 := by omega
    have hexponent : ((p.exponent + 1075).toNat : ℤ) - 1075 = p.exponent := by omega
    rw [if_neg hsmall, hfield, hrest, if_neg (by omega), if_neg (by omega), hexponent, Nat.pow_eq,
      Nat.add_sub_cancel' (not_lt.1 hsmall)]

/-- What has at most 53 bits, from an exponent in the range on, is a number. -/
theorem exists_proper (negative : Bool) {k : ℕ} {u : ℤ} (hk : k < 2 ^ 53) (hleast : -1074 ≤ u)
    (hgreatest : u ≤ 971) :
    ∃ p : Parts, p.Proper ∧ p.negative = negative ∧ p.value = k * 2 ^ u := by
  by_cases hnormal : u = -1074 ∨ 2 ^ 52 ≤ k
  · exact ⟨⟨negative, k, u⟩, ⟨hleast, hgreatest, hk, hnormal⟩, rfl, rfl⟩
  · -- one more bit below, until there are 53
    obtain ⟨hu, hsmall⟩ := not_or.1 hnormal
    obtain ⟨p, hp, hsign, hvalue⟩ :=
      exists_proper negative (k := 2 * k) (u := u - 1) (by omega) (by omega) (by omega)
    refine ⟨p, hp, hsign, ?_⟩
    rw [hvalue, zpow_sub_one₀ two_ne_zero]
    push_cast
    ring
termination_by (u + 1074).toNat

end Parts

/-- **A fraction with at most 53 bits is not rounded.** -/
theorem nearest_exact (negative : Bool) {num den k : ℕ} {u : ℤ} (hden : 0 < den)
    (hvalue : (num : ℚ) / den = k * 2 ^ u) (hk : k < 2 ^ 53) (hleast : -1074 ≤ u)
    (hgreatest : u ≤ 971) :
    exactValue? (nearest negative num den) = some (signed negative (k * 2 ^ u)) ∧
      signBit (nearest negative num den) = negative := by
  obtain ⟨p, hp, rfl, hexact⟩ := Parts.exists_proper negative hk hleast hgreatest
  have hround := nearestBits_rounded num hden
  rw [hvalue, ← hexact] at hround
  have hbits : nearest p.negative num den = ofSignBits p.negative p.magnitude := by
    rw [nearest, hround.eq hp.rounded]
  rw [hbits, ← hexact]
  exact ⟨exactValue?_of_parts hp.ofFloat?_eq, (fields_ofSignBits _ hp.magnitude_lt.le).1⟩

/-! ### The nearest integer -/

namespace RoundsTo

variable {t : ℚ} {r : ℕ}

theorem abs_sub_le_half (h : RoundsTo t r) : |(r : ℚ) - t| ≤ 1 / 2 :=
  abs_le.2 ⟨by linarith [h.upper], by linarith [h.lower]⟩

theorem one_le_abs_sub {k : ℕ} (hne : k ≠ r) : (1 : ℚ) ≤ |(k : ℚ) - r| := by
  rcases Nat.lt_or_gt_of_ne hne with hlt | hgt
  · have hsucc : (k : ℚ) + 1 ≤ r := by exact_mod_cast hlt
    exact le_abs.2 (.inr (by linarith))
  · have hsucc : (r : ℚ) + 1 ≤ k := by exact_mod_cast hgt
    exact le_abs.2 (.inl (by linarith))

/-- No integer is nearer. -/
theorem no_nearer (h : RoundsTo t r) (k : ℕ) : |(r : ℚ) - t| ≤ |(k : ℚ) - t| := by
  by_cases heq : k = r
  · rw [heq]
  · have hhalf := h.abs_sub_le_half
    have hone := one_le_abs_sub heq
    have htriangle := abs_sub_le (k : ℚ) t r
    rw [abs_sub_comm t r] at htriangle
    linarith

/-- If another integer is as near, the one rounded to is even. -/
theorem even_of_tie (h : RoundsTo t r) {k : ℕ} (hne : k ≠ r)
    (htie : |(k : ℚ) - t| = |(r : ℚ) - t|) : r % 2 = 0 := by
  have hdistance : |(r : ℚ) - t| = 1 / 2 := by
    have hhalf := h.abs_sub_le_half
    have hone := one_le_abs_sub hne
    have htriangle := abs_sub_le (k : ℚ) t r
    rw [abs_sub_comm t r] at htriangle
    linarith
  rcases eq_or_eq_neg_of_abs_eq hdistance with hbelow | habove
  · exact h.lower_even (by linarith)
  · exact h.upper_even (by linarith)

end RoundsTo

/-! ### Numbers around a magnitude -/

/-- At a smaller exponent a number is a multiple of the unit. -/
theorem Parts.value_eq_mul (p : Parts) {u : ℤ} (hu : u ≤ p.exponent) :
    p.value = (p.mantissa * 2 ^ (p.exponent - u).toNat : ℕ) * 2 ^ u := by
  have hsum : ((p.exponent - u).toNat : ℤ) + u = p.exponent := by omega
  rw [Parts.value, Nat.cast_mul, Nat.cast_pow, Nat.cast_ofNat, mul_assoc, ← zpow_natCast,
    ← zpow_add₀ two_ne_zero, hsum]

/-- A number lies on the grid of a unit, or below its first point with 53 bits. -/
theorem Parts.Proper.on_grid_or_below {p : Parts} (hp : p.Proper) (u : ℤ) :
    (∃ k : ℕ, p.value = k * 2 ^ u) ∨ p.exponent < u ∧ p.value < 2 ^ 52 * 2 ^ u := by
  rcases le_or_gt u p.exponent with hle | hlt
  · left
    exact ⟨_, p.value_eq_mul hle⟩
  · right
    refine ⟨hlt, ?_⟩
    have hmantissa : (p.mantissa : ℚ) < 2 ^ 53 := by exact_mod_cast hp.mantissa_lt
    calc p.value ≤ p.mantissa * 2 ^ (u - 1) := by
          unfold Parts.value
          gcongr
          · exact one_le_two
          · omega
      _ < 2 ^ 53 * 2 ^ (u - 1) := by gcongr
      _ = 2 ^ 52 * 2 ^ u := by
          rw [zpow_sub_one₀ two_ne_zero]
          ring

section Unit

variable {q : ℚ} {u : ℤ} {m : ℕ}

/-- Distances are measured in units. -/
theorem abs_mul_sub (a q : ℚ) (u : ℤ) : |a * 2 ^ u - q| = |a - q / 2 ^ u| * 2 ^ u := by
  have hpos : (0 : ℚ) < 2 ^ u := by positivity
  have hscaled : a * 2 ^ u - q = (a - q / 2 ^ u) * 2 ^ u := by
    rw [sub_mul, div_mul_cancel₀ _ hpos.ne']
  rw [hscaled, abs_mul, abs_of_pos hpos]

/-- No number is nearer to a magnitude than the multiple of the unit it is rounded
to; if one is as near, the multiple is even. -/
theorem HasUnit.no_nearer (h : HasUnit q u) (hm : RoundsTo (q / 2 ^ u) m) {p : Parts}
    (hp : p.Proper) :
    |m * 2 ^ u - q| ≤ |p.value - q| ∧
      (|p.value - q| = |m * 2 ^ u - q| → p.value = m * 2 ^ u ∨ m % 2 = 0) := by
  have hpos : (0 : ℚ) < 2 ^ u := by positivity
  rcases hp.on_grid_or_below u with ⟨k, hk⟩ | ⟨hfiner, hbelow⟩
  · rw [hk, abs_mul_sub, abs_mul_sub]
    refine ⟨mul_le_mul_of_nonneg_right (hm.no_nearer k) hpos.le, fun htie => ?_⟩
    by_cases heq : k = m
    · exact .inl (by rw [heq])
    · exact .inr (hm.even_of_tie heq (mul_right_cancel₀ hpos.ne' htie))
  · -- the first point with 53 bits lies between the number and the magnitude
    have hleast := hp.least
    have hfirst : 2 ^ 52 * 2 ^ u ≤ q := by
      have hlower := h.lower.resolve_left (by omega)
      rwa [add_comm, zpow_add₀ two_ne_zero] at hlower
    have hnear : |m * 2 ^ u - q| ≤ |2 ^ 52 * 2 ^ u - q| := by
      rw [abs_mul_sub, abs_mul_sub]
      have hpoint := hm.no_nearer (2 ^ 52)
      push_cast at hpoint
      exact mul_le_mul_of_nonneg_right hpoint hpos.le
    have hfar : |2 ^ 52 * 2 ^ u - q| < |p.value - q| := by
      rw [abs_of_nonpos (by linarith), abs_of_nonpos (by linarith)]
      linarith
    exact ⟨(hnear.trans_lt hfar).le, fun htie => absurd htie (hnear.trans_lt hfar).ne'⟩

/-- Unless it is that of infinity, the pattern is that of a number. -/
theorem HasUnit.exists_parts (h : HasUnit q u) (hm : RoundsTo (q / 2 ^ u) m)
    (hpattern : pattern m u < infinityBits) (negative : Bool) :
    ∃ p : Parts, p.Proper ∧ p.negative = negative ∧ p.magnitude = pattern m u ∧
      p.value = m * 2 ^ u := by
  have hlimit : infinityBits = 2047 * 2 ^ 52 := rfl
  have hleast := h.least
  have hle := h.mantissa_le hm
  have hnormal : u = -1074 ∨ 2 ^ 52 ≤ m := by
    rcases hleast.eq_or_lt with heq | hlt
    · exact .inl heq.symm
    · exact .inr (h.le_mantissa hm hlt)
  have hgreatest : u ≤ 971 := by
    unfold pattern at hpattern
    split at hpattern <;> omega
  rcases hle.eq_or_lt with hcarry | hlt
  · -- a carry leads to the next exponent
    subst hcarry
    refine ⟨⟨negative, 2 ^ 52, u + 1⟩, ⟨?_, ?_, by norm_num, .inr le_rfl⟩, rfl,
      (pattern_carry hleast).symm, ?_⟩
    · show -1074 ≤ u + 1
      omega
    · show u + 1 ≤ 971
      rw [pattern_carry hleast, pattern, if_neg (lt_irrefl _)] at hpattern
      omega
    · show ((2 ^ 52 : ℕ) : ℚ) * 2 ^ (u + 1) = (2 ^ 53 : ℕ) * 2 ^ u
      rw [zpow_add_one₀ two_ne_zero]
      push_cast
      ring
  · exact ⟨⟨negative, m, u⟩, ⟨hleast, hgreatest, hlt, hnormal⟩, rfl, rfl, rfl⟩

end Unit

/-! ### The nearest number -/

/-- Half a unit above the largest number. -/
def overflowLimit : ℚ :=
  2 ^ 1024 - 2 ^ 970

/-- The limit lies halfway between two multiples of the largest unit. -/
theorem overflowLimit_eq : overflowLimit = (2 ^ 53 - 1 / 2) * 2 ^ (971 : ℤ) := by
  have hpower : (2 : ℚ) ^ 1024 = 2 ^ 53 * 2 ^ 971 := by rw [← pow_add]
  have hunit : (2 : ℚ) ^ 971 = 2 ^ 970 * 2 := by rw [← pow_succ]
  have hcast : (2 : ℚ) ^ (971 : ℤ) = 2 ^ 971 := zpow_ofNat 2 971
  rw [overflowLimit, hcast, hpower, hunit]
  generalize (2 : ℚ) ^ 970 = half
  ring

/-- The pattern is that of infinity from the limit on. -/
theorem Rounded.lt_infinityBits_iff {q : ℚ} {bits : ℕ} (h : Rounded q bits) :
    bits < infinityBits ↔ q < overflowLimit := by
  have hlimit : infinityBits = 2047 * 2 ^ 52 := rfl
  constructor
  · intro hbits
    by_contra hge
    -- the limit is halfway between two multiples of its unit, of which the upper is even
    have hround : RoundsTo (2 ^ 53 - 1 / 2) (2 ^ 53) := by
      have hhalf := RoundsTo.half (2 ^ 53 - 1)
      norm_num at hhalf ⊢
      exact hhalf
    have hexact := rounded_of_unit (u := 971) (by norm_num) (by norm_num) (.inr (by norm_num))
      hround
    rw [← overflowLimit_eq] at hexact
    have hpattern : min (pattern (2 ^ 53) 971) infinityBits = infinityBits := by decide
    rw [hpattern] at hexact
    exact absurd (hexact.le h (not_lt.1 hge)) (not_le.2 hbits)
  · obtain ⟨m, u, hunit, hm, rfl⟩ := h
    intro hq
    rw [min_lt_iff, or_iff_left (lt_irrefl _)]
    by_contra hge
    have hle := hunit.mantissa_le hm
    have hcut : 971 ≤ u ∧ (u = 971 → m = 2 ^ 53) := by
      unfold pattern at hge
      split at hge <;> omega
    rw [overflowLimit_eq] at hq
    rcases hcut.1.eq_or_lt with heq | hlt
    · subst heq
      have hlower := hm.lower
      rw [hcut.2 rfl, le_div_iff₀ (by positivity), Nat.cast_pow, Nat.cast_ofNat] at hlower
      exact absurd hlower (not_le.2 hq)
    · have hlower := hunit.lower.resolve_left (by omega)
      have hpast : (2 ^ 53 - 1 / 2) * 2 ^ (971 : ℤ) ≤ q :=
        calc (2 ^ 53 - 1 / 2) * 2 ^ (971 : ℤ) ≤ (2 : ℚ) ^ (53 : ℤ) * 2 ^ (971 : ℤ) := by
              gcongr
              norm_num
          _ = 2 ^ (53 + 971 : ℤ) := (zpow_add₀ two_ne_zero _ _).symm
          _ ≤ 2 ^ (u + 52) := zpow_le_zpow_right₀ one_le_two (by omega)
          _ ≤ q := hlower
      exact absurd hpast (not_le.2 hq)

/-- The float stands for the magnitude `q` with a sign: no number is nearer, if
another is as near the last bit is zero, and from the limit on it is infinite. -/
structure IsNearest (negative : Bool) (q : ℚ) (x : Float) : Prop where
  sign : signBit x = negative
  infinite : overflowLimit ≤ q → x.isInf = true
  finite : q < overflowLimit → ∃ v, exactValue? x = some v ∧
    ∀ y w, exactValue? y = some w →
      |v - signed negative q| ≤ |w - signed negative q| ∧
      (|w - signed negative q| = |v - signed negative q| → w = v ∨ fractionField x % 2 = 0)

/-- With the other sign a magnitude is as near only if it is zero, or the other is. -/
theorem signed_eq_of_tie {s t : Bool} {a q : ℚ} (ha : 0 ≤ a) (hq : 0 ≤ q) (hzero : q = 0 → a = 0)
    (h : |signed s a - signed t q| = |a - q|) : signed s a = signed t a := by
  have hopposite (hsum : |a + q| = |a - q|) : a = 0 := by
    rw [abs_of_nonneg (add_nonneg ha hq)] at hsum
    rcases abs_cases (a - q) with ⟨habs, -⟩ | ⟨habs, -⟩
    · exact hzero (by linarith)
    · linarith
  cases s with
  | false =>
    cases t with
    | false => rfl
    | true =>
      rw [hopposite (by rw [← h, ← sub_neg_eq_add]; rfl)]
      exact neg_zero.symm
  | true =>
    cases t with
    | false =>
      rw [hopposite (by rw [← h, ← abs_neg, neg_add']; rfl)]
      exact neg_zero
    | true => rfl

/-- **The float of a rounded magnitude is the nearest.** -/
theorem Rounded.isNearest {q : ℚ} {bits : ℕ} (h : Rounded q bits) (hq : 0 ≤ q) (negative : Bool) :
    IsNearest negative q (ofSignBits negative bits) := by
  obtain ⟨hsign, -, hfraction⟩ := fields_ofSignBits negative h.le_infinityBits
  refine ⟨hsign, fun hge => ?_, fun hlt => ?_⟩
  · -- from the limit on, the pattern is that of infinity
    have hbits : bits = infinityBits :=
      le_antisymm h.le_infinityBits (not_lt.1 fun hlt => absurd (h.lt_infinityBits_iff.1 hlt)
        (not_lt.2 hge))
    rw [hbits]
    exact isInf_infinity negative
  · have hbits := h.lt_infinityBits_iff.2 hlt
    obtain ⟨m, u, hunit, hm, rfl⟩ := h
    have hpattern : pattern m u < infinityBits := (min_lt_iff.1 hbits).resolve_right (lt_irrefl _)
    rw [min_eq_left hpattern.le] at hfraction ⊢
    obtain ⟨p, hp, hnegative, hmagnitude, hvalue⟩ := hunit.exists_parts hm hpattern negative
    have hparts : Parts.ofFloat? (ofSignBits negative (pattern m u)) = some p := by
      rw [← hmagnitude, ← hnegative]
      exact hp.ofFloat?_eq
    have hexact : |p.exact - signed negative q| = |p.value - q| := by
      rw [Parts.exact, hnegative, abs_signed_sub]
    refine ⟨p.exact, exactValue?_of_parts hparts, fun y w hw => ?_⟩
    obtain ⟨p', hp', rfl⟩ := exactValue?_eq_some_iff.1 hw
    obtain ⟨hnear, htie⟩ := hunit.no_nearer hm (Parts.ofFloat?_spec hp').1
    rw [← hvalue] at hnear htie
    -- with another sign a number is only farther away
    have hother := abs_sub_le_signed p'.negative negative p'.value_nonneg hq
    rw [hexact]
    refine ⟨hnear.trans hother, fun heq => ?_⟩
    have hsame : |p'.value - q| = |p.value - q| := le_antisymm (hother.trans heq.le) hnear
    rcases htie hsame with hmagnitude' | heven
    · left
      have hsigned : signed p'.negative p'.value = signed negative p'.value := by
        apply signed_eq_of_tie p'.value_nonneg hq _ (heq.trans hsame.symm)
        intro hzero
        -- zero is rounded to zero
        have hm0 : m = 0 := Nat.le_zero.1 (hm.le_natCast (by rw [hzero, zero_div, Nat.cast_zero]))
        rw [hmagnitude', hvalue, hm0, Nat.cast_zero, zero_mul]
      rw [Parts.exact, Parts.exact, hnegative, ← hmagnitude', hsigned]
    · right
      rw [hfraction]
      unfold pattern
      split <;> omega

end BlockScript
