/-
BlockScript/Proofs/Rounding.lean

Rounding an exact magnitude to a bit pattern.

`Rounded q bits` says of a rational `q ≥ 0` which pattern is nearest to it: `q`
has a unit `2^u`, the place of the last of its 53 bits, at least `2^(-1074)`; it
is rounded to the nearest multiple `m` of the unit, a tie going to the even one;
and `m` and `u` are laid out as

    pattern m u  =  m                                    (m < 2^52)
    pattern m u  =  (u + 1075) · 2^52 + (m - 2^52)       (2^52 ≤ m)

cut at the pattern of infinity.  The pattern is monotone in `q`, so it depends on
nothing but `q`.  `nearestBits` computes it, whichever numerator and denominator
`q` is given by.
-/
import BlockScript.Number.Rounding
import Mathlib.Algebra.Order.Field.Power
import Mathlib.Data.Rat.Cast.Order
import Mathlib.Tactic.FieldSimp
import Mathlib.Tactic.Linarith
import Mathlib.Tactic.NormNum
import Mathlib.Tactic.Positivity
import Mathlib.Tactic.Ring

namespace BlockScript

/-! ### Powers with exponents of either sign -/

theorem zpow_mul_pow_toNat {b : ℚ} (hb : b ≠ 0) (e : ℤ) :
    b ^ e * b ^ (-e).toNat = b ^ e.toNat := by
  have hsum : e + ((-e).toNat : ℤ) = e.toNat := by omega
  rw [← zpow_natCast, ← zpow_natCast, ← zpow_add₀ hb, hsum]

/-- Multiplying numerator or denominator by a power divides by the power. -/
theorem scaled_ratio {b : ℕ} (hb : b ≠ 0) (num den : ℕ) (e : ℤ) :
    ((num * b ^ (-e).toNat : ℕ) : ℚ) / (den * b ^ e.toNat : ℕ) = num / den / (b : ℚ) ^ e := by
  have hb' : (b : ℚ) ≠ 0 := Nat.cast_ne_zero.2 hb
  push_cast
  rw [← zpow_mul_pow_toNat hb' e, ← mul_assoc, mul_div_mul_right _ _ (pow_ne_zero _ hb'), div_div]

/-- A number times a power of either sign, as a fraction of natural numbers. -/
theorem mul_zpow_eq_div {b : ℕ} (hb : b ≠ 0) (n : ℕ) (e : ℤ) :
    ((n * b ^ e.toNat : ℕ) : ℚ) / (b ^ (-e).toNat : ℕ) = n * (b : ℚ) ^ e := by
  have hratio := scaled_ratio hb n 1 (-e)
  rwa [neg_neg, one_mul, Nat.cast_one, div_one, zpow_neg, div_inv_eq_mul] at hratio

/-- A fraction is compared with a power of two by scaling one of its sides. -/
theorem scaled_lt_iff {num den : ℕ} (hden : 0 < den) (e : ℤ) :
    num * 2 ^ (-e).toNat < den * 2 ^ e.toNat ↔ (num : ℚ) / den < 2 ^ e := by
  have hscaled : ((num * 2 ^ (-e).toNat : ℕ) : ℚ) / (den * 2 ^ e.toNat : ℕ) = num / den / 2 ^ e :=
    scaled_ratio two_ne_zero num den e
  have hpos : (0 : ℚ) < (den * 2 ^ e.toNat : ℕ) := by positivity
  rw [← div_lt_one (by positivity : (0 : ℚ) < 2 ^ e), ← hscaled, div_lt_one hpos, Nat.cast_lt]

/-! ### The leading bit -/

theorem two_pow_log2_le {n : ℕ} (hn : 0 < n) : (2 : ℚ) ^ (n.log2 : ℤ) ≤ n := by
  rw [zpow_natCast]
  exact_mod_cast Nat.log2_self_le (Nat.pos_iff_ne_zero.1 hn)

theorem lt_two_pow_log2 (n : ℕ) : (n : ℚ) < 2 ^ ((n.log2 : ℤ) + 1) := by
  have h : n < 2 ^ (n.log2 + 1) := Nat.lt_log2_self
  exact_mod_cast h

/-- The difference of the two logarithms is at most one too large. -/
theorem two_pow_log2_sub_le {num den : ℕ} (hnum : 0 < num) (hden : 0 < den) :
    (2 : ℚ) ^ ((num.log2 : ℤ) - den.log2 - 1) ≤ num / den := by
  rw [le_div_iff₀ (Nat.cast_pos.2 hden)]
  calc (2 : ℚ) ^ ((num.log2 : ℤ) - den.log2 - 1) * den
      ≤ 2 ^ ((num.log2 : ℤ) - den.log2 - 1) * 2 ^ ((den.log2 : ℤ) + 1) := by
        gcongr
        exact (lt_two_pow_log2 den).le
    _ = 2 ^ (num.log2 : ℤ) := by
        rw [← zpow_add₀ two_ne_zero]
        congr 1
        ring
    _ ≤ num := two_pow_log2_le hnum

/-- It is never too small. -/
theorem lt_two_pow_log2_sub (num : ℕ) {den : ℕ} (hden : 0 < den) :
    (num : ℚ) / den < 2 ^ ((num.log2 : ℤ) - den.log2 + 1) := by
  rw [div_lt_iff₀ (Nat.cast_pos.2 hden)]
  calc (num : ℚ) < 2 ^ ((num.log2 : ℤ) + 1) := lt_two_pow_log2 num
    _ = 2 ^ ((num.log2 : ℤ) - den.log2 + 1) * 2 ^ (den.log2 : ℤ) := by
        rw [← zpow_add₀ two_ne_zero]
        congr 1
        ring
    _ ≤ 2 ^ ((num.log2 : ℤ) - den.log2 + 1) * den := by
        gcongr
        exact two_pow_log2_le hden

/-- The place of the leading bit. -/
theorem floorLog2_spec {num den : ℕ} (hnum : 0 < num) (hden : 0 < den) :
    (2 : ℚ) ^ floorLog2 num den ≤ num / den ∧
      (num : ℚ) / den < 2 ^ (floorLog2 num den + 1) := by
  unfold floorLog2
  simp only [Nat.pow_eq]
  split
  next hlt =>
    -- the estimate is one too large, and is corrected
    rw [sub_add_cancel]
    exact ⟨two_pow_log2_sub_le hnum hden, (scaled_lt_iff hden _).1 hlt⟩
  next hge =>
    exact ⟨not_lt.1 fun hlt => hge ((scaled_lt_iff hden _).2 hlt), lt_two_pow_log2_sub num hden⟩

/-! ### Rounding to an integer -/

/-- The integer is nearest to the rational, and even if another is as near. -/
structure RoundsTo (q : ℚ) (r : ℕ) : Prop where
  lower : (r : ℚ) - 1 / 2 ≤ q
  upper : q ≤ r + 1 / 2
  lower_even : q = r - 1 / 2 → r % 2 = 0
  upper_even : q = r + 1 / 2 → r % 2 = 0

namespace RoundsTo

variable {q q' : ℚ} {r r' : ℕ}

theorem of_lt (hlower : (r : ℚ) - 1 / 2 < q) (hupper : q < r + 1 / 2) : RoundsTo q r where
  lower := hlower.le
  upper := hupper.le
  lower_even h := absurd h hlower.ne'
  upper_even h := absurd h hupper.ne

theorem natCast (r : ℕ) : RoundsTo r r :=
  of_lt (by linarith) (by linarith)

/-- Halfway between two integers the even one is taken. -/
theorem half (k : ℕ) : RoundsTo (k + 1 / 2) (k + k % 2) := by
  rcases Nat.mod_two_eq_zero_or_one k with hk | hk
  · rw [hk, add_zero]
    exact ⟨by linarith, le_rfl, fun h => by linarith, fun _ => hk⟩
  · rw [hk]
    refine ⟨?_, ?_, fun _ => by omega, fun h => ?_⟩ <;> push_cast at * <;> linarith

/-- Rounding is monotone. -/
theorem le (h : RoundsTo q r) (h' : RoundsTo q' r') (hq : q ≤ q') : r ≤ r' := by
  by_contra hlt
  have hsucc : (r' : ℚ) + 1 ≤ r := by exact_mod_cast Nat.lt_of_not_le hlt
  have hlower := h.lower
  have hupper := h'.upper
  -- only a tie between neighbours is left, and of these one is odd
  have hr : (r : ℚ) = r' + 1 := by linarith
  have heven := h.lower_even (by linarith)
  have heven' := h'.upper_even (by linarith)
  have hr' : r = r' + 1 := by exact_mod_cast hr
  omega

theorem natCast_le {k : ℕ} (h : RoundsTo q r) (hq : (k : ℚ) ≤ q) : k ≤ r :=
  (natCast k).le h hq

theorem le_natCast {k : ℕ} (h : RoundsTo q r) (hq : q ≤ k) : r ≤ k :=
  h.le (natCast k) hq

end RoundsTo

/-- A fraction is its integer part and a remainder. -/
theorem div_eq_floor_add (num : ℕ) {den : ℕ} (hden : 0 < den) :
    (num : ℚ) / den = (num / den : ℕ) + (num % den : ℕ) / (den : ℚ) := by
  have hden' : (den : ℚ) ≠ 0 := Nat.cast_ne_zero.2 hden.ne'
  have h : (num : ℚ) = den * (num / den : ℕ) + (num % den : ℕ) := by
    exact_mod_cast (Nat.div_add_mod num den).symm
  field_simp
  exact h

theorem remainder_lt_one (num : ℕ) {den : ℕ} (hden : 0 < den) :
    ((num % den : ℕ) : ℚ) / den < 1 := by
  rw [div_lt_one (Nat.cast_pos.2 hden)]
  exact_mod_cast Nat.mod_lt num hden

/-- The remainder is compared with half the denominator in integers. -/
theorem remainder_lt_half_iff (num : ℕ) {den : ℕ} (hden : 0 < den) :
    2 * (num % den) < den ↔ ((num % den : ℕ) : ℚ) / den < 1 / 2 := by
  rw [div_lt_div_iff₀ (Nat.cast_pos.2 hden) two_pos, one_mul, mul_comm]
  exact_mod_cast Iff.rfl

theorem half_lt_remainder_iff (num : ℕ) {den : ℕ} (hden : 0 < den) :
    den < 2 * (num % den) ↔ 1 / 2 < ((num % den : ℕ) : ℚ) / den := by
  rw [div_lt_div_iff₀ two_pos (Nat.cast_pos.2 hden), one_mul, mul_comm]
  exact_mod_cast Iff.rfl

/-- Division rounds to the nearest integer, and to the even one of two. -/
theorem roundDiv_roundsTo (num : ℕ) {den : ℕ} (hden : 0 < den) :
    RoundsTo (num / den) (roundDiv num den) := by
  have hnonneg : (0 : ℚ) ≤ (num % den : ℕ) / (den : ℚ) := by positivity
  have hone := remainder_lt_one num hden
  rw [div_eq_floor_add num hden]
  unfold roundDiv
  simp only [remainder_lt_half_iff num hden, half_lt_remainder_iff num hden]
  split
  next hlt => exact .of_lt (by linarith) (by linarith)
  next hge =>
    split
    next hgt =>
      refine .of_lt ?_ ?_ <;> push_cast <;> linarith
    next hle =>
      -- the remainder is half the denominator: a tie
      rw [le_antisymm (not_lt.1 hle) (not_lt.1 hge)]
      exact .half _

/-! ### Rounding to a pattern -/

/-- `2^u` is the place of the last mantissa bit of a magnitude. -/
structure HasUnit (q : ℚ) (u : ℤ) : Prop where
  least : -1074 ≤ u
  upper : q < 2 ^ (u + 53)
  lower : u = -1074 ∨ 2 ^ (u + 52) ≤ q

/-- The pattern of `m · 2^u`. -/
def pattern (m : ℕ) (u : ℤ) : ℕ :=
  if m < 2 ^ 52 then m else (u + 1075).toNat * 2 ^ 52 + (m - 2 ^ 52)

/-- The pattern is nearest to the magnitude, and even if another is as near. -/
def Rounded (q : ℚ) (bits : ℕ) : Prop :=
  ∃ m u, HasUnit q u ∧ RoundsTo (q / 2 ^ u) m ∧ bits = min (pattern m u) infinityBits

/-- The computed exponent is that of the last mantissa bit. -/
theorem unitExponent_hasUnit {num den : ℕ} (hnum : 0 < num) (hden : 0 < den) :
    HasUnit (num / den) (unitExponent num den) := by
  obtain ⟨hlower, hupper⟩ := floorLog2_spec hnum hden
  unfold unitExponent
  refine ⟨le_max_left _ _, hupper.trans_le ?_, ?_⟩
  · apply zpow_le_zpow_right₀ one_le_two
    omega
  · -- below the least exponent there are fewer than 53 bits
    rcases le_total (floorLog2 num den - 52) (-1074) with hle | hge
    · left
      exact max_eq_left hle
    · right
      rw [max_eq_right hge, sub_add_cancel]
      exact hlower

/-- **`nearestBits` rounds correctly.** -/
theorem nearestBits_rounded (num : ℕ) {den : ℕ} (hden : 0 < den) :
    Rounded (num / den) (nearestBits num den) := by
  unfold nearestBits
  split
  next hzero =>
    -- zero has no leading bit, and is rounded at the least unit
    subst hzero
    refine ⟨0, -1074, ⟨le_rfl, ?_, .inl rfl⟩, ?_, rfl⟩
    · rw [Nat.cast_zero, zero_div]
      positivity
    · rw [Nat.cast_zero, zero_div, zero_div]
      exact .natCast 0
  next hnum =>
    refine ⟨_, _, unitExponent_hasUnit (Nat.pos_of_ne_zero hnum) hden, ?_, rfl⟩
    rw [← Nat.cast_ofNat, ← scaled_ratio two_ne_zero]
    exact roundDiv_roundsTo _ (by positivity)

/-- The unit is monotone in the magnitude. -/
theorem HasUnit.le {q q' : ℚ} {u u' : ℤ} (h : HasUnit q u) (h' : HasUnit q' u') (hq : q ≤ q') :
    u ≤ u' := by
  rcases h.lower with hleast | hlower
  · rw [hleast]
    exact h'.least
  · have hlt : (2 : ℚ) ^ (u + 52) < 2 ^ (u' + 53) := (hlower.trans hq).trans_lt h'.upper
    rw [zpow_lt_zpow_iff_right₀ one_lt_two] at hlt
    omega

/-- The multiple of the unit that a magnitude is rounded to has at most 53
bits, or is the next power of two. -/
theorem HasUnit.mantissa_le {q : ℚ} {u : ℤ} {m : ℕ} (h : HasUnit q u)
    (hm : RoundsTo (q / 2 ^ u) m) : m ≤ 2 ^ 53 := by
  apply hm.le_natCast
  rw [div_le_iff₀ (by positivity)]
  rw [Nat.cast_pow, Nat.cast_ofNat, ← zpow_natCast, ← zpow_add₀ two_ne_zero, add_comm]
  exact h.upper.le

/-- Above the least unit it has 53 bits. -/
theorem HasUnit.le_mantissa {q : ℚ} {u : ℤ} {m : ℕ} (h : HasUnit q u)
    (hm : RoundsTo (q / 2 ^ u) m) (hu : -1074 < u) : 2 ^ 52 ≤ m := by
  apply hm.natCast_le
  rw [le_div_iff₀ (by positivity)]
  rw [Nat.cast_pow, Nat.cast_ofNat, ← zpow_natCast, ← zpow_add₀ two_ne_zero, add_comm]
  exact h.lower.resolve_left hu.ne'

/-- At one unit, patterns are in the order of the mantissas. -/
theorem pattern_mono {m m' : ℕ} {u : ℤ} (hu : -1074 ≤ u) (hm : m ≤ m') :
    pattern m u ≤ pattern m' u := by
  unfold pattern
  split <;> split <;> omega

/-- A carry out of the mantissa leads to the next unit. -/
theorem pattern_carry {u : ℤ} (hu : -1074 ≤ u) : pattern (2 ^ 53) u = pattern (2 ^ 52) (u + 1) := by
  unfold pattern
  rw [if_neg (by omega), if_neg (by omega)]
  omega

/-- **The pattern is monotone in the magnitude.** -/
theorem Rounded.le {q q' : ℚ} {bits bits' : ℕ} (h : Rounded q bits) (h' : Rounded q' bits')
    (hq : q ≤ q') : bits ≤ bits' := by
  obtain ⟨m, u, hunit, hm, rfl⟩ := h
  obtain ⟨m', u', hunit', hm', rfl⟩ := h'
  apply min_le_min_right
  rcases (hunit.le hunit' hq).eq_or_lt with heq | hlt
  · -- the same unit, so the multiples of it compare
    subst heq
    exact pattern_mono hunit.least (hm.le hm' (by gcongr))
  · -- a smaller unit: a carry reaches at most the next exponent field
    have hleast := hunit.least
    have hle := hunit.mantissa_le hm
    have hge := hunit'.le_mantissa hm' (by omega)
    unfold pattern
    split <;> split <;> omega

/-- A magnitude is rounded to one pattern only. -/
theorem Rounded.eq {q : ℚ} {bits bits' : ℕ} (h : Rounded q bits) (h' : Rounded q bits') :
    bits = bits' :=
  le_antisymm (h.le h' le_rfl) (h'.le h le_rfl)

/-- What lies between two magnitudes of one pattern has this pattern too. -/
theorem Rounded.between {q q₁ q₂ : ℚ} {bits bits' : ℕ} (h : Rounded q bits') (h₁ : Rounded q₁ bits)
    (h₂ : Rounded q₂ bits) (hq₁ : q₁ ≤ q) (hq₂ : q ≤ q₂) : Rounded q bits := by
  rwa [le_antisymm (h.le h₂ hq₂) (h₁.le h hq₁)] at h

theorem Rounded.le_infinityBits {q : ℚ} {bits : ℕ} (h : Rounded q bits) : bits ≤ infinityBits := by
  obtain ⟨m, u, -, -, rfl⟩ := h
  exact min_le_right _ _

/-! ### Exact, large and small magnitudes -/

/-- A magnitude, measured in its unit, is rounded as that measure is. -/
theorem rounded_of_unit {t : ℚ} {m : ℕ} {u : ℤ} (hleast : -1074 ≤ u) (hupper : t < 2 ^ 53)
    (hlower : u = -1074 ∨ 2 ^ 52 ≤ t) (hm : RoundsTo t m) :
    Rounded (t * 2 ^ u) (min (pattern m u) infinityBits) := by
  have hpos : (0 : ℚ) < 2 ^ u := by positivity
  refine ⟨m, u, ⟨hleast, ?_, ?_⟩, ?_, rfl⟩
  · rw [add_comm, zpow_add₀ two_ne_zero]
    gcongr
    exact_mod_cast hupper
  · refine hlower.imp_right fun hge => ?_
    rw [add_comm, zpow_add₀ two_ne_zero]
    gcongr
    exact_mod_cast hge
  · rwa [mul_div_cancel_right₀ _ hpos.ne']

/-- A magnitude with at most 53 bits from its unit down is rounded to its own
pattern. -/
theorem rounded_exact {m : ℕ} {u : ℤ} (hleast : -1074 ≤ u) (hm : m < 2 ^ 53)
    (hnormal : u = -1074 ∨ 2 ^ 52 ≤ m) :
    Rounded (m * 2 ^ u) (min (pattern m u) infinityBits) :=
  rounded_of_unit hleast (by exact_mod_cast hm) (hnormal.imp_right fun hge => by exact_mod_cast hge)
    (.natCast m)

/-- From `2^1024` on a magnitude is infinite. -/
theorem Rounded.eq_infinityBits {q : ℚ} {bits : ℕ} (h : Rounded q bits) (hq : 2 ^ (1024 : ℤ) ≤ q) :
    bits = infinityBits := by
  have hexact := rounded_exact (m := 2 ^ 52) (u := 972) (by norm_num) (by norm_num) (.inr le_rfl)
  rw [Nat.cast_pow, Nat.cast_ofNat, ← zpow_natCast, ← zpow_add₀ two_ne_zero] at hexact
  exact le_antisymm h.le_infinityBits (hexact.le h hq)

/-- Up to half the least subnormal a magnitude is zero. -/
theorem Rounded.eq_zero {q : ℚ} {bits : ℕ} (h : Rounded q bits) (hq : q ≤ 2 ^ (-1075 : ℤ)) :
    bits = 0 := by
  have hhalf : Rounded (2 ^ (-1075 : ℤ)) 0 := by
    refine ⟨0, -1074, ⟨le_rfl, ?_, .inl rfl⟩, ?_, rfl⟩
    · exact zpow_lt_zpow_right₀ one_lt_two (by norm_num)
    · rw [← zpow_sub₀ two_ne_zero]
      have h := RoundsTo.half 0
      norm_num at h ⊢
      exact h
  exact Nat.le_zero.1 (h.le hhalf hq)

end BlockScript
