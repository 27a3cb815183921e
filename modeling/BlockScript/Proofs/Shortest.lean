/-
BlockScript/Proofs/Shortest.lean

The text of a number spells the shortest decimal that reads back as the number,
and of these the nearest to it.

The decimals that read back as a number lie in an interval around it, because
rounding is monotone.  On the grid of the decimals with `n` digits, which starts
at the leading digit of the number,

    v / 10^leading  =  d₁ . d₂ … dₙ | …

a decimal in the interval has between itself and the number one of the two
neighbours of the number, which is then in the interval too.  So it suffices to
try the neighbours, on one grid after the other.  With seventeen digits they are
nearer to the number than half the distance to the next float.
-/
import BlockScript.Proofs.Bits
import BlockScript.Proofs.Numeral

namespace BlockScript

/-! ### The parts of a number -/

/-- Numbers have parts, and they alone. -/
theorem finiteBits_iff_parts (x : Float) :
    FiniteBits x.toBits ↔ ∃ p, Parts.ofFloat? x = some p := by
  show exponentField x ≠ 2047 ↔ _
  unfold Parts.ofFloat?
  dsimp only
  by_cases hfield : exponentField x = 2047
  · simp [hfield]
  · rw [if_neg hfield]
    refine iff_of_true hfield ?_
    split <;> exact ⟨_, rfl⟩

namespace Parts

/-- The rational that the magnitude of a number stands for. -/
def value (p : Parts) : ℚ :=
  p.mantissa * 2 ^ p.exponent

/-- The pattern of the magnitude. -/
def magnitude (p : Parts) : ℕ :=
  pattern p.mantissa p.exponent

/-- The mantissa has 53 bits, or fewer from the least exponent down. -/
structure Proper (p : Parts) : Prop where
  least : -1074 ≤ p.exponent
  greatest : p.exponent ≤ 971
  mantissa_lt : p.mantissa < 2 ^ 53
  normal : p.exponent = -1074 ∨ 2 ^ 52 ≤ p.mantissa

/-- The parts of a number are its bits taken apart. -/
theorem ofFloat?_spec {x : Float} {p : Parts} (h : ofFloat? x = some p) :
    p.Proper ∧ p.negative = signBit x ∧
      p.magnitude = exponentField x * 2 ^ 52 + fractionField x := by
  have hfield : exponentField x < 2 ^ 11 := Nat.mod_lt _ (by decide)
  have hfraction : fractionField x < 2 ^ 52 := Nat.mod_lt _ (by decide)
  unfold ofFloat? at h
  dsimp only at h
  split at h
  next => cases h
  next hfinite =>
    split at h
    next hzero =>
      -- a subnormal number or zero, without a hidden bit
      cases h
      refine ⟨⟨le_rfl, ?_, ?_, .inl rfl⟩, rfl, ?_⟩
      · show (-1074 : ℤ) ≤ 971
        omega
      · show fractionField x < 2 ^ 53
        omega
      · show pattern (fractionField x) (-1074) = _
        rw [pattern, if_pos hfraction, hzero, zero_mul, zero_add]
    next hnormal =>
      cases h
      refine ⟨⟨?_, ?_, ?_, .inr (Nat.le_add_right _ _)⟩, rfl, ?_⟩
      · show -1074 ≤ (exponentField x : ℤ) - 1075
        omega
      · show (exponentField x : ℤ) - 1075 ≤ 971
        omega
      · show 2 ^ 52 + fractionField x < 2 ^ 53
        omega
      · show pattern (2 ^ 52 + fractionField x) ((exponentField x : ℤ) - 1075) = _
        rw [pattern, if_neg (by omega)]
        omega

/-- A magnitude as a fraction of natural numbers. -/
theorem value_eq_div (p : Parts) : (p.numerator : ℚ) / p.denominator = p.value :=
  mul_zpow_eq_div two_ne_zero p.mantissa p.exponent

theorem denominator_pos (p : Parts) : 0 < p.denominator :=
  Nat.pow_pos two_pos

variable {p : Parts}

theorem Proper.magnitude_lt (hp : p.Proper) : p.magnitude < infinityBits := by
  have hgreatest := hp.greatest
  have hmantissa := hp.mantissa_lt
  have hlimit : infinityBits = 2047 * 2 ^ 52 := rfl
  unfold magnitude pattern
  split <;> omega

/-- A number is rounded to itself. -/
theorem Proper.rounded (hp : p.Proper) : Rounded p.value p.magnitude := by
  have hcut : min (pattern p.mantissa p.exponent) infinityBits = p.magnitude :=
    min_eq_left hp.magnitude_lt.le
  have hexact := rounded_exact hp.least hp.mantissa_lt hp.normal
  rwa [hcut] at hexact

theorem Proper.nearestBits_eq (hp : p.Proper) :
    nearestBits p.numerator p.denominator = p.magnitude := by
  have hround := nearestBits_rounded p.numerator p.denominator_pos
  rw [value_eq_div] at hround
  exact hround.eq hp.rounded

/-- A decimal reads back if its value is rounded to the same magnitude. -/
theorem Proper.readsBack_iff (hp : p.Proper) (d : Decimal) :
    p.readsBack d = true ↔ Rounded d.value p.magnitude := by
  have hd := d.rounded_nearestBits
  unfold readsBack
  rw [beq_iff_eq, Decimal.toFloat_eq hd, nearest, hp.nearestBits_eq, ← UInt64.toNat_inj,
    toBits_ofSignBits _ hd.le_infinityBits, toBits_ofSignBits _ hp.magnitude_lt.le]
  constructor
  · intro h
    rwa [Nat.add_left_cancel h] at hd
  · intro h
    rw [hd.eq h]

end Parts

/-! ### The number of digits -/

namespace Decimal

/-- The number of digits of a decimal. -/
def length (d : Decimal) : ℕ :=
  (Nat.toDigits 10 d.digits).length

theorem length_pos (d : Decimal) : 0 < d.length :=
  Nat.length_toDigits_pos

theorem length_le_iff {d : Decimal} {k : ℕ} (hk : 0 < k) : d.length ≤ k ↔ d.digits < 10 ^ k :=
  Nat.length_toDigits_le_iff (by norm_num) hk

/-- A decimal of few digits is no more than a power of ten. -/
theorem value_le_pow {d : Decimal} {k : ℕ} (hk : 0 < k) (h : d.length ≤ k) :
    d.value ≤ 10 ^ ((k : ℤ) + d.exponent) := by
  have hdigits : (d.digits : ℚ) ≤ 10 ^ k := by exact_mod_cast ((length_le_iff hk).1 h).le
  rw [zpow_add₀ (by norm_num), zpow_natCast, value]
  gcongr

/-- Zeros at the end are traded for the exponent. -/
theorem trim_value (d : Decimal) : d.trim.value = d.value := by
  fun_induction trim d with
  | case1 d hzero => simp [value, hzero]
  | case2 d hzero hten ih =>
    have hdigits : (d.digits : ℚ) = (d.digits / 10 : ℕ) * 10 := by
      exact_mod_cast (show d.digits = d.digits / 10 * 10 by omega)
    rw [ih, value, value, hdigits, zpow_add₀ (by norm_num), zpow_one]
    ring
  | case3 => rfl

/-- Without the zeros at its end, a power of ten has one digit. -/
theorem trim_length_le {d : Decimal} {k : ℕ} (hk : 0 < k) (h : d.digits ≤ 10 ^ k) :
    d.trim.length ≤ k := by
  fun_induction trim d with
  | case1 => exact hk
  | case2 d hzero hten ih => exact ih (by show d.digits / 10 ≤ _; omega)
  | case3 d hzero hten =>
    rw [length_le_iff hk]
    apply lt_of_le_of_ne h
    intro heq
    obtain ⟨j, rfl⟩ := Nat.exists_eq_add_of_lt hk
    apply hten
    rw [heq, zero_add, pow_succ]
    exact Nat.mul_mod_left _ _

end Decimal

/-! ### The neighbours of a number on a grid -/

namespace Parts

variable {p : Parts} {leading : ℤ} {count : ℕ}

/-- The distance of two neighbours on the grid of a digit count. -/
def step (leading : ℤ) (count : ℕ) : ℚ :=
  10 ^ (leading - count + 1)

theorem step_pos : 0 < step leading count :=
  zpow_pos (by norm_num) _

theorem pow_mul_step (k : ℕ) : 10 ^ k * step leading count = 10 ^ (leading - count + 1 + k) := by
  rw [step, ← zpow_natCast, ← zpow_add₀ (by norm_num), add_comm]

/-- Numerator of a number counted in steps. -/
def gridNum (p : Parts) (leading : ℤ) (count : ℕ) : ℕ :=
  p.numerator * 10 ^ (-(leading - count + 1)).toNat

/-- Denominator of a number counted in steps. -/
def gridDen (p : Parts) (leading : ℤ) (count : ℕ) : ℕ :=
  p.denominator * 10 ^ (leading - count + 1).toNat

theorem gridDen_pos : 0 < p.gridDen leading count :=
  Nat.mul_pos p.denominator_pos (by positivity)

/-- A number counted in steps is the fraction of its grid. -/
theorem grid_ratio :
    (p.gridNum leading count : ℚ) / p.gridDen leading count = p.value / step leading count := by
  rw [step, ← p.value_eq_div]
  exact scaled_ratio (by norm_num) _ _ _

theorem exists_roundsTo (p : Parts) (leading : ℤ) (count : ℕ) :
    ∃ j, RoundsTo (p.value / step leading count) j := by
  rw [← grid_ratio]
  exact ⟨_, roundDiv_roundsTo _ gridDen_pos⟩

/-- The neighbour below a number, or the number itself. -/
def below (p : Parts) (leading : ℤ) (count : ℕ) : Decimal :=
  ⟨p.gridNum leading count / p.gridDen leading count, leading - count + 1⟩

/-- The neighbour above a number. -/
def above (p : Parts) (leading : ℤ) (count : ℕ) : Decimal :=
  ⟨p.gridNum leading count / p.gridDen leading count + 1, leading - count + 1⟩

/-- How far a number lies above its lower neighbour, in steps. -/
def excess (p : Parts) (leading : ℤ) (count : ℕ) : ℚ :=
  (p.gridNum leading count % p.gridDen leading count : ℕ) / (p.gridDen leading count : ℚ)

theorem excess_nonneg : 0 ≤ p.excess leading count :=
  div_nonneg (Nat.cast_nonneg _) (Nat.cast_nonneg _)

theorem excess_lt_one : p.excess leading count < 1 :=
  remainder_lt_one _ gridDen_pos

/-- A number lies less than a step above its lower neighbour. -/
theorem value_eq_below_add :
    p.value = (p.below leading count).value + p.excess leading count * step leading count := by
  have hfloor := div_eq_floor_add (p.gridNum leading count) (@gridDen_pos p leading count)
  rw [grid_ratio, div_eq_iff step_pos.ne', add_mul] at hfloor
  exact hfloor

theorem above_value :
    (p.above leading count).value = (p.below leading count).value + step leading count := by
  show (((p.below leading count).digits + 1 : ℕ) : ℚ) * step leading count =
    (p.below leading count).digits * step leading count + step leading count
  push_cast
  ring

theorem below_le : (p.below leading count).value ≤ p.value := by
  rw [value_eq_below_add]
  exact le_add_of_nonneg_right (mul_nonneg excess_nonneg step_pos.le)

theorem lt_above : p.value < (p.above leading count).value := by
  rw [value_eq_below_add, above_value]
  exact add_lt_add_right (mul_lt_of_lt_one_left step_pos excess_lt_one) _

theorem abs_below_sub :
    |(p.below leading count).value - p.value| = p.excess leading count * step leading count := by
  rw [abs_of_nonpos (sub_nonpos.2 below_le), value_eq_below_add]
  ring

theorem abs_above_sub :
    |(p.above leading count).value - p.value| =
      (1 - p.excess leading count) * step leading count := by
  rw [abs_of_pos (sub_pos.2 lt_above), value_eq_below_add, above_value]
  ring

/-- Of the two neighbours the nearer is tried first. -/
theorem onGrid?_eq (p : Parts) (leading : ℤ) (count : ℕ) :
    ∃ near far : Decimal, p.onGrid? leading count = [near, far].find? p.readsBack ∧
      |near.value - p.value| ≤ |far.value - p.value| ∧
      (near = p.below leading count ∧ far = p.above leading count ∨
        near = p.above leading count ∧ far = p.below leading count) := by
  set num := p.gridNum leading count with hnum
  set den := p.gridDen leading count with hden
  by_cases hnear : (2 * (num % den) < den || (2 * (num % den) == den && num / den % 2 == 0)) = true
  · refine ⟨p.below leading count, p.above leading count, ?_, ?_, .inl ⟨rfl, rfl⟩⟩
    · exact congrArg (List.find? p.readsBack) (if_pos hnear)
    · have hle : p.excess leading count ≤ 1 / 2 := by
        rw [← not_lt, excess, ← half_lt_remainder_iff _ gridDen_pos, ← hnum, ← hden]
        simp at hnear
        omega
      rw [abs_below_sub, abs_above_sub]
      exact mul_le_mul_of_nonneg_right (by linarith) step_pos.le
  · -- more than half a step above, or halfway with an odd lower neighbour
    refine ⟨p.above leading count, p.below leading count, ?_, ?_, .inr ⟨rfl, rfl⟩⟩
    · exact congrArg (List.find? p.readsBack) (if_neg hnear)
    · have hge : 1 / 2 ≤ p.excess leading count := by
        rw [← not_lt, excess, ← remainder_lt_half_iff _ gridDen_pos, ← hnum, ← hden]
        simp at hnear
        omega
      rw [abs_below_sub, abs_above_sub]
      exact mul_le_mul_of_nonneg_right (by linarith) step_pos.le

/-- Between a point of the grid and the number, both included, lies a neighbour. -/
theorem neighbour_between (p : Parts) (leading : ℤ) (count j : ℕ) :
    j * step leading count ≤ (p.below leading count).value ∨
      (p.above leading count).value ≤ j * step leading count := by
  have hstep := @step_pos leading count
  rcases le_or_gt j (p.below leading count).digits with hle | hgt
  · left
    exact mul_le_mul_of_nonneg_right (by exact_mod_cast hle) hstep.le
  · right
    exact mul_le_mul_of_nonneg_right (by exact_mod_cast Nat.succ_le_iff.2 hgt) hstep.le

/-- If a point of the grid reads back, so does a neighbour that is as near. -/
theorem Proper.neighbour_reads (hp : p.Proper) {j : ℕ}
    (hj : Rounded (j * step leading count) p.magnitude) :
    ∃ c : Decimal, (c = p.below leading count ∨ c = p.above leading count) ∧
      p.readsBack c = true ∧ |c.value - p.value| ≤ |j * step leading count - p.value| := by
  rcases p.neighbour_between leading count j with hle | hge
  · refine ⟨p.below leading count, .inl rfl, ?_, ?_⟩
    · rw [hp.readsBack_iff]
      exact (Decimal.rounded_nearestBits _).between hj hp.rounded hle below_le
    · exact abs_le_abs_of_nonpos (sub_nonpos.2 below_le) (sub_le_sub_right hle _)
  · refine ⟨p.above leading count, .inr rfl, ?_, ?_⟩
    · rw [hp.readsBack_iff]
      exact (Decimal.rounded_nearestBits _).between hp.rounded hj lt_above.le hge
    · exact abs_le_abs_of_nonneg (sub_nonneg.2 lt_above.le) (sub_le_sub_right hge _)

/-- If any decimal on the grid reads back, one is found that is as near. -/
theorem Proper.onGrid?_of_reads (hp : p.Proper) {j : ℕ}
    (hj : Rounded (j * step leading count) p.magnitude) :
    ∃ d, p.onGrid? leading count = some d ∧
      |d.value - p.value| ≤ |j * step leading count - p.value| := by
  obtain ⟨c, hc, hreads, hdist⟩ := hp.neighbour_reads hj
  obtain ⟨near, far, hgrid, hnear, hends⟩ := p.onGrid?_eq leading count
  have hmem : c = near ∨ c = far := by
    rcases hends with ⟨rfl, rfl⟩ | ⟨rfl, rfl⟩
    · exact hc
    · exact hc.symm
  rw [hgrid]
  by_cases hfirst : p.readsBack near = true
  · refine ⟨near, List.find?_cons_of_pos hfirst, ?_⟩
    rcases hmem with rfl | rfl
    · exact hdist
    · exact hnear.trans hdist
  · have hfar : c = far := hmem.resolve_left fun heq => hfirst (heq ▸ hreads)
    subst hfar
    refine ⟨c, ?_, hdist⟩
    rw [List.find?_cons_of_neg hfirst, List.find?_cons_of_pos hreads]

/-- What is found reads back and has the digits of the grid, or is the next
power of ten. -/
theorem Proper.onGrid?_some (hp : p.Proper) (hleading : p.value < 10 ^ (leading + 1)) {d : Decimal}
    (h : p.onGrid? leading count = some d) :
    Rounded d.value p.magnitude ∧ d.digits ≤ 10 ^ count := by
  obtain ⟨near, far, hgrid, -, hends⟩ := p.onGrid?_eq leading count
  rw [hgrid] at h
  refine ⟨(hp.readsBack_iff d).1 (List.find?_some h), ?_⟩
  have hlimit : (10 : ℚ) ^ (leading + 1) = 10 ^ count * step leading count := by
    rw [step, ← zpow_natCast, ← zpow_add₀ (by norm_num)]
    congr 1
    ring
  have hbelow : (p.below leading count).digits < 10 ^ count := by
    have hlt : ((p.below leading count).digits : ℚ) < 10 ^ count := by
      rw [hlimit] at hleading
      exact lt_of_mul_lt_mul_right (below_le.trans_lt hleading) step_pos.le
    exact_mod_cast hlt
  have habove : (p.above leading count).digits ≤ 10 ^ count := hbelow
  have hmem := List.mem_of_find?_eq_some h
  simp only [List.mem_cons, List.not_mem_nil, or_false] at hmem
  rcases hends with ⟨rfl, rfl⟩ | ⟨rfl, rfl⟩ <;> rcases hmem with rfl | rfl
  · exact hbelow.le
  · exact habove
  · exact habove
  · exact hbelow.le

/-! ### The leading digit -/

/-- The first digit of an integer is not zero. -/
theorem pow_length_le {n : ℕ} (hn : 0 < n) : 10 ^ ((Nat.toDigits 10 n).length - 1) ≤ n := by
  rcases Nat.eq_zero_or_pos ((Nat.toDigits 10 n).length - 1) with hone | hmore
  · rw [hone]
    exact hn
  · by_contra hlt
    have hle := (Nat.length_toDigits_le_iff (by norm_num) hmore).2 (not_le.1 hlt)
    omega

/-- The integer part of a fraction, after a shift of the point, has the digits
from the leading one on. -/
theorem shifted_length {num den shift : ℕ} {e : ℤ} (hden : 0 < den)
    (hpos : 0 < num * Nat.pow 10 shift / den)
    (he : e = (Nat.toDigits 10 (num * Nat.pow 10 shift / den)).length - (shift + 1)) :
    (10 : ℚ) ^ e ≤ num / den ∧ (num : ℚ) / den < 10 ^ (e + 1) := by
  rw [Nat.pow_eq] at hpos he
  have hfloor := div_eq_floor_add (num * 10 ^ shift) hden
  have hone := remainder_lt_one (num * 10 ^ shift) hden
  have hnonneg : (0 : ℚ) ≤ ((num * 10 ^ shift % den : ℕ) : ℚ) / den := by positivity
  set shifted := num * 10 ^ shift / den
  set k := (Nat.toDigits 10 shifted).length
  have hkpos : 0 < k := Nat.length_toDigits_pos
  have hupper : (shifted : ℚ) + 1 ≤ 10 ^ k := by
    have h : shifted < 10 ^ k := (Nat.length_toDigits_le_iff (by norm_num) hkpos).1 le_rfl
    exact_mod_cast h
  have hlower : (10 : ℚ) ^ (k - 1) ≤ shifted := by exact_mod_cast pow_length_le hpos
  have hratio : (num : ℚ) / den * 10 ^ shift = ((num * 10 ^ shift : ℕ) : ℚ) / den := by
    push_cast
    ring
  have hscale (j : ℕ) : (10 : ℚ) ^ ((j : ℤ) - shift) * 10 ^ shift = 10 ^ j := by
    rw [← zpow_natCast, ← zpow_add₀ (by norm_num), sub_add_cancel, zpow_natCast]
  have hshift : (0 : ℚ) < 10 ^ shift := by positivity
  rw [show e = ((k - 1 : ℕ) : ℤ) - shift by omega]
  constructor
  · apply le_of_mul_le_mul_right _ hshift
    rw [hscale, hratio]
    linarith
  · rw [show ((k - 1 : ℕ) : ℤ) - shift + 1 = (k : ℤ) - shift by omega]
    apply lt_of_mul_lt_mul_right _ hshift.le
    rw [hscale, hratio]
    linarith

/-- The decimal exponent is the place of the leading digit. -/
theorem Proper.decimalExponent_spec (hp : p.Proper) (hzero : p.mantissa ≠ 0) :
    10 ^ p.decimalExponent ≤ p.value ∧ p.value < 10 ^ (p.decimalExponent + 1) := by
  have hleast := hp.least
  have hpowers : 2 ^ 1074 ≤ Nat.pow 10 340 := by decide +kernel
  have hnumerator : 0 < p.numerator := Nat.mul_pos (Nat.pos_of_ne_zero hzero) (Nat.pow_pos two_pos)
  -- the shift is large enough for the least number to have a digit before the point
  have hpos : 0 < p.numerator * Nat.pow 10 340 / p.denominator := by
    apply Nat.div_pos _ p.denominator_pos
    calc p.denominator ≤ 2 ^ 1074 := Nat.pow_le_pow_right two_pos (by omega)
      _ ≤ Nat.pow 10 340 := hpowers
      _ ≤ p.numerator * Nat.pow 10 340 := Nat.le_mul_of_pos_left _ hnumerator
  rw [← p.value_eq_div]
  exact shifted_length p.denominator_pos hpos rfl

/-! ### Seventeen digits suffice -/

/-- What is nearer to a number than a part in `2^54` is rounded to it. -/
theorem Proper.rounded_of_near (hp : p.Proper) {q : ℚ} (hq : |q - p.value| < p.value / 2 ^ 54) :
    Rounded q p.magnitude := by
  have hunit : (0 : ℚ) < 2 ^ p.exponent := by positivity
  have hmantissa : (p.mantissa : ℚ) + 1 ≤ 2 ^ 53 := by exact_mod_cast hp.mantissa_lt
  have hcut : p.magnitude = min (pattern p.mantissa p.exponent) infinityBits :=
    (min_eq_left hp.magnitude_lt.le).symm
  -- everything is measured in units of the last place
  obtain ⟨t, rfl⟩ : ∃ t, q = t * 2 ^ p.exponent := ⟨q / 2 ^ p.exponent, by field_simp⟩
  have hnear : |t - p.mantissa| < p.mantissa / 2 ^ 54 := by
    rw [value, ← sub_mul, abs_mul, abs_of_pos hunit, mul_div_right_comm] at hq
    exact lt_of_mul_lt_mul_right hq hunit.le
  obtain ⟨hlower, hupper⟩ := abs_lt.1 hnear
  rw [hcut]
  by_cases hsame : p.exponent = -1074 ∨ (2 : ℚ) ^ 52 ≤ t
  · exact rounded_of_unit hp.least (by linarith) hsame (.of_lt (by linarith) (by linarith))
  · -- below a power of two the unit is half as large, and rounding carries
    obtain ⟨hleast, hlt⟩ := not_or.1 hsame
    have hbelow := not_le.1 hlt
    have hpower : p.mantissa = 2 ^ 52 := by
      have hnormal := hp.normal.resolve_left hleast
      have hle : (p.mantissa : ℚ) < 2 ^ 52 + 1 := by linarith
      have hle' : p.mantissa < 2 ^ 52 + 1 := by exact_mod_cast hle
      omega
    obtain ⟨u, hu⟩ : ∃ u, p.exponent = u + 1 := ⟨p.exponent - 1, by omega⟩
    have hleast' : -1074 ≤ u := by
      have := hp.least
      omega
    have hhalf : t * 2 ^ p.exponent = 2 * t * 2 ^ u := by
      rw [hu, zpow_add₀ two_ne_zero, zpow_one]
      ring
    rw [hpower] at hlower ⊢
    rw [hhalf, hu, ← pattern_carry hleast']
    norm_num at hlower
    exact rounded_of_unit hleast' (by linarith) (.inr (by linarith))
      (.of_lt (by norm_num; linarith) (by norm_num; linarith))

/-- On the grid of seventeen digits a decimal reads back. -/
theorem Proper.reads_seventeen (hp : p.Proper) (hzero : p.mantissa ≠ 0) :
    ∃ j : ℕ, Rounded (j * step p.decimalExponent 17) p.magnitude := by
  have hstep := @step_pos p.decimalExponent 17
  obtain ⟨hleading, -⟩ := hp.decimalExponent_spec hzero
  have hsmall : 10 ^ 16 * step p.decimalExponent 17 ≤ p.value := by
    rw [pow_mul_step]
    refine le_of_eq_of_le (congrArg _ ?_) hleading
    push_cast
    ring
  obtain ⟨j, hj⟩ := p.exists_roundsTo p.decimalExponent 17
  refine ⟨j, hp.rounded_of_near ?_⟩
  have hlower := (le_div_iff₀ hstep).1 hj.lower
  have hupper := (div_le_iff₀ hstep).1 hj.upper
  rw [abs_lt]
  norm_num at *
  constructor <;> linarith

/-! ### The search -/

/-- A search through the numbers finds the first one. -/
theorem findSome?_range {α : Type} {f : ℕ → Option α} {k : ℕ} {a : α}
    (h : (List.range k).findSome? f = some a) :
    ∃ i < k, f i = some a ∧ ∀ j < i, f j = none := by
  induction k with
  | zero => cases h
  | succ k ih =>
    rw [List.range_succ, List.findSome?_append] at h
    cases hk : (List.range k).findSome? f with
    | some b =>
      rw [hk] at h
      cases h
      obtain ⟨i, hi, hrest⟩ := ih hk
      exact ⟨i, hi.trans k.lt_succ_self, hrest⟩
    | none =>
      rw [hk] at h
      have hnone := List.findSome?_eq_none_iff.1 hk
      refine ⟨k, k.lt_succ_self, by simpa using h, fun j hj => hnone j (List.mem_range.2 hj)⟩

/-- The decimal reads back as the magnitude, none that does is shorter, and of
the equally short ones none is nearer. -/
structure IsShortest (p : Parts) (d : Decimal) : Prop where
  reads : Rounded d.value p.magnitude
  length_le : ∀ d' : Decimal, Rounded d'.value p.magnitude → d.length ≤ d'.length
  nearest : ∀ d' : Decimal, Rounded d'.value p.magnitude → d'.length = d.length →
    |d.value - p.value| ≤ |d'.value - p.value|

/-- Between a decimal that reads back and the number, both included, lies a point
of every grid with as many digits. -/
theorem Proper.exists_grid_point (hp : p.Proper) (hzero : p.mantissa ≠ 0) {d : Decimal}
    (hd : Rounded d.value p.magnitude) (hcount : d.length ≤ count) :
    ∃ j : ℕ, Rounded (j * step p.decimalExponent count) p.magnitude ∧
      |j * step p.decimalExponent count - p.value| ≤ |d.value - p.value| := by
  have hpos : 0 < count := d.length_pos.trans_le hcount
  rcases le_or_gt (p.decimalExponent - count + 1) d.exponent with hcoarse | hfine
  · -- the decimal is itself a point of the grid
    obtain ⟨k, hk⟩ := Int.eq_ofNat_of_zero_le (sub_nonneg.2 hcoarse)
    have hvalue : ((d.digits * 10 ^ k : ℕ) : ℚ) * step p.decimalExponent count = d.value := by
      rw [Nat.cast_mul, Nat.cast_pow, Nat.cast_ofNat, mul_assoc, pow_mul_step, ← hk,
        add_sub_cancel, Decimal.value]
    refine ⟨d.digits * 10 ^ k, ?_, ?_⟩
    · rwa [hvalue]
    · rw [hvalue]
  · -- the decimal lies below the leading power of ten, which the grid contains
    obtain ⟨hleading, -⟩ := hp.decimalExponent_spec hzero
    have hpower : ((10 ^ (count - 1) : ℕ) : ℚ) * step p.decimalExponent count =
        10 ^ p.decimalExponent := by
      rw [Nat.cast_pow, Nat.cast_ofNat, pow_mul_step]
      congr 1
      omega
    have hbelow : d.value ≤ 10 ^ p.decimalExponent :=
      (Decimal.value_le_pow hpos hcount).trans (zpow_le_zpow_right₀ (by norm_num) (by omega))
    refine ⟨10 ^ (count - 1), ?_, ?_⟩
    · have hpoint := Decimal.rounded_nearestBits ⟨10 ^ (count - 1), p.decimalExponent - count + 1⟩
      refine hpoint.between hd hp.rounded ?_ ?_
      · exact hbelow.trans hpower.ge
      · exact hpower.le.trans hleading
    · rw [hpower]
      exact abs_le_abs_of_nonpos (sub_nonpos.2 hleading) (sub_le_sub_right hbelow _)

/-- **The search finds the shortest decimal.** -/
theorem Proper.shortest_isShortest (hp : p.Proper) (hzero : p.mantissa ≠ 0) :
    p.IsShortest p.shortest := by
  obtain ⟨-, hleading⟩ := hp.decimalExponent_spec hzero
  obtain ⟨found, hfound⟩ : ∃ found, (List.range 17).findSome?
      (fun i => p.onGrid? p.decimalExponent (i + 1)) = some found := by
    obtain ⟨j, hj⟩ := hp.reads_seventeen hzero
    obtain ⟨d, hd, -⟩ := hp.onGrid?_of_reads hj
    rw [← Option.isSome_iff_exists, List.findSome?_isSome_iff]
    exact ⟨16, by decide, by rw [hd]; rfl⟩
  obtain ⟨i, -, hgrid, hearlier⟩ := findSome?_range hfound
  obtain ⟨hreads, hdigits⟩ := hp.onGrid?_some hleading hgrid
  have hshortest : p.shortest = found.trim := by
    unfold shortest
    dsimp only
    rw [hfound, Option.getD_some]
  have hlength : found.trim.length ≤ i + 1 := Decimal.trim_length_le i.succ_pos hdigits
  rw [hshortest]
  refine ⟨by rwa [Decimal.trim_value], fun d' hd' => ?_, fun d' hd' hsame => ?_⟩
  · -- a shorter one would have ended the search earlier
    by_contra hlt
    have hpos := d'.length_pos
    obtain ⟨j, hj, -⟩ := hp.exists_grid_point hzero hd' le_rfl
    obtain ⟨d, hd, -⟩ := hp.onGrid?_of_reads hj
    have hnone := hearlier (d'.length - 1) (by omega)
    rw [Nat.sub_add_cancel hpos, hd] at hnone
    cases hnone
  · obtain ⟨j, hj, hnear⟩ := hp.exists_grid_point hzero hd' (hsame.le.trans hlength)
    obtain ⟨d, hd, hdist⟩ := hp.onGrid?_of_reads hj
    rw [hgrid] at hd
    cases hd
    rw [Decimal.trim_value]
    exact hdist.trans hnear

/-- The shortest spelling of zero is a zero. -/
theorem Proper.zero_isShortest (hp : p.Proper) (hzero : p.mantissa = 0) :
    p.IsShortest ⟨0, 0⟩ := by
  have hvalue : (⟨0, 0⟩ : Decimal).value = p.value := by simp [Decimal.value, value, hzero]
  refine ⟨?_, fun d' _ => d'.length_pos, fun d' _ _ => ?_⟩
  · rw [hvalue]
    exact hp.rounded
  · rw [hvalue, sub_self, abs_zero]
    exact abs_nonneg _

end Parts

end BlockScript
