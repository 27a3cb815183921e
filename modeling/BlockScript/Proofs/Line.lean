/-
BlockScript/Proofs/Line.lean

Floats on the line of numbers.

The line holds the rationals and an infinity at either end.  A number stands at
its exact value, so that both zeros stand at one place; the NaN stands nowhere.
Floats compare by sign, exponent and mantissa, without computing any value.  As
the mantissa has 53 bits but at the least exponent, this is how their places
compare:

    x < y   ↔  place x < place y          x == y  ↔  place x = place y

where both have a place, and neither holds where one of them has none.
-/
import BlockScript.Proofs.Nearest
import Mathlib.Order.Compare
import Mathlib.Order.WithBot

namespace BlockScript

open Float.Model (Format UnpackedFloat)
open Float.Model.UnpackedFloat (Sign unpack unpackExponent unpackMantissa unpackSign)

/-! ### The line -/

/-- The rationals between two infinities. -/
abbrev Line := WithBot (WithTop ℚ)

namespace Line

/-- The place of a rational. -/
def ofRat (q : ℚ) : Line :=
  (q : WithTop ℚ)

/-- The end of the line on the side of a sign. -/
def infinity (negative : Bool) : Line :=
  if negative then ⊥ else ⊤

theorem compares_ofRat {o : Ordering} {a b : ℚ} (h : o.Compares a b) :
    o.Compares (ofRat a) (ofRat b) := by
  cases o with
  | lt => exact WithBot.coe_lt_coe.2 (WithTop.coe_lt_coe.2 h)
  | eq => exact congrArg ofRat h
  | gt => exact WithBot.coe_lt_coe.2 (WithTop.coe_lt_coe.2 h)

theorem bot_lt_ofRat (q : ℚ) : ⊥ < ofRat q :=
  WithBot.bot_lt_coe _

theorem ofRat_lt_top (q : ℚ) : ofRat q < ⊤ :=
  WithBot.coe_lt_coe.2 (WithTop.coe_lt_top q)

end Line

/-- The place of a float on the line; the NaN has none. -/
def place? (x : Float) : Option Line :=
  match exactValue? x with
  | some v => some (.ofRat v)
  | none => if x.isNaN then none else some (.infinity (signBit x))

/-! ### What a float is unpacked to -/

/-- The sign that a sign bit stands for. -/
def signOf (negative : Bool) : Sign :=
  if negative then .negative else .positive

/-- The bits of a float, as they are unpacked. -/
def packed (x : Float) : BitVec Format.binary64.numBits :=
  x.toBits.toBitVec

/-- The uppermost bit is unpacked to the sign. -/
theorem ofBitVec_unpackSign (x : Float) :
    Sign.ofBitVec (unpackSign (packed x)) = signOf (signBit x) := by
  have hlt : (packed x).toNat < 2 ^ 64 := (packed x).isLt
  have hzero : unpackSign (packed x) = 0#1 ↔ ¬ 2 ^ 63 ≤ (packed x).toNat := by
    rw [← BitVec.toNat_inj, toNat_unpackSign]
    show _ = 0 ↔ _
    omega
  have hbit : signBit x = decide (2 ^ 63 ≤ (packed x).toNat) := rfl
  unfold Sign.ofBitVec signOf
  by_cases hnegative : 2 ^ 63 ≤ (packed x).toNat
  · rw [if_neg fun h => hzero.1 h hnegative, hbit, decide_eq_true hnegative]
    rfl
  · rw [if_pos (hzero.2 hnegative), hbit, decide_eq_false hnegative]
    rfl

/-- Unpacked numbers with equal mantissas and exponents are equal, proof and all. -/
theorem finite_congr (s : Sign) {m m' : ℕ} {e e' : ℤ} (hm : 0 < m) (hmantissa : m = m')
    (hexponent : e = e') : ∃ hm', UnpackedFloat.finite s m e hm = .finite s m' e' hm' := by
  subst hmantissa hexponent
  exact ⟨hm, rfl⟩

/-- A number is unpacked to its parts, a zero to its sign alone. -/
theorem unpack_of_parts {x : Float} {p : Parts} (h : Parts.ofFloat? x = some p) :
    p.mantissa = 0 ∧ x.toModel.unpack = .zero (signOf p.negative) ∨
      ∃ hm, x.toModel.unpack = .finite (signOf p.negative) p.mantissa p.exponent hm := by
  have hones : unpackExponent (packed x) = -1#11 ↔ exponentField x = 2047 :=
    unpackExponent_eq_iff _ _
  have hnull : unpackExponent (packed x) = 0#11 ↔ exponentField x = 0 :=
    unpackExponent_eq_iff _ _
  have hzero : unpackMantissa (packed x) = 0#52 ↔ fractionField x = 0 :=
    unpackMantissa_eq_iff _ _
  show _ ∧ unpack .binary64 (packed x) = _ ∨ ∃ hm, unpack .binary64 (packed x) = _
  unfold Parts.ofFloat? at h
  unfold unpack
  dsimp only at h ⊢
  by_cases hfield : exponentField x = 2047
  · -- all ones in the exponent: not a number with parts
    rw [if_pos hfield] at h
    cases h
  · rw [if_neg hfield] at h
    rw [if_neg (hfield ∘ hones.1), ofBitVec_unpackSign]
    by_cases hsubnormal : exponentField x = 0
    · -- a subnormal number, or zero
      rw [if_pos hsubnormal] at h
      rw [if_pos (hnull.2 hsubnormal)]
      cases h
      by_cases hfraction : fractionField x = 0
      · rw [dif_pos (hzero.2 hfraction)]
        exact .inl ⟨hfraction, rfl⟩
      · rw [dif_neg (hfraction ∘ hzero.1)]
        refine .inr (finite_congr _ _ (toNat_unpackMantissa _) ?_)
        rw [hnull.2 hsubnormal]
        rfl
    · -- a normal number, with its hidden bit
      rw [if_neg hsubnormal] at h
      rw [if_neg (hsubnormal ∘ hnull.1)]
      cases h
      refine .inr (finite_congr _ _ ?_ ?_)
      · rw [toNat_hiddenBit, toNat_unpackMantissa]
        rfl
      · rw [toNat_unpackExponent]
        rfl

theorem unpack_of_isInf {x : Float} (h : x.isInf = true) :
    x.toModel.unpack = .infinity (signOf (signBit x)) := by
  obtain ⟨hfield, hfraction⟩ := (isInf_iff x).1 h
  have hones : unpackExponent (packed x) = -1#11 := (unpackExponent_eq_iff _ _).2 hfield
  have hzero : unpackMantissa (packed x) = 0#52 := (unpackMantissa_eq_iff _ _).2 hfraction
  show unpack .binary64 (packed x) = _
  unfold unpack
  dsimp only
  rw [if_pos hones, if_pos hzero, ofBitVec_unpackSign]

theorem unpack_of_isNaN {x : Float} (h : x.isNaN = true) : x.toModel.unpack = .notANumber := by
  obtain ⟨hfield, hfraction⟩ := (isNaN_iff x).1 h
  rcases kind_cases x with ⟨-, hf, -⟩ | ⟨-, -, hx⟩ | ⟨-, hf, -⟩ | ⟨he, -⟩
  · exact absurd hf hfraction
  · exact hx
  · exact absurd hf hfraction
  · exact absurd hfield he

/-! ### Magnitudes compare by exponent and mantissa -/

namespace Parts.Proper

variable {p q : Parts}

/-- The greater exponent belongs to the greater magnitude, as its mantissa has all 53 bits.
-/
theorem value_lt_of_exponent_lt (hp : p.Proper) (hq : q.Proper) (he : p.exponent < q.exponent) :
    p.value < q.value := by
  have hleast := hp.least
  have hnormal : 2 ^ 52 ≤ q.mantissa := hq.normal.resolve_left (by omega)
  have hmantissa : (p.mantissa : ℚ) < 2 ^ 53 := by exact_mod_cast hp.mantissa_lt
  calc p.value < 2 ^ 53 * 2 ^ p.exponent := by
        unfold value
        gcongr
    _ = 2 ^ 52 * 2 ^ (p.exponent + 1) := by
        rw [zpow_add_one₀ two_ne_zero]
        ring
    _ ≤ q.mantissa * 2 ^ q.exponent := by
        gcongr
        · exact_mod_cast hnormal
        · exact one_le_two
        · omega

/-- Magnitudes compare by their exponents first and their mantissas second. -/
theorem compares_value (hp : p.Proper) (hq : q.Proper) :
    ((compare p.exponent q.exponent).then (compare p.mantissa q.mantissa)).Compares
      p.value q.value := by
  rcases lt_trichotomy p.exponent q.exponent with hlt | heq | hgt
  · rw [compare_lt_iff_lt.2 hlt]
    exact hp.value_lt_of_exponent_lt hq hlt
  · -- with one exponent, the mantissas decide
    have hpos : (0 : ℚ) < 2 ^ q.exponent := by positivity
    rw [compare_eq_iff_eq.2 heq]
    show (compare p.mantissa q.mantissa).Compares (p.mantissa * 2 ^ p.exponent : ℚ) _
    rw [heq]
    rcases lt_trichotomy p.mantissa q.mantissa with hlt | hsame | hgt
    · rw [compare_lt_iff_lt.2 hlt]
      exact mul_lt_mul_of_pos_right (Nat.cast_lt.2 hlt) hpos
    · rw [compare_eq_iff_eq.2 hsame]
      exact congrArg (fun m : ℕ => (m : ℚ) * 2 ^ q.exponent) hsame
    · rw [compare_gt_iff_gt.2 hgt]
      exact mul_lt_mul_of_pos_right (Nat.cast_lt.2 hgt) hpos
  · rw [compare_gt_iff_gt.2 hgt]
    exact hq.value_lt_of_exponent_lt hp hgt

/-- With negative signs the order turns round. -/
theorem compares_neg_value (hp : p.Proper) (hq : q.Proper) :
    ((compare p.exponent q.exponent).then (compare p.mantissa q.mantissa)).swap.Compares
      (-p.value) (-q.value) := by
  rw [Ordering.compares_swap]
  have h := hp.compares_value hq
  generalize (compare p.exponent q.exponent).then (compare p.mantissa q.mantissa) = o at h
  cases o with
  | lt => exact neg_lt_neg h
  | eq => exact congrArg Neg.neg h.symm
  | gt => exact neg_lt_neg h

end Parts.Proper

/-! ### Floats compare by their places -/

/-- The unpacked float stands at a place on the line. -/
inductive Stands : UnpackedFloat → Line → Prop
  | lowest : Stands (.infinity .negative) ⊥
  | highest : Stands (.infinity .positive) ⊤
  | zero (s : Sign) : Stands (.zero s) (.ofRat 0)
  | negative {m : ℕ} {e : ℤ} (hm : 0 < m) : (⟨true, m, e⟩ : Parts).Proper →
      Stands (.finite .negative m e hm) (.ofRat (-(m * 2 ^ e)))
  | positive {m : ℕ} {e : ℤ} (hm : 0 < m) : (⟨false, m, e⟩ : Parts).Proper →
      Stands (.finite .positive m e hm) (.ofRat (m * 2 ^ e))

/-- Unpacked floats that stand on the line compare as their places do. -/
theorem Stands.compares {u v : UnpackedFloat} {a b : Line} (hu : Stands u a) (hv : Stands v b) :
    ∃ o, u.compare v = some o ∧ o.Compares a b := by
  have hpos {m : ℕ} (e : ℤ) (hm : 0 < m) : (0 : ℚ) < m * 2 ^ e := by positivity
  have hneg {m : ℕ} (e : ℤ) (hm : 0 < m) : (-(m * 2 ^ e) : ℚ) < 0 := neg_neg_of_pos (hpos e hm)
  cases hu with
  | lowest =>
    cases hv with
    | lowest => exact ⟨.eq, rfl, rfl⟩
    | highest => exact ⟨.lt, rfl, bot_lt_top⟩
    | zero _ | negative _ _ | positive _ _ => exact ⟨.lt, rfl, Line.bot_lt_ofRat _⟩
  | highest =>
    cases hv with
    | lowest => exact ⟨.gt, rfl, bot_lt_top⟩
    | highest => exact ⟨.eq, rfl, rfl⟩
    | zero _ | negative _ _ | positive _ _ => exact ⟨.gt, rfl, Line.ofRat_lt_top _⟩
  | zero s =>
    cases hv with
    | lowest => exact ⟨.gt, rfl, Line.bot_lt_ofRat _⟩
    | highest => exact ⟨.lt, rfl, Line.ofRat_lt_top _⟩
    | zero _ => exact ⟨.eq, rfl, rfl⟩
    | negative hm _ => exact ⟨.gt, rfl, Line.compares_ofRat (o := .gt) (hneg _ hm)⟩
    | positive hm _ => exact ⟨.lt, rfl, Line.compares_ofRat (o := .lt) (hpos _ hm)⟩
  | negative hm hp =>
    cases hv with
    | lowest => exact ⟨.gt, rfl, Line.bot_lt_ofRat _⟩
    | highest => exact ⟨.lt, rfl, Line.ofRat_lt_top _⟩
    | zero _ => exact ⟨.lt, rfl, Line.compares_ofRat (o := .lt) (hneg _ hm)⟩
    | negative _ hq =>
      -- two numbers of one sign: the only case in which magnitudes count
      exact ⟨_, rfl, Line.compares_ofRat (hp.compares_neg_value hq)⟩
    | positive hm' _ =>
      exact ⟨.lt, rfl, Line.compares_ofRat (o := .lt) ((hneg _ hm).trans (hpos _ hm'))⟩
  | positive hm hp =>
    cases hv with
    | lowest => exact ⟨.gt, rfl, Line.bot_lt_ofRat _⟩
    | highest => exact ⟨.lt, rfl, Line.ofRat_lt_top _⟩
    | zero _ => exact ⟨.gt, rfl, Line.compares_ofRat (o := .gt) (hpos _ hm)⟩
    | negative hm' _ =>
      exact ⟨.gt, rfl, Line.compares_ofRat (o := .gt) ((hneg _ hm').trans (hpos _ hm))⟩
    | positive _ hq => exact ⟨_, rfl, Line.compares_ofRat (hp.compares_value hq)⟩

theorem place?_of_parts {x : Float} {p : Parts} (h : Parts.ofFloat? x = some p) :
    place? x = some (.ofRat p.exact) := by
  rw [place?, exactValue?_of_parts h]

theorem place?_of_no_parts {x : Float} (h : Parts.ofFloat? x = none) :
    place? x = if x.isNaN then none else some (.infinity (signBit x)) := by
  rw [place?, exactValue?, h]
  rfl

/-- A float has a place unless it is the NaN. -/
theorem place?_eq_none_iff (x : Float) : place? x = none ↔ x.isNaN = true := by
  rcases value_cases x with ⟨p, hp, -, hnan⟩ | ⟨hnone, -, hnan⟩ | ⟨hnone, -, hnan⟩
  · rw [place?_of_parts hp, hnan]
    exact iff_of_false (Option.some_ne_none _) Bool.false_ne_true
  · rw [place?_of_no_parts hnone, hnan, if_neg Bool.false_ne_true]
    exact iff_of_false (Option.some_ne_none _) Bool.false_ne_true
  · rw [place?_of_no_parts hnone, hnan, if_pos rfl]
    exact iff_of_true rfl rfl

/-- A float stands at its place. -/
theorem stands_of_place? {x : Float} {a : Line} (h : place? x = some a) :
    Stands x.toModel.unpack a := by
  rcases value_cases x with ⟨p, hp, -, -⟩ | ⟨hnone, hinf, hnan⟩ | ⟨-, -, hnan⟩
  · obtain rfl : Line.ofRat p.exact = a := Option.some.inj ((place?_of_parts hp).symm.trans h)
    have hproper := (Parts.ofFloat?_spec hp).1
    rcases unpack_of_parts hp with ⟨hzero, hx⟩ | ⟨hm, hx⟩
    · rw [hx, (p.exact_eq_zero_iff).2 hzero]
      exact .zero _
    · rw [hx]
      obtain ⟨negative | positive, m, e⟩ := p
      · exact .positive hm hproper
      · exact .negative hm hproper
  · have hplace : place? x = some (.infinity (signBit x)) := by
      rw [place?_of_no_parts hnone, hnan]
      rfl
    obtain rfl : Line.infinity (signBit x) = a := Option.some.inj (hplace.symm.trans h)
    rw [unpack_of_isInf hinf]
    cases signBit x with
    | false => exact .highest
    | true => exact .lowest
  · rw [(place?_eq_none_iff x).2 hnan] at h
    cases h

section Comparison

variable {x y : Float}

/-- The NaN compares with nothing. -/
theorem compare_of_isNaN (h : x.isNaN = true ∨ y.isNaN = true) :
    x.toModel.unpack.compare y.toModel.unpack = none := by
  rcases h with h | h
  · rw [unpack_of_isNaN h]
    rfl
  · rw [unpack_of_isNaN h]
    cases x.toModel.unpack <;> rfl

/-- Floats compare as their places do. -/
theorem compare_eq_some_iff {o : Ordering} :
    x.toModel.unpack.compare y.toModel.unpack = some o ↔
      ∃ a b, place? x = some a ∧ place? y = some b ∧ o.Compares a b := by
  rcases hx : place? x with - | a
  · rw [compare_of_isNaN (.inl ((place?_eq_none_iff x).1 hx))]
    simp
  · rcases hy : place? y with - | b
    · rw [compare_of_isNaN (.inr ((place?_eq_none_iff y).1 hy))]
      simp
    · obtain ⟨o', ho', hcompares⟩ := (stands_of_place? hx).compares (stands_of_place? hy)
      rw [ho']
      constructor
      · rintro ⟨⟩
        exact ⟨a, b, rfl, rfl, hcompares⟩
      · rintro ⟨_, _, ⟨⟩, ⟨⟩, ho⟩
        rw [hcompares.inj ho]

/-- **The lesser of two floats stands before the other.** -/
theorem float_lt_iff : x < y ↔ ∃ a b, place? x = some a ∧ place? y = some b ∧ a < b := by
  show decide (x.toModel < y.toModel) = true ↔ _
  rw [decide_eq_true_iff]
  show (x.toModel.unpack.compare y.toModel.unpack == some .lt) = true ↔ _
  rw [beq_iff_eq]
  exact compare_eq_some_iff (o := .lt)

/-- **Equal floats stand at the same place.** -/
theorem float_beq_iff : (x == y) = true ↔ ∃ a, place? x = some a ∧ place? y = some a := by
  show (x.toModel.unpack.compare y.toModel.unpack == some .eq) = true ↔ _
  rw [beq_iff_eq, compare_eq_some_iff]
  constructor
  · rintro ⟨a, _, hx, hy, rfl⟩
    exact ⟨a, hx, hy⟩
  · rintro ⟨a, hx, hy⟩
    exact ⟨a, a, hx, hy, rfl⟩

end Comparison

end BlockScript
