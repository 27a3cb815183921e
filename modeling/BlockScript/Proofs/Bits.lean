/-
BlockScript/Proofs/Bits.lean

Floats and their bit patterns.

A float is built from a pattern by taking it apart into sign, exponent and
mantissa and putting these together again.  A pattern is its three fields in a
row,

    bits  =  sign · 2^63 + exponent · 2^52 + mantissa

so unless it is one of the many patterns of the NaN, what is put together is the
pattern that was taken apart, and the float has exactly these bits.
-/
import BlockScript.Number.Shortest
import Mathlib.Algebra.Group.Nat.Defs

namespace BlockScript

open Float.Model (Format)
open Float.Model.UnpackedFloat

/-! ### The fields of a pattern -/

/-- The mantissa is the low 52 bits. -/
theorem toNat_unpackMantissa (b : BitVec Format.binary64.numBits) :
    (unpackMantissa b).toNat = b.toNat % 2 ^ 52 := by
  simp [unpackMantissa, Format.binary64]

/-- The exponent is the eleven bits above them. -/
theorem toNat_unpackExponent (b : BitVec Format.binary64.numBits) :
    (unpackExponent b).toNat = b.toNat / 2 ^ 52 % 2 ^ 11 := by
  simp [unpackExponent, Format.binary64, Nat.shiftRight_eq_div_pow]

/-- The sign is the highest bit. -/
theorem toNat_unpackSign (b : BitVec Format.binary64.numBits) :
    (unpackSign b).toNat = b.toNat / 2 ^ 63 := by
  have hb : b.toNat < 2 ^ 64 := b.isLt
  show ((b.extractLsb 63 63).cast rfl).toNat = _
  simp [Nat.shiftRight_eq_div_pow]
  omega

theorem toBitVec_ofBitVec (s : BitVec 1) : (Sign.ofBitVec s).toBitVec = s := by
  revert s
  decide

/-- The fields do not overlap, so they add up. -/
theorem toNat_packComponents (s : Sign) (e : BitVec 11) (m : BitVec 52) :
    (packComponents .binary64 s e m).toNat =
      s.toBitVec.toNat * 2 ^ 63 + e.toNat * 2 ^ 52 + m.toNat := by
  show (s.toBitVec ++ e ++ m).toNat = _
  rw [BitVec.toNat_append, BitVec.toNat_append, ← Nat.shiftLeft_add_eq_or_of_lt m.isLt,
    ← Nat.shiftLeft_add_eq_or_of_lt e.isLt, Nat.shiftLeft_eq, Nat.shiftLeft_eq]
  omega

/-- A pattern is its three fields put together. -/
theorem packComponents_fields (b : BitVec Format.binary64.numBits) :
    packComponents .binary64 (Sign.ofBitVec (unpackSign b)) (unpackExponent b)
      (unpackMantissa b) = b := by
  apply BitVec.eq_of_toNat_eq
  rw [toNat_packComponents, toBitVec_ofBitVec, toNat_unpackSign, toNat_unpackExponent,
    toNat_unpackMantissa]
  omega

/-! ### Taking a pattern apart and putting it together -/

/-- The mantissa of a subnormal number has fewer than 53 bits, and its exponent field is
zero. -/
theorem pack_subnormal (s : Sign) {m : BitVec 52} {e : Int} (hm : 0 < m.toNat) (he : e = -1074) :
    pack .binary64 (.finite s m.toNat e hm) = packComponents .binary64 s 0#11 m := by
  subst he
  have hlog : m.toNat.log2 < 52 := (Nat.log2_lt (by omega)).2 m.isLt
  have hbits : ¬ m.toNat.log2 + 1 = Format.binary64.mantissaBits := by
    show ¬ m.toNat.log2 + 1 = 53
    omega
  unfold pack
  dsimp only
  rw [if_neg (by decide), if_neg hbits, BitVec.ofNat_toNat, BitVec.setWidth_eq]

theorem toNat_hiddenBit (m : BitVec 52) : (1#1 ++ m).toNat = 2 ^ 52 + m.toNat := by
  rw [BitVec.toNat_append, ← Nat.shiftLeft_add_eq_or_of_lt m.isLt]
  simp [Nat.shiftLeft_eq]

/-- The mantissa of a normal number has 53 bits.  The highest is not stored, and the
exponent field is not zero. -/
theorem pack_normal (s : Sign) {field : BitVec 11} {m : BitVec 52} {e : Int}
    (hfield : field.toNat + 1 < 2 ^ 11) (he : e = field.toNat - 1075) (hm : 0 < (1#1 ++ m).toNat) :
    pack .binary64 (.finite s (1#1 ++ m).toNat e hm) = packComponents .binary64 s field m := by
  have hm52 := m.isLt
  have hlog : (1#1 ++ m).toNat.log2 = 52 := by
    rw [toNat_hiddenBit]
    exact (Nat.log2_eq_iff (by omega)).2 ⟨by omega, by omega⟩
  have hbias : (e + (Format.binary64.exponentBias : Int) + (52 : Nat)).toNat = field.toNat := by
    simp only [Format.exponentBias]
    omega
  have hmantissa : BitVec.ofNat 52 (1#1 ++ m).toNat = m := by
    apply BitVec.eq_of_toNat_eq
    rw [BitVec.toNat_ofNat, toNat_hiddenBit]
    omega
  unfold pack
  dsimp only
  rw [hbias, if_neg (by omega), if_pos (by rw [hlog]; rfl), hmantissa, BitVec.ofNat_toNat,
    BitVec.setWidth_eq]

/-- Only the patterns of the NaN change, which all become one. -/
theorem pack_unpack {b : BitVec Format.binary64.numBits}
    (hb : unpackExponent b ≠ -1#11 ∨ unpackMantissa b = 0#52) :
    pack .binary64 (unpack .binary64 b) = b := by
  have hfields := packComponents_fields b
  unfold unpack
  dsimp only
  by_cases hones : unpackExponent b = -1#11
  · -- an infinity: without the patterns of the NaN, the mantissa is zero
    have hzero := hb.resolve_left fun hne => hne hones
    rw [if_pos hones, if_pos hzero]
    rwa [hones, hzero] at hfields
  · rw [if_neg hones]
    by_cases hfield : unpackExponent b = 0#11
    · rw [if_pos hfield]
      -- zero, or a subnormal number
      by_cases hzero : unpackMantissa b = 0#52
      · rw [dif_pos hzero]
        rwa [hfield, hzero] at hfields
      · rw [dif_neg hzero, pack_subnormal _ _ (by rw [hfield]; rfl), ← hfield]
        exact hfields
    · -- a normal number
      have hlt : (unpackExponent b).toNat + 1 < 2 ^ 11 := by
        have hlt : (unpackExponent b).toNat < 2 ^ 11 := (unpackExponent b).isLt
        have hne : (unpackExponent b).toNat ≠ 2047 :=
          fun h => hones (BitVec.eq_of_toNat_eq (h.trans rfl))
        omega
      rw [if_neg hfield]
      exact (pack_normal _ hlt rfl _).trans hfields

/-- Two fields make a pattern a NaN: all exponent bits are set, and some bit of the mantissa
is. -/
theorem unpack_nan {b : BitVec Format.binary64.numBits} (hones : unpackExponent b = -1#11)
    (hzero : unpackMantissa b ≠ 0#52) : unpack .binary64 b = .notANumber := by
  unfold unpack
  dsimp only
  rw [if_pos hones, if_neg hzero]

/-! ### Floats by their bits -/

/-- The pattern of a number: not all its exponent bits are set. -/
def FiniteBits (bits : UInt64) : Prop :=
  bits.toNat / 2 ^ 52 % 2 ^ 11 ≠ 2047

instance (bits : UInt64) : Decidable (FiniteBits bits) :=
  inferInstanceAs (Decidable (_ ≠ _))

/-- Floats with the same bits are the same. -/
theorem float_ext {x y : Float} (h : x.toBits = y.toBits) : x = y := by
  obtain ⟨⟨bits, hx⟩⟩ := x
  obtain ⟨⟨bits', hy⟩⟩ := y
  cases (show bits = bits' from h)
  rfl

/-- The float of a pattern has exactly its bits, unless it is a NaN. -/
theorem toBits_ofBits {bits : UInt64} (h : FiniteBits bits ∨ bits.toNat % 2 ^ 52 = 0) :
    (Float.ofBits bits).toBits = bits := by
  show UInt64.ofBitVec (pack .binary64 (unpack .binary64 bits.toBitVec)) = bits
  rw [pack_unpack]
  rcases h with hfinite | hzero
  · left
    intro hones
    have hfield := congrArg BitVec.toNat hones
    rw [toNat_unpackExponent] at hfield
    exact hfinite hfield
  · right
    apply BitVec.eq_of_toNat_eq
    rw [toNat_unpackMantissa]
    exact hzero

/-- All patterns of the NaN give the same one. -/
theorem toBits_ofBits_nan {bits : UInt64} (hfinite : ¬ FiniteBits bits)
    (hzero : bits.toNat % 2 ^ 52 ≠ 0) : (Float.ofBits bits).toBits = 0x7ff8000000000000 := by
  show UInt64.ofBitVec (pack .binary64 (unpack .binary64 bits.toBitVec)) = _
  rw [unpack_nan]
  · rfl
  · apply BitVec.eq_of_toNat_eq
    rw [toNat_unpackExponent]
    exact Decidable.not_not.1 hfinite
  · intro h
    have hbits := congrArg BitVec.toNat h
    rw [toNat_unpackMantissa] at hbits
    exact hzero hbits

/-- A float is a number if its pattern is that of one. -/
theorem finiteBits_ofBits (bits : UInt64) :
    FiniteBits (Float.ofBits bits).toBits ↔ FiniteBits bits := by
  by_cases hkept : FiniteBits bits ∨ bits.toNat % 2 ^ 52 = 0
  · rw [toBits_ofBits hkept]
  · obtain ⟨hfinite, hzero⟩ := not_or.1 hkept
    rw [toBits_ofBits_nan hfinite hzero]
    exact iff_of_false (by decide) hfinite

theorem ofBits_toBits {x : Float} (h : FiniteBits x.toBits) : Float.ofBits x.toBits = x :=
  float_ext (toBits_ofBits (.inl h))

/-- The bits of a float made from its sign and the pattern of its magnitude. -/
theorem toBits_ofSignBits (negative : Bool) {bits : Nat} (h : bits ≤ infinityBits) :
    (ofSignBits negative bits).toBits.toNat = (if negative then 2 ^ 63 else 0) + bits := by
  have hlimit : infinityBits = 2047 * 2 ^ 52 := rfl
  have hpattern : (UInt64.ofNat (if negative then Nat.pow 2 63 + bits else bits)).toNat =
      (if negative then 2 ^ 63 else 0) + bits := by
    rw [UInt64.toNat_ofNat', Nat.pow_eq]
    split <;> omega
  -- the pattern of a magnitude is at most that of infinity, so it is none of the NaN
  have hkind : FiniteBits (UInt64.ofNat (if negative then Nat.pow 2 63 + bits else bits)) ∨
      (UInt64.ofNat (if negative then Nat.pow 2 63 + bits else bits)).toNat % 2 ^ 52 = 0 := by
    rw [FiniteBits, hpattern]
    split <;> omega
  rw [ofSignBits, toBits_ofBits hkind, hpattern]

/-- A number is made from its own sign and magnitude. -/
theorem ofSignBits_signBit {x : Float} (h : FiniteBits x.toBits) :
    ofSignBits (signBit x) (exponentField x * 2 ^ 52 + fractionField x) = x := by
  have hbits : x.toBits.toNat < 2 ^ 64 := x.toBits.toNat_lt
  have hpattern : (if signBit x = true then
      Nat.pow 2 63 + (exponentField x * 2 ^ 52 + fractionField x)
      else exponentField x * 2 ^ 52 + fractionField x) = x.toBits.toNat := by
    simp only [signBit, exponentField, fractionField, Nat.pow_eq, decide_eq_true_eq]
    split <;> omega
  rw [ofSignBits, hpattern, UInt64.ofNat_toNat]
  exact ofBits_toBits h

/-! ### Infinities, the NaN and zeros -/

theorem unpackExponent_eq_iff (b : BitVec Format.binary64.numBits) (k : BitVec 11) :
    unpackExponent b = k ↔ b.toNat / 2 ^ 52 % 2 ^ 11 = k.toNat := by
  rw [← toNat_unpackExponent, BitVec.toNat_inj]

theorem unpackMantissa_eq_iff (b : BitVec Format.binary64.numBits) (k : BitVec 52) :
    unpackMantissa b = k ↔ b.toNat % 2 ^ 52 = k.toNat := by
  rw [← toNat_unpackMantissa, BitVec.toNat_inj]

/-- What a pattern is unpacked to is seen from its exponent and mantissa. -/
theorem unpack_cases (b : BitVec Format.binary64.numBits) :
    (unpackExponent b = -1#11 ∧ unpackMantissa b = 0#52 ∧ ∃ s, unpack .binary64 b = .infinity s) ∨
    (unpackExponent b = -1#11 ∧ ¬ unpackMantissa b = 0#52 ∧ unpack .binary64 b = .notANumber) ∨
    (unpackExponent b = 0#11 ∧ unpackMantissa b = 0#52 ∧ ∃ s, unpack .binary64 b = .zero s) ∨
    (¬ unpackExponent b = -1#11 ∧ ¬ (unpackExponent b = 0#11 ∧ unpackMantissa b = 0#52) ∧
      ∃ s m e hm, unpack .binary64 b = .finite s m e hm) := by
  unfold unpack
  dsimp only
  -- the cases of `unpack`, in its order
  by_cases hones : unpackExponent b = -1#11
  · rw [if_pos hones]
    by_cases hzero : unpackMantissa b = 0#52
    · rw [if_pos hzero]
      exact .inl ⟨hones, hzero, _, rfl⟩
    · rw [if_neg hzero]
      exact .inr (.inl ⟨hones, hzero, rfl⟩)
  · rw [if_neg hones]
    by_cases hfield : unpackExponent b = 0#11
    · rw [if_pos hfield]
      by_cases hzero : unpackMantissa b = 0#52
      · rw [dif_pos hzero]
        exact .inr (.inr (.inl ⟨hfield, hzero, _, rfl⟩))
      · have hpos : 0 < (unpackMantissa b).toNat :=
          Nat.pos_of_ne_zero fun h => hzero (BitVec.eq_of_toNat_eq h)
        rw [dif_neg hzero]
        exact .inr (.inr (.inr ⟨hones, fun h => hzero h.2, _, _, _, hpos, rfl⟩))
    · have hpos : 0 < (1#1 ++ unpackMantissa b).toNat := by
        rw [toNat_hiddenBit]
        omega
      rw [if_neg hfield]
      exact .inr (.inr (.inr ⟨hones, fun h => hfield h.1, _, _, _, hpos, rfl⟩))

/-- By its fields a float is an infinity, the NaN, a zero or another number. -/
theorem kind_cases (x : Float) :
    (exponentField x = 2047 ∧ fractionField x = 0 ∧ ∃ s, x.toModel.unpack = .infinity s) ∨
    (exponentField x = 2047 ∧ fractionField x ≠ 0 ∧ x.toModel.unpack = .notANumber) ∨
    (exponentField x = 0 ∧ fractionField x = 0 ∧ ∃ s, x.toModel.unpack = .zero s) ∨
    (exponentField x ≠ 2047 ∧ ¬ (exponentField x = 0 ∧ fractionField x = 0) ∧
      ∃ s m e hm, x.toModel.unpack = .finite s m e hm) := by
  have h := unpack_cases x.toBits.toBitVec
  rw [unpackExponent_eq_iff, unpackMantissa_eq_iff, unpackExponent_eq_iff] at h
  exact h

/-- The infinities are the patterns with all exponent bits set and no other. -/
theorem isInf_iff (x : Float) :
    x.isInf = true ↔ exponentField x = 2047 ∧ fractionField x = 0 := by
  show x.toModel.unpack.isInf = true ↔ _
  rcases kind_cases x with ⟨he, hf, s, h⟩ | ⟨-, hf, h⟩ | ⟨he, -, s, h⟩ | ⟨he, -, s, m, e, hm, h⟩ <;>
    rw [h]
  · exact iff_of_true rfl ⟨he, hf⟩
  · exact iff_of_false Bool.false_ne_true fun hx => hf hx.2
  · exact iff_of_false Bool.false_ne_true fun hx => absurd (he.symm.trans hx.1) (by decide)
  · exact iff_of_false Bool.false_ne_true fun hx => he hx.1

/-- Whatever else has all exponent bits set is the NaN. -/
theorem isNaN_iff (x : Float) :
    x.isNaN = true ↔ exponentField x = 2047 ∧ fractionField x ≠ 0 := by
  show x.toModel.unpack.isNaN = true ↔ _
  rcases kind_cases x with ⟨-, hf, s, h⟩ | ⟨he, hf, h⟩ | ⟨-, hf, s, h⟩ | ⟨he, -, s, m, e, hm, h⟩ <;>
    rw [h]
  · exact iff_of_false Bool.false_ne_true fun hx => hx.2 hf
  · exact iff_of_true rfl ⟨he, hf⟩
  · exact iff_of_false Bool.false_ne_true fun hx => hx.2 hf
  · exact iff_of_false Bool.false_ne_true fun hx => he hx.1

/-- Both zeros equal zero, and nothing else does. -/
theorem beq_zero_iff (x : Float) :
    (x == 0.0) = true ↔ exponentField x = 0 ∧ fractionField x = 0 := by
  have hzero : (0.0 : Float).toModel.unpack = .zero .positive := rfl
  show x.toModel.unpack.beq (0.0 : Float).toModel.unpack = true ↔ _
  rw [hzero]
  rcases kind_cases x with
    ⟨he, -, s, h⟩ | ⟨he, -, h⟩ | ⟨he, hf, s, h⟩ | ⟨-, hne, s, m, e, hm, h⟩ <;>
    rw [h]
  · refine iff_of_false ?_ fun hx => absurd (he.symm.trans hx.1) (by decide)
    cases s <;> exact Bool.false_ne_true
  · exact iff_of_false Bool.false_ne_true fun hx => absurd (he.symm.trans hx.1) (by decide)
  · exact iff_of_true rfl ⟨he, hf⟩
  · refine iff_of_false ?_ hne
    cases s <;> exact Bool.false_ne_true

end BlockScript
