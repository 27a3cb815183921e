/-
BlockScript/Proofs/Words.lean

The bitwise operators are those of 32-bit words.

The word of a number is its integer part modulo `2^32`.  The operators work on
integers without a width, which are read modulo `2^32` first:

    toSigned x  =  the signed reading of the word of x

In two's complement such an integer is the bits of its word with the sign bit
repeated without end, so what combines integers bit by bit combines the words and
stays in the range.  A left shift leaves the range, by at most 31 bits, and comes
back to it modulo `2^32`.  Every result has at most 32 bits and is given back as
it is.
-/
import BlockScript.Number.Word
import BlockScript.Proofs.Nearest
import Mathlib.Data.Rat.Floor

namespace BlockScript

/-! ### Readings of an integer -/

/-- The unsigned reading is that of the word. -/
theorem wrapUnsigned_eq (n : ℤ) : wrapUnsigned n = (BitVec.ofInt 32 n).toNat := by
  rw [BitVec.toNat_ofInt]
  rfl

/-- The signed reading is that of the word, below zero from the sign bit on. -/
theorem wrapSigned_eq (n : ℤ) : wrapSigned n = (BitVec.ofInt 32 n).toInt := by
  have hnonneg := Int.emod_nonneg n (show (0x100000000 : ℤ) ≠ 0 by decide)
  rw [BitVec.toInt_ofInt, Int.bmod_def]
  unfold wrapSigned wrapUnsigned
  dsimp only
  rw [Int.toNat_of_nonneg hnonneg]
  -- both readings subtract the modulus from the same number on
  split <;> split <;> omega

/-! ### Integers bit by bit -/

section Bits

variable {width : ℕ} {v w r : BitVec width}

/-- The signed reading of a word, by its sign bit and the bits that differ from it. -/
theorem toInt_eq_signedBits (w : BitVec width) :
    w.toInt = if w.msb then .negSucc (~~~w).toNat else .ofNat w.toNat := by
  have hlt := w.isLt
  rw [BitVec.toInt_eq_msb_cond, BitVec.toNat_not]
  split
  · rw [Int.negSucc_eq]
    omega
  · rfl

/-- The bits that differ from the sign bit. -/
theorem testBit_signedBits (w : BitVec width) (i : ℕ) :
    (signedBits w.toInt).testBit i = (decide (i < width) && (w.getLsbD i ^^ w.msb)) := by
  rw [toInt_eq_signedBits]
  cases w.msb with
  | true =>
    show (~~~w).toNat.testBit i = _
    rw [BitVec.testBit_toNat, BitVec.getLsbD_not, Bool.xor_true]
  | false =>
    show w.toNat.testBit i = _
    rw [BitVec.testBit_toNat, Bool.xor_false]
    rcases lt_or_ge i width with hlt | hge
    · simp [hlt]
    · simp [BitVec.getLsbD_of_ge w i hge]

/-- Integers combined bit by bit are the readings of words combined bit by bit. -/
theorem bitByBit_toInt {f : Bool → Bool → Bool} (hwidth : 0 < width)
    (hbits : ∀ i < width, r.getLsbD i = f (v.getLsbD i) (w.getLsbD i)) :
    bitByBit f v.toInt w.toInt = r.toInt := by
  have hsign : f v.msb w.msb = r.msb := by
    simp only [BitVec.msb_eq_getLsbD_last]
    exact (hbits _ (by omega)).symm
  have hcombined : Nat.bitwise (fun b c => f (b ^^ v.msb) (c ^^ w.msb) ^^ r.msb)
      (signedBits v.toInt) (signedBits w.toInt) = signedBits r.toInt := by
    apply Nat.eq_of_testBit_eq
    intro i
    -- two sign bits give the sign bit, so that no bits are set beyond the width
    rw [Nat.testBit_bitwise (by simp [hsign]), testBit_signedBits, testBit_signedBits,
      testBit_signedBits]
    by_cases hi : i < width
    · rw [hbits i hi]
      simp only [hi, decide_true, Bool.true_and, Bool.xor_assoc, Bool.xor_self, Bool.xor_false]
    · simp [hi, hsign]
  unfold bitByBit
  dsimp only
  rw [← BitVec.msb_eq_toInt, ← BitVec.msb_eq_toInt, hsign, hcombined]
  rw [toInt_eq_signedBits r]
  cases r.msb <;> rfl

/-- The complement of an integer is the reading of the complement. -/
theorem not_toInt (hwidth : 0 < width) : ~~~w.toInt = (~~~w).toInt := by
  have hmsb : (~~~w).msb = !w.msb := by simp [BitVec.msb_not, hwidth]
  rw [toInt_eq_signedBits w, toInt_eq_signedBits (~~~w), hmsb, BitVec.not_not]
  cases w.msb <;> rfl

/-- A left shift of the integer shifts the word, which drops what is shifted out. -/
theorem ofInt_shiftLeft (k : ℕ) : BitVec.ofInt width (w.toInt <<< k) = w <<< k := by
  have hpower : BitVec.ofInt width (2 ^ k) = BitVec.twoPow width k := by
    rw [← BitVec.toNat_inj, BitVec.toNat_twoPow]
    norm_cast
  rw [Int.shiftLeft_eq, BitVec.ofInt_mul, BitVec.ofInt_toInt, hpower,
    BitVec.shiftLeft_eq_mul_twoPow]

end Bits

/-! ### The range of a left shift -/

theorem le_toInt_shiftLeft (w : BitVec 32) {k : ℕ} (hk : k ≤ 31) : -2 ^ 62 ≤ w.toInt <<< k := by
  have hle : -2 ^ 31 ≤ w.toInt := w.le_toInt
  have hpower : (2 : ℤ) ^ k ≤ 2 ^ 31 := pow_le_pow_right₀ one_le_two hk
  rw [Int.shiftLeft_eq]
  calc (-2 ^ 62 : ℤ) = -2 ^ 31 * 2 ^ 31 := by norm_num
    _ ≤ -2 ^ 31 * 2 ^ k := mul_le_mul_of_nonpos_left hpower (by norm_num)
    _ ≤ w.toInt * 2 ^ k := by gcongr

theorem toInt_shiftLeft_lt (w : BitVec 32) {k : ℕ} (hk : k ≤ 31) : w.toInt <<< k < 2 ^ 62 := by
  have hlt : w.toInt < 2 ^ 31 := BitVec.toInt_lt
  have hpower : (2 : ℤ) ^ k ≤ 2 ^ 31 := pow_le_pow_right₀ one_le_two hk
  rw [Int.shiftLeft_eq]
  calc w.toInt * 2 ^ k < 2 ^ 31 * 2 ^ k := by gcongr
    _ ≤ 2 ^ 31 * 2 ^ 31 := by gcongr
    _ = 2 ^ 62 := by norm_num

/-! ### The word of a float -/

/-- The integer part of a rational, rounded toward zero. -/
def truncated (q : ℚ) : ℤ :=
  if 0 ≤ q then ⌊q⌋ else ⌈q⌉

/-- Truncation goes by the magnitude. -/
theorem truncated_signed (negative : Bool) {q : ℚ} (hq : 0 ≤ q) :
    truncated (signed negative q) = if negative then -⌊q⌋ else ⌊q⌋ := by
  cases negative with
  | false => exact if_pos hq
  | true =>
    show truncated (-q) = -⌊q⌋
    rcases hq.eq_or_lt with rfl | hpos
    · simp [truncated]
    · -- below zero the integer part is the ceiling
      rw [truncated, if_neg (by linarith), Int.ceil_neg]

theorem truncated_intCast (n : ℤ) : truncated n = n := by
  unfold truncated
  split
  · exact Int.floor_intCast n
  · exact Int.ceil_intCast n

theorem Parts.truncate_eq (p : Parts) : p.truncate = truncated p.exact := by
  have hfloor : ((p.numerator / p.denominator : ℕ) : ℤ) = ⌊p.value⌋ := by
    rw [← p.value_eq_div, Rat.floor_natCast_div_natCast, Int.natCast_div]
  rw [Parts.exact, truncated_signed _ p.value_nonneg, ← hfloor]
  rfl

/-- The word of a float: its integer part modulo `2^32`, zero for the infinities and
the NaN. -/
def word (x : Float) : BitVec 32 :=
  match exactValue? x with
  | some v => BitVec.ofInt 32 (truncated v)
  | none => 0

theorem word_eq_integerPart (x : Float) : word x = BitVec.ofInt 32 (integerPart x) := by
  unfold word integerPart exactValue?
  cases Parts.ofFloat? x with
  | none => rfl
  | some p =>
    show BitVec.ofInt 32 (truncated p.exact) = BitVec.ofInt 32 p.truncate
    rw [p.truncate_eq]

theorem toUnsigned_eq (x : Float) : toUnsigned x = (word x).toNat := by
  rw [toUnsigned, wrapUnsigned_eq, word_eq_integerPart]

theorem toSigned_eq (x : Float) : toSigned x = (word x).toInt := by
  rw [toSigned, wrapSigned_eq, word_eq_integerPart]

/-- Shifts are counted modulo the width. -/
theorem shiftCount_eq (x : Float) : shiftCount x = (word x).toNat % 32 := by
  rw [shiftCount, toUnsigned_eq]
  exact Nat.and_two_pow_sub_one_eq_mod _ 5

/-! ### Results -/

/-- The float has an integer as its exact value, without a sign if it is zero, and
its word is the given one. -/
structure Stores (x : Float) (n : ℤ) (w : BitVec 32) : Prop where
  exact : exactValue? x = some (n : ℚ)
  sign : signBit x = decide (n < 0)
  word : word x = w

/-- An integer with at most 53 bits is given back as it is. -/
theorem ofInt_stores {n : ℤ} (hn : n.natAbs < 2 ^ 53) : Stores (ofInt n) n (BitVec.ofInt 32 n) := by
  have hvalue : (n.natAbs : ℚ) / (1 : ℕ) = n.natAbs * 2 ^ (0 : ℤ) := by
    rw [Nat.cast_one, div_one, zpow_zero, mul_one]
  -- the sign is split off and put back
  have hsigned : signed (n < 0) (n.natAbs * 2 ^ (0 : ℤ)) = n := by
    rw [zpow_zero, mul_one, Nat.cast_natAbs, Int.cast_abs]
    rcases lt_or_ge n 0 with hneg | hpos
    · rw [decide_eq_true hneg, abs_of_neg (Int.cast_lt_zero.2 hneg)]
      exact neg_neg _
    · rw [decide_eq_false (not_lt.2 hpos), abs_of_nonneg (Int.cast_nonneg hpos)]
      rfl
  obtain ⟨hexact, hsign⟩ :=
    nearest_exact (n < 0) one_pos hvalue hn (by norm_num) (by norm_num)
  rw [hsigned] at hexact
  refine ⟨hexact, hsign, ?_⟩
  unfold word
  rw [show exactValue? (ofInt n) = some (n : ℚ) from hexact]
  dsimp only
  rw [truncated_intCast]

theorem ofInt_signed_stores (w : BitVec 32) : Stores (ofInt w.toInt) w.toInt w := by
  have hlt : w.toInt < 2 ^ 31 := BitVec.toInt_lt
  have hle : -2 ^ 31 ≤ w.toInt := w.le_toInt
  have hstores := ofInt_stores (n := w.toInt) (by omega)
  rwa [BitVec.ofInt_toInt] at hstores

theorem ofInt_unsigned_stores (w : BitVec 32) : Stores (ofInt w.toNat) w.toNat w := by
  have hlt : w.toNat < 2 ^ 32 := w.isLt
  have hstores := ofInt_stores (n := w.toNat) (by omega)
  rwa [BitVec.ofInt_natCast, BitVec.ofNat_toNat, BitVec.setWidth_eq] at hstores

/-- **The bitwise operators are those of 32-bit words.**  The readings of an operand
are those of its word, and every result is the reading of a word, exactly.  A left
shift passes through an integer of up to 62 bits and a sign. -/
theorem bitwise_operators_on_words (a b : Float) :
    (toUnsigned a = (word a).toNat ∧ toSigned a = (word a).toInt ∧
      shiftCount b = (word b).toNat % 32) ∧
    Stores (bitNot a) (~~~word a).toInt (~~~word a) ∧
    Stores (bitAnd a b) (word a &&& word b).toInt (word a &&& word b) ∧
    Stores (bitOr a b) (word a ||| word b).toInt (word a ||| word b) ∧
    Stores (bitXor a b) (word a ^^^ word b).toInt (word a ^^^ word b) ∧
    (-2 ^ 62 ≤ toSigned a <<< shiftCount b ∧ toSigned a <<< shiftCount b < 2 ^ 62 ∧
      Stores (shiftLeft a b) (word a <<< shiftCount b).toInt (word a <<< shiftCount b)) ∧
    Stores (shiftRight a b) ((word a).sshiftRight (shiftCount b)).toInt
      ((word a).sshiftRight (shiftCount b)) ∧
    Stores (shiftRightZero a b) (word a >>> shiftCount b).toNat (word a >>> shiftCount b) := by
  have hcount : shiftCount b ≤ 31 := by
    rw [shiftCount_eq]
    exact Nat.le_of_lt_succ (Nat.mod_lt _ (by decide))
  refine ⟨⟨toUnsigned_eq a, toSigned_eq a, shiftCount_eq b⟩, ?_, ?_, ?_, ?_, ?_, ?_, ?_⟩
  · rw [bitNot, toSigned_eq, not_toInt (by decide)]
    exact ofInt_signed_stores _
  · rw [bitAnd, toSigned_eq, toSigned_eq, bitByBit_toInt (by decide) fun i _ => BitVec.getLsbD_and]
    exact ofInt_signed_stores _
  · rw [bitOr, toSigned_eq, toSigned_eq, bitByBit_toInt (by decide) fun i _ => BitVec.getLsbD_or]
    exact ofInt_signed_stores _
  · rw [bitXor, toSigned_eq, toSigned_eq, bitByBit_toInt (by decide) fun i _ => BitVec.getLsbD_xor]
    exact ofInt_signed_stores _
  · rw [toSigned_eq]
    refine ⟨le_toInt_shiftLeft _ hcount, toInt_shiftLeft_lt _ hcount, ?_⟩
    rw [shiftLeft, toSigned_eq, wrapSigned_eq, ofInt_shiftLeft]
    exact ofInt_signed_stores _
  · rw [shiftRight, toSigned_eq, ← BitVec.toInt_sshiftRight]
    exact ofInt_signed_stores _
  · rw [shiftRightZero, toUnsigned_eq, ← BitVec.toNat_ushiftRight]
    exact ofInt_unsigned_stores _

/-- The least word, shifted as far as can be, needs all 62 bits. -/
example : toSigned (-2147483648.0) <<< shiftCount 31.0 = -2 ^ 62 := by decide

end BlockScript
