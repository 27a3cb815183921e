/-
BlockScript/Proofs/Ordering.lean

The comparison operators are orders.

Strings, truth values and all numbers but the NaN have a rank in an order that
they share: a number on the line of numbers, a string by its row of code points.
Two values of one kind compare as their ranks do,

    less a b    ↔  rank a < rank b
    equals a b  ↔  rank a = rank b

so the laws of a linear order are those of the operators.  Greater is less the
other way round; the inexact comparisons are a strict one or equality.  What has
no rank is neither less nor greater, and then the inexact comparisons are
equality.
-/
import BlockScript.Evaluation.Operator
import BlockScript.Proofs.Equality
import Mathlib.Data.List.Lex
import Mathlib.Data.Sum.Order

namespace BlockScript

/-! ### Strings and their code points -/

/-- The code points of a string. -/
def codePoints (s : String) : List ℕ :=
  s.toList.map Char.toNat

theorem map_toNat_lt_iff (cs ds : List Char) : cs.map Char.toNat < ds.map Char.toNat ↔ cs < ds := by
  have hchar (c d : Char) : c.toNat < d.toNat ↔ c < d := Iff.rfl
  -- on both lists at once; the first characters that differ decide
  induction cs generalizing ds with
  | nil => cases ds <;> simp
  | cons c cs ih =>
    cases ds with
    | nil => simp
    | cons d ds => simp [List.cons_lt_cons_iff, hchar, ih, Char.toNat_inj]

/-- Strings are ordered by code points. -/
theorem codePoints_lt_iff (s t : String) : codePoints s < codePoints t ↔ s < t :=
  map_toNat_lt_iff s.toList t.toList

theorem codePoints_inj {s t : String} : codePoints s = codePoints t ↔ s = t := by
  have hinjective : Function.Injective Char.toNat := fun _ _ => Char.toNat_inj.1
  rw [codePoints, codePoints, (List.map_injective_iff.2 hinjective).eq_iff, String.toList_inj]

/-! ### The ranks of values -/

/-- The ranks of numbers, of strings and of truth values, in this order. -/
abbrev Rank := Line ⊕ₗ List ℕ ⊕ₗ Bool

namespace Value

/-- The rank of a value, if it has one. -/
def rank? : Value → Option Rank
  | number x => (BlockScript.place? x).map Sum.inlₗ
  | string s => some (Sum.inrₗ (Sum.inlₗ (codePoints s)))
  | boolean b => some (Sum.inrₗ (Sum.inrₗ b))
  | _ => none

/-- The values that the order of their kind takes in: strings, truth values and
all numbers but the NaN. -/
def IsOrdered : Value → Prop
  | number x => x.isNaN = false
  | string _ | boolean _ => True
  | _ => False

variable {a b : Value} {p q : Rank}

/-- Ordered values have ranks; the NaN is the one number without a place. -/
theorem IsOrdered.exists_rank (ha : a.IsOrdered) : ∃ p, a.rank? = some p := by
  cases a with
  | number x =>
    have hx : ¬ BlockScript.place? x = none := by
      rw [place?_eq_none_iff]
      exact Bool.eq_false_iff.1 ha
    obtain ⟨p, hp⟩ := Option.ne_none_iff_exists'.1 hx
    exact ⟨Sum.inlₗ p, by rw [rank?, hp, Option.map_some]⟩
  | string s => exact ⟨_, rfl⟩
  | boolean b => exact ⟨_, rfl⟩
  | _ => exact ha.elim

/-- **The lesser of two values of one kind has its rank before the other.** -/
theorem less_iff_rank (hkind : a.kind = b.kind) (ha : a.rank? = some p) (hb : b.rank? = some q) :
    a.less b = true ↔ p < q := by
  cases a <;> cases b <;> cases hkind
  case number x y =>
    obtain ⟨v, hv, rfl⟩ := Option.map_eq_some_iff.1 ha
    obtain ⟨w, hw, rfl⟩ := Option.map_eq_some_iff.1 hb
    rw [less, decide_eq_true_iff, float_lt_iff, Sum.Lex.inl_lt_inl_iff]
    simp [hv, hw]
  case string s t =>
    cases ha
    cases hb
    rw [less, decide_eq_true_iff, ← codePoints_lt_iff, Sum.Lex.inr_lt_inr_iff,
      Sum.Lex.inl_lt_inl_iff]
  case boolean b c =>
    cases ha
    cases hb
    rw [less, Sum.Lex.inr_lt_inr_iff, Sum.Lex.inr_lt_inr_iff, Bool.lt_iff]
    simp
  -- blocks, functions, iterators and void have no rank
  all_goals cases ha

/-- **Equal values have one rank.** -/
theorem equals_iff_rank (hkind : a.kind = b.kind) (ha : a.rank? = some p)
    (hb : b.rank? = some q) : a.equals b = true ↔ p = q := by
  cases a <;> cases b <;> cases hkind
  case number x y =>
    obtain ⟨v, hv, rfl⟩ := Option.map_eq_some_iff.1 ha
    obtain ⟨w, hw, rfl⟩ := Option.map_eq_some_iff.1 hb
    rw [equals, float_beq_iff]
    simp [hv, hw, eq_comm]
  case string s t =>
    cases ha
    cases hb
    rw [equals, beq_iff_eq]
    simp [codePoints_inj]
  case boolean b c =>
    cases ha
    cases hb
    rw [equals, beq_iff_eq]
    simp
  all_goals cases ha

/-- The NaN is not less than any number, and none is less than it. -/
theorem less_of_isNaN {x y : Float} (h : x.isNaN = true ∨ y.isNaN = true) :
    (number x).less (number y) = false := by
  rw [less, decide_eq_false_iff_not, float_lt_iff]
  rintro ⟨v, w, hx, hy, -⟩
  rcases h with h | h
  · rw [(place?_eq_none_iff x).2 h] at hx
    cases hx
  · rw [(place?_eq_none_iff y).2 h] at hy
    cases hy

/-- Values other than numbers, strings and truth values have no order. -/
theorem less_of_unordered (ha : a.kind ∈ [Kind.void, .block, .function, .iterator]) :
    a.less b = false ∧ b.less a = false := by
  cases a with
  | number | string | boolean => simp [kind] at ha
  | _ => cases b <;> exact ⟨rfl, rfl⟩

end Value

/-! ### What the operators answer -/

namespace BinaryOp

variable {a b c : Value} {t : Bool}

/-- The operator answers with a truth value. -/
def Says (op : BinaryOp) (a b : Value) (t : Bool) : Prop :=
  op.apply a b = .ok (.boolean t)

/-- The operator refuses the kinds of its operands. -/
def Refuses (op : BinaryOp) (a b : Value) : Prop :=
  ∃ fault, op.apply a b = .error fault ∧ fault.label = "ScriblTypeMismatch"

/-- Both operators answer the same, the second to the operands the other way
round, or both refuse them. -/
def Mirrors (op op' : BinaryOp) (a b : Value) : Prop :=
  (∃ t, op.Says a b t ∧ op'.Says b a t) ∨ op.Refuses a b ∧ op'.Refuses b a

/-- The operators that ask for operands of one kind. -/
def comparisons : List BinaryOp :=
  [less, greater, lessEqual, greaterEqual]

section Rules

/-- A comparison answers to operands of one kind, with what its test says. -/
theorem onOrdered_says_iff (op : BinaryOp) (test : Value → Value → Bool) :
    onOrdered op test a b = .ok (.boolean t) ↔ a.kind = b.kind ∧ test a b = t := by
  unfold onOrdered refuse
  split <;> simp_all

theorem less_says_iff : less.Says a b t ↔ a.kind = b.kind ∧ a.less b = t :=
  onOrdered_says_iff less Value.less

theorem less_says_of_kind (hkind : a.kind = b.kind) : less.Says a b t ↔ a.less b = t :=
  less_says_iff.trans (and_iff_right hkind)

theorem greater_says_iff : greater.Says a b t ↔ a.kind = b.kind ∧ b.less a = t :=
  onOrdered_says_iff greater fun a b => b.less a

theorem lessEqual_says_iff :
    lessEqual.Says a b t ↔ a.kind = b.kind ∧ (a.less b || a.equals b) = t := by
  rw [Says, apply_lessEqual, onOrdered_says_iff]

theorem greaterEqual_says_iff :
    greaterEqual.Says a b t ↔ a.kind = b.kind ∧ (b.less a || a.equals b) = t := by
  rw [Says, apply_greaterEqual, onOrdered_says_iff]

/-- Equality answers to operands of any kinds. -/
theorem equal_says_iff : equal.Says a b t ↔ a.equals b = t := by
  simp [Says, apply, isEqual]

theorem notEqual_says_iff : notEqual.Says a b t ↔ (!a.equals b) = t := by
  simp [Says, apply_notEqual]

/-- The four comparisons are tests of operands of one kind. -/
theorem apply_eq_onOrdered {op : BinaryOp} (hop : op ∈ comparisons) :
    ∃ op' test, ∀ a b, op.apply a b = onOrdered op' test a b := by
  simp only [comparisons, List.mem_cons, List.not_mem_nil, or_false] at hop
  rcases hop with rfl | rfl | rfl | rfl
  · exact ⟨less, _, fun _ _ => rfl⟩
  · exact ⟨greater, _, fun _ _ => rfl⟩
  · exact ⟨less, _, apply_lessEqual⟩
  · exact ⟨greater, _, apply_greaterEqual⟩

/-- Operands of different kinds are refused, and no others. -/
theorem refuses_iff {op : BinaryOp} (hop : op ∈ comparisons) :
    op.Refuses a b ↔ a.kind ≠ b.kind := by
  obtain ⟨op', test, happly⟩ := apply_eq_onOrdered hop
  rw [Refuses, happly, onOrdered, refuse]
  split <;> simp_all [Fault.label]

theorem greater_mirrors_less (a b : Value) : greater.Mirrors less a b := by
  by_cases hkind : a.kind = b.kind
  · exact .inl ⟨b.less a, greater_says_iff.2 ⟨hkind, rfl⟩, less_says_iff.2 ⟨hkind.symm, rfl⟩⟩
  · exact .inr ⟨(refuses_iff (by decide)).2 hkind, (refuses_iff (by decide)).2 (Ne.symm hkind)⟩

/-- Greater or equal is less or equal the other way round, as equality is symmetric. -/
theorem greaterEqual_mirrors_lessEqual (a b : Value) : greaterEqual.Mirrors lessEqual a b := by
  by_cases hkind : a.kind = b.kind
  · refine .inl ⟨b.less a || a.equals b, greaterEqual_says_iff.2 ⟨hkind, rfl⟩,
      lessEqual_says_iff.2 ⟨hkind.symm, ?_⟩⟩
    rw [Value.equals_comm]
  · exact .inr ⟨(refuses_iff (by decide)).2 hkind, (refuses_iff (by decide)).2 (Ne.symm hkind)⟩

end Rules

end BinaryOp

/-! ### Orders -/

open BinaryOp

/-- The laws of a strict order that is total up to equality. -/
structure StrictlyOrdered (a b c : Value) : Prop where
  irrefl : less.Says a a false
  trans : less.Says a b true → less.Says b c true → less.Says a c true
  trichotomy : ∃ o : Ordering, less.Says a b (o == .lt) ∧ equal.Says a b (o == .eq) ∧
    greater.Says a b (o == .gt)
  congr : equal.Says a b true →
    ∀ t, (less.Says a c t ↔ less.Says b c t) ∧ (less.Says c a t ↔ less.Says c b t)
  lessEqual : ∃ t, lessEqual.Says a b t ∧ less.Says b a (!t)

/-- Values of one kind that have ranks are ordered like these. -/
theorem strictlyOrdered_of_isOrdered {a b c : Value} (hab : a.kind = b.kind) (hbc : b.kind = c.kind)
    (ha : a.IsOrdered) (hb : b.IsOrdered) (hc : c.IsOrdered) : StrictlyOrdered a b c := by
  obtain ⟨p, hp⟩ := ha.exists_rank
  obtain ⟨q, hq⟩ := hb.exists_rank
  obtain ⟨r, hr⟩ := hc.exists_rank
  have hless := Value.less_iff_rank hab hp hq
  have hequal := Value.equals_iff_rank hab hp hq
  have hgreater := Value.less_iff_rank hab.symm hq hp
  constructor
  · refine less_says_iff.2 ⟨rfl, Bool.eq_false_iff.2 fun h => ?_⟩
    exact lt_irrefl p ((Value.less_iff_rank rfl hp hp).1 h)
  · intro h h'
    have hpq := hless.1 (less_says_iff.1 h).2
    have hqr := (Value.less_iff_rank hbc hq hr).1 (less_says_iff.1 h').2
    exact less_says_iff.2 ⟨hab.trans hbc,
      (Value.less_iff_rank (hab.trans hbc) hp hr).2 (hpq.trans hqr)⟩
  · -- the ranks are totally ordered, so one of the three holds
    refine ⟨cmp p q, less_says_iff.2 ⟨hab, ?_⟩, equal_says_iff.2 ?_, greater_says_iff.2 ⟨hab, ?_⟩⟩
    · rw [Bool.eq_iff_iff, hless, beq_iff_eq, cmp_eq_lt_iff]
    · rw [Bool.eq_iff_iff, hequal, beq_iff_eq, cmp_eq_eq_iff]
    · rw [Bool.eq_iff_iff, hgreater, beq_iff_eq, cmp_eq_gt_iff]
  · intro h t
    -- equal values have one rank, and compare alike with `c`
    obtain rfl := hequal.1 (equal_says_iff.1 h)
    have hleft : a.less c = b.less c := by
      rw [Bool.eq_iff_iff, Value.less_iff_rank (hab.trans hbc) hp hr,
        Value.less_iff_rank hbc hq hr]
    have hright : c.less a = c.less b := by
      rw [Bool.eq_iff_iff, Value.less_iff_rank (hab.trans hbc).symm hr hp,
        Value.less_iff_rank hbc.symm hr hq]
    simp only [less_says_iff, hab, hleft, hright, and_self]
  · refine ⟨decide (p ≤ q), lessEqual_says_iff.2 ⟨hab, ?_⟩, less_says_iff.2 ⟨hab.symm, ?_⟩⟩
    · rw [Bool.eq_iff_iff, Bool.or_eq_true, hless, hequal, decide_eq_true_iff, le_iff_lt_or_eq]
    · rw [Bool.eq_iff_iff, hgreater, Bool.not_eq_true', decide_eq_false_iff_not, not_le]

section Numbers

variable {x y : Float}

/-- Numbers are less just if they stand further down the line. -/
theorem less_says_true_iff : less.Says (.number x) (.number y) true ↔
    ∃ p q, place? x = some p ∧ place? y = some q ∧ p < q := by
  have hkind : (Value.number x).kind = (Value.number y).kind := rfl
  rw [less_says_of_kind hkind, Value.less, decide_eq_true_iff, float_lt_iff]

theorem equal_says_true_iff : equal.Says (.number x) (.number y) true ↔
    ∃ p, place? x = some p ∧ place? y = some p := by
  rw [equal_says_iff, Value.equals, float_beq_iff]

/-- The NaN is neither less nor greater than a number, nor equal to one. -/
theorem says_false_of_isNaN (h : x.isNaN = true ∨ y.isNaN = true) {op : BinaryOp}
    (hop : op ∈ equal :: comparisons) : op.Says (.number x) (.number y) false := by
  have hless := Value.less_of_isNaN h
  have hgreater := Value.less_of_isNaN h.symm
  have hequal : (Value.number x).equals (.number y) = false := by
    rcases h with h | h
    · exact Value.IsNaN.equals_left ⟨x, rfl, h⟩ _
    · rw [Value.equals_comm]
      exact Value.IsNaN.equals_left ⟨y, rfl, h⟩ _
  -- the inexact comparisons are disjunctions of the exact ones
  simp only [comparisons, List.mem_cons, List.not_mem_nil, or_false] at hop
  rcases hop with rfl | rfl | rfl | rfl | rfl
  · exact equal_says_iff.2 hequal
  · exact less_says_iff.2 ⟨rfl, hless⟩
  · exact greater_says_iff.2 ⟨rfl, hgreater⟩
  · exact lessEqual_says_iff.2 ⟨rfl, by rw [hless, hequal]; rfl⟩
  · exact greaterEqual_says_iff.2 ⟨rfl, by rw [hgreater, hequal]; rfl⟩

end Numbers

/-- Where nothing is less, the inexact comparisons are equality. -/
theorem says_of_unordered {a b : Value} (hkind : a.kind = b.kind)
    (ha : a.kind ∈ [Kind.void, .block, .function, .iterator]) :
    less.Says a b false ∧ greater.Says a b false ∧
      ∃ t, equal.Says a b t ∧ lessEqual.Says a b t ∧ greaterEqual.Says a b t := by
  obtain ⟨hless, hgreater⟩ := Value.less_of_unordered (b := b) ha
  refine ⟨less_says_iff.2 ⟨hkind, hless⟩, greater_says_iff.2 ⟨hkind, hgreater⟩, a.equals b,
    equal_says_iff.2 rfl, lessEqual_says_iff.2 ⟨hkind, ?_⟩, greaterEqual_says_iff.2 ⟨hkind, ?_⟩⟩
  · rw [hless, Bool.false_or]
  · rw [hgreater, Bool.false_or]

/-- **The comparison operators are coherent orders.**  Greater is less the other
way round, also where equality is let in; these four refuse just the operands of
different kinds, while equality and its negation refuse none.  On the strings,
which go by code points, on the truth values and on the numbers but the NaN, less
is a strict order, total up to equality.  With the NaN no comparison of numbers
holds.  On the other kinds nothing is less, and the inexact comparisons are
equality. -/
theorem comparisons_coherent (a b c : Value) :
    (greater.Mirrors less a b ∧ greaterEqual.Mirrors lessEqual a b ∧
      (∀ op ∈ comparisons, op.Refuses a b ↔ a.kind ≠ b.kind) ∧
      ∃ t, equal.Says a b t ∧ notEqual.Says a b (!t)) ∧
    (a.kind = b.kind → b.kind = c.kind → a.IsOrdered → b.IsOrdered → c.IsOrdered →
      StrictlyOrdered a b c) ∧
    (∀ s t, less.Says (.string s) (.string t) true ↔ codePoints s < codePoints t) ∧
    (∀ x y, (less.Says (.number x) (.number y) true ↔
        ∃ p q, place? x = some p ∧ place? y = some q ∧ p < q) ∧
      (equal.Says (.number x) (.number y) true ↔
        ∃ p, place? x = some p ∧ place? y = some p)) ∧
    (∀ x y : Float, x.isNaN = true ∨ y.isNaN = true → ∀ op ∈ equal :: comparisons,
      op.Says (.number x) (.number y) false) ∧
    (a.kind = b.kind → a.kind ∈ [Kind.void, .block, .function, .iterator] →
      less.Says a b false ∧ greater.Says a b false ∧
        ∃ t, equal.Says a b t ∧ lessEqual.Says a b t ∧ greaterEqual.Says a b t) := by
  refine ⟨⟨greater_mirrors_less a b, greaterEqual_mirrors_lessEqual a b,
    fun op hop => refuses_iff hop, a.equals b, equal_says_iff.2 rfl, notEqual_says_iff.2 rfl⟩,
    strictlyOrdered_of_isOrdered, fun s t => ?_,
    fun x y => ⟨less_says_true_iff, equal_says_true_iff⟩,
    fun x y hnan op hop => says_false_of_isNaN hnan hop, says_of_unordered⟩
  have hkind : (Value.string s).kind = (Value.string t).kind := rfl
  rw [less_says_of_kind hkind, Value.less, decide_eq_true_iff, codePoints_lt_iff]

/-- The two zeros and the least number above them are in order; the NaN is in
order with none of them, and two blocks are not either. -/
theorem comparisons_coherent_at_zeros :
    let a := Value.number (-0.0)
    let b := Value.number 0.0
    let c := Value.number (Float.ofBits 1)
    let nan := Float.ofBits 0x7ff8000000000000
    (a.IsOrdered ∧ b.IsOrdered ∧ c.IsOrdered ∧ StrictlyOrdered a b c) ∧
      (nan.isNaN = true ∧ lessEqual.Says (.number nan) (.number nan) false) ∧
      ∃ t, equal.Says (.block 1) (.block 1) t ∧ lessEqual.Says (.block 1) (.block 1) t ∧
        greaterEqual.Says (.block 1) (.block 1) t := by
  intro a b c nan
  have ha : a.IsOrdered := rfl
  have hb : b.IsOrdered := rfl
  have hc : c.IsOrdered := rfl
  have hnan : nan.isNaN = true := by decide
  obtain ⟨-, horder, -, -, hunordered, -⟩ := comparisons_coherent a b c
  obtain ⟨-, -, -, -, -, hblocks⟩ := comparisons_coherent (.block 1) (.block 1) .void
  refine ⟨⟨ha, hb, hc, horder rfl rfl ha hb hc⟩, ⟨hnan, ?_⟩, (hblocks rfl (by decide)).2.2⟩
  exact hunordered nan nan (.inl hnan) lessEqual (by decide)

end BlockScript
