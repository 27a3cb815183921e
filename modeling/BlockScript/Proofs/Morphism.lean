/-
BlockScript/Proofs/Morphism.lean

Maps of heaps that walks and assignments respect.

A morphism renames scopes and maps heaps, so that reading, resolving, setting a
slot and opening a scope commute with it:

    own? (onHeap h) (scope s) name  =  own? h s name, renamed
    onHeap (write h s name b)       =  write (onHeap h) (scope s) name b, renamed

It may restrict the names for which this holds, and the heaps, as long as the
steps above keep to the latter.  Two heaps that differ in the numbers of their
scopes are related in this way, and so are two that differ in a binding which
nobody looks at.

Nothing but these steps happens to a heap, so a walk in the image of a heap is
the image of the walk (`Morphism.walk_eq`).
-/
import BlockScript.Proofs.Assignment

namespace BlockScript

/-! ### Values with other scopes -/

/-- The value with the scope of a block renamed. -/
def Value.rename (f : ScopeId → ScopeId) : Value → Value
  | .block c => .block (f c)
  | v => v

/-- The binding with its value renamed. -/
def Binding.rename (f : ScopeId → ScopeId) (b : Binding) : Binding :=
  ⟨b.value.rename f, b.constant⟩

namespace Value

variable (f : ScopeId → ScopeId)

@[simp] theorem rename_id (v : Value) : v.rename id = v := by
  cases v <;> rfl

@[simp] theorem kind_rename (v : Value) : (v.rename f).kind = v.kind := by
  cases v <;> rfl

theorem rename_eq_void_iff {v : Value} : v.rename f = .void ↔ v = .void := by
  cases v <;> simp [rename]

theorem rename_ne_block {v : Value} (h : ∀ c, v ≠ .block c) (c : ScopeId) :
    v.rename f ≠ .block c := by
  cases v with
  | block c' => exact absurd rfl (h c')
  | _ => rintro ⟨⟩

/-- The order does not look into blocks. -/
theorem less_rename (a b : Value) : (a.rename f).less (b.rename f) = a.less b := by
  cases a <;> cases b <;> rfl

/-- Blocks are equal if their scopes are, so scopes must not be identified. -/
theorem equals_rename {f : ScopeId → ScopeId} (hf : Function.Injective f) (a b : Value) :
    (a.rename f).equals (b.rename f) = a.equals b := by
  cases a with
  | block c =>
    cases b with
    | block c' =>
      show (f c == f c') = (c == c')
      simp [beq_eq_decide, hf.eq_iff]
    | _ => rfl
  | _ => cases b <;> rfl

end Value

@[simp] theorem Binding.rename_id (b : Binding) : b.rename id = b := by
  unfold rename
  rw [Value.rename_id]

/-- Blocks are refused by their kind, whatever their scope. -/
theorem UnaryOp.apply_rename (op : UnaryOp) (f : ScopeId → ScopeId) (v : Value) :
    op.apply (v.rename f) = (op.apply v).map (·.rename f) := by
  cases op <;> cases v <;> rfl

namespace BinaryOp

variable {f : ScopeId → ScopeId} (a b : Value)

theorem onNumbers_rename (op : BinaryOp) (g : Float → Float → Float) :
    onNumbers op g (a.rename f) (b.rename f) = (onNumbers op g a b).map (·.rename f) := by
  cases a <;> cases b <;> rfl

theorem onBooleans_rename (op : BinaryOp) (g : Bool → Bool → Bool) :
    onBooleans op g (a.rename f) (b.rename f) = (onBooleans op g a b).map (·.rename f) := by
  cases a <;> cases b <;> rfl

theorem sum_rename : sum (a.rename f) (b.rename f) = (sum a b).map (·.rename f) := by
  cases a <;> cases b <;> rfl

theorem orElse_rename : orElse (a.rename f) (b.rename f) = (orElse a b).rename f := by
  cases a with
  | boolean c => cases c <;> rfl
  | _ => rfl

/-- Operands are refused by their kinds, which renaming keeps. -/
theorem onOrdered_rename (op : BinaryOp) (test : Value → Value → Bool)
    (htest : test (a.rename f) (b.rename f) = test a b) :
    onOrdered op test (a.rename f) (b.rename f) = (onOrdered op test a b).map (·.rename f) := by
  unfold onOrdered refuse
  rw [Value.kind_rename, Value.kind_rename, htest]
  split <;> rfl

/-- Operators do not look at the numbers of scopes, except for comparing them. -/
theorem apply_rename (op : BinaryOp) (hf : Function.Injective f) :
    op.apply (a.rename f) (b.rename f) = (op.apply a b).map (·.rename f) := by
  have hless := fun a b => Value.less_rename f a b
  have hequals := Value.equals_rename hf a b
  cases op with
  | add => exact sum_rename a b
  | and | or => exact onBooleans_rename a b _ _
  | less => exact onOrdered_rename a b less Value.less (hless a b)
  | greater =>
    -- the operands change sides, but both are still images
    exact onOrdered_rename a b greater (fun a b => b.less a) (hless b a)
  | lessEqual =>
    rw [apply_lessEqual, apply_lessEqual]
    refine onOrdered_rename a b less (fun a b => a.less b || a.equals b) ?_
    rw [hless, hequals]
  | greaterEqual =>
    rw [apply_greaterEqual, apply_greaterEqual]
    refine onOrdered_rename a b greater (fun a b => b.less a || a.equals b) ?_
    rw [hless, hequals]
  | equal =>
    unfold apply isEqual
    rw [hequals]
    rfl
  | notEqual =>
    rw [apply_notEqual, apply_notEqual, hequals]
    rfl
  | coalesce => exact congrArg Except.ok (orElse_rename a b)
  | _ => exact onNumbers_rename a b _ _

end BinaryOp

/-! ### Morphisms -/

namespace Heap

/-- A map of heaps under which scopes get other numbers.  It respects reading
and writing of the names in `Names`, in the heaps in `Holds`. -/
structure Morphism where
  scope : ScopeId → ScopeId
  onHeap : Heap → Heap
  Names : String → Prop
  Holds : Heap → Prop
  injective : Function.Injective scope
  size_eq : ∀ h, Holds h → (onHeap h).scopes.size = scope h.scopes.size
  own?_eq : ∀ h s name, Holds h → Names name →
    (onHeap h).own? (scope s) name = (h.own? s name).map (·.rename scope)
  resolve?_eq : ∀ h e name, Holds h → Names name →
    (onHeap h).resolve? (scope e) name = (h.resolve? e name).map scope
  extend_eq : ∀ h p, Holds h → onHeap (h.extend p).2 = ((onHeap h).extend (scope p)).2
  write_eq : ∀ h s name b, Holds h → Names name →
    onHeap (h.write s name b) = (onHeap h).write (scope s) name (b.rename scope)
  holds_extend : ∀ h p, Holds h → Holds (h.extend p).2
  holds_write : ∀ h s name b, Holds h → Names name → Holds (h.write s name b)

/-- Every heap as it is. -/
def Morphism.refl : Morphism where
  scope := id
  onHeap := id
  Names _ := True
  Holds _ := True
  injective := Function.injective_id
  size_eq _ _ := rfl
  own?_eq h s name _ _ := by simp
  resolve?_eq h e name _ _ := by simp
  extend_eq _ _ _ := rfl
  write_eq h s name b _ _ := by simp
  holds_extend _ _ _ := trivial
  holds_write _ _ _ _ _ _ := trivial

namespace Morphism

variable (φ : Morphism) {h : Heap} (reach : Reach) (e s p : ScopeId) {name : String}

/-- The slot of a name is the image of its slot. -/
theorem home_eq (hh : φ.Holds h) (hn : φ.Names name) :
    (φ.onHeap h).home reach (φ.scope e) name = φ.scope (h.home reach e name) := by
  rcases reach with - | -
  · show ((φ.onHeap h).resolve? (φ.scope e) name).getD (φ.scope e) = _
    rw [φ.resolve?_eq h e name hh hn, Option.getD_map]
    rfl
  · rfl

theorem slot_eq (hh : φ.Holds h) (hn : φ.Names name) :
    (φ.onHeap h).own? ((φ.onHeap h).home reach (φ.scope e) name) name
      = (h.own? (h.home reach e name) name).map (·.rename φ.scope) := by
  rw [φ.home_eq reach e hh hn, φ.own?_eq h _ name hh hn]

theorem lookupOwn_eq (hh : φ.Holds h) (hn : φ.Names name) :
    (φ.onHeap h).lookupOwn (φ.scope s) name = (h.lookupOwn s name).rename φ.scope := by
  unfold lookupOwn
  rw [φ.own?_eq h s name hh hn]
  rcases h.own? s name with - | b <;> rfl

theorem lookup_eq (hh : φ.Holds h) (hn : φ.Names name) :
    (φ.onHeap h).lookup (φ.scope e) name = (h.lookup e name).rename φ.scope := by
  rw [lookup_eq_lookupOwn_home, lookup_eq_lookupOwn_home, φ.home_eq .chain e hh hn,
    φ.lookupOwn_eq _ hh hn]

/-- A block that is put in the way gets the image of its number. -/
theorem withBlock_eq (hh : φ.Holds h) (hn : φ.Names name) :
    φ.onHeap (h.withBlock s name p) = (φ.onHeap h).withBlock (φ.scope s) name (φ.scope p) := by
  unfold withBlock
  rw [φ.extend_eq _ p (φ.holds_write h s name _ hh hn), φ.write_eq h s name _ hh hn,
    φ.size_eq h hh]
  rfl

theorem holds_withBlock (hh : φ.Holds h) (hn : φ.Names name) :
    φ.Holds (h.withBlock s name p) :=
  φ.holds_extend _ p (φ.holds_write h s name _ hh hn)

/-- What the image of a slot holds is the image of something. -/
theorem exists_of_slot {φ : Morphism} {t : ScopeId} {b' : Binding} (hh : φ.Holds h)
    (hn : φ.Names name)
    (hb : (φ.onHeap h).own? (φ.scope t) name = some b') :
    ∃ b, h.own? t name = some b ∧ b' = b.rename φ.scope := by
  rw [φ.own?_eq h t name hh hn, Option.map_eq_some_iff] at hb
  obtain ⟨b, hb, rfl⟩ := hb
  exact ⟨b, hb, rfl⟩

/-- The slots that are vacant are the images of those that are. -/
theorem vacant_iff (hh : φ.Holds h) (hn : φ.Names name) :
    (φ.onHeap h).Vacant (φ.scope s) name ↔ h.Vacant s name := by
  constructor
  · intro hv b hb
    refine (Value.rename_eq_void_iff φ.scope).1 (hv (b.rename φ.scope) ?_)
    rw [φ.own?_eq h s name hh hn, hb]
    rfl
  · intro hv b' hb'
    obtain ⟨b, hb, rfl⟩ := exists_of_slot hh hn hb'
    exact (Value.rename_eq_void_iff φ.scope).2 (hv b hb)

/-- Constants are the images of constants only. -/
theorem mutable_of (hh : φ.Holds h) (hn : φ.Names name)
    (hmut : ∀ old, h.own? s name = some old → old.constant = false) :
    ∀ old, (φ.onHeap h).own? (φ.scope s) name = some old → old.constant = false := by
  intro old' hold'
  obtain ⟨old, hold, rfl⟩ := exists_of_slot hh hn hold'
  exact hmut old hold

/-! ### Walks -/

/-- The image of the result of a walk. -/
def onWalk : EStateM.Result Failure Heap Arrival → EStateM.Result Failure Heap Arrival
  | .ok arrival h => .ok { arrival with scope := φ.scope arrival.scope } (φ.onHeap h)
  | .error f h => .error f (φ.onHeap h)

/-- What was made on the way is made in the image too. -/
theorem onWalk_made (name : String) (r : EStateM.Result Failure Heap Arrival) :
    φ.onWalk (made name r) = made name (φ.onWalk r) := by
  cases r <;> rfl

/-- **A walk in the image of a heap is the image of the walk.** -/
theorem walk_eq (constant : Bool) (path : List String) (hh : φ.Holds h)
    (hpath : ∀ name ∈ path, φ.Names name) :
    walk reach (φ.scope e) constant path (φ.onHeap h) = φ.onWalk (walk reach e constant path h) ∧
      φ.Holds (after (walk reach e constant path h)) := by
  induction reach, e, constant, path, h using walk_induction with
  | nil => exact ⟨rfl, hh⟩
  | last reach e constant name h hlast =>
    have hn := hpath name List.mem_cons_self
    refine ⟨?_, hh⟩
    cases constant with
    | false => exact walk_last_of_mutable
    | true =>
      refine walk_last_of_not_vacant fun hv => hlast rfl ?_
      rw [φ.home_eq reach e hh hn] at hv
      exact (φ.vacant_iff _ hh hn).1 hv
  | refused reach e name rest h hv =>
    -- the slot is vacant in the image as well
    have hn := hpath name List.mem_cons_self
    have hv' := (φ.vacant_iff _ hh hn).2 hv
    rw [← φ.home_eq reach e hh hn] at hv'
    refine ⟨?_, hh⟩
    rcases rest with - | ⟨next, rest⟩
    · exact walk_last_of_vacant hv'
    · exact walk_of_vacant_constant hv'
  | barred reach e constant name next rest h v mark hb hvoid hblock =>
    -- the image of a value that is no block is no block
    have hslot := φ.slot_eq reach e hh (hpath name List.mem_cons_self)
    rw [hb] at hslot
    refine ⟨?_, hh⟩
    rw [walk_of_other hslot (fun hv => hvoid ((Value.rename_eq_void_iff φ.scope).1 hv))
      (Value.rename_ne_block φ.scope hblock), Value.kind_rename]
    rfl
  | unmakeable reach e name next rest h v hv hconst =>
    -- a constant void in the slot is one in its image
    have hn := hpath name List.mem_cons_self
    have hslot := φ.slot_eq reach e hh hn
    rw [hconst] at hslot
    have hv' := (φ.vacant_iff _ hh hn).2 hv
    rw [← φ.home_eq reach e hh hn] at hv'
    exact ⟨walk_of_vacant_unmakeable hv' hslot, hh⟩
  | through reach e constant name next rest h inner mark r hb _ ih =>
    have hslot := φ.slot_eq reach e hh (hpath name List.mem_cons_self)
    rw [hb] at hslot
    rw [walk_of_block hslot]
    exact ih hh fun k hk => hpath k (List.mem_cons_of_mem name hk)
  | making reach e name next rest h r hv hmut _ ih =>
    have hn := hpath name List.mem_cons_self
    have hhome := φ.home_eq reach e hh hn
    have hv' := (φ.vacant_iff _ hh hn).2 hv
    have hmut' := φ.mutable_of _ hh hn hmut
    rw [← hhome] at hv' hmut'
    -- the scope that is made here gets the image of its number
    obtain ⟨hinner, hholds⟩ := ih (φ.holds_withBlock _ e hh hn)
      fun k hk => hpath k (List.mem_cons_of_mem name hk)
    rw [walk_of_vacant_makeable hv' hmut', hhome, ← φ.withBlock_eq _ e hh hn, φ.size_eq h hh,
      hinner, φ.onWalk_made, after_made]
    exact ⟨rfl, hholds⟩

/-- A path is taken with the blanks around its names removed. -/
theorem resolvePath_eq (path : List String) (constant : Bool) (hh : φ.Holds h)
    (hpath : ∀ name ∈ path, φ.Names (strip name)) :
    resolvePath (φ.scope e) path constant (φ.onHeap h)
        = φ.onWalk (resolvePath e path constant h) ∧
      φ.Holds (after (resolvePath e path constant h)) := by
  unfold resolvePath
  split
  · exact ⟨rfl, hh⟩
  · refine φ.walk_eq .chain e constant _ hh fun name hname => ?_
    obtain ⟨raw, hraw, rfl⟩ := List.mem_map.1 hname
    exact hpath raw hraw

end Morphism

end Heap

end BlockScript
