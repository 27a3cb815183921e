/-
BlockScript/Scope/Heap.lean

All scopes, with the closures and sequences that values refer to.

A scope links to at most one parent, which is older than the scope itself;
the walk outwards follows older parents only and so always ends.  A name
resolves to the nearest scope on that walk which binds it.

Declaring and assigning are one operation, `declare`: it replaces the binding
where the name resolves and adds one to the starting scope where it does not.
A constant binding is never replaced.
-/
import BlockScript.Failure
import BlockScript.Scope.Table
import BlockScript.Syntax.Node

namespace BlockScript

/-- A table of bindings and the scope around it. -/
structure Scope where
  parent : Option ScopeId := none
  table : Table := .empty
deriving Repr, Inhabited

/-- What a function value refers to: parameters and body from the tree, and
the scope it was made in. -/
structure Closure where
  params : List Node
  body : Node
  scope : ScopeId
deriving Repr, Inhabited

/-- What an iterator value refers to: the values realised so far and the
position of the next one to consume. -/
structure Sequence where
  params : List Node
  scope : ScopeId
  produced : List Value
  cursor : Int
deriving Repr, Inhabited

/-- All scopes, closures and sequences. -/
structure Heap where
  scopes : Array Scope := #[]
  closures : Array Closure := #[]
  sequences : Array Sequence := #[]
deriving Repr, Inhabited

/-- A step on the heap.  The heap it leaves behind is kept when it fails. -/
abbrev HeapAction := EStateM Failure Heap

namespace Heap

/-! ### Making -/

/-- Adds a scope. -/
def addScope (h : Heap) (s : Scope) : ScopeId × Heap :=
  (h.scopes.size, { h with scopes := h.scopes.push s })

/-- Adds a scope without a parent. -/
def addRoot (h : Heap) : ScopeId × Heap :=
  h.addScope {}

/-- Adds an empty scope inside another. -/
def extend (h : Heap) (e : ScopeId) : ScopeId × Heap :=
  h.addScope { parent := some e }

/-- Adds a function. -/
def addFunction (h : Heap) (c : Closure) : Value × Heap :=
  (.function h.closures.size, { h with closures := h.closures.push c })

/-- Adds an iterator. -/
def addIterator (h : Heap) (s : Sequence) : Value × Heap :=
  (.iterator h.sequences.size, { h with sequences := h.sequences.push s })

/-- The heap of a single empty scope, which is number zero. -/
def initial : Heap :=
  { scopes := #[{}] }

/-! ### Reading -/

/-- The table of a scope; a scope that does not exist has an empty one. -/
def table (h : Heap) (e : ScopeId) : Table :=
  (h.scopes[e]?.map (·.table)).getD .empty

/-- The scope around a scope. -/
def parent? (h : Heap) (e : ScopeId) : Option ScopeId :=
  h.scopes[e]?.bind (·.parent)

/-- The binding of a name in the scope's own table. -/
def own? (h : Heap) (e : ScopeId) (name : String) : Option Binding :=
  (h.table e).find? name

/-- The nearest scope outwards from `e` that binds a name. -/
def resolve? (h : Heap) (e : ScopeId) (name : String) : Option ScopeId :=
  if (h.table e).contains name then some e
  else
    match h.parent? e with
    | some p => if p < e then h.resolve? p name else none
    | none => none
termination_by e

/-- The scopes from `e` outwards. -/
def chain (h : Heap) (e : ScopeId) : List ScopeId :=
  match h.parent? e with
  | some p => if p < e then e :: h.chain p else [e]
  | none => [e]
termination_by e

/-- The binding that a name resolves to. -/
def binding? (h : Heap) (e : ScopeId) (name : String) : Option Binding :=
  (h.resolve? e name).bind (h.own? · name)

/-- The value of a name; void if nothing binds it. -/
def lookup (h : Heap) (e : ScopeId) (name : String) : Value :=
  ((h.binding? e name).map (·.value)).getD .void

/-- The value of a name in the scope's own table; void if it is not there. -/
def lookupOwn (h : Heap) (e : ScopeId) (name : String) : Value :=
  ((h.own? e name).map (·.value)).getD .void

/-- Whether a name resolves from a scope. -/
def contains (h : Heap) (e : ScopeId) (name : String) : Bool :=
  (h.resolve? e name).isSome

/-! ### Writing -/

/-- Sets one slot of one table. -/
def write (h : Heap) (e : ScopeId) (name : String) (b : Binding) : Heap :=
  { h with scopes := h.scopes.modify e fun s => { s with table := s.table.set name b } }

/-- Binds a name in the scope's own table, unless it is constant there. -/
def assignOwn (e : ScopeId) (name : String) (b : Binding) : HeapAction Unit := fun h =>
  match h.own? e name with
  | some ⟨_, true⟩ => .error (.hard (.redeclared name)) h
  | _ => .ok () (h.write e name b)

/-- Binds a name where it resolves, or in the scope's own table if it does
not; fails if the binding it resolves to is constant. -/
def declare (e : ScopeId) (name : String) (b : Binding) : HeapAction Unit := fun h =>
  match h.resolve? e name with
  | some s => assignOwn s name b h
  | none => .ok () (h.write e name b)

/-! ### What writing and adding do to tables and parents -/

/-- A new scope has its table, and the others keep theirs. -/
theorem table_addScope (h : Heap) (s : Scope) (e : ScopeId) :
    (h.addScope s).2.table e = if e = h.scopes.size then s.table else h.table e := by
  simp only [addScope, table, Array.getElem?_push]
  split <;> rfl

theorem parent?_addScope (h : Heap) (s : Scope) (e : ScopeId) :
    (h.addScope s).2.parent? e = if e = h.scopes.size then s.parent else h.parent? e := by
  simp only [addScope, parent?, Array.getElem?_push]
  split <;> rfl

/-- Writing does not move scopes. -/
theorem parent?_write (h : Heap) (e f : ScopeId) (name : String) (b : Binding) :
    (h.write e name b).parent? f = h.parent? f := by
  simp only [write, parent?, Array.getElem?_modify]
  split
  · cases h.scopes[f]? <;> rfl
  · rfl

/-- Writing sets a name in one table, if there is such a scope. -/
theorem table_write (h : Heap) (e f : ScopeId) (name : String) (b : Binding) :
    (h.write e name b).table f =
      if e = f ∧ f < h.scopes.size then (h.table f).set name b else h.table f := by
  simp only [write, table, Array.getElem?_modify]
  by_cases hef : e = f <;> by_cases hf : f < h.scopes.size <;> simp [hef, hf]

/-- Writing changes one slot of one table. -/
theorem own?_write (h : Heap) (e f : ScopeId) (name other : String) (b : Binding) :
    (h.write e name b).own? f other =
      if e = f ∧ f < h.scopes.size ∧ other = name then some b else h.own? f other := by
  simp only [own?, table_write]
  split
  next hs => simp [Table.find?_set, hs]
  next hs => grind

@[simp] theorem size_write (h : Heap) (e : ScopeId) (name : String) (b : Binding) :
    (h.write e name b).scopes.size = h.scopes.size :=
  Array.size_modify

@[simp] theorem size_extend (h : Heap) (p : ScopeId) :
    (h.extend p).2.scopes.size = h.scopes.size + 1 :=
  Array.size_push _

theorem table_of_size_le {h : Heap} {e : ScopeId} (he : h.scopes.size ≤ e) :
    h.table e = .empty := by
  simp [table, he]

/-- A new scope is empty, so the tables are those from before. -/
@[simp] theorem table_extend (h : Heap) (p e : ScopeId) : (h.extend p).2.table e = h.table e := by
  rw [extend, table_addScope]
  split
  next he => rw [table_of_size_le (Nat.le_of_eq he.symm)]
  next => rfl

@[simp] theorem own?_extend (h : Heap) (p e : ScopeId) (name : String) :
    (h.extend p).2.own? e name = h.own? e name := by
  rw [own?, table_extend, own?]

theorem own?_of_size_le {h : Heap} {e : ScopeId} (he : h.scopes.size ≤ e) (name : String) :
    h.own? e name = none := by
  rw [own?, table_of_size_le he]
  rfl

theorem own?_initial (e : ScopeId) (name : String) : initial.own? e name = none := by
  rcases e with - | e
  · rfl
  · exact own?_of_size_le (Nat.succ_le_succ (Nat.zero_le e)) name

/-- Only a scope that exists binds names. -/
theorem lt_size_of_own? {h : Heap} {e : ScopeId} {name : String} {b : Binding}
    (hb : h.own? e name = some b) : e < h.scopes.size := by
  rcases Nat.lt_or_ge e h.scopes.size with he | he
  · exact he
  · -- a scope that does not exist has an empty table
    rw [own?_of_size_le he] at hb
    cases hb

theorem parent?_extend (h : Heap) (p e : ScopeId) :
    (h.extend p).2.parent? e = if e = h.scopes.size then some p else h.parent? e :=
  parent?_addScope h { parent := some p } e

/-! ### Resolution along the chain -/

/-- A name resolves to the first scope of the chain that binds it. -/
theorem resolve?_eq_find? (h : Heap) (e : ScopeId) (name : String) :
    h.resolve? e name = (h.chain e).find? fun s => (h.table s).contains name := by
  fun_induction resolve? h e name with
  | case1 e hbound =>
    rw [chain]
    split
    · split <;> simp [hbound]
    · simp [hbound]
  | case2 e hfree p hp hlt ih => rw [chain, hp]; simp [hfree, hlt, ih]
  | case3 e hfree p hp hge => rw [chain, hp]; simp [hfree, hge]
  | case4 e hfree hp => rw [chain, hp]; simp [hfree]

/-- The scopes around a scope are older. -/
theorem le_of_mem_chain {h : Heap} {e a : ScopeId} (ha : a ∈ h.chain e) : a ≤ e := by
  fun_induction chain h e with
  | case1 e p hp hlt ih =>
    rcases List.mem_cons.1 ha with rfl | ha
    · exact Nat.le_refl _
    · exact Nat.le_trans (ih ha) (Nat.le_of_lt hlt)
  | case2 e p hp hge => exact Nat.le_of_eq (List.mem_singleton.1 ha)
  | case3 e hp => exact Nat.le_of_eq (List.mem_singleton.1 ha)

theorem mem_chain_self (h : Heap) (e : ScopeId) : e ∈ h.chain e := by
  rw [chain]
  split
  · split <;> exact List.mem_cons_self
  · exact List.mem_cons_self

/-- The chain hangs on the parents of the scopes up to its start. -/
theorem chain_congr {h h' : Heap} {e : ScopeId}
    (hparent : ∀ s ≤ e, h'.parent? s = h.parent? s) : h'.chain e = h.chain e := by
  fun_induction chain h e with
  | case1 e p hp hlt ih =>
    rw [chain, hparent e (Nat.le_refl e), hp]
    simp only [hlt, if_true]
    rw [ih fun s hs => hparent s (Nat.le_trans hs (Nat.le_of_lt hlt))]
  | case2 e p hp hge => rw [chain, hparent e (Nat.le_refl e), hp]; simp [hge]
  | case3 e hp => rw [chain, hparent e (Nat.le_refl e), hp]

end Heap

end BlockScript
