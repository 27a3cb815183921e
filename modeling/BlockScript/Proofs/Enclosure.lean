/-
BlockScript/Proofs/Enclosure.lean

Running a program agrees with evaluating it as a nested block.

A run evaluates the statements in the root scope; an evaluation of the same
block opens a scope inside the root and evaluates them there, one level deeper.
The two heaps differ in that every scope of the second has the next higher
number and that scope zero lies around what are the roots of the first:

    run:        0, 1, 2, …          root zero
    evaluate:   0 ⊃ 1, 2, 3, …      root one, inside zero

Nothing is ever bound in scope zero, since no statement is evaluated there and
no name resolves to it.  So enclosing a heap in this way is a morphism, and the
evaluation is the run in other surroundings.
-/
import BlockScript.Proofs.Growth
import BlockScript.Proofs.Lift
import BlockScript.Proofs.Unfolding

namespace BlockScript

/-! ### Renamed tables -/

namespace Table

/-- The table with its values renamed. -/
def rename (t : Table) (f : ScopeId → ScopeId) : Table where
  entries := t.entries.map fun entry => (entry.1, entry.2.rename f)
  nodup := by
    rw [List.map_map]
    exact t.nodup

variable (t : Table) (f : ScopeId → ScopeId) (name : String)

theorem names_rename : (t.rename f).names = t.names :=
  List.map_map

theorem find?_rename : (t.rename f).find? name = (t.find? name).map (·.rename f) :=
  lookup_map_snd (·.rename f) t.entries name

theorem contains_rename : (t.rename f).contains name = t.contains name := by
  rw [contains, find?_rename, Option.isSome_map, contains]

/-- Binding and renaming can be done in either order. -/
theorem rename_set (b : Binding) :
    (t.set name b).rename f = (t.rename f).set name (b.rename f) := by
  apply eq_of_entries
  show (t.set name b).entries.map _ = ((t.rename f).set name (b.rename f)).entries
  rw [entries_set, entries_set, names_rename]
  split
  · rw [replace, List.map_map]
    show _ = (t.entries.map _).map _
    rw [List.map_map]
    refine List.map_congr_left fun entry _ => ?_
    by_cases hkey : entry.1 = name <;> simp [hkey]
  · exact List.map_append

end Table

/-! ### Heaps in an empty scope -/

/-- A scope with the next higher numbers; what had no scope around it gets
scope zero. -/
def Scope.enclosed (s : Scope) : Scope where
  parent := some (s.parent.elim 0 (· + 1))
  table := s.table.rename (· + 1)

namespace Heap

/-- The heap with an empty scope around all its roots.  Functions and iterators
stay as they are; nobody follows them to a scope. -/
def enclosed (h : Heap) : Heap :=
  { h with scopes := #[{}] ++ h.scopes.map Scope.enclosed }

section Enclosed

variable (h : Heap) (e : ScopeId) (name : String)

theorem enclosed_scopes_zero : h.enclosed.scopes[0]? = some ({} : Scope) := by
  rw [enclosed, Array.getElem?_append_left (by simp)]
  rfl

theorem enclosed_scopes_succ : h.enclosed.scopes[e + 1]? = h.scopes[e]?.map Scope.enclosed := by
  rw [enclosed, Array.getElem?_append_right (by simp), Array.getElem?_map]
  rfl

theorem size_enclosed : h.enclosed.scopes.size = h.scopes.size + 1 := by
  simp [enclosed, Nat.add_comm]

theorem table_enclosed_zero : h.enclosed.table 0 = .empty := by
  rw [table, enclosed_scopes_zero]
  rfl

theorem table_enclosed_succ : h.enclosed.table (e + 1) = (h.table e).rename (· + 1) := by
  rw [table, enclosed_scopes_succ, table]
  rcases h.scopes[e]? with - | s <;> rfl

theorem own?_enclosed : h.enclosed.own? (e + 1) name = (h.own? e name).map (·.rename (· + 1)) := by
  rw [own?, table_enclosed_succ, Table.find?_rename, own?]

/-- Nothing resolves to scope zero. -/
theorem resolve?_enclosed_zero : h.enclosed.resolve? 0 name = none := by
  rw [resolve?, table_enclosed_zero, parent?, enclosed_scopes_zero]
  rfl

theorem parent?_enclosed :
    h.enclosed.parent? (e + 1) = h.scopes[e]?.map fun s => s.parent.elim 0 (· + 1) := by
  rw [parent?, enclosed_scopes_succ]
  rcases h.scopes[e]? with - | s <;> rfl

/-- Names resolve as before, to the scope under its next number. -/
theorem resolve?_enclosed : h.enclosed.resolve? (e + 1) name = (h.resolve? e name).map (· + 1) := by
  fun_induction resolve? h e name with
  | case1 e hbound =>
    rw [resolve?, table_enclosed_succ, Table.contains_rename, if_pos hbound]
    rfl
  | case2 e hfree p hp hlt ih =>
    obtain ⟨s, hs, hsp⟩ := Option.bind_eq_some_iff.1 hp
    rw [resolve?, table_enclosed_succ, Table.contains_rename, if_neg hfree, parent?_enclosed,
      hs]
    simp [hsp, hlt, ih]
  | case3 e hfree p hp hge =>
    obtain ⟨s, hs, hsp⟩ := Option.bind_eq_some_iff.1 hp
    rw [resolve?, table_enclosed_succ, Table.contains_rename, if_neg hfree, parent?_enclosed,
      hs]
    simp [hsp, hge]
  | case4 e hfree hp =>
    -- a root continues in scope zero, where nothing is bound
    rw [resolve?, table_enclosed_succ, Table.contains_rename, if_neg hfree, parent?_enclosed]
    rcases hs : h.scopes[e]? with - | s
    · rfl
    · have hsp : s.parent = none := by simpa [parent?, hs] using hp
      simp [hsp, resolve?_enclosed_zero]

/-- A scope that is added inside another gets the next number on both sides. -/
theorem enclosed_extend : (h.extend e).2.enclosed = (h.enclosed.extend (e + 1)).2 := by
  unfold enclosed extend addScope
  dsimp only
  rw [Array.map_push, Array.append_push]
  rfl

theorem enclosed_initial : initial.enclosed = (initial.extend 0).2 := by
  simp [enclosed, initial, extend, addScope, Scope.enclosed]
  rfl

/-- Writing goes to the scope under its next number. -/
theorem enclosed_write (b : Binding) :
    (h.write e name b).enclosed = h.enclosed.write (e + 1) name (b.rename (· + 1)) := by
  have hscopes : (h.write e name b).enclosed.scopes
      = (h.enclosed.write (e + 1) name (b.rename (· + 1))).scopes := by
    apply Array.ext_getElem?
    intro i
    -- scope zero is never written to
    rcases i with - | i
    · rw [enclosed_scopes_zero, write, Array.getElem?_modify, enclosed_scopes_zero]
      rfl
    · rw [enclosed_scopes_succ, write, write, Array.getElem?_modify, Array.getElem?_modify,
        enclosed_scopes_succ]
      by_cases he : e = i
      · rcases h.scopes[i]? with - | s <;> simp [he, Scope.enclosed, Table.rename_set]
      · simp [he]
  exact congrArg (fun scopes => ({ h with scopes } : Heap)) hscopes

end Enclosed

/-- Enclosing a heap respects everything. -/
def Morphism.enclosing : Morphism where
  scope := (· + 1)
  onHeap := enclosed
  Names _ := True
  Holds _ := True
  injective := Nat.succ_injective
  size_eq h _ := h.size_enclosed
  own?_eq h s name _ _ := h.own?_enclosed s name
  resolve?_eq h e name _ _ := h.resolve?_enclosed e name
  extend_eq h p _ := h.enclosed_extend p
  write_eq h s name b _ _ := h.enclosed_write s name b
  holds_extend _ _ _ := trivial
  holds_write _ _ _ _ _ _ := trivial

/-! ### Bindings as plain data -/

theorem leafRecord_rename (h : Heap) {b : Binding} (hb : ∀ c, b.value ≠ .block c)
    (f : ScopeId → ScopeId) : h.leafRecord (b.rename f) = h.leafRecord b := by
  obtain ⟨v, k⟩ := b
  cases v with
  | block c => exact absurd rfl (hb c)
  | _ => rfl

/-- The numbers of scopes do not show in plain data. -/
theorem expand_enclosed (h : Heap) (path : List ScopeId) (t : Table) :
    h.enclosed.expand (path.map (· + 1)) (t.rename (· + 1)) = h.expand path t := by
  induction path, t using expand_induction h with
  | step path t ih =>
    rw [expand_eq, expand_eq]
    congr 1
    show (t.entries.map _).map _ = t.entries.map _
    rw [List.map_map]
    refine List.map_congr_left fun entry hentry => ?_
    refine Prod.ext rfl ?_
    show h.enclosed.shown (path.map (· + 1)) (entry.2.rename (· + 1)) = h.shown path entry.2
    by_cases hblock : ∃ c, entry.2.value = .block c
    · obtain ⟨c, hb⟩ := hblock
      have hb' : (entry.2.rename (· + 1)).value = .block (c + 1) := by
        rw [Binding.rename, hb]
        rfl
      have hopen : c + 1 ∈ path.map (· + 1) ↔ c ∈ path := by simp
      -- a scope is open on the one side just if it is on the other
      by_cases hc : c ∈ path
      · rw [shown_open hb' (hopen.2 hc), shown_open hb hc]
        rfl
      · rw [shown_closed hb' (mt hopen.1 hc), shown_closed hb hc, table_enclosed_succ]
        exact ih entry hentry c hb hc
    · have hleaf : ∀ c, entry.2.value ≠ .block c := fun c hb => hblock ⟨c, hb⟩
      rw [shown_leaf hleaf, shown_leaf (Value.rename_ne_block _ hleaf)]
      exact leafRecord_rename h hleaf _

/-- The bindings of a scope look the same as plain data. -/
theorem snapshot_enclosed (h : Heap) (e : ScopeId) :
    h.enclosed.snapshot (e + 1) = h.snapshot e := by
  rw [snapshot, table_enclosed_succ]
  exact h.expand_enclosed [e] (h.table e)

end Heap

/-! ### A program as a nested block -/

/-- Inside a block that was just entered in an empty root. -/
def Lift.inBlock (tree : Node) : Lift :=
  ⟨.enclosing, 1, { heap := {}, trace := #[.entered tree 1] }⟩

/-- The block is entered one level above the statements. -/
theorem Lift.machine_inBlock (tree : Node) (hblock : tree.form? = some .block) :
    (Lift.inBlock tree).machine { heap := .initial }
      = Machine.inside { heap := .initial } 0 tree := by
  rw [Machine.inside, Node.scopeFrom_block hblock, machine]
  simp [inBlock, Heap.Morphism.enclosing, Heap.enclosed_initial, Machine.enter, Machine.emit]

/-- What a run leaves behind and what the evaluation as a nested block does: the
same reports, and in the scope of the block, which lies inside the root, the
bindings that the run has made in the root.  The root is empty. -/
structure LeavesNested (child : ScopeId) (m m' : Machine) : Prop where
  diagnostics : m'.diagnostics = m.diagnostics
  snapshot : m'.heap.snapshot child = m.heap.snapshot 0
  parent : m'.heap.parent? child = some 0
  root : m'.heap.table 0 = .empty

/-- The outcome of a run and that of the evaluation as a nested block: both
return, or both stop for the same cause.  A limit is named one level higher. -/
def AgreesNested (child : ScopeId) : Outcome Value → Outcome Value → Prop
  | .ok v m, .ok w m' => w = .block child ∧
      m'.heap.snapshot child = programBindings m.heap 0 v ∧ LeavesNested child m m'
  | .error halt m, .error halt' m' => halt' = halt.deepen 1 ∧ LeavesNested child m m'
  | _, _ => False

/-- Where the heap of the evaluation is that of the run, enclosed, they leave the same
behind. -/
theorem leavesNested {m m' : Machine} (hevolves : Heap.Evolves 0 .initial m.heap)
    (hdiagnostics : m'.diagnostics = m.diagnostics) (hheap : m'.heap = m.heap.enclosed) :
    LeavesNested 1 m m' where
  diagnostics := hdiagnostics
  snapshot := by rw [hheap, Heap.snapshot_enclosed]
  parent := by
    -- the root of the run is still a root
    have hgrows := hevolves.grows
    have hroot := hgrows.parent 0 Nat.one_pos
    have hs : 0 < m.heap.scopes.size := hgrows.size_le
    rw [Heap.parent?, Array.getElem?_eq_getElem hs] at hroot
    rw [hheap, Heap.parent?_enclosed, Array.getElem?_eq_getElem hs]
    exact congrArg (fun p : Option ScopeId => some (p.elim 0 (· + 1))) hroot
  root := by rw [hheap, Heap.table_enclosed_zero]

/-- **Running a program agrees with evaluating it as a nested block.** -/
theorem run_agrees_nested (tree : Node) (hkind : tree.kind = "block")
    (herror : tree.hasError = false) (d : Nat) :
    AgreesNested (Heap.initial.extend 0).1 (run d 0 tree .initial)
      (evaluate (d + 1) 0 tree .initial) := by
  have hblock : tree.form? = some .block := Node.form?_eq_some_iff.2 hkind
  have hevolves := Heap.run_evolves d 0 tree .initial
  have hlt : ((0 : Nat) : Int) < (d : Int) + 1 := by omega
  -- inside the block, the statements do what they do in the root
  obtain ⟨hcarried, -⟩ := ((Lift.inBlock tree).eval_carries d).2 0 tree.operands
    { heap := .initial } trivial fun _ _ _ _ => trivial
  have hchild : (Lift.inBlock tree).heap.scope 0 = (tree.scopeFrom 0 .initial).1 := by
    rw [Node.scopeFrom_block hblock]
    rfl
  rw [Lift.machine_inBlock tree hblock, hchild] at hcarried
  rw [run_block hblock herror] at hevolves ⊢
  rcases hops : evalAll d 0 tree.operands { heap := .initial } with ⟨vs, m⟩ | ⟨halt, m⟩ <;>
    rw [hops] at hcarried hevolves
  · have hconclude : conclude (tree.scopeFrom 0 .initial).1 tree (vs.map (Lift.inBlock tree).value)
        ((Lift.inBlock tree).machine m) = .ok (.block 1) ((Lift.inBlock tree).machine m) := by
      rw [conclude, hblock, ← hchild]
      rfl
    -- the block returns its scope, and the run has logged its end
    rw [evaluate, eval_of_operands hlt hcarried, Step.recover_of_ok hconclude]
    refine ⟨rfl, ?_, leavesNested hevolves ?_ ?_⟩
    · show m.heap.enclosed.snapshot 1 = m.finish.heap.snapshot 0
      rw [Machine.finish_heap, Heap.snapshot_enclosed]
    · show #[] ++ m.diagnostics = m.finish.diagnostics
      rw [Machine.finish_diagnostics, Array.empty_append]
    · show m.heap.enclosed = m.finish.heap.enclosed
      rw [Machine.finish_heap]
  · rw [evaluate, eval_of_halted hlt hcarried]
    exact ⟨rfl, leavesNested hevolves (Array.empty_append) rfl⟩

/-- A block `a` is made on the way to `a.b` and then contains itself, and a
constant `c` is set twice, which stops both. -/
theorem run_agrees_nested_redeclaration :
    let a : Node := .identifier "a"
    let twice : Node := .assign (.identifier "c") "=" (.truth true)
    let tree : Node := .program [.assign (.member a (.identifier "b")) ":=" (.truth true),
      .assign (.member a (.identifier "me")) ":=" a, twice, twice]
    tree.kind = "block" ∧ tree.hasError = false ∧
      AgreesNested 1 (run 5 0 tree .initial) (evaluate 6 0 tree .initial) := by
  intro a twice tree
  have hkind : tree.kind = "block" := rfl
  have herror : tree.hasError = false := by decide
  exact ⟨hkind, herror, run_agrees_nested tree hkind herror 5⟩

end BlockScript
