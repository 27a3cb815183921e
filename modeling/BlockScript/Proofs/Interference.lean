/-
BlockScript/Proofs/Interference.lean

Unrelated bindings do not interfere.

A binding whose name the program does not spell is neither looked up nor set,
in whatever scope it stands: every name that an evaluation uses is the text of
a node.  Leaving the binding out is therefore a morphism of heaps,

    erase (write h e other b)  =  write (erase h) e other b     (other ≠ name),

and an evaluation without the binding is the one with it, with the binding
left out of the heap.
-/
import BlockScript.Proofs.Lift

namespace BlockScript

/-! ### Tables without a name -/

namespace Table

/-- The table without a name. -/
def erase (t : Table) (name : String) : Table where
  entries := t.entries.filter (·.1 ≠ name)
  nodup := t.nodup.sublist (List.filter_sublist.map _)

theorem mem_names_erase {t : Table} {name other : String} (h : other ≠ name) :
    other ∈ (t.erase name).names ↔ other ∈ t.names := by
  simp only [names, erase, List.mem_map, List.mem_filter]
  constructor
  · rintro ⟨entry, ⟨hentry, -⟩, rfl⟩
    exact ⟨entry, hentry, rfl⟩
  · rintro ⟨entry, hentry, rfl⟩
    exact ⟨entry, ⟨hentry, by simpa using h⟩, rfl⟩

theorem find?_erase (t : Table) {name other : String} (h : other ≠ name) :
    (t.erase name).find? other = t.find? other := by
  show (t.entries.filter (·.1 ≠ name)).lookup other = t.entries.lookup other
  induction t.entries with
  | nil => rfl
  | cons entry rest ih =>
    by_cases hkey : entry.1 = name
    · have hne : (other == entry.1) = false := by simpa [hkey] using h
      rw [List.filter_cons_of_neg (by simpa using hkey), ih, List.lookup_cons, hne]
    · rw [List.filter_cons_of_pos (by simpa using hkey), List.lookup_cons, List.lookup_cons, ih]

/-- Other names keep their places and are set as they were. -/
theorem erase_set (t : Table) {name other : String} (b : Binding) (h : other ≠ name) :
    (t.set other b).erase name = (t.erase name).set other b := by
  apply eq_of_entries
  show (t.set other b).entries.filter (·.1 ≠ name) = ((t.erase name).set other b).entries
  by_cases hmem : other ∈ t.names
  · rw [entries_set, entries_set, if_pos hmem, if_pos ((mem_names_erase h).2 hmem), replace,
      List.filter_map]
    show _ = ((t.entries.filter (·.1 ≠ name)).map fun entry =>
      if entry.1 = other then (other, b) else entry)
    congr 1
    apply List.filter_congr
    intro entry _
    show decide ((if entry.1 = other then (other, b) else entry).1 ≠ name) = _
    split
    -- an entry that is replaced has another name than the one left out
    next hkey => rw [← hkey]
    next => rfl
  · rw [entries_set, entries_set, if_neg hmem, if_neg (mt (mem_names_erase h).1 hmem),
      List.filter_append, List.filter_cons_of_pos (by simpa using h), List.filter_nil]
    rfl

/-- A name that was just added can be left out again. -/
theorem erase_set_self {t : Table} {name : String} (b : Binding) (h : name ∉ t.names) :
    (t.set name b).erase name = t := by
  apply eq_of_entries
  show (t.set name b).entries.filter (·.1 ≠ name) = t.entries
  rw [entries_set, if_neg h, List.filter_append, List.filter_cons_of_neg (by simp), List.filter_nil,
    List.append_nil, List.filter_eq_self]
  intro entry hentry
  refine decide_eq_true fun hkey => h ?_
  exact hkey ▸ List.mem_map_of_mem hentry

end Table

/-! ### Heaps without a binding -/

namespace Heap

/-- The heap without a name in one of its scopes. -/
def erase (h : Heap) (s : ScopeId) (name : String) : Heap :=
  { h with scopes := h.scopes.modify s fun scope =>
      { scope with table := scope.table.erase name } }

section Erase

variable (h : Heap) (s : ScopeId) {name : String}

theorem parent?_erase (e : ScopeId) : (h.erase s name).parent? e = h.parent? e := by
  simp only [erase, parent?, Array.getElem?_modify]
  split
  · cases h.scopes[e]? <;> rfl
  · rfl

theorem table_erase (e : ScopeId) :
    (h.erase s name).table e = if s = e then (h.table e).erase name else h.table e := by
  simp only [erase, table, Array.getElem?_modify]
  split
  · cases h.scopes[e]? <;> rfl
  · rfl

theorem own?_erase (e : ScopeId) {other : String} (hne : other ≠ name) :
    (h.erase s name).own? e other = h.own? e other := by
  rw [own?, table_erase]
  split
  · exact Table.find?_erase _ hne
  · rfl

/-- Other names resolve as before. -/
theorem resolve?_erase (e : ScopeId) {other : String} (hne : other ≠ name) :
    (h.erase s name).resolve? e other = h.resolve? e other := by
  refine resolve?_congr (chain_congr fun a _ => h.parent?_erase s a) fun a _ => ?_
  rw [own?_erase h s a hne]

/-- Adding a scope and leaving out a name can be done in either order. -/
theorem erase_extend (p : ScopeId) :
    (h.extend p).2.erase s name = ((h.erase s name).extend p).2 := by
  unfold erase extend addScope
  congr 1
  apply Array.ext_getElem?
  intro i
  simp only [Array.getElem?_modify, Array.getElem?_push, Array.size_modify]
  by_cases hi : i = h.scopes.size
  · -- the new scope has nothing that could be left out
    simp only [hi, if_true]
    split <;> rfl
  · simp only [hi, if_false]

/-- Writing another name and leaving out this one can be done in either order. -/
theorem erase_write (e : ScopeId) {other : String} (b : Binding) (hne : other ≠ name) :
    (h.write e other b).erase s name = (h.erase s name).write e other b := by
  unfold erase write
  congr 1
  apply Array.ext_getElem?
  intro i
  simp only [Array.getElem?_modify]
  -- only where both happen in one scope does the order need a reason
  by_cases he : e = i <;> by_cases hs : s = i <;> simp only [he, hs, if_true, if_false]
  rcases h.scopes[i]? with - | scope
  · rfl
  · simp [Table.erase_set _ b hne]

/-- A name that was free and was just bound can be left out again. -/
theorem erase_write_self (b : Binding) (hfree : h.own? s name = none) :
    (h.write s name b).erase s name = h := by
  have hscopes : ((h.write s name b).erase s name).scopes = h.scopes := by
    apply Array.ext_getElem?
    intro i
    simp only [erase, write, Array.getElem?_modify]
    by_cases hs : s = i <;> simp only [hs, if_true, if_false]
    rcases hscope : h.scopes[i]? with - | scope
    · rfl
    · have hnames : name ∉ scope.table.names := by
        rw [own?, table, hs, hscope] at hfree
        exact Table.lookup_eq_none_iff_not_mem.1 hfree
      simp [Table.erase_set_self b hnames]
  exact congrArg (fun scopes => { h with scopes }) hscopes

end Erase

/-- Leaving out a binding that keeps its value respects all other names. -/
def Morphism.without (s : ScopeId) (name : String) (b : Binding) : Morphism where
  scope := id
  onHeap h := h.erase s name
  Names other := other ≠ name
  Holds h := h.own? s name = some b
  injective := Function.injective_id
  size_eq h _ := Array.size_modify
  own?_eq h e other _ hne := by simpa using h.own?_erase s e hne
  resolve?_eq h e other _ hne := by simpa using h.resolve?_erase s e hne
  extend_eq h p _ := h.erase_extend s p
  write_eq h e other b' _ hne := by simpa using h.erase_write s e b' hne
  holds_extend h p hh := (own?_extend h p s name).trans hh
  holds_write h e other b' hh hne := by
    rw [own?_write, if_neg fun hslot => hne hslot.2.2.symm]
    exact hh

/-- The second heap is the first with a binding for one more name, at any
place of the table of the scope. -/
structure Gains (h : Heap) (s : ScopeId) (name : String) (b : Binding) (h' : Heap) : Prop where
  bound : h'.own? s name = some b
  rest : h'.erase s name = h

/-- Binding a free name adds the binding, and nothing else. -/
theorem gains_write {h : Heap} {s : ScopeId} {name : String} (b : Binding)
    (hs : s < h.scopes.size) (hfree : h.own? s name = none) :
    h.Gains s name b (h.write s name b) where
  bound := by rw [own?_write, if_pos ⟨rfl, hs, rfl⟩]
  rest := h.erase_write_self s b hfree

end Heap

/-! ### Evaluation without a binding -/

/-- Two outcomes are the same in everything but a binding that the heap of the
second has and that of the first has not. -/
def SameBut (s : ScopeId) (name : String) (b : Binding) : Outcome Value → Outcome Value → Prop
  | .ok v m, .ok v' m' => v' = v ∧ m'.diagnostics = m.diagnostics ∧ m'.trace = m.trace ∧
      m.heap.Gains s name b m'.heap
  | .error halt m, .error halt' m' => halt' = halt ∧ m'.diagnostics = m.diagnostics ∧
      m'.trace = m.trace ∧ m.heap.Gains s name b m'.heap
  | _, _ => False

/-- The same surroundings, but for a binding that is left out. -/
def Lift.without (s : ScopeId) (name : String) (b : Binding) : Lift :=
  ⟨.without s name b, 0, { heap := {} }⟩

theorem Lift.machine_without (s : ScopeId) (name : String) (b : Binding) (m : Machine) :
    (Lift.without s name b).machine m = { m with heap := m.heap.erase s name } := by
  unfold machine without
  simp [Heap.Morphism.without]

/-- What is carried over to the heap without the binding is the same but for the binding. -/
theorem Lift.Carries.sameBut {s : ScopeId} {name : String} {b : Binding} {r r' : Outcome Value}
    (hr : (Lift.without s name b).Carries (Lift.without s name b).value r r') :
    SameBut s name b r' r := by
  obtain ⟨rfl, hbound⟩ := hr
  rcases r with ⟨v, m⟩ | ⟨halt, m⟩
  · rw [outcome, machine_without]
    exact ⟨(Value.rename_id v).symm, rfl, rfl, hbound, rfl⟩
  · rw [outcome, machine_without]
    exact ⟨halt.deepen_zero.symm, rfl, rfl, hbound, rfl⟩

/-- **Unrelated bindings do not interfere.**  A name that the tree does not
spell may be bound in any scope, to anything: the evaluation comes to the same,
and the binding stays what it was. -/
theorem unrelated_binding_inert (tree : Node) (name : String) (hname : name ∉ tree.spellings)
    (s : ScopeId) (b : Binding) :
    (∀ h : Heap, s < h.scopes.size → h.own? s name = none →
      h.Gains s name b (h.write s name b)) ∧
    ∀ (h h' : Heap) (limit : Int) (e : ScopeId), h.Gains s name b h' →
      SameBut s name b (evaluate limit e tree h) (evaluate limit e tree h') := by
  refine ⟨fun h hs hfree => Heap.gains_write b hs hfree, ?_⟩
  rintro h h' limit e ⟨hbound, rfl⟩
  -- the heap without the binding is the image, so the lift goes from `h'` to it
  have hspells : tree.Spells (· ≠ name) := fun other hother hsame => hname (hsame ▸ hother)
  have hcarries := ((Lift.without s name b).eval_carries limit).1 e tree { heap := h' } hbound
    hspells
  rw [Lift.machine_without, show limit + ((Lift.without s name b).levels : Int) = limit from
    Int.add_zero limit] at hcarries
  exact hcarries.sameBut

/-- Beside a constant `z` that is the root itself, `x.y := true` makes a block
and binds in it, as it does without. -/
theorem unrelated_binding_beside_assignment :
    let tree : Node := .assign (.member (.identifier "x") (.identifier "y")) ":=" (.truth true)
    let b : Binding := ⟨.block 0, true⟩
    let h' := Heap.initial.write 0 "z" b
    "z" ∉ tree.spellings ∧ Heap.initial.Gains 0 "z" b h' ∧
      SameBut 0 "z" b (evaluate 3 0 tree .initial) (evaluate 3 0 tree h') := by
  intro tree b h'
  have hname : "z" ∉ tree.spellings := by decide
  obtain ⟨hgains, hsame⟩ := unrelated_binding_inert tree "z" hname 0 b
  have hz : Heap.initial.Gains 0 "z" b h' := hgains .initial (by decide) rfl
  exact ⟨hname, hz, hsame .initial h' 3 0 hz⟩

end BlockScript
