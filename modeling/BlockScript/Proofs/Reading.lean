/-
BlockScript/Proofs/Reading.lean

Reading never writes, and it is repeatable.

A tree without assignments does a single thing to the heap: each of its blocks
opens a scope, which stays empty.  All that was there is there as it was.

A second evaluation starts from the heap that the first has left.  It finds the
same bindings, but its own scopes get higher numbers than those of the first:

    first:     0 … base-1 | base …
    second:    0 … base-1 | scopes of the first | base + extra …

Inserting empty scopes in this way is a morphism of heaps, under which the
scopes from before keep their numbers.  So the second evaluation is the image
of the first, and only the number of a scope that it has made can tell them
apart.
-/
import BlockScript.Proofs.Enclosure

namespace BlockScript

/-! ### Trees without assignments -/

/-- No node of the tree is an assignment. -/
def Node.Reads (n : Node) : Prop :=
  ∀ k ∈ n.nodes, k.kind ≠ "assignment_expression"

/-- An operand of a tree without assignments has none either. -/
theorem Node.Reads.operand {n k : Node} (hn : n.Reads) (hk : k ∈ n.operands) : k.Reads :=
  fun c hc => hn c (nodes_subset (n.operands_sublist.subset hk) hc)

theorem Node.Reads.form?_ne {n : Node} (hn : n.Reads) : n.form? ≠ some .assignment := by
  intro hform
  refine hn n ?_ (form?_eq_some_iff.1 hform)
  rw [n.nodes_eq]
  exact List.mem_cons_self

/-! ### Heaps with more empty scopes -/

namespace Heap

/-- The scopes of `h` are in `h'` as they were, and all others are empty. -/
structure Opens (h h' : Heap) : Prop where
  size_le : h.scopes.size ≤ h'.scopes.size
  scope_eq : ∀ s < h.scopes.size, h'.scopes[s]? = h.scopes[s]?
  table_new : ∀ s, h.scopes.size ≤ s → h'.table s = .empty
  closures_eq : h'.closures = h.closures
  sequences_eq : h'.sequences = h.sequences

namespace Opens

variable {h h₁ h₂ : Heap}

theorem refl (h : Heap) : Opens h h :=
  ⟨Nat.le_refl _, fun _ _ => rfl, fun _ => table_of_size_le, rfl, rfl⟩

theorem table_eq (ho : Opens h h₁) {s : ScopeId} (hs : s < h.scopes.size) :
    h₁.table s = h.table s := by
  rw [table, ho.scope_eq s hs, table]

theorem trans (ho : Opens h h₁) (ho' : Opens h₁ h₂) : Opens h h₂ where
  size_le := Nat.le_trans ho.size_le ho'.size_le
  scope_eq s hs :=
    (ho'.scope_eq s (Nat.lt_of_lt_of_le hs ho.size_le)).trans (ho.scope_eq s hs)
  table_new s hs := by
    rcases Nat.lt_or_ge s h₁.scopes.size with hlt | hge
    · exact (ho'.table_eq hlt).trans (ho.table_new s hs)
    · exact ho'.table_new s hge
  closures_eq := ho'.closures_eq.trans ho.closures_eq
  sequences_eq := ho'.sequences_eq.trans ho.sequences_eq

end Opens

theorem opens_extend (h : Heap) (p : ScopeId) : Opens h (h.extend p).2 where
  size_le := by
    rw [size_extend]
    exact Nat.le_succ _
  scope_eq s hs := by
    show (h.scopes.push _)[s]? = h.scopes[s]?
    rw [Array.getElem?_push, if_neg (Nat.ne_of_lt hs)]
  table_new s hs := by rw [table_extend, table_of_size_le hs]
  closures_eq := rfl
  sequences_eq := rfl

/-- The scope that is opened for a node is empty, if there is one. -/
theorem opens_scopeFrom (n : Node) (e : ScopeId) (h : Heap) : Opens h (n.scopeFrom e h).2 := by
  by_cases hblock : n.form? = some .block
  · rw [Node.scopeFrom_block hblock]
    exact opens_extend h e
  · rw [Node.scopeFrom_of_ne_block hblock]
    exact .refl h

end Heap

/-- A node that is no assignment leaves the heap as its operands have. -/
theorem heap_conclusion {n : Node} (hn : n.form? ≠ some .assignment) (e : ScopeId)
    (values : List Value) (m : Machine) :
    (after (left (Step.recover n (conclude e n values) m))).heap = m.heap := by
  rw [after_left, Machine.leave_heap, after_recover_heap]
  rcases conclude_cases e n values m with ⟨_, _, _, _, hform, -⟩ | hreads
  · exact absurd hform hn
  · rcases hc : conclude e n values m with ⟨v, m'⟩ | ⟨f, m'⟩ <;> rw [hc] at hreads
    · rw [after_ok, hreads.1]
    · rw [after_error, show m' = m from hreads]

/-- **Reading opens scopes and does nothing else to the heap**, whatever the
outcome. -/
theorem reading_opens (limit : Int) :
    (∀ e n (m : Machine), n.Reads → m.heap.Opens (after (eval limit e n m)).heap) ∧
      ∀ e ns (m : Machine), (∀ n ∈ ns, n.Reads) →
        m.heap.Opens (after (evalAll limit e ns m)).heap := by
  refine eval_induction limit
    (fun _ n m r => n.Reads → m.heap.Opens (after r).heap)
    (fun _ ns m r => (∀ n ∈ ns, n.Reads) → m.heap.Opens (after r).heap) ?_ ?_ ?_ ?_ ?_ ?_ ?_
  · intro e n m _ _
    exact .refl m.heap
  · intro e n m halt m' _ _ ih hn
    exact (Heap.opens_scopeFrom n e m.heap).trans (ih fun k hk => hn.operand hk)
  · -- the scope of the node is opened, then those of its operands
    intro e n m values m' _ _ ih hn
    rw [heap_conclusion hn.form?_ne]
    exact (Heap.opens_scopeFrom n e m.heap).trans (ih fun k hk => hn.operand hk)
  · intro e m _
    exact .refl m.heap
  · intro e n ns m halt m' _ ihn hns
    exact ihn (hns n List.mem_cons_self)
  · intro e n ns m v m' halt m'' _ ihn ihns hns
    exact (ihn (hns n List.mem_cons_self)).trans
      (ihns fun k hk => hns k (List.mem_cons_of_mem n hk))
  · -- what one node opens is there when the next is evaluated
    intro e n ns m v m' vs m'' _ ihn ihns hns
    exact (ihn (hns n List.mem_cons_self)).trans
      (ihns fun k hk => hns k (List.mem_cons_of_mem n hk))

/-! ### Scopes in between -/

/-- The number of a scope when `extra` scopes are inserted from `base` on. -/
def shift (base extra s : Nat) : Nat :=
  if s < base then s else s + extra

section Shift

variable {base extra s p : Nat}

theorem shift_of_lt (hs : s < base) : shift base extra s = s :=
  if_pos hs

theorem shift_of_ge (hs : base ≤ s) : shift base extra s = s + extra :=
  if_neg (Nat.not_lt.2 hs)

/-- Scopes keep their order. -/
theorem shift_lt_shift_iff : shift base extra p < shift base extra s ↔ p < s := by
  unfold shift
  split <;> split <;> omega

theorem shift_injective (base extra : Nat) : Function.Injective (shift base extra) := by
  intro s p
  unfold shift
  split <;> split <;> omega

/-- A value that refers to no scope from `base` on stays as it is. -/
theorem Value.rename_shift {v : Value} (extra : Nat) (hv : ∀ c, v = .block c → c < base) :
    v.rename (shift base extra) = v := by
  cases v with
  | block c => exact congrArg Value.block (shift_of_lt (hv c rfl))
  | _ => rfl

/-- A table that refers to no scope from `base` on stays as it is. -/
theorem Table.rename_shift {t : Table} (extra : Nat)
    (ht : ∀ entry ∈ t.entries, ∀ c, entry.2.value = .block c → c < base) :
    t.rename (shift base extra) = t := by
  apply eq_of_entries
  show t.entries.map _ = t.entries
  conv_rhs => rw [← List.map_id t.entries]
  refine List.map_congr_left fun entry hentry => ?_
  have hvalue := Value.rename_shift extra (ht entry hentry)
  show (entry.1, (⟨entry.2.value.rename _, entry.2.constant⟩ : Binding)) = entry
  rw [hvalue]

end Shift

/-- An entry of a table is what its name is bound to. -/
theorem Table.find?_of_mem {t : Table} {entry : String × Binding} (hentry : entry ∈ t.entries) :
    t.find? entry.1 = some entry.2 := by
  obtain ⟨l₁, l₂, hsplit⟩ := List.append_of_mem hentry
  have hnodup := t.nodup
  rw [hsplit, List.map_append, List.nodup_append] at hnodup
  refine List.lookup_eq_some_iff.2 ⟨l₁, l₂, hsplit, fun other hother => ?_⟩
  have hne := hnodup.2.2 other.1 (List.mem_map_of_mem hother) entry.1 List.mem_cons_self
  simpa using Ne.symm hne

/-- A scope of a heap into which others are inserted.  Old scopes have old
parents. -/
def Scope.shifted (base extra : Nat) (s : ScopeId) (scope : Scope) : Scope where
  parent := if s < base then scope.parent else scope.parent.map (shift base extra)
  table := scope.table.rename (shift base extra)

namespace Heap

/-- The heap with scopes inserted from the number `base` on. -/
def inserted (h : Heap) (base : Nat) (made : Array Scope) : Heap :=
  let shifted := h.scopes.mapIdx (Scope.shifted base made.size)
  { h with scopes := shifted.extract 0 base ++ made ++ shifted.extract base h.scopes.size }

section Inserted

variable {h : Heap} {base : Nat} (made : Array Scope) (e s : ScopeId) (name : String)

theorem size_front (hbase : base ≤ h.scopes.size) (f : Nat → Scope → Scope) :
    ((h.scopes.mapIdx f).extract 0 base).size = base := by
  simp [hbase]

theorem size_inserted (hbase : base ≤ h.scopes.size) :
    (h.inserted base made).scopes.size = h.scopes.size + made.size := by
  have hfront := size_front hbase (Scope.shifted base made.size)
  rw [inserted, Array.size_append, Array.size_append, hfront, Array.size_extract,
    Array.size_mapIdx]
  omega

/-- The scopes that were there have their new numbers. -/
theorem scopes_inserted (hbase : base ≤ h.scopes.size) :
    (h.inserted base made).scopes[shift base made.size s]?
      = h.scopes[s]?.map (Scope.shifted base made.size s) := by
  have hfront := size_front hbase (Scope.shifted base made.size)
  rcases Nat.lt_or_ge s base with hs | hs
  · rw [shift_of_lt hs, inserted, Array.getElem?_append_left (by rw [Array.size_append]; omega),
      Array.getElem?_append_left (by omega), Array.getElem?_extract,
      if_pos (by rw [Array.size_mapIdx]; omega), Nat.zero_add, Array.getElem?_mapIdx]
  · have hindex : base + (s + made.size - (base + made.size)) = s := by omega
    rw [shift_of_ge hs, inserted, Array.getElem?_append_right (by rw [Array.size_append]; omega),
      Array.size_append, hfront, Array.getElem?_extract, Array.size_mapIdx, hindex,
      Array.getElem?_mapIdx]
    split
    · rfl
    · rw [Array.getElem?_eq_none (by omega)]
      rfl

/-- The scopes that are inserted stand in between. -/
theorem scopes_inserted_made (hbase : base ≤ h.scopes.size) {i : Nat} (hi : i < made.size) :
    (h.inserted base made).scopes[base + i]? = made[i]? := by
  have hfront := size_front hbase (Scope.shifted base made.size)
  rw [inserted, Array.getElem?_append_left (by rw [Array.size_append]; omega),
    Array.getElem?_append_right (by omega), hfront, Nat.add_sub_cancel_left]

/-- Every number of a scope is a new number, or that of an inserted scope. -/
theorem shift_cases (base extra i : Nat) :
    (∃ s, i = shift base extra s) ∨ ∃ j < extra, i = base + j := by
  rcases Nat.lt_or_ge i base with hi | hi
  · exact .inl ⟨i, (shift_of_lt hi).symm⟩
  · rcases Nat.lt_or_ge i (base + extra) with hlt | hge
    · exact .inr ⟨i - base, by omega, by omega⟩
    · exact .inl ⟨i - extra, by rw [shift_of_ge (by omega)]; omega⟩

/-- Two heaps are the same in their scopes if they are at the new numbers and
at those of the inserted scopes. -/
theorem scopes_eq_of_inserted (base extra : Nat) {scopes scopes' : Array Scope}
    (hshift : ∀ s, scopes[shift base extra s]? = scopes'[shift base extra s]?)
    (hmade : ∀ i < extra, scopes[base + i]? = scopes'[base + i]?) : scopes = scopes' := by
  apply Array.ext_getElem?
  intro i
  rcases shift_cases base extra i with ⟨s, rfl⟩ | ⟨j, hj, rfl⟩
  · exact hshift s
  · exact hmade j hj

/-- A scope that was there has its table, with the blocks renumbered. -/
theorem table_inserted (hbase : base ≤ h.scopes.size) :
    (h.inserted base made).table (shift base made.size s)
      = (h.table s).rename (shift base made.size) := by
  rw [table, scopes_inserted made s hbase, table]
  rcases h.scopes[s]? with - | scope <;> rfl

/-- A scope that was there lies in the scope that it lay in. -/
theorem parent?_inserted (hbase : base ≤ h.scopes.size) :
    (h.inserted base made).parent? (shift base made.size s)
      = if s < base then h.parent? s else (h.parent? s).map (shift base made.size) := by
  rw [parent?, scopes_inserted made s hbase, parent?]
  rcases h.scopes[s]? with - | scope
  · simp
  · simp only [Option.map_some, Option.bind_some, Scope.shifted]

theorem own?_inserted (hbase : base ≤ h.scopes.size) :
    (h.inserted base made).own? (shift base made.size s) name
      = (h.own? s name).map (·.rename (shift base made.size)) := by
  rw [own?, table_inserted made s hbase, Table.find?_rename, own?]

/-- The way outwards is the same: an old scope lies in old scopes only. -/
theorem resolve?_inserted (hbase : base ≤ h.scopes.size) :
    (h.inserted base made).resolve? (shift base made.size e) name
      = (h.resolve? e name).map (shift base made.size) := by
  fun_induction resolve? h e name with
  | case1 e hbound =>
    rw [resolve?, table_inserted made e hbase, Table.contains_rename, if_pos hbound]
    rfl
  | case2 e hfree p hp hlt ih =>
    have hparent : (h.inserted base made).parent? (shift base made.size e)
        = some (shift base made.size p) := by
      rw [parent?_inserted made e hbase, hp]
      split
      next he => rw [shift_of_lt (Nat.lt_trans hlt he)]
      next => rfl
    rw [resolve?, table_inserted made e hbase, Table.contains_rename, if_neg hfree, hparent]
    simp only [shift_lt_shift_iff.2 hlt, if_true]
    exact ih
  | case3 e hfree p hp hge =>
    -- a parent that does not come before its scope is not followed
    rw [resolve?, table_inserted made e hbase, Table.contains_rename, if_neg hfree,
      parent?_inserted made e hbase, hp]
    by_cases he : e < base
    · simp [he, shift_of_lt he, hge]
    · simp [he, shift_lt_shift_iff, hge]
  | case4 e hfree hp =>
    rw [resolve?, table_inserted made e hbase, Table.contains_rename, if_neg hfree,
      parent?_inserted made e hbase, hp]
    simp

/-- It makes no difference whether a scope is made before or after others are inserted. -/
theorem inserted_extend (hbase : base ≤ h.scopes.size) (p : ScopeId) :
    (h.extend p).2.inserted base made
      = ((h.inserted base made).extend (shift base made.size p)).2 := by
  have hbase' : base ≤ (h.extend p).2.scopes.size := by rw [size_extend]; omega
  have hsize : (h.inserted base made).scopes.size = shift base made.size h.scopes.size := by
    rw [size_inserted made hbase, shift_of_ge hbase]
  have hscopes : ((h.extend p).2.inserted base made).scopes
      = ((h.inserted base made).extend (shift base made.size p)).2.scopes := by
    refine scopes_eq_of_inserted base made.size (fun s => ?_) fun i hi => ?_
    · -- the new scope comes last on both sides
      rw [scopes_inserted made s hbase']
      show (h.scopes.push _)[s]?.map _ = ((h.inserted base made).scopes.push _)[_]?
      rw [Array.getElem?_push, Array.getElem?_push, hsize, scopes_inserted made s hbase]
      by_cases hs : s = h.scopes.size
      · subst hs
        simp [Scope.shifted, Nat.not_lt.2 hbase]
        rfl
      · rw [if_neg hs, if_neg fun heq => hs (shift_injective _ _ heq)]
    · rw [scopes_inserted_made made hbase' hi]
      show made[i]? = ((h.inserted base made).scopes.push _)[_]?
      rw [Array.getElem?_push, if_neg (by rw [size_inserted made hbase]; omega),
        scopes_inserted_made made hbase hi]
  exact congrArg (fun scopes => ({ h with scopes } : Heap)) hscopes

/-- It makes no difference whether a slot is set before or after scopes are inserted. -/
theorem inserted_write (hbase : base ≤ h.scopes.size) (b : Binding) :
    (h.write s name b).inserted base made
      = (h.inserted base made).write (shift base made.size s) name
          (b.rename (shift base made.size)) := by
  have hbase' : base ≤ (h.write s name b).scopes.size := by rwa [size_write]
  have hscopes : ((h.write s name b).inserted base made).scopes
      = ((h.inserted base made).write (shift base made.size s) name
          (b.rename (shift base made.size))).scopes := by
    refine scopes_eq_of_inserted base made.size (fun f => ?_) fun i hi => ?_
    · rw [scopes_inserted made f hbase', write, write, Array.getElem?_modify,
        Array.getElem?_modify, scopes_inserted made f hbase]
      by_cases hf : s = f
      · rcases h.scopes[f]? with - | scope <;> simp [hf, Scope.shifted, Table.rename_set]
      · rw [if_neg hf, if_neg fun heq => hf (shift_injective _ _ heq)]
    · -- no inserted scope has the number of one that was there
      have hne : shift base made.size s ≠ base + i := by
        unfold shift
        split <;> omega
      rw [scopes_inserted_made made hbase' hi, write, Array.getElem?_modify, if_neg hne,
        scopes_inserted_made made hbase hi]
  exact congrArg (fun scopes => ({ h with scopes } : Heap)) hscopes

end Inserted

/-- Inserting scopes respects everything, in the heaps that have all scopes up
to where they are inserted. -/
def Morphism.inserting (base : Nat) (made : Array Scope) : Morphism where
  scope := shift base made.size
  onHeap h := h.inserted base made
  Names _ := True
  Holds h := base ≤ h.scopes.size
  injective := shift_injective base made.size
  size_eq h hbase := by rw [size_inserted made hbase, shift_of_ge hbase]
  own?_eq h s name hbase _ := own?_inserted made s name hbase
  resolve?_eq h e name hbase _ := resolve?_inserted made e name hbase
  extend_eq h p hbase := inserted_extend made hbase p
  write_eq h s name b hbase _ := inserted_write made s name hbase b
  holds_extend h p hbase := by rw [size_extend]; omega
  holds_write h s name b hbase _ := by rwa [size_write]

/-! ### The heap behind a reading -/

/-- The scopes from a number on. -/
def scopesFrom (h : Heap) (base : Nat) : Array Scope :=
  h.scopes.extract base h.scopes.size

theorem size_scopesFrom (h : Heap) (base : Nat) :
    (h.scopesFrom base).size = h.scopes.size - base := by
  simp [scopesFrom]

theorem scopesFrom_getElem? (h : Heap) (base i : Nat) :
    (h.scopesFrom base)[i]? = h.scopes[base + i]? := by
  rw [scopesFrom, Array.getElem?_extract, Nat.min_self]
  split
  · rfl
  · rw [Array.getElem?_eq_none (by omega)]

/-- The scopes of a heap whose blocks refer to scopes of its own do not change
when others are inserted behind them. -/
theorem Closed.shifted_eq {h : Heap} (hclosed : h.Closed) {s : ScopeId} {scope : Scope}
    (hscope : h.scopes[s]? = some scope) (extra : Nat) :
    Scope.shifted h.scopes.size extra s scope = scope := by
  have hs : s < h.scopes.size := (Array.getElem?_eq_some_iff.1 hscope).1
  have htable : h.table s = scope.table := by
    rw [table, hscope]
    rfl
  have hkept : scope.table.rename (shift h.scopes.size extra) = scope.table := by
    refine Table.rename_shift extra fun entry hentry c hc => ?_
    have hown : h.own? s entry.1 = some entry.2 := by
      rw [own?, htable]
      exact Table.find?_of_mem hentry
    exact hclosed c ⟨s, entry.1, entry.2, hown, hc⟩
  rw [Scope.shifted, if_pos hs, hkept]

/-- A heap with more empty scopes is the heap with these inserted behind its
own. -/
theorem Opens.eq_inserted {h h₁ : Heap} (ho : Opens h h₁) (hclosed : h.Closed) :
    h.inserted h.scopes.size (h₁.scopesFrom h.scopes.size) = h₁ := by
  have hle := ho.size_le
  have hsize := h₁.size_scopesFrom h.scopes.size
  have hscopes : (h.inserted h.scopes.size (h₁.scopesFrom h.scopes.size)).scopes = h₁.scopes := by
    refine scopes_eq_of_inserted h.scopes.size (h₁.scopesFrom h.scopes.size).size
      (fun s => ?_) fun i hi => ?_
    · rw [scopes_inserted _ s (Nat.le_refl _)]
      rcases Nat.lt_or_ge s h.scopes.size with hs | hs
      · have hscope := Array.getElem?_eq_getElem hs
        rw [shift_of_lt hs, ho.scope_eq s hs, hscope, Option.map_some, hclosed.shifted_eq hscope]
      · rw [shift_of_ge hs, Array.getElem?_eq_none hs, Array.getElem?_eq_none (by omega)]
        rfl
    · rw [scopes_inserted_made _ (Nat.le_refl _) hi, scopesFrom_getElem?]
  obtain ⟨scopes, closures, sequences⟩ := h₁
  obtain rfl : closures = h.closures := ho.closures_eq
  obtain rfl : sequences = h.sequences := ho.sequences_eq
  exact congrArg (fun scopes => ({ h with scopes } : Heap)) hscopes

end Heap

/-! ### Reading twice -/

/-- The same surroundings, but for scopes in between. -/
def Lift.inserting (base : Nat) (made : Array Scope) : Lift :=
  ⟨.inserting base made, 0, { heap := {} }⟩

theorem Lift.machine_inserting (base : Nat) (made : Array Scope) (m : Machine) :
    (Lift.inserting base made).machine m = { m with heap := m.heap.inserted base made } := by
  unfold machine inserting
  simp [Heap.Morphism.inserting]

/-- Two values are the same, or blocks of scopes that are new to their heaps. -/
def SameRead (h h₁ : Heap) (v v₁ : Value) : Prop :=
  v₁ = v ∨ ∃ c c₁, v = .block c ∧ v₁ = .block c₁ ∧ h.scopes.size ≤ c ∧ h₁.scopes.size ≤ c₁

/-- Two outcomes, from `h` and from `h₁`, are the same but for the scopes that
they have made. -/
def Repeats (h h₁ : Heap) : Outcome Value → Outcome Value → Prop
  | .ok v m, .ok v₁ m₁ => SameRead h h₁ v v₁ ∧ m₁.diagnostics = m.diagnostics
  | .error halt m, .error halt₁ m₁ => halt₁ = halt ∧ m₁.diagnostics = m.diagnostics
  | _, _ => False

/-- Where blocks refer to scopes of the heap, more empty scopes change
nothing. -/
theorem eval_opened (limit : Int) {e : ScopeId} (n : Node) {m : Machine} {h₁ : Heap}
    (ho : m.heap.Opens h₁) (hclosed : m.heap.Closed) (he : e < m.heap.scopes.size) :
    Repeats m.heap h₁ (eval limit e n m) (eval limit e n { m with heap := h₁ }) := by
  have hsize := h₁.size_scopesFrom m.heap.scopes.size
  have hle := ho.size_le
  have hcarried := (((Lift.inserting m.heap.scopes.size
    (h₁.scopesFrom m.heap.scopes.size)).eval_carries limit).1 e n m (Nat.le_refl _)
      fun _ _ => trivial).1
  rw [Lift.machine_inserting, ho.eq_inserted hclosed] at hcarried
  rw [show limit + ((Lift.inserting _ _).levels : Int) = limit from Int.add_zero limit,
    show (Lift.inserting _ _).heap.scope e = e from shift_of_lt he] at hcarried
  rw [hcarried]
  rcases eval limit e n m with ⟨v, m'⟩ | ⟨halt, m'⟩
  · refine ⟨?_, ?_⟩
    · -- a block made on the way has another number, if more scopes were made before
      by_cases hnew : ∃ c, v = .block c ∧ m.heap.scopes.size ≤ c
      · obtain ⟨c, rfl, hc⟩ := hnew
        refine .inr ⟨c, _, rfl, rfl, hc, ?_⟩
        show _ ≤ shift _ _ c
        rw [shift_of_ge hc]
        omega
      · refine .inl (Value.rename_shift _ fun c hc => ?_)
        exact Nat.lt_of_not_le fun hle => hnew ⟨c, hc, hle⟩
    · rw [Lift.machine_inserting]
  · refine ⟨halt.deepen_zero, ?_⟩
    rw [Lift.machine_inserting]

/-- **Reading never writes and is repeatable.**  The evaluation of a tree
without assignments leaves every scope as it was, whatever its outcome, and the
scopes that it makes are empty.  From the heap that it leaves, a second
evaluation comes to the same outcome with the same diagnostics, and to the same
value unless that is a block which it has made. -/
theorem reading_repeatable (tree : Node) (htree : tree.Reads) (limit : Int) (e : ScopeId)
    (m : Machine) :
    let first := eval limit e tree m
    m.heap.Opens (after first).heap ∧
      (m.heap.Closed → e < m.heap.scopes.size →
        Repeats m.heap (after first).heap first
          (eval limit e tree { m with heap := (after first).heap })) := by
  intro first
  have ho := (reading_opens limit).1 e tree m htree
  exact ⟨ho, fun hclosed he => eval_opened limit tree ho hclosed he⟩

/-- A block is compared with a member of a name that nobody binds. -/
theorem reading_repeatable_past_fault :
    let absent : Node := .member (.identifier "x") (.identifier "y")
    let tree : Node := .binary (.block [absent]) "==" absent
    let m : Machine := { heap := .initial }
    let first := eval 4 0 tree m
    tree.Reads ∧ m.heap.Closed ∧ 0 < m.heap.scopes.size ∧ m.heap.Opens (after first).heap ∧
      Repeats m.heap (after first).heap first
        (eval 4 0 tree { m with heap := (after first).heap }) := by
  intro absent tree m first
  have htree : tree.Reads := by
    unfold Node.Reads
    decide
  have hclosed : m.heap.Closed := .of_unbound Heap.own?_initial
  have he : 0 < m.heap.scopes.size := Nat.one_pos
  obtain ⟨ho, hrepeats⟩ := reading_repeatable tree htree 4 0 m
  exact ⟨htree, hclosed, he, ho, hrepeats hclosed he⟩

end BlockScript
