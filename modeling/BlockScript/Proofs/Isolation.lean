/-
BlockScript/Proofs/Isolation.lean

Blocks are lexically isolated.

A member assignment writes into the table of any scope that it can reach as a
block, without regard to the chain it is on.  What a block does to the scopes
around it therefore depends on aliasing: a scope is *unaliased* if no block
that is bound anywhere is the scope or one around it.  In such a scope names
come only from assignments to plain names, and these bind a new name in the
scope at hand, if it resolves to nothing (`Evolves.added_name`):

    own? a name = none before, ≠ none after
      →  a = e  and  resolve? e name = none before.

A block has a scope of its own, so it adds no name around it; and a name that
resolves to a constant is never bound anew in front of it.

A scope becomes a block only when the last of its statements is done, so the
scopes in which programs are evaluated are unaliased.
-/
import BlockScript.Proofs.Calls
import BlockScript.Proofs.Growth

namespace BlockScript

namespace Heap

/-! ### Unaliased scopes -/

/-- No block that is bound anywhere is the scope or one around it. -/
def Unaliased (h : Heap) (e : ScopeId) : Prop :=
  ∀ a ∈ h.chain e, ¬ h.Wraps a

/-- The scopes in which programs are evaluated. -/
structure Isolated (h : Heap) (e : ScopeId) : Prop where
  closed : h.Closed
  lt_size : e < h.scopes.size
  unaliased : h.Unaliased e

theorem Grows.chain_eq {h h' : Heap} {e : ScopeId} (hg : Grows h h') (he : e < h.scopes.size) :
    h'.chain e = h.chain e := by
  apply chain_congr
  intro s hs
  exact hg.parent s (Nat.lt_of_le_of_lt hs he)

/-- What was not a block does not become one, unless it is new. -/
theorem Evolves.not_wraps {h h' : Heap} {e a : ScopeId} (hev : Evolves e h h')
    (ha : a < h.scopes.size) (hfree : ¬ h.Wraps a) : ¬ h'.Wraps a := by
  intro hw
  rcases hev.known_of_wraps hw a rfl with hold | ⟨hge, -⟩
  · exact hfree hold
  · exact Nat.not_le_of_lt ha hge

/-- Evaluations keep a scope isolated. -/
theorem Isolated.evolved {h h' : Heap} {e : ScopeId} (hi : h.Isolated e)
    (hev : Evolves e h h') : h'.Isolated e where
  closed := hi.closed.evolves hev
  lt_size := Nat.lt_of_lt_of_le hi.lt_size hev.size_le
  unaliased := by
    intro a ha
    rw [hev.grows.chain_eq hi.lt_size] at ha
    exact hev.not_wraps (Nat.lt_of_le_of_lt (le_of_mem_chain ha) hi.lt_size) (hi.unaliased a ha)

/-- The chain of a new scope is that of the scope around it, behind the new one. -/
theorem chain_extend {h : Heap} {e : ScopeId} (he : e < h.scopes.size) :
    (h.extend e).2.chain h.scopes.size = h.scopes.size :: h.chain e := by
  rw [chain, parent?_extend, if_pos rfl]
  dsimp only
  rw [if_pos he, (grows_extend h e).chain_eq he]

/-- A scope that has just been opened is no block yet. -/
theorem Isolated.opened {h : Heap} {e : ScopeId} (hi : h.Isolated e) :
    (h.extend e).2.Isolated h.scopes.size where
  closed := hi.closed.extend e
  lt_size := by
    rw [size_extend]
    exact Nat.lt_succ_self _
  unaliased := by
    intro a ha hw
    have hold : h.Wraps a := wraps_extend_iff.1 hw
    rw [chain_extend hi.lt_size] at ha
    rcases List.mem_cons.1 ha with rfl | ha
    · exact Nat.lt_irrefl _ (hi.closed _ hold)
    · exact hi.unaliased a ha hold

theorem Isolated.scopeFrom {h : Heap} {e : ScopeId} (hi : h.Isolated e) (n : Node) :
    (n.scopeFrom e h).2.Isolated (n.scopeFrom e h).1 := by
  by_cases hblock : n.form? = some .block
  · rw [Node.scopeFrom_block hblock]
    exact hi.opened
  · rw [Node.scopeFrom_of_ne_block hblock]
    exact hi

theorem own?_addRoot (h : Heap) (e : ScopeId) (name : String) :
    h.addRoot.2.own? e name = h.own? e name := by
  rw [own?, addRoot, table_addScope]
  split
  next he => rw [own?_of_size_le (Nat.le_of_eq he.symm)]; rfl
  next => rfl

/-- A new root is isolated. -/
theorem Closed.isolated_root {h : Heap} (hclosed : h.Closed) :
    h.addRoot.2.Isolated h.addRoot.1 := by
  have hsize : h.addRoot.2.scopes.size = h.scopes.size + 1 := Array.size_push _
  have hwraps : ∀ c, h.addRoot.2.Wraps c → c < h.scopes.size := by
    rintro c ⟨s, name, b, hb, hc⟩
    rw [own?_addRoot] at hb
    exact hclosed c ⟨s, name, b, hb, hc⟩
  have hchain : h.addRoot.2.chain h.addRoot.1 = [h.addRoot.1] := by
    rw [chain, addRoot, parent?_addScope]
    simp [addScope]
  refine ⟨?_, ?_, ?_⟩
  · intro c hc
    rw [hsize]
    exact Nat.lt_succ_of_lt (hwraps c hc)
  · rw [hsize]
    exact Nat.lt_succ_self _
  · intro a ha hw
    rw [hchain, List.mem_singleton] at ha
    rw [ha] at hw
    exact Nat.lt_irrefl _ (hwraps _ hw)

/-! ### Where new names come from -/

theorem Grows.own?_eq_none {h h' : Heap} {s : ScopeId} {name : String} (hg : Grows h h')
    (hnone : h'.own? s name = none) : h.own? s name = none := by
  have hnot : name ∉ (h'.table s).names := Table.lookup_eq_none_iff_not_mem.1 hnone
  exact Table.lookup_eq_none_iff_not_mem.2 fun hmem => hnot ((hg.names s).mem hmem)

/-- A free slot that is set belongs to a block, or it is in the starting scope
and its name resolved to nothing. -/
theorem Settable.fresh {h h' : Heap} {e a : ScopeId} {name : String}
    (hs : Settable e h h' a name) (hg : Grows h h') (ha : a < h.scopes.size)
    (he : e < h.scopes.size) (hfree : ¬ h.Wraps a) (hnone : h'.own? a name = none) :
    a = e ∧ h.resolve? e name = none := by
  rcases hs.place with hhome | hknown
  · rcases hr : h'.resolve? e name with - | s
    · rw [home, hr] at hhome
      refine ⟨hhome, ?_⟩
      rw [resolve?_eq_none_iff, hg.chain_eq he] at hr
      exact resolve?_eq_none_iff.2 fun b hb => hg.own?_eq_none (hr b hb)
    · -- the name resolves to `a`, so the slot is not free
      rw [home, hr] at hhome
      obtain rfl : a = s := hhome
      have hsome := own?_isSome_of_resolve? hr
      rw [hnone] at hsome
      cases hsome
  · -- the scope would have to be a bound block or a new one
    rcases hknown a rfl with hw | ⟨hge, -⟩
    · exact absurd hw hfree
    · exact absurd hge (Nat.not_le_of_lt ha)

/-- A name that is new after one slot was set is the name of that slot. -/
theorem Settable.added {h h' h'' : Heap} {e a s : ScopeId} {name other : String} {b : Binding}
    (hs : Settable e h h' s other) (hg : Grows h h')
    (hset : h''.own? a name
      = if s = a ∧ a < h'.scopes.size ∧ name = other then some b else h'.own? a name)
    (ha : a < h.scopes.size) (he : e < h.scopes.size) (hfree : ¬ h.Wraps a)
    (hnone : h'.own? a name = none) (hafter : h''.own? a name ≠ none) :
    a = e ∧ h.resolve? e name = none := by
  rw [hset] at hafter
  split at hafter
  next hslot =>
    obtain ⟨rfl, -, rfl⟩ := hslot
    exact hs.fresh hg ha he hfree hnone
  next => exact absurd hnone hafter

/-- An evaluation adds names only to its own scope, and only such as resolved
to nothing; other scopes have to be blocks. -/
theorem Evolves.added_name {h h' : Heap} {e a : ScopeId} {name : String}
    (hev : Evolves e h h') (ha : a < h.scopes.size) (he : e < h.scopes.size)
    (hfree : ¬ h.Wraps a) (hbefore : h.own? a name = none) (hafter : h'.own? a name ≠ none) :
    a = e ∧ h.resolve? e name = none := by
  -- in each case the name is new in the last step, or it was added before
  induction hev with
  | refl e h => exact absurd hbefore hafter
  | @set e h h' s other b hev hs _ ih =>
    by_cases hnone : h'.own? a name = none
    · exact hs.added hev.grows (own?_write _ _ _ _ _ _) ha he hfree hnone hafter
    · exact ih ha he hfree hbefore hnone
  | @bindNew e h h' s p other hev hs _ ih =>
    by_cases hnone : h'.own? a name = none
    · exact hs.added hev.grows (own?_withBlock _ _ _ _ _ _) ha he hfree hnone hafter
    · exact ih ha he hfree hbefore hnone
  | @inside e h h' h'' hev hinner ih ihInner =>
    by_cases hnone : h'.own? a name = none
    · -- the inner scope is newer than `a`, so nothing is added there
      have ha' : a < h'.scopes.size := Nat.lt_of_lt_of_le ha hev.size_le
      have hinnerFree : ¬ (h'.extend e).2.Wraps a := fun hw =>
        hev.not_wraps ha hfree (wraps_extend_iff.1 hw)
      obtain ⟨rfl, -⟩ := ihInner (by rw [size_extend]; exact Nat.lt_succ_of_lt ha')
        (by rw [size_extend]; exact Nat.lt_succ_self _) hinnerFree (by rwa [own?_extend]) hafter
      exact absurd ha' (Nat.lt_irrefl _)
    · exact ih ha he hfree hbefore hnone

/-- A table that grows without a new name has the same names. -/
theorem Grows.names_eq {h h' : Heap} {s : ScopeId} (hg : Grows h h')
    (hnone : ∀ name, h.own? s name = none → h'.own? s name = none) :
    (h'.table s).names = (h.table s).names := by
  obtain ⟨added, hadded⟩ := hg.names s
  rcases added with - | ⟨name, added⟩
  · rw [← hadded, List.append_nil]
  · -- a first added name would be bound twice
    have hnodup : (h'.table s).names.Nodup := (h'.table s).nodup
    rw [← hadded, List.nodup_append] at hnodup
    have hnot : name ∉ (h.table s).names := fun hmem =>
      hnodup.2.2 name hmem name List.mem_cons_self rfl
    have hfree : h'.own? s name = none :=
      hnone name (Table.lookup_eq_none_iff_not_mem.2 hnot)
    have hmem : name ∈ (h'.table s).names := by
      rw [← hadded]
      exact List.mem_append_right _ List.mem_cons_self
    exact absurd hmem (Table.lookup_eq_none_iff_not_mem.1 hfree)

/-- In a scope of its own, a block adds no name to the scopes around it. -/
theorem Evolves.names_around {h h' : Heap} {e a : ScopeId} (he : e < h.scopes.size)
    (hun : h.Unaliased e) (ha : a ∈ h.chain e)
    (hev : Evolves h.scopes.size (h.extend e).2 h') :
    (h'.table a).names = (h.table a).names := by
  have hlt : a < h.scopes.size := Nat.lt_of_le_of_lt (le_of_mem_chain ha) he
  have hfree : ¬ (h.extend e).2.Wraps a := fun hw => hun a ha (wraps_extend_iff.1 hw)
  have hsize : (h.extend e).2.scopes.size = h.scopes.size + 1 := size_extend h e
  apply ((grows_extend h e).trans hev.grows).names_eq
  intro name hnone
  by_contra hsome
  obtain ⟨rfl, -⟩ := hev.added_name (by rw [hsize]; exact Nat.lt_succ_of_lt hlt)
    (by rw [hsize]; exact Nat.lt_succ_self _) hfree (by rwa [own?_extend]) hsome
  exact Nat.lt_irrefl _ hlt

/-- A name that resolves goes on resolving to the same scope. -/
theorem Evolves.resolve?_eq {h h' : Heap} {e s : ScopeId} {name : String}
    (he : e < h.scopes.size) (hun : h.Unaliased e) (hev : Evolves e h h')
    (hs : h.resolve? e name = some s) : h'.resolve? e name = some s := by
  rw [← hs]
  apply resolve?_congr (hev.grows.chain_eq he)
  intro a ha
  rcases hb : h.own? a name with - | b
  · -- nothing was added here, for the name did resolve
    have hnone : h'.own? a name = none := by
      by_contra hsome
      have hlt : a < h.scopes.size := Nat.lt_of_le_of_lt (le_of_mem_chain ha) he
      obtain ⟨-, hunresolved⟩ := hev.added_name hlt he (hun a ha) hb hsome
      rw [hs] at hunresolved
      cases hunresolved
    rw [hnone]
  · have hkept : h'.own? a name ≠ none := fun hnone => by
      rw [hev.grows.own?_eq_none hnone] at hb
      cases hb
    rw [Option.isSome_iff_ne_none.2 hkept]
    rfl

end Heap

/-! ### Evaluating blocks, and sequences of runs -/

/-- A block that is evaluated at all evolves the heap from a new scope. -/
theorem eval_block_evolves (limit : Int) (e : ScopeId) {n : Node} (m : Machine)
    (hn : n.form? = some .block) :
    (after (eval limit e n m)).heap = m.heap ∨
      Heap.Evolves m.heap.scopes.size (m.heap.extend e).2 (after (eval limit e n m)).heap := by
  by_cases hdeep : limit ≤ m.depth
  · rw [eval_of_tooDeep hdeep]
    exact .inl rfl
  · refine .inr ?_
    have hlt : m.depth < limit := Int.not_le.1 hdeep
    have hev := Heap.evalAll_evolves limit (n.scopeFrom e m.heap).1 n.operands (m.inside e n)
    have hscope : n.scopeFrom e m.heap = m.heap.extend e := Node.scopeFrom_block hn e m.heap
    have hheap : (m.inside e n).heap = (m.heap.extend e).2 := by rw [Machine.inside, hscope]
    rcases hops : evalAll limit (n.scopeFrom e m.heap).1 n.operands (m.inside e n)
      with ⟨values, m'⟩ | ⟨halt, m'⟩
    · rw [hops, hheap, hscope] at hev
      rw [eval_of_operands hlt hops, after_left, Machine.leave_heap, after_recover_heap,
        conclude_block hn]
      exact hev
    · rw [hops, hheap, hscope] at hev
      rw [eval_of_halted hlt hops]
      exact hev

/-- The heap after runs against one root, each with its nesting limit and its
tree. -/
def runAll (root : ScopeId) (runs : List (Int × Node)) (h : Heap) : Heap :=
  runs.foldl (fun h r => (after (run r.1 root r.2 h)).heap) h

theorem runAll_evolves (root : ScopeId) (runs : List (Int × Node)) (h : Heap) :
    Heap.Evolves root h (runAll root runs h) := by
  unfold runAll
  induction runs generalizing h with
  | nil => exact .refl root h
  | cons r runs ih => exact (Heap.run_evolves r.1 root r.2 h).trans (ih _)

/-- **Blocks are lexically isolated.**  First, from a new root on, every run
finds its root unaliased, and so is the scope of every call of the evaluator;
the log shows that these are all the calls.  Second, a block that is evaluated
in an unaliased scope adds no name to it or to a scope around it.  Third,
whatever is evaluated in an unaliased scope, a name that resolves to a
constant goes on resolving to that scope and that constant. -/
theorem blocks_isolated :
    (∀ (h : Heap) (runs : List (Int × Node)), h.Closed →
      let root := h.addRoot.1
      let h' := runAll root runs h.addRoot.2
      h'.Unaliased root ∧ ∀ (limit : Int) (tree : Node),
        (after (run limit root tree h')).entries
          = (runCalls limit root tree h').filterMap (Call.entry? limit) ∧
        ∀ c ∈ runCalls limit root tree h', c.machine.heap.Unaliased c.scope) ∧
    (∀ (limit : Int) (e : ScopeId) (tree : Node) (m : Machine),
      e < m.heap.scopes.size → m.heap.Unaliased e → tree.kind = "block" →
      ∀ a ∈ m.heap.chain e,
        ((after (eval limit e tree m)).heap.table a).names = (m.heap.table a).names) ∧
    (∀ (limit : Int) (e : ScopeId) (tree : Node) (m : Machine) (name : String) (s : ScopeId)
      (v : Value), e < m.heap.scopes.size → m.heap.Unaliased e →
      m.heap.resolve? e name = some s → m.heap.own? s name = some ⟨v, true⟩ →
      (after (eval limit e tree m)).heap.resolve? e name = some s ∧
        (after (eval limit e tree m)).heap.own? s name = some ⟨v, true⟩) := by
  refine ⟨?_, ?_, ?_⟩
  · intro h runs hclosed root h'
    have hroot : h'.Isolated root :=
      hclosed.isolated_root.evolved (runAll_evolves root runs h.addRoot.2)
    refine ⟨hroot.unaliased, fun limit tree => ⟨entries_run limit root tree h', ?_⟩⟩
    intro c hc
    -- a call is in the scope of the program or in one that a block has opened
    have hcall := runCalls_induction (P := fun e h => h.Isolated e)
      (fun e n h hi => hi.scopeFrom n) (fun e h h' hi hev => hi.evolved hev) hroot c hc
    exact hcall.unaliased
  · intro limit e tree m he hun hkind a ha
    have hn : tree.form? = some .block := Node.form?_eq_some_iff.2 hkind
    rcases eval_block_evolves limit e m hn with hsame | hev
    · rw [hsame]
    · exact hev.names_around he hun ha
  · intro limit e tree m name s v he hun hs hv
    have hev := Heap.eval_evolves limit e tree m
    exact ⟨hev.resolve?_eq he hun hs, hev.grows.constant s name v hv⟩

/-- Beside a constant `k`, a program that binds `x` is evaluated as a block: it
adds no name, and `k` still resolves.  Run twice against a new root, it has
only unaliased calls. -/
theorem blocks_isolated_beside_constant :
    let h : Heap := ({} : Heap).addRoot.2.write 0 "k" ⟨.boolean true, true⟩
    let program : Node := .program [.assign (.identifier "x") ":=" (.truth true)]
    let h' := (after (eval 5 0 program { heap := h })).heap
    (∀ c ∈ runCalls 5 0 program (runAll 0 [(5, program)] ({} : Heap).addRoot.2),
      c.machine.heap.Unaliased c.scope) ∧
    (h'.table 0).names = ["k"] ∧
    h'.resolve? 0 "k" = some 0 ∧ h'.own? 0 "k" = some ⟨.boolean true, true⟩ := by
  intro h program h'
  have hclosed : ({} : Heap).Closed :=
    .of_unbound fun s name => Heap.own?_of_size_le (Nat.zero_le s) name
  have hun : h.Unaliased 0 := by
    intro a ha hw
    obtain rfl : a = 0 := Nat.le_zero.1 (Heap.le_of_mem_chain ha)
    rcases hw.of_write with hb | hw
    · cases hb
    · exact hclosed.isolated_root.unaliased 0 (Heap.mem_chain_self _ 0) hw
  have hresolve : h.resolve? 0 "k" = some 0 := by
    rw [Heap.resolve?]
    exact if_pos (by decide)
  obtain ⟨hruns, hnames, hconst⟩ := blocks_isolated
  refine ⟨((hruns {} [(5, program)] hclosed).2 5 program).2, ?_, ?_⟩
  · exact hnames 5 0 program { heap := h } (by decide) hun rfl 0 (h.mem_chain_self 0)
  · exact hconst 5 0 program { heap := h } "k" 0 (.boolean true) (by decide) hun hresolve
      (by decide)

end BlockScript
