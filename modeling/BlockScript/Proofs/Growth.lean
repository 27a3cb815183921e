/-
BlockScript/Proofs/Growth.lean

Bindings only grow, and constants are permanent.

`Grows h h'` says that every scope of `h` is still there in `h'`: its names
stand where they stood, with new ones at most behind them, its parent is the
same, and each constant has its value.  The relation is a preorder.  Setting a
slot that holds no constant grows the heap, and so does adding a scope; these
are the steps of an evolution, so evaluations and runs grow it too.

An `Operation` is anything that a host can do to a heap from outside.
`scope_persists` says that no sequence of operations, however they end, takes
anything from a scope.
-/
import BlockScript.Proofs.Evolution

namespace BlockScript

namespace Heap

/-! ### Growing heaps -/

/-- Nothing of the scopes of `h` is lost or moved in `h'`. -/
structure Grows (h h' : Heap) : Prop where
  size_le : h.scopes.size ≤ h'.scopes.size
  names : ∀ s, (h.table s).names <+: (h'.table s).names
  parent : ∀ s, s < h.scopes.size → h'.parent? s = h.parent? s
  constant : ∀ s name v, h.own? s name = some ⟨v, true⟩ → h'.own? s name = some ⟨v, true⟩

theorem Grows.refl (h : Heap) : Grows h h :=
  ⟨Nat.le_refl _, fun _ => List.prefix_rfl, fun _ _ => rfl, fun _ _ _ hb => hb⟩

theorem Grows.trans {h₁ h₂ h₃ : Heap} (hg : Grows h₁ h₂) (hg' : Grows h₂ h₃) : Grows h₁ h₃ where
  size_le := Nat.le_trans hg.size_le hg'.size_le
  names s := (hg.names s).trans (hg'.names s)
  parent s hs := (hg'.parent s (Nat.lt_of_lt_of_le hs hg.size_le)).trans (hg.parent s hs)
  constant s name v hb := hg'.constant s name v (hg.constant s name v hb)

/-! ### The steps -/

theorem grows_extend (h : Heap) (p : ScopeId) : Grows h (h.extend p).2 where
  size_le := by rw [size_extend]; exact Nat.le_succ _
  names s := by
    have hsame : (h.extend p).2.table s = h.table s := table_extend h p s
    exact hsame ▸ List.prefix_rfl
  parent s hs := by rw [parent?_extend, if_neg (Nat.ne_of_lt hs)]
  constant s name v hb := by rw [own?_extend]; exact hb

/-- Setting a slot is harmless where no constant stands. -/
theorem grows_write {h : Heap} {s : ScopeId} {name : String} (b : Binding)
    (hmut : ∀ old, h.own? s name = some old → old.constant = false) :
    Grows h (h.write s name b) where
  size_le := Nat.le_of_eq (size_write h s name b).symm
  names f := by
    rw [table_write]
    split
    · exact Table.names_prefix_set _ name b
    · exact List.prefix_rfl
  parent f _ := parent?_write h s f name b
  constant f other v hb := by
    rw [own?_write]
    split
    next hslot =>
      -- a constant would have been in the way
      obtain ⟨rfl, -, rfl⟩ := hslot
      cases hmut _ hb
    next => exact hb

theorem grows_withBlock {h : Heap} {s : ScopeId} {name : String} (p : ScopeId)
    (hmut : ∀ old, h.own? s name = some old → old.constant = false) :
    Grows h (h.withBlock s name p) :=
  (grows_write _ hmut).trans (grows_extend _ p)

/-- An assignment takes nothing away, and a refused one does nothing. -/
theorem grows_assignOwn (e : ScopeId) (name : String) (b : Binding) (h : Heap) :
    Grows h (after (assignOwn e name b h)) := by
  rcases h.mutable_or_constant e name with hmut | ⟨v, hconst⟩
  · rw [assignOwn_of_mutable hmut]
    exact grows_write b hmut
  · rw [assignOwn_of_constant hconst]
    exact .refl h

/-- **Evaluations take nothing away.** -/
theorem Evolves.grows {e : ScopeId} {h h' : Heap} (hev : Evolves e h h') : Grows h h' := by
  induction hev with
  | refl e h => exact .refl h
  | set _ hs _ ih => exact ih.trans (grows_write _ hs.mutable)
  | bindNew _ hs _ ih => exact ih.trans (grows_withBlock _ hs.mutable)
  | inside _ _ ih ihInner => exact ih.trans ((grows_extend _ _).trans ihInner)

end Heap

/-! ### Operations from outside -/

/-- What a host can do to a heap.  An evaluation may start from any depth and
with any diagnostics, those of its context. -/
inductive Operation where
  | extend (e : ScopeId)
  | declare (e : ScopeId) (name : String) (b : Binding)
  | assignOwn (e : ScopeId) (name : String) (b : Binding)
  | resolvePath (e : ScopeId) (path : List String) (constant : Bool)
  | evaluate (limit : Int) (e : ScopeId) (tree : Node) (context : Machine)
  | run (limit : Int) (root : ScopeId) (tree : Node)
  | runConfigured (settings : Settings) (root : ScopeId) (tree : Node)

namespace Operation

/-- The heap that an operation leaves behind, whether it succeeds or fails. -/
def apply : Operation → Heap → Heap
  | extend e, h => (h.extend e).2
  | declare e name b, h => after (Heap.declare e name b h)
  | assignOwn e name b, h => after (Heap.assignOwn e name b h)
  | resolvePath e path constant, h => after (Heap.resolvePath e path constant h)
  | evaluate limit e tree context, h => (after (eval limit e tree { context with heap := h })).heap
  | run limit root tree, h => (after (BlockScript.run limit root tree h)).heap
  | runConfigured settings root tree, h =>
    (after (BlockScript.runConfigured settings root tree h)).heap

/-- Operations one after the other. -/
def applyAll (ops : List Operation) (h : Heap) : Heap :=
  ops.foldl (fun h op => op.apply h) h

/-- The scope that an operation starts from. -/
def scope : Operation → ScopeId
  | extend e | declare e _ _ | assignOwn e _ _ | resolvePath e _ _ | evaluate _ e _ _
  | run _ e _ | runConfigured _ e _ => e

/-- The value that an operation is given. -/
def value : Operation → Value
  | declare _ _ b | assignOwn _ _ b => b.value
  | _ => .void

/-- An operation adds a scope, binds its value in one table, or evolves the heap. -/
theorem apply_cases (op : Operation) (h : Heap) :
    op.apply h = (h.extend op.scope).2 ∨
    (∃ s name b, b.value = op.value ∧ op.apply h = after (Heap.assignOwn s name b h)) ∨
    Heap.Evolves op.scope h (op.apply h) := by
  cases op with
  | extend e => exact .inl rfl
  | declare e name b =>
    have hput := Heap.put_eq_assignOwn_home h .chain e name b
    exact .inr (.inl ⟨_, name, b, rfl, congrArg after hput⟩)
  | assignOwn e name b => exact .inr (.inl ⟨e, name, b, rfl, rfl⟩)
  | resolvePath e path constant =>
    exact .inr (.inr (Heap.resolvePath_evolves path constant (.refl e h)).1)
  | evaluate limit e tree context =>
    exact .inr (.inr (Heap.eval_evolves limit e tree { context with heap := h }))
  | run limit root tree => exact .inr (.inr (Heap.run_evolves limit root tree h))
  | runConfigured settings root tree =>
    exact .inr (.inr (Heap.runConfigured_evolves settings root tree h))

/-- **No operation takes anything away**, however it ends. -/
theorem grows_apply (op : Operation) (h : Heap) : Heap.Grows h (op.apply h) := by
  rcases op.apply_cases h with hadded | ⟨s, name, b, -, hbound⟩ | hev
  · rw [hadded]
    exact Heap.grows_extend h op.scope
  · rw [hbound]
    exact Heap.grows_assignOwn s name b h
  · exact hev.grows

theorem grows_applyAll (ops : List Operation) (h : Heap) : Heap.Grows h (applyAll ops h) := by
  induction ops generalizing h with
  | nil => exact .refl h
  | cons op ops ih => exact (op.grows_apply h).trans (ih (op.apply h))

end Operation

/-- **Bindings are monotone and constants are permanent.**  Whatever is done
to a heap, a scope of it keeps its names in their order, its parent, and the
value of each of its constants. -/
theorem scope_persists (ops : List Operation) {h : Heap} {s : ScopeId}
    (hs : s < h.scopes.size) :
    (h.table s).names <+: ((Operation.applyAll ops h).table s).names ∧
      (Operation.applyAll ops h).parent? s = h.parent? s ∧
      ∀ name v, h.own? s name = some ⟨v, true⟩ →
        (Operation.applyAll ops h).own? s name = some ⟨v, true⟩ := by
  have hg := Operation.grows_applyAll ops h
  exact ⟨hg.names s, hg.parent s hs, hg.constant s⟩

/-- A constant withstands being declared again, a member path through it, and
two programs that assign to it. -/
theorem scope_persists_constant :
    let h : Heap := { scopes := #[{ table := Table.empty.set "p" ⟨.void, true⟩ }] }
    let path : Node := .member (.identifier "p") (.identifier "q")
    let program : Node := .program [.assign path ":=" (.truth true)]
    let ops : List Operation :=
      [.declare 0 "p" ⟨.boolean true, false⟩, .resolvePath 0 ["p", "q"] false,
       .run 400 0 program, .evaluate 3 0 program { heap := {}, depth := 1 }]
    0 < h.scopes.size ∧ ["p"] <+: ((Operation.applyAll ops h).table 0).names ∧
      (Operation.applyAll ops h).own? 0 "p" = some ⟨.void, true⟩ := by
  intro h path program ops
  have hs : 0 < h.scopes.size := by decide
  obtain ⟨hnames, -, hconst⟩ := scope_persists ops hs
  exact ⟨hs, hnames, hconst "p" .void rfl⟩

end BlockScript
