/-
BlockScript/Proofs/Footprint.lean

What an assignment to a member writes, and what it leaves alone.

If all names before the last are blocks, the last name is bound in the
innermost of them, and that is all.  Otherwise the first name that is no block
gets a new one, and behind it the walk makes one scope for each further name:

    h:   s            h':   s
                            | name
                            size      size + 1   ...   size + k
                              next ->    ...    ->       last = b

So of the tables that were there before, one slot is set (`SetsSlot`), and the
new scopes are a chain that hangs on it (`MakesChain`).
-/
import BlockScript.Proofs.Descent
import BlockScript.Proofs.Evolution
import BlockScript.Proofs.Frame

namespace BlockScript.Heap

/-! ### New scopes -/

section WithBlocks

variable (h : Heap) (s p : ScopeId)

theorem lt_size_withBlock {f : ScopeId} (hf : f < h.scopes.size) (name : String) :
    f < (h.withBlock s name p).scopes.size := by
  rw [size_withBlock]
  exact Nat.lt_succ_of_lt hf

/-- There is one new scope for each name. -/
theorem size_withBlocks (names : List String) :
    (h.withBlocks s p names).scopes.size = h.scopes.size + names.length := by
  induction names generalizing h s p with
  | nil => rfl
  | cons name names ih =>
    rw [withBlocks, ih, size_withBlock, List.length_cons, Nat.add_assoc, Nat.add_comm 1]

/-- Nested blocks touch no table from before but the one that holds them. -/
theorem table_withBlocks_of_ne {f : ScopeId} (hf : f < h.scopes.size) (hne : f ≠ s)
    (names : List String) : (h.withBlocks s p names).table f = h.table f := by
  induction names generalizing h s p with
  | nil => rfl
  | cons name names ih =>
    rw [withBlocks, ih _ _ _ (h.lt_size_withBlock s p hf name) (Nat.ne_of_lt hf), table_withBlock]
    exact if_neg fun heq => hne heq.1.symm

theorem parent?_withBlocks_of_lt {f : ScopeId} (hf : f < h.scopes.size) (names : List String) :
    (h.withBlocks s p names).parent? f = h.parent? f := by
  induction names generalizing h s p with
  | nil => rfl
  | cons name names ih =>
    rw [withBlocks, ih _ _ _ (h.lt_size_withBlock s p hf name), parent?_withBlock]
    exact if_neg (Nat.ne_of_lt hf)

theorem closures_withBlocks (names : List String) :
    (h.withBlocks s p names).closures = h.closures := by
  induction names generalizing h s p with
  | nil => rfl
  | cons name names ih => exact ih (h.withBlock s name p) h.scopes.size h.scopes.size

theorem sequences_withBlocks (names : List String) :
    (h.withBlocks s p names).sequences = h.sequences := by
  induction names generalizing h s p with
  | nil => rfl
  | cons name names ih => exact ih (h.withBlock s name p) h.scopes.size h.scopes.size

variable (name : String) (inner : List String)

/-- The first of the nested blocks stands in the table of `s`. -/
theorem table_withBlocks_self (hs : s < h.scopes.size) :
    (h.withBlocks s p (name :: inner)).table s
      = (h.table s).set name ⟨.block h.scopes.size, false⟩ := by
  rw [withBlocks, table_withBlocks_of_ne _ _ _ (h.lt_size_withBlock s p hs name)
    (Nat.ne_of_lt hs), table_withBlock, if_pos ⟨rfl, hs⟩]

/-- Every other one stands alone in the table of the one before. -/
theorem table_withBlocks_new {i : Nat} {next : String} (hi : inner[i]? = some next) :
    (h.withBlocks s p (name :: inner)).table (h.scopes.size + i)
      = Table.empty.set next ⟨.block (h.scopes.size + i + 1), false⟩ := by
  induction inner generalizing h s p name i with
  | nil => cases hi
  | cons first inner ih =>
    rw [withBlocks]
    have hsize := size_withBlock h s name p
    -- the first of them is made here, the others within it
    rcases i with - | i
    · obtain rfl : first = next := Option.some.inj hi
      rw [Nat.add_zero, table_withBlocks_self _ _ _ _ _ (by rw [hsize]; exact Nat.lt_succ_self _),
        table_withBlock_size, hsize]
    · have hnext := ih (h.withBlock s name p) h.scopes.size h.scopes.size first hi
      rw [hsize, Nat.add_assoc, Nat.add_comm 1] at hnext
      exact hnext

theorem parent?_withBlocks_first :
    (h.withBlocks s p (name :: inner)).parent? h.scopes.size = some p := by
  rw [withBlocks, parent?_withBlocks_of_lt _ _ _ (by rw [size_withBlock]; exact Nat.lt_succ_self _),
    parent?_withBlock, if_pos rfl]

/-- Each new scope but the first is inside the one before. -/
theorem parent?_withBlocks_new {i : Nat} (hi : i < inner.length) :
    (h.withBlocks s p (name :: inner)).parent? (h.scopes.size + i + 1)
      = some (h.scopes.size + i) := by
  induction inner generalizing h s p name i with
  | nil => cases hi
  | cons first inner ih =>
    rw [withBlocks]
    have hsize := size_withBlock h s name p
    rcases i with - | i
    · have hfirst := parent?_withBlocks_first (h.withBlock s name p) h.scopes.size h.scopes.size
        first inner
      rw [hsize] at hfirst
      exact hfirst
    · have hnext := ih (h.withBlock s name p) h.scopes.size h.scopes.size first
        (Nat.lt_of_succ_lt_succ hi)
      rw [hsize, Nat.add_assoc h.scopes.size 1, Nat.add_comm 1] at hnext
      exact hnext

end WithBlocks

/-! ### One slot is set -/

/-- Of the scopes of `h`, one slot has been set in `h'`: it holds the binding
in its old position in the table or at the end, and nothing else has changed. -/
structure SetsSlot (h h' : Heap) (s : ScopeId) (name : String) (b : Binding) : Prop where
  lt_size : s < h.scopes.size
  table_self : h'.table s = (h.table s).set name b
  table_eq : ∀ f, f < h.scopes.size → f ≠ s → h'.table f = h.table f
  parent?_eq : ∀ f, f < h.scopes.size → h'.parent? f = h.parent? f
  closures_eq : h'.closures = h.closures
  sequences_eq : h'.sequences = h.sequences

/-- A write sets its slot, and that is all. -/
theorem setsSlot_write {h : Heap} {s : ScopeId} (hs : s < h.scopes.size) (name : String)
    (b : Binding) : h.SetsSlot (h.write s name b) s name b where
  lt_size := hs
  table_self := by rw [table_write, if_pos ⟨rfl, hs⟩]
  table_eq f _ hne := by
    rw [table_write]
    exact if_neg fun heq => hne heq.1.symm
  parent?_eq f _ := parent?_write h s f name b
  closures_eq := rfl
  sequences_eq := rfl

/-- Where blocks are made, the slot of the first one is set; the last name is
bound in a new scope. -/
theorem setsSlot_withBlocks {h : Heap} {s : ScopeId} (hs : s < h.scopes.size) (p : ScopeId)
    (name : String) (inner : List String) (last : String) (b : Binding) :
    h.SetsSlot ((h.withBlocks s p (name :: inner)).write (h.scopes.size + inner.length) last b)
      s name ⟨.block h.scopes.size, false⟩ := by
  -- the last name is bound in a scope that was not there before
  have hold : ∀ f, f < h.scopes.size →
      ((h.withBlocks s p (name :: inner)).write (h.scopes.size + inner.length) last b).table f
        = (h.withBlocks s p (name :: inner)).table f := by
    intro f hf
    rw [table_write]
    apply if_neg
    rintro ⟨rfl, -⟩
    exact Nat.not_le_of_lt hf (Nat.le_add_right _ _)
  exact {
    lt_size := hs
    table_self := (hold s hs).trans (table_withBlocks_self h s p name inner hs)
    table_eq := fun f hf hne => (hold f hf).trans (table_withBlocks_of_ne h s p hf hne _)
    parent?_eq := fun f hf =>
      (parent?_write _ _ f last b).trans (parent?_withBlocks_of_lt h s p hf _)
    closures_eq := closures_withBlocks h s p _
    sequences_eq := sequences_withBlocks h s p _ }

/-! ### The scopes that are made -/

/-- The scopes of `h'` that are not in `h` form a chain: there is one for each
of the names, the first is inside `p` and every other inside the one before,
and each holds its name alone, bound to the block of the next one as mutable,
and the last to `b`. -/
structure MakesChain (h h' : Heap) (p : ScopeId) (names : List String) (b : Binding) : Prop where
  size_eq : h'.scopes.size = h.scopes.size + names.length
  table_new : ∀ (i : Nat) (name : String), names[i]? = some name →
    h'.table (h.scopes.size + i) = Table.empty.set name
      (if i + 1 < names.length then ⟨.block (h.scopes.size + i + 1), false⟩ else b)
  parent?_first : h'.parent? h.scopes.size = some p
  parent?_next : ∀ i : Nat, i + 1 < names.length →
    h'.parent? (h.scopes.size + i + 1) = some (h.scopes.size + i)

/-- The scopes that are made for a path form a chain, with the binding at its end. -/
theorem makesChain_withBlocks (h : Heap) (s p : ScopeId) (name : String) (inner : List String)
    (last : String) (b : Binding) :
    h.MakesChain ((h.withBlocks s p (name :: inner)).write (h.scopes.size + inner.length) last b)
      p (inner ++ [last]) b where
  size_eq := by
    rw [size_write, size_withBlocks, List.length_cons, List.length_append, List.length_singleton]
  table_new i next hi := by
    rw [table_write, size_withBlocks, List.length_append, List.length_singleton]
    rcases Nat.lt_or_ge i inner.length with hlt | hge
    · -- a block on the way: the last name is bound further in
      rw [List.getElem?_append_left hlt] at hi
      rw [if_neg fun heq => Nat.ne_of_gt hlt (Nat.add_left_cancel heq.1), if_pos (by omega)]
      exact table_withBlocks_new h s p name inner hi
    · obtain rfl : i = inner.length := by
        have := (List.getElem?_eq_some_iff.1 hi).1
        simp at this
        omega
      obtain rfl : last = next := by simpa using hi
      rw [if_pos ⟨rfl, by simp⟩, if_neg (by omega), table_withBlocks_innermost]
  parent?_first := by
    rw [parent?_write]
    exact parent?_withBlocks_first h s p name inner
  parent?_next i hi := by
    rw [parent?_write]
    exact parent?_withBlocks_new h s p name inner (by simpa using hi)

/-! ### The frame of an assignment -/

/-- In a closed heap, blocks lead to scopes of the heap. -/
theorem descend_lt_size {h : Heap} {p q : Place} {before : List String} (hclosed : h.Closed)
    (hp : p.scope < h.scopes.size) (hd : h.descend p before = some q) :
    q.scope < h.scopes.size := by
  induction before generalizing p with
  | nil =>
    cases hd
    exact hp
  | cons name before ih =>
    obtain ⟨inner, mark, hb, hd⟩ := exists_block_of_descend hd
    rw [look_eq_own?_home] at hb
    exact ih (hclosed inner (.of_own? hb)) hd

/-- **What an assignment to a member writes.**  Of all tables that were there
before, a successful assignment sets one slot.  If all names before the last
are blocks, it is that of the last name in the innermost of them, which now
holds the binding, and no scope is made.  Otherwise it is that of the first
name that is no block, in the table where the name resolves or, if it does not,
in the scope where it was looked for; it now holds a new mutable block, and
there is one new scope for each name behind it. -/
theorem member_assignment_frame {h h' : Heap} {e : ScopeId} {segments : List String}
    {constant : Bool} {v : Value} (hclosed : h.Closed) (he : e < h.scopes.size)
    (hlong : 2 ≤ segments.length)
    (hok : assignMember e segments ⟨v, constant⟩ h = .ok () h') :
    (∃ q last, h.Meets (.start e constant) (segments.map strip) q last [] ∧
      h.SetsSlot h' q.scope last ⟨v, constant⟩ ∧ h'.scopes.size = h.scopes.size) ∨
    ∃ q name rest, rest ≠ [] ∧ h.Meets (.start e constant) (segments.map strip) q name rest ∧
      (∀ inner mark, h.look q name ≠ some ⟨.block inner, mark⟩) ∧
      h.SetsSlot h' (h.home q.reach q.scope name) name ⟨.block h.scopes.size, false⟩ ∧
      h.MakesChain h' q.scope rest ⟨v, constant⟩ := by
  cases memberSet_of_ok hlong hok with
  | @bound q last hm hbind =>
    obtain ⟨before, hnames, hd⟩ := hm
    have hq : q.scope < h.scopes.size := descend_lt_size hclosed he hd
    exact .inl ⟨q, last, ⟨before, hnames, hd⟩, setsSlot_write hq last _, size_write _ _ _ _⟩
  | @made q name last inner hm hmut hf =>
    obtain ⟨before, hnames, hd⟩ := hm
    have hq : q.scope < h.scopes.size := descend_lt_size hclosed he hd
    refine .inr ⟨q, name, inner ++ [last], by simp, ⟨before, hnames, hd⟩, ?_,
      setsSlot_withBlocks (home_lt_size hq) q.scope name inner last _,
      makesChain_withBlocks h _ q.scope name inner last _⟩
    -- what is free is no block
    intro c mark hb
    rcases hf with hnone | hvoid
    · rw [hnone] at hb
      cases hb
    · rw [hvoid] at hb
      cases hb

/-- With `p` a mutable block without members, `p.q.r` is bound by setting one
slot. -/
theorem member_assignment_frame_in_block :
    let h : Heap := Heap.initial.withBlock 0 "p" 0
    ∃ h' s name b, assignMember 0 ["p", "q", "r"] ⟨.boolean true, true⟩ h = .ok () h' ∧
      h.SetsSlot h' s name b := by
  intro h
  have hclosed : h.Closed := (Closed.of_unbound own?_initial).withBlock
  have hp : h.look (.start 0 true) "p" = some ⟨.block 1, false⟩ := look_start_of_own? rfl
  have hq : h.Meets (.start 0 true) (["p", "q", "r"].map strip) ⟨.own, 1, false⟩ "q"
      ([] ++ ["r"]) :=
    ⟨["p"], by decide, descend_of_block hp⟩
  have hok := assignMember_of_free (b := ⟨.boolean true, true⟩) (by decide) hq rfl (.inl rfl)
  rcases member_assignment_frame hclosed (by decide) (by decide) hok with
    ⟨q, last, -, hset, -⟩ | ⟨q, name, rest, -, -, -, hset, -⟩
  · exact ⟨_, _, _, _, hok, hset⟩
  · exact ⟨_, _, _, _, hok, hset⟩

end BlockScript.Heap
