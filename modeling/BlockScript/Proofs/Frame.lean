/-
BlockScript/Proofs/Frame.lean

What an assignment along a path leaves alone.

An assignment sets the slot of its last name and, where blocks are missing,
those of the blocks that it makes.  All but the first of these are in scopes
that it has made itself, so of the scopes that were there before only one
slot is touched, the one that is set first:

    DiffersAt (firstSet reach e path) h h'.

Looking for a name consults slots of its own: along the chain the slots of
the name in each scope, up to the one that binds it.  As long as none of these
is the one that differs, the name is found where it was.
-/
import BlockScript.Proofs.Walk

namespace BlockScript.Heap

/-! ### One slot differs -/

/-- The scopes of `h` are in `h'` as they were, but for one slot. -/
structure DiffersAt (slot : ScopeId × String) (h h' : Heap) : Prop where
  own?_eq : ∀ s name, s < h.scopes.size → (s, name) ≠ slot → h'.own? s name = h.own? s name
  parent?_eq : ∀ s, s < h.scopes.size → h'.parent? s = h.parent? s

/-- A write touches its slot only. -/
theorem differsAt_write (h : Heap) (s : ScopeId) (name : String) (b : Binding) :
    DiffersAt (s, name) h (h.write s name b) where
  own?_eq f other _ hne := by
    rw [own?_write]
    apply if_neg
    rintro ⟨rfl, -, rfl⟩
    exact hne rfl
  parent?_eq f _ := parent?_write h s f name b

/-- What happens in a scope that was made on the way touches no slot from
before, but for the one that holds it. -/
theorem DiffersAt.of_withBlock {h h' : Heap} {s p : ScopeId} {name next : String}
    (hd : DiffersAt (h.scopes.size, next) (h.withBlock s name p) h') :
    DiffersAt (s, name) h h' where
  own?_eq f other hf hne := by
    have hnew : (f, other) ≠ (h.scopes.size, next) := by
      intro heq
      exact Nat.ne_of_lt hf (congrArg Prod.fst heq)
    rw [hd.own?_eq f other (by rw [size_withBlock]; exact Nat.lt_succ_of_lt hf) hnew,
      own?_withBlock]
    apply if_neg
    rintro ⟨rfl, -, rfl⟩
    exact hne rfl
  parent?_eq f hf := by
    rw [hd.parent?_eq f (by rw [size_withBlock]; exact Nat.lt_succ_of_lt hf), parent?_withBlock,
      if_neg (Nat.ne_of_lt hf)]

theorem DiffersAt.chain_eq {slot : ScopeId × String} {h h' : Heap} {e : ScopeId}
    (hd : DiffersAt slot h h') (he : e < h.scopes.size) : h'.chain e = h.chain e := by
  apply chain_congr
  intro s hs
  exact hd.parent?_eq s (Nat.lt_of_le_of_lt hs he)

/-! ### Looking for a name -/

/-- The scopes that are consulted in looking for a name: those up to the first
that binds it. -/
def lookedInto (h : Heap) (name : String) : List ScopeId → List ScopeId
  | [] => []
  | s :: rest => s :: if (h.table s).contains name then [] else h.lookedInto name rest

/-- The slots that are consulted in looking for a name. -/
def consulted (h : Heap) : Reach → ScopeId → String → List (ScopeId × String)
  | .chain, e, name => (h.lookedInto name (h.chain e)).map (·, name)
  | .own, e, name => [(e, name)]

/-- The scopes that are consulted are scopes of the chain. -/
theorem mem_of_mem_lookedInto {h : Heap} {name : String} {l : List ScopeId} {s : ScopeId}
    (hs : s ∈ h.lookedInto name l) : s ∈ l := by
  induction l with
  | nil => cases hs
  | cons a rest ih =>
    rw [lookedInto, List.mem_cons] at hs
    rcases hs with rfl | hs
    · exact List.mem_cons_self
    · split at hs
      · cases hs
      · exact List.mem_cons_of_mem a (ih hs)

theorem mem_lookedInto_of_find? {h : Heap} {name : String} {l : List ScopeId} {s : ScopeId}
    (hs : l.find? (fun s => (h.table s).contains name) = some s) : s ∈ h.lookedInto name l := by
  induction l with
  | nil => cases hs
  | cons a rest ih =>
    rw [List.find?_cons] at hs
    rw [lookedInto]
    split at hs
    next => exact List.mem_cons.2 (.inl (Option.some.inj hs).symm)
    next hfree =>
      rw [if_neg (by simp [hfree])]
      exact List.mem_cons_of_mem a (ih hs)

/-- The slot of a name is among those consulted for it. -/
theorem home_mem_consulted (h : Heap) (reach : Reach) (e : ScopeId) (name : String) :
    (h.home reach e name, name) ∈ h.consulted reach e name := by
  rcases reach with - | -
  · apply List.mem_map_of_mem
    rcases hs : h.resolve? e name with - | s
    · -- what nothing binds is at home in the starting scope, the first that is consulted
      rw [home, hs, chain]
      split
      · split <;> exact List.mem_cons_self
      · exact List.mem_cons_self
    · rw [home, hs]
      rw [resolve?_eq_find?] at hs
      exact mem_lookedInto_of_find? hs
  · exact List.mem_cons_self

/-- Where the scopes consulted bind the name as they did, it is found where it was. -/
theorem find?_eq_of_lookedInto {h h' : Heap} {name : String} {l : List ScopeId}
    (hsame : ∀ s ∈ h.lookedInto name l, (h'.own? s name).isSome = (h.own? s name).isSome) :
    l.find? (fun s => (h'.table s).contains name) = l.find? fun s => (h.table s).contains name := by
  induction l with
  | nil => rfl
  | cons a rest ih =>
    have ha : (h'.table a).contains name = (h.table a).contains name :=
      hsame a List.mem_cons_self
    rw [List.find?_cons, List.find?_cons, ha]
    split
    next => rfl
    next hfree =>
      apply ih
      intro s hs
      apply hsame
      rw [lookedInto, if_neg (by simp [hfree])]
      exact List.mem_cons_of_mem a hs

section Home

variable {slot : ScopeId × String} {h h' : Heap} {reach : Reach} {e : ScopeId} {name : String}

theorem home_lt_size (he : e < h.scopes.size) : h.home reach e name < h.scopes.size := by
  rcases reach with - | -
  · rcases hs : h.resolve? e name with - | s
    · rw [home, hs]
      exact he
    · rw [home, hs]
      obtain ⟨b, hb⟩ := Option.isSome_iff_exists.1 (own?_isSome_of_resolve? hs)
      exact lt_size_of_own? hb
  · exact he

/-- A name is found where it was, if the slot that differs is not one of those
consulted for it. -/
theorem DiffersAt.home_of_not_consulted (hd : DiffersAt slot h h') (he : e < h.scopes.size)
    (hslot : slot ∉ h.consulted reach e name) : h'.home reach e name = h.home reach e name := by
  rcases reach with - | -
  · have hresolve : h'.resolve? e name = h.resolve? e name := by
      rw [resolve?_eq_find?, resolve?_eq_find?, hd.chain_eq he]
      apply find?_eq_of_lookedInto
      intro s hs
      have hne : (s, name) ≠ slot := by
        rintro rfl
        exact hslot (List.mem_map_of_mem hs)
      have hlt : s < h.scopes.size :=
        Nat.lt_of_le_of_lt (le_of_mem_chain (mem_of_mem_lookedInto hs)) he
      rw [hd.own?_eq s name hlt hne]
    rw [home, home, hresolve]
  · rfl

/-- A name is found where it was, if the slot that differs is its own and now
holds something. -/
theorem DiffersAt.home_of_bound (hd : DiffersAt (h.home reach e name, name) h h')
    (he : e < h.scopes.size) (hbound : (h'.own? (h.home reach e name) name).isSome) :
    h'.home reach e name = h.home reach e name := by
  rcases reach with - | -
  · rcases hs : h.resolve? e name with - | s
    · -- it was found nowhere, so its slot is in the starting scope
      have hhome : h.home .chain e name = e := by rw [home, hs]; rfl
      rw [hhome] at hbound ⊢
      obtain ⟨b, hb⟩ := Option.isSome_iff_exists.1 hbound
      exact home_of_own? hb .chain
    · rw [home, hs] at hd hbound
      have hresolve : h'.resolve? e name = h.resolve? e name := by
        apply resolve?_congr (hd.chain_eq he)
        intro a ha
        -- every scope of the chain binds the name just if it did
        by_cases has : a = s
        · rw [has, own?_isSome_of_resolve? hs]
          exact hbound
        · have hne : (a, name) ≠ (s, name) := fun heq => has (congrArg Prod.fst heq)
          rw [hd.own?_eq a name (Nat.lt_of_le_of_lt (le_of_mem_chain ha) he) hne]
      rw [home, home, hresolve]
  · rfl

end Home

/-! ### The slots that are set -/

/-- The slot that an assignment along a path sets first: that of the last
name or, where a block is missing, that of the first block it makes. -/
def firstSet (h : Heap) : Reach → ScopeId → List String → ScopeId × String
  | _, e, [] => (e, "")
  | reach, e, [name] => (h.home reach e name, name)
  | reach, e, name :: next :: rest =>
    match h.own? (h.home reach e name) name with
    | some ⟨.block inner, _⟩ => h.firstSet .own inner (next :: rest)
    | _ => (h.home reach e name, name)

section FirstSet

variable {h : Heap} {reach : Reach} {e : ScopeId} {name next : String} {rest : List String}

theorem firstSet_of_block {inner : ScopeId} {mark : Bool}
    (hb : h.own? (h.home reach e name) name = some ⟨.block inner, mark⟩) :
    h.firstSet reach e (name :: next :: rest) = h.firstSet .own inner (next :: rest) := by
  rw [firstSet, hb]

theorem firstSet_of_vacant (hv : h.Vacant (h.home reach e name) name) :
    h.firstSet reach e (name :: rest) = (h.home reach e name, name) := by
  rcases rest with - | ⟨next, rest⟩
  · rfl
  · rw [firstSet]
    split
    next hb => cases hv _ hb
    next => rfl

/-- In a scope that was just made, the first name is set first. -/
theorem firstSet_withBlock (h : Heap) (s : ScopeId) (name : String) (p : ScopeId) (next : String)
    (rest : List String) :
    (h.withBlock s name p).firstSet .own h.scopes.size (next :: rest)
      = (h.scopes.size, next) := by
  apply firstSet_of_vacant
  intro b hb
  rw [home_own, own?_withBlock_size] at hb
  cases hb

/-- An assignment that is walked and bound touches one slot of the scopes
that were there before. -/
theorem walk_differsAt (reach : Reach) (e : ScopeId) (constant : Bool) (path : List String)
    (h : Heap) (b : Binding) {arrival : Arrival} {h' : Heap}
    (hw : walk reach e constant path h = .ok arrival h') (hne : path ≠ [])
    (hlong : reach = .own ∨ 2 ≤ path.length) :
    DiffersAt (h.firstSet reach e path) h (h'.write arrival.scope (path.getLastD "") b) := by
  induction reach, e, constant, path, h using walk_induction generalizing arrival h' with
  | nil => exact absurd rfl hne
  | last reach e constant name h _ =>
    cases hw
    rcases hlong with rfl | hlong
    · exact differsAt_write h e name b
    · simp at hlong
  | refused => cases hw
  | barred => cases hw
  | unmakeable => cases hw
  | through reach e constant name next rest h inner mark r hb _ ih =>
    rw [firstSet_of_block hb]
    exact ih hw (by simp) (.inl rfl)
  | making reach e name next rest h r hv _ _ ih =>
    rcases r with ⟨arrival₁, h₁⟩ | ⟨f, h₁⟩
    · cases hw
      -- from there on, all that is set is in the new scopes
      have hinner := ih rfl (by simp) (.inl rfl)
      rw [firstSet_withBlock] at hinner
      rw [firstSet_of_vacant hv]
      exact hinner.of_withBlock
    · cases hw

end FirstSet

end BlockScript.Heap
