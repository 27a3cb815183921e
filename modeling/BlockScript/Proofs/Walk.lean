/-
BlockScript/Proofs/Walk.lean

The rules of walking a path, and the induction that they give.

A name and where it is looked for determine one slot: the name in its *home*,
the table where it resolves, or the starting one if it does not resolve.
Looking for a name reads that slot and binding it writes that slot:

    find? reach e name  =  own? (home reach e name) name
    put reach e name b  =  assignOwn (home reach e name) name b

So a walk only ever sees slots, and it goes on in one of three ways: through
a block that it finds, into a block that it makes in a vacant slot, or not at
all.  `walk_induction` says that a property which these rules preserve holds
of every walk.
-/
import BlockScript.Proofs.Evaluation
import Mathlib.Data.List.Find

namespace BlockScript

namespace Heap

/-! ### The slot of a name -/

/-- The scope in which a name has its slot. -/
def home (h : Heap) : Reach → ScopeId → String → ScopeId
  | .chain, e, name => (h.resolve? e name).getD e
  | .own, e, _ => e

@[simp] theorem home_own (h : Heap) (e : ScopeId) (name : String) : h.home .own e name = e := rfl

theorem resolve?_eq_none_iff {h : Heap} {e : ScopeId} {name : String} :
    h.resolve? e name = none ↔ ∀ a ∈ h.chain e, h.own? a name = none := by
  rw [resolve?_eq_find?, List.find?_eq_none]
  simp only [Table.contains, Option.not_isSome_iff_eq_none]
  rfl

theorem own?_isSome_of_resolve? {h : Heap} {e s : ScopeId} {name : String}
    (hs : h.resolve? e name = some s) : (h.own? s name).isSome := by
  rw [resolve?_eq_find?] at hs
  have hfound := List.find?_some hs
  exact hfound

/-- Resolution hangs on the chain and on which of its scopes bind the name. -/
theorem resolve?_congr {h h' : Heap} {e : ScopeId} {name : String}
    (hchain : h'.chain e = h.chain e)
    (hown : ∀ a ∈ h.chain e, (h'.own? a name).isSome = (h.own? a name).isSome) :
    h'.resolve? e name = h.resolve? e name := by
  rw [resolve?_eq_find?, resolve?_eq_find?, hchain]
  exact List.find?_congr hown

/-- A name that a scope binds itself has its home there. -/
theorem home_of_own? {h : Heap} {e : ScopeId} {name : String} {b : Binding}
    (hb : h.own? e name = some b) (reach : Reach) : h.home reach e name = e := by
  rcases reach with - | -
  · have hcontains : (h.table e).contains name = true := Option.isSome_of_eq_some hb
    show (h.resolve? e name).getD e = e
    rw [resolve?, if_pos hcontains]
    rfl
  · rfl

/-- A name is read from its home. -/
theorem find?_eq_own?_home (h : Heap) (reach : Reach) (e : ScopeId) (name : String) :
    h.find? reach e name = h.own? (h.home reach e name) name := by
  rcases reach with - | -
  · show h.binding? e name = h.own? ((h.resolve? e name).getD e) name
    rw [binding?]
    rcases hs : h.resolve? e name with - | s
    · -- a name that resolves nowhere is not in the starting scope either
      exact (resolve?_eq_none_iff.1 hs e (h.mem_chain_self e)).symm
    · rfl
  · rfl

theorem lookup_eq_lookupOwn_home (h : Heap) (e : ScopeId) (name : String) :
    h.lookup e name = h.lookupOwn (h.home .chain e name) name := by
  have hfind : h.binding? e name = h.own? (h.home .chain e name) name :=
    find?_eq_own?_home h .chain e name
  rw [lookup, hfind, lookupOwn]

theorem assignOwn_of_mutable {h : Heap} {e : ScopeId} {name : String} {b : Binding}
    (hmut : ∀ old, h.own? e name = some old → old.constant = false) :
    assignOwn e name b h = .ok () (h.write e name b) := by
  unfold assignOwn
  split
  next hold => cases hmut _ hold
  next => rfl

theorem assignOwn_of_constant {h : Heap} {e : ScopeId} {name : String} {b : Binding} {v : Value}
    (hconst : h.own? e name = some ⟨v, true⟩) :
    assignOwn e name b h = .error (.hard (.redeclared name)) h := by
  rw [assignOwn, hconst]

/-- A name is bound in its home. -/
theorem put_eq_assignOwn_home (h : Heap) (reach : Reach) (e : ScopeId) (name : String)
    (b : Binding) : put reach e name b h = assignOwn (h.home reach e name) name b h := by
  rcases reach with - | -
  · show declare e name b h = assignOwn ((h.resolve? e name).getD e) name b h
    rw [declare]
    rcases hs : h.resolve? e name with - | s
    · -- bound nowhere, so the slot in the starting scope is free
      have hnone := resolve?_eq_none_iff.1 hs e (h.mem_chain_self e)
      refine (assignOwn_of_mutable fun old hold => ?_).symm
      exact absurd (hnone.symm.trans hold) (by simp)
    · rfl
  · rfl

/-- Whether a slot holds a constant, as two cases. -/
theorem mutable_or_constant (h : Heap) (s : ScopeId) (name : String) :
    (∀ old, h.own? s name = some old → old.constant = false) ∨
      ∃ v, h.own? s name = some ⟨v, true⟩ := by
  rcases hb : h.own? s name with - | ⟨v, constant⟩
  · exact .inl fun old hold => by cases hold
  · cases constant with
    | false => exact .inl fun old hold => by cases hold; rfl
    | true => exact .inr ⟨v, rfl⟩

/-! ### Making a block -/

/-- The heap with a new scope inside `p`, bound as a mutable block. -/
def withBlock (h : Heap) (s : ScopeId) (name : String) (p : ScopeId) : Heap :=
  ((h.write s name ⟨.block h.scopes.size, false⟩).extend p).2

@[simp] theorem size_withBlock (h : Heap) (s : ScopeId) (name : String) (p : ScopeId) :
    (h.withBlock s name p).scopes.size = h.scopes.size + 1 := by
  rw [withBlock, size_extend, size_write]

/-- One slot holds the new block, and all others are as they were. -/
theorem own?_withBlock (h : Heap) (s : ScopeId) (name : String) (p f : ScopeId)
    (other : String) :
    (h.withBlock s name p).own? f other
      = if s = f ∧ f < h.scopes.size ∧ other = name then some ⟨.block h.scopes.size, false⟩
        else h.own? f other := by
  rw [withBlock, own?_extend, own?_write]

theorem table_withBlock (h : Heap) (s : ScopeId) (name : String) (p f : ScopeId) :
    (h.withBlock s name p).table f
      = if s = f ∧ f < h.scopes.size then (h.table f).set name ⟨.block h.scopes.size, false⟩
        else h.table f := by
  rw [withBlock, table_extend, table_write]

theorem parent?_withBlock (h : Heap) (s : ScopeId) (name : String) (p f : ScopeId) :
    (h.withBlock s name p).parent? f = if f = h.scopes.size then some p else h.parent? f := by
  rw [withBlock, parent?_extend, size_write, parent?_write]

/-- The new scope is empty. -/
theorem table_withBlock_size (h : Heap) (s : ScopeId) (name : String) (p : ScopeId) :
    (h.withBlock s name p).table h.scopes.size = .empty := by
  rw [table_withBlock, if_neg (by simp)]
  exact table_of_size_le (Nat.le_refl _)

theorem own?_withBlock_size (h : Heap) (s : ScopeId) (name : String) (p : ScopeId)
    (other : String) : (h.withBlock s name p).own? h.scopes.size other = none := by
  rw [own?, table_withBlock_size]
  rfl

/-- A block is made in a slot that is empty or mutable. -/
theorem createBlock_of_mutable {h : Heap} {reach : Reach} {e : ScopeId} {name : String}
    (hmut : ∀ old, h.own? (h.home reach e name) name = some old → old.constant = false) :
    createBlock reach e name h
      = .ok h.scopes.size (h.withBlock (h.home reach e name) name e) := by
  have hput := (put_eq_assignOwn_home h reach e name ⟨.block h.scopes.size, false⟩).trans
    (assignOwn_of_mutable hmut)
  show (put reach e name ⟨.block h.scopes.size, false⟩ >>= fun _ => openScope e) h = _
  rw [bind_of_ok hput, openScope, withBlock, extend, addScope]
  simp only [size_write]

theorem createBlock_of_constant {h : Heap} {reach : Reach} {e : ScopeId} {name : String}
    {v : Value} (hconst : h.own? (h.home reach e name) name = some ⟨v, true⟩) :
    createBlock reach e name h = .error (.hard (.redeclared name)) h := by
  have hput := (put_eq_assignOwn_home h reach e name ⟨.block h.scopes.size, false⟩).trans
    (assignOwn_of_constant hconst)
  show (put reach e name ⟨.block h.scopes.size, false⟩ >>= fun _ => openScope e) h = _
  exact bind_of_error hput

/-! ### The rules -/

/-- Nothing, or void, stands in the slot. -/
def Vacant (h : Heap) (s : ScopeId) (name : String) : Prop :=
  ∀ b, h.own? s name = some b → b.value = .void

/-- What a walk can meet in a slot. -/
theorem slot_cases (h : Heap) (s : ScopeId) (name : String) :
    h.Vacant s name ∨ (∃ inner mark, h.own? s name = some ⟨.block inner, mark⟩) ∨
      ∃ v mark, h.own? s name = some ⟨v, mark⟩ ∧ v ≠ .void ∧ ∀ c, v ≠ .block c := by
  rcases hb : h.own? s name with - | ⟨v, mark⟩
  · refine .inl fun b hold => ?_
    exact absurd (hb.symm.trans hold) (by simp)
  · by_cases hvoid : v = .void
    · refine .inl fun b hold => ?_
      rw [hb] at hold
      cases hold
      exact hvoid
    · by_cases hblock : ∃ c, v = .block c
      · obtain ⟨c, rfl⟩ := hblock
        exact .inr (.inl ⟨c, mark, rfl⟩)
      · exact .inr (.inr ⟨v, mark, rfl, hvoid, fun c hc => hblock ⟨c, hc⟩⟩)

/-- The result of a walk that has made a block on the way. -/
def made (name : String) :
    EStateM.Result Failure Heap Arrival → EStateM.Result Failure Heap Arrival
  | .ok arrival h => .ok { arrival with created := name :: arrival.created } h
  | .error f h => .error f h

@[simp] theorem after_made (name : String) (r : EStateM.Result Failure Heap Arrival) :
    after (made name r) = after r := by
  cases r <;> rfl

section Rules

variable {h : Heap} {reach : Reach} {e : ScopeId} {constant : Bool} {name next : String}
  {rest : List String}

/-- A vacant slot reads as nothing or as void. -/
theorem Vacant.find? (hv : h.Vacant (h.home reach e name) name) :
    h.find? reach e name = none ∨ ∃ mark, h.find? reach e name = some ⟨.void, mark⟩ := by
  rw [find?_eq_own?_home]
  rcases hb : h.own? (h.home reach e name) name with - | ⟨v, mark⟩
  · exact .inl rfl
  · obtain rfl : v = .void := hv _ hb
    exact .inr ⟨mark, rfl⟩

/-- At the last name the walk stays where it is. -/
theorem walk_last : walk reach e constant [name] h =
    match h.find? reach e name with
    | none | some ⟨.void, _⟩ =>
      if constant then .error (.soft (.vacantMember name)) h else .ok ⟨e, []⟩ h
    | some _ => .ok ⟨e, []⟩ h := by
  rw [walk, get_bind]
  cases constant <;> rcases h.find? reach e name with - | ⟨- | _, mark⟩ <;> rfl

/-- At any other name it goes on from the block that it finds or makes. -/
theorem walk_more : walk reach e constant (name :: next :: rest) h =
    (match h.find? reach e name with
    | none | some ⟨.void, _⟩ =>
      if constant then throw (.soft (.vacantMember name))
      else do
        let child ← createBlock reach e name
        let arrival ← walk .own child constant (next :: rest)
        return { arrival with created := name :: arrival.created }
    | some ⟨.block inner, mark⟩ => walk .own inner mark (next :: rest)
    | some ⟨value, _⟩ => throw (.soft (.throughNonBlock name value.kind)) : HeapAction Arrival) h :=
  rfl

/-- A constant needs something in its last slot already. -/
theorem walk_last_of_vacant (hv : h.Vacant (h.home reach e name) name) :
    walk reach e true [name] h = .error (.soft (.vacantMember name)) h := by
  rw [walk_last]
  rcases hv.find? with hb | ⟨mark, hb⟩ <;> rw [hb] <;> rfl

theorem walk_last_of_mutable : walk reach e false [name] h = .ok ⟨e, []⟩ h := by
  rw [walk_last]
  rcases h.find? reach e name with - | ⟨v, mark⟩
  · rfl
  · cases v <;> rfl

theorem walk_last_of_not_vacant (hv : ¬ h.Vacant (h.home reach e name) name) :
    walk reach e constant [name] h = .ok ⟨e, []⟩ h := by
  rw [walk_last, find?_eq_own?_home]
  rcases hb : h.own? (h.home reach e name) name with - | ⟨v, mark⟩
  · exact absurd (fun b hold => by rw [hb] at hold; cases hold) hv
  · cases v with
    | void => exact absurd (fun b hold => by rw [hb] at hold; cases hold; rfl) hv
    | _ => rfl

theorem walk_of_vacant_constant (hv : h.Vacant (h.home reach e name) name) :
    walk reach e true (name :: next :: rest) h = .error (.soft (.vacantMember name)) h := by
  rw [walk_more]
  rcases hv.find? with hb | ⟨mark, hb⟩ <;> rw [hb] <;> rfl

/-- A walk does not go through a value that is no block. -/
theorem walk_of_other {v : Value} {mark : Bool}
    (hb : h.own? (h.home reach e name) name = some ⟨v, mark⟩) (hvoid : v ≠ .void)
    (hblock : ∀ c, v ≠ .block c) :
    walk reach e constant (name :: next :: rest) h
      = .error (.soft (.throughNonBlock name v.kind)) h := by
  rw [walk_more, find?_eq_own?_home, hb]
  cases v with
  | void => exact absurd rfl hvoid
  | block c => exact absurd rfl (hblock c)
  | _ => rfl

/-- A walk goes on in a block, and takes over whether it is constant. -/
theorem walk_of_block {inner : ScopeId} {mark : Bool}
    (hb : h.own? (h.home reach e name) name = some ⟨.block inner, mark⟩) :
    walk reach e constant (name :: next :: rest) h = walk .own inner mark (next :: rest) h := by
  rw [walk_more, find?_eq_own?_home, hb]

/-- A constant void cannot be made a block. -/
theorem walk_of_vacant_unmakeable {v : Value} (hv : h.Vacant (h.home reach e name) name)
    (hconst : h.own? (h.home reach e name) name = some ⟨v, true⟩) :
    walk reach e false (name :: next :: rest) h = .error (.hard (.redeclared name)) h := by
  rw [walk_more]
  rcases hv.find? with hb | ⟨mark, hb⟩ <;> rw [hb] <;>
    exact bind_of_error (createBlock_of_constant hconst)

/-- Where nothing stands, a block is made and the walk goes on in it. -/
theorem walk_of_vacant_makeable (hv : h.Vacant (h.home reach e name) name)
    (hmut : ∀ old, h.own? (h.home reach e name) name = some old → old.constant = false) :
    walk reach e false (name :: next :: rest) h
      = made name (walk .own h.scopes.size false (next :: rest)
          (h.withBlock (h.home reach e name) name e)) := by
  -- the same for an empty slot and for a void in it
  have hmade : (do
      let child ← createBlock reach e name
      let arrival ← walk .own child false (next :: rest)
      return { arrival with created := name :: arrival.created } : HeapAction Arrival) h
        = made name (walk .own h.scopes.size false (next :: rest)
            (h.withBlock (h.home reach e name) name e)) := by
    rw [bind_of_ok (createBlock_of_mutable hmut)]
    rcases hw : walk .own h.scopes.size false (next :: rest)
      (h.withBlock (h.home reach e name) name e) with ⟨arrival, h'⟩ | ⟨f, h'⟩
    · rw [bind_of_ok hw]
      rfl
    · rw [bind_of_error hw]
      rfl
  rw [walk_more]
  rcases hv.find? with hb | ⟨mark, hb⟩ <;> rw [hb] <;> exact hmade

end Rules

/-! ### Induction -/

/-- What the rules of walking preserve holds of every walk. -/
theorem walk_induction
    {motive : Reach → ScopeId → Bool → List String → Heap →
      EStateM.Result Failure Heap Arrival → Prop}
    (nil : ∀ reach e constant h, motive reach e constant [] h (.ok ⟨e, []⟩ h))
    (last : ∀ reach e constant name h,
      (constant = true → ¬ h.Vacant (h.home reach e name) name) →
      motive reach e constant [name] h (.ok ⟨e, []⟩ h))
    (refused : ∀ reach e name rest h, h.Vacant (h.home reach e name) name →
      motive reach e true (name :: rest) h (.error (.soft (.vacantMember name)) h))
    (barred : ∀ reach e constant name next rest h v mark,
      h.own? (h.home reach e name) name = some ⟨v, mark⟩ → v ≠ .void → (∀ c, v ≠ .block c) →
      motive reach e constant (name :: next :: rest) h
        (.error (.soft (.throughNonBlock name v.kind)) h))
    (unmakeable : ∀ reach e name next rest h v, h.Vacant (h.home reach e name) name →
      h.own? (h.home reach e name) name = some ⟨v, true⟩ →
      motive reach e false (name :: next :: rest) h (.error (.hard (.redeclared name)) h))
    (through : ∀ reach e constant name next rest h inner mark r,
      h.own? (h.home reach e name) name = some ⟨.block inner, mark⟩ →
      walk .own inner mark (next :: rest) h = r →
      motive .own inner mark (next :: rest) h r →
      motive reach e constant (name :: next :: rest) h r)
    (making : ∀ reach e name next rest h r, h.Vacant (h.home reach e name) name →
      (∀ old, h.own? (h.home reach e name) name = some old → old.constant = false) →
      walk .own h.scopes.size false (next :: rest) (h.withBlock (h.home reach e name) name e) = r →
      motive .own h.scopes.size false (next :: rest)
        (h.withBlock (h.home reach e name) name e) r →
      motive reach e false (name :: next :: rest) h (made name r))
    (reach : Reach) (e : ScopeId) (constant : Bool) (path : List String) (h : Heap) :
    motive reach e constant path h (walk reach e constant path h) := by
  -- on the path; the last name has rules of its own, so two names are looked at
  induction path generalizing reach e constant h with
  | nil => exact nil reach e constant h
  | cons name rest ih =>
    cases rest with
    | nil =>
      by_cases hv : h.Vacant (h.home reach e name) name
      · cases constant with
        | true =>
          rw [walk_last_of_vacant hv]
          exact refused reach e name [] h hv
        | false =>
          rw [walk_last_of_mutable]
          exact last reach e false name h (by simp)
      · rw [walk_last_of_not_vacant hv]
        exact last reach e constant name h fun _ => hv
    | cons next rest =>
      -- the slot is vacant, or holds a block, or holds something else
      rcases h.slot_cases (h.home reach e name) name with
        hv | ⟨inner, mark, hb⟩ | ⟨v, mark, hb, hvoid, hblock⟩
      · cases constant with
        | true =>
          rw [walk_of_vacant_constant hv]
          exact refused reach e name (next :: rest) h hv
        | false =>
          rcases h.mutable_or_constant (h.home reach e name) name with hmut | ⟨v, hconst⟩
          · rw [walk_of_vacant_makeable hv hmut]
            exact making reach e name next rest h _ hv hmut rfl (ih _ _ _ _)
          · rw [walk_of_vacant_unmakeable hv hconst]
            exact unmakeable reach e name next rest h v hv hconst
      · rw [walk_of_block hb]
        exact through reach e constant name next rest h inner mark _ hb rfl (ih _ _ _ _)
      · rw [walk_of_other hb hvoid hblock]
        exact barred reach e constant name next rest h v mark hb hvoid hblock

end Heap

end BlockScript
