/-
BlockScript/Proofs/Descent.lean

Where a walk along a path gets to, and when the member at its end can be bound.

A walk stands at a *place*: a scope, how far out the next name is looked for
from there, and whether the context is constant.  Through a block it descends
to the place inside, so that

    walk p (before ++ name :: rest) h  =  walk q (name :: rest) h

if the names `before` lead from `p` to `q` through blocks.  Everything is
decided at the first name that is no block, or else at the last name:
`walk_ending` lists the five ways in which a walk can end, each with what it
has met.  Walking leaves nothing to chance behind that name, since the blocks
it makes are new and empty (`walk_of_free`).

`member_assignment_succeeds_iff` reads off when an assignment succeeds.
-/
import BlockScript.Proofs.Assignment

namespace BlockScript

/-- Where a walk stands: the scope in which the next name is looked for, how
far out it is looked for from there, and whether the context is constant. -/
structure Place where
  reach : Reach
  scope : ScopeId
  constant : Bool
deriving Repr, DecidableEq

/-- Where the walk of an assignment starts. -/
def Place.start (e : ScopeId) (constant : Bool) : Place :=
  ⟨.chain, e, constant⟩

namespace Heap

/-! ### Descending through blocks -/

/-- The binding of a name as it is seen from a place. -/
def look (h : Heap) (p : Place) (name : String) : Option Binding :=
  h.find? p.reach p.scope name

/-- The place that names lead to if all of them are bound to blocks.  Inside
a block, names are looked for in its own table, and the context is constant if
the binding of the block is. -/
def descend (h : Heap) (p : Place) : List String → Option Place
  | [] => some p
  | name :: rest =>
    match h.look p name with
    | some ⟨.block inner, mark⟩ => h.descend ⟨.own, inner, mark⟩ rest
    | _ => none

/-- A walk along `names` from `p` comes to `name` at the place `q`, through
blocks only, with `rest` still ahead of it. -/
def Meets (h : Heap) (p : Place) (names : List String) (q : Place) (name : String)
    (rest : List String) : Prop :=
  ∃ before, names = before ++ name :: rest ∧ h.descend p before = some q

section Descend

variable {h : Heap} {p q : Place} {name : String} {names before rest : List String}

theorem look_eq_own?_home (h : Heap) (p : Place) (name : String) :
    h.look p name = h.own? (h.home p.reach p.scope name) name :=
  find?_eq_own?_home h p.reach p.scope name

theorem look_of_own (hp : p.reach = .own) : h.look p name = h.own? p.scope name := by
  rw [look, hp, find?]

/-- A name that the starting scope binds itself is seen there. -/
theorem look_start_of_own? {e : ScopeId} {constant : Bool} {b : Binding}
    (hb : h.own? e name = some b) : h.look (.start e constant) name = some b := by
  rw [look_eq_own?_home]
  show h.own? (h.home .chain e name) name = some b
  rw [home_of_own? hb]
  exact hb

theorem descend_of_block {inner : ScopeId} {mark : Bool}
    (hb : h.look p name = some ⟨.block inner, mark⟩) :
    h.descend p (name :: rest) = h.descend ⟨.own, inner, mark⟩ rest := by
  rw [descend, hb]

theorem exists_block_of_descend (hd : h.descend p (name :: rest) = some q) :
    ∃ inner mark, h.look p name = some ⟨.block inner, mark⟩ ∧
      h.descend ⟨.own, inner, mark⟩ rest = some q := by
  rw [descend] at hd
  split at hd
  next inner mark hb => exact ⟨inner, mark, hb, hd⟩
  next => cases hd

/-- Behind a block, only its own table is looked into. -/
theorem reach_of_descend (hd : h.descend p before = some q) (hp : p.reach = .own ∨ before ≠ []) :
    q.reach = .own := by
  induction before generalizing p with
  | nil =>
    cases hd
    exact hp.resolve_right fun hne => hne rfl
  | cons name before ih =>
    obtain ⟨inner, mark, -, hd⟩ := exists_block_of_descend hd
    exact ih hd (.inl rfl)

/-- With names behind it, a walk has come through a block. -/
theorem Meets.reach_eq_own (hm : h.Meets p names q name rest)
    (hlong : rest.length + 2 ≤ names.length) : q.reach = .own := by
  obtain ⟨before, rfl, hd⟩ := hm
  refine reach_of_descend hd (.inr ?_)
  rintro rfl
  simp at hlong

/-- A walk comes to its last name, or before that to one that is no block. -/
theorem meets_last_or_gap (h : Heap) (p : Place) {names : List String} (hne : names ≠ []) :
    (∃ q last, h.Meets p names q last []) ∨
      ∃ q name rest, rest ≠ [] ∧ h.Meets p names q name rest ∧
        ∀ inner mark, h.look q name ≠ some ⟨.block inner, mark⟩ := by
  induction names generalizing p with
  | nil => exact absurd rfl hne
  | cons name names ih =>
    rcases names with - | ⟨next, rest⟩
    · exact .inl ⟨p, name, [], rfl, rfl⟩
    · -- a block is passed, and the names behind it are met inside; at anything else the walk ends
      by_cases hblock : ∃ inner mark, h.look p name = some ⟨.block inner, mark⟩
      · obtain ⟨inner, mark, hb⟩ := hblock
        rcases ih ⟨.own, inner, mark⟩ (List.cons_ne_nil next rest) with
          ⟨q, last, before, hnames, hd⟩ | ⟨q, other, rest', hrest, ⟨before, hnames, hd⟩, hgap⟩
        · exact .inl ⟨q, last, name :: before, congrArg (name :: ·) hnames,
            (descend_of_block hb).trans hd⟩
        · exact .inr ⟨q, other, rest', hrest, ⟨name :: before, congrArg (name :: ·) hnames,
            (descend_of_block hb).trans hd⟩, hgap⟩
      · exact .inr ⟨p, name, next :: rest, by simp, ⟨[], rfl, rfl⟩,
          fun inner mark hb => hblock ⟨inner, mark, hb⟩⟩

/-- A walk goes on from any place that it comes to. -/
theorem Meets.walk_eq (hm : h.Meets p names q name rest) :
    walk p.reach p.scope p.constant names h
      = walk q.reach q.scope q.constant (name :: rest) h := by
  obtain ⟨before, rfl, hd⟩ := hm
  induction before generalizing p with
  | nil =>
    cases hd
    rfl
  | cons first before ih =>
    obtain ⟨inner, mark, hb, hd⟩ := exists_block_of_descend hd
    rw [look_eq_own?_home] at hb
    -- passing a block takes a further name, and there is one
    obtain ⟨next, tail, htail⟩ := List.exists_cons_of_ne_nil
      (List.append_ne_nil_of_right_ne_nil before (List.cons_ne_nil name rest))
    rw [List.cons_append, htail, walk_of_block hb, ← htail]
    exact ih hd

end Descend

/-! ### Making blocks within blocks -/

/-- The heap with new scopes, one inside the other and the first inside `p`,
each bound as a mutable block: the first in the table of `s`, every other in
that of the one before. -/
def withBlocks (h : Heap) (s p : ScopeId) : List String → Heap
  | [] => h
  | name :: inner => (h.withBlock s name p).withBlocks h.scopes.size h.scopes.size inner

/-- Nothing stands in the way of a new block: the name is unbound, or a mutable
void. -/
def Free (h : Heap) (p : Place) (name : String) : Prop :=
  h.look p name = none ∨ h.look p name = some ⟨.void, false⟩

/-- The name is unbound or void, as it is seen from a place. -/
def VacantAt (h : Heap) (p : Place) (name : String) : Prop :=
  h.Vacant (h.home p.reach p.scope name) name

section Slot

variable {h : Heap} {p : Place} {name : String}

theorem vacantAt_iff : h.VacantAt p name ↔ ∀ b, h.look p name = some b → b.value = .void := by
  unfold VacantAt Vacant
  rw [look_eq_own?_home]

theorem vacantAt_of_void {mark : Bool} (hb : h.look p name = some ⟨.void, mark⟩) :
    h.VacantAt p name := by
  rw [vacantAt_iff, hb]
  rintro b ⟨⟩
  rfl

theorem Free.vacantAt (hf : h.Free p name) : h.VacantAt p name := by
  rcases hf with hnone | hvoid
  · rw [vacantAt_iff, hnone]
    rintro b ⟨⟩
  · exact vacantAt_of_void hvoid

theorem Free.mutable (hf : h.Free p name) {old : Binding}
    (hold : h.own? (h.home p.reach p.scope name) name = some old) : old.constant = false := by
  rw [← look_eq_own?_home] at hold
  rcases hf with hnone | hvoid
  · rw [hnone] at hold
    cases hold
  · rw [hvoid] at hold
    cases hold
    rfl

/-- What a walk can see from a place. -/
theorem look_cases (h : Heap) (p : Place) (name : String) :
    h.Free p name ∨ h.look p name = some ⟨.void, true⟩ ∨
      (∃ inner mark, h.look p name = some ⟨.block inner, mark⟩) ∨
      ∃ v mark, h.look p name = some ⟨v, mark⟩ ∧ v ≠ .void ∧ ∀ c, v ≠ .block c := by
  rcases hb : h.look p name with - | ⟨v, mark⟩
  · exact .inl (.inl hb)
  · cases v with
    | void =>
      cases mark with
      | false => exact .inl (.inr hb)
      | true => exact .inr (.inl rfl)
    | block inner => exact .inr (.inr (.inl ⟨inner, mark, rfl⟩))
    | _ => exact .inr (.inr (.inr ⟨_, mark, rfl, by simp, by simp⟩))

end Slot

/-- From a free name on, a walk in a mutable context makes every block up to
the last name. -/
theorem walk_of_free {h : Heap} {reach : Reach} {e : ScopeId} {name : String}
    (hf : h.Free ⟨reach, e, false⟩ name) (inner : List String) (last : String) :
    walk reach e false (name :: (inner ++ [last])) h
      = .ok ⟨h.scopes.size + inner.length, name :: inner⟩
          (h.withBlocks (h.home reach e name) e (name :: inner)) := by
  induction inner generalizing h reach e name with
  | nil =>
    rw [List.nil_append, walk_of_vacant_makeable hf.vacantAt fun old hold => hf.mutable hold,
      walk_last_of_mutable]
    rfl
  | cons next inner ih =>
    -- the block is new, so that the next name is free in it
    have hnext : (h.withBlock (h.home reach e name) name e).Free
        ⟨.own, h.scopes.size, false⟩ next := by
      left
      exact own?_withBlock_size h _ name e next
    rw [List.cons_append, walk_of_vacant_makeable hf.vacantAt fun old hold => hf.mutable hold,
      ih hnext, size_withBlock, List.length_cons, Nat.add_assoc, Nat.add_comm 1]
    rfl

/-! ### How a walk ends -/

section Ends

variable {h : Heap} {p q : Place} {name last : String} {names inner rest : List String}

/-- Where the last name may be bound, the walk ends without making anything. -/
theorem Meets.walk_arrived (hm : h.Meets p names q last [])
    (hready : q.constant = true → ¬ h.VacantAt q last) :
    walk p.reach p.scope p.constant names h = .ok ⟨q.scope, []⟩ h := by
  rw [hm.walk_eq]
  rcases hc : q.constant with - | -
  · exact walk_last_of_mutable
  · exact walk_last_of_not_vacant (hready hc)

/-- At a free name in a mutable context, all the blocks behind it are made. -/
theorem Meets.walk_made (hm : h.Meets p names q name (inner ++ [last]))
    (hmut : q.constant = false) (hf : h.Free q name) :
    walk p.reach p.scope p.constant names h
      = .ok ⟨h.scopes.size + inner.length, name :: inner⟩
          (h.withBlocks (h.home q.reach q.scope name) q.scope (name :: inner)) := by
  rw [hm.walk_eq, hmut]
  exact walk_of_free hf inner last

/-- At a vacant name in a constant context, the walk fails softly. -/
theorem Meets.walk_refused (hm : h.Meets p names q name rest) (hconst : q.constant = true)
    (hv : h.VacantAt q name) :
    walk p.reach p.scope p.constant names h = .error (.soft (.vacantMember name)) h := by
  rw [hm.walk_eq, hconst]
  rcases rest with - | ⟨next, rest⟩
  · exact walk_last_of_vacant hv
  · exact walk_of_vacant_constant hv

/-- At a value that is no block and not void, it fails softly as well. -/
theorem Meets.walk_barred {v : Value} {mark : Bool} (hm : h.Meets p names q name rest)
    (hrest : rest ≠ []) (hb : h.look q name = some ⟨v, mark⟩) (hvoid : v ≠ .void)
    (hblock : ∀ c, v ≠ .block c) :
    walk p.reach p.scope p.constant names h
      = .error (.soft (.throughNonBlock name v.kind)) h := by
  obtain ⟨next, rest, rfl⟩ := List.exists_cons_of_ne_nil hrest
  rw [look_eq_own?_home] at hb
  rw [hm.walk_eq]
  exact walk_of_other hb hvoid hblock

/-- A constant void cannot become a block, which stops the evaluation. -/
theorem Meets.walk_unmakeable (hm : h.Meets p names q name rest) (hrest : rest ≠ [])
    (hmut : q.constant = false) (hb : h.look q name = some ⟨.void, true⟩) :
    walk p.reach p.scope p.constant names h = .error (.hard (.redeclared name)) h := by
  obtain ⟨next, rest, rfl⟩ := List.exists_cons_of_ne_nil hrest
  have hv := vacantAt_of_void hb
  rw [look_eq_own?_home] at hb
  rw [hm.walk_eq, hmut]
  exact walk_of_vacant_unmakeable hv hb

end Ends

/-- The five ways in which a walk can end, each with what it has met. -/
inductive Ending (h : Heap) (p : Place) (names : List String) :
    EStateM.Result Failure Heap Arrival → Prop
  | arrived {q : Place} {last : String} (hm : h.Meets p names q last [])
      (hready : q.constant = true → ¬ h.VacantAt q last) : Ending h p names (.ok ⟨q.scope, []⟩ h)
  | made {q : Place} {name last : String} {inner : List String}
      (hm : h.Meets p names q name (inner ++ [last])) (hmut : q.constant = false)
      (hf : h.Free q name) :
      Ending h p names (.ok ⟨h.scopes.size + inner.length, name :: inner⟩
        (h.withBlocks (h.home q.reach q.scope name) q.scope (name :: inner)))
  | refused {q : Place} {name : String} {rest : List String} (hm : h.Meets p names q name rest)
      (hconst : q.constant = true) (hv : h.VacantAt q name) :
      Ending h p names (.error (.soft (.vacantMember name)) h)
  | barred {q : Place} {name : String} {rest : List String} {v : Value} {mark : Bool}
      (hm : h.Meets p names q name rest) (hrest : rest ≠ [])
      (hb : h.look q name = some ⟨v, mark⟩) (hvoid : v ≠ .void) (hblock : ∀ c, v ≠ .block c) :
      Ending h p names (.error (.soft (.throughNonBlock name v.kind)) h)
  | unmakeable {q : Place} {name : String} {rest : List String}
      (hm : h.Meets p names q name rest) (hrest : rest ≠ []) (hmut : q.constant = false)
      (hb : h.look q name = some ⟨.void, true⟩) :
      Ending h p names (.error (.hard (.redeclared name)) h)

/-- **A walk ends in one of five ways.** -/
theorem walk_ending (h : Heap) (p : Place) {names : List String} (hne : names ≠ []) :
    h.Ending p names (walk p.reach p.scope p.constant names h) := by
  rcases h.meets_last_or_gap p hne with ⟨q, last, hm⟩ | ⟨q, name, rest, hrest, hm, hgap⟩
  · -- all names before the last are blocks
    by_cases hready : q.constant = true → ¬ h.VacantAt q last
    · rw [hm.walk_arrived hready]
      exact .arrived hm hready
    · rw [Classical.not_imp, Classical.not_not] at hready
      rw [hm.walk_refused hready.1 hready.2]
      exact .refused hm hready.1 hready.2
  · -- the first name that is no block decides
    rcases h.look_cases q name with hf | hvoid | ⟨inner, mark, hb⟩ | ⟨v, mark, hb, hvoid, hblock⟩
    · rcases hc : q.constant with - | -
      · obtain ⟨inner, last, rfl⟩ : ∃ inner last, rest = inner ++ [last] :=
          ⟨_, _, (List.dropLast_concat_getLast hrest).symm⟩
        rw [hm.walk_made hc hf]
        exact .made hm hc hf
      · rw [hm.walk_refused hc hf.vacantAt]
        exact .refused hm hc hf.vacantAt
    · rcases hc : q.constant with - | -
      · rw [hm.walk_unmakeable hrest hc hvoid]
        exact .unmakeable hm hrest hc hvoid
      · rw [hm.walk_refused hc (vacantAt_of_void hvoid)]
        exact .refused hm hc (vacantAt_of_void hvoid)
    · exact absurd hb (hgap inner mark)
    · rw [hm.walk_barred hrest hb hvoid hblock]
      exact .barred hm hrest hb hvoid hblock

/-! ### Binding the last name -/

/-- Walks a path and binds its last name in the scope that it leads to. -/
def assignMember (e : ScopeId) (segments : List String) (b : Binding) : HeapAction Unit := do
  let arrival ← resolvePath e segments b.constant
  assignOwn arrival.scope ((segments.map strip).getLastD "") b

/-- The last name of a path can be bound at a place: it is mutable and not
void, or the context is mutable and it is unbound or a mutable void. -/
def Bindable (h : Heap) (q : Place) (last : String) : Prop :=
  (∃ w, w ≠ .void ∧ h.own? q.scope last = some ⟨w, false⟩) ∨
    q.constant = false ∧
      (h.own? q.scope last = none ∨ h.own? q.scope last = some ⟨.void, false⟩)

section Last

variable {h : Heap} {p q : Place} {name last : String} {names inner : List String}

theorem Meets.getLastD_made (hm : h.Meets p names q name (inner ++ [last])) :
    names.getLastD "" = last := by
  obtain ⟨before, rfl, -⟩ := hm
  rw [← List.cons_append, ← List.append_assoc, List.getLastD_eq_getLast?, List.getLast?_concat,
    Option.getD_some]

theorem Meets.getLastD_last (hm : h.Meets p names q last []) : names.getLastD "" = last := by
  obtain ⟨before, rfl, -⟩ := hm
  rw [List.getLastD_eq_getLast?, List.getLast?_concat, Option.getD_some]

end Last

/-- A bindable name is one at which a walk may end and which is not constant. -/
theorem bindable_iff {h : Heap} {q : Place} {last : String} (hq : q.reach = .own) :
    h.Bindable q last ↔ (q.constant = true → ¬ h.VacantAt q last) ∧
      ∀ old, h.own? q.scope last = some old → old.constant = false := by
  rw [vacantAt_iff, look_of_own hq, Bindable]
  -- a table of all cases: unbound or bound, and the context
  rcases h.own? q.scope last with - | ⟨w, mark⟩ <;> cases q.constant <;> grind

/-- The innermost of the new scopes is empty. -/
theorem table_withBlocks_innermost (h : Heap) (s p : ScopeId) (name : String)
    (inner : List String) :
    (h.withBlocks s p (name :: inner)).table (h.scopes.size + inner.length) = .empty := by
  induction inner generalizing h s p name with
  | nil => exact table_withBlock_size h s name p
  | cons next inner ih =>
    have hnext := ih (h.withBlock s name p) h.scopes.size h.scopes.size next
    rw [size_withBlock, Nat.add_assoc, Nat.add_comm 1] at hnext
    exact hnext

section Member

variable {h h' : Heap} {e : ScopeId} {segments : List String} {b : Binding}

theorem resolvePath_of_meets {constant : Bool} {q : Place} {name : String} {rest : List String}
    (hnames : "" ∉ segments.map strip)
    (hm : h.Meets (.start e constant) (segments.map strip) q name rest) :
    resolvePath e segments constant h = walk .chain e constant (segments.map strip) h := by
  obtain ⟨before, hsplit, -⟩ := hm
  unfold resolvePath
  rw [if_neg (by simpa [hsplit] using hnames)]

/-- A path with a blank name on it is refused at once; any other ends as a
walk does. -/
theorem resolvePath_ending (e : ScopeId) (segments : List String) (constant : Bool) (h : Heap) :
    resolvePath e segments constant h = .error (.soft (.invalidPath (segments.map strip))) h ∨
      "" ∉ segments.map strip ∧
        h.Ending (.start e constant) (segments.map strip) (resolvePath e segments constant h) := by
  unfold resolvePath
  by_cases hblank : (segments.map strip = [] || (segments.map strip).contains "") = true
  · rw [if_pos hblank]
    exact .inl rfl
  · rw [if_neg hblank]
    obtain ⟨hne, hnames⟩ : segments.map strip ≠ [] ∧ "" ∉ segments.map strip := by
      simpa using hblank
    exact .inr ⟨hnames, walk_ending h (.start e constant) hne⟩

theorem assignMember_of_ok {arrival : Arrival} {h₁ : Heap}
    (hr : resolvePath e segments b.constant h = .ok arrival h₁) :
    assignMember e segments b h
      = assignOwn arrival.scope ((segments.map strip).getLastD "") b h₁ :=
  bind_of_ok hr

theorem assignMember_of_error {f : Failure} {h₁ : Heap}
    (hr : resolvePath e segments b.constant h = .error f h₁) :
    assignMember e segments b h = .error f h₁ :=
  bind_of_error hr

/-- An assignment succeeds if the path can be walked and leads to no constant. -/
theorem assignMember_ok_iff :
    assignMember e segments b h = .ok () h' ↔
      ∃ arrival h₁, resolvePath e segments b.constant h = .ok arrival h₁ ∧
        (∀ old, h₁.own? arrival.scope ((segments.map strip).getLastD "") = some old →
          old.constant = false) ∧
        h' = h₁.write arrival.scope ((segments.map strip).getLastD "") b := by
  constructor
  · intro hok
    rcases hr : resolvePath e segments b.constant h with ⟨arrival, h₁⟩ | ⟨f, h₁⟩
    · rw [assignMember_of_ok hr] at hok
      refine ⟨arrival, h₁, rfl, ?_⟩
      rcases h₁.mutable_or_constant arrival.scope ((segments.map strip).getLastD "") with
        hmut | ⟨v, hconst⟩
      · rw [assignOwn_of_mutable hmut] at hok
        cases hok
        exact ⟨hmut, rfl⟩
      · rw [assignOwn_of_constant hconst] at hok
        cases hok
    · rw [assignMember_of_error hr] at hok
      cases hok
  · rintro ⟨arrival, h₁, hr, hmut, rfl⟩
    rw [assignMember_of_ok hr, assignOwn_of_mutable hmut]

theorem Meets.reach_of_member {q : Place} {last : String} {constant : Bool}
    (hlong : 2 ≤ segments.length)
    (hm : h.Meets (.start e constant) (segments.map strip) q last []) : q.reach = .own :=
  hm.reach_eq_own (by simpa using hlong)

/-- What a successful assignment to a member has met, and the heap it leaves. -/
inductive MemberSet (h : Heap) (p : Place) (names : List String) (b : Binding) : Heap → Prop
  | bound {q : Place} {last : String} (hm : h.Meets p names q last []) (hbind : h.Bindable q last) :
      MemberSet h p names b (h.write q.scope last b)
  | made {q : Place} {name last : String} {inner : List String}
      (hm : h.Meets p names q name (inner ++ [last])) (hmut : q.constant = false)
      (hf : h.Free q name) :
      MemberSet h p names b
        ((h.withBlocks (h.home q.reach q.scope name) q.scope (name :: inner)).write
          (h.scopes.size + inner.length) last b)

/-- A successful assignment has met bindable or free names only. -/
theorem memberSet_of_ok (hlong : 2 ≤ segments.length)
    (hok : assignMember e segments b h = .ok () h') :
    h.MemberSet (.start e b.constant) (segments.map strip) b h' := by
  obtain ⟨arrival, h₁, hr, hmut, rfl⟩ := assignMember_ok_iff.1 hok
  have hend := resolvePath_ending e segments b.constant h
  rw [hr] at hend
  obtain ⟨-, hend⟩ := hend.resolve_left (by simp)
  cases hend with
  | arrived hm hready =>
    rw [hm.getLastD_last] at hmut ⊢
    exact .bound hm ((bindable_iff (hm.reach_of_member hlong)).2 ⟨hready, hmut⟩)
  | made hm hctx hf =>
    rw [hm.getLastD_made]
    exact .made hm hctx hf

theorem assignMember_of_bindable {q : Place} {last : String} (hlong : 2 ≤ segments.length)
    (hnames : "" ∉ segments.map strip)
    (hm : h.Meets (.start e b.constant) (segments.map strip) q last [])
    (hbind : h.Bindable q last) :
    assignMember e segments b h = .ok () (h.write q.scope last b) := by
  obtain ⟨hready, hmut⟩ := (bindable_iff (hm.reach_of_member hlong)).1 hbind
  have hr := (resolvePath_of_meets hnames hm).trans (hm.walk_arrived hready)
  refine assignMember_ok_iff.2 ⟨_, _, hr, ?_, ?_⟩
  · rw [hm.getLastD_last]
    exact hmut
  · rw [hm.getLastD_last]

theorem assignMember_of_free {q : Place} {name last : String} {inner : List String}
    (hnames : "" ∉ segments.map strip)
    (hm : h.Meets (.start e b.constant) (segments.map strip) q name (inner ++ [last]))
    (hmut : q.constant = false) (hf : h.Free q name) :
    assignMember e segments b h = .ok ()
      ((h.withBlocks (h.home q.reach q.scope name) q.scope (name :: inner)).write
        (h.scopes.size + inner.length) last b) := by
  have hr := (resolvePath_of_meets hnames hm).trans (hm.walk_made hmut hf)
  refine assignMember_ok_iff.2 ⟨_, _, hr, ?_, ?_⟩
  · -- the scope of the last name was just made
    intro old hold
    rw [own?, table_withBlocks_innermost] at hold
    cases hold
  · rw [hm.getLastD_made]

/-- Behind a first name that is a block, the constancy of the assignment no
longer matters for the walk. -/
theorem resolvePath_of_first_block {first : String} {inner : ScopeId} {mark : Bool}
    (hlong : 2 ≤ segments.length) (hfirst : (segments.map strip).head? = some first)
    (hb : h.binding? e first = some ⟨.block inner, mark⟩) (c c' : Bool) :
    resolvePath e segments c h = resolvePath e segments c' h := by
  obtain ⟨s, t, rest, rfl⟩ : ∃ s t rest, segments = s :: t :: rest := by
    rcases segments with - | ⟨s, - | ⟨t, rest⟩⟩
    · simp at hlong
    · simp at hlong
    · exact ⟨s, t, rest, rfl⟩
  obtain rfl : strip s = first := by simpa using hfirst
  have hslot : h.own? (h.home .chain e (strip s)) (strip s) = some ⟨.block inner, mark⟩ :=
    (find?_eq_own?_home h .chain e (strip s)).symm.trans hb
  unfold resolvePath
  split
  · rfl
  · -- inside the block, the context is that of its binding
    simp only [List.map_cons]
    rw [walk_of_block hslot, walk_of_block hslot]

end Member

/-- **When an assignment to a member succeeds.**  Let the names of a path be
looked up one after the other, the first along the chain and each later one in
the block before it.  If all names before the last are blocks, then the last
one must be bindable in the innermost of them: a mutable binding that is not
void, or a free name in a block that is itself bound as mutable.  Otherwise the
first name that is no block must be free and its context mutable, the context
being the block around it or, for the first name of the path, the assignment.
So the constancy of the assignment matters only if the first name is no block. -/
theorem member_assignment_succeeds_iff (h : Heap) (e : ScopeId) (segments : List String)
    (constant : Bool) (v : Value) (hlong : 2 ≤ segments.length)
    (hnames : "" ∉ segments.map strip) :
    ((∃ h', assignMember e segments ⟨v, constant⟩ h = .ok () h') ↔
      (∃ q last, h.Meets (.start e constant) (segments.map strip) q last [] ∧
        h.Bindable q last) ∨
      ∃ q name rest, rest ≠ [] ∧ h.Meets (.start e constant) (segments.map strip) q name rest ∧
        q.constant = false ∧ h.Free q name) ∧
    ∀ first inner mark, (segments.map strip).head? = some first →
      h.binding? e first = some ⟨.block inner, mark⟩ →
      ∀ other, (∃ h', assignMember e segments ⟨v, constant⟩ h = .ok () h') ↔
        ∃ h', assignMember e segments ⟨v, other⟩ h = .ok () h' := by
  refine ⟨⟨?_, ?_⟩, ?_⟩
  · rintro ⟨h', hok⟩
    cases memberSet_of_ok hlong hok with
    | bound hm hbind => exact .inl ⟨_, _, hm, hbind⟩
    | made hm hmut hf => exact .inr ⟨_, _, _, by simp, hm, hmut, hf⟩
  · rintro (⟨q, last, hm, hbind⟩ | ⟨q, name, rest, hrest, hm, hmut, hf⟩)
    · exact ⟨_, assignMember_of_bindable hlong hnames hm hbind⟩
    · obtain ⟨inner, last, rfl⟩ : ∃ inner last, rest = inner ++ [last] :=
        ⟨_, _, (List.dropLast_concat_getLast hrest).symm⟩
      exact ⟨_, assignMember_of_free hnames hm hmut hf⟩
  · intro first inner mark hfirst hb other
    simp only [assignMember_ok_iff]
    rw [resolvePath_of_first_block hlong hfirst hb constant other]
    constructor <;> rintro ⟨_, arrival, h₁, hr, hmut, -⟩ <;> exact ⟨_, arrival, h₁, hr, hmut, rfl⟩

/-- With `p` a mutable block without members, `p.q.r` can be bound, as a
constant and as a mutable. -/
theorem member_assignment_succeeds_in_block :
    let h : Heap := (Heap.initial.extend 0).2.write 0 "p" ⟨.block 1, false⟩
    (∃ h', assignMember 0 [" p ", "q", "r"] ⟨.boolean true, true⟩ h = .ok () h') ∧
      ∃ h', assignMember 0 [" p ", "q", "r"] ⟨.boolean true, false⟩ h = .ok () h' := by
  intro h
  obtain ⟨hiff, hblock⟩ := member_assignment_succeeds_iff h 0 [" p ", "q", "r"] true
    (.boolean true) (by decide) (by decide)
  have hp : h.look (.start 0 true) "p" = some ⟨.block 1, false⟩ := look_start_of_own? rfl
  have hq : h.Meets (.start 0 true) ([" p ", "q", "r"].map strip) ⟨.own, 1, false⟩ "q" ["r"] :=
    ⟨["p"], by decide, descend_of_block hp⟩
  have hok := hiff.2 (.inr ⟨_, _, _, by simp, hq, rfl, .inl rfl⟩)
  exact ⟨hok, (hblock "p" 1 false (by decide) hp false).1 hok⟩

end Heap

end BlockScript
