/-
BlockScript/Proofs/Observers.lean

What a declaration changes for every observer.

A declaration sets one slot, that of the name in its home.  The slot shows in
every scope whose chain comes to it before any other binding of the name, and
in no other: not in scopes that shadow the name, and not beside the home.

    binding? h' d other  =  b                  if other = name and d resolves
                                               the name where e does,
    binding? h' d other  =  binding? h d other     otherwise.

The home itself may be new to the chains that run through it.  It is then the
nearest binding on them, so the equation speaks of where names resolve
afterwards.
-/
import BlockScript.Proofs.Frame

namespace BlockScript.Heap

/-! ### The nearest binding -/

/-- The first binding of a name on the way outwards from a scope. -/
def nearest? (h : Heap) (e : ScopeId) (name : String) : Option Binding :=
  (h.chain e).findSome? (h.own? · name)

/-- The nearest binding of a name is constant. -/
def NearestConstant (h : Heap) (e : ScopeId) (name : String) : Prop :=
  ∃ v, h.nearest? e name = some ⟨v, true⟩

/-- A name is bound to what its nearest binding says. -/
theorem binding?_eq_nearest? (h : Heap) (e : ScopeId) (name : String) :
    h.binding? e name = h.nearest? e name := by
  rw [binding?, resolve?_eq_find?, nearest?]
  -- on the scopes from `e` outwards: the first that binds the name ends both searches
  induction h.chain e with
  | nil => rfl
  | cons s rest ih =>
    rw [List.find?_cons, List.findSome?_cons]
    rcases hb : h.own? s name with - | b
    · have hfree : (h.table s).contains name = false :=
        Option.isSome_eq_false_iff.2 (Option.isNone_iff_eq_none.2 hb)
      rw [hfree]
      exact ih
    · have hbound : (h.table s).contains name = true := Option.isSome_of_eq_some hb
      rw [hbound]
      exact hb

/-- The nearest binding of a name is the one in its slot. -/
theorem nearest?_eq_own?_home (h : Heap) (e : ScopeId) (name : String) :
    h.nearest? e name = h.own? (h.home .chain e name) name := by
  rw [← binding?_eq_nearest?]
  exact find?_eq_own?_home h .chain e name

/-! ### Resolution around a slot that is set -/

/-- A search that does not stop at the one place that changed finds what it found before. -/
theorem find?_eq_of_ne {α : Type} {p p' : α → Bool} {s : α} {l : List α} (hs : p' s = true)
    (hsame : ∀ a ∈ l, a ≠ s → p' a = p a) (hne : l.find? p' ≠ some s) :
    l.find? p' = l.find? p := by
  induction l with
  | nil => rfl
  | cons a rest ih =>
    have ha : a ≠ s := by
      rintro rfl
      exact hne (List.find?_cons_of_pos hs)
    have hpa := hsame a List.mem_cons_self ha
    rw [List.find?_cons] at hne ⊢
    rw [List.find?_cons, ← hpa]
    cases hp : p' a with
    | true => rfl
    | false =>
      rw [hp] at hne
      exact ih (fun c hc => hsame c (List.mem_cons_of_mem a hc)) hne

section Observed

variable {h h' : Heap} {s d e : ScopeId} {name other : String}

/-- Of a scope that is looked into, every other slot is as it was. -/
theorem DiffersAt.own?_of_mem_chain (hd : DiffersAt (s, name) h h') (hlt : d < h.scopes.size)
    {a : ScopeId} (ha : a ∈ h.chain d) (hne : (a, other) ≠ (s, name)) :
    h'.own? a other = h.own? a other :=
  hd.own?_eq a other (Nat.lt_of_le_of_lt (le_of_mem_chain ha) hlt) hne

/-- Another name resolves as it did. -/
theorem DiffersAt.resolve?_of_ne (hd : DiffersAt (s, name) h h') (hlt : d < h.scopes.size)
    (hne : other ≠ name) : h'.resolve? d other = h.resolve? d other := by
  refine resolve?_congr (hd.chain_eq hlt) fun a ha => ?_
  rw [hd.own?_of_mem_chain hlt ha fun heq => hne (congrArg Prod.snd heq)]

/-- The name itself resolves as it did, if it does not resolve to the slot. -/
theorem DiffersAt.resolve?_beside (hd : DiffersAt (s, name) h h') (hlt : d < h.scopes.size)
    (hbound : (h'.own? s name).isSome) (hne : h'.resolve? d name ≠ some s) :
    h'.resolve? d name = h.resolve? d name := by
  rw [resolve?_eq_find?] at hne ⊢
  rw [resolve?_eq_find?]
  rw [hd.chain_eq hlt] at hne ⊢
  refine find?_eq_of_ne hbound ?_ hne
  intro a ha has
  have hslot : (a, name) ≠ (s, name) := fun heq => has (congrArg Prod.fst heq)
  exact congrArg Option.isSome (hd.own?_of_mem_chain hlt ha hslot)

/-- A name that resolves as it did, and not to the slot, is bound to what it
was. -/
theorem DiffersAt.binding?_eq (hd : DiffersAt (s, name) h h') (hlt : d < h.scopes.size)
    (hresolve : h'.resolve? d other = h.resolve? d other)
    (hne : ∀ a, h.resolve? d other = some a → (a, other) ≠ (s, name)) :
    h'.binding? d other = h.binding? d other := by
  rw [binding?, binding?, hresolve]
  rcases hr : h.resolve? d other with - | a
  · rfl
  · have hslot := hne a hr
    rw [resolve?_eq_find?] at hr
    exact hd.own?_of_mem_chain hlt (List.mem_of_find?_eq_some hr) hslot

/-- A name whose slot is set resolves to its slot. -/
theorem DiffersAt.resolve?_home (hd : DiffersAt (h.home .chain e name, name) h h')
    (he : e < h.scopes.size) (hbound : (h'.own? (h.home .chain e name) name).isSome) :
    h'.resolve? e name = some (h.home .chain e name) := by
  have hhome := hd.home_of_bound he hbound
  rcases hr : h'.resolve? e name with - | a
  · -- a name that resolves nowhere has an empty slot in its own scope
    have hself : h.home .chain e name = e := by
      rw [← hhome, home, hr]
      rfl
    rw [hself, resolve?_eq_none_iff.1 hr e (mem_chain_self h' e)] at hbound
    cases hbound
  · rw [home, hr] at hhome
    exact congrArg some hhome

end Observed

/-! ### Declarations -/

/-- How the scopes of `h` see `h'`, after a name was declared in `e`.  It is
where it was or, if it was nowhere, in `e` itself; the scopes that resolve it
there see the new binding, and nothing else is seen to change. -/
structure Observes (h : Heap) (e : ScopeId) (name : String) (b : Binding) (h' : Heap) : Prop where
  resolves : h'.resolve? e name = some ((h.resolve? e name).getD e)
  binding : ∀ d < h.scopes.size, ∀ other,
    h'.binding? d other =
      if other = name ∧ h'.resolve? d name = h'.resolve? e name then some b
      else h.binding? d other

/-- Setting the slot of a name is seen where the name resolves to it. -/
theorem observes_write {h : Heap} {e : ScopeId} (he : e < h.scopes.size) (name : String)
    (b : Binding) : h.Observes e name b (h.write (h.home .chain e name) name b) := by
  have hd := differsAt_write h (h.home .chain e name) name b
  have hset : (h.write (h.home .chain e name) name b).own? (h.home .chain e name) name
      = some b := by
    rw [own?_write, if_pos ⟨rfl, home_lt_size he, rfl⟩]
  have hbound := Option.isSome_of_eq_some hset
  have hresolves := hd.resolve?_home he hbound
  refine ⟨hresolves, fun d hlt other => ?_⟩
  rw [hresolves]
  split
  next hseen =>
    obtain ⟨rfl, hr⟩ := hseen
    rw [binding?, hr]
    exact hset
  next hunseen =>
    by_cases hother : other = name
    · -- the name is shadowed, or `d` lies beside its home
      subst hother
      have hbeside := hd.resolve?_beside hlt hbound fun hr => hunseen ⟨rfl, hr⟩
      refine hd.binding?_eq hlt hbeside fun a ha heq => hunseen ⟨rfl, ?_⟩
      rw [hbeside, ha]
      exact congrArg (fun slot => some slot.1) heq
    · exact hd.binding?_eq hlt (hd.resolve?_of_ne hlt hother)
        fun a _ heq => hother (congrArg Prod.snd heq)

/-- **What a declaration changes for every observer.**  It is refused, and
nothing changes, just if the nearest binding of the name is constant.
Otherwise it succeeds; the scopes that now resolve the name where `e` does see
the new binding, and all that the scopes see besides is what they saw before. -/
theorem declaration_observed {h : Heap} {e : ScopeId} (he : e < h.scopes.size) (name : String)
    (b : Binding) :
    (declare e name b h = .error (.hard (.redeclared name)) h ↔ h.NearestConstant e name) ∧
      (¬ h.NearestConstant e name →
        ∃ h', declare e name b h = .ok () h' ∧ h.Observes e name b h') := by
  have hput : declare e name b h = _ := put_eq_assignOwn_home h .chain e name b
  unfold NearestConstant
  rw [hput, nearest?_eq_own?_home]
  rcases h.mutable_or_constant (h.home .chain e name) name with hmut | hconst
  · have hfree : ¬ ∃ v, h.own? (h.home .chain e name) name = some ⟨v, true⟩ := by
      rintro ⟨v, hv⟩
      cases hmut _ hv
    rw [assignOwn_of_mutable hmut]
    refine ⟨⟨?_, fun hc => absurd hc hfree⟩, fun _ => ⟨_, rfl, observes_write he name b⟩⟩
    rintro ⟨⟩
  · obtain ⟨v, hv⟩ := hconst
    rw [assignOwn_of_constant hv]
    exact ⟨⟨fun _ => ⟨v, hv⟩, fun _ => rfl⟩, fun hfree => absurd ⟨v, hv⟩ hfree⟩

/-- Scopes one and two lie in scope zero, and `x` is bound in scopes zero and
one.  Declared in scope two, it is set in scope zero. -/
theorem declaration_observed_beside_shadow :
    let root : Table := Table.empty.set "x" ⟨.void, false⟩
    let shadow : Table := Table.empty.set "x" ⟨.boolean false, true⟩
    let h : Heap := { scopes := #[{ table := root }, { parent := some 0, table := shadow },
      { parent := some 0 }] }
    let b : Binding := ⟨.boolean true, true⟩
    2 < h.scopes.size ∧ ¬ h.NearestConstant 2 "x" ∧
      ∃ h', declare 2 "x" b h = .ok () h' ∧ h.Observes 2 "x" b h' := by
  intro root shadow h b
  have he : 2 < h.scopes.size := by decide
  have hfree : ¬ h.NearestConstant 2 "x" := by
    have hchain : h.chain 2 = [2, 0] := by
      rw [chain, show h.parent? 2 = some 0 from rfl]
      simp only [Nat.zero_lt_succ, if_true]
      rw [chain, show h.parent? 0 = none from rfl]
    rintro ⟨v, hv⟩
    rw [nearest?, hchain] at hv
    cases hv
  exact ⟨he, hfree, (declaration_observed he "x" b).2 hfree⟩

end BlockScript.Heap
