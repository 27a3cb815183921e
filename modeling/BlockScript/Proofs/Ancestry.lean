/-
BlockScript/Proofs/Ancestry.lean

Every walk outwards ends in the root.

Blocks can hold themselves, and a block that was made for a path may be bound
further out than the scope it hangs on, so what is bound where says nothing
about parents.  The order in which scopes are made does: a scope hangs on one
that was there before it,

    parent? s = some p  →  p < s,

and of all scopes only the first has no parent (`Rooted`).  Whatever an
evaluation does to a heap keeps this, and so does each operation of a host
that names scopes of the heap only.

The searches along a chain are stated as loops without a measure, `Climbs` and
`Searches`, which have a result only if they come to an end.
-/
import BlockScript.Proofs.Frame
import BlockScript.Proofs.Growth

namespace BlockScript

namespace Heap

/-! ### Heaps with one root -/

/-- Each scope but the first is inside an older one. -/
structure Rooted (h : Heap) : Prop where
  root : h.parent? 0 = none
  older : ∀ s, 0 < s → s < h.scopes.size → ∃ p, h.parent? s = some p ∧ p < s

theorem parent?_of_size_le {h : Heap} {s : ScopeId} (hs : h.scopes.size ≤ s) :
    h.parent? s = none := by
  simp [parent?, hs]

namespace Rooted

variable {h h' : Heap} {p s : ScopeId}

/-- Whatever number is asked for, the parent is older; there is none outside the heap. -/
theorem parent_lt (hr : h.Rooted) (hp : h.parent? s = some p) : p < s := by
  rcases Nat.eq_zero_or_pos s with rfl | hpos
  · rw [hr.root] at hp
    cases hp
  · rcases Nat.lt_or_ge s h.scopes.size with hs | hs
    · obtain ⟨q, hq, hlt⟩ := hr.older s hpos hs
      rw [hq] at hp
      cases hp
      exact hlt
    · rw [parent?_of_size_le hs] at hp
      cases hp

/-- Only the root has no parent. -/
theorem eq_zero_of_parent? (hr : h.Rooted) (hs : s < h.scopes.size)
    (hnone : h.parent? s = none) : s = 0 := by
  rcases Nat.eq_zero_or_pos s with hzero | hpos
  · exact hzero
  · obtain ⟨p, hp, -⟩ := hr.older s hpos hs
    rw [hnone] at hp
    cases hp

/-- Writing sets slots and leaves the parents alone. -/
theorem write (hr : h.Rooted) (s : ScopeId) (name : String) (b : Binding) :
    (h.write s name b).Rooted where
  root := (parent?_write h s 0 name b).trans hr.root
  older f hpos hf := by
    rw [size_write] at hf
    rw [parent?_write]
    exact hr.older f hpos hf

/-- A new scope gets the next number, which is above that of its parent. -/
theorem extend (hr : h.Rooted) (hp : p < h.scopes.size) : (h.extend p).2.Rooted where
  root := by
    rw [parent?_extend, if_neg (Nat.ne_of_lt (Nat.zero_lt_of_lt hp)), hr.root]
  older s hpos hs := by
    rw [size_extend] at hs
    rw [parent?_extend]
    split
    next hnew => exact ⟨p, rfl, hnew ▸ hp⟩
    next hold => exact hr.older s hpos (Nat.lt_of_le_of_ne (Nat.le_of_lt_succ hs) hold)

theorem withBlock (hr : h.Rooted) (s : ScopeId) (name : String) (hp : p < h.scopes.size) :
    (h.withBlock s name p).Rooted :=
  (hr.write s name _).extend (by rwa [size_write])

end Rooted

/-! ### Evaluations -/

/-- A slot that an evaluation sets is in a scope of the heap. -/
theorem Settable.lt_size {h h' : Heap} {e s : ScopeId} {name : String}
    (hs : Settable e h h' s name) (hclosed : h.Closed)
    (hsize : h.scopes.size ≤ h'.scopes.size) (he : e < h'.scopes.size) :
    s < h'.scopes.size := by
  rcases hs.place with rfl | hknown
  · exact home_lt_size he
  · rcases hknown s rfl with hw | ⟨-, hlt⟩
    · exact Nat.lt_of_lt_of_le (hclosed s hw) hsize
    · exact hlt

/-- Evaluations keep the order of making: the scope of a block hangs on the scope
at hand, and one made for a path on the scope at hand or on one that was reached. -/
theorem Rooted.evolves {h h' : Heap} {e : ScopeId} (hr : h.Rooted) (hclosed : h.Closed)
    (he : e < h.scopes.size) (hev : Evolves e h h') : h'.Rooted := by
  induction hev with
  | refl => exact hr
  | set _ _ _ ih => exact (ih hr hclosed he).write _ _ _
  | @bindNew e h h' s p name hev hs hp ih =>
    -- the new scope gets the next number, and its parent has one already
    have he' : e < h'.scopes.size := Nat.lt_of_lt_of_le he hev.size_le
    refine (ih hr hclosed he).withBlock s name ?_
    rcases hp with rfl | rfl
    · exact he'
    · exact hs.lt_size hclosed hev.size_le he'
  | @inside e h h' h'' hev _ ih ihInner =>
    have he' : e < h'.scopes.size := Nat.lt_of_lt_of_le he hev.size_le
    apply ihInner ((ih hr hclosed he).extend he') ((hclosed.evolves hev).extend e)
    rw [size_extend]
    exact Nat.lt_succ_self _

end Heap

/-! ### Reachable heaps -/

/-- A value that can be bound in a heap: a block is that of one of its scopes. -/
def Heap.Holds (h : Heap) : Value → Prop
  | .block c => c < h.scopes.size
  | _ => True

instance (h : Heap) (v : Value) : Decidable (h.Holds v) :=
  match v with
  | .block c => inferInstanceAs (Decidable (c < h.scopes.size))
  | .void | .number _ | .string _ | .boolean _ | .function _ | .iterator _ => isTrue trivial

namespace Operation

/-- An operation names only scopes of the heap. -/
def Fits (h : Heap) (op : Operation) : Prop :=
  op.scope < h.scopes.size ∧ h.Holds op.value

instance (h : Heap) (op : Operation) : Decidable (op.Fits h) :=
  inferInstanceAs (Decidable (_ ∧ _))

end Operation

namespace Heap

/-- The heaps that come from a single empty scope, whether the operations on the
way succeed or fail. -/
inductive Reachable : Heap → Prop
  | root {h : Heap} : h.scopes = #[{}] → Reachable h
  | step {h : Heap} (op : Operation) : Reachable h → op.Fits h → Reachable (op.apply h)

/-- What all reachable heaps have in common. -/
structure Orderly (h : Heap) : Prop where
  rooted : h.Rooted
  closed : h.Closed

/-- A single empty scope is the root, and nothing is bound in it. -/
theorem orderly_of_single {h : Heap} (hscopes : h.scopes = #[{}]) : h.Orderly := by
  have hsize : h.scopes.size = 1 := by rw [hscopes]; rfl
  have houter : ∀ s, 0 < s → h.scopes.size ≤ s := fun s hpos => hsize ▸ hpos
  -- there is no scope but the root, so its parent and its table are all there is to see
  refine ⟨⟨?_, fun s hpos hs => ?_⟩, .of_unbound fun s name => ?_⟩
  · rw [parent?, hscopes]
    rfl
  · exact absurd hs (Nat.not_lt_of_le (houter s hpos))
  · rcases Nat.eq_zero_or_pos s with rfl | hpos
    · rw [own?, table, hscopes]
      rfl
    · exact own?_of_size_le (houter s hpos) name

theorem Orderly.evolves {h h' : Heap} {e : ScopeId} (ho : h.Orderly) (he : e < h.scopes.size)
    (hev : Evolves e h h') : h'.Orderly :=
  ⟨ho.rooted.evolves ho.closed he hev, ho.closed.evolves hev⟩

/-- A failed assignment leaves the heap, and one that succeeds sets a slot to a value that
the heap holds. -/
theorem Orderly.assignOwn {h : Heap} {b : Binding} (ho : h.Orderly) (s : ScopeId)
    (name : String) (hb : h.Holds b.value) : (after (Heap.assignOwn s name b h)).Orderly := by
  rcases h.mutable_or_constant s name with hmut | ⟨v, hconst⟩
  · rw [assignOwn_of_mutable hmut]
    refine ⟨ho.rooted.write s name b, ho.closed.write s name fun c hc => ?_⟩
    rw [hc] at hb
    exact hb
  · rw [assignOwn_of_constant hconst]
    exact ho

/-- **Each operation keeps a heap orderly**, also one that fails. -/
theorem Orderly.apply {h : Heap} {op : Operation} (ho : h.Orderly) (hfits : op.Fits h) :
    (op.apply h).Orderly := by
  -- an operation adds a scope, binds a value, or does what an evaluation may do
  rcases op.apply_cases h with hadded | ⟨s, name, b, hb, hbound⟩ | hev
  · rw [hadded]
    exact ⟨ho.rooted.extend hfits.1, ho.closed.extend op.scope⟩
  · rw [hbound]
    exact ho.assignOwn s name (hb ▸ hfits.2)
  · exact ho.evolves hfits.1 hev

theorem Reachable.orderly {h : Heap} (hreach : h.Reachable) : h.Orderly := by
  induction hreach with
  | root hscopes => exact orderly_of_single hscopes
  | step op _ hfits ih => exact ih.apply hfits

/-! ### Walking outwards -/

/-- Walking outwards from a scope until there is none: all scopes on the way. -/
inductive Climbs (h : Heap) : Option ScopeId → List ScopeId → Prop
  | outside : Climbs h none []
  | step {s : ScopeId} {scopes : List ScopeId} :
      Climbs h (h.parent? s) scopes → Climbs h (some s) (s :: scopes)

/-- Walking outwards until a scope binds a name, or there is none. -/
inductive Searches (h : Heap) (name : String) : Option ScopeId → Option ScopeId → Prop
  | outside : Searches h name none none
  | found {s : ScopeId} : (h.table s).contains name = true → Searches h name (some s) (some s)
  | outwards {s : ScopeId} {found : Option ScopeId} : (h.table s).contains name = false →
      Searches h name (h.parent? s) found → Searches h name (some s) found

/-- No scope is met twice on the way outwards. -/
theorem nodup_chain (h : Heap) (e : ScopeId) : (h.chain e).Nodup := by
  fun_induction chain h e with
  | case1 e p hp hlt ih =>
    -- the scopes further out have smaller numbers
    refine List.nodup_cons.2 ⟨fun hmem => ?_, ih⟩
    exact absurd (le_of_mem_chain hmem) (Nat.not_le_of_lt hlt)
  | case2 => exact List.pairwise_singleton _ _
  | case3 => exact List.pairwise_singleton _ _

namespace Rooted

variable {h : Heap}

theorem wellFounded (hr : h.Rooted) : WellFounded fun p s => h.parent? s = some p :=
  Subrelation.wf hr.parent_lt Nat.lt_wfRel.wf

/-- The chain is what an unguarded walk outwards finds: its guard on the order of parents
never applies. -/
theorem climbs (hr : h.Rooted) (e : ScopeId) : h.Climbs (some e) (h.chain e) := by
  fun_induction chain h e with
  | case1 e p hp _ ih => exact .step (hp ▸ ih)
  | case2 e p hp hge =>
    -- the guard would stop a walk at a parent that is not older
    exact absurd (hr.parent_lt hp) hge
  | case3 e hp => exact .step (hp ▸ .outside)

/-- The same of the search for a name. -/
theorem searches (hr : h.Rooted) (e : ScopeId) (name : String) :
    h.Searches name (some e) (h.resolve? e name) := by
  fun_induction resolve? h e name with
  | case1 e hbound => exact .found hbound
  | case2 e hfree p hp _ ih => exact .outwards (Bool.eq_false_iff.2 hfree) (hp ▸ ih)
  | case3 e _ p hp hge => exact absurd (hr.parent_lt hp) hge
  | case4 e hfree hp =>
    refine .outwards (Bool.eq_false_iff.2 hfree) ?_
    rw [hp]
    exact .outside

/-- Every chain ends in the root. -/
theorem getLast?_chain (hr : h.Rooted) {e : ScopeId} (he : e < h.scopes.size) :
    (h.chain e).getLast? = some 0 := by
  fun_induction chain h e with
  | case1 e p hp hlt ih =>
    rw [List.getLast?_cons, ih (Nat.lt_trans hlt he)]
    rfl
  | case2 e p hp hge => exact absurd (hr.parent_lt hp) hge
  | case3 e hp => rw [hr.eq_zero_of_parent? he hp, List.getLast?_singleton]

end Rooted

theorem contains_eq_any (h : Heap) (e : ScopeId) (name : String) :
    h.contains e name = (h.chain e).any fun s => (h.table s).contains name := by
  rw [contains, resolve?_eq_find?, Bool.eq_iff_iff, List.find?_isSome, List.any_eq_true]

/-- A name is looked up in the first scope of the chain that binds it. -/
theorem lookup_eq_find? (h : Heap) (e : ScopeId) (name : String) :
    h.lookup e name
      = (((h.chain e).find? fun s => (h.table s).contains name).map (h.lookupOwn · name)).getD
          .void := by
  rw [← resolve?_eq_find?, lookup, binding?]
  cases h.resolve? e name <;> rfl

/-- **Parent chains are well-founded.**  In a heap that comes from one root by any
operations, the walk outwards from a scope meets no scope twice and ends in the root,
which has no parent.  So does the search for a name, at the first scope on that walk
that binds it or behind the last; what is looked up is what stands there. -/
theorem parent_chains_end {h : Heap} (hreach : h.Reachable) :
    (WellFounded fun p s => h.parent? s = some p) ∧
    ∀ e < h.scopes.size,
      h.Climbs (some e) (h.chain e) ∧ (h.chain e).Nodup ∧
      (h.chain e).getLast? = some 0 ∧ h.parent? 0 = none ∧
      ∀ name,
        h.Searches name (some e) (h.resolve? e name) ∧
        h.resolve? e name = ((h.chain e).find? fun s => (h.table s).contains name) ∧
        h.contains e name = ((h.chain e).any fun s => (h.table s).contains name) ∧
        h.lookup e name
          = (((h.chain e).find? fun s => (h.table s).contains name).map
              (h.lookupOwn · name)).getD .void := by
  have hr := hreach.orderly.rooted
  refine ⟨hr.wellFounded, fun e he => ⟨hr.climbs e, h.nodup_chain e, hr.getLast?_chain he,
    hr.root, fun name => ⟨hr.searches e name, ?_, ?_, ?_⟩⟩⟩
  · exact resolve?_eq_find? h e name
  · exact contains_eq_any h e name
  · exact lookup_eq_find? h e name

/-- Scope 2 is bound in the root and hangs on the scope inside it.  Its constant leads
back to the root and is not replaced, and a run binds a further block in it. -/
theorem parent_chains_end_past_cycle :
    let path : Node := .member (.identifier "x") (.identifier "z")
    let ops : List Operation :=
      [.declare 0 "x" ⟨.void, false⟩, .extend 0, .resolvePath 1 ["x", "y"] false,
       .assignOwn 2 "up" ⟨.block 0, true⟩, .declare 2 "up" ⟨.block 2, false⟩,
       .run 9 1 (.program [.assign path ":=" (.block [])])]
    let h := Operation.applyAll ops .initial
    h.Reachable ∧ h.lookup 0 "x" = .block 2 ∧ h.lookup 2 "up" = .block 0 ∧
      h.lookup 2 "z" = .block 3 ∧ h.Climbs (some 2) [2, 1, 0] ∧ [2, 1, 0].Nodup ∧
      h.Searches "x" (some 2) (some 0) ∧ h.Searches "y" (some 2) none := by
  intro path ops h
  have hreach : h.Reachable := by
    have hroot : Heap.initial.Reachable := .root rfl
    -- the walk of the third operation makes scope 2; the fifth is refused
    have hmade := ((hroot.step ops[0] (by decide +kernel)).step ops[1] (by decide +kernel)).step
      ops[2] (by decide +kernel)
    have hrefused := (hmade.step ops[3] (by decide +kernel)).step ops[4] (by decide +kernel)
    exact hrefused.step ops[5] (by decide +kernel)
  have hsize : 2 < h.scopes.size := by decide +kernel
  have hchain : h.chain 2 = [2, 1, 0] := by decide +kernel
  have hx : h.resolve? 2 "x" = some 0 := by decide +kernel
  have hy : h.resolve? 2 "y" = none := by decide +kernel
  obtain ⟨hclimbs, hnodup, -, -, hnames⟩ := (parent_chains_end hreach).2 2 hsize
  rw [hchain] at hclimbs hnodup
  exact ⟨hreach, by decide +kernel, by decide +kernel, by decide +kernel, hclimbs, hnodup,
    hx ▸ (hnames "x").1, hy ▸ (hnames "y").1⟩

end Heap

end BlockScript
