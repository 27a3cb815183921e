/-
BlockScript/Proofs/Unfolding.lean

The snapshot of a scope is its unfolding along paths.

Blocks may share scopes and contain one another, so a heap is a graph in which
every kind of cycle occurs.  The snapshot follows a path of names from scope to
scope and stops where it would enter a scope for the second time on one path:

    e --n₁--> e₁ --n₂--> e₂ …      all scopes distinct

At the end of such a path it shows the table of the last scope.  A scope on two
different paths is shown on both.

The same data come out of a traversal that keeps one set of open scopes for all
paths, if each scope is put in before its table and taken out behind it
(`Traverses`).  Such a traversal ends on every heap.
-/
import BlockScript.Scope.Snapshot
import Mathlib.Data.Finset.Basic

namespace BlockScript

/-! ### Fields along a path -/

namespace Data

/-- The field of a record. -/
def field? : Data → String → Option Data
  | .record fields, name => fields.lookup name
  | _, _ => none

/-- What is found along a path of fields. -/
def at? (d : Data) : List String → Option Data
  | [] => some d
  | name :: names => (d.field? name).bind (·.at? names)

end Data

namespace Heap

/-- The scopes that a path of names leads through: each name is a block in the
table of the scope before. -/
def scopesAlong (h : Heap) (e : ScopeId) : List String → Option (List ScopeId)
  | [] => some []
  | name :: names =>
    match h.lookupOwn e name with
    | .block c => (h.scopesAlong c names).map (c :: ·)
    | _ => none

/-! ### What is shown of a binding -/

/-- What is shown of a binding that is no block. -/
def leafRecord (h : Heap) (b : Binding) : Data :=
  match b.value with
  | .function id => h.functionRecord id b.constant
  | .iterator id => h.iteratorRecord id b.constant
  | v => .record [("value", v.summary), ("constant", .bool b.constant)]

/-- What is shown of a binding, with the scopes of `path` open. -/
def shown (h : Heap) (path : List ScopeId) (b : Binding) : Data :=
  match b.value with
  | .block c => if c ∈ path then cycleRecord b.constant else h.expand (c :: path) (h.table c)
  | _ => h.leafRecord b

/-- What is shown of the entries of a table. -/
def shownAll (h : Heap) (path : List ScopeId) (entries : List (String × Binding)) :
    List (String × Data) :=
  entries.map fun entry => (entry.1, h.shown path entry.2)

section Shown

variable {h : Heap} {path : List ScopeId} {b : Binding} {c : ScopeId}

theorem expand_empty (h : Heap) (path : List ScopeId) : h.expand path .empty = .record [] := by
  rw [expand]
  rfl

/-- A table is shown entry by entry. -/
theorem expand_eq (h : Heap) (path : List ScopeId) (t : Table) :
    h.expand path t = .record (h.shownAll path t.entries) := by
  rw [expand]
  congr 1
  refine List.map_congr_left fun ⟨name, v, k⟩ _ => ?_
  rcases v with - | x | s | b | c | i | i
  case block =>
    simp only [shown, List.contains_iff_mem, dite_eq_ite]
    split
    · rfl
    · -- a scope that does not exist is as good as an empty one
      rcases hs : h.scopes[c]? with - | s
      · simp [table, hs, expand_empty]
      · simp [table, hs]
  all_goals rfl

theorem shown_open (hb : b.value = .block c) (hc : c ∈ path) :
    h.shown path b = cycleRecord b.constant := by
  rw [shown, hb]
  exact if_pos hc

theorem shown_closed (hb : b.value = .block c) (hc : c ∉ path) :
    h.shown path b = h.expand (c :: path) (h.table c) := by
  rw [shown, hb]
  exact if_neg hc

theorem shown_leaf (hb : ∀ c, b.value ≠ .block c) : h.shown path b = h.leafRecord b := by
  rw [shown]
  split
  next c hc => exact absurd hc (hb c)
  next => rfl

/-- Everything is shown as a record. -/
theorem exists_shown_eq_record (h : Heap) (path : List ScopeId) (b : Binding) :
    ∃ fields, h.shown path b = .record fields := by
  obtain ⟨v, k⟩ := b
  rcases v with - | x | s | b | c | i | i
  case block =>
    by_cases hc : c ∈ path
    · exact ⟨_, shown_open rfl hc⟩
    · exact ⟨_, (shown_closed rfl hc).trans (h.expand_eq _ _)⟩
  all_goals exact ⟨_, rfl⟩

/-- The mark of a cycle is not the record of any table: it has a field that is
no record. -/
theorem expand_ne_cycleRecord (h : Heap) (path : List ScopeId) (t : Table) (k : Bool) :
    h.expand path t ≠ cycleRecord k := by
  rw [expand_eq]
  intro heq
  have hfields : h.shownAll path t.entries = [("cycle", .bool true), ("constant", .bool k)] :=
    Data.record.inj heq
  obtain ⟨entry, rest, -, hentry, -⟩ := List.map_eq_cons_iff.1 hfields
  obtain ⟨fields, hrecord⟩ := h.exists_shown_eq_record path entry.2
  rw [hrecord] at hentry
  cases (Prod.mk.inj hentry).2

/-- A cycle is marked exactly at a block whose scope is open. -/
theorem shown_eq_cycleRecord_iff :
    h.shown path b = cycleRecord b.constant ↔ ∃ c ∈ path, b.value = .block c := by
  constructor
  · intro hcycle
    obtain ⟨v, k⟩ := b
    rcases v with - | x | s | b | c | i | i
    case block =>
      by_contra hopen
      have hc : c ∉ path := fun hc => hopen ⟨c, hc, rfl⟩
      rw [shown_closed rfl hc] at hcycle
      exact h.expand_ne_cycleRecord _ _ _ hcycle
    all_goals simp [shown, leafRecord, functionRecord, iteratorRecord, cycleRecord] at hcycle
  · rintro ⟨c, hc, hb⟩
    exact shown_open hb hc

theorem map_fst_shownAll (entries : List (String × Binding)) :
    (h.shownAll path entries).map Prod.fst = entries.map Prod.fst :=
  List.map_map

/-- Under a name is what is shown of its binding. -/
theorem lookup_shownAll {name : String} (hb : h.own? c name = some b) :
    (h.shownAll path (h.table c).entries).lookup name = some (h.shown path b) := by
  rw [shownAll, Table.lookup_map_snd, show (h.table c).entries.lookup name = some b from hb]
  rfl

/-- Induction along the blocks of a table that are not open. -/
theorem expand_induction (h : Heap) {motive : List ScopeId → Table → Prop}
    (step : ∀ path t, (∀ entry ∈ t.entries, ∀ c, entry.2.value = .block c → c ∉ path →
      motive (c :: path) (h.table c)) → motive path t)
    (path : List ScopeId) (t : Table) : motive path t := by
  induction path, t using expand.induct h with
  | case1 path t ih =>
    refine step path t fun entry _ c _ hc => ?_
    rcases hs : h.scopes[c]? with - | s
    · have hempty : h.table c = .empty := by rw [table, hs]; rfl
      rw [hempty]
      -- nothing to follow in a scope that does not exist
      exact step _ _ fun entry hentry => absurd hentry List.not_mem_nil
    · have htable : h.table c = s.table := by rw [table, hs]; rfl
      rw [htable]
      exact ih c (by simpa using hc) s hs

end Shown

/-! ### Traversal with one set of open scopes -/

/-- A traversal of entries with one set of open scopes, which is handed on from
entry to entry.  A scope is put into the set before its table is traversed and
taken out behind it; a block whose scope is in the set is marked. -/
inductive Traverses (h : Heap) :
    Finset ScopeId → List (String × Binding) → List (String × Data) → Finset ScopeId → Prop
  | done (active : Finset ScopeId) : Traverses h active [] [] active
  | cycle {active active' : Finset ScopeId} {rest : List (String × Binding)}
      {fields : List (String × Data)} {name : String} {b : Binding} {c : ScopeId}
      (hb : b.value = .block c) (hc : c ∈ active) (hrest : Traverses h active rest fields active') :
      Traverses h active ((name, b) :: rest) ((name, cycleRecord b.constant) :: fields) active'
  | block {active inside active' : Finset ScopeId} {rest : List (String × Binding)}
      {inner fields : List (String × Data)} {name : String} {b : Binding} {c : ScopeId}
      (hb : b.value = .block c) (hc : c ∉ active)
      (hinner : Traverses h (insert c active) (h.table c).entries inner inside)
      (hrest : Traverses h (inside.erase c) rest fields active') :
      Traverses h active ((name, b) :: rest) ((name, .record inner) :: fields) active'
  | leaf {active active' : Finset ScopeId} {rest : List (String × Binding)}
      {fields : List (String × Data)} {name : String} {b : Binding}
      (hb : ∀ c, b.value ≠ .block c) (hrest : Traverses h active rest fields active') :
      Traverses h active ((name, b) :: rest) ((name, h.leafRecord b) :: fields) active'

/-- The set of open scopes is that of the current path, and it is the same
behind a traversal as before. -/
theorem Traverses.eq_shownAll {h : Heap} {active active' : Finset ScopeId}
    {entries : List (String × Binding)} {fields : List (String × Data)}
    (ht : h.Traverses active entries fields active') {path : List ScopeId}
    (hactive : ∀ c, c ∈ active ↔ c ∈ path) :
    fields = h.shownAll path entries ∧ active' = active := by
  induction ht generalizing path with
  | done => exact ⟨rfl, rfl⟩
  | @cycle _ _ rest _ name b c hb hc _ ih =>
    obtain ⟨rfl, rfl⟩ := ih hactive
    refine ⟨?_, rfl⟩
    show _ = (name, h.shown path b) :: h.shownAll path rest
    rw [shown_open hb ((hactive c).1 hc)]
  | @block active _ _ rest _ _ name b c hb hc _ _ ihinner ihrest =>
    -- inside, the path is longer by `c`; behind, `c` is taken out again
    have hinside : ∀ a, a ∈ insert c active ↔ a ∈ c :: path := by simp [hactive]
    obtain ⟨rfl, rfl⟩ := ihinner hinside
    rw [Finset.erase_insert hc] at ihrest
    obtain ⟨rfl, rfl⟩ := ihrest hactive
    refine ⟨?_, rfl⟩
    show _ = (name, h.shown path b) :: h.shownAll path rest
    rw [shown_closed hb (mt (hactive c).2 hc), expand_eq]
  | @leaf _ _ rest _ name b hb _ ih =>
    obtain ⟨rfl, rfl⟩ := ih hactive
    refine ⟨?_, rfl⟩
    show _ = (name, h.shown path b) :: h.shownAll path rest
    rw [shown_leaf hb]

/-- A traversal ends on every heap. -/
theorem traverses_shownAll (h : Heap) (path : List ScopeId) (t : Table) :
    ∀ active : Finset ScopeId, (∀ c, c ∈ active ↔ c ∈ path) →
      h.Traverses active t.entries (h.shownAll path t.entries) active := by
  induction path, t using expand_induction h with
  | step path t ih =>
    intro active hactive
    -- along the entries; the tables of the blocks among them come from the induction
    have entries : ∀ entries ⊆ t.entries,
        h.Traverses active entries (h.shownAll path entries) active := by
      intro entries hsub
      induction entries with
      | nil => exact .done active
      | cons entry rest ihrest =>
        obtain ⟨hentry, hsub⟩ := List.cons_subset.1 hsub
        have hrest := ihrest hsub
        show h.Traverses active (entry :: rest)
          ((entry.1, h.shown path entry.2) :: h.shownAll path rest) active
        by_cases hblock : ∃ c, entry.2.value = .block c
        · obtain ⟨c, hb⟩ := hblock
          by_cases hc : c ∈ path
          · rw [shown_open hb hc]
            exact .cycle hb ((hactive c).2 hc) hrest
          · have hfresh : c ∉ active := mt (hactive c).1 hc
            rw [shown_closed hb hc, expand_eq]
            refine .block hb hfresh (ih entry hentry c hb hc _ (by simp [hactive])) ?_
            rwa [Finset.erase_insert hfresh]
        · have hleaf : ∀ c, entry.2.value ≠ .block c := fun c hb => hblock ⟨c, hb⟩
          rw [shown_leaf hleaf]
          exact .leaf hleaf hrest
    exact entries t.entries (List.Subset.refl _)

/-! ### The snapshot along a path -/

section Path

variable {h : Heap} {path : List ScopeId} {e : ScopeId}

theorem field?_expand {name : String} {b : Binding} (hb : h.own? e name = some b) :
    (h.expand path (h.table e)).field? name = some (h.shown path b) := by
  rw [expand_eq]
  exact lookup_shownAll hb

/-- A block that is read is bound. -/
theorem own?_of_lookupOwn {name : String} {c : ScopeId} (hc : h.lookupOwn e name = .block c) :
    ∃ b, h.own? e name = some b ∧ b.value = .block c := by
  rw [lookupOwn] at hc
  rcases hb : h.own? e name with - | b <;> rw [hb] at hc
  · cases hc
  · exact ⟨b, rfl, hc⟩

/-- Along a path through scopes that are not open, the table of the last one is
expanded, with all of them open. -/
theorem at?_expand {names : List String} {scopes : List ScopeId}
    (hscopes : h.scopesAlong e names = some scopes) (hnodup : scopes.Nodup)
    (hfresh : ∀ c ∈ scopes, c ∉ path) :
    (h.expand path (h.table e)).at? names
      = some (h.expand (scopes.reverse ++ path) (h.table (scopes.getLastD e))) := by
  induction names generalizing e path scopes with
  | nil =>
    cases hscopes
    rfl
  | cons name names ih =>
    rw [scopesAlong] at hscopes
    split at hscopes
    next c hc =>
      obtain ⟨rest, hrest, rfl⟩ := Option.map_eq_some_iff.1 hscopes
      obtain ⟨b, hown, hb⟩ := own?_of_lookupOwn hc
      obtain ⟨hcrest, hnodup⟩ := List.nodup_cons.1 hnodup
      have hclosed : c ∉ path := hfresh c List.mem_cons_self
      -- the rest of the path starts in `c`, which is open from here on
      rw [Data.at?, field?_expand hown, shown_closed hb hclosed, Option.bind_some,
        ih hrest hnodup, List.reverse_cons, List.append_assoc, List.getLastD_cons]
      · rfl
      · intro a ha
        rintro (_ | ⟨_, hopen⟩)
        · exact hcrest ha
        · exact hfresh a (List.mem_cons_of_mem c ha) hopen
    next => cases hscopes

end Path

/-- How a binding looks in plain data, said by the kinds of values: blocks whose
scope is among `opened` are left to the mark. -/
def Shows (h : Heap) (opened : List ScopeId) (b : Binding) (d : Data) : Prop :=
  match b.value with
  | .void => d = .record [("value", .null), ("constant", .bool b.constant)]
  | .number x => d = .record [("value", .number x), ("constant", .bool b.constant)]
  | .string s => d = .record [("value", .text s), ("constant", .bool b.constant)]
  | .boolean t => d = .record [("value", .bool t), ("constant", .bool b.constant)]
  | .function id => ∀ c, h.closures[id]? = some c →
      d = .record [("params", .list (c.params.map fun p => .text (strip p.text))),
        ("body", .text (collapse c.body.text)), ("constant", .bool b.constant)]
  | .iterator id => ∀ s, h.sequences[id]? = some s →
      d = .record [("params", .list (s.params.map fun p => .text (strip p.text))),
        ("produced", .list (s.produced.map Value.summary)), ("cursor", .int s.cursor),
        ("constant", .bool b.constant)]
  | .block c => if c ∈ opened then
      d = .record [("cycle", .bool true), ("constant", .bool b.constant)]
    else ∃ fields, d = .record fields ∧ fields.map Prod.fst = (h.table c).names

/-- Every kind of value is shown as `Shows` says. -/
theorem shows_shown {h : Heap} {path opened : List ScopeId} (hopened : ∀ c, c ∈ opened ↔ c ∈ path)
    (b : Binding) : h.Shows opened b (h.shown path b) := by
  obtain ⟨v, k⟩ := b
  rcases v with - | x | s | b | c | id | id
  case block =>
    show if c ∈ opened then _ else _
    split
    next hc => exact shown_open rfl ((hopened c).1 hc)
    next hc =>
      refine ⟨_, (shown_closed rfl (mt (hopened c).2 hc)).trans (h.expand_eq _ _), ?_⟩
      exact map_fst_shownAll _
  case function =>
    -- the parameters and the body as they are written
    intro c hc
    show h.functionRecord id k = _
    rw [functionRecord, hc]
    simp [paramTexts]
  case iterator =>
    intro s hs
    show h.iteratorRecord id k = _
    rw [iteratorRecord, hs]
    simp [paramTexts]
  all_goals rfl

/-- **The snapshot is the unfolding along paths.**  The traversal ends on every
heap, however its blocks contain one another, and gives nothing else; the
snapshot shows the names of the scope in order, and at the end of every path
through distinct scopes the table of the last one, with a mark exactly at the
blocks that lead back onto the path. -/
theorem snapshot_unfolds_paths (h : Heap) (e : ScopeId) :
    (∃ fields, h.snapshot e = .record fields ∧ fields.map Prod.fst = (h.table e).names ∧
      ∀ fields' active, h.Traverses {e} (h.table e).entries fields' active ↔
        fields' = fields ∧ active = {e}) ∧
    ∀ (names : List String) (scopes : List ScopeId), h.scopesAlong e names = some scopes →
      (e :: scopes).Nodup →
      ∃ fields, (h.snapshot e).at? names = some (.record fields) ∧
        fields.map Prod.fst = (h.table (scopes.getLastD e)).names ∧
        ∀ name b, h.own? (scopes.getLastD e) name = some b →
          ∃ d, fields.lookup name = some d ∧ h.Shows (e :: scopes) b d ∧
            (d = cycleRecord b.constant ↔ ∃ c ∈ e :: scopes, b.value = .block c) := by
  constructor
  · have hactive : ∀ c, c ∈ ({e} : Finset ScopeId) ↔ c ∈ [e] := by simp
    refine ⟨_, h.expand_eq [e] (h.table e), map_fst_shownAll _, fun fields' active => ?_⟩
    constructor
    · intro ht
      exact ht.eq_shownAll hactive
    · rintro ⟨rfl, rfl⟩
      exact h.traverses_shownAll [e] (h.table e) {e} hactive
  · intro names scopes hscopes hnodup
    obtain ⟨hfresh, hnodup⟩ := List.nodup_cons.1 hnodup
    have hclosed : ∀ c ∈ scopes, c ∉ [e] := by
      intro c hc hopen
      exact hfresh (List.mem_singleton.1 hopen ▸ hc)
    have hat := at?_expand hscopes hnodup hclosed
    have hopened : ∀ c, c ∈ e :: scopes ↔ c ∈ scopes.reverse ++ [e] := by simp [or_comm]
    refine ⟨_, hat.trans (congrArg some (h.expand_eq _ _)), map_fst_shownAll _, fun name b hb => ?_⟩
    refine ⟨_, lookup_shownAll hb, shows_shown hopened b, ?_⟩
    simp only [shown_eq_cycleRecord_iff, hopened]

/-- A block that contains itself and that two names share: it is shown under
both of them, and marked in itself only. -/
theorem snapshot_unfolds_shared_cycle :
    let h := (((Heap.initial.extend 0).2.write 0 "one" ⟨.block 1, false⟩).write
      0 "two" ⟨.block 1, true⟩).write 1 "me" ⟨.block 1, false⟩
    ∀ name ∈ ["one", "two"], h.scopesAlong 0 [name] = some [1] ∧ ([0, 1] : List ScopeId).Nodup ∧
      ∃ fields, (h.snapshot 0).at? [name] = some (.record fields) ∧
        fields.map Prod.fst = ["me"] ∧ fields.lookup "me" = some (cycleRecord false) := by
  intro h name hname
  have hscopes : h.scopesAlong 0 [name] = some [1] := by
    revert name
    decide
  have hnodup : ([0, 1] : List ScopeId).Nodup := by decide
  obtain ⟨fields, hat, hnames, hfields⟩ := (snapshot_unfolds_paths h 0).2 [name] [1] hscopes hnodup
  obtain ⟨d, hd, -, hcycle⟩ := hfields "me" ⟨.block 1, false⟩ rfl
  rw [hcycle.2 ⟨1, by decide, rfl⟩] at hd
  exact ⟨hscopes, hnodup, fields, hat, hnames, hd⟩

end Heap

end BlockScript
