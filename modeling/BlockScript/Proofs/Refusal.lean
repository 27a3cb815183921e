/-
BlockScript/Proofs/Refusal.lean

What stops an assignment to a member.

A path that cannot be walked is a soft fault, and evaluation goes on behind
it.  There is one exception.  A name on the way that is void counts as missing,
and in a mutable context the walk makes a block for it; but void may have been
bound as a constant, and then the block cannot be bound, which is hard:

    a = u;  a.x := true;     -- `u` is unbound, so that `a` is a constant void

Apart from that, an assignment to a member stops only at a constant that its
last name stands for.
-/
import BlockScript.Proofs.Descent
import BlockScript.Proofs.Lift

namespace BlockScript

namespace Heap

/-! ### Paths and members that stop -/

/-- On its way, in a mutable context, a walk comes to a constant void. -/
def StopsOnWay (h : Heap) (p : Place) (names : List String) (name : String) : Prop :=
  ∃ q rest, rest ≠ [] ∧ h.Meets p names q name rest ∧ q.constant = false ∧
    h.look q name = some ⟨.void, true⟩

/-- A walk comes to its last name, and a constant stands there that it is not
refused: one that is not void, or any if the context is mutable. -/
def StopsAtLast (h : Heap) (p : Place) (names : List String) (last : String) : Prop :=
  ∃ q w, h.Meets p names q last [] ∧ (q.constant = true → w ≠ .void) ∧
    h.look q last = some ⟨w, true⟩

section Stops

variable {h : Heap} {e : ScopeId} {segments : List String} {constant : Bool} {b : Binding}
  {halt : Halt}

/-- Walking a path stops only at a constant void on the way. -/
theorem resolvePath_stops_iff :
    (∃ h', resolvePath e segments constant h = .error (.hard halt) h') ↔
      ∃ name, halt = .redeclared name ∧ "" ∉ segments.map strip ∧
        h.StopsOnWay (.start e constant) (segments.map strip) name := by
  constructor
  · rintro ⟨h', hr⟩
    have hend := resolvePath_ending e segments constant h
    rw [hr] at hend
    obtain ⟨hnames, hend⟩ := hend.resolve_left (by simp)
    -- of all endings of a walk, only one is hard
    cases hend with
    | unmakeable hm hrest hmut hb => exact ⟨_, rfl, hnames, _, _, hrest, hm, hmut, hb⟩
  · rintro ⟨name, rfl, hnames, q, rest, hrest, hm, hmut, hb⟩
    exact ⟨h, (resolvePath_of_meets hnames hm).trans (hm.walk_unmakeable hrest hmut hb)⟩

/-- A constant that a path leads to stands for its last name. -/
theorem stopsAtLast_of_constant {arrival : Arrival} {h₁ : Heap} {v : Value}
    (hlong : 2 ≤ segments.length)
    (hend : h.Ending (.start e constant) (segments.map strip) (.ok arrival h₁))
    (hconst : h₁.own? arrival.scope ((segments.map strip).getLastD "") = some ⟨v, true⟩) :
    h.StopsAtLast (.start e constant) (segments.map strip) ((segments.map strip).getLastD "") := by
  cases hend with
  | @arrived q last hm hready =>
    rw [hm.getLastD_last] at hconst ⊢
    have hlook := (look_of_own (hm.reach_of_member hlong)).trans hconst
    refine ⟨q, v, hm, ?_, hlook⟩
    rintro hctx rfl
    exact hready hctx (vacantAt_of_void hlook)
  | made =>
    -- the scope of the last name was just made, and is empty
    rw [own?, table_withBlocks_innermost] at hconst
    cases hconst

/-- An assignment to a member stops where its path does, or at a constant that
its last name stands for. -/
theorem assignMember_stops_iff (hlong : 2 ≤ segments.length) :
    (∃ h', assignMember e segments b h = .error (.hard halt) h') ↔
      ∃ name, halt = .redeclared name ∧ "" ∉ segments.map strip ∧
        (h.StopsAtLast (.start e b.constant) (segments.map strip) name ∨
          h.StopsOnWay (.start e b.constant) (segments.map strip) name) := by
  constructor
  · rintro ⟨h', hstop⟩
    rcases hr : resolvePath e segments b.constant h with ⟨arrival, h₁⟩ | ⟨f, h₁⟩
    · rw [assignMember_of_ok hr] at hstop
      rcases h₁.mutable_or_constant arrival.scope ((segments.map strip).getLastD "") with
        hmut | ⟨v, hconst⟩
      · rw [assignOwn_of_mutable hmut] at hstop
        cases hstop
      · rw [assignOwn_of_constant hconst] at hstop
        cases hstop
        have hend := resolvePath_ending e segments b.constant h
        rw [hr] at hend
        obtain ⟨hnames, hend⟩ := hend.resolve_left (by simp)
        exact ⟨_, rfl, hnames, .inl (stopsAtLast_of_constant hlong hend hconst)⟩
    · rw [assignMember_of_error hr] at hstop
      cases hstop
      obtain ⟨name, rfl, hnames, hway⟩ := resolvePath_stops_iff.1 ⟨h', hr⟩
      exact ⟨name, rfl, hnames, .inr hway⟩
  · rintro ⟨name, rfl, hnames, ⟨q, w, hm, hready, hlook⟩ | hway⟩
    · have hvacant : q.constant = true → ¬ h.VacantAt q name := by
        intro hctx hv
        exact hready hctx (vacantAt_iff.1 hv _ hlook)
      have hr := (resolvePath_of_meets hnames hm).trans (hm.walk_arrived hvacant)
      rw [look_of_own (hm.reach_of_member hlong)] at hlook
      rw [assignMember_of_ok hr, hm.getLastD_last]
      exact ⟨h, assignOwn_of_constant hlook⟩
    · -- the walk stops, and the member is not bound
      obtain ⟨h', hr⟩ := resolvePath_stops_iff.2 ⟨name, rfl, hnames, hway⟩
      exact ⟨h', assignMember_of_error hr⟩

end Stops

end Heap

/-! ### Assignments that stop -/

section Assignment

variable {limit : Int} {e : ScopeId} {n target op rhs : Node} {m m' : Machine} {v : Value}
  {path : List String} {b : Binding} {halt : Halt}

/-- The names along a target have no blanks around them. -/
theorem Node.map_strip_targetPath (hpath : target.targetPath = .ok path) :
    path.map strip = path := by
  have hspells : target.Spells fun _ => True := fun _ _ => trivial
  rw [List.map_congr_left fun name hname => (hspells.targetPath hpath name hname).2, List.map_id']

/-- The result of a step that does to the heap what an action does. -/
def DoesOnHeap {α : Type} (action : HeapAction α) (h : Heap) :
    EStateM.Result Failure Machine α → Prop
  | .ok a m => action h = .ok a m.heap
  | .error f m => action h = .error f m.heap

/-- Apart from the log, assigning along a path is binding a member. -/
theorem assignPath_doesOnHeap (b : Binding) (m : Machine) (hstrip : path.map strip = path) :
    DoesOnHeap (Heap.assignMember e path b) m.heap (assignPath e path b m) := by
  rcases hr : Heap.resolvePath e path b.constant m.heap with ⟨arrival, h⟩ | ⟨f, h⟩
  · have hassign := Heap.assignMember_of_ok hr
    rw [hstrip] at hassign
    rcases h.mutable_or_constant arrival.scope (path.getLastD "") with hmut | ⟨w, hconst⟩
    · rw [assignPath_of_mutable hr hmut]
      exact hassign.trans (Heap.assignOwn_of_mutable hmut)
    · rw [assignPath_of_constant hr hconst]
      exact hassign.trans (Heap.assignOwn_of_constant hconst)
  · rw [assignPath_of_error hr]
    exact Heap.assignMember_of_error hr

/-- Once its right side has a value, an assignment to a member stops exactly if
binding the member does. -/
theorem eval_member_stops_iff (hn : n.form? = some .assignment)
    (hchildren : n.children = [target, op, rhs]) (ht : target.form? = some .member)
    (hrhs : eval limit e rhs (m.enter n) = .ok v m') :
    (∃ m'', eval limit e n m = .error halt m'') ↔
      ∃ path, target.targetPath = .ok path ∧
        ∃ h', Heap.assignMember e path ⟨v, bindsConstant op.text⟩ m'.heap
          = .error (.hard halt) h' := by
  rw [eval_assignment hn hchildren hrhs]
  generalize bindsConstant op.text = constant
  rcases hpath : target.targetPath with fault | path
  · rw [Step.recover_of_soft (assignTo_member_of_error ht hpath)]
    simp [left]
  · have hmember := assignPath_doesOnHeap (e := e) ⟨v, constant⟩ m'
      (Node.map_strip_targetPath hpath)
    have hto := assignTo_member_of_path (e := e) (m := m') (b := ⟨v, constant⟩) ht hpath
    rcases hassign : assignPath e path ⟨v, constant⟩ m' with ⟨u, m₁⟩ | ⟨fault | stop, m₁⟩ <;>
      rw [hassign, DoesOnHeap] at hmember
    · rw [Step.recover_of_ok (hto.trans (bind_of_ok hassign))]
      simp [left, hmember]
    · rw [Step.recover_of_soft (hto.trans (bind_of_error hassign))]
      simp [left, hmember]
    · rw [Step.recover_of_hard (hto.trans (bind_of_error hassign))]
      simp [left, hmember]

end Assignment

/-- **What stops an assignment to a member.**  A path that cannot be walked is
a fault about a member, and soft, unless the walk comes to a constant void on
the way, in a mutable context: then, and only then, it stops.  So once its
right side has a value, an assignment to a member stops exactly if a constant
stands for the last name of its path, or for a name on the way that is void
and would be made a block. -/
theorem member_path_stops_only_at_constant (e : ScopeId) (segments : List String)
    (constant : Bool) (h : Heap) :
    (∀ f h', Heap.resolvePath e segments constant h = .error f h' →
      (∃ fault, f = .soft fault ∧ fault.label = "ScriblUnresolvedMember") ∨
        ∃ name, f = .hard (.redeclared name) ∧
          h.StopsOnWay (.start e constant) (segments.map strip) name) ∧
    (∀ name, "" ∉ segments.map strip →
      h.StopsOnWay (.start e constant) (segments.map strip) name →
      ∃ h', Heap.resolvePath e segments constant h = .error (.hard (.redeclared name)) h') ∧
    (∀ (limit : Int) (n target op rhs : Node) (v : Value) (m m' : Machine) (halt : Halt),
      n.kind = "assignment_expression" → n.children = [target, op, rhs] →
      target.kind = "member_expression" → eval limit e rhs (m.enter n) = .ok v m' →
      ((∃ m'', eval limit e n m = .error halt m'') ↔
        ∃ path name, target.targetPath = .ok path ∧ halt = .redeclared name ∧ "" ∉ path ∧
          (m'.heap.StopsAtLast (.start e (bindsConstant op.text)) path name ∨
            m'.heap.StopsOnWay (.start e (bindsConstant op.text)) path name))) := by
  refine ⟨?_, ?_, ?_⟩
  · intro f h' hr
    have hcause := Heap.resolvePath_error_cause hr
    cases f with
    | soft fault => exact .inl ⟨fault, rfl, hcause⟩
    | hard halt =>
      obtain ⟨name, rfl, -, hway⟩ := Heap.resolvePath_stops_iff.1 ⟨h', hr⟩
      exact .inr ⟨name, rfl, hway⟩
  · intro name hnames hway
    exact Heap.resolvePath_stops_iff.2 ⟨name, rfl, hnames, hway⟩
  · intro limit n target op rhs v m m' halt hkind hchildren htarget hrhs
    have ht : target.form? = some .member := Node.form?_eq_some_iff.2 htarget
    rw [eval_member_stops_iff (Node.form?_eq_some_iff.2 hkind) hchildren ht hrhs]
    generalize bindsConstant op.text = constant
    constructor
    · rintro ⟨path, hpath, hstop⟩
      have hlong := Node.two_le_length_targetPath ht hpath
      obtain ⟨name, rfl, hnames, hat⟩ := (Heap.assignMember_stops_iff hlong).1 hstop
      rw [Node.map_strip_targetPath hpath] at hnames hat
      exact ⟨path, name, hpath, rfl, hnames, hat⟩
    · rintro ⟨path, name, hpath, rfl, hnames, hat⟩
      have hlong := Node.two_le_length_targetPath ht hpath
      refine ⟨path, hpath, (Heap.assignMember_stops_iff hlong).2 ⟨name, rfl, ?_⟩⟩
      rw [Node.map_strip_targetPath hpath]
      exact ⟨hnames, hat⟩

/-- With `a` a constant void and `p` a block whose `x` is constant: `a.x` cannot
be walked to bind a constant, which is soft, nor to bind a mutable, which is
hard; and `p.x := true` stops at `x`. -/
theorem member_path_stops_beside_constant :
    let h : Heap := (((Heap.initial.extend 0).2.write 0 "p" ⟨.block 1, false⟩).write 1 "x"
      ⟨.boolean true, true⟩).write 0 "a" ⟨.void, true⟩
    let n : Node := .assign (.member (.identifier "p") (.identifier "x")) ":=" (.truth true)
    (∃ fault, Heap.resolvePath 0 ["a", "x"] true h = .error (.soft fault) h ∧
      fault.label = "ScriblUnresolvedMember") ∧
    (∃ h', Heap.resolvePath 0 ["a", "x"] false h = .error (.hard (.redeclared "a")) h') ∧
    ∃ m, eval 5 0 n { heap := h } = .error (.redeclared "x") m := by
  intro h n
  obtain ⟨hsoft, -, -⟩ := member_path_stops_only_at_constant 0 ["a", "x"] true h
  obtain ⟨-, hhard, hassign⟩ := member_path_stops_only_at_constant 0 ["a", "x"] false h
  have hmeets : ∀ constant, h.Meets (.start 0 constant) (["a", "x"].map strip)
      (.start 0 constant) "a" ["x"] :=
    fun constant => ⟨[], by decide, rfl⟩
  have ha : ∀ constant, h.look (.start 0 constant) "a" = some ⟨.void, true⟩ :=
    fun constant => Heap.look_start_of_own? rfl
  have hp : h.look (.start 0 false) "p" = some ⟨.block 1, false⟩ := Heap.look_start_of_own? rfl
  have hx : h.own? 1 "x" = some ⟨.boolean true, true⟩ := rfl
  refine ⟨?_, ?_, ?_⟩
  · have hr := (Heap.resolvePath_of_meets (by decide) (hmeets true)).trans
      ((hmeets true).walk_refused rfl (Heap.vacantAt_of_void (ha true)))
    rcases hsoft _ _ hr with ⟨fault, hfault, hlabel⟩ | ⟨name, hname, -⟩
    · cases hfault
      exact ⟨_, hr, hlabel⟩
    · cases hname
  · exact hhard _ (by decide) ⟨_, _, by simp, hmeets false, rfl, ha false⟩
  · have hrhs := eval_truth (m := ({ heap := h } : Machine).enter n) 5 0 true (by decide)
    have hm : h.Meets (.start 0 false) ["p", "x"] ⟨.own, 1, false⟩ "x" [] :=
      ⟨["p"], rfl, Heap.descend_of_block hp⟩
    have hlast : h.StopsAtLast (.start 0 false) ["p", "x"] "x" :=
      ⟨_, .boolean true, hm, by simp, hx⟩
    refine (hassign _ _ _ _ _ _ _ _ _ rfl rfl rfl hrhs).2
      ⟨["p", "x"], "x", by decide, rfl, by decide, .inl ?_⟩
    rw [show bindsConstant (Node.token ":=").text = false by decide]
    exact hlast

/-- A path can stop although nothing at all stands for its last name: where `a`
is a constant void, `a.x` cannot be walked to bind a mutable, and `a.x := true`
stops. -/
theorem constant_void_stops_path :
    let h : Heap := Heap.initial.write 0 "a" ⟨.void, true⟩
    let n : Node := .assign (.member (.identifier "a") (.identifier "x")) ":=" (.truth true)
    (∀ s, h.own? s "x" = none) ∧
    Heap.resolvePath 0 ["a", "x"] false h = .error (.hard (.redeclared "a")) h ∧
    ∃ m, eval 5 0 n { heap := h } = .error (.redeclared "a") m := by
  intro h n
  have ha : h.look (.start 0 false) "a" = some ⟨.void, true⟩ := Heap.look_start_of_own? rfl
  have hx : ∀ s, h.own? s "x" = none := by
    intro s
    rw [Heap.own?_write, if_neg (by simp), Heap.own?_initial]
  have hm : h.Meets (.start 0 false) (["a", "x"].map strip) (.start 0 false) "a" ["x"] :=
    ⟨[], by decide, rfl⟩
  have hway : h.StopsOnWay (.start 0 false) (["a", "x"].map strip) "a" :=
    ⟨_, _, by simp, hm, rfl, ha⟩
  refine ⟨hx, ?_, ?_⟩
  · exact (Heap.resolvePath_of_meets (by decide) hm).trans (hm.walk_unmakeable (by simp) rfl ha)
  · have hrhs := eval_truth (m := ({ heap := h } : Machine).enter n) 5 0 true (by decide)
    refine (eval_member_stops_iff (by decide) rfl (by decide) hrhs).2 ⟨["a", "x"], by decide, ?_⟩
    rw [show bindsConstant (Node.token ":=").text = false by decide]
    exact (Heap.assignMember_stops_iff (by decide)).2
      ⟨"a", rfl, by decide, .inr hway⟩

end BlockScript
