/-
BlockScript/Proofs/Assignment.lean

The rules of assignment, and that a failed assignment changes nothing.

A walk writes blocks into tables on its way and may still meet a name that it
cannot pass.  It is all or nothing all the same: the block that it makes is
empty, so from there on every slot it meets is free and every further block
can be made.  Either nothing was made before the walk fails, or it does not
fail; and if something was made, the last name is free as well, so that the
binding itself cannot fail.

`failed_assignment_keeps_heap` says this of paths and of whole assignments.
-/
import BlockScript.Proofs.Walk
import BlockScript.Syntax.Build

namespace BlockScript

namespace Heap

/-! ### Walking is all or nothing -/

/-- No name is bound in the scope's own table. -/
def Empty (h : Heap) (e : ScopeId) : Prop :=
  ∀ name, h.own? e name = none

/-- A result of walking from `h` that has changed nothing, or that ends in an
empty scope. -/
def AllOrNothing (h : Heap) : EStateM.Result Failure Heap Arrival → Prop
  | .ok arrival h' => h' = h ∨ h'.Empty arrival.scope
  | .error _ h' => h' = h

theorem Empty.not_bound {h : Heap} {e : ScopeId} {name : String} {b : Binding}
    (hempty : h.Empty e) (hb : h.own? e name = some b) : False := by
  rw [hempty name] at hb
  cases hb

/-- **A walk is all or nothing**: it fails without a trace, or it ends where nothing was
changed or nothing is bound. -/
theorem walk_allOrNothing (reach : Reach) (e : ScopeId) (constant : Bool) (path : List String)
    (h : Heap) : AllOrNothing h (walk reach e constant path h) := by
  -- the invariant behind the first block that was made: the context is
  -- mutable and the scope empty, and from such a place every walk succeeds
  suffices hall : AllOrNothing h (walk reach e constant path h) ∧
      (reach = .own → constant = false → h.Empty e →
        ∃ arrival h', walk reach e constant path h = .ok arrival h' ∧ h'.Empty arrival.scope) from
    hall.1
  induction reach, e, constant, path, h using walk_induction with
  | nil reach e constant h => exact ⟨.inl rfl, fun _ _ hempty => ⟨_, _, rfl, hempty⟩⟩
  | last reach e constant name h _ => exact ⟨.inl rfl, fun _ _ hempty => ⟨_, _, rfl, hempty⟩⟩
  | refused reach e name rest h _ => exact ⟨rfl, fun _ hmut _ => by cases hmut⟩
  | barred reach e constant name next rest h v mark hb _ _ =>
    refine ⟨rfl, ?_⟩
    rintro rfl - hempty
    exact (hempty.not_bound hb).elim
  | unmakeable reach e name next rest h v _ hconst =>
    refine ⟨rfl, ?_⟩
    rintro rfl - hempty
    exact (hempty.not_bound hconst).elim
  | through reach e constant name next rest h inner mark r hb _ ih =>
    refine ⟨ih.1, ?_⟩
    rintro rfl - hempty
    exact (hempty.not_bound hb).elim
  | making reach e name next rest h r _ _ _ ih =>
    obtain ⟨arrival, h', rfl, hempty⟩ := ih.2 rfl rfl (own?_withBlock_size h _ name e)
    exact ⟨.inr hempty, fun _ _ _ => ⟨_, _, rfl, hempty⟩⟩

end Heap

/-- The failures of an assignment: a member that cannot be reached, which is
soft, and a constant that would be bound again, which is hard. -/
def Failure.IsOfAssignment : Failure → Prop
  | .soft fault => fault.label = "ScriblUnresolvedMember"
  | .hard halt => ∃ name, halt = .redeclared name

namespace Heap

/-- A walk fails for a member that cannot be reached, or for a constant that a new block
would replace. -/
theorem walk_error_cause {reach : Reach} {e : ScopeId} {constant : Bool} {path : List String}
    {h h' : Heap} {f : Failure} (hw : walk reach e constant path h = .error f h') :
    f.IsOfAssignment := by
  induction reach, e, constant, path, h using walk_induction with
  | nil => cases hw
  | last => cases hw
  | refused => cases hw; rfl
  | barred => cases hw; rfl
  | unmakeable => cases hw; exact ⟨_, rfl⟩
  | through reach e constant name next rest h inner mark r hb _ ih => exact ih hw
  | making reach e name next rest h r hv hmut _ ih =>
    -- the walk goes on in the new block, and fails there for a cause of its own
    cases r with
    | ok arrival h'' => cases hw
    | error f' h'' => cases hw; exact ih rfl

/-- A path is refused at once if a name on it is blank, and walked otherwise. -/
theorem resolvePath_cases (e : ScopeId) (path : List String) (constant : Bool) (h : Heap) :
    resolvePath e path constant h = .error (.soft (.invalidPath (path.map strip))) h ∨
      resolvePath e path constant h = walk .chain e constant (path.map strip) h := by
  unfold resolvePath
  -- a path without names is refused like one with a blank name
  by_cases hblank : (path.map strip = [] || (path.map strip).contains "") = true
  · rw [if_pos hblank]
    exact .inl rfl
  · rw [if_neg hblank]
    exact .inr rfl

/-- A path of names that are stripped already is walked as it is. -/
theorem resolvePath_of_stripped {path : List String} (hstrip : path.map strip = path)
    (hne : path ≠ []) (hblank : "" ∉ path) (e : ScopeId) (constant : Bool) (h : Heap) :
    resolvePath e path constant h = walk .chain e constant path h := by
  unfold resolvePath
  rw [hstrip, if_neg (by simp [hne, hblank])]

/-- Resolving a path is all or nothing, as walking it is. -/
theorem resolvePath_allOrNothing (e : ScopeId) (path : List String) (constant : Bool)
    (h : Heap) : AllOrNothing h (resolvePath e path constant h) := by
  rcases resolvePath_cases e path constant h with hr | hr <;> rw [hr]
  · rfl
  · exact walk_allOrNothing .chain e constant _ h

theorem resolvePath_error_cause {e : ScopeId} {path : List String} {constant : Bool}
    {h h' : Heap} {f : Failure} (hp : resolvePath e path constant h = .error f h') :
    f.IsOfAssignment := by
  rcases resolvePath_cases e path constant h with hr | hr <;> rw [hr] at hp
  · cases hp
    rfl
  · exact walk_error_cause hp

end Heap

/-! ### The rules -/

section Rules

variable {e : ScopeId} {path : List String} {b : Binding} {m : Machine} {h : Heap} {f : Failure}
  {target : Node}

theorem Step.onHeap_of_ok {α : Type} {action : HeapAction α} {a : α}
    (ha : action m.heap = .ok a h) : Step.onHeap action m = .ok a { m with heap := h } := by
  rw [onHeap, ha]

theorem Step.onHeap_of_error {α : Type} {action : HeapAction α}
    (ha : action m.heap = .error f h) : Step.onHeap action m = .error f { m with heap := h } := by
  rw [onHeap, ha]

theorem assignPath_of_error (hr : Heap.resolvePath e path b.constant m.heap = .error f h) :
    assignPath e path b m = .error f { m with heap := h } := by
  rw [assignPath, bind_of_error (Step.onHeap_of_error hr)]

/-- Where the path can be walked, its last name is bound in the scope that it
leads to, if that does not hold a constant. -/
theorem assignPath_of_mutable {arrival : Arrival}
    (hr : Heap.resolvePath e path b.constant m.heap = .ok arrival h)
    (hmut : ∀ old, h.own? arrival.scope (path.getLastD "") = some old → old.constant = false) :
    assignPath e path b m = .ok ()
      { ({ m with heap := h } : Machine).emitAll (arrival.events path) with
        heap := h.write arrival.scope (path.getLastD "") b } := by
  rw [assignPath, bind_of_ok (Step.onHeap_of_ok hr)]
  refine Step.onHeap_of_ok ?_
  rw [Machine.emitAll_heap]
  exact Heap.assignOwn_of_mutable hmut

/-- A constant in the last slot stops the assignment; the blocks made on the way have been
logged by then. -/
theorem assignPath_of_constant {arrival : Arrival} {v : Value}
    (hr : Heap.resolvePath e path b.constant m.heap = .ok arrival h)
    (hconst : h.own? arrival.scope (path.getLastD "") = some ⟨v, true⟩) :
    assignPath e path b m = .error (.hard (.redeclared (path.getLastD "")))
      { ({ m with heap := h } : Machine).emitAll (arrival.events path) with heap := h } := by
  rw [assignPath, bind_of_ok (Step.onHeap_of_ok hr)]
  refine Step.onHeap_of_error ?_
  rw [Machine.emitAll_heap]
  exact Heap.assignOwn_of_constant hconst

/-- A name is bound in its home, if that does not hold a constant. -/
theorem assignTo_identifier_of_mutable (ht : target.form? = some .identifier)
    (hmut : ∀ old, m.heap.own? (m.heap.home .chain e (strip target.text)) (strip target.text)
      = some old → old.constant = false) :
    assignTo e target b m = .ok b.value
      { m with heap := m.heap.write (m.heap.home .chain e (strip target.text))
                 (strip target.text) b } := by
  have hput : Heap.declare e (strip target.text) b m.heap = _ :=
    (Heap.put_eq_assignOwn_home m.heap .chain e (strip target.text) b).trans
      (Heap.assignOwn_of_mutable hmut)
  rw [assignTo, ht]
  exact bind_of_ok (Step.onHeap_of_ok hput)

/-- A constant in the home of the name stops the assignment. -/
theorem assignTo_identifier_of_constant {v : Value} (ht : target.form? = some .identifier)
    (hconst : m.heap.own? (m.heap.home .chain e (strip target.text)) (strip target.text)
      = some ⟨v, true⟩) :
    assignTo e target b m = .error (.hard (.redeclared (strip target.text))) m := by
  have hput : Heap.declare e (strip target.text) b m.heap = _ :=
    (Heap.put_eq_assignOwn_home m.heap .chain e (strip target.text) b).trans
      (Heap.assignOwn_of_constant hconst)
  rw [assignTo, ht]
  exact bind_of_error (Step.onHeap_of_error hput)

theorem assignTo_member_of_error {fault : Fault} (ht : target.form? = some .member)
    (hpath : target.targetPath = .error fault) :
    assignTo e target b m = .error (.soft fault) m := by
  rw [assignTo, ht]
  dsimp only
  rw [hpath]
  rfl

theorem assignTo_member_of_path (ht : target.form? = some .member)
    (hpath : target.targetPath = .ok path) :
    assignTo e target b m = (do assignPath e path b; return b.value : Step Value) m := by
  rw [assignTo, ht]
  dsimp only
  rw [hpath]
  rfl

/-- Any other target is left alone, which is logged and is no fault. -/
theorem assignTo_of_ignored (hid : target.form? ≠ some .identifier)
    (hmem : target.form? ≠ some .member) :
    assignTo e target b m
      = .ok .void (m.emitAll [.targetIgnored target.kind target.text]) := by
  rw [assignTo]
  rcases ht : target.form? with - | form
  · rfl
  · cases form with
    | identifier => exact absurd ht hid
    | member => exact absurd ht hmem
    | _ => rfl

end Rules

section Node

variable {limit : Int} {e : ScopeId} {n target op rhs : Node} {m m' : Machine} {v : Value}

theorem conclude_assignment (hn : n.form? = some .assignment)
    (hchildren : n.children = [target, op, rhs]) :
    conclude e n [v] = assignTo e target ⟨v, bindsConstant op.text⟩ := by
  rw [conclude, hn, hchildren]
  rfl

/-- The right side is evaluated first, and its value is then bound. -/
theorem eval_assignment (hn : n.form? = some .assignment)
    (hchildren : n.children = [target, op, rhs])
    (hrhs : eval limit e rhs (m.enter n) = .ok v m') :
    eval limit e n m
      = left (Step.recover n (assignTo e target ⟨v, bindsConstant op.text⟩) m') := by
  have hblock : n.form? ≠ some .block := by simp [hn]
  have hops : n.operands = [rhs] := by rw [Node.operands, hn, hchildren]
  rw [eval_of_operand hblock hops hrhs, conclude_assignment hn hchildren]

theorem eval_truth (limit : Int) (e : ScopeId) (b : Bool) (hlt : m.depth < limit) :
    eval limit e (.truth b) m = .ok (.boolean b) (m.enter (.truth b)).leave := by
  cases b <;> exact eval_leaf (by decide) rfl hlt

/-- An assignment to a name that is not constant. -/
theorem eval_assignment_of_name (hn : n.form? = some .assignment)
    (hchildren : n.children = [target, op, rhs])
    (hrhs : eval limit e rhs (m.enter n) = .ok v m') (ht : target.form? = some .identifier)
    (hmut : ∀ old, m'.heap.own? (m'.heap.home .chain e (strip target.text)) (strip target.text)
      = some old → old.constant = false) :
    ∃ m'', eval limit e n m = .ok v m'' ∧ m''.diagnostics = m'.diagnostics ∧
      m''.heap = m'.heap.write (m'.heap.home .chain e (strip target.text)) (strip target.text)
        ⟨v, bindsConstant op.text⟩ := by
  generalize hconst : bindsConstant op.text = constant
  have hassign := assignTo_identifier_of_mutable (b := ⟨v, constant⟩) ht hmut
  rw [eval_assignment hn hchildren hrhs, hconst, Step.recover_of_ok hassign]
  exact ⟨_, rfl, rfl, rfl⟩

/-- An assignment to a member that can be reached and is not constant. -/
theorem eval_assignment_of_path {path : List String} {arrival : Arrival} {h : Heap}
    (hn : n.form? = some .assignment) (hchildren : n.children = [target, op, rhs])
    (hrhs : eval limit e rhs (m.enter n) = .ok v m') (ht : target.form? = some .member)
    (hpath : target.targetPath = .ok path)
    (hr : Heap.resolvePath e path (bindsConstant op.text) m'.heap = .ok arrival h)
    (hmut : ∀ old, h.own? arrival.scope (path.getLastD "") = some old → old.constant = false) :
    ∃ m'', eval limit e n m = .ok v m'' ∧ m''.diagnostics = m'.diagnostics ∧
      m''.heap = h.write arrival.scope (path.getLastD "") ⟨v, bindsConstant op.text⟩ := by
  generalize hconst : bindsConstant op.text = constant at hr ⊢
  have hassign := (assignTo_member_of_path ht hpath).trans
    (bind_of_ok (f := fun _ => pure v) (assignPath_of_mutable (b := ⟨v, constant⟩) hr hmut))
  rw [eval_assignment hn hchildren hrhs, hconst, Step.recover_of_ok hassign]
  refine ⟨_, rfl, ?_, rfl⟩
  exact Machine.emitAll_diagnostics ({ m' with heap := h } : Machine) (arrival.events path)

end Node

/-! ### Failed assignments -/

/-- What is wrong with a target, whatever part of it, is an unresolved member. -/
theorem Node.targetNames_error_label {n : Node} {whole : String} {tail : List String}
    {fault : Fault} (hn : n.targetNames whole tail = .error fault) :
    fault.label = "ScriblUnresolvedMember" := by
  fun_induction Node.targetNames whole tail n with
  | case1 tail text object dot property named missing hproperty ih => exact ih hn
  | case2 => cases hn; rfl
  | case3 => cases hn
  | case4 => cases hn; rfl

/-- What a successful assignment of `b` makes of a heap, with its value. -/
inductive Assigned (e : ScopeId) (target : Node) (b : Binding) (h : Heap) : Value → Heap → Prop
  | ignored (hid : target.form? ≠ some .identifier) (hmem : target.form? ≠ some .member) :
      Assigned e target b h .void h
  | name (ht : target.form? = some .identifier)
      (hmut : ∀ old, h.own? (h.home .chain e (strip target.text)) (strip target.text)
        = some old → old.constant = false) :
      Assigned e target b h b.value
        (h.write (h.home .chain e (strip target.text)) (strip target.text) b)
  | member {path : List String} {arrival : Arrival} {h' : Heap}
      (ht : target.form? = some .member) (hpath : target.targetPath = .ok path)
      (hr : Heap.resolvePath e path b.constant h = .ok arrival h')
      (hmut : ∀ old, h'.own? arrival.scope (path.getLastD "") = some old →
        old.constant = false) :
      Assigned e target b h b.value (h'.write arrival.scope (path.getLastD "") b)

/-- The outcome of an assignment from `m`.  A failed one has a cause of its
own and leaves the heap as it was; neither reports anything by itself. -/
def AssignsOrKeeps (e : ScopeId) (target : Node) (b : Binding) (m : Machine) :
    EStateM.Result Failure Machine Value → Prop
  | .ok v m' => m.SameRecord m' ∧ m'.diagnostics = m.diagnostics ∧
      Assigned e target b m.heap v m'.heap
  | .error f m' => m.SameRecord m' ∧ m'.diagnostics = m.diagnostics ∧ m'.heap = m.heap ∧
      f.IsOfAssignment

/-- Making blocks enters no node. -/
theorem Arrival.events_entry? (path : List String) (arrival : Arrival) :
    ∀ event ∈ arrival.events path, event.entry? = none := by
  intro event hevent
  obtain ⟨name, -, rfl⟩ := List.mem_map.1 hevent
  rfl

theorem assignTo_identifier_spec {e : ScopeId} {target : Node} (b : Binding) (m : Machine)
    (ht : target.form? = some .identifier) :
    AssignsOrKeeps e target b m (assignTo e target b m) := by
  rcases m.heap.mutable_or_constant (m.heap.home .chain e (strip target.text))
    (strip target.text) with hmut | ⟨v, hconst⟩
  · rw [assignTo_identifier_of_mutable ht hmut]
    exact ⟨⟨rfl, rfl⟩, rfl, .name ht hmut⟩
  · rw [assignTo_identifier_of_constant ht hconst]
    exact ⟨.refl m, rfl, rfl, ⟨_, rfl⟩⟩

theorem assignTo_member_spec {e : ScopeId} {target : Node} (b : Binding) (m : Machine)
    (ht : target.form? = some .member) :
    AssignsOrKeeps e target b m (assignTo e target b m) := by
  rcases hpath : target.targetPath with fault | path
  · -- the target spells no path
    rw [assignTo_member_of_error ht hpath]
    exact ⟨.refl m, rfl, rfl, Node.targetNames_error_label hpath⟩
  · rw [assignTo_member_of_path ht hpath]
    have hall := Heap.resolvePath_allOrNothing e path b.constant m.heap
    rcases hr : Heap.resolvePath e path b.constant m.heap with ⟨arrival, h⟩ | ⟨f, h⟩
    · rw [hr] at hall
      obtain ⟨hdepth, hentries⟩ := Machine.SameRecord.emitAll ({ m with heap := h } : Machine)
        (Arrival.events_entry? path arrival)
      rcases h.mutable_or_constant arrival.scope (path.getLastD "") with hmut | ⟨v, hconst⟩
      · rw [bind_of_ok (assignPath_of_mutable hr hmut)]
        exact ⟨⟨hdepth, hentries⟩, Machine.emitAll_diagnostics _ _, .member ht hpath hr hmut⟩
      · -- a constant stands in the last slot, so the scope of that slot is
        -- not a new one, and nothing was made on the way to it
        have hsame : h = m.heap := hall.resolve_right fun hempty => hempty.not_bound hconst
        rw [bind_of_error (assignPath_of_constant hr hconst)]
        exact ⟨⟨hdepth, hentries⟩, Machine.emitAll_diagnostics _ _, hsame, ⟨_, rfl⟩⟩
    · rw [hr] at hall
      -- the walk has failed, and nothing was made
      rw [bind_of_error (assignPath_of_error hr)]
      exact ⟨⟨rfl, rfl⟩, rfl, hall, Heap.resolvePath_error_cause hr⟩

/-- **An assignment binds its value or keeps the heap.** -/
theorem assignTo_spec (e : ScopeId) (target : Node) (b : Binding) (m : Machine) :
    AssignsOrKeeps e target b m (assignTo e target b m) := by
  by_cases hid : target.form? = some .identifier
  · exact assignTo_identifier_spec b m hid
  · by_cases hmem : target.form? = some .member
    · exact assignTo_member_spec b m hmem
    · rw [assignTo_of_ignored hid hmem]
      refine ⟨.emitAll m (by simp [Event.entry?]), Machine.emitAll_diagnostics m _, ?_⟩
      rw [Machine.emitAll_heap]
      exact .ignored hid hmem

/-- How an assignment ends once its right side has a value: it succeeds and
reports nothing, it reports a member that cannot be reached, or it stops at a
constant. -/
theorem eval_assignment_cases {limit : Int} {e : ScopeId} {n target op rhs : Node}
    {m m' : Machine} {v : Value} (hn : n.form? = some .assignment)
    (hchildren : n.children = [target, op, rhs])
    (hrhs : eval limit e rhs (m.enter n) = .ok v m') :
    (∃ w m'', eval limit e n m = .ok w m'' ∧ m''.diagnostics = m'.diagnostics ∧
        Assigned e target ⟨v, bindsConstant op.text⟩ m'.heap w m''.heap) ∨
      (∃ d m'', eval limit e n m = .ok .void m'' ∧ m''.diagnostics = m'.diagnostics.push d ∧
        d.error = "ScriblUnresolvedMember" ∧ m''.heap = m'.heap) ∨
      ∃ name m'', eval limit e n m = .error (.redeclared name) m'' ∧ m''.heap = m'.heap := by
  have hspec := assignTo_spec e target ⟨v, bindsConstant op.text⟩ m'
  rw [eval_assignment hn hchildren hrhs]
  rcases ha : assignTo e target ⟨v, bindsConstant op.text⟩ m' with ⟨w, m₁⟩ | ⟨f, m₁⟩
  · rw [ha] at hspec
    rw [Step.recover_of_ok ha]
    exact .inl ⟨w, m₁.leave, rfl, hspec.2.1, hspec.2.2⟩
  · rw [ha] at hspec
    obtain ⟨-, hdiag, hheap, hcause⟩ := hspec
    cases f with
    | soft fault =>
      rw [Step.recover_of_soft ha]
      refine .inr (.inl ⟨.ofFault fault n, _, rfl, ?_, hcause, hheap⟩)
      show m₁.diagnostics.push (.ofFault fault n) = m'.diagnostics.push (.ofFault fault n)
      rw [hdiag]
    | hard halt =>
      rw [Step.recover_of_hard ha]
      obtain ⟨name, rfl⟩ := hcause
      exact .inr (.inr ⟨name, m₁.leave, rfl, hheap⟩)

/-- **A failed assignment changes nothing.**  A path that cannot be walked
leaves the heap as it was, whatever stopped it.  And once the right side of an
assignment is evaluated, the heap is kept if the assignment then ends in a
hard stop, which can only be about a constant, or in a diagnostic, which can
only be about a member. -/
theorem failed_assignment_keeps_heap :
    (∀ (e : ScopeId) (path : List String) (constant : Bool) (h h' : Heap) (f : Failure),
      Heap.resolvePath e path constant h = .error f h' → h' = h) ∧
    (∀ (limit : Int) (e : ScopeId) (n target op rhs : Node) (v : Value) (m m' : Machine),
      n.kind = "assignment_expression" → n.children = [target, op, rhs] →
      eval limit e rhs (m.enter n) = .ok v m' →
      (∀ halt m'', eval limit e n m = .error halt m'' →
        m''.heap = m'.heap ∧ ∃ name, halt = .redeclared name) ∧
      (∀ w m'', eval limit e n m = .ok w m'' → m''.diagnostics ≠ m'.diagnostics →
        m''.heap = m'.heap ∧ ∃ d, m''.diagnostics = m'.diagnostics.push d ∧
          d.error = "ScriblUnresolvedMember")) := by
  constructor
  · intro e path constant h h' f hr
    have hall := Heap.resolvePath_allOrNothing e path constant h
    rw [hr] at hall
    exact hall
  · intro limit e n target op rhs v m m' hkind hchildren hrhs
    have hn : n.form? = some .assignment := Node.form?_eq_some_iff.2 hkind
    rcases eval_assignment_cases hn hchildren hrhs with
      ⟨u, m₁, heval, hdiag, -⟩ | ⟨d, m₁, heval, hdiag, herror, hheap⟩ | ⟨name, m₁, heval, hheap⟩
    · -- the assignment succeeds: neither case arises
      rw [heval]
      refine ⟨fun halt m'' hstop => (by cases hstop), fun w m'' hok hnew => ?_⟩
      cases hok
      exact absurd hdiag hnew
    · -- a diagnostic: the member cannot be reached
      rw [heval]
      refine ⟨fun halt m'' hstop => (by cases hstop), fun w m'' hok _ => ?_⟩
      cases hok
      exact ⟨hheap, d, hdiag, herror⟩
    · rw [heval]
      refine ⟨fun halt m'' hstop => ?_, fun w m'' hok => by cases hok⟩
      cases hstop
      exact ⟨hheap, name, rfl⟩

/-- Beside a constant block `p` without members: the path `p.q.r` cannot be
walked, `p.q.r := true` ends in a diagnostic and `p = true` in a hard stop,
and each leaves the heap alone. -/
theorem failed_assignment_beside_constant_block :
    let h : Heap :=
      { scopes := #[{ table := Table.empty.set "p" ⟨.block 1, true⟩ }, { parent := some 0 }] }
    let target : Node := .member (.member (.identifier "p") (.identifier "q")) (.identifier "r")
    let soft : Node := .assign target ":=" (.truth true)
    let hard : Node := .assign (.identifier "p") "=" (.truth true)
    (∃ f h', Heap.resolvePath 0 ["p", "q", "r"] false h = .error f h' ∧ h' = h) ∧
    (∃ m, eval 5 0 soft { heap := h } = .ok .void m ∧ m.diagnostics.size = 1 ∧ m.heap = h) ∧
    (∃ halt m, eval 5 0 hard { heap := h } = .error halt m ∧ m.heap = h) := by
  intro h target soft hard
  let bound (n : Node) : Machine := ((({ heap := h } : Machine).enter n).enter (.truth true)).leave
  have hrhs : ∀ n : Node, eval 5 0 (.truth true) (({ heap := h } : Machine).enter n)
      = .ok (.boolean true) (bound n) :=
    fun n => eval_leaf (by decide) rfl (by show (1 : Int) < 5; decide)
  have hp : h.own? 0 "p" = some ⟨.block 1, true⟩ := rfl
  have hhome : h.own? (h.home .chain 0 "p") "p" = some ⟨.block 1, true⟩ := by
    rw [Heap.home_of_own? hp]
    exact hp
  have hvacant : h.Vacant (h.home .own 1 "q") "q" := by
    intro b hb
    cases hb
  have hwalk : Heap.resolvePath 0 ["p", "q", "r"] false h
      = .error (.soft (.vacantMember "q")) h := by
    rw [Heap.resolvePath_of_stripped (by decide) (by decide) (by decide),
      Heap.walk_of_block hhome, Heap.walk_of_vacant_constant hvacant]
  refine ⟨⟨_, _, hwalk, failed_assignment_keeps_heap.1 _ _ _ _ _ _ hwalk⟩, ?_, ?_⟩
  · have heval : eval 5 0 soft { heap := h }
        = .ok .void ((bound soft).report (.ofFault (.vacantMember "q") soft)).leave := by
      rw [eval_assignment (by decide) rfl (hrhs soft), Step.recover,
        assignTo_member_of_path (by decide) rfl, bind_of_error (assignPath_of_error hwalk)]
      rfl
    have hkept := (failed_assignment_keeps_heap.2 _ _ _ _ _ _ _ _ _ rfl rfl (hrhs soft)).2 _ _
      heval
    have hnew : ((bound soft).report (.ofFault (.vacantMember "q") soft)).leave.diagnostics
        ≠ (bound soft).diagnostics :=
      fun hsame => Nat.one_ne_zero (congrArg Array.size hsame)
    exact ⟨_, heval, rfl, (hkept hnew).1⟩
  · have heval : eval 5 0 hard { heap := h } = .error (.redeclared "p") (bound hard).leave := by
      have hstrip : strip (Node.identifier "p").text = "p" := by decide
      have hconst : (bound hard).heap.own? ((bound hard).heap.home .chain 0
          (strip (Node.identifier "p").text)) (strip (Node.identifier "p").text)
            = some ⟨.block 1, true⟩ := by
        rw [hstrip]
        exact hhome
      rw [eval_assignment (by decide) rfl (hrhs hard), Step.recover,
        assignTo_identifier_of_constant (by decide) hconst, hstrip]
      rfl
    have hkept := (failed_assignment_keeps_heap.2 _ _ _ _ _ _ _ _ _ rfl rfl (hrhs hard)).1 _ _
      heval
    exact ⟨_, _, heval, hkept.1⟩

end BlockScript
