/-
BlockScript/Proofs/Reports.lean

Every soft fault is accounted for.

`completed` lists the calls of the evaluator that end normally, in the order in
which they end.  What a call reports by itself is what its evaluation adds to
the diagnostics behind its operands (`Call.reports`).  An evaluation adds
nothing else, whatever its outcome:

    diagnostics (after (eval limit e n m))
      = diagnostics m ++ (completed limit e n m).flatMap (Call.reports limit),

and the log shows each of these as a warning.  If the evaluation ends normally,
then the calls completed are those of the tree in post-order, and each of them
reports at most once: its node is named, and its value is void.  A node that is
ill-formed by itself always reports.
-/
import BlockScript.Proofs.Traversal

namespace BlockScript

/-! ### Warnings -/

/-- The text of an event that warns of a fault. -/
def Event.warning? (event : Event) : Option String :=
  if event.level.2 = "WARNING" ∧ event.channel = "scribl.runtime_context" then event.message?
  else none

namespace Machine

/-- The warnings so far, as the log has them. -/
def warnings (m : Machine) : List String :=
  m.trace.toList.filterMap Event.warning?

/-- Between the two machines some diagnostics were added, in this order, and
the log warns of these and of nothing else. -/
structure Reports (m : Machine) (added : List Diagnostic) (m' : Machine) : Prop where
  diagnostics : m'.diagnostics.toList = m.diagnostics.toList ++ added
  warnings : m'.warnings = m.warnings ++ added.map Diagnostic.text

namespace Reports

variable {m m' m'' : Machine} {added added' : List Diagnostic}

theorem refl (m : Machine) : m.Reports [] m :=
  ⟨(List.append_nil _).symm, (List.append_nil _).symm⟩

theorem trans (hr : m.Reports added m') (hr' : m'.Reports added' m'') :
    m.Reports (added ++ added') m'' := by
  constructor
  · rw [hr'.diagnostics, hr.diagnostics, List.append_assoc]
  · rw [hr'.warnings, hr.warnings, List.map_append, List.append_assoc]

/-- Heap and depth have no part in it. -/
theorem alike (hr : m.Reports added m') (hdiagnostics : m''.diagnostics = m'.diagnostics)
    (htrace : m''.trace = m'.trace) : m.Reports added m'' := by
  constructor
  · rw [hdiagnostics, hr.diagnostics]
  · rw [← hr.warnings]
    unfold Machine.warnings
    rw [htrace]

theorem leave (hr : m.Reports added m') : m.Reports added m'.leave :=
  hr.alike rfl rfl

/-- What warns of nothing reports nothing. -/
theorem emitAll (m : Machine) {es : List Event} (hes : ∀ event ∈ es, event.warning? = none) :
    m.Reports [] (m.emitAll es) := by
  rw [emitAll_eq]
  refine ⟨(List.append_nil _).symm, ?_⟩
  show (m.trace.toList ++ es).filterMap Event.warning? = m.warnings ++ []
  rw [List.filterMap_append, List.filterMap_eq_nil_iff.2 hes]
  rfl

theorem inside (m : Machine) (e : ScopeId) (n : Node) : m.Reports [] (m.inside e n) := by
  have hquiet : m.Reports [] (m.emitAll [.entered n (m.depth + 1)]) :=
    emitAll m (by simp [Event.warning?, Event.level])
  exact hquiet.alike rfl rfl

/-- A report is a diagnostic, and the log warns of it. -/
theorem report (m : Machine) (d : Diagnostic) : m.Reports [d] (m.report d) := by
  constructor
  · show (m.diagnostics.push d).toList = _
    rw [Array.toList_push]
  · show (m.trace.push (.recovered d)).toList.filterMap Event.warning? = _
    rw [Array.toList_push, List.filterMap_append]
    rfl

theorem finish (m : Machine) : m.Reports [] m.finish := by
  unfold Machine.finish
  split
  · exact refl m
  · have hquiet : m.Reports [] (m.emitAll [.finished m.diagnostics.size]) :=
      emitAll m (by simp [Event.warning?, Event.level])
    exact hquiet

end Reports

end Machine

/-! ### Nothing is reported on the way -/

/-- The blocks that are made on the way are no warnings. -/
theorem Arrival.events_warning? (path : List String) (arrival : Arrival) :
    ∀ event ∈ arrival.events path, event.warning? = none := by
  intro event hevent
  obtain ⟨name, -, rfl⟩ := List.mem_map.1 hevent
  rfl

/-- An assignment reports nothing by itself, however it ends. -/
theorem assignTo_reports (e : ScopeId) (target : Node) (b : Binding) (m : Machine) :
    m.Reports [] (after (assignTo e target b m)) := by
  by_cases hid : target.form? = some .identifier
  · rcases m.heap.mutable_or_constant (m.heap.home .chain e (strip target.text))
      (strip target.text) with hmut | ⟨v, hconst⟩
    · rw [assignTo_identifier_of_mutable hid hmut]
      exact (Machine.Reports.refl m).alike rfl rfl
    · rw [assignTo_identifier_of_constant hid hconst]
      exact .refl m
  · by_cases hmem : target.form? = some .member
    · rcases hpath : target.targetPath with fault | path
      · rw [assignTo_member_of_error hmem hpath]
        exact .refl m
      · rw [assignTo_member_of_path hmem hpath]
        rcases hr : Heap.resolvePath e path b.constant m.heap with ⟨arrival, h⟩ | ⟨f, h⟩
        · -- the blocks made on the way are logged, but not as warnings
          have hquiet := Machine.Reports.emitAll ({ m with heap := h } : Machine)
            (Arrival.events_warning? path arrival)
          rcases h.mutable_or_constant arrival.scope (path.getLastD "") with hmut | ⟨v, hconst⟩
          · rw [bind_of_ok (assignPath_of_mutable hr hmut)]
            exact ⟨hquiet.diagnostics, hquiet.warnings⟩
          · rw [bind_of_error (assignPath_of_constant hr hconst)]
            exact ⟨hquiet.diagnostics, hquiet.warnings⟩
        · rw [bind_of_error (assignPath_of_error hr)]
          exact (Machine.Reports.refl m).alike rfl rfl
    · rw [assignTo_of_ignored hid hmem]
      exact .emitAll m (by simp [Event.warning?, Event.level])

/-- A conclusion reports nothing; recovering from it does. -/
theorem conclude_reports (e : ScopeId) (n : Node) (values : List Value) (m : Machine) :
    m.Reports [] (after (conclude e n values m)) := by
  rcases conclude_cases e n values m with ⟨target, op, rhs, v, -, -, -, hassign⟩ | hreads
  · rw [hassign]
    exact assignTo_reports e target _ m
  · -- the other forms leave the machine as it is
    rcases hc : conclude e n values m with ⟨v, m'⟩ | ⟨f, m'⟩ <;> rw [hc] at hreads
    · obtain ⟨rfl, -⟩ := hreads
      exact .refl m'
    · obtain rfl : m' = m := hreads
      exact .refl m'

/-! ### What a call reports -/

namespace Call

/-- The outcome of a call. -/
def outcome (limit : Int) (c : Call) : Outcome Value :=
  eval limit c.scope c.node c.machine

/-- The outcome of the operands of a call. -/
def operandOutcome (limit : Int) (c : Call) : Outcome (List Value) :=
  evalAll limit (c.node.scopeFrom c.scope c.machine.heap).1 c.node.operands
    (c.machine.inside c.scope c.node)

/-- What a call adds to the diagnostics behind its operands. -/
def reports (limit : Int) (c : Call) : List Diagnostic :=
  (after (c.outcome limit)).diagnostics.toList.drop
    (after (c.operandOutcome limit)).diagnostics.size

variable {limit : Int} {c : Call} {values : List Value} {m m' : Machine} {v : Value}

/-- What is added behind the operands is what the call reports. -/
theorem reports_eq {added : List Diagnostic} (hops : c.operandOutcome limit = .ok values m)
    (hr : m.Reports added (after (c.outcome limit))) : c.reports limit = added := by
  rw [reports, hops, hr.diagnostics]
  exact List.drop_left

/-- How a call ends once its operands have values: it has a value and reports
nothing, it is void and reports a fault, or it stops and reports nothing. -/
theorem outcome_cases (hlt : c.machine.depth < limit)
    (hops : c.operandOutcome limit = .ok values m) :
    (∃ w m', c.outcome limit = .ok w m' ∧ m.Reports [] m' ∧
      ∃ m₁, conclude (c.node.scopeFrom c.scope c.machine.heap).1 c.node values m = .ok w m₁) ∨
    (∃ fault m', c.outcome limit = .ok .void m' ∧
      m.Reports [Diagnostic.ofFault fault c.node] m') ∨
    ∃ halt m', c.outcome limit = .error halt m' ∧ m.Reports [] m' := by
  have hquiet := conclude_reports (c.node.scopeFrom c.scope c.machine.heap).1 c.node values m
  have heval : c.outcome limit = _ := eval_of_operands hlt hops
  rcases hc : conclude (c.node.scopeFrom c.scope c.machine.heap).1 c.node values m
    with ⟨w, m₁⟩ | ⟨fault | halt, m₁⟩ <;> rw [hc] at hquiet
  · rw [Step.recover_of_ok hc] at heval
    exact .inl ⟨w, m₁.leave, heval, hquiet.leave, m₁, rfl⟩
  · rw [Step.recover_of_soft hc] at heval
    exact .inr (.inl ⟨fault, _, heval, (hquiet.trans (.report m₁ _)).leave⟩)
  · rw [Step.recover_of_hard hc] at heval
    exact .inr (.inr ⟨halt, m₁.leave, heval, hquiet.leave⟩)

end Call

/-! ### Nodes that are ill-formed by themselves -/

/-- The kinds of nodes that have a fixed number of children. -/
def Node.childCounts : List (String × Nat) :=
  [("unary_expression", 2), ("binary_expression", 3), ("assignment_expression", 3),
    ("member_expression", 3)]

/-- A node whose very shape is a fault, whatever its operands are. -/
inductive Node.IllFormed (n : Node) : Prop
  | kind : (∀ form : Form, n.kind ≠ form.kind) → IllFormed n
  | count {count : Nat} : (n.kind, count) ∈ Node.childCounts → n.children.length ≠ count →
      IllFormed n
  | literal : n.kind = "number" → Literal.read? n.text = none → IllFormed n
  | unary {op operand : Node} : n.kind = "unary_expression" → n.children = [op, operand] →
      (∀ f : UnaryOp, f.symbol ≠ strip op.text) → IllFormed n
  | binary {lhs op rhs : Node} : n.kind = "binary_expression" → n.children = [lhs, op, rhs] →
      (∀ f : BinaryOp, f.symbol ≠ strip op.text) → IllFormed n

/-- The kinds with a fixed number of children are those of forms with an arity. -/
theorem Node.exists_arity {n : Node} {count : Nat} (h : (n.kind, count) ∈ Node.childCounts) :
    ∃ form words, n.form? = some form ∧ form.arity? = some (count, words) := by
  simp only [Node.childCounts, List.mem_cons, Prod.mk.injEq, List.not_mem_nil, or_false] at h
  rcases h with ⟨hkind, rfl⟩ | ⟨hkind, rfl⟩ | ⟨hkind, rfl⟩ | ⟨hkind, rfl⟩
  · exact ⟨.unary, _, Node.form?_eq_some_iff.2 hkind, rfl⟩
  · exact ⟨.binary, _, Node.form?_eq_some_iff.2 hkind, rfl⟩
  · exact ⟨.assignment, _, Node.form?_eq_some_iff.2 hkind, rfl⟩
  · exact ⟨.member, _, Node.form?_eq_some_iff.2 hkind, rfl⟩

/-- A form with the wrong number of children is a fault. -/
theorem concludeForm_of_wrong_count {e : ScopeId} {n : Node} {form : Form} {children : List Node}
    {values : List Value} {m : Machine} {count : Nat} {words : String}
    (harity : form.arity? = some (count, words)) (hcount : children.length ≠ count) :
    ∃ fault, concludeForm e n form children values m = .error (.soft fault) m := by
  fun_cases concludeForm e n form children values with
  | case16 => exact ⟨_, rfl⟩
  | _ => cases harity <;> exact absurd rfl hcount

/-- An ill-formed node does not get as far as a value. -/
theorem Node.IllFormed.conclude {n : Node} (hn : n.IllFormed) (e : ScopeId)
    (values : List Value) (m : Machine) :
    ∃ fault, conclude e n values m = .error (.soft fault) m := by
  cases hn with
  | kind hkind =>
    have hform : n.form? = none := by
      rw [Option.eq_none_iff_forall_ne_some]
      exact fun form hform => hkind form (Node.form?_eq_some_iff.1 hform)
    rw [BlockScript.conclude, hform]
    exact ⟨_, rfl⟩
  | count hkind hcount =>
    -- no case of the form fits a wrong number of children
    obtain ⟨form, words, hform, harity⟩ := Node.exists_arity hkind
    rw [BlockScript.conclude, hform]
    exact concludeForm_of_wrong_count harity hcount
  | literal hkind htext =>
    have hform : n.form? = some .number := Node.form?_eq_some_iff.2 hkind
    rw [BlockScript.conclude, hform]
    refine ⟨.badLiteral n.text, ?_⟩
    simp only [concludeForm, literalValue, htext]
    rfl
  | @unary op operand hkind hchildren hop =>
    have hform : n.form? = some .unary := Node.form?_eq_some_iff.2 hkind
    have hnone : UnaryOp.ofSymbol? (strip op.text) = none := by
      rw [UnaryOp.ofSymbol?, List.find?_eq_none]
      exact fun f _ => by simpa using hop f
    rw [BlockScript.conclude, hform, hchildren]
    -- without just one value, the count is wrong
    rcases values with - | ⟨v, - | ⟨w, rest⟩⟩
    · exact ⟨_, rfl⟩
    · refine ⟨.unknownUnary op.text, ?_⟩
      simp only [concludeForm, hnone]
      rfl
    · exact ⟨_, rfl⟩
  | @binary lhs op rhs hkind hchildren hop =>
    have hform : n.form? = some .binary := Node.form?_eq_some_iff.2 hkind
    have hnone : BinaryOp.ofSymbol? (strip op.text) = none := by
      rw [BinaryOp.ofSymbol?, List.find?_eq_none]
      exact fun f _ => by simpa using hop f
    rw [BlockScript.conclude, hform, hchildren]
    rcases values with - | ⟨v, - | ⟨w, - | ⟨x, rest⟩⟩⟩
    · exact ⟨_, rfl⟩
    · exact ⟨_, rfl⟩
    · refine ⟨.unknownBinary op.text, ?_⟩
      simp only [concludeForm, hnone]
      rfl
    · exact ⟨_, rfl⟩

/-- A call that has a value reports at most once.  Its report names its node,
whose value is then void; and there is one if the node is ill-formed. -/
def Call.Accounted (limit : Int) (c : Call) : Prop :=
  ∃ v m, c.outcome limit = .ok v m ∧
    (c.reports limit = [] ∨ ∃ d, c.reports limit = [d] ∧ d.nodeKind = c.node.kind ∧
      d.nodeText = collapse c.node.text ∧ v = .void) ∧
    (c.node.IllFormed → (c.reports limit).length = 1)

/-- Every call that has a value is accounted for. -/
theorem Call.accounted {limit : Int} {c : Call} {v : Value} {m : Machine}
    (hc : c.outcome limit = .ok v m) : c.Accounted limit := by
  have hlt := lt_of_eval_ok hc
  rcases hops : c.operandOutcome limit with ⟨values, m₁⟩ | ⟨halt, m₁⟩
  · rcases Call.outcome_cases hlt hops with
      ⟨w, m', hw, hquiet, m₂, hconclude⟩ | ⟨fault, m', hvoid, hreport⟩ | ⟨halt, m', hstop, -⟩
    · have hnone : c.reports limit = [] := Call.reports_eq hops (by rw [hw]; exact hquiet)
      refine ⟨w, m', hw, .inl hnone, fun hill => ?_⟩
      -- an ill-formed node would have failed
      obtain ⟨fault, hfault⟩ := hill.conclude (c.node.scopeFrom c.scope c.machine.heap).1 values m₁
      rw [hconclude] at hfault
      cases hfault
    · have hone : c.reports limit = [.ofFault fault c.node] :=
        Call.reports_eq hops (by rw [hvoid]; exact hreport)
      exact ⟨.void, m', hvoid, .inr ⟨_, hone, rfl, rfl, rfl⟩, fun _ => by rw [hone]; rfl⟩
    · rw [hstop] at hc
      cases hc
  · have hstop : c.outcome limit = .error halt m₁.leave := eval_of_halted hlt hops
    rw [hstop] at hc
    cases hc

/-! ### The calls that end normally -/

mutual

/-- The nodes of a tree behind those below them, from left to right. -/
def Node.postorder (n : Node) : List Node :=
  Node.postorders n.visited ++ [n]
termination_by sizeOf n
decreasing_by exact n.sizeOf_visited_lt

/-- The nodes of several trees, one tree after the other. -/
def Node.postorders : List Node → List Node
  | [] => []
  | n :: ns => n.postorder ++ Node.postorders ns
termination_by ns => sizeOf ns

end

mutual

/-- The calls in the evaluation of a node that end normally, in the order in
which they end. -/
def completed (limit : Int) (e : ScopeId) (n : Node) (m : Machine) : List Call :=
  if limit ≤ m.depth then []
  else
    completedAll limit (n.scopeFrom e m.heap).1 n.operands (m.inside e n) ++
      match eval limit e n m with
      | .ok _ _ => [⟨e, n, m⟩]
      | .error _ _ => []
termination_by sizeOf n
decreasing_by exact n.sizeOf_operands_lt

/-- The same of nodes from left to right, up to the first one that stops. -/
def completedAll (limit : Int) (e : ScopeId) : List Node → Machine → List Call
  | [], _ => []
  | n :: ns, m =>
    completed limit e n m ++
      match eval limit e n m with
      | .ok _ m' => completedAll limit e ns m'
      | .error _ _ => []
termination_by ns => sizeOf ns

end

section Completed

variable {limit : Int} {e : ScopeId} {n : Node} {ns : List Node} {m m' : Machine} {v : Value}
  {halt : Halt}

theorem Node.postorder_eq (n : Node) : n.postorder = Node.postorders n.operands ++ [n] := by
  rw [Node.postorder, Node.operands_eq_visited]

theorem completed_of_tooDeep (h : limit ≤ m.depth) : completed limit e n m = [] := by
  rw [completed, if_pos h]

/-- A node that has a value is completed behind its operands. -/
theorem completed_of_ok (he : eval limit e n m = .ok v m') :
    completed limit e n m
      = completedAll limit (n.scopeFrom e m.heap).1 n.operands (m.inside e n) ++ [⟨e, n, m⟩] := by
  rw [completed, if_neg (Int.not_le.2 (lt_of_eval_ok he)), he]

theorem completed_of_error (hlt : m.depth < limit) (he : eval limit e n m = .error halt m') :
    completed limit e n m
      = completedAll limit (n.scopeFrom e m.heap).1 n.operands (m.inside e n) := by
  rw [completed, if_neg (Int.not_le.2 hlt), he]
  exact List.append_nil _

theorem completedAll_cons_of_ok (he : eval limit e n m = .ok v m') :
    completedAll limit e (n :: ns) m = completed limit e n m ++ completedAll limit e ns m' := by
  rw [completedAll, he]

theorem completedAll_cons_of_error (he : eval limit e n m = .error halt m') :
    completedAll limit e (n :: ns) m = completed limit e n m := by
  rw [completedAll, he]
  exact List.append_nil _

end Completed

/-- The calls completed follow the post-order of the nodes.  If all of them end
normally, then no call is left out. -/
def Follows {α : Type} (ended called : List Call) (nodes : List Node) : Outcome α → Prop
  | .ok _ _ => ended.map Call.node = nodes ∧ ended.Perm called
  | .error _ _ => ended.map Call.node <+: nodes

/-- The calls are completed in post-order, as far as the evaluation gets. -/
theorem completed_follows (limit : Int) :
    (∀ e n m, Follows (completed limit e n m) (calls limit e n m) n.postorder
        (eval limit e n m)) ∧
      ∀ e ns m, Follows (completedAll limit e ns m) (callsAll limit e ns m)
        (Node.postorders ns) (evalAll limit e ns m) := by
  refine eval_induction limit
    (fun e n m r => Follows (completed limit e n m) (calls limit e n m) n.postorder r)
    (fun e ns m r => Follows (completedAll limit e ns m) (callsAll limit e ns m)
      (Node.postorders ns) r) ?_ ?_ ?_ ?_ ?_ ?_ ?_
  · intro e n m hdeep
    rw [completed_of_tooDeep hdeep]
    exact List.nil_prefix
  · -- an operand has stopped: the node itself is not completed
    intro e n m halt m' hlt hops hfollows
    rw [completed_of_error hlt (eval_of_halted hlt hops), Node.postorder_eq]
    exact hfollows.trans (List.prefix_append _ _)
  · -- the node is completed after its operands, and was called before them
    intro e n m values m' hlt hops hfollows
    obtain ⟨hnodes, hperm⟩ := hfollows
    have heval := eval_of_operands hlt hops
    rcases hr : Step.recover n (conclude (n.scopeFrom e m.heap).1 n values) m'
      with ⟨v, m''⟩ | ⟨halt, m''⟩ <;> rw [hr] at heval
    · rw [completed_of_ok heval, Node.postorder_eq, calls_of_lt hlt]
      refine ⟨by rw [List.map_append, hnodes]; rfl, ?_⟩
      exact (List.perm_append_singleton _ _).trans (hperm.cons _)
    · rw [completed_of_error hlt heval, Node.postorder_eq]
      exact hnodes ▸ List.prefix_append _ _
  · intro e m
    rw [completedAll, callsAll, Node.postorders]
    exact ⟨rfl, .nil⟩
  · intro e n ns m halt m' he hn
    rw [completedAll_cons_of_error he, Node.postorders]
    exact hn.trans (List.prefix_append _ _)
  · intro e n ns m v m' halt m'' he hn hns
    rw [completedAll_cons_of_ok he, Node.postorders]
    show List.map _ _ <+: _
    rw [List.map_append, hn.1]
    exact (List.prefix_append_right_inj _).2 hns
  · intro e n ns m v m' vs m'' he hn hns
    rw [completedAll_cons_of_ok he, callsAll_cons_of_ok he, Node.postorders]
    exact ⟨by rw [List.map_append, hn.1, hns.1], hn.2.append hns.2⟩

/-- What is listed as completed has a value. -/
theorem outcome_of_completed (limit : Int) :
    (∀ e n m, ∀ c ∈ completed limit e n m, ∃ v m', c.outcome limit = .ok v m') ∧
      ∀ e ns m, ∀ c ∈ completedAll limit e ns m, ∃ v m', c.outcome limit = .ok v m' := by
  refine eval_induction limit
    (fun e n m _ => ∀ c ∈ completed limit e n m, ∃ v m', c.outcome limit = .ok v m')
    (fun e ns m _ => ∀ c ∈ completedAll limit e ns m, ∃ v m', c.outcome limit = .ok v m')
    ?_ ?_ ?_ ?_ ?_ ?_ ?_
  · intro e n m hdeep c hc
    rw [completed_of_tooDeep hdeep] at hc
    cases hc
  · intro e n m halt m' hlt hops ih c hc
    rw [completed_of_error hlt (eval_of_halted hlt hops)] at hc
    exact ih c hc
  · intro e n m values m' hlt _ ih c hc
    rcases heval : eval limit e n m with ⟨v, m''⟩ | ⟨halt, m''⟩
    · rw [completed_of_ok heval] at hc
      rcases List.mem_append.1 hc with hc | hc
      · exact ih c hc
      · rw [List.mem_singleton.1 hc]
        exact ⟨v, m'', heval⟩
    · rw [completed_of_error hlt heval] at hc
      exact ih c hc
  · intro e m c hc
    rw [completedAll] at hc
    cases hc
  · intro e n ns m halt m' he hn c hc
    rw [completedAll_cons_of_error he] at hc
    exact hn c hc
  · intro e n ns m v m' halt m'' he hn hns c hc
    rw [completedAll_cons_of_ok he] at hc
    exact (List.mem_append.1 hc).elim (hn c) (hns c)
  · intro e n ns m v m' vs m'' he hn hns c hc
    rw [completedAll_cons_of_ok he] at hc
    exact (List.mem_append.1 hc).elim (hn c) (hns c)

/-! ### The account -/

/-- **An evaluation reports what its completed calls report**, in the order in
which they end. -/
theorem eval_reports (limit : Int) :
    (∀ e n (m : Machine), m.Reports ((completed limit e n m).flatMap (Call.reports limit))
        (after (eval limit e n m))) ∧
      ∀ e ns (m : Machine), m.Reports ((completedAll limit e ns m).flatMap (Call.reports limit))
        (after (evalAll limit e ns m)) := by
  refine eval_induction limit
    (fun e n m r => m.Reports ((completed limit e n m).flatMap (Call.reports limit)) (after r))
    (fun e ns m r => m.Reports ((completedAll limit e ns m).flatMap (Call.reports limit))
      (after r)) ?_ ?_ ?_ ?_ ?_ ?_ ?_
  · intro e n m hdeep
    rw [completed_of_tooDeep hdeep]
    exact .refl m
  · intro e n m halt m' hlt hops hreports
    rw [completed_of_error hlt (eval_of_halted hlt hops)]
    exact ((Machine.Reports.inside m e n).trans hreports).leave
  · -- the reports of the operands, and then that of the node
    intro e n m values m' hlt hops hreports
    have hbefore := (Machine.Reports.inside m e n).trans hreports
    have hcall : (⟨e, n, m⟩ : Call).operandOutcome limit = .ok values m' := hops
    have heval : (⟨e, n, m⟩ : Call).outcome limit = _ := eval_of_operands hlt hops
    rw [← heval]
    rcases Call.outcome_cases hlt hcall with
      ⟨w, m'', hw, hown, -⟩ | ⟨fault, m'', hw, hown⟩ | ⟨halt, m'', hstop, hown⟩
    · have hreport := Call.reports_eq hcall (by rw [hw]; exact hown)
      rw [completed_of_ok hw, List.flatMap_append, List.flatMap_singleton, hreport, hw]
      exact hbefore.trans hown
    · have hreport := Call.reports_eq hcall (by rw [hw]; exact hown)
      rw [completed_of_ok hw, List.flatMap_append, List.flatMap_singleton, hreport, hw]
      exact hbefore.trans hown
    · rw [completed_of_error hlt hstop, hstop, ← List.append_nil (List.flatMap _ _)]
      exact hbefore.trans hown
  · intro e m
    rw [completedAll]
    exact .refl m
  · intro e n ns m halt m' he hn
    rw [completedAll_cons_of_error he]
    exact hn
  · intro e n ns m v m' halt m'' he hn hns
    rw [completedAll_cons_of_ok he, List.flatMap_append]
    exact hn.trans hns
  · intro e n ns m v m' vs m'' he hn hns
    rw [completedAll_cons_of_ok he, List.flatMap_append]
    exact hn.trans hns

/-! ### Evaluations and runs -/

/-- The causes that end an evaluation: that of a node, or the limit. -/
def Halt.IsOfEvaluation (limit : Int) (halt : Halt) : Prop :=
  halt.IsOfNode ∨ ∃ kind, halt = .tooDeep limit kind

/-- What stops a traversal is a cause of a node or the limit. -/
theorem Traversed.isOfEvaluation {α : Type} {limit : Int} {m m' : Machine}
    {ahead : List (Node × Nat)} {halt : Halt}
    (hr : Traversed limit m ahead (.error halt m' : Outcome α)) : halt.IsOfEvaluation limit := by
  obtain ⟨done, rest, -, -, hstops⟩ := hr
  refine hstops.imp_right ?_
  rintro ⟨k, depth, rest', -, hhalt, -⟩
  exact ⟨k.kind, hhalt⟩

theorem evalProgram_reports (limit : Int) (root : ScopeId) (tree : Node) (m : Machine) :
    ∃ added, m.Reports added (after (evalProgram limit root tree m)) := by
  by_cases hblock : tree.form? = some .block
  · rw [after_evalProgram hblock]
    exact ⟨_, (eval_reports limit).2 root tree.operands m⟩
  · rw [evalProgram_of_ne_block hblock]
    exact ⟨_, (eval_reports limit).1 root tree m⟩

theorem evalProgram_halt {limit : Int} {root : ScopeId} {tree : Node} {m m' : Machine}
    {halt : Halt} (h : evalProgram limit root tree m = .error halt m') :
    halt.IsOfEvaluation limit := by
  by_cases hblock : tree.form? = some .block
  · have htraversed := (eval_traversed limit).2 root tree.operands m
    rcases hops : evalAll limit root tree.operands m with ⟨vs, m₁⟩ | ⟨cause, m₁⟩
    · rw [evalProgram_of_ok hblock hops] at h
      cases h
    · rw [evalProgram_of_error hblock hops] at h
      cases h
      rw [hops] at htraversed
      exact htraversed.isOfEvaluation
  · have htraversed := (eval_traversed limit).1 root tree m
    rw [evalProgram_of_ne_block hblock] at h
    rw [h] at htraversed
    exact htraversed.isOfEvaluation

/-- The log of a run warns of its diagnostics, in order, whatever the outcome. -/
theorem warnings_run (limit : Int) (root : ScopeId) (tree : Node) (h : Heap) :
    (after (run limit root tree h)).warnings
      = (after (run limit root tree h)).diagnostics.toList.map Diagnostic.text := by
  unfold run
  split
  · rfl
  · obtain ⟨added, hadded⟩ := evalProgram_reports limit root tree { heap := h }
    split <;> rename_i hr <;> rw [hr] at hadded
    · have hfinished := hadded.trans (.finish _)
      exact hfinished.warnings.trans (congrArg (List.map _) hfinished.diagnostics.symm)
    · exact hadded.warnings.trans (congrArg (List.map _) hadded.diagnostics.symm)

/-- A run is refused for a syntax error, or stopped like its program. -/
theorem run_halt {limit : Int} {root : ScopeId} {tree : Node} {h : Heap} {halt : Halt}
    {m : Machine} (hr : run limit root tree h = .error halt m) :
    halt = .syntaxError tree.sexp ∨ halt.IsOfEvaluation limit := by
  unfold run at hr
  split at hr
  · cases hr
    exact .inl rfl
  · -- a program that ends normally does not stop the run
    split at hr
    · cases hr
    next cause m' hprogram =>
      cases hr
      exact .inr (evalProgram_halt hprogram)

/-- A run under the settings is a run under some limit, or the settings are
refused and nothing is run. -/
theorem runConfigured_cases (settings : Settings) (root : ScopeId) (tree : Node) (h : Heap) :
    (∃ limit, runConfigured settings root tree h = run limit root tree h) ∨
      ∃ err, runConfigured settings root tree h = .error (.badSetting err) { heap := h } := by
  rcases hlimit : settings.maxDepth with err | limit
  · rcases herror : tree.hasError
    · exact .inr ⟨err, runConfigured_of_error herror hlimit⟩
    · refine .inl ⟨0, ?_⟩
      rw [runConfigured, run, if_pos herror, if_pos herror]
  · exact .inl ⟨limit, runConfigured_of_ok hlimit⟩

/-- **Every soft fault is accounted for.**  None escapes: what ends an
evaluation or a run is a hard cause.  Diagnostics are only added, and the log
warns of those that are, whatever the outcome.  And if an evaluation ends
normally, then its diagnostics are those of its calls in the order in which
they end, which is the tree in post-order; each call reports at most once, for
a node that is void, and an ill-formed node always does.  A run under the
settings is one of these runs, unless the settings are refused. -/
theorem soft_faults_accounted :
    (∀ (limit : Int) (e : ScopeId) (tree : Node) (m : Machine),
      m.Reports ((completed limit e tree m).flatMap (Call.reports limit))
        (after (eval limit e tree m)) ∧
      match eval limit e tree m with
      | .ok _ _ =>
        (completed limit e tree m).map Call.node = tree.postorder ∧
        (completed limit e tree m).Perm (calls limit e tree m) ∧
        ∀ c ∈ completed limit e tree m, c.Accounted limit
      | .error halt _ => halt.IsOfEvaluation limit) ∧
    (∀ (limit : Int) (root : ScopeId) (tree : Node) (h : Heap),
      (after (run limit root tree h)).warnings
        = (after (run limit root tree h)).diagnostics.toList.map Diagnostic.text ∧
      match run limit root tree h with
      | .ok _ _ => True
      | .error halt _ => halt = .syntaxError tree.sexp ∨ halt.IsOfEvaluation limit) ∧
    ∀ (settings : Settings) (root : ScopeId) (tree : Node) (h : Heap),
      (∃ limit, runConfigured settings root tree h = run limit root tree h) ∨
      ∃ err, runConfigured settings root tree h = .error (.badSetting err) { heap := h } := by
  refine ⟨?_, ?_, ?_⟩
  · intro limit e tree m
    refine ⟨(eval_reports limit).1 e tree m, ?_⟩
    have hfollows := (completed_follows limit).1 e tree m
    have htraversed := (eval_traversed limit).1 e tree m
    rcases hr : eval limit e tree m with ⟨v, m'⟩ | ⟨halt, m'⟩ <;> rw [hr] at hfollows htraversed
    · refine ⟨hfollows.1, hfollows.2, fun c hc => ?_⟩
      obtain ⟨w, m'', hc⟩ := (outcome_of_completed limit).1 e tree m c hc
      exact Call.accounted hc
    · exact htraversed.isOfEvaluation
  · intro limit root tree h
    refine ⟨warnings_run limit root tree h, ?_⟩
    rcases hr : run limit root tree h with ⟨v, m⟩ | ⟨halt, m⟩
    · trivial
    · exact run_halt hr
  · intro settings root tree h
    exact runConfigured_cases settings root tree h

/-- In `?1x` the literal is no number and the operator is unknown: both nodes
report, the literal first. -/
theorem soft_faults_accounted_nested :
    let leaf : Node := .literal "1x"
    let tree : Node := .unary "?" leaf
    let m : Machine := { heap := .initial }
    ∃ m', eval 5 0 tree m = .ok .void m' ∧
      (completed 5 0 tree m).map Call.node = [leaf, tree] ∧
      (∀ c ∈ completed 5 0 tree m, (c.reports 5).length = 1) ∧ m'.diagnostics.size = 2 := by
  intro leaf tree m
  have hill : ∀ n ∈ [leaf, tree], n.IllFormed := by
    intro n hn
    rcases List.mem_cons.1 hn with rfl | hn
    · exact .literal rfl (by decide)
    · rw [List.mem_singleton.1 hn]
      exact .unary rfl rfl fun f => by cases f <;> decide
  -- both nodes recover from their faults
  obtain ⟨fault, hfault⟩ := (hill leaf List.mem_cons_self).conclude 0 [] ((m.enter tree).enter leaf)
  have hleaf := eval_leaf (e := 0) (n := leaf) (m := m.enter tree) (by decide) rfl
    (show ((1 : Nat) : Int) < 5 by decide)
  rw [Step.recover_of_soft hfault] at hleaf
  obtain ⟨fault', hfault'⟩ := (hill tree (by simp)).conclude 0 [.void] _
  have htree := eval_of_operand (by decide) rfl hleaf
  rw [Step.recover_of_soft hfault'] at htree
  have haccount := (soft_faults_accounted.1 5 0 tree m).2
  rw [htree] at haccount
  obtain ⟨hnodes, -, haccounted⟩ := haccount
  have hpostorder : tree.postorder = [leaf, tree] := by
    simp [tree, leaf, Node.postorder_eq, Node.postorders, Node.operands, Node.form?,
      Form.ofKind?, Form.all, Form.kind, Node.unary, Node.literal]
  rw [hpostorder] at hnodes
  have hone : ∀ c ∈ completed 5 0 tree m, (c.reports 5).length = 1 := by
    intro c hc
    obtain ⟨v, m', -, -, hreport⟩ := haccounted c hc
    exact hreport (hill c.node (hnodes ▸ List.mem_map_of_mem hc))
  exact ⟨_, htree, hnodes, hone, rfl⟩

end BlockScript
