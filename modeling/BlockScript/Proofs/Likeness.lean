/-
BlockScript/Proofs/Likeness.lean

Evaluations of two trees that look the same.

Two machines look the same if they have the same heap and depth and if their
diagnostics do, of which only a part is looked at; the log is not looked at.  Two
computations look the same if, from machines that do, they come to results that
do.

Everything that an evaluation is made of preserves this.  So two nodes of one kind
have evaluations that look the same if their operands do, one by one, and if they
conclude from the values of these what looks the same.
-/
import BlockScript.Proofs.History
import Mathlib.Data.List.Forall2

namespace BlockScript

variable {β : Type}

/-! ### Machines, results and computations -/

/-- The machines differ at most in the log and in what is not looked at of their
diagnostics. -/
structure Machine.Like (look : Diagnostic → β) (m m' : Machine) : Prop where
  heap : m'.heap = m.heap
  depth : m'.depth = m.depth
  diagnostics : m'.diagnostics.map look = m.diagnostics.map look

/-- The results are the same but for the machines, which look the same, and for
errors, which are related. -/
inductive ResultLike (look : Diagnostic → β) {ε α : Type} (Same : ε → ε → Prop) :
    EStateM.Result ε Machine α → EStateM.Result ε Machine α → Prop
  | ok {a : α} {m m' : Machine} : m.Like look m' → ResultLike look Same (.ok a m) (.ok a m')
  | error {err err' : ε} {m m' : Machine} : Same err err' → m.Like look m' →
      ResultLike look Same (.error err m) (.error err' m')

/-- From machines that look the same, the results do. -/
def Likens (look : Diagnostic → β) {ε α : Type} (Same : ε → ε → Prop)
    (x x' : EStateM ε Machine α) : Prop :=
  ∀ m m', m.Like look m' → ResultLike look Same (x m) (x' m')

variable {look : Diagnostic → β}

namespace Machine.Like

variable {m m' : Machine}

theorem refl (m : Machine) : m.Like look m :=
  ⟨rfl, rfl, rfl⟩

theorem enter (h : m.Like look m') (n n' : Node) : (m.enter n).Like look (m'.enter n') :=
  ⟨h.heap, congrArg (· + 1) h.depth, h.diagnostics⟩

theorem leave (h : m.Like look m') : m.leave.Like look m'.leave :=
  ⟨h.heap, congrArg (· - 1) h.depth, h.diagnostics⟩

theorem report (h : m.Like look m') {d d' : Diagnostic} (hd : look d' = look d) :
    (m.report d).Like look (m'.report d') := by
  refine ⟨h.heap, h.depth, ?_⟩
  show (m'.diagnostics.push d').map look = (m.diagnostics.push d).map look
  rw [Array.map_push, Array.map_push, h.diagnostics, hd]

/-- Pasts that look the same do so with one machine behind them. -/
theorem withPast (h : m.Like look m') (m₁ : Machine) :
    (m₁.withPast m).Like look (m₁.withPast m') := by
  refine ⟨rfl, rfl, ?_⟩
  show (m'.diagnostics ++ m₁.diagnostics).map look = (m.diagnostics ++ m₁.diagnostics).map look
  rw [Array.map_append, Array.map_append, h.diagnostics]

/-- The log is not looked at. -/
theorem emitAll (h : m.Like look m') (events events' : List Event) :
    (m.emitAll events).Like look (m'.emitAll events') := by
  rw [Machine.emitAll_eq, Machine.emitAll_eq]
  exact ⟨h.heap, h.depth, h.diagnostics⟩

theorem finish (h : m.Like look m') : m.finish.Like look m'.finish := by
  unfold Machine.finish
  split <;> split <;> exact ⟨h.heap, h.depth, h.diagnostics⟩

end Machine.Like

theorem ResultLike.imp {ε α : Type} {Same Same' : ε → ε → Prop}
    {r r' : EStateM.Result ε Machine α} (h : ResultLike look Same r r')
    (himp : ∀ err err', Same err err' → Same' err err') : ResultLike look Same' r r' := by
  cases h with
  | ok hm => exact .ok hm
  | error herr hm => exact .error (himp _ _ herr) hm

theorem ResultLike.left {α : Type} {r r' : Outcome α} (h : ResultLike look Eq r r') :
    ResultLike look Eq (left r) (left r') := by
  cases h with
  | ok hm => exact .ok hm.leave
  | error herr hm => exact .error herr hm.leave

namespace Likens

variable {ε α γ : Type} {Same : ε → ε → Prop}

theorem pure (a : α) : Likens look Same (pure a : EStateM ε Machine α) (pure a) :=
  fun _ _ hm => .ok hm

theorem bind {x x' : EStateM ε Machine α} {f f' : α → EStateM ε Machine γ}
    (hx : Likens look Same x x') (hf : ∀ a, Likens look Same (f a) (f' a)) :
    Likens look Same (x >>= f) (x' >>= f') := by
  intro m m' hm
  have hr := hx m m' hm
  generalize h : x m = r at hr
  generalize h' : x' m' = r' at hr
  cases hr with
  | ok hm₁ =>
    rw [bind_of_ok h, bind_of_ok h']
    exact hf _ _ _ hm₁
  | error herr hm₁ =>
    rw [bind_of_error h, bind_of_error h']
    exact .error herr hm₁

theorem imp {Same' : ε → ε → Prop} {x x' : EStateM ε Machine α} (hx : Likens look Same x x')
    (himp : ∀ err err', Same err err' → Same' err err') : Likens look Same' x x' :=
  fun m m' hm => (hx m m' hm).imp himp

/-- What does not look at the past looks the same with another one. -/
theorem of_ignoresPast {x : EStateM ε Machine α} (hrefl : ∀ err, Same err err)
    (hx : IgnoresPast x) : Likens look Same x x := by
  intro m m' hm
  -- both machines are one without a past, with their own past before it
  let bare : Machine := { heap := m.heap, depth := m.depth }
  have hm₁ : bare.withPast m = m := by simp [bare, Machine.withPast]
  have hm₂ : bare.withPast m' = m' := by
    simp [bare, Machine.withPast, ← hm.heap, ← hm.depth]
  rw [← hm₁, ← hm₂, hx, hx]
  rcases x bare with ⟨a, m₁⟩ | ⟨err, m₁⟩
  · exact .ok (hm.withPast m₁)
  · exact .error (hrefl err) (hm.withPast m₁)

end Likens

/-! ### Nodes -/

/-- In every scope and under every limit, the evaluations look the same. -/
def EvalLike (look : Diagnostic → β) (n n' : Node) : Prop :=
  ∀ limit e, Likens look Eq (eval limit e n) (eval limit e n')

/-- Failures at two nodes that are reported alike. -/
inductive FailureLike (look : Diagnostic → β) (n n' : Node) : Failure → Failure → Prop
  | soft {fault fault' : Fault} : look (.ofFault fault' n') = look (.ofFault fault n) →
      FailureLike look n n' (.soft fault) (.soft fault')
  | hard (halt : Halt) : FailureLike look n n' (.hard halt) (.hard halt)

/-- Nodes that report every fault alike report one failure alike. -/
theorem FailureLike.refl {n n' : Node}
    (hreport : ∀ fault, look (.ofFault fault n') = look (.ofFault fault n)) (failure : Failure) :
    FailureLike look n n' failure failure := by
  cases failure with
  | soft fault => exact .soft (hreport fault)
  | hard halt => exact .hard halt

section Rules

variable {limit : Int} {e : ScopeId} {n n' : Node}

theorem Node.form?_congr (hkind : n'.kind = n.kind) : n'.form? = n.form? := by
  rw [Node.form?, hkind, Node.form?]

/-- Both nodes are refused, or both are entered. -/
theorem Likens.nested {α : Type} {x x' : Eval α} (hx : Likens look Eq x x')
    (hkind : n'.kind = n.kind) :
    Likens look Eq (Eval.nested limit n x) (Eval.nested limit n' x') := by
  intro m m' hm
  by_cases hdeep : limit ≤ m.depth
  · have hdeep' : limit ≤ m'.depth := by rwa [hm.depth]
    rw [Eval.nested, Eval.nested, if_pos hdeep, if_pos hdeep', hkind]
    exact .error rfl hm
  · have hlt : m.depth < limit := Int.not_le.1 hdeep
    have hlt' : m'.depth < limit := by rwa [hm.depth]
    rw [nested_of_lt hlt, nested_of_lt hlt']
    exact (hx _ _ (hm.enter n n')).left

/-- A scope is opened for both nodes or for neither. -/
theorem likens_operandScope (hkind : n'.kind = n.kind) :
    Likens look Eq (operandScope e n) (operandScope e n') := by
  intro m m' hm
  rw [operandScope, operandScope, Node.form?_congr hkind, hm.heap]
  split
  · exact .ok ⟨rfl, hm.depth, hm.diagnostics⟩
  · exact .ok hm

/-- Failures that are reported alike are recovered from alike. -/
theorem Likens.recover {step step' : Step Value}
    (hstep : Likens look (FailureLike look n n') step step') :
    Likens look Eq (Step.recover n step) (Step.recover n' step') := by
  intro m m' hm
  have hr := hstep m m' hm
  generalize h : step m = r at hr
  generalize h' : step' m' = r' at hr
  cases hr with
  | ok hm₁ =>
    rw [Step.recover_of_ok h, Step.recover_of_ok h']
    exact .ok hm₁
  | error herr hm₁ =>
    cases herr with
    | soft hlook =>
      -- a report goes to either machine, and the two look the same
      rw [Step.recover_of_soft h, Step.recover_of_soft h']
      exact .ok (hm₁.report hlook)
    | hard halt =>
      rw [Step.recover_of_hard h, Step.recover_of_hard h']
      exact .error rfl hm₁

/-- Lists of nodes that look the same, one by one, do so as a whole. -/
theorem likens_evalAll {ns ns' : List Node} (hns : List.Forall₂ (EvalLike look) ns ns')
    (limit : Int) (e : ScopeId) : Likens look Eq (evalAll limit e ns) (evalAll limit e ns') := by
  induction hns with
  | nil =>
    rw [evalAll]
    exact .pure []
  | cons hn _ ih =>
    rw [evalAll, evalAll]
    exact (hn limit e).bind fun v => ih.bind fun vs => .pure (v :: vs)

/-- **Nodes whose operands look the same, and who make the same of them, look the
same.** -/
theorem EvalLike.of_operands (hkind : n'.kind = n.kind)
    (hops : List.Forall₂ (EvalLike look) n.operands n'.operands)
    (hconclude : ∀ e values, Likens look Eq (Step.recover n (conclude e n values))
      (Step.recover n' (conclude e n' values))) : EvalLike look n n' := by
  intro limit e
  rw [eval, eval]
  exact .nested (.bind (likens_operandScope hkind) fun inner =>
    .bind (likens_evalAll hops limit inner) fun values => hconclude inner values) hkind

/-! ### Programs -/

/-- A root block is evaluated without being entered, so its operands are all that counts. -/
theorem likens_evalProgram (hkind : n'.kind = n.kind)
    (hops : List.Forall₂ (EvalLike look) n.operands n'.operands) (hn : EvalLike look n n')
    (limit : Int) (root : ScopeId) :
    Likens look Eq (evalProgram limit root n) (evalProgram limit root n') := by
  have hform := Node.form?_congr hkind
  intro m m' hm
  by_cases hblock : n.form? = some .block
  · have hblock' : n'.form? = some .block := hform.trans hblock
    have hr := likens_evalAll hops limit root m m' hm
    generalize h : evalAll limit root n.operands m = r at hr
    generalize h' : evalAll limit root n'.operands m' = r' at hr
    cases hr with
    | ok hm₁ =>
      rw [evalProgram_of_ok hblock h, evalProgram_of_ok hblock' h']
      exact .ok hm₁
    | error herr hm₁ =>
      rw [evalProgram_of_error hblock h, evalProgram_of_error hblock' h']
      exact .error herr hm₁
  · -- any other root is a node like those inside
    have hblock' : n'.form? ≠ some .block := hform.symm ▸ hblock
    rw [evalProgram_of_ne_block hblock, evalProgram_of_ne_block hblock']
    exact hn limit root m m' hm

/-- Programs that are refused alike, and evaluated alike if not, run alike. -/
theorem resultLike_run (herror : n'.hasError = n.hasError) (hsexp : n'.sexp = n.sexp)
    (hprogram : Likens look Eq (evalProgram limit e n) (evalProgram limit e n')) (h : Heap) :
    ResultLike look Eq (run limit e n h) (run limit e n' h) := by
  unfold run
  rw [herror, hsexp]
  split
  · exact .error rfl (.refl _)
  · have hr := hprogram { heap := h } { heap := h } (.refl _)
    generalize evalProgram limit e n { heap := h } = r at hr
    generalize evalProgram limit e n' { heap := h } = r' at hr
    cases hr with
    | ok hm => exact .ok hm.finish
    | error herr hm => exact .error herr hm

end Rules

end BlockScript
