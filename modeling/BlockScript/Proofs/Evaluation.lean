/-
BlockScript/Proofs/Evaluation.lean

The rules of evaluation, and the induction that they give.

The evaluation of a node ends in one of three ways.  The node is nested too
deep and nothing happens; an operand stops, and the node with it; or all
operands have values, and the node concludes:

    eval limit e n m  =  left (recover n (conclude inner n values) m')

where `inner` is the scope of the operands and `m'` the machine behind them.
Operands are evaluated from left to right, each from the machine that the one
before has left.

`eval_induction` says that a property which these rules preserve holds of
every evaluation.  Statements about all evaluations are proved through it, so
that the recursion of `eval` is opened here and nowhere else.
-/
import BlockScript.Evaluation.Run

namespace BlockScript

/-! ### What a computation leaves behind -/

/-- The state that a computation leaves behind, whether it succeeds or fails. -/
def after {ε σ α : Type} : EStateM.Result ε σ α → σ
  | .ok _ s => s
  | .error _ s => s

@[simp] theorem after_ok {ε σ α : Type} (a : α) (s : σ) :
    after (.ok a s : EStateM.Result ε σ α) = s := rfl

@[simp] theorem after_error {ε σ α : Type} (err : ε) (s : σ) :
    after (.error err s : EStateM.Result ε σ α) = s := rfl

section Bind

variable {ε σ α β : Type} {x : EStateM ε σ α} {f : α → EStateM ε σ β} {s s' : σ}

/-- Behind a success, a computation goes on from the value and the state. -/
theorem bind_of_ok {a : α} (h : x s = .ok a s') : (x >>= f) s = f a s' := by
  show EStateM.bind x f s = f a s'
  simp only [EStateM.bind, h]

theorem bind_of_error {err : ε} (h : x s = .error err s') : (x >>= f) s = .error err s' := by
  show EStateM.bind x f s = .error err s'
  simp only [EStateM.bind, h]

theorem discard_of_ok {a : α} (h : x s = .ok a s') : discard x s = .ok () s' := by
  show EStateM.map _ x s = .ok () s'
  simp only [EStateM.map, h]

theorem discard_of_error {err : ε} (h : x s = .error err s') : discard x s = .error err s' := by
  show EStateM.map _ x s = .error err s'
  simp only [EStateM.map, h]

theorem get_bind {f : σ → EStateM ε σ β} : (get >>= f) s = f s s := rfl

end Bind

/-! ### Forms -/

/-- No two forms have the same kind. -/
theorem Form.ofKind?_kind (form : Form) : Form.ofKind? form.kind = some form := by
  cases form <;> rfl

/-- The form of a node is a matter of its kind. -/
theorem Node.form?_eq_some_iff {n : Node} {form : Form} :
    n.form? = some form ↔ n.kind = form.kind := by
  constructor
  · intro h
    -- what is found among the forms has the kind that was searched for
    have hfound := List.find?_some (show Form.all.find? (·.kind == n.kind) = some form from h)
    exact (beq_iff_eq.1 hfound).symm
  · intro h
    rw [Node.form?, h, Form.ofKind?_kind]

/-! ### Entering and leaving a node -/

/-- The node that an event says was entered, and its depth. -/
def Event.entry? : Event → Option (Node × Nat)
  | .entered n depth => some (n, depth)
  | _ => none

namespace Machine

/-- The nodes entered so far, each with its depth, as the log has them. -/
def entries (m : Machine) : List (Node × Nat) :=
  m.trace.toList.filterMap Event.entry?

/-- The machine inside a node. -/
def enter (m : Machine) (n : Node) : Machine :=
  { m with depth := m.depth + 1 }.emit (.entered n (m.depth + 1))

/-- The machine outside again. -/
def leave (m : Machine) : Machine :=
  { m with depth := m.depth - 1 }

@[simp] theorem leave_heap (m : Machine) : m.leave.heap = m.heap := rfl

@[simp] theorem leave_entries (m : Machine) : m.leave.entries = m.entries := rfl

/-- An event adds to the entries what it says was entered. -/
theorem entries_emit (m : Machine) (event : Event) :
    (m.emit event).entries = m.entries ++ event.entry?.toList := by
  unfold entries emit
  rw [Array.toList_push, List.filterMap_append]
  rcases hentry : event.entry? with - | entry <;> simp [hentry]

@[simp] theorem entries_enter (m : Machine) (n : Node) :
    (m.enter n).entries = m.entries ++ [(n, m.depth + 1)] :=
  entries_emit { m with depth := m.depth + 1 } (.entered n (m.depth + 1))

@[simp] theorem entries_report (m : Machine) (d : Diagnostic) :
    (m.report d).entries = m.entries := by
  show (m.emit (.recovered d)).entries = m.entries
  rw [entries_emit]
  exact List.append_nil _

/-- Events go to the trace and nowhere else. -/
theorem emitAll_eq (m : Machine) (es : List Event) :
    m.emitAll es = { m with trace := (m.trace.toList ++ es).toArray } := by
  unfold emitAll
  induction es generalizing m with
  | nil => simp
  | cons event es ih =>
    rw [List.foldl_cons, ih]
    simp [emit]

@[simp] theorem emitAll_heap (m : Machine) (es : List Event) : (m.emitAll es).heap = m.heap := by
  rw [emitAll_eq]

@[simp] theorem emitAll_diagnostics (m : Machine) (es : List Event) :
    (m.emitAll es).diagnostics = m.diagnostics := by
  rw [emitAll_eq]

@[simp] theorem finish_heap (m : Machine) : m.finish.heap = m.heap := by
  unfold finish
  split <;> rfl

@[simp] theorem finish_diagnostics (m : Machine) : m.finish.diagnostics = m.diagnostics := by
  unfold finish
  split <;> rfl

@[simp] theorem finish_entries (m : Machine) : m.finish.entries = m.entries := by
  unfold finish
  split
  · rfl
  · rw [entries_emit]
    exact List.append_nil _

/-- What is left alone by everything that happens to a node behind its
operands: the depth and the nodes entered. -/
structure SameRecord (m m' : Machine) : Prop where
  depth : m'.depth = m.depth
  entries : m'.entries = m.entries

theorem SameRecord.refl (m : Machine) : SameRecord m m := ⟨rfl, rfl⟩

/-- Events other than that of entering a node leave the record alone. -/
theorem SameRecord.emitAll (m : Machine) {es : List Event}
    (hes : ∀ event ∈ es, event.entry? = none) : SameRecord m (m.emitAll es) := by
  rw [emitAll_eq]
  refine ⟨rfl, ?_⟩
  show (m.trace.toList ++ es).filterMap Event.entry? = m.entries
  rw [List.filterMap_append, List.filterMap_eq_nil_iff.2 hes, List.append_nil]
  rfl

end Machine

/-- An outcome behind the node. -/
def left {α : Type} : Outcome α → Outcome α
  | .ok a m => .ok a m.leave
  | .error halt m => .error halt m.leave

@[simp] theorem after_left {α : Type} (r : Outcome α) : after (left r) = (after r).leave := by
  cases r <;> rfl

section Recover

variable {n : Node} {step : Step Value} {m m' : Machine}

theorem Step.recover_of_ok {v : Value} (h : step m = .ok v m') :
    Step.recover n step m = .ok v m' := by
  rw [recover, h]

/-- A soft fault becomes a report, and the value is void. -/
theorem Step.recover_of_soft {fault : Fault} (h : step m = .error (.soft fault) m') :
    Step.recover n step m = .ok .void (m'.report (.ofFault fault n)) := by
  rw [recover, h]

theorem Step.recover_of_hard {halt : Halt} (h : step m = .error (.hard halt) m') :
    Step.recover n step m = .error halt m' := by
  rw [recover, h]

end Recover

/-- The scope in which the operands of a node are evaluated, and the heap
with it. -/
def Node.scopeFrom (n : Node) (e : ScopeId) (h : Heap) : ScopeId × Heap :=
  if n.form? = some .block then h.extend e else (e, h)

/-- The machine from which the operands of a node are evaluated. -/
def Machine.inside (m : Machine) (e : ScopeId) (n : Node) : Machine :=
  { m.enter n with heap := (n.scopeFrom e m.heap).2 }

/-- Behind entering a node, the scope of its operands is opened. -/
theorem operandScope_enter (e : ScopeId) (n : Node) (m : Machine) :
    operandScope e n (m.enter n) = .ok (n.scopeFrom e m.heap).1 (m.inside e n) := by
  unfold operandScope Machine.inside Node.scopeFrom
  by_cases hblock : n.form? = some .block
  · rw [if_pos hblock, if_pos hblock]
    rfl
  · rw [if_neg hblock, if_neg hblock]
    rfl

theorem Node.scopeFrom_of_ne_block {n : Node} (hn : n.form? ≠ some .block) (e : ScopeId)
    (h : Heap) : n.scopeFrom e h = (e, h) :=
  if_neg hn

theorem Node.scopeFrom_block {n : Node} (hn : n.form? = some .block) (e : ScopeId)
    (h : Heap) : n.scopeFrom e h = h.extend e :=
  if_pos hn

theorem Machine.inside_of_ne_block {n : Node} (hn : n.form? ≠ some .block) (m : Machine)
    (e : ScopeId) : m.inside e n = m.enter n := by
  rw [inside, Node.scopeFrom_of_ne_block hn]
  rfl

/-! ### The rules -/

section Rules

variable {limit : Int} {e : ScopeId} {n : Node} {ns : List Node} {m m' m'' : Machine}

/-- At the limit, a node is refused before anything happens. -/
theorem eval_of_tooDeep (h : limit ≤ m.depth) :
    eval limit e n m = .error (.tooDeep limit n.kind) m := by
  rw [eval]
  exact if_pos h

/-- Below the limit, a node is entered and left again, whatever its content does. -/
theorem nested_of_lt {α : Type} {content : Eval α} (h : m.depth < limit) :
    Eval.nested limit n content m = left (content (m.enter n)) := by
  rw [Eval.nested, if_neg (Int.not_le.2 h)]
  unfold Machine.enter
  dsimp only
  split <;> rename_i hc <;> rw [hc] <;> rfl

/-- The content of a node that is not nested too deep. -/
theorem eval_of_lt (h : m.depth < limit) :
    eval limit e n m = left ((do
      let values ← evalAll limit (n.scopeFrom e m.heap).1 n.operands
      Step.recover n (conclude (n.scopeFrom e m.heap).1 n values) : Eval Value)
        (m.inside e n)) := by
  rw [eval, nested_of_lt h, bind_of_ok (operandScope_enter e n m)]

/-- An operand that stops takes the node with it; the node is left all the same. -/
theorem eval_of_halted {halt : Halt} (h : m.depth < limit)
    (hops : evalAll limit (n.scopeFrom e m.heap).1 n.operands (m.inside e n) = .error halt m') :
    eval limit e n m = .error halt m'.leave := by
  rw [eval_of_lt h, bind_of_error hops]
  rfl

/-- Once the operands have values, the node concludes from them. -/
theorem eval_of_operands {values : List Value} (h : m.depth < limit)
    (hops : evalAll limit (n.scopeFrom e m.heap).1 n.operands (m.inside e n) = .ok values m') :
    eval limit e n m
      = left (Step.recover n (conclude (n.scopeFrom e m.heap).1 n values) m') := by
  rw [eval_of_lt h, bind_of_ok hops]

theorem evalAll_nil : evalAll limit e [] m = .ok [] m := by
  rw [evalAll]
  rfl

theorem evalAll_cons_of_error {halt : Halt} (h : eval limit e n m = .error halt m') :
    evalAll limit e (n :: ns) m = .error halt m' := by
  rw [evalAll, bind_of_error h]

theorem evalAll_cons_of_ok_error {v : Value} {halt : Halt} (h : eval limit e n m = .ok v m')
    (hs : evalAll limit e ns m' = .error halt m'') :
    evalAll limit e (n :: ns) m = .error halt m'' := by
  rw [evalAll, bind_of_ok h, bind_of_error hs]

theorem evalAll_cons_of_ok_ok {v : Value} {vs : List Value} (h : eval limit e n m = .ok v m')
    (hs : evalAll limit e ns m' = .ok vs m'') :
    evalAll limit e (n :: ns) m = .ok (v :: vs) m'' := by
  rw [evalAll, bind_of_ok h, bind_of_ok hs]
  rfl

theorem eval_leaf (hn : n.form? ≠ some .block) (hops : n.operands = []) (h : m.depth < limit) :
    eval limit e n m = left (Step.recover n (conclude e n []) (m.enter n)) := by
  have hall : evalAll limit (n.scopeFrom e m.heap).1 n.operands (m.inside e n)
      = .ok [] (m.enter n) := by
    rw [Machine.inside_of_ne_block hn, hops]
    exact evalAll_nil
  rw [eval_of_operands h hall, Node.scopeFrom_of_ne_block hn]

/-- A node that returns has been entered. -/
theorem lt_of_eval_ok {v : Value} (h : eval limit e n m = .ok v m') : m.depth < limit := by
  rcases Int.lt_or_le m.depth limit with hlt | hdeep
  · exact hlt
  · rw [eval_of_tooDeep hdeep] at h
    cases h

/-- An expression with a single operand evaluates it in its own scope. -/
theorem eval_of_operand {k : Node} {v : Value} (hn : n.form? ≠ some .block)
    (hops : n.operands = [k]) (hk : eval limit e k (m.enter n) = .ok v m') :
    eval limit e n m = left (Step.recover n (conclude e n [v]) m') := by
  -- the operand has returned, so there was room for it one level deeper
  have hlt : m.depth < limit := by
    have hinner : ((m.depth + 1 : Nat) : Int) < limit := lt_of_eval_ok hk
    omega
  have hall : evalAll limit (n.scopeFrom e m.heap).1 n.operands (m.inside e n)
      = .ok [v] m' := by
    rw [Node.scopeFrom_of_ne_block hn, Machine.inside_of_ne_block hn, hops]
    exact evalAll_cons_of_ok_ok hk evalAll_nil
  rw [eval_of_operands hlt hall, Node.scopeFrom_of_ne_block hn]

/-- Any other root is evaluated like a node. -/
theorem evalProgram_of_ne_block (hn : n.form? ≠ some .block) :
    evalProgram limit e n m = eval limit e n m := by
  rw [evalProgram, if_neg hn]

/-- The statements of a root block are evaluated in the root scope itself. -/
theorem evalProgram_of_ok {vs : List Value} (hn : n.form? = some .block)
    (hops : evalAll limit e n.operands m = .ok vs m') :
    evalProgram limit e n m = .ok (.block e) m' := by
  rw [evalProgram, if_pos hn]
  exact bind_of_ok (discard_of_ok hops)

theorem evalProgram_of_error {halt : Halt} (hn : n.form? = some .block)
    (hops : evalAll limit e n.operands m = .error halt m') :
    evalProgram limit e n m = .error halt m' := by
  rw [evalProgram, if_pos hn]
  exact bind_of_error (discard_of_error hops)

/-- A root block leaves behind what its statements do. -/
theorem after_evalProgram (hn : n.form? = some .block) :
    after (evalProgram limit e n m) = after (evalAll limit e n.operands m) := by
  rcases hops : evalAll limit e n.operands m with ⟨vs, m'⟩ | ⟨halt, m'⟩
  · rw [evalProgram_of_ok hn hops]
    rfl
  · rw [evalProgram_of_error hn hops]
    rfl

end Rules

/-- The outcome of a run from that of the statements of its root block. -/
def ofStatements (root : ScopeId) : Outcome (List Value) → Outcome Value
  | .ok _ m => .ok (.block root) m.finish
  | .error halt m => .error halt m

/-- A run of a root block is the evaluation of its statements in the root scope. -/
theorem run_block {tree : Node} (hblock : tree.form? = some .block)
    (herror : tree.hasError = false) (limit : Int) (root : ScopeId) (h : Heap) :
    run limit root tree h
      = ofStatements root (evalAll limit root tree.operands { heap := h }) := by
  rw [run, if_neg (by simp [herror])]
  rcases hops : evalAll limit root tree.operands { heap := h } with ⟨vs, m⟩ | ⟨halt, m⟩
  · rw [evalProgram_of_ok hblock hops]
    rfl
  · rw [evalProgram_of_error hblock hops]
    rfl

section Configured

variable {settings : Settings} {root : ScopeId} {tree : Node} {h : Heap}

/-- With a good limit, a configured run is a run; a tree with errors is refused either way.
-/
theorem runConfigured_of_ok {limit : Int} (hlimit : settings.maxDepth = .ok limit) :
    runConfigured settings root tree h = run limit root tree h := by
  unfold runConfigured
  rw [hlimit]
  split
  next herror => rw [run, if_pos herror]
  next => rfl

/-- A malformed limit stops a run before it starts. -/
theorem runConfigured_of_error {err : SettingError} (herror : tree.hasError = false)
    (hlimit : settings.maxDepth = .error err) :
    runConfigured settings root tree h = .error (.badSetting err) { heap := h } := by
  rw [runConfigured, if_neg (by simp [herror]), hlimit]

end Configured

/-! ### Induction -/

/-- Induction along the evaluated children. -/
theorem Node.operands_induction {motive : Node → Prop}
    (step : ∀ n : Node, (∀ k ∈ n.operands, motive k) → motive n) (n : Node) : motive n :=
  step n fun k _ => Node.operands_induction step k
termination_by sizeOf n
decreasing_by
  rename_i hk
  exact Nat.lt_trans (List.sizeOf_lt_of_mem hk) n.sizeOf_operands_lt

/-- What the rules of evaluation preserve holds of every evaluation, of a
node and of a list of nodes. -/
theorem eval_induction (limit : Int)
    (motive : ScopeId → Node → Machine → Outcome Value → Prop)
    (motives : ScopeId → List Node → Machine → Outcome (List Value) → Prop)
    (tooDeep : ∀ e n m, limit ≤ m.depth → motive e n m (.error (.tooDeep limit n.kind) m))
    (halted : ∀ e n m halt m', m.depth < limit →
      evalAll limit (n.scopeFrom e m.heap).1 n.operands (m.inside e n) = .error halt m' →
      motives (n.scopeFrom e m.heap).1 n.operands (m.inside e n) (.error halt m') →
      motive e n m (.error halt m'.leave))
    (concluded : ∀ e n m values m', m.depth < limit →
      evalAll limit (n.scopeFrom e m.heap).1 n.operands (m.inside e n) = .ok values m' →
      motives (n.scopeFrom e m.heap).1 n.operands (m.inside e n) (.ok values m') →
      motive e n m (left (Step.recover n (conclude (n.scopeFrom e m.heap).1 n values) m')))
    (nil : ∀ e m, motives e [] m (.ok [] m))
    (stopped : ∀ e n ns m halt m', eval limit e n m = .error halt m' →
      motive e n m (.error halt m') → motives e (n :: ns) m (.error halt m'))
    (stoppedLater : ∀ e n ns m v m' halt m'', eval limit e n m = .ok v m' →
      motive e n m (.ok v m') → motives e ns m' (.error halt m'') →
      motives e (n :: ns) m (.error halt m''))
    (cons : ∀ e n ns m v m' vs m'', eval limit e n m = .ok v m' →
      motive e n m (.ok v m') → motives e ns m' (.ok vs m'') →
      motives e (n :: ns) m (.ok (v :: vs) m'')) :
    (∀ e n m, motive e n m (eval limit e n m)) ∧
      ∀ e ns m, motives e ns m (evalAll limit e ns m) := by
  -- a list follows from its members, a node from the list of its operands
  have list : ∀ ns : List Node, (∀ n ∈ ns, ∀ e m, motive e n m (eval limit e n m)) →
      ∀ e m, motives e ns m (evalAll limit e ns m) := by
    intro ns hns
    induction ns with
    | nil =>
      intro e m
      rw [evalAll_nil]
      exact nil e m
    | cons n ns ih =>
      intro e m
      have hn := hns n List.mem_cons_self e m
      have hrest := ih fun k hk => hns k (List.mem_cons_of_mem n hk)
      -- the first node has a value or not, and if so, those behind it have or not
      rcases he : eval limit e n m with ⟨v, m'⟩ | ⟨halt, m'⟩
      · rw [he] at hn
        have hrest := hrest e m'
        rcases hs : evalAll limit e ns m' with ⟨vs, m''⟩ | ⟨halt, m''⟩
        · rw [hs] at hrest
          rw [evalAll_cons_of_ok_ok he hs]
          exact cons e n ns m v m' vs m'' he hn hrest
        · rw [hs] at hrest
          rw [evalAll_cons_of_ok_error he hs]
          exact stoppedLater e n ns m v m' halt m'' he hn hrest
      · rw [he] at hn
        rw [evalAll_cons_of_error he]
        exact stopped e n ns m halt m' he hn
  have node : ∀ n : Node, ∀ e m, motive e n m (eval limit e n m) := by
    intro n
    induction n using Node.operands_induction with
    | step n ih =>
      intro e m
      -- refused, stopped by an operand, or concluded
      by_cases hdeep : limit ≤ m.depth
      · rw [eval_of_tooDeep hdeep]
        exact tooDeep e n m hdeep
      · have hlt : m.depth < limit := Int.not_le.1 hdeep
        have hops := list n.operands ih (n.scopeFrom e m.heap).1 (m.inside e n)
        rcases he : evalAll limit (n.scopeFrom e m.heap).1 n.operands (m.inside e n)
          with ⟨values, m'⟩ | ⟨halt, m'⟩
        · rw [he] at hops
          rw [eval_of_operands hlt he]
          exact concluded e n m values m' hlt he hops
        · rw [he] at hops
          rw [eval_of_halted hlt he]
          exact halted e n m halt m' hlt he hops
  exact ⟨fun e n m => node n e m, fun e ns m => list ns (fun n _ => node n) e m⟩

end BlockScript
