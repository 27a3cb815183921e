/-
BlockScript/Proofs/History.lean

What has been reported before is of no consequence, and consecutive runs
compose.

Diagnostics and events are written and never read.  An evaluation that starts
with a past therefore does what it does without one, and has the past in front
of its own reports, as it does in any other surroundings:

    eval limit e n (m.withPast past)  =  before past (eval limit e n m).

A run starts from the heap that the run before it has left, at depth zero and
without a past.  A single run of both programs reaches the second one with the
same heap, at depth zero again, and with the past of the first.  Hence the two
ways agree.
-/
import BlockScript.Proofs.Lift

namespace BlockScript

/-! ### Machines with a past -/

namespace Machine

/-- The machine with the diagnostics and the events of another before its own. -/
def withPast (m past : Machine) : Machine :=
  { m with
    diagnostics := past.diagnostics ++ m.diagnostics
    trace := past.trace ++ m.trace }

/-- At depth zero, nothing but the past distinguishes a machine from a new one. -/
theorem eq_withPast {m : Machine} (hdepth : m.depth = 0) :
    m = ({ heap := m.heap } : Machine).withPast m := by
  obtain ⟨heap, depth, diagnostics, trace⟩ := m
  obtain rfl : depth = 0 := hdepth
  unfold withPast
  rw [Array.append_empty, Array.append_empty]

end Machine

/-- A result with a past before it. -/
def before {ε α : Type} (past : Machine) : EStateM.Result ε Machine α → EStateM.Result ε Machine α
  | .ok a m => .ok a (m.withPast past)
  | .error err m => .error err (m.withPast past)

/-- The computation does not look at what has been reported. -/
def IgnoresPast {ε α : Type} (x : EStateM ε Machine α) : Prop :=
  ∀ past m, x (m.withPast past) = before past (x m)

/-! ### Evaluation ignores the past -/

/-- The same surroundings, but for a past. -/
def Lift.behind (past : Machine) : Lift :=
  ⟨.refl, 0, past⟩

theorem Lift.machine_behind (past m : Machine) :
    (Lift.behind past).machine m = m.withPast past := by
  unfold machine behind Machine.withPast
  simp [Heap.Morphism.refl]

theorem Lift.outcome_behind {α : Type} {f : α → α} (hf : ∀ a, f a = a) (past : Machine)
    (r : Outcome α) : (Lift.behind past).outcome f r = before past r := by
  rcases r with ⟨a, m⟩ | ⟨halt, m⟩
  · rw [outcome, hf, machine_behind]
    rfl
  · rw [outcome, machine_behind]
    exact congrArg (EStateM.Result.error · (m.withPast past)) halt.deepen_zero

theorem Lift.step_behind {α : Type} {f : α → α} (hf : ∀ a, f a = a) (past : Machine)
    (r : EStateM.Result Failure Machine α) : (Lift.behind past).step f r = before past r := by
  rcases r with ⟨a, m⟩ | ⟨failure, m⟩
  · rw [step, hf, machine_behind]
    rfl
  · rw [step, machine_behind]
    rfl

/-- A node concludes without looking at what has been reported. -/
theorem conclude_ignoresPast (e : ScopeId) (n : Node) (values : List Value) :
    IgnoresPast (conclude e n values) := by
  intro past m
  have hvalue : ∀ v, (Lift.behind past).value v = v := Value.rename_id
  have hr := (Lift.conclude_follows (L := .behind past) (m := m) (e := e) (n := n) values trivial
    fun _ _ => trivial).1
  rw [Lift.machine_behind, Lift.step_behind hvalue, List.map_id'' hvalue] at hr
  exact hr

/-- **Evaluation ignores the past.** -/
theorem eval_ignoresPast (limit : Int) :
    (∀ n e, IgnoresPast (eval limit e n)) ∧ ∀ ns e, IgnoresPast (evalAll limit e ns) := by
  have hlimit : ∀ past, limit + ((Lift.behind past).levels : Int) = limit :=
    fun _ => Int.add_zero limit
  have hvalue : ∀ past v, (Lift.behind past).value v = v := fun _ => Value.rename_id
  refine ⟨fun n e past m => ?_, fun ns e past m => ?_⟩
  · have heval := (((Lift.behind past).eval_carries limit).1 e n m trivial fun _ _ => trivial).1
    rw [Lift.machine_behind, Lift.outcome_behind (hvalue past), hlimit] at heval
    exact heval
  · have heval := (((Lift.behind past).eval_carries limit).2 e ns m trivial
      fun _ _ _ _ => trivial).1
    rw [Lift.machine_behind, Lift.outcome_behind (List.map_id'' (hvalue past)), hlimit] at heval
    exact heval

/-! ### One list of statements after another -/

theorem evalAll_append (limit : Int) (e : ScopeId) (ns ks : List Node) :
    evalAll limit e (ns ++ ks) = do
      let vs ← evalAll limit e ns
      let ws ← evalAll limit e ks
      return vs ++ ws := by
  induction ns with
  | nil => simp [evalAll]
  | cons n ns ih => simp [evalAll, ih]

/-! ### Programs -/

namespace Node

theorem anyError_eq_any (ns : List Node) : anyError ns = ns.any hasError := by
  induction ns with
  | nil => rfl
  | cons n ns ih => rw [anyError, ih, List.any_cons]

theorem hasError_asStatement (item : Node) : item.asStatement.hasError = item.hasError := by
  unfold asStatement
  split
  · rfl
  · simp [statement, token, hasError, anyError]

/-- A program is free of errors if its items are. -/
theorem hasError_program {items : List Node} (h : ∀ item ∈ items, item.hasError = false) :
    (program items).hasError = false := by
  have hbody : (items.map asStatement).any hasError = false := by
    rw [List.any_map, List.any_eq_false]
    intro item hitem
    simp [hasError_asStatement, h item hitem]
  simp [program, hasError, anyError_eq_any, hbody]

/-- The statements of two programs, one after the other, are those of the program of both.
-/
theorem operands_program_append (xs ys : List Node) :
    (program (xs ++ ys)).operands = (program xs).operands ++ (program ys).operands := by
  have hops : ∀ items, (program items).operands
      = (items.map asStatement).filter (·.kind == "statement") := fun _ => rfl
  rw [hops, hops, hops, List.map_append, List.filter_append]

end Node

/-! ### Consecutive runs -/

/-- The single run `whole` comes to the same as `first` and, unless that
stops, `second` from the heap that `first` has left: the same value or cause,
the same heap, and the diagnostics of both, one after the other. -/
def Composes (first : Outcome Value) (second : Heap → Outcome Value) (whole : Outcome Value) :
    Prop :=
  match first with
  | .error halt m₁ => ∃ m, whole = .error halt m ∧ m.heap = m₁.heap
  | .ok _ m₁ =>
    match second m₁.heap with
    | .error halt m₂ => ∃ m, whole = .error halt m ∧ m.heap = m₂.heap
    | .ok v m₂ => ∃ m, whole = .ok v m ∧ m.heap = m₂.heap ∧
        m.diagnostics = m₁.diagnostics ++ m₂.diagnostics

/-- The second list of statements does from where the first has ended what it
does in a run of its own, with the past of the first. -/
theorem evalAll_continued {limit : Int} {e : ScopeId} {ns : List Node} {vs : List Value}
    {h : Heap} {m : Machine} (hns : evalAll limit e ns { heap := h } = .ok vs m)
    (ks : List Node) :
    evalAll limit e ks m = before m (evalAll limit e ks { heap := m.heap }) := by
  have hdepth : m.depth = 0 := by
    have hrestored := (depth_eval limit).2 e ns { heap := h }
    rwa [hns] at hrestored
  have hpast := (eval_ignoresPast limit).2 ks e m { heap := m.heap }
  rwa [← Machine.eq_withPast hdepth] at hpast

/-- Under a given limit, two runs compose. -/
theorem run_composes (limit : Int) (root : ScopeId) {xs ys : List Node} (h : Heap)
    (herror : ∀ item ∈ xs ++ ys, item.hasError = false) :
    Composes (run limit root (.program xs) h) (run limit root (.program ys))
      (run limit root (.program (xs ++ ys)) h) := by
  have hxs := Node.hasError_program fun item hx => herror item (List.mem_append_left ys hx)
  have hys := Node.hasError_program fun item hy => herror item (List.mem_append_right xs hy)
  rw [run_block rfl hxs, run_block rfl (Node.hasError_program herror),
    Node.operands_program_append]
  rcases hfirst : evalAll limit root (Node.program xs).operands { heap := h }
    with ⟨vs, m₁⟩ | ⟨halt, m₁⟩
  · simp only [Composes, ofStatements]
    rw [Machine.finish_heap, run_block rfl hys, evalAll_append, bind_of_ok hfirst]
    -- the second program starts with the past of the first, which changes nothing
    have hcontinued := evalAll_continued hfirst (Node.program ys).operands
    rcases hsecond : evalAll limit root (Node.program ys).operands { heap := m₁.heap }
      with ⟨ws, m₂⟩ | ⟨halt, m₂⟩ <;> rw [hsecond] at hcontinued
    · rw [bind_of_ok hcontinued]
      refine ⟨_, rfl, ?_, ?_⟩
      · rw [Machine.finish_heap, Machine.finish_heap]
        rfl
      · rw [Machine.finish_diagnostics, Machine.finish_diagnostics, Machine.finish_diagnostics]
        rfl
    · rw [bind_of_error hcontinued]
      exact ⟨_, rfl, rfl⟩
  · -- the first program has stopped, and the second is not begun
    rw [evalAll_append, bind_of_error hfirst]
    exact ⟨_, rfl, rfl⟩

/-- **Consecutive runs compose.**  Running two programs one after the other
comes to the same as running them as one, under every limit that is given and
under that of the settings. -/
theorem runs_compose (root : ScopeId) (xs ys : List Node) (h : Heap)
    (herror : ∀ item ∈ xs ++ ys, item.hasError = false) :
    (∀ limit, Composes (run limit root (.program xs) h) (run limit root (.program ys))
      (run limit root (.program (xs ++ ys)) h)) ∧
    ∀ settings, Composes (runConfigured settings root (.program xs) h)
      (runConfigured settings root (.program ys))
      (runConfigured settings root (.program (xs ++ ys)) h) := by
  refine ⟨fun limit => run_composes limit root h herror, fun settings => ?_⟩
  have hxs := Node.hasError_program fun item hx => herror item (List.mem_append_left ys hx)
  rcases hlimit : settings.maxDepth with err | limit
  · -- neither way gets as far as a statement
    rw [runConfigured_of_error hxs hlimit,
      runConfigured_of_error (Node.hasError_program herror) hlimit]
    exact ⟨_, rfl, rfl⟩
  · rw [runConfigured_of_ok hlimit, runConfigured_of_ok hlimit,
      show runConfigured settings root (.program ys) = run limit root (.program ys) from
        funext fun _ => runConfigured_of_ok hlimit]
    exact run_composes limit root h herror

/-- A constant of the first program is assigned to in the second. -/
theorem runs_compose_redeclaration :
    let x := Node.identifier "x"
    let xs := [x.assign "=" (.truth true)]
    let ys := [Node.unary "?" x, x.assign ":=" (.truth false)]
    (∀ item ∈ xs ++ ys, item.hasError = false) ∧
    Composes (run 4 0 (.program xs) .initial) (run 4 0 (.program ys))
      (run 4 0 (.program (xs ++ ys)) .initial) := by
  intro x xs ys
  have herror : ∀ item ∈ xs ++ ys, item.hasError = false := by decide
  exact ⟨herror, (runs_compose 0 xs ys .initial herror).1 4⟩

end BlockScript
