/-
BlockScript/Proofs/Calls.lean

The calls of the evaluator in the course of an evaluation.

A call is a node, the scope it is given and the machine at that moment.
`calls` lists those of an evaluation in order, the refused ones included.  It
follows the rules of evaluation, and it is complete: the log shows a node as
entered exactly for the calls that pass the depth limit,

    entries (after (eval limit e n m))
      = entries m ++ (calls limit e n m).filterMap (Call.entry? limit).

What holds of the scope and the heap at the start, and is preserved by opening
blocks and by evolution, holds at every call (`calls_induction`).
-/
import BlockScript.Proofs.Evolution

namespace BlockScript

/-- A call of the evaluator. -/
structure Call where
  scope : ScopeId
  node : Node
  machine : Machine

/-- What the log says about a call: nothing if it is refused. -/
def Call.entry? (limit : Int) (c : Call) : Option (Node × Nat) :=
  if limit ≤ c.machine.depth then none else some (c.node, c.machine.depth + 1)

mutual

/-- The calls in the evaluation of a node. -/
def calls (limit : Int) (e : ScopeId) (n : Node) (m : Machine) : List Call :=
  ⟨e, n, m⟩ ::
    if limit ≤ m.depth then []
    else callsAll limit (n.scopeFrom e m.heap).1 n.operands (m.inside e n)
termination_by sizeOf n
decreasing_by exact n.sizeOf_operands_lt

/-- The calls in the evaluation of nodes from left to right, up to the first
one that stops. -/
def callsAll (limit : Int) (e : ScopeId) : List Node → Machine → List Call
  | [], _ => []
  | n :: ns, m =>
    calls limit e n m ++
      match eval limit e n m with
      | .ok _ m' => callsAll limit e ns m'
      | .error _ _ => []
termination_by ns => sizeOf ns

end

/-- The calls in the evaluation of a program. -/
def programCalls (limit : Int) (root : ScopeId) (tree : Node) (m : Machine) : List Call :=
  if tree.form? = some .block then callsAll limit root tree.operands m
  else calls limit root tree m

/-- The calls in a run. -/
def runCalls (limit : Int) (root : ScopeId) (tree : Node) (h : Heap) : List Call :=
  if tree.hasError then [] else programCalls limit root tree { heap := h }

/-! ### The log lists the calls -/

/-- Behind its operands, a node enters nothing. -/
theorem conclude_sameRecord (e : ScopeId) (n : Node) (values : List Value) (m : Machine) :
    m.SameRecord (after (conclude e n values m)) := by
  rcases conclude_cases e n values m with ⟨target, op, rhs, v, -, -, -, hassign⟩ | hreads
  · have hspec := assignTo_spec e target ⟨v, bindsConstant op.text⟩ m
    rw [hassign]
    rcases ha : assignTo e target ⟨v, bindsConstant op.text⟩ m with ⟨w, m'⟩ | ⟨f, m'⟩
    · rw [ha] at hspec
      exact hspec.1
    · rw [ha] at hspec
      exact hspec.1
  · rcases hc : conclude e n values m with ⟨v, m'⟩ | ⟨f, m'⟩
    · rw [hc] at hreads
      obtain ⟨rfl, -⟩ := hreads
      exact .refl m'
    · rw [hc] at hreads
      obtain rfl : m' = m := hreads
      exact .refl m'

/-- Neither does a conclusion that is recovered from. -/
theorem entries_conclusion (e : ScopeId) (n : Node) (values : List Value) (m : Machine) :
    (after (left (Step.recover n (conclude e n values) m))).entries = m.entries := by
  have hsame := (conclude_sameRecord e n values m).entries
  rw [after_left, Machine.leave_entries]
  rcases hc : conclude e n values m with ⟨v, m'⟩ | ⟨fault | halt, m'⟩
  · rw [hc] at hsame
    rw [Step.recover_of_ok hc]
    exact hsame
  · rw [hc] at hsame
    rw [Step.recover_of_soft hc, after_ok, Machine.entries_report]
    exact hsame
  · rw [hc] at hsame
    rw [Step.recover_of_hard hc]
    exact hsame

theorem calls_of_tooDeep {limit : Int} {e : ScopeId} {n : Node} {m : Machine}
    (h : limit ≤ m.depth) : calls limit e n m = [⟨e, n, m⟩] := by
  rw [calls, if_pos h]

theorem calls_of_lt {limit : Int} {e : ScopeId} {n : Node} {m : Machine} (h : m.depth < limit) :
    calls limit e n m
      = ⟨e, n, m⟩ :: callsAll limit (n.scopeFrom e m.heap).1 n.operands (m.inside e n) := by
  rw [calls, if_neg (Int.not_le.2 h)]

theorem callsAll_cons_of_ok {limit : Int} {e : ScopeId} {n : Node} {ns : List Node}
    {m m' : Machine} {v : Value} (h : eval limit e n m = .ok v m') :
    callsAll limit e (n :: ns) m = calls limit e n m ++ callsAll limit e ns m' := by
  rw [callsAll, h]

theorem callsAll_cons_of_error {limit : Int} {e : ScopeId} {n : Node} {ns : List Node}
    {m m' : Machine} {halt : Halt} (h : eval limit e n m = .error halt m') :
    callsAll limit e (n :: ns) m = calls limit e n m := by
  rw [callsAll, h]
  exact List.append_nil _

/-- The entry of a call that is not refused comes first. -/
theorem entries_calls_of_lt {limit : Int} {e : ScopeId} {n : Node} {m : Machine}
    (h : m.depth < limit) :
    m.entries ++ (calls limit e n m).filterMap (Call.entry? limit)
      = (m.inside e n).entries ++ (callsAll limit (n.scopeFrom e m.heap).1 n.operands
          (m.inside e n)).filterMap (Call.entry? limit) := by
  have hentry : Call.entry? limit ⟨e, n, m⟩ = some (n, m.depth + 1) := if_neg (Int.not_le.2 h)
  have hinside : (m.inside e n).entries = m.entries ++ [(n, m.depth + 1)] :=
    Machine.entries_enter m n
  rw [calls_of_lt h, List.filterMap_cons_some hentry, hinside, List.append_assoc]
  rfl

/-- **The log lists the calls.**  An evaluation adds to it the entries of the
calls that are not refused, in order. -/
theorem entries_eval (limit : Int) :
    (∀ e n m, (after (eval limit e n m)).entries
        = m.entries ++ (calls limit e n m).filterMap (Call.entry? limit)) ∧
      ∀ e ns m, (after (evalAll limit e ns m)).entries
        = m.entries ++ (callsAll limit e ns m).filterMap (Call.entry? limit) := by
  refine eval_induction limit
    (fun e n m r => (after r).entries
      = m.entries ++ (calls limit e n m).filterMap (Call.entry? limit))
    (fun e ns m r => (after r).entries
      = m.entries ++ (callsAll limit e ns m).filterMap (Call.entry? limit)) ?_ ?_ ?_ ?_ ?_ ?_ ?_
  · -- too deep: the only call is refused
    intro e n m hdeep
    have hentry : Call.entry? limit ⟨e, n, m⟩ = none := if_pos hdeep
    rw [calls_of_tooDeep hdeep, List.filterMap_cons_none hentry, List.filterMap_nil,
      List.append_nil]
    rfl
  · -- an operand has stopped
    intro e n m halt m' hlt _ hops
    rw [entries_calls_of_lt hlt]
    exact hops
  · -- the node concludes, which enters nothing
    intro e n m values m' hlt _ hops
    rw [entries_calls_of_lt hlt, entries_conclusion]
    exact hops
  · -- no nodes
    intro e m
    rw [callsAll, List.filterMap_nil, List.append_nil]
    rfl
  · -- the first node has stopped
    intro e n ns m halt m' he hn
    rw [callsAll_cons_of_error he]
    exact hn
  · -- the calls of the first node come before those of the others
    intro e n ns m v m' halt m'' he hn hns
    rw [callsAll_cons_of_ok he, List.filterMap_append, ← List.append_assoc, ← hn]
    exact hns
  · intro e n ns m v m' vs m'' he hn hns
    rw [callsAll_cons_of_ok he, List.filterMap_append, ← List.append_assoc, ← hn]
    exact hns

/-- A root block is not entered itself, but what its statements call is listed. -/
theorem entries_evalProgram (limit : Int) (root : ScopeId) (tree : Node) (m : Machine) :
    (after (evalProgram limit root tree m)).entries
      = m.entries ++ (programCalls limit root tree m).filterMap (Call.entry? limit) := by
  unfold programCalls
  split
  next hblock =>
    rw [after_evalProgram hblock]
    exact (entries_eval limit).2 root tree.operands m
  next hblock =>
    rw [evalProgram_of_ne_block hblock]
    exact (entries_eval limit).1 root tree m

/-- **The log of a run lists its calls.** -/
theorem entries_run (limit : Int) (root : ScopeId) (tree : Node) (h : Heap) :
    (after (run limit root tree h)).entries
      = (runCalls limit root tree h).filterMap (Call.entry? limit) := by
  have hempty : ({ heap := h } : Machine).entries = [] := rfl
  unfold run runCalls
  split
  · exact hempty
  · have hprogram := entries_evalProgram limit root tree { heap := h }
    rw [hempty, List.nil_append] at hprogram
    split <;> rename_i hr <;> rw [hr] at hprogram
    · rw [after_ok, Machine.finish_entries]
      exact hprogram
    · exact hprogram

/-! ### What is true of all calls -/

/-- What is true of the scope and the heap at the start, and is preserved by
opening blocks and by evolution, is true at every call. -/
theorem calls_induction (limit : Int) {P : ScopeId → Heap → Prop}
    (opened : ∀ e n h, P e h → P (Node.scopeFrom n e h).1 (Node.scopeFrom n e h).2)
    (evolved : ∀ e h h', P e h → Heap.Evolves e h h' → P e h') :
    (∀ e n m, P e m.heap → ∀ c ∈ calls limit e n m, P c.scope c.machine.heap) ∧
      ∀ e ns m, P e m.heap → ∀ c ∈ callsAll limit e ns m, P c.scope c.machine.heap := by
  -- the call of a node itself, then those of its operands
  have node : ∀ e n m, m.depth < limit →
      (P (Node.scopeFrom n e m.heap).1 (m.inside e n).heap →
        ∀ c ∈ callsAll limit (n.scopeFrom e m.heap).1 n.operands (m.inside e n),
          P c.scope c.machine.heap) →
      P e m.heap → ∀ c ∈ calls limit e n m, P c.scope c.machine.heap := by
    intro e n m hlt hops hP c hc
    rw [calls_of_lt hlt] at hc
    rcases List.mem_cons.1 hc with rfl | hc
    · exact hP
    · exact hops (opened e n m.heap hP) c hc
  -- the calls of a node, then those of its successors
  have list : ∀ e n ns m v m', eval limit e n m = .ok v m' →
      (P e m.heap → ∀ c ∈ calls limit e n m, P c.scope c.machine.heap) →
      (P e m'.heap → ∀ c ∈ callsAll limit e ns m', P c.scope c.machine.heap) →
      P e m.heap → ∀ c ∈ callsAll limit e (n :: ns) m, P c.scope c.machine.heap := by
    intro e n ns m v m' he hn hns hP c hc
    rw [callsAll_cons_of_ok he] at hc
    have hev := Heap.eval_evolves limit e n m
    rw [he] at hev
    rcases List.mem_append.1 hc with hc | hc
    · exact hn hP c hc
    · exact hns (evolved e m.heap m'.heap hP hev) c hc
  refine eval_induction limit
    (fun e n m _ => P e m.heap → ∀ c ∈ calls limit e n m, P c.scope c.machine.heap)
    (fun e ns m _ => P e m.heap → ∀ c ∈ callsAll limit e ns m, P c.scope c.machine.heap)
    ?_ ?_ ?_ ?_ ?_ ?_ ?_
  · intro e n m hdeep hP c hc
    rw [calls_of_tooDeep hdeep, List.mem_singleton] at hc
    rw [hc]
    exact hP
  · intro e n m halt m' hlt _ hops
    exact node e n m hlt hops
  · intro e n m values m' hlt _ hops
    exact node e n m hlt hops
  · intro e m _ c hc
    rw [callsAll] at hc
    cases hc
  · -- the nodes behind one that has stopped are not called
    intro e n ns m halt m' he hn hP c hc
    rw [callsAll_cons_of_error he] at hc
    exact hn hP c hc
  · intro e n ns m v m' halt m'' he hn hns
    exact list e n ns m v m' he hn hns
  · intro e n ns m v m' vs m'' he hn hns
    exact list e n ns m v m' he hn hns

/-- What is preserved in this way is true at every call of a run. -/
theorem runCalls_induction {limit : Int} {P : ScopeId → Heap → Prop}
    (opened : ∀ e n h, P e h → P (Node.scopeFrom n e h).1 (Node.scopeFrom n e h).2)
    (evolved : ∀ e h h', P e h → Heap.Evolves e h h' → P e h')
    {root : ScopeId} {tree : Node} {h : Heap} (hP : P root h) :
    ∀ c ∈ runCalls limit root tree h, P c.scope c.machine.heap := by
  obtain ⟨hnode, hlist⟩ := calls_induction limit opened evolved
  unfold runCalls programCalls
  split
  · intro c hc
    cases hc
  · split
    · exact hlist root tree.operands { heap := h } hP
    · exact hnode root tree { heap := h } hP

end BlockScript
