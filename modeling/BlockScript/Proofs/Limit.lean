/-
BlockScript/Proofs/Limit.lean

The nesting limit is an exact threshold, and nothing else.

The height of a tree is the depth of its deepest node,

    height n  =  max { depth | (k, depth) ∈ preorder 1 n }.

A limit of that height or more has no effect: the outcome is the same for all
of them, and it is never a refusal.  Under a lower limit nothing returns.
Either the evaluation reaches the first node beyond the limit, which is
refused, or it is stopped earlier by a cause that has nothing to do with the
limit, and then every higher limit gives the same outcome.

The statements of a root block are not nested in it, so a run of the block
needs one level less than its evaluation; if it has no statements, then it
needs none, and there is no limit that it can exceed.
-/
import BlockScript.Proofs.Traversal

namespace BlockScript

/-! ### The height of a tree -/

namespace Node

mutual

/-- The number of levels of a tree. -/
def height (n : Node) : Nat :=
  heights n.visited + 1
termination_by sizeOf n
decreasing_by exact n.sizeOf_visited_lt

/-- The greatest height of several trees, zero if there are none. -/
def heights : List Node → Nat
  | [] => 0
  | n :: ns => max n.height (heights ns)
termination_by ns => sizeOf ns

end

/-- A tree has one level more than the highest of its operands. -/
theorem height_eq (n : Node) : n.height = heights n.operands + 1 := by
  rw [height, operands_eq_visited]

@[simp] theorem heights_nil : heights [] = 0 := by
  rw [heights]

theorem heights_cons (n : Node) (ns : List Node) :
    heights (n :: ns) = max n.height (heights ns) := by
  rw [heights]

/-- Of trees whose nodes lie within their heights, the nodes lie within the
greatest of these. -/
theorem depth_le_heights {ns : List Node} {depth : Nat}
    (hns : ∀ n ∈ ns, ∀ x ∈ n.preorder (depth + 1), x.2 ≤ depth + n.height) :
    ∀ x ∈ preorders (depth + 1) ns, x.2 ≤ depth + heights ns := by
  induction ns with
  | nil =>
    intro x hx
    rw [preorders] at hx
    cases hx
  | cons n ns ih =>
    intro x hx
    rw [preorders_cons] at hx
    rw [heights_cons]
    rcases List.mem_append.1 hx with hx | hx
    · have := hns n List.mem_cons_self x hx
      omega
    · have := ih (fun k hk => hns k (List.mem_cons_of_mem n hk)) x hx
      omega

/-- No node lies deeper than the height of its tree. -/
theorem depth_le_height (n : Node) (depth : Nat) :
    ∀ x ∈ n.preorder (depth + 1), x.2 ≤ depth + n.height := by
  induction n using operands_induction generalizing depth with
  | step n ih =>
    intro x hx
    rw [preorder_eq] at hx
    rw [height_eq]
    rcases List.mem_cons.1 hx with rfl | hx
    · show depth + 1 ≤ _
      omega
    · have := depth_le_heights (fun k hk => ih k hk (depth + 1)) x hx
      omega

theorem exists_depth_eq_heights {ns : List Node} {depth : Nat} (hne : ns ≠ [])
    (hns : ∀ n ∈ ns, ∃ x ∈ n.preorder (depth + 1), x.2 = depth + n.height) :
    ∃ x ∈ preorders (depth + 1) ns, x.2 = depth + heights ns := by
  induction ns with
  | nil => exact absurd rfl hne
  | cons n ns ih =>
    obtain ⟨x, hx, hdepth⟩ := hns n List.mem_cons_self
    rw [preorders_cons, heights_cons]
    rcases Nat.le_total (heights ns) n.height with hle | hle
    · -- the first tree is the highest
      refine ⟨x, List.mem_append_left _ hx, ?_⟩
      rw [Nat.max_eq_left hle, hdepth]
    · rw [Nat.max_eq_right hle]
      rcases eq_or_ne ns [] with rfl | hrest
      · -- it is the only one, and a tree has a level of its own
        rw [heights_nil, height_eq] at hle
        omega
      · obtain ⟨y, hy, hdepth'⟩ := ih hrest fun k hk => hns k (List.mem_cons_of_mem n hk)
        exact ⟨y, List.mem_append_right _ hy, hdepth'⟩

/-- Some node lies as deep as its tree is high. -/
theorem exists_depth_eq_height (n : Node) (depth : Nat) :
    ∃ x ∈ n.preorder (depth + 1), x.2 = depth + n.height := by
  induction n using operands_induction generalizing depth with
  | step n ih =>
    rw [preorder_eq, height_eq]
    rcases eq_or_ne n.operands [] with hleaf | hinner
    · refine ⟨_, List.mem_cons_self, ?_⟩
      rw [hleaf, heights_nil]
    · obtain ⟨x, hx, hdepth⟩ := exists_depth_eq_heights hinner fun k hk => ih k hk (depth + 1)
      refine ⟨x, List.mem_cons_of_mem _ hx, ?_⟩
      omega

end Node

/-! ### Higher limits -/

/-- The outcome is not a refusal. -/
def Unrefused {α : Type} (r : Outcome α) : Prop :=
  ∀ limit kind m, r ≠ .error (.tooDeep limit kind) m

theorem Unrefused.ok {α : Type} (a : α) (m : Machine) : Unrefused (.ok a m : Outcome α) := by
  rintro limit kind m' ⟨⟩

/-- An outcome is a refusal by its cause alone. -/
theorem Unrefused.of_error {α β : Type} {halt : Halt} {m m' : Machine}
    (h : Unrefused (.error halt m : Outcome α)) : Unrefused (.error halt m' : Outcome β) := by
  rintro limit kind m'' ⟨⟩
  exact h limit kind m rfl

/-- **A higher limit changes nothing**, unless the limit was the cause. -/
theorem eval_of_limit_le {limit limit' : Int} (hle : limit ≤ limit') :
    (∀ e n m, Unrefused (eval limit e n m) → eval limit' e n m = eval limit e n m) ∧
      ∀ e ns m, Unrefused (evalAll limit e ns m) →
        evalAll limit' e ns m = evalAll limit e ns m := by
  refine eval_induction limit (fun e n m r => Unrefused r → eval limit' e n m = r)
    (fun e ns m r => Unrefused r → evalAll limit' e ns m = r) ?_ ?_ ?_ ?_ ?_ ?_ ?_
  · -- the only case where the limit has a say
    intro e n m _ hr
    exact absurd rfl (hr limit n.kind m)
  · intro e n m halt m' hlt _ hops hr
    exact eval_of_halted (Int.lt_of_lt_of_le hlt hle) (hops hr.of_error)
  · intro e n m values m' hlt _ hops _
    exact eval_of_operands (Int.lt_of_lt_of_le hlt hle) (hops (.ok values m'))
  · intro e m _
    exact evalAll_nil
  · intro e n ns m halt m' _ hn hr
    exact evalAll_cons_of_error (hn hr.of_error)
  · intro e n ns m v m' halt m'' _ hn hns hr
    exact evalAll_cons_of_ok_error (hn (.ok v m')) (hns hr)
  · intro e n ns m v m' vs m'' _ hn hns _
    exact evalAll_cons_of_ok_ok (hn (.ok v m')) (hns (.ok vs m''))

/-! ### Thresholds -/

/-- What becomes of `r`, which has some nodes ahead, under a limit that is too
low.  The first node beyond the limit is refused when all those before it have
been entered; or one of these stops `r`, as it does under every higher limit. -/
def CutShort {α : Type} (ahead : List (Node × Nat)) (r : Int → Outcome α) (limit : Int) : Prop :=
  ∃ (before : List (Node × Nat)) (k : Node) (depth : Nat) (rest : List (Node × Nat)),
    ahead = before ++ (k, depth) :: rest ∧ (∀ x ∈ before, (x.2 : Int) ≤ limit) ∧ limit < depth ∧
    ((∃ m, r limit = .error (.tooDeep limit k.kind) m ∧ m.entries = before) ∨
      ∃ halt m, r limit = .error halt m ∧ halt.IsOfNode ∧ m.entries <+: before ∧
        ∀ limit', limit ≤ limit' → r limit' = r limit)

/-- The limits from the threshold on are all alike, and those below it cut the
evaluation short. -/
structure Threshold {α : Type} (threshold : Nat) (ahead : List (Node × Nat))
    (r : Int → Outcome α) : Prop where
  unrefused : ∀ limit : Int, threshold ≤ limit → Unrefused (r limit)
  same : ∀ limit limit' : Int, threshold ≤ limit → threshold ≤ limit' → r limit' = r limit
  cutShort : ∀ limit : Int, limit < threshold → CutShort ahead r limit

/-- Nothing that the limit forbids is in the log. -/
theorem depth_le_of_entered {limit : Int} {cs : List Call} {x : Node × Nat}
    (hx : x ∈ cs.filterMap (Call.entry? limit)) : (x.2 : Int) ≤ limit := by
  obtain ⟨c, -, hentry⟩ := List.mem_filterMap.1 hx
  unfold Call.entry? at hentry
  split at hentry
  · cases hentry
  next hlt =>
    cases hentry
    show ((c.machine.depth + 1 : Nat) : Int) ≤ limit
    omega

/-- An evaluation from the start, under all limits: it traverses the nodes
ahead, stays within the limit, and is not affected by a higher one. -/
structure Traversal {α : Type} (ahead : List (Node × Nat)) (r : Int → Outcome α) : Prop where
  traversed : ∀ limit, ∃ m, m.entries = [] ∧ Traversed limit m ahead (r limit)
  within : ∀ limit, ∀ x ∈ (after (r limit)).entries, (x.2 : Int) ≤ limit
  stable : ∀ limit limit', limit ≤ limit' → Unrefused (r limit) → r limit' = r limit

namespace Traversal

variable {α : Type} {ahead : List (Node × Nat)} {r : Int → Outcome α} {limit : Int}

/-- Nothing is refused if no node ahead is beyond the limit. -/
theorem unrefused (ht : Traversal ahead r) (hdepth : ∀ x ∈ ahead, (x.2 : Int) ≤ limit) :
    Unrefused (r limit) := by
  intro l kind m hr
  obtain ⟨m₀, -, htraversed⟩ := ht.traversed limit
  rw [hr] at htraversed
  obtain ⟨done, rest, hahead, -, hnode | ⟨k, depth, rest', rfl, -, hlt⟩⟩ := htraversed
  · exact hnode
  · -- the node refused is one of those ahead
    have hle := hdepth (k, depth) (hahead ▸ List.mem_append_right _ List.mem_cons_self)
    exact Int.not_lt.2 hle hlt

/-- The first of some nodes that is beyond the limit. -/
theorem exists_first_beyond {nodes : List (Node × Nat)} (hdeep : ∃ x ∈ nodes, limit < x.2) :
    ∃ (before : List (Node × Nat)) (k : Node) (depth : Nat) (rest : List (Node × Nat)),
      nodes = before ++ (k, depth) :: rest ∧ (∀ x ∈ before, (x.2 : Int) ≤ limit) ∧
        limit < depth := by
  obtain ⟨x, hx, hlt⟩ := hdeep
  have hfound : (nodes.find? fun y => decide (limit < y.2)).isSome :=
    List.find?_isSome.2 ⟨x, hx, decide_eq_true hlt⟩
  obtain ⟨⟨k, depth⟩, hfirst⟩ := Option.isSome_iff_exists.1 hfound
  obtain ⟨hlt', before, rest, hnodes, hbefore⟩ := List.find?_eq_some_iff_append.1 hfirst
  refine ⟨before, k, depth, rest, hnodes, ?_, of_decide_eq_true hlt'⟩
  intro y hy
  simpa using hbefore y hy

/-- A node ahead that is beyond the limit makes the evaluation stop. -/
theorem cutShort (ht : Traversal ahead r) (hdeep : ∃ x ∈ ahead, limit < x.2) :
    CutShort ahead r limit := by
  obtain ⟨m₀, hempty, htraversed⟩ := ht.traversed limit
  have hwithin := ht.within limit
  have hstable := fun limit' hle => ht.stable limit limit' hle
  rcases hr : r limit with ⟨a, m⟩ | ⟨halt, m⟩ <;> rw [hr] at htraversed hwithin hstable
  · -- it does not return: all nodes would have been entered
    obtain ⟨x, hx, hlt⟩ := hdeep
    have hentries : m.entries = ahead := by
      rw [show m.entries = m₀.entries ++ ahead from htraversed, hempty, List.nil_append]
    have hle := hwithin x (show x ∈ m.entries from hentries ▸ hx)
    exact absurd hlt (Int.not_lt.2 hle)
  · obtain ⟨done, rest, rfl, hentries, hstops⟩ := htraversed
    rw [hempty, List.nil_append] at hentries
    have hdone : ∀ x ∈ done, (x.2 : Int) ≤ limit := fun x hx =>
      hwithin x (show x ∈ m.entries from hentries ▸ hx)
    rcases hstops with hnode | ⟨k, depth, rest', rfl, rfl, hlt⟩
    · -- the first node beyond the limit is not among those entered
      have hdeep' : ∃ x ∈ rest, limit < x.2 := by
        obtain ⟨x, hx, hlt⟩ := hdeep
        rcases List.mem_append.1 hx with hx | hx
        · exact absurd hlt (Int.not_lt.2 (hdone x hx))
        · exact ⟨x, hx, hlt⟩
      obtain ⟨more, k, depth, rest', rfl, hmore, hlt⟩ := exists_first_beyond hdeep'
      refine ⟨done ++ more, k, depth, rest', (List.append_assoc ..).symm, ?_, hlt,
        .inr ⟨halt, m, hr, hnode, hentries ▸ List.prefix_append _ _, ?_⟩⟩
      · intro x hx
        exact (List.mem_append.1 hx).elim (hdone x) (hmore x)
      · intro limit' hle
        rw [hr]
        refine hstable limit' hle ?_
        rintro l kind m' ⟨⟩
        exact hnode
    · exact ⟨done, k, depth, rest', rfl, hdone, hlt, .inl ⟨m, hr, hentries⟩⟩

/-- The threshold is the depth of the deepest node ahead. -/
theorem threshold {height : Nat} (ht : Traversal ahead r)
    (hle : ∀ x ∈ ahead, x.2 ≤ height) (hexists : ∃ x ∈ ahead, x.2 = height) :
    Threshold height ahead r := by
  have hunrefused : ∀ limit : Int, height ≤ limit → Unrefused (r limit) := by
    intro limit hlimit
    refine ht.unrefused fun x hx => ?_
    have := hle x hx
    omega
  refine ⟨hunrefused, ?_, ?_⟩
  · -- the lower one of two limits carries over to the other
    intro limit limit' hlimit hlimit'
    rcases Int.le_total limit limit' with h | h
    · exact ht.stable limit limit' h (hunrefused limit hlimit)
    · exact (ht.stable limit' limit h (hunrefused limit' hlimit')).symm
  · intro limit hlimit
    obtain ⟨x, hx, hdepth⟩ := hexists
    refine ht.cutShort ⟨x, hx, ?_⟩
    omega

end Traversal

/-! ### Evaluations and runs -/

/-- An evaluation from the start traverses the tree. -/
theorem evaluate_traversal (e : ScopeId) (tree : Node) (h : Heap) :
    Traversal (tree.preorder 1) (fun limit => evaluate limit e tree h) where
  traversed limit := ⟨{ heap := h }, rfl, (eval_traversed limit).1 e tree { heap := h }⟩
  within limit x hx := by
    have hentries := (entries_eval limit).1 e tree { heap := h }
    rw [show (after (evaluate limit e tree h)).entries = _ from hentries] at hx
    exact depth_le_of_entered (by simpa [Machine.entries] using hx)
  stable limit limit' hle := (eval_of_limit_le hle).1 e tree { heap := h }

/-- A run of a block traverses its statements, and not the block. -/
theorem run_traversal {tree : Node} (hblock : tree.form? = some .block)
    (herror : tree.hasError = false) (root : ScopeId) (h : Heap) :
    Traversal (Node.preorders 1 tree.operands) (fun limit => run limit root tree h) where
  traversed limit := by
    have htraversed := (eval_traversed limit).2 root tree.operands { heap := h }
    refine ⟨{ heap := h }, rfl, ?_⟩
    rw [run_block hblock herror]
    rcases hops : evalAll limit root tree.operands { heap := h } with ⟨vs, m⟩ | ⟨halt, m⟩ <;>
      rw [hops] at htraversed
    · exact (Machine.finish_entries m).trans htraversed
    · exact htraversed
  within limit x hx := by
    rw [entries_run] at hx
    exact depth_le_of_entered hx
  stable limit limit' hle hr := by
    rw [run_block hblock herror] at hr
    rw [run_block hblock herror, run_block hblock herror,
      (eval_of_limit_le hle).2 root tree.operands { heap := h } ?_]
    rcases hops : evalAll limit root tree.operands { heap := h } with ⟨vs, m⟩ | ⟨halt, m⟩ <;>
      rw [hops] at hr
    · exact .ok vs m
    · exact hr.of_error

/-- **The limit is an exact threshold and nothing else.**  That of an
evaluation is the height of the tree; that of a run of a block is the greatest
height of its statements, one level less.  A block without statements runs
under every limit.  A tree with a syntax error is refused before the limit
comes into play. -/
theorem limit_is_threshold (e : ScopeId) (tree : Node) (h : Heap) :
    Threshold tree.height (tree.preorder 1) (fun limit => evaluate limit e tree h) ∧
    (tree.kind = "block" →
      let statements := tree.children.filter (·.kind = "statement")
      tree.height = Node.heights statements + 1 ∧
      (tree.hasError = false → statements ≠ [] →
        Threshold (Node.heights statements) (Node.preorders 1 statements)
          (fun limit => run limit e tree h)) ∧
      (tree.hasError = false → statements = [] →
        ∀ limit, run limit e tree h = .ok (.block e) { heap := h })) ∧
    (tree.hasError = true →
      ∀ limit, run limit e tree h = .error (.syntaxError tree.sexp) { heap := h }) := by
  refine ⟨?_, ?_, ?_⟩
  · refine (evaluate_traversal e tree h).threshold ?_ ?_
    · simpa using tree.depth_le_height 0
    · simpa using tree.exists_depth_eq_height 0
  · intro hkind statements
    have hblock : tree.form? = some .block := Node.form?_eq_some_iff.2 hkind
    have hops : tree.operands = statements := by
      simp only [Node.operands, hblock, beq_eq_decide, statements]
    refine ⟨hops ▸ tree.height_eq, ?_, ?_⟩
    · intro herror hne
      have htraversal := run_traversal hblock herror e h
      rw [hops] at htraversal
      refine htraversal.threshold ?_ ?_
      · simpa using Node.depth_le_heights fun n (_ : n ∈ statements) => n.depth_le_height 0
      · simpa using Node.exists_depth_eq_heights hne fun n _ => n.exists_depth_eq_height 0
    · intro herror hnil limit
      rw [run_block hblock herror, hops, hnil, evalAll_nil]
      rfl
  · intro herror limit
    rw [run, if_pos herror]

/-- The program `x = true` nests three levels deep below its root: it is cut
short under a limit of two and not refused under three.  An empty program runs
under a negative limit, and an erroneous one is refused under any. -/
theorem limit_is_threshold_of_assignment :
    let h : Heap := .initial
    let program : Node := .program [.assign (.identifier "x") "=" (.truth true)]
    let statements := program.children.filter (·.kind = "statement")
    program.hasError = false ∧ Node.heights statements = 3 ∧
      Unrefused (run 3 0 program h) ∧
      CutShort (Node.preorders 1 statements) (fun limit => run limit 0 program h) 2 ∧
      run (-1) 0 (.program []) h = .ok (.block 0) { heap := h } ∧
      run 5 0 (.program [{ kind := "ERROR" }]) h
        = .error (.syntaxError "(block (statement (ERROR)))") { heap := h } := by
  intro h program statements
  have hheights : Node.heights statements = 3 := by
    rw [show statements = [.statement (.assign (.identifier "x") "=" (.truth true))] from rfl]
    simp [Node.heights_cons, Node.height_eq, Node.operands, Node.form?, Form.ofKind?, Form.all,
      Form.kind, Node.statement, Node.assign, Node.truth, Node.boolean, Node.namedChildren,
      Node.token]
  obtain ⟨-, hrun, -⟩ := (limit_is_threshold 0 program h).2.1 rfl
  have hthreshold := hrun rfl (by decide)
  obtain ⟨-, -, hempty⟩ := (limit_is_threshold 0 (.program []) h).2.1 rfl
  have hrefused := (limit_is_threshold 0 (.program [{ kind := "ERROR" }]) h).2.2 rfl 5
  refine ⟨rfl, hheights, ?_, ?_, hempty rfl rfl (-1), hrefused⟩
  · refine hthreshold.unrefused 3 ?_
    rw [hheights]
    decide
  · refine hthreshold.cutShort 2 ?_
    rw [hheights]
    decide

/-- The greatest height of the statements of a block is no bound below which
each of its runs is cut short: a block without statements returns under a
limit below it, and an erroneous block is refused for its error. -/
theorem empty_program_runs_below_zero :
    let statements (tree : Node) := tree.children.filter (·.kind = "statement")
    let erroneous : Node := .program [{ kind := "ERROR" }]
    ((-1 : Int) < Node.heights (statements (.program [])) ∧
      run (-1) 0 (.program []) .initial = .ok (.block 0) { heap := .initial }) ∧
    (0 < Node.heights (statements erroneous) ∧
      run 0 0 erroneous .initial
        = .error (.syntaxError "(block (statement (ERROR)))") { heap := .initial }) := by
  intro statements erroneous
  refine ⟨⟨?_, ?_⟩, ?_, if_pos rfl⟩
  · rw [show statements (.program []) = [] from rfl, Node.heights_nil]
    decide
  · rw [run_block rfl rfl, show (Node.program []).operands = [] from rfl, evalAll_nil]
    rfl
  · rw [show statements erroneous = [.statement { kind := "ERROR" }] from rfl,
      Node.heights_cons, Node.height_eq]
    omega

end BlockScript
