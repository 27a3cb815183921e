/-
BlockScript/Proofs/Traversal.lean

Evaluation is eager, and its shape is a matter of the tree alone.

Which children of a node are evaluated is read off its kind and its children
(`visited`): no value, no fault and no binding has a say in it.  The nodes of
an evaluation and their depths are therefore known beforehand.  They are the
tree in pre-order,

    entries (after (eval limit e n m))  =  entries m ++ preorder (m.depth + 1) n,

if the evaluation ends normally.  If it stops, it has entered the first nodes
of that list; and if it stops at the limit, the node refused is the next one.
-/
import BlockScript.Proofs.Calls

namespace BlockScript

/-! ### The shape of a tree -/

namespace Node

mutual

/-- All nodes of a tree, evaluated or not. -/
def nodes : Node → List Node
  | ⟨kind, text, children, named, missing⟩ =>
    ⟨kind, text, children, named, missing⟩ :: nodesAll children

/-- All nodes of several trees. -/
def nodesAll : List Node → List Node
  | [] => []
  | n :: ns => n.nodes ++ nodesAll ns

end

theorem nodes_eq (n : Node) : n.nodes = n :: nodesAll n.children := by
  cases n
  rfl

theorem nodes_subset_all {c : Node} {ns : List Node} (hc : c ∈ ns) : c.nodes ⊆ nodesAll ns := by
  induction ns with
  | nil => cases hc
  | cons n ns ih =>
    rcases List.mem_cons.1 hc with rfl | hc
    · exact List.subset_append_left _ _
    · exact List.subset_append_of_subset_right _ (ih hc)

theorem nodes_subset {c n : Node} (hc : c ∈ n.children) : c.nodes ⊆ n.nodes := by
  rw [n.nodes_eq]
  exact List.subset_cons_of_subset _ (nodes_subset_all hc)

/-- The children at some positions, if there are `count` children in all. -/
def childrenAt (n : Node) (count : Nat) (positions : List Nat) : List Node :=
  if n.children.length = count then positions.filterMap (n.children[·]?) else []

/-- The children that an evaluation of the node visits, in order. -/
def visited (n : Node) : List Node :=
  match n.kind with
  | "block" => n.children.filter (·.kind = "statement")
  | "statement" => (n.children.find? (·.named)).toList
  | "unary_expression" => n.childrenAt 2 [1]
  | "binary_expression" => n.childrenAt 3 [0, 2]
  | "assignment_expression" => n.childrenAt 3 [2]
  | "member_expression" => n.childrenAt 3 [0]
  | _ => []

/-- The evaluator takes just these children as operands. -/
theorem operands_eq_visited (n : Node) : n.operands = n.visited := by
  unfold visited
  split
  next hkind =>
    have hn : n.form? = some .block := form?_eq_some_iff.2 hkind
    simp only [operands, hn, beq_eq_decide]
  next hkind =>
    have hn : n.form? = some .statement := form?_eq_some_iff.2 hkind
    simp only [operands, hn, namedChildren, List.take_one, List.head?_filter]
  next hkind =>
    have hn : n.form? = some .unary := form?_eq_some_iff.2 hkind
    rcases hc : n.children with - | ⟨_, - | ⟨_, - | ⟨_, _⟩⟩⟩ <;>
      simp [operands, childrenAt, hn, hc]
  next hkind =>
    have hn : n.form? = some .binary := form?_eq_some_iff.2 hkind
    rcases hc : n.children with - | ⟨_, - | ⟨_, - | ⟨_, - | ⟨_, _⟩⟩⟩⟩ <;>
      simp [operands, childrenAt, hn, hc]
  next hkind =>
    have hn : n.form? = some .assignment := form?_eq_some_iff.2 hkind
    rcases hc : n.children with - | ⟨_, - | ⟨_, - | ⟨_, - | ⟨_, _⟩⟩⟩⟩ <;>
      simp [operands, childrenAt, hn, hc]
  next hkind =>
    have hn : n.form? = some .member := form?_eq_some_iff.2 hkind
    rcases hc : n.children with - | ⟨_, - | ⟨_, - | ⟨_, - | ⟨_, _⟩⟩⟩⟩ <;>
      simp [operands, childrenAt, hn, hc]
  next hblock hstatement hunary hbinary hassignment hmember =>
    -- no other form has operands
    unfold operands
    split
    next hn => exact absurd (form?_eq_some_iff.1 hn) hblock
    next hn => exact absurd (form?_eq_some_iff.1 hn) hstatement
    next hn _ => exact absurd (form?_eq_some_iff.1 hn) hunary
    next hn _ => exact absurd (form?_eq_some_iff.1 hn) hbinary
    next hn _ => exact absurd (form?_eq_some_iff.1 hn) hassignment
    next hn _ => exact absurd (form?_eq_some_iff.1 hn) hmember
    next => rfl

theorem sizeOf_visited_lt (n : Node) : sizeOf n.visited < sizeOf n :=
  n.operands_eq_visited ▸ n.sizeOf_operands_lt

mutual

/-- The nodes of a tree before those below them, from left to right, each
with its depth; that of the tree itself is given. -/
def preorder (depth : Nat) (n : Node) : List (Node × Nat) :=
  (n, depth) :: preorders (depth + 1) n.visited
termination_by sizeOf n
decreasing_by exact n.sizeOf_visited_lt

/-- The nodes of several trees, one tree after the other. -/
def preorders (depth : Nat) : List Node → List (Node × Nat)
  | [] => []
  | n :: ns => n.preorder depth ++ preorders depth ns
termination_by ns => sizeOf ns

end

/-- A node comes before its operands, one level above them. -/
theorem preorder_eq (depth : Nat) (n : Node) :
    n.preorder depth = (n, depth) :: preorders (depth + 1) n.operands := by
  rw [preorder, operands_eq_visited]

theorem preorders_cons (depth : Nat) (n : Node) (ns : List Node) :
    preorders depth (n :: ns) = n.preorder depth ++ preorders depth ns := by
  rw [preorders]

end Node

/-! ### The depth -/

@[simp] theorem Machine.inside_entries (m : Machine) (e : ScopeId) (n : Node) :
    (m.inside e n).entries = m.entries ++ [(n, m.depth + 1)] :=
  m.entries_enter n

/-- Neither concluding nor recovering changes the depth. -/
theorem depth_recover (e : ScopeId) (n : Node) (values : List Value) (m : Machine) :
    (after (Step.recover n (conclude e n values) m)).depth = m.depth := by
  have hsame := (conclude_sameRecord e n values m).depth
  rcases hc : conclude e n values m with ⟨v, m'⟩ | ⟨fault | halt, m'⟩ <;> rw [hc] at hsame
  · rw [Step.recover_of_ok hc]
    exact hsame
  · rw [Step.recover_of_soft hc]
    exact hsame
  · rw [Step.recover_of_hard hc]
    exact hsame

theorem depth_conclusion (e : ScopeId) (n : Node) (values : List Value) (m : Machine) :
    (after (left (Step.recover n (conclude e n values) m))).depth = m.depth - 1 := by
  rw [after_left]
  show (after (Step.recover n (conclude e n values) m)).depth - 1 = m.depth - 1
  rw [depth_recover]

/-- **The depth is restored**, whatever the outcome. -/
theorem depth_eval (limit : Int) :
    (∀ e n m, (after (eval limit e n m)).depth = m.depth) ∧
      ∀ e ns m, (after (evalAll limit e ns m)).depth = m.depth := by
  refine eval_induction limit (fun _ _ m r => (after r).depth = m.depth)
    (fun _ _ m r => (after r).depth = m.depth) ?_ ?_ ?_ ?_ ?_ ?_ ?_
  · intro e n m _
    rfl
  · -- an operand has stopped, one level below
    intro e n m halt m' _ _ hops
    show m'.depth - 1 = m.depth
    rw [show m'.depth = m.depth + 1 from hops, Nat.add_sub_cancel]
  · intro e n m values m' _ _ hops
    rw [depth_conclusion, show m'.depth = m.depth + 1 from hops, Nat.add_sub_cancel]
  · intro e m
    rfl
  · intro e n ns m halt m' _ hn
    exact hn
  · intro e n ns m v m' halt m'' _ hn hns
    exact hns.trans hn
  · intro e n ns m v m' vs m'' _ hn hns
    exact hns.trans hn

theorem depth_of_eval_ok {limit : Int} {e : ScopeId} {n : Node} {m m' : Machine} {v : Value}
    (he : eval limit e n m = .ok v m') : m'.depth = m.depth := by
  have hrestored := (depth_eval limit).1 e n m
  rwa [he] at hrestored

/-! ### What stops an evaluation -/

/-- The causes that a node can have by itself: a constant would be bound
again, or an integer literal is too large for a number. -/
def Halt.IsOfNode : Halt → Prop
  | .redeclared _ | .integerOverflow => True
  | _ => False

/-- The faults of operators are soft. -/
theorem Step.ofExcept_ne_hard {α : Type} {r : Except Fault α} {m m' : Machine} {halt : Halt} :
    Step.ofExcept r m ≠ .error (.hard halt) m' := by
  rcases r with fault | a <;> rintro ⟨⟩

/-- A literal can only be too large. -/
theorem literalValue_hard {text : String} {halt : Halt}
    (h : literalValue text = .error (.hard halt)) : halt.IsOfNode := by
  unfold literalValue at h
  split at h
  · cases h
  · split at h
    · cases h
      trivial
    · cases h

/-- The causes that a given node can have: a number stops for what its literal is. -/
def Node.Stops (n : Node) (halt : Halt) : Prop :=
  (∃ name, halt = .redeclared name) ∨
    n.form? = some .number ∧ literalValue n.text = .error (.hard halt)

theorem Node.Stops.isOfNode {n : Node} {halt : Halt} (h : n.Stops halt) : halt.IsOfNode := by
  rcases h with ⟨name, rfl⟩ | ⟨-, hliteral⟩
  · trivial
  · exact literalValue_hard hliteral

/-- The forms that stop are assignments and numbers. -/
theorem concludeForm_stops {e : ScopeId} {n : Node} {form : Form} {children : List Node}
    {values : List Value} {m m' : Machine} {halt : Halt}
    (h : concludeForm e n form children values m = .error (.hard halt) m') :
    (∃ name, halt = .redeclared name) ∨
      form = .number ∧ literalValue n.text = .error (.hard halt) := by
  revert h
  fun_cases concludeForm e n form children values with
  | case6 _ _ f hliteral =>
    -- the literal of a number
    rintro ⟨⟩
    exact .inr ⟨rfl, hliteral⟩
  | case9 => exact fun h => absurd h Step.ofExcept_ne_hard
  | case11 => exact fun h => absurd h Step.ofExcept_ne_hard
  | case15 target op rhs v =>
    -- an assignment stops at constants only
    intro h
    have hspec := assignTo_spec e target ⟨v, bindsConstant op.text⟩ m
    rw [h] at hspec
    exact .inl hspec.2.2.2
  | _ => rintro ⟨⟩

theorem conclude_stops {e : ScopeId} {n : Node} {values : List Value} {m m' : Machine}
    {halt : Halt} (h : conclude e n values m = .error (.hard halt) m') : n.Stops halt := by
  rcases hform : n.form? with - | form <;> rw [conclude, hform] at h
  · cases h
  · refine (concludeForm_stops h).imp_right ?_
    rintro ⟨rfl, hliteral⟩
    exact ⟨hform, hliteral⟩

/-- A node stops for the cause that its conclusion has. -/
theorem recover_stops {e : ScopeId} {n : Node} {values : List Value} {m m' : Machine}
    {halt : Halt} (h : Step.recover n (conclude e n values) m = .error halt m') :
    n.Stops halt := by
  rcases hc : conclude e n values m with ⟨v, m₁⟩ | ⟨fault | cause, m₁⟩
  · rw [Step.recover_of_ok hc] at h
    cases h
  · rw [Step.recover_of_soft hc] at h
    cases h
  · rw [Step.recover_of_hard hc] at h
    cases h
    exact conclude_stops hc

/-! ### The nodes entered -/

/-- A cause that stops an evaluation in front of some nodes: one of the nodes
behind it has it, or the first node ahead is beyond the limit. -/
def Halt.StopsBefore (halt : Halt) (limit : Int) (ahead : List (Node × Nat)) : Prop :=
  halt.IsOfNode ∨ ∃ k depth rest, ahead = (k, depth) :: rest ∧
    halt = .tooDeep limit k.kind ∧ limit < depth

theorem Halt.StopsBefore.append {halt : Halt} {limit : Int} {ahead : List (Node × Nat)}
    (hstops : halt.StopsBefore limit ahead) (more : List (Node × Nat)) :
    halt.StopsBefore limit (ahead ++ more) := by
  refine hstops.imp_right ?_
  rintro ⟨k, depth, rest, rfl, hrest⟩
  exact ⟨k, depth, rest ++ more, rfl, hrest⟩

/-- What an outcome shows of the nodes ahead of a machine: all of them were
entered if it is a value, and the first ones of them otherwise. -/
def Traversed {α : Type} (limit : Int) (m : Machine) (ahead : List (Node × Nat)) :
    Outcome α → Prop
  | .ok _ m' => m'.entries = m.entries ++ ahead
  | .error halt m' => ∃ done rest, ahead = done ++ rest ∧ m'.entries = m.entries ++ done ∧
      halt.StopsBefore limit rest

/-- The nodes behind the first trees come after theirs. -/
theorem Traversed.trans {α : Type} {limit : Int} {m m' : Machine}
    {ahead ahead' : List (Node × Nat)} {r : Outcome α} (hentries : m'.entries = m.entries ++ ahead)
    (hr : Traversed limit m' ahead' r) : Traversed limit m (ahead ++ ahead') r := by
  rcases r with ⟨a, m''⟩ | ⟨halt, m''⟩
  · show m''.entries = m.entries ++ (ahead ++ ahead')
    rw [show m''.entries = m'.entries ++ ahead' from hr, hentries, List.append_assoc]
  · obtain ⟨done, rest, rfl, hdone, hstops⟩ := hr
    refine ⟨ahead ++ done, rest, (List.append_assoc ..).symm, ?_, hstops⟩
    rw [hdone, hentries, List.append_assoc]

/-- A conclusion enters nothing. -/
theorem Traversed.conclusion {limit : Int} {m m' : Machine} {ahead : List (Node × Nat)}
    {values : List Value} (hops : Traversed limit m ahead (.ok values m')) (e : ScopeId)
    (n : Node) :
    Traversed limit m ahead (left (Step.recover n (conclude e n values) m')) := by
  have hsame := entries_conclusion e n values m'
  rcases hr : Step.recover n (conclude e n values) m' with ⟨v, m''⟩ | ⟨halt, m''⟩ <;>
    rw [hr] at hsame
  · exact hsame.trans hops
  · exact ⟨ahead, [], (List.append_nil _).symm, hsame.trans hops, .inl (recover_stops hr).isOfNode⟩

/-- **Evaluations traverse the tree in pre-order.** -/
theorem eval_traversed (limit : Int) :
    (∀ e n m, Traversed limit m (n.preorder (m.depth + 1)) (eval limit e n m)) ∧
      ∀ e ns m, Traversed limit m (Node.preorders (m.depth + 1) ns) (evalAll limit e ns m) := by
  refine eval_induction limit
    (fun _ n m r => Traversed limit m (n.preorder (m.depth + 1)) r)
    (fun _ ns m r => Traversed limit m (Node.preorders (m.depth + 1) ns) r) ?_ ?_ ?_ ?_ ?_ ?_ ?_
  · -- too deep: nothing is entered, and the node itself is refused
    intro e n m hdeep
    refine ⟨[], n.preorder (m.depth + 1), rfl, (List.append_nil _).symm, ?_⟩
    refine .inr ⟨n, m.depth + 1, _, n.preorder_eq _, rfl, ?_⟩
    omega
  · -- an operand has stopped
    intro e n m halt m' _ _ hops
    rw [Node.preorder_eq]
    exact Traversed.trans (m.inside_entries e n) hops
  · -- the node concludes, which enters nothing
    intro e n m values m' _ _ hops
    rw [Node.preorder_eq]
    exact Traversed.trans (m.inside_entries e n) (hops.conclusion _ n)
  · intro e m
    rw [Node.preorders]
    exact (List.append_nil _).symm
  · -- the first node has stopped, and the others are not reached
    intro e n ns m halt m' _ hn
    obtain ⟨done, rest, hahead, hdone, hstops⟩ := hn
    refine ⟨done, rest ++ Node.preorders (m.depth + 1) ns, ?_, hdone, hstops.append _⟩
    rw [Node.preorders_cons, hahead, List.append_assoc]
  · -- the others start at the depth of the first
    intro e n ns m v m' halt m'' he hn hns
    rw [depth_of_eval_ok he] at hns
    rw [Node.preorders_cons]
    exact Traversed.trans hn hns
  · intro e n ns m v m' vs m'' he hn hns
    rw [depth_of_eval_ok he] at hns
    rw [Node.preorders_cons]
    exact Traversed.trans hn hns

/-- **Evaluation is eager and its shape is static.**  The nodes that an
evaluation enters, and the depths at which it enters them, are the tree in
pre-order if the evaluation ends normally, and a first part of that list if it
is stopped.  The list depends on the tree and on the depth at the start, and on
nothing else. -/
theorem eval_enters_preorder (limit : Int) (e : ScopeId) (tree : Node) (m : Machine) :
    match eval limit e tree m with
    | .ok _ m' => m'.entries = m.entries ++ tree.preorder (m.depth + 1)
    | .error _ m' => ∃ entered, entered <+: tree.preorder (m.depth + 1) ∧
        m'.entries = m.entries ++ entered := by
  have htraversed := (eval_traversed limit).1 e tree m
  rcases hr : eval limit e tree m with ⟨v, m'⟩ | ⟨halt, m'⟩ <;> rw [hr] at htraversed
  · exact htraversed
  · obtain ⟨entered, rest, hahead, hentries, -⟩ := htraversed
    exact ⟨entered, ⟨rest, hahead.symm⟩, hentries⟩

end BlockScript
