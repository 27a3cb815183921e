/-
BlockScript/Evaluation/Evaluate.lean

Evaluation of a tree.

Every node is evaluated in the same three moves: a block opens a scope, the
operands are evaluated from left to right, and `conclude` makes the value of
the node from the values of the operands.  All faults of a node come from the
last move, so they are recovered there, after everything below has run.
-/
import BlockScript.Evaluation.Machine
import BlockScript.Evaluation.Operator
import BlockScript.Evaluation.Target
import BlockScript.Number.Literal

namespace BlockScript

/-! ### Literals -/

/-- Removes one pair of equal quotes around a text. -/
def unquote (s : String) : String :=
  match s.toList with
  | quote :: rest =>
    if [doubleQuote, singleQuote, '\x60'].contains quote && rest.getLast? = some quote then
      String.ofList rest.dropLast
    else s
  | [] => s

/-- The number that a literal denotes. -/
def literalValue (text : String) : Except Failure Float :=
  match Literal.read? text with
  | none => .error (.soft (.badLiteral text))
  | some literal =>
    match literal.value? with
    | none => .error (.hard .integerOverflow)
    | some x => .ok x

/-! ### Assignment -/

/-- Binds a value along a path. -/
def assignPath (e : ScopeId) (path : List String) (b : Binding) : Step Unit := do
  let arrival ← Step.onHeap (Heap.resolvePath e path b.constant)
  Step.emitAll (arrival.events path)
  Step.onHeap (Heap.assignOwn arrival.scope (path.getLastD "") b)

/-- Binds a value to a target.  The value of the assignment is the value
bound; a target that is neither a name nor a member is ignored. -/
def assignTo (e : ScopeId) (target : Node) (b : Binding) : Step Value := do
  match target.form? with
  | some .identifier =>
    Step.onHeap (Heap.declare e (strip target.text) b)
    return b.value
  | some .member =>
    let path ← Step.ofExcept target.targetPath
    assignPath e path b
    return b.value
  | _ =>
    Step.emitAll [.targetIgnored target.kind target.text]
    return .void

/-! ### The value of a node -/

/-- The value of a node of a form from its children and the values of its
operands; `e` is the scope in which the operands were evaluated. -/
def concludeForm (e : ScopeId) (n : Node) : Form → List Node → List Value → Step Value
  | .block, _, _ => return .block e
  | .statement, _, values => return values.headD .void
  | .comment, _, _ => return .void
  | .identifier, _, _ => return (← get).heap.lookup e (strip n.text)
  | .number, _, _ => do
    match literalValue n.text with
    | .ok x => return .number x
    | .error f => throw f
  | .string, _, _ => return .string (unquote n.text)
  | .boolean, _, _ => return .boolean (strip n.text == "true")
  | .unary, [op, _], [v] =>
    match UnaryOp.ofSymbol? (strip op.text) with
    | some f => Step.ofExcept (f.apply v)
    | none => throw (.soft (.unknownUnary op.text))
  | .binary, [_, op, _], [a, b] =>
    match BinaryOp.ofSymbol? (strip op.text) with
    | some f => Step.ofExcept (f.apply a b)
    | none => throw (.soft (.unknownBinary op.text))
  | .member, [_, _, name], [v] =>
    match v with
    | .block scope => return (← get).heap.lookupOwn scope (strip name.text)
    | _ => throw (.soft (.memberOfNonBlock v.kind))
  | .assignment, [target, op, _], [v] => assignTo e target ⟨v, bindsConstant op.text⟩
  | form, children, _ =>
    throw (.soft (.wrongArity form.kind ((form.arity?.map (·.2)).getD "") children.length))

/-- The value of a node from the values of its operands. -/
def conclude (e : ScopeId) (n : Node) (values : List Value) : Step Value :=
  match n.form? with
  | some form => concludeForm e n form n.children values
  | none => throw (.soft (.unknownForm n.kind))

/-- The scope in which the operands of a node are evaluated: a new one for a
block, the same one otherwise. -/
def operandScope (e : ScopeId) (n : Node) : Eval ScopeId := fun m =>
  if n.form? = some .block then
    let (child, heap) := m.heap.extend e
    .ok child { m with heap }
  else .ok e m

mutual

/-- Evaluates a node in a scope. -/
def eval (limit : Int) (e : ScopeId) (n : Node) : Eval Value :=
  Eval.nested limit n do
    let inner ← operandScope e n
    let values ← evalAll limit inner n.operands
    Step.recover n (conclude inner n values)
termination_by sizeOf n
decreasing_by exact n.sizeOf_operands_lt

/-- Evaluates nodes in a scope, from left to right. -/
def evalAll (limit : Int) (e : ScopeId) : List Node → Eval (List Value)
  | [] => return []
  | n :: ns => do
    let v ← eval limit e n
    let vs ← evalAll limit e ns
    return v :: vs
termination_by ns => sizeOf ns

end

end BlockScript
