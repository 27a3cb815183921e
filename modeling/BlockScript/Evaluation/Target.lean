/-
BlockScript/Evaluation/Target.lean

The left side of an assignment.  A member target is a chain of member
expressions with identifiers at every place, and stands for the path of their
names.  The operator decides whether the binding is constant.
-/
import BlockScript.Failure
import BlockScript.Syntax.Node
import BlockScript.Text.Blank

namespace BlockScript

/-- Whether an assignment operator binds a constant: `:=` does not, and any
other text does if it holds an equals sign. -/
def bindsConstant (op : String) : Bool :=
  let op := strip op
  op != ":=" && op.toList.contains '='

namespace Node

/-- The names along a member target, found from the last to the first and put
in front of `tail`; `whole` is the text of the entire target. -/
def targetNames (whole : String) (tail : List String) : Node → Except Fault (List String)
  | ⟨"member_expression", _, [object, _, property], _, _⟩ =>
    if property.kind == "identifier" then object.targetNames whole (strip property.text :: tail)
    else .error (.invalidMemberName property.text whole)
  | ⟨kind, text, _, _, _⟩ =>
    if kind == "identifier" then .ok (strip text :: tail) else .error (.throughForm kind whole)

/-- The path that a target stands for, outermost name first. -/
def targetPath (target : Node) : Except Fault (List String) :=
  target.targetNames target.text []

end Node

end BlockScript
