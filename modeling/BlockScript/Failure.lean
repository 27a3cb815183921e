/-
BlockScript/Failure.lean

What can go wrong, as causes.  A `Fault` is soft: it is recorded at the node
where it arises, that node evaluates to void, and evaluation goes on.  A
`Halt` is hard: it ends the evaluation.

The wording of every message is here and nowhere else.
-/
import BlockScript.Scope.Value
import BlockScript.Settings

namespace BlockScript

/-! ### Soft faults -/

/-- A fault that evaluation recovers from. -/
inductive Fault where
  | mismatch (op : String) (kinds : List Kind)
  | memberOfNonBlock (kind : Kind)
  | unknownUnary (op : String)
  | unknownBinary (op : String)
  | unknownForm (kind : String)
  | invalidPath (segments : List String)
  | vacantMember (name : String)
  | throughNonBlock (name : String) (kind : Kind)
  | invalidMemberName (name target : String)
  | throughForm (kind target : String)
  | badLiteral (text : String)
  | wrongArity (kind parts : String) (count : Nat)
deriving Repr, DecidableEq

namespace Fault

/-- The class under which a fault is reported. -/
def label : Fault → String
  | mismatch .. | memberOfNonBlock .. => "ScriblTypeMismatch"
  | unknownUnary .. | unknownBinary .. => "ScriblUnhandledOperator"
  | unknownForm .. => "ScriblUnhandledNodeKind"
  | invalidPath .. | vacantMember .. | throughNonBlock .. | invalidMemberName ..
  | throughForm .. => "ScriblUnresolvedMember"
  | badLiteral .. => "ScriblLiteralParseError"
  | wrongArity .. => "ScriblArityError"

/-- The message of a fault, without the class and the place. -/
def message : Fault → String
  | mismatch op kinds =>
    "Mismatched types in '" ++ op ++ "': [" ++ ", ".intercalate (kinds.map Kind.name) ++ "]"
  | memberOfNonBlock kind => "Left hand side of member expression is not a block: " ++ kind.name
  | unknownUnary op => "Unhandled unary operator: " ++ quoted op
  | unknownBinary op => "Unhandled binary operator: " ++ quoted op
  | unknownForm kind => "Unhandled node kind: " ++ kind
  | invalidPath segments => "Invalid member path: " ++ quoted (".".intercalate segments)
  | vacantMember name => "Cannot assign to nonexistent member '" ++ name ++ "' of a constant block"
  | throughNonBlock name kind =>
    "Cannot assign through '" ++ name ++ "': it is a " ++ kind.name ++ ", not a block"
  | invalidMemberName name target =>
    "Invalid member name " ++ quoted name ++ " in " ++ quoted target
  | throughForm kind target => "Cannot assign through " ++ kind ++ " in " ++ quoted target
  | badLiteral text => "Invalid number literal: " ++ quoted text
  | wrongArity kind parts count =>
    kind ++ " requires " ++ parts ++ ", got " ++ toString count ++ " children"

end Fault

/-! ### Hard stops -/

/-- A cause that ends an evaluation. -/
inductive Halt where
  | syntaxError (report : String)
  | grammarMissing (name : String)
  | grammarRelative (name : String)
  | redeclared (name : String)
  | tooDeep (limit : Int) (kind : String)
  | integerOverflow
  | undecodable
  | badSetting (error : SettingError)
deriving Repr, DecidableEq

namespace Halt

/-- The message with which an evaluation ends. -/
def message : Halt → String
  | syntaxError report => "Parse errors detected:\n" ++ report
  | grammarMissing name =>
    "Failed to load the Scribl grammar from module '" ++ name ++ "'. " ++
      "Build and install the tree-sitter-scribl Python binding, or point SCRIBL_GRAMMAR at it."
  | grammarRelative name =>
    "the 'package' argument is required to perform a relative import for " ++ quoted name
  | redeclared name => "Variable '" ++ name ++ "' is constant and cannot be reassigned"
  | tooDeep limit kind =>
    "Syntax tree nests deeper than " ++ toString limit ++ " levels at " ++ kind
  | integerOverflow => "int too large to convert to float"
  | undecodable => "text is not UTF-8"
  | badSetting error => error.message

/-- Whether the command line reports the cause; the others escape it. -/
def isReported : Halt → Bool
  | grammarRelative .. | integerOverflow | undecodable => false
  | _ => true

end Halt

/-- Anything that can go wrong in a single step. -/
inductive Failure where
  | soft (fault : Fault)
  | hard (halt : Halt)
deriving Repr, DecidableEq

end BlockScript
