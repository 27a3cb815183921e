/-
BlockScript/Scope/Value.lean

Values of the language.  Blocks, functions and iterators are references into
a heap: a block is the scope it wraps, a function or an iterator is the entry
that was made for it, so two of them are equal only if they are the same.

No value is ever converted to another kind.
-/

namespace BlockScript

/-- Reference to a scope. -/
abbrev ScopeId := Nat

/-- The kinds of values. -/
inductive Kind where
  | void
  | number
  | string
  | boolean
  | block
  | function
  | iterator
deriving Repr, DecidableEq, Inhabited

/-- The word for a kind in messages. -/
def Kind.name : Kind → String
  | void => "void"
  | number => "number"
  | string => "string"
  | boolean => "boolean"
  | block => "block"
  | function => "function"
  | iterator => "iterator"

/-- A value. -/
inductive Value where
  | void
  | number (x : Float)
  | string (s : String)
  | boolean (b : Bool)
  | block (scope : ScopeId)
  | function (id : Nat)
  | iterator (id : Nat)
deriving Repr, DecidableEq, Inhabited

namespace Value

/-- The kind of a value. -/
def kind : Value → Kind
  | void => .void
  | number _ => .number
  | string _ => .string
  | boolean _ => .boolean
  | block _ => .block
  | function _ => .function
  | iterator _ => .iterator

/-- Equality of the language.  Numbers compare as floats: the two zeros are
equal, and the NaN differs from itself. -/
def equals : Value → Value → Bool
  | void, void => true
  | number x, number y => x == y
  | string s, string t => s == t
  | boolean b, boolean c => b == c
  | block e, block f => e == f
  | function i, function j => i == j
  | iterator i, iterator j => i == j
  | _, _ => false

end Value

/-! ### Collections without duplicates -/

/-- A value together with its identity: two items with the same identity are
one and the same. -/
structure Item where
  identity : Nat
  value : Value
deriving Repr, DecidableEq

namespace Item

/-- Whether two items count once: they are the same, or equal values. -/
def same (a b : Item) : Bool :=
  a.identity == b.identity || a.value.equals b.value

/-- Adds an item unless it is there already. -/
def insert (kept : List Item) (a : Item) : List Item :=
  if kept.any (·.same a) then kept else kept ++ [a]

/-- The items left when each is counted once. -/
def distinct (items : List Item) : List Item :=
  items.foldl insert []

end Item

end BlockScript
