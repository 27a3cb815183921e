/-
BlockScript/Scope/Data.lean

Plain data: what is reported about bindings.  A record keeps its fields in
order.

`Data.json` is the text of plain data on the command line, two spaces to the
level, in ASCII only.
-/
import BlockScript.Number.Shortest
import BlockScript.Text.Digit
import BlockScript.Text.Quoted

namespace BlockScript

/-- Plain data. -/
inductive Data where
  | null
  | bool (b : Bool)
  | int (n : Int)
  | number (x : Float)
  | text (s : String)
  | list (items : List Data)
  | record (fields : List (String × Data))
deriving Repr, Inhabited

namespace Data

/-! ### Text -/

/-- Escape of one 16-bit unit. -/
def unitEscape (n : Nat) : List Char :=
  backslash :: 'u' :: hexDigits 4 n

/-- A character inside a JSON string.  Outside the printable ASCII characters
it is escaped, beyond 16 bits as a pair of surrogates. -/
def jsonChar (c : Char) : List Char :=
  if c = doubleQuote || c = backslash then [backslash, c]
  else if c = '\n' then [backslash, 'n']
  else if c = '\r' then [backslash, 'r']
  else if c = '\t' then [backslash, 't']
  else if c = '\x08' then [backslash, 'b']
  else if c = '\x0c' then [backslash, 'f']
  else if ' ' ≤ c && c ≤ '~' then [c]
  else if c.toNat < 0x10000 then unitEscape c.toNat
  else
    let high := (c.toNat - 0x10000) / 0x400
    let low := (c.toNat - 0x10000) % 0x400
    unitEscape (0xd800 + high) ++ unitEscape (0xdc00 + low)

/-- A JSON string with its quotes. -/
def jsonString (s : String) : String :=
  String.ofList (doubleQuote :: s.toList.flatMap jsonChar ++ [doubleQuote])

/-- Spelling of the numbers that no decimal denotes. -/
def jsonSpelling : Spelling := ⟨"Infinity", "NaN"⟩

/-- A line break and the blanks in front of the next line. -/
def lineBreak (level : Nat) : String :=
  "\n" ++ String.ofList (List.replicate (2 * level) ' ')

/-- Items between brackets, one to a line; nothing between them if there are
none. -/
def bracketed (opening closing : String) (level : Nat) (items : List String) : String :=
  if items.isEmpty then opening ++ closing
  else
    opening ++ lineBreak (level + 1) ++ ("," ++ lineBreak (level + 1)).intercalate items ++
      lineBreak level ++ closing

mutual

/-- JSON text of plain data that starts at a level of nesting. -/
def jsonAt (level : Nat) : Data → String
  | null => "null"
  | bool b => if b then "true" else "false"
  | int n => toString n
  | number x => jsonSpelling.write x
  | text s => jsonString s
  | list items => bracketed "[" "]" level (jsonItems (level + 1) items)
  | record fields => bracketed "\x7b" "\x7d" level (jsonFields (level + 1) fields)

/-- JSON texts of the items of a list. -/
def jsonItems (level : Nat) : List Data → List String
  | [] => []
  | d :: ds => jsonAt level d :: jsonItems level ds

/-- JSON texts of the fields of a record. -/
def jsonFields (level : Nat) : List (String × Data) → List String
  | [] => []
  | (name, d) :: fields => (jsonString name ++ ": " ++ jsonAt level d) :: jsonFields level fields

end

/-- JSON text of plain data. -/
def json (d : Data) : String :=
  jsonAt 0 d

end Data

end BlockScript
