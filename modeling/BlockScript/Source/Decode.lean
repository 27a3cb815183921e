/-
BlockScript/Source/Decode.lean

Source files are UTF-8 with any of the three line endings; a byte order mark
is an ordinary character.
-/

namespace BlockScript

/-- Turns `\r\n` and a lone `\r` into `\n`. -/
def unifyNewlines : List Char → List Char
  | [] => []
  | '\r' :: '\n' :: cs => '\n' :: unifyNewlines cs
  | c :: cs => (if c = '\r' then '\n' else c) :: unifyNewlines cs

/-- The text of a file, unless its bytes are not UTF-8. -/
def decodeFile? (bytes : ByteArray) : Option String :=
  (String.fromUTF8? bytes).map fun s => String.ofList (unifyNewlines s.toList)

end BlockScript
