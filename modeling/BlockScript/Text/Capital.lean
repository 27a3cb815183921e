/-
BlockScript/Text/Capital.lean

Upper case for names that are compared with ASCII names.  Characters whose
capitals are not ASCII stay as they are: no ASCII name holds them either way.
-/

namespace BlockScript

/-- Characters outside ASCII with capitals inside it. -/
def asciiCapitals : List (Char × String) :=
  [('ß', "SS"), ('ı', "I"), ('ſ', "S"), ('ﬀ', "FF"), ('ﬁ', "FI"), ('ﬂ', "FL"), ('ﬃ', "FFI"),
   ('ﬄ', "FFL"), ('ﬅ', "ST"), ('ﬆ', "ST")]

/-- Capitals of a character, as far as they are ASCII. -/
def capitals (c : Char) : List Char :=
  match asciiCapitals.lookup c with
  | some s => s.toList
  | none => [c.toUpper]

/-- A text in capitals. -/
def capitalize (s : String) : String :=
  String.ofList (s.toList.flatMap capitals)

/-- Equality up to the case of ASCII letters. -/
def equalIgnoringCase (s t : String) : Bool :=
  s.toList.map Char.toLower == t.toList.map Char.toLower

end BlockScript
