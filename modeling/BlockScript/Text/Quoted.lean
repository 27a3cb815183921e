/-
BlockScript/Text/Quoted.lean

Texts inside messages are shown in quotes, with escapes for the quote, the
backslash and every character that does not print.  Single quotes are used
unless the text holds a single quote and no double quote.
-/
import BlockScript.Text.Digit
import BlockScript.Text.Printable

namespace BlockScript

/-- The quote around texts in messages, as a rule. -/
def singleQuote : Char := '\x27'

/-- The quote around texts that hold a single one. -/
def doubleQuote : Char := '\x22'

/-- The character that begins an escape. -/
def backslash : Char := '\x5c'

/-- The quote that surrounds a text. -/
def chooseQuote (cs : List Char) : Char :=
  if cs.contains singleQuote && !cs.contains doubleQuote then doubleQuote else singleQuote

/-- Escape by code point, as short as the code point allows. -/
def escapeCode (c : Char) : List Char :=
  if c.toNat < 0x100 then backslash :: 'x' :: hexDigits 2 c.toNat
  else if c.toNat < 0x10000 then backslash :: 'u' :: hexDigits 4 c.toNat
  else backslash :: 'U' :: hexDigits 8 c.toNat

/-- One character as it stands between the quotes. -/
def escapeChar (quote c : Char) : List Char :=
  if c = quote || c = backslash then [backslash, c]
  else if c = '\n' then [backslash, 'n']
  else if c = '\r' then [backslash, 'r']
  else if c = '\t' then [backslash, 't']
  else if isPrintable c then [c]
  else escapeCode c

/-- A text in quotes. -/
def quoted (s : String) : String :=
  let quote := chooseQuote s.toList
  String.ofList (quote :: s.toList.flatMap (escapeChar quote) ++ [quote])

end BlockScript
