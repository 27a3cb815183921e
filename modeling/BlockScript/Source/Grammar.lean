/-
BlockScript/Source/Grammar.lean

From source text to trees.  Grammars live outside: a `Host` knows which of
them can be loaded and what they parse a text to.  A `Reader` loads each
grammar at most once and remembers it.
-/
import BlockScript.Evaluation.Run
import BlockScript.Source.Decode
import BlockScript.Syntax.Parsed

namespace BlockScript

/-- The grammars that can be loaded, and what a grammar makes of a text.  A name in
`grammars` is that of a module which can be imported and which is also a working
binding, one that gives a language.  Any other name is that of no module at all: a
module that can be imported but is no working binding is left out of account. -/
structure Host where
  grammars : List String
  parse : String → String → ParsedNode

/-- The grammars loaded so far and the texts parsed so far, oldest first, and
the events of loading. -/
structure Reader where
  loaded : Array String := #[]
  sources : Array String := #[]
  trace : Array Event := #[]
deriving Inhabited

/-- A computation with a reader. -/
abbrev Reading := EStateM Halt Reader

/-- The grammar that a request means: the one it names, or the one of the
settings if it names none. -/
def Settings.grammarFor (settings : Settings) : Option String → String
  | some name => if name = "" then settings.grammar else name
  | none => settings.grammar

namespace Reader

/-- A name with a leading dot is relative to the name of another grammar. -/
def isRelative (name : String) : Bool :=
  name.toList.head? == some '.'

/-- Loads a grammar unless it is loaded already, and gives its number in the
order of loading.  There is nothing that a relative name could be relative to,
so it is refused whatever can be loaded. -/
def load (host : Host) (name : String) : Reading Nat := fun r =>
  match r.loaded.idxOf? name with
  | some i => .ok i r
  | none =>
    if isRelative name then .error (.grammarRelative name) r
    else if host.grammars.contains name then
      .ok r.loaded.size
        { r with loaded := r.loaded.push name, trace := r.trace.push (.grammarLoaded name) }
    else .error (.grammarMissing name) r

/-- Parses a text. -/
def parseSource (host : Host) (name source : String) : Reading Node := do
  discard (load host name)
  modify fun r => { r with sources := r.sources.push source }
  match (host.parse name source).toNode? with
  | some tree => return tree
  | none => throw .undecodable

/-- Parses the content of a file, which is decoded before anything is
loaded. -/
def parseFile (host : Host) (name : String) (bytes : ByteArray) : Reading Node :=
  match decodeFile? bytes with
  | some source => parseSource host name source
  | none => throw .undecodable

/-- Runs what a reader parses against a root scope. -/
def run (settings : Settings) (root : ScopeId) (parsed : Reading Node) (heap : Heap) (r : Reader) :
    Outcome Value × Reader :=
  match parsed r with
  | .ok tree r => (runConfigured settings root tree heap, r)
  | .error halt r => (.error halt { heap }, r)

end Reader

end BlockScript
