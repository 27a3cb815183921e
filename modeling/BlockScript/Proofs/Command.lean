/-
BlockScript/Proofs/Command.lean

How the command ends, and what it has printed by then.

Six things can stand between a file and its result, and they are met in this
order: the bytes may be no text, the grammar may not load, the texts of the
tree may be no texts, the tree may hold a syntax error, the nesting limit may
be malformed, and the run may stop:

    bytes → source → grammar → tree → clean tree → limit → value

The first of them decides everything.  `Progress` says how far a file gets,
`Reaches` under which conditions, and `Progress.report` what the command does
then.
-/
import BlockScript.Command.Report
import BlockScript.Proofs.Reports

namespace BlockScript

/-! ### The conditions -/

namespace Node

mutual

/-- A tree has an error if one of its nodes is faulty, at any depth and named or not. -/
theorem hasError_eq_any : ∀ n : Node, n.hasError = n.nodes.any isFaulty
  | ⟨kind, text, children, named, missing⟩ => by
    rw [hasError, nodes, List.any_cons, anyError_eq_any_nodes children]
    rfl

theorem anyError_eq_any_nodes : ∀ ns : List Node, anyError ns = (nodesAll ns).any isFaulty
  | [] => rfl
  | n :: ns => by
    rw [anyError, nodesAll, List.any_append, hasError_eq_any n, anyError_eq_any_nodes ns]

end

/-- No node of the tree is an error or missing. -/
def Clean (tree : Node) : Prop :=
  ∀ n ∈ tree.nodes, n.kind ≠ "ERROR" ∧ n.missing = false

theorem clean_iff {tree : Node} : tree.Clean ↔ tree.hasError = false := by
  rw [hasError_eq_any, List.any_eq_false]
  simp [Clean, isFaulty]

end Node

/-- The nesting limit that the settings ask for: the default if the variable is
blank, otherwise the positive integer that it holds. -/
def Settings.Limits (settings : Settings) (limit : Int) : Prop :=
  let raw := (settings.get? "SCRIBL_MAX_DEPTH").getD ""
  (strip raw = "" ∧ limit = settings.defaultMaxDepth) ∨
    (strip raw ≠ "" ∧ integer? (strip raw).toList = some limit ∧ 0 < limit)

/-- The limit that is asked for is the one that is read from the settings. -/
theorem Settings.limits_iff {settings : Settings} {limit : Int} :
    settings.Limits limit ↔ settings.maxDepth = .ok limit := by
  unfold Limits maxDepth positive
  dsimp only [depthVariable]
  -- the three ways in which the variable is read
  by_cases hblank : strip ((settings.get? "SCRIBL_MAX_DEPTH").getD "") = ""
  · simp [hblank, eq_comm]
  · rw [if_neg hblank]
    split
    next hnone => simp [hblank, hnone]
    next n hn =>
      split
      next hpos => grind
      next hneg => grind

namespace Surroundings

variable (s : Surroundings) (bytes : ByteArray)

/-- The grammar of the settings can be loaded. -/
def Loads : Prop :=
  Reader.isRelative s.settings.grammar = false ∧ s.settings.grammar ∈ s.host.grammars

instance : Decidable s.Loads :=
  inferInstanceAs (Decidable (_ ∧ _))

/-- The file is text, and the grammar makes a tree of it. -/
def Parses (tree : Node) : Prop :=
  ∃ source, decodeFile? bytes = some source ∧ s.Loads ∧
    (s.host.parse s.settings.grammar source).toNode? = some tree

end Surroundings

/-! ### How far a file gets -/

/-- How far a file gets: what stands in its way first, or its result. -/
inductive Progress where
  | undecoded
  | unloaded
  | unparsed
  | refused (tree : Node)
  | unlimited (tree : Node) (error : SettingError)
  | halted (tree : Node) (halt : Halt) (m : Machine)
  | finished (tree : Node) (v : Value) (m : Machine)

/-- When a file gets that far. -/
def Surroundings.Reaches (s : Surroundings) (bytes : ByteArray) : Progress → Prop
  | .undecoded => decodeFile? bytes = none
  | .unloaded => ∃ source, decodeFile? bytes = some source ∧ ¬ s.Loads
  | .unparsed => ∃ source, decodeFile? bytes = some source ∧ s.Loads ∧
      (s.host.parse s.settings.grammar source).toNode? = none
  | .refused tree => s.Parses bytes tree ∧ ¬ tree.Clean
  | .unlimited tree error => s.Parses bytes tree ∧ tree.Clean ∧
      (∀ limit, ¬ s.settings.Limits limit) ∧ s.settings.maxDepth = .error error
  | .halted tree halt m => s.Parses bytes tree ∧ tree.Clean ∧
      ∃ limit, s.settings.Limits limit ∧ run limit 0 tree .initial = .error halt m
  | .finished tree v m => s.Parses bytes tree ∧ tree.Clean ∧
      ∃ limit, s.settings.Limits limit ∧ run limit 0 tree .initial = .ok v m

/-- The sections of the output. -/
inductive Section where
  | parsing (path : String)
  | tree (tree : Node)
  | executing
  | result (bindings : Data)

/-- The lines of a section, as they are printed. -/
@[simp] def Section.text : Section → String
  | parsing path => printed ["Parsing " ++ displayPath path ++ "..."]
  | tree t => printed ["Parse tree:", t.sexp, ""]
  | executing => printed ["Executing..."]
  | result bindings => printed ["", "Result:", bindings.json]

namespace Progress

/-- The sections that are printed on the way. -/
@[simp] def sections (path : String) : Progress → List Section
  | undecoded | unloaded | unparsed | refused _ => [.parsing path]
  | unlimited tree _ => [.parsing path, .tree tree]
  | halted tree _ _ => [.parsing path, .tree tree, .executing]
  | finished tree v m =>
    [.parsing path, .tree tree, .executing, .result (programBindings m.heap 0 v)]

/-- How the command ends. -/
@[simp] def ending (grammar : String) : Progress → Ending
  | undecoded | unparsed => .escape .undecodable
  | unloaded =>
    -- a grammar that is merely missing is reported
    if Reader.isRelative grammar then .escape (.grammarRelative grammar) else .exit 1
  | refused _ | unlimited _ _ => .exit 1
  | halted _ halt _ => if halt = .integerOverflow then .escape halt else .exit 1
  | finished _ _ _ => .exit 0

/-- Only a file with a result ends in exit code zero. -/
theorem ending_eq_zero_iff {grammar : String} {p : Progress} :
    p.ending grammar = .exit 0 ↔ ∃ tree v m, p = .finished tree v m := by
  cases p <;> simp [ending] <;> split <;> simp

theorem ending_cases (p : Progress) (grammar : String) :
    p.ending grammar = .exit 0 ∨ p.ending grammar = .exit 1 ∨
      ∃ halt, p.ending grammar = .escape halt := by
  cases p <;> simp [ending] <;> split <;> simp_all

/-- What is not handled: bytes that are no text, a relative name for a grammar,
and an integer that is too large. -/
theorem ending_eq_escape_iff {grammar : String} {p : Progress} {halt : Halt} :
    p.ending grammar = .escape halt ↔
      (halt = .undecodable ∧ (p = .undecoded ∨ p = .unparsed)) ∨
      (halt = .grammarRelative grammar ∧ Reader.isRelative grammar = true ∧ p = .unloaded) ∨
      (halt = .integerOverflow ∧ ∃ tree m, p = .halted tree .integerOverflow m) := by
  constructor
  · intro h
    cases p with
    | undecoded | unparsed =>
      cases h
      simp
    | unloaded =>
      rw [ending] at h
      split at h
      next hrelative =>
        cases h
        exact .inr (.inl ⟨rfl, hrelative, rfl⟩)
      next => cases h
    | halted tree cause m =>
      rw [ending] at h
      split at h
      next hoverflow =>
        cases h
        exact .inr (.inr ⟨hoverflow, tree, m, by rw [hoverflow]⟩)
      next => cases h
    | _ => cases h
  · -- each cause gives its ending
    rintro (⟨rfl, rfl | rfl⟩ | ⟨rfl, hrelative, rfl⟩ | ⟨rfl, tree, m, rfl⟩)
    · rfl
    · rfl
    · exact if_pos hrelative
    · rfl

/-- The machine behind the evaluation, if there was one. -/
@[simp] def machine? : Progress → Option Machine
  | halted _ _ m | finished _ _ m => some m
  | _ => none

/-- Whether the grammar was loaded. -/
@[simp] def isLoaded : Progress → Bool
  | undecoded | unloaded => false
  | _ => true

/-- The events on the way: that of loading, and those of the evaluation. -/
@[simp] def events (grammar : String) (p : Progress) : List Event :=
  (if p.isLoaded then [.grammarLoaded grammar] else []) ++
    (p.machine?.map (·.trace.toList)).getD []

/-- What is said about the obstacle; nothing about one that escapes. -/
@[simp] def complaint (grammar : String) : Progress → List String
  | undecoded | unparsed | finished _ _ _ => []
  | unloaded =>
    if Reader.isRelative grammar then [] else ["Error: " ++ (Halt.grammarMissing grammar).message]
  | refused tree => ["Parse errors detected:", tree.sexp]
  | unlimited _ error => ["Error: " ++ error.message]
  | halted _ halt _ => if halt = .integerOverflow then [] else ["Error: " ++ halt.message]

/-- What the command does with a file that gets that far. -/
def report (level : Nat) (grammar path : String) (p : Progress) : Report where
  ending := p.ending grammar
  output := String.join ((p.sections path).map Section.text)
  errors := lines (Event.log level (p.events grammar)) ++ printed (p.complaint grammar)

end Progress

@[simp] theorem lines_log_nil (level : Nat) : lines (Event.log level []) = "" := rfl

@[simp] theorem printed_nil : printed [] = "" := rfl

/-- The log of the evaluation follows that of loading. -/
theorem lines_log_append (level : Nat) (xs ys : List Event) :
    lines (Event.log level (xs ++ ys))
      = lines (Event.log level xs) ++ lines (Event.log level ys) := by
  unfold Event.log lines
  rw [List.filter_append, List.filterMap_append, List.map_append, String.join_append]

/-! ### Reading the file -/

namespace Surroundings

variable {s : Surroundings} {bytes : ByteArray} {source : String}

/-- A file is decoded before anything is loaded. -/
theorem parseFile_undecoded (hdecode : decodeFile? bytes = none) :
    Reader.parseFile s.host s.settings.grammar bytes {} = .error .undecodable {} := by
  rw [Reader.parseFile, hdecode]
  rfl

/-- A grammar that is not loaded is missing, or has a relative name; the reader stays as it
was. -/
theorem parseFile_unloaded (hdecode : decodeFile? bytes = some source) (hloads : ¬ s.Loads) :
    Reader.parseFile s.host s.settings.grammar bytes {}
      = .error (if Reader.isRelative s.settings.grammar then .grammarRelative s.settings.grammar
          else .grammarMissing s.settings.grammar) {} := by
  have hload : Reader.load s.host s.settings.grammar {}
      = .error (if Reader.isRelative s.settings.grammar then .grammarRelative s.settings.grammar
          else .grammarMissing s.settings.grammar) {} := by
    have hnew : ({} : Reader).loaded.idxOf? s.settings.grammar = none := by simp
    rw [Reader.load, hnew]
    dsimp only
    split
    next => rfl
    next hrelative =>
      -- a name that is not relative is loaded if it is there
      have hmissing : s.settings.grammar ∉ s.host.grammars := fun hmem =>
        hloads ⟨Bool.eq_false_of_not_eq_true hrelative, hmem⟩
      simp [hmissing]
  rw [Reader.parseFile, hdecode]
  exact bind_of_error (discard_of_error hload)

/-- The reader behind the only file that it has parsed. -/
def readerBehind (s : Surroundings) (source : String) : Reader where
  loaded := #[s.settings.grammar]
  sources := #[source]
  trace := #[.grammarLoaded s.settings.grammar]

/-- What is decoded and loaded is parsed; the reader has loaded the grammar even if the
texts of the tree are no texts. -/
theorem parseFile_loaded (hdecode : decodeFile? bytes = some source) (hloads : s.Loads) :
    Reader.parseFile s.host s.settings.grammar bytes {}
      = match (s.host.parse s.settings.grammar source).toNode? with
        | some tree => .ok tree (s.readerBehind source)
        | none => .error .undecodable (s.readerBehind source) := by
  have hload : Reader.load s.host s.settings.grammar {}
      = .ok 0
          { loaded := #[s.settings.grammar], trace := #[.grammarLoaded s.settings.grammar] } := by
    simp [Reader.load, hloads.1, hloads.2]
  rw [Reader.parseFile, hdecode]
  refine (bind_of_ok (discard_of_ok hload)).trans ?_
  rcases (s.host.parse s.settings.grammar source).toNode? with - | tree <;> rfl

end Surroundings

/-! ### The way of a file -/

/-- An evaluation stops for a cause that is reported, unless it is an integer
that is too large. -/
theorem isReported_of_run {limit : Int} {root : ScopeId} {tree : Node} {h : Heap} {halt : Halt}
    {m : Machine} (hclean : tree.hasError = false) (hr : run limit root tree h = .error halt m) :
    halt.isReported = decide (halt ≠ .integerOverflow) := by
  -- a clean tree is not refused, so the cause is one of the evaluation
  rw [run, if_neg (by simp [hclean])] at hr
  split at hr
  next => cases hr
  next cause m' hprogram =>
    cases hr
    rcases evalProgram_halt hprogram with hnode | ⟨kind, rfl⟩
    · cases halt with
      | redeclared | integerOverflow => rfl
      | _ => exact hnode.elim
    · rfl

namespace Surroundings

variable {s : Surroundings} {bytes : ByteArray}

/-- Every file gets somewhere. -/
theorem exists_reaches (s : Surroundings) (bytes : ByteArray) : ∃ p, s.Reaches bytes p := by
  -- the obstacles in the order in which they are met
  rcases hdecode : decodeFile? bytes with - | source
  · exact ⟨.undecoded, hdecode⟩
  by_cases hloads : s.Loads
  swap
  · exact ⟨.unloaded, source, hdecode, hloads⟩
  rcases htree : (s.host.parse s.settings.grammar source).toNode? with - | tree
  · exact ⟨.unparsed, source, hdecode, hloads, htree⟩
  have hparses : s.Parses bytes tree := ⟨source, hdecode, hloads, htree⟩
  by_cases hclean : tree.Clean
  swap
  · exact ⟨.refused tree, hparses, hclean⟩
  rcases hlimit : s.settings.maxDepth with error | limit
  · refine ⟨.unlimited tree error, hparses, hclean, fun limit hlimits => ?_, hlimit⟩
    rw [Settings.limits_iff, hlimit] at hlimits
    cases hlimits
  have hlimits := Settings.limits_iff.2 hlimit
  rcases hr : run limit 0 tree .initial with ⟨v, m⟩ | ⟨halt, m⟩
  · exact ⟨.finished tree v m, hparses, hclean, limit, hlimits, hr⟩
  · exact ⟨.halted tree halt m, hparses, hclean, limit, hlimits, hr⟩

theorem stopped_of_reported {halt : Halt} (h : halt.isReported = true) (output log : String) :
    Report.stopped halt output log
      = ⟨.exit 1, output, log ++ printed ["Error: " ++ halt.message]⟩ :=
  if_pos h

theorem stopped_of_escaped {halt : Halt} (h : halt.isReported = false) (output log : String) :
    Report.stopped halt output log = ⟨.escape halt, output, log⟩ :=
  if_neg (by simp [h])

/-- The announcement of the file and the event of loading come first, whatever the tree is.
-/
theorem process_of_parses {tree : Node} (hparses : s.Parses bytes tree) (level : Nat)
    (path : String) :
    Report.process s level path bytes
      = if tree.hasError then
          ⟨.exit 1, (Section.parsing path).text,
            lines (Event.log level [.grammarLoaded s.settings.grammar]) ++
              printed ["Parse errors detected:", tree.sexp]⟩
        else Report.execute s.settings level tree
          ((Section.parsing path).text ++ (Section.tree tree).text)
          (lines (Event.log level [.grammarLoaded s.settings.grammar])) := by
  obtain ⟨source, hdecode, hloads, htree⟩ := hparses
  rw [Report.process, parseFile_loaded hdecode hloads, htree]
  rfl

theorem process_of_clean {tree : Node} (hparses : s.Parses bytes tree) (hclean : tree.Clean)
    (level : Nat) (path : String) :
    Report.process s level path bytes
      = Report.execute s.settings level tree
          ((Section.parsing path).text ++ (Section.tree tree).text)
          (lines (Event.log level [.grammarLoaded s.settings.grammar])) := by
  rw [process_of_parses hparses, if_neg (by simp [Node.clean_iff.1 hclean])]

theorem execute_of_error {settings : Settings} {error : SettingError}
    (hlimit : settings.maxDepth = .error error) (level : Nat) (tree : Node) (output log : String) :
    Report.execute settings level tree output log
      = ⟨.exit 1, output, log ++ printed ["Error: " ++ error.message]⟩ := by
  rw [Report.execute, hlimit]
  exact stopped_of_reported rfl output log

/-- Execution is announced before it starts, and the log is complete even if it stops. -/
theorem execute_of_limits {settings : Settings} {limit : Int} (hlimits : settings.Limits limit)
    (level : Nat) (tree : Node) (output log : String) :
    Report.execute settings level tree output log
      = match run limit 0 tree .initial with
        | .error halt m => Report.stopped halt (output ++ Section.executing.text)
            (log ++ lines (Event.log level m.trace.toList))
        | .ok v m => ⟨.exit 0,
            output ++ Section.executing.text ++ (Section.result (programBindings m.heap 0 v)).text,
            log ++ lines (Event.log level m.trace.toList)⟩ := by
  rw [Report.execute, Settings.limits_iff.1 hlimits]
  rfl

/-- **The command does what the progress of its file says.** -/
theorem process_eq_report {p : Progress} (hp : s.Reaches bytes p) (level : Nat) (path : String) :
    Report.process s level path bytes = p.report level s.settings.grammar path := by
  cases p with
  | undecoded =>
    rw [Report.process, parseFile_undecoded hp]
    refine (stopped_of_escaped rfl _ _).trans ?_
    simp [Progress.report]
  | unloaded =>
    obtain ⟨source, hdecode, hloads⟩ := hp
    rw [Report.process, parseFile_unloaded hdecode hloads]
    by_cases hrelative : Reader.isRelative s.settings.grammar = true
    · rw [if_pos hrelative]
      refine (stopped_of_escaped rfl _ _).trans ?_
      simp [Progress.report, hrelative]
    · rw [if_neg hrelative]
      refine (stopped_of_reported rfl _ _).trans ?_
      simp [Progress.report, hrelative]
  | unparsed =>
    obtain ⟨source, hdecode, hloads, htree⟩ := hp
    rw [Report.process, parseFile_loaded hdecode hloads, htree]
    refine (stopped_of_escaped rfl _ _).trans ?_
    simp [Progress.report, readerBehind]
  | refused tree =>
    obtain ⟨hparses, hdirty⟩ := hp
    rw [Node.clean_iff, Bool.not_eq_false] at hdirty
    rw [process_of_parses hparses, if_pos hdirty]
    simp [Progress.report]
  | unlimited tree error =>
    obtain ⟨hparses, hclean, -, hlimit⟩ := hp
    rw [process_of_clean hparses hclean, execute_of_error hlimit]
    simp [Progress.report]
  | halted tree halt m =>
    obtain ⟨hparses, hclean, limit, hlimits, hr⟩ := hp
    have hreported := isReported_of_run (Node.clean_iff.1 hclean) hr
    have hlog := lines_log_append level [.grammarLoaded s.settings.grammar] m.trace.toList
    rw [process_of_clean hparses hclean, execute_of_limits hlimits, hr]
    -- of all that stops a run, only this one is not reported
    by_cases hoverflow : halt = .integerOverflow
    · rw [decide_eq_false fun h => h hoverflow] at hreported
      refine (stopped_of_escaped hreported _ _).trans ?_
      simp [Progress.report, hoverflow, ← hlog, String.append_assoc]
    · rw [decide_eq_true hoverflow] at hreported
      refine (stopped_of_reported hreported _ _).trans ?_
      simp [Progress.report, hoverflow, ← hlog, String.append_assoc]
  | finished tree v m =>
    obtain ⟨hparses, hclean, limit, hlimits, hr⟩ := hp
    have hlog := lines_log_append level [.grammarLoaded s.settings.grammar] m.trace.toList
    rw [process_of_clean hparses hclean, execute_of_limits hlimits, hr]
    simp [Progress.report, ← hlog, String.append_assoc]

end Surroundings

/-- A command line that asks for a file that is there processes it. -/
theorem Report.ofCommand_eq_process {s : Surroundings} {args : List String} {options : Options}
    {bytes : ByteArray} (hargs : Options.parse? args = some options)
    (hfile : s.file? options.path = some bytes) :
    Report.ofCommand s args
      = Report.process s (options.level.getD s.settings.logLevel) options.path bytes := by
  rw [ofCommand, hargs]
  dsimp only
  rw [hfile]

/-- **The first obstacle decides how the command ends.**  The exit code is zero
if there is none, however many soft faults the run recovers from.  Otherwise it
is one, except for bytes that are no text, a relative name for a grammar and an
integer that is too large, which escape.  Printed are the sections up to the
obstacle: the result comes with exit code zero and only then, and nothing is
evaluated unless execution was announced. -/
theorem command_outcome {s : Surroundings} {args : List String} {options : Options}
    {bytes : ByteArray} (hargs : Options.parse? args = some options)
    (hfile : s.file? options.path = some bytes) :
    ((Report.ofCommand s args).ending = .exit 0 ↔
      ∃ source tree limit v m, decodeFile? bytes = some source ∧ s.Loads ∧
        (s.host.parse s.settings.grammar source).toNode? = some tree ∧ tree.Clean ∧
        s.settings.Limits limit ∧ run limit 0 tree .initial = .ok v m) ∧
    (∃ p, s.Reaches bytes p) ∧
    ∀ p, s.Reaches bytes p →
      Report.ofCommand s args
        = p.report (options.level.getD s.settings.logLevel) s.settings.grammar options.path ∧
      (∀ halt, (Report.ofCommand s args).ending = .escape halt ↔
        (halt = .undecodable ∧ (p = .undecoded ∨ p = .unparsed)) ∨
        (halt = .grammarRelative s.settings.grammar ∧
          Reader.isRelative s.settings.grammar = true ∧ p = .unloaded) ∨
        (halt = .integerOverflow ∧ ∃ tree m, p = .halted tree .integerOverflow m)) ∧
      ((∀ halt, (Report.ofCommand s args).ending ≠ .escape halt) →
        (Report.ofCommand s args).ending ≠ .exit 0 → (Report.ofCommand s args).ending = .exit 1) ∧
      ((Report.ofCommand s args).ending = .exit 0 ↔
        ∃ bindings, .result bindings ∈ p.sections options.path) ∧
      (p.machine?.isSome = true ↔ .executing ∈ p.sections options.path) := by
  have hreport : ∀ p, s.Reaches bytes p → Report.ofCommand s args
      = p.report (options.level.getD s.settings.logLevel) s.settings.grammar options.path := by
    intro p hp
    rw [Report.ofCommand_eq_process hargs hfile, s.process_eq_report hp]
  have hending : ∀ p, s.Reaches bytes p →
      (Report.ofCommand s args).ending = p.ending s.settings.grammar := by
    intro p hp
    rw [hreport p hp]
    rfl
  -- exit code zero determines the progress, so its conditions can be read off
  obtain ⟨p, hp⟩ := s.exists_reaches bytes
  refine ⟨⟨fun hzero => ?_, ?_⟩, ⟨p, hp⟩, fun p hp => ⟨hreport p hp, ?_, ?_, ?_, ?_⟩⟩
  · rw [hending p hp, Progress.ending_eq_zero_iff] at hzero
    obtain ⟨tree, v, m, rfl⟩ := hzero
    obtain ⟨⟨source, hdecode, hloads, htree⟩, hclean, limit, hlimits, hr⟩ := hp
    exact ⟨source, tree, limit, v, m, hdecode, hloads, htree, hclean, hlimits, hr⟩
  · rintro ⟨source, tree, limit, v, m, hdecode, hloads, htree, hclean, hlimits, hr⟩
    exact hending (.finished tree v m)
      ⟨⟨source, hdecode, hloads, htree⟩, hclean, limit, hlimits, hr⟩
  · intro halt
    rw [hending p hp, Progress.ending_eq_escape_iff]
  · rw [hending p hp]
    intro hescape hzero
    -- there is no exit code but zero and one
    rcases p.ending_cases s.settings.grammar with h | h | ⟨halt, h⟩
    · exact absurd h hzero
    · exact h
    · exact absurd h (hescape halt)
  · rw [hending p hp, Progress.ending_eq_zero_iff]
    cases p <;> simp
  · cases p <;> simp

/-- A node of an unknown kind is a soft fault: the file still has a result. -/
theorem command_outcome_despite_fault :
    let unknown : ParsedNode := { kind := "puzzle" }
    let tree : ParsedNode := { kind := "block"
                               children := [{ kind := "statement", children := [unknown] }] }
    let s : Surroundings :=
      { settings := {}, host := { grammars := ["tree_sitter_scribl"], parse := fun _ _ => tree }
        file? := fun _ => some .empty }
    let args := ["prog", "--log-level", "error"]
    Options.parse? args = some ⟨"prog", some 40⟩ ∧ s.file? "prog" = some .empty ∧
      (Report.ofCommand s args).ending = .exit 0 := by
  intro unknown tree s args
  have hargs : Options.parse? args = some ⟨"prog", some 40⟩ := by decide
  have hfile : s.file? "prog" = some .empty := rfl
  refine ⟨hargs, hfile, (command_outcome hargs hfile).1.2 ?_⟩
  let leaf : Node := { kind := "puzzle" }
  let statement : Node := { kind := "statement", children := [leaf] }
  let program : Node := { kind := "block", children := [statement] }
  have hloads : s.Loads := by decide
  have hclean : program.Clean := Node.clean_iff.2 (by decide)
  have hlimits : s.settings.Limits 400 := .inl (by decide)
  let start : Machine := { heap := .initial }
  have hleaf : eval 400 0 leaf (start.enter statement) = .ok .void _ :=
    eval_leaf (by decide) (by decide) (by decide)
  have hstatement : eval 400 0 statement start = .ok .void _ :=
    eval_of_operand (by decide) rfl hleaf
  have hstatements : evalAll 400 0 program.operands start = .ok [.void] _ :=
    evalAll_cons_of_ok_ok hstatement evalAll_nil
  have hprogram := run_block (show program.form? = some .block from rfl) (by decide) 400 0 .initial
  rw [hstatements] at hprogram
  exact ⟨"", program, 400, .block 0, _, by decide, hloads, rfl, hclean, hlimits, hprogram⟩

/-- A relative name for a grammar cannot be loaded, and the command does not
report it: it ends by the cause itself. -/
theorem relative_grammar_escapes :
    let s : Surroundings :=
      { settings := { entries := [("SCRIBL_GRAMMAR", ".g")] }
        host := { grammars := [], parse := fun _ _ => { kind := "block" } }
        file? := fun _ => some .empty }
    Options.parse? ["prog.scribl"] = some ⟨"prog.scribl", none⟩ ∧
      s.file? "prog.scribl" = some .empty ∧ decodeFile? .empty = some "" ∧ ¬ s.Loads ∧
      (Report.ofCommand s ["prog.scribl"]).ending = .escape (.grammarRelative ".g") := by
  intro s
  have hargs : Options.parse? ["prog.scribl"] = some ⟨"prog.scribl", none⟩ := by decide
  have hfile : s.file? "prog.scribl" = some .empty := rfl
  have hdecode : decodeFile? .empty = some "" := by decide
  have hloads : ¬ s.Loads := by decide
  refine ⟨hargs, hfile, hdecode, hloads, ?_⟩
  have hreaches : s.Reaches .empty .unloaded := ⟨"", hdecode, hloads⟩
  rw [Report.ofCommand_eq_process hargs hfile, s.process_eq_report hreaches]
  decide

end BlockScript
