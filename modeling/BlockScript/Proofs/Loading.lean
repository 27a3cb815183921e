/-
BlockScript/Proofs/Loading.lean

Grammars are loaded once.

Five kinds of requests share the grammars that are loaded: for a grammar itself,
to parse a text or a file, and to run one.  Each of them first settles which
grammar it means,

    the one it names  |  if it names none, that of the settings

and a file is decoded before its grammar is loaded.  The grammars that are loaded
are those of the requests that got as far, in the order in which they were first
asked for, and the number of a grammar is its place in this order.  A request that
fails before leaves everything as it was.
-/
import BlockScript.Proofs.Decoding
import Mathlib.Data.List.Induction

namespace BlockScript

/-! ### Loading a grammar -/

/-- The grammar can be imported under this name. -/
def Host.Imports (host : Host) (name : String) : Prop :=
  Reader.isRelative name = false ∧ name ∈ host.grammars

instance (host : Host) (name : String) : Decidable (host.Imports name) :=
  inferInstanceAs (Decidable (_ ∧ _))

namespace Reader

/-- Why a grammar that cannot be imported is refused. -/
def refusal (name : String) : Halt :=
  if isRelative name then .grammarRelative name else .grammarMissing name

/-- The reader with a grammar loaded, unless it is loaded already. -/
def holding (r : Reader) (name : String) : Reader :=
  if name ∈ r.loaded then r
  else { r with loaded := r.loaded.push name, trace := r.trace.push (.grammarLoaded name) }

variable {host : Host} {name : String} {r : Reader}

theorem idxOf?_eq_toList (xs : Array String) (name : String) :
    xs.idxOf? name = xs.toList.idxOf? name := by
  rw [← List.idxOf?_toArray, Array.toArray_toList]

theorem getElem?_of_idxOf? {xs : List String} {k : ℕ} (h : xs.idxOf? name = some k) :
    xs[k]? = some name := by
  obtain ⟨hk, hname, -⟩ := List.idxOf?_eq_some_iff.1 h
  rw [List.getElem?_eq_getElem hk, hname]

/-- A grammar that can be imported is loaded, and has a place from then on. -/
theorem load_of_imports (h : host.Imports name) (r : Reader) :
    ∃ k, load host name r = .ok k (r.holding name) ∧
      (r.holding name).loaded.toList[k]? = some name := by
  unfold load holding
  split
  next k hk =>
    have hmem : name ∈ r.loaded := by
      rw [← Decidable.not_not (p := name ∈ r.loaded), ← Array.idxOf?_eq_none_iff, hk]
      simp
    rw [idxOf?_eq_toList] at hk
    rw [if_pos hmem]
    exact ⟨k, rfl, getElem?_of_idxOf? hk⟩
  next hnew =>
    -- the new grammar comes last, so its place is the number of those before
    have hcontains : host.grammars.contains name = true := List.contains_iff_mem.2 h.2
    rw [Array.idxOf?_eq_none_iff] at hnew
    rw [if_neg hnew, h.1, hcontains]
    exact ⟨r.loaded.size, rfl, by simp⟩

/-- A grammar that cannot be imported is refused, and nothing changes. -/
theorem load_of_not_imports (hnew : name ∉ r.loaded) (h : ¬ host.Imports name) :
    load host name r = .error (refusal name) r := by
  rw [load, Array.idxOf?_eq_none_iff.2 hnew, refusal]
  dsimp only
  by_cases hrelative : isRelative name = true
  · rw [if_pos hrelative, if_pos hrelative]
  · have hmissing : host.grammars.contains name = false := by
      rw [List.contains_eq_mem, decide_eq_false_iff_not]
      exact fun hmem => h ⟨Bool.eq_false_of_not_eq_true hrelative, hmem⟩
    rw [if_neg hrelative, if_neg hrelative, hmissing]
    rfl

/-- No text is parsed without its grammar. -/
theorem parseSource_of_error {halt : Halt} (hload : load host name r = .error halt r)
    (source : String) : parseSource host name source r = .error halt r :=
  bind_of_error (discard_of_error hload)

/-- What is loaded can be imported, is there once, and was loaded once. -/
structure Consistent (host : Host) (r : Reader) : Prop where
  imports : ∀ name ∈ r.loaded, host.Imports name
  nodup : r.loaded.toList.Nodup
  trace_eq : r.trace.toList = r.loaded.toList.map .grammarLoaded

theorem Consistent.holding (hr : r.Consistent host) (h : host.Imports name) :
    (r.holding name).Consistent host := by
  unfold Reader.holding
  split
  next => exact hr
  next hnew =>
    refine ⟨fun k hk => ?_, ?_, ?_⟩
    · rcases Array.mem_push.1 hk with hk | rfl
      · exact hr.imports k hk
      · exact h
    · -- it is not loaded yet, so it is there once
      rw [Array.toList_push, List.nodup_append]
      refine ⟨hr.nodup, by simp, fun a ha b hb heq => hnew ?_⟩
      rw [← List.mem_singleton.1 hb, ← heq]
      exact Array.mem_toList_iff.1 ha
    · rw [Array.toList_push, Array.toList_push, List.map_append, hr.trace_eq]
      rfl

/-- A new grammar comes last. -/
theorem toList_holding (r : Reader) (name : String) : (r.holding name).loaded.toList =
    if name ∈ r.loaded.toList then r.loaded.toList else r.loaded.toList ++ [name] := by
  unfold Reader.holding
  simp only [Array.mem_toList_iff]
  split
  next => rfl
  next => exact Array.toList_push

end Reader

/-! ### Requests -/

instance (bytes : ByteArray) : Decidable (Utf8.WellFormed bytes) :=
  decidable_of_iff _ Utf8.wellFormed_iff.symm

/-- A file is decoded just if it is text. -/
theorem decodeFile?_eq_none_iff {bytes : ByteArray} :
    decodeFile? bytes = none ↔ ¬ Utf8.WellFormed bytes := by
  have htext : ParsedNode.text? (some bytes) = none ↔ _ := ParsedNode.text?_eq_none_iff
  rw [decodeFile?, Option.map_eq_none_iff]
  refine htext.trans ⟨?_, fun h => ⟨bytes, rfl, h⟩⟩
  rintro ⟨bs, heq, hbs⟩
  cases heq
  exact hbs

/-- A request to a reader.  One that names a grammar may leave the name out or empty. -/
inductive Request where
  | load (name : Option String)
  | parseSource (source : String) (name : Option String)
  | parseFile (bytes : ByteArray) (name : Option String)
  | eval (root : ScopeId) (source : String)
  | evalFile (root : ScopeId) (bytes : ByteArray)

/-- How a request is answered. -/
inductive Answer where
  | language (number : ℕ)
  | tree (tree : Node)
  | outcome (o : Outcome Value)
  | stopped (halt : Halt)

/-- What requests share: the grammars that are loaded, and the heap of the programs. -/
structure Session where
  reader : Reader := {}
  heap : Heap

/-- The heap that an evaluation leaves behind. -/
def Outcome.heap : Outcome Value → Heap
  | .ok _ m | .error _ m => m.heap

namespace Session

/-- Answers with what the reader gives. -/
def read {α : Type} (s : Session) (reading : Reading α) (answer : α → Answer) : Answer × Session :=
  match reading s.reader with
  | .ok a r => (answer a, { s with reader := r })
  | .error halt r => (.stopped halt, { s with reader := r })

/-- Answers with the outcome of running what the reader parses. -/
def run (s : Session) (settings : Settings) (root : ScopeId) (parsed : Reading Node) :
    Answer × Session :=
  let (o, r) := Reader.run settings root parsed s.heap s.reader
  (.outcome o, { reader := r, heap := o.heap })

end Session

namespace Request

variable (host : Host) (settings : Settings)

/-- Answers a request. -/
def perform (s : Session) : Request → Answer × Session
  | load name => s.read (Reader.load host (settings.grammarFor name)) .language
  | parseSource source name =>
    s.read (Reader.parseSource host (settings.grammarFor name) source) .tree
  | parseFile bytes name => s.read (Reader.parseFile host (settings.grammarFor name) bytes) .tree
  | eval root source => s.run settings root (Reader.parseSource host settings.grammar source)
  | evalFile root bytes => s.run settings root (Reader.parseFile host settings.grammar bytes)

/-- The grammar that a request means. -/
def grammar : Request → String
  | load name | parseSource _ name | parseFile _ name => settings.grammarFor name
  | eval _ _ | evalFile _ _ => settings.grammar

/-- The file is text, if the request is about one. -/
def IsReadable : Request → Prop
  | parseFile bytes _ | evalFile _ bytes => Utf8.WellFormed bytes
  | _ => True

instance : (request : Request) → Decidable request.IsReadable
  | parseFile bytes _ | evalFile _ bytes => inferInstanceAs (Decidable (Utf8.WellFormed bytes))
  | load _ | parseSource _ _ | eval _ _ => inferInstanceAs (Decidable True)

/-- The answer to a request that stops before anything is evaluated. -/
def stop (halt : Halt) (heap : Heap) : Request → Answer
  | eval _ _ | evalFile _ _ => .outcome (.error halt { heap })
  | _ => .stopped halt

/-- The answer to a request whose grammar is loaded, as the one with this number. -/
def answer (number : ℕ) (heap : Heap) : Request → Answer
  | load _ => .language number
  | parseSource source name => parsed (host.parse (settings.grammarFor name) source)
  | parseFile bytes name =>
    parsed (host.parse (settings.grammarFor name) ((decodeFile? bytes).getD ""))
  | eval root source => ran root (host.parse settings.grammar source)
  | evalFile root bytes => ran root (host.parse settings.grammar ((decodeFile? bytes).getD ""))
where
  parsed (p : ParsedNode) : Answer :=
    match p.toNode? with
    | some tree => .tree tree
    | none => .stopped .undecodable
  ran (root : ScopeId) (p : ParsedNode) : Answer :=
    match p.toNode? with
    | some tree => .outcome (runConfigured settings root tree heap)
    | none => .outcome (.error .undecodable { heap })

/-- The grammar that is loaded for a request, if the request gets as far. -/
def use? (request : Request) : Option String :=
  if request.IsReadable ∧ host.Imports (request.grammar settings) then
    some (request.grammar settings)
  else none

end Request

/-- The session behind some requests. -/
def Session.after (host : Host) (settings : Settings) (requests : List Request) (s : Session) :
    Session :=
  requests.foldl (fun s request => (request.perform host settings s).2) s

/-! ### One request -/

namespace Request

variable {host : Host} {settings : Settings} {request : Request} {s : Session}

/-- A file that is no text is refused before anything is loaded. -/
theorem perform_unreadable (h : ¬ request.IsReadable) :
    request.perform host settings s = (request.stop .undecodable s.heap, s) := by
  cases request with
  | parseFile bytes name =>
    simp only [perform, Session.read, Reader.parseFile, decodeFile?_eq_none_iff.2 h]
    rfl
  | evalFile root bytes =>
    simp only [perform, Session.run, Reader.run, Reader.parseFile, decodeFile?_eq_none_iff.2 h]
    rfl
  | _ => exact absurd trivial h

variable (host settings s) in
/-- A readable request reads a text, unless it asks for a grammar only. -/
theorem perform_cases (h : request.IsReadable) :
    (∃ name, request = .load name) ∨
    (∃ source, request.perform host settings s
        = s.read (Reader.parseSource host (request.grammar settings) source) .tree ∧
      (∀ halt heap, request.stop halt heap = .stopped halt) ∧
      ∀ k heap, request.answer host settings k heap
        = answer.parsed (host.parse (request.grammar settings) source)) ∨
    ∃ root source, request.perform host settings s
        = s.run settings root (Reader.parseSource host (request.grammar settings) source) ∧
      (∀ halt heap, request.stop halt heap = .outcome (.error halt { heap })) ∧
      ∀ k heap, request.answer host settings k heap
        = answer.ran settings heap root (host.parse (request.grammar settings) source) := by
  have hdecode : ∀ {bytes : ByteArray}, Utf8.WellFormed bytes →
      ∃ source, decodeFile? bytes = some source := fun hbytes =>
    Option.ne_none_iff_exists'.1 fun hnone => decodeFile?_eq_none_iff.1 hnone hbytes
  cases request with
  | load name => exact .inl ⟨name, rfl⟩
  | parseSource source name => exact .inr (.inl ⟨source, rfl, fun _ _ => rfl, fun _ _ => rfl⟩)
  | eval root source => exact .inr (.inr ⟨root, source, rfl, fun _ _ => rfl, fun _ _ => rfl⟩)
  | parseFile bytes name =>
    obtain ⟨source, hsource⟩ := hdecode h
    refine .inr (.inl ⟨source, ?_, fun _ _ => rfl, fun _ _ => ?_⟩)
    · rw [perform, Reader.parseFile, hsource]
      rfl
    · rw [answer, hsource]
      rfl
  | evalFile root bytes =>
    obtain ⟨source, hsource⟩ := hdecode h
    refine .inr (.inr ⟨root, source, ?_, fun _ _ => rfl, fun _ _ => ?_⟩)
    · rw [perform, Reader.parseFile, hsource]
      rfl
    · rw [answer, hsource]
      rfl

/-- A request for a grammar that cannot be imported is refused, and changes nothing. -/
theorem perform_refused (hs : s.reader.Consistent host) (hreadable : request.IsReadable)
    (h : ¬ host.Imports (request.grammar settings)) :
    request.perform host settings s
      = (request.stop (Reader.refusal (request.grammar settings)) s.heap, s) := by
  -- what cannot be imported is not loaded either, or the request would be answered from there
  have hnew : request.grammar settings ∉ s.reader.loaded := fun hmem => h (hs.imports _ hmem)
  have hload := Reader.load_of_not_imports hnew h
  rcases perform_cases host settings s hreadable with
    ⟨name, rfl⟩ | ⟨source, hperform, hstop, -⟩ | ⟨root, source, hperform, hstop, -⟩
  · rw [perform, Session.read, show Reader.load host (settings.grammarFor name) s.reader = _
      from hload]
    rfl
  · rw [hperform, hstop, Session.read, Reader.parseSource_of_error hload]
  · rw [hperform, hstop, Session.run, Reader.run, Reader.parseSource_of_error hload]
    rfl

/-- **A grammar that can be imported is loaded unless it is already.**  The request is
answered as if it had been. -/
theorem perform_loaded (hreadable : request.IsReadable)
    (h : host.Imports (request.grammar settings)) :
    ∃ k, (s.reader.holding (request.grammar settings)).loaded.toList[k]?
        = some (request.grammar settings) ∧
      (request.perform host settings s).1 = request.answer host settings k s.heap ∧
      (request.perform host settings s).2.reader.loaded
        = (s.reader.holding (request.grammar settings)).loaded ∧
      (request.perform host settings s).2.reader.trace
        = (s.reader.holding (request.grammar settings)).trace := by
  obtain ⟨k, hload, hk⟩ := Reader.load_of_imports h s.reader
  refine ⟨k, hk, ?_⟩
  rcases perform_cases host settings s hreadable with
    ⟨name, rfl⟩ | ⟨source, hperform, -, hanswer⟩ | ⟨root, source, hperform, -, hanswer⟩
  · rw [perform, Session.read, show Reader.load host (settings.grammarFor name) s.reader = _
      from hload]
    exact ⟨rfl, rfl, rfl⟩
  · rw [hperform, hanswer, Session.read, Reader.parseSource_of_load hload, answer.parsed]
    cases (host.parse (request.grammar settings) source).toNode? <;> exact ⟨rfl, rfl, rfl⟩
  · rw [hperform, hanswer, Session.run, Reader.run, Reader.parseSource_of_load hload, answer.ran]
    cases (host.parse (request.grammar settings) source).toNode? <;> exact ⟨rfl, rfl, rfl⟩

variable (settings request) in
/-- What one request does to the grammars that are loaded. -/
theorem loaded_perform (hs : s.reader.Consistent host) :
    (request.perform host settings s).2.reader.Consistent host ∧
    (request.perform host settings s).2.reader.loaded.toList =
      match request.use? host settings with
      | none => s.reader.loaded.toList
      | some name => if name ∈ s.reader.loaded.toList then s.reader.loaded.toList
          else s.reader.loaded.toList ++ [name] := by
  unfold use?
  by_cases hreadable : request.IsReadable
  · by_cases himports : host.Imports (request.grammar settings)
    · obtain ⟨k, -, -, hloaded, htrace⟩ := perform_loaded (s := s) hreadable himports
      obtain ⟨himported, hnodup, htraced⟩ := hs.holding himports
      rw [if_pos ⟨hreadable, himports⟩, hloaded, Reader.toList_holding]
      refine ⟨⟨?_, ?_, ?_⟩, rfl⟩
      · rwa [hloaded]
      · rwa [hloaded]
      · rwa [hloaded, htrace]
    · rw [perform_refused hs hreadable himports, if_neg fun hboth => himports hboth.2]
      exact ⟨hs, rfl⟩
  · rw [perform_unreadable hreadable, if_neg fun hboth => hreadable hboth.1]
    exact ⟨hs, rfl⟩

end Request

/-! ### Many requests -/

namespace Session

variable {host : Host} {settings : Settings}

theorem after_append (xs ys : List Request) (s : Session) :
    after host settings (xs ++ ys) s = after host settings ys (after host settings xs s) :=
  List.foldl_append

theorem after_concat (xs : List Request) (request : Request) (s : Session) :
    after host settings (xs ++ [request]) s
      = (request.perform host settings (after host settings xs s)).2 :=
  after_append xs [request] s

/-- Requests keep the reader consistent. -/
theorem after_consistent {s : Session} (hs : s.reader.Consistent host) (requests : List Request) :
    (after host settings requests s).reader.Consistent host := by
  induction requests generalizing s with
  | nil => exact hs
  | cons request requests ih => exact ih (Request.loaded_perform settings request hs).1

variable (settings) in
/-- Nothing that is loaded is lost or moved. -/
theorem prefix_after {s : Session} (hs : s.reader.Consistent host) (requests : List Request) :
    s.reader.loaded.toList <+: (after host settings requests s).reader.loaded.toList := by
  induction requests generalizing s with
  | nil => exact List.prefix_rfl
  | cons request requests ih =>
    obtain ⟨hconsistent, hloaded⟩ := Request.loaded_perform settings request hs
    refine List.IsPrefix.trans ?_ (ih hconsistent)
    rw [hloaded]
    split
    · exact List.prefix_rfl
    · split
      · exact List.prefix_rfl
      · exact List.prefix_append _ _

theorem fresh_consistent (host : Host) : ({} : Reader).Consistent host where
  imports _ hmem := absurd hmem (Array.not_mem_empty _)
  nodup := List.nodup_nil
  trace_eq := rfl

/-- A name at the end counts unless it stands before. -/
theorem eraseDups_concat (names : List String) (name : String) :
    (names ++ [name]).eraseDups
      = if name ∈ names.eraseDups then names.eraseDups else names.eraseDups ++ [name] := by
  rw [List.eraseDups_append]
  by_cases hmem : name ∈ names
  · rw [if_pos (List.mem_eraseDups.2 hmem)]
    simp [List.removeAll, hmem]
  · rw [if_neg fun h => hmem (List.mem_eraseDups.1 h)]
    simp [List.removeAll, hmem, List.eraseDups_cons]

/-- **What is loaded, in the order of first use.** -/
theorem loaded_after (heap : Heap) (requests : List Request) :
    (after host settings requests { heap }).reader.loaded.toList
      = (requests.filterMap (Request.use? host settings)).eraseDups := by
  -- from the back, as the last request is the one that may add a grammar
  induction requests using List.reverseRecOn with
  | nil => rfl
  | append_singleton requests request ih =>
    have hconsistent : (after host settings requests { heap }).reader.Consistent host :=
      after_consistent (fresh_consistent host) requests
    rw [after_concat, (Request.loaded_perform settings request hconsistent).2, ih,
      List.filterMap_append]
    cases huse : request.use? host settings with
    | none => simp [huse]
    | some name =>
      rw [List.filterMap_cons_some huse, List.filterMap_nil, eraseDups_concat]

end Session

/-- The number of a grammar is its place, so it has only one. -/
theorem Reader.Consistent.number_eq {host : Host} {r : Reader} (hr : r.Consistent host)
    {name : String} {j k : ℕ} (hj : r.loaded.toList[j]? = some name)
    (hk : r.loaded.toList[k]? = some name) : j = k := by
  obtain ⟨hlt, -⟩ := List.getElem?_eq_some_iff.1 hj
  exact (List.getElem?_inj hlt hr.nodup).1 (hj.trans hk.symm)

/-- A request for a grammar that is loaded is answered with its number. -/
theorem Request.perform_load {host : Host} {settings : Settings} {s : Session}
    (hs : s.reader.Consistent host) {name : Option String} {k : ℕ}
    (hk : s.reader.loaded.toList[k]? = some (settings.grammarFor name)) :
    ((Request.load name).perform host settings s).1 = .language k := by
  have hmem : settings.grammarFor name ∈ s.reader.loaded.toList := List.mem_of_getElem? hk
  have himports : host.Imports ((Request.load name).grammar settings) :=
    hs.imports _ (Array.mem_toList_iff.1 hmem)
  have hreadable : (Request.load name).IsReadable := trivial
  obtain ⟨j, hj, hanswer, -⟩ := perform_loaded (s := s) hreadable himports
  have hheld : (Request.load name).grammar settings ∈ s.reader.loaded.toList := hmem
  rw [Reader.toList_holding, if_pos hheld] at hj
  rw [hanswer, hs.number_eq hk hj]
  rfl

/-- The answer to a request depends on the grammars that are loaded and on the heap, and on
nothing else that went before. -/
theorem Request.perform_eq_of_loaded {host : Host} {settings : Settings} {s s' : Session}
    (hs : s.reader.Consistent host) (hs' : s'.reader.Consistent host)
    (hloaded : s'.reader.loaded = s.reader.loaded) (hheap : s'.heap = s.heap) (request : Request) :
    (request.perform host settings s').1 = (request.perform host settings s).1 := by
  by_cases hreadable : request.IsReadable
  · by_cases himports : host.Imports (request.grammar settings)
    · obtain ⟨k, hk, hanswer, -⟩ := perform_loaded (s := s) hreadable himports
      obtain ⟨k', hk', hanswer', -⟩ := perform_loaded (s := s') hreadable himports
      rw [Reader.toList_holding, hloaded, ← Reader.toList_holding] at hk'
      rw [hanswer, hanswer', hheap, (hs.holding himports).number_eq hk hk']
    · rw [perform_refused hs hreadable himports, perform_refused hs' hreadable himports, hheap]
  · rw [perform_unreadable hreadable, perform_unreadable hreadable, hheap]

/-- **Every grammar is loaded at most once.**  Behind any requests, the grammars that are
loaded are those of the requests that could be read and whose grammar could be imported,
each once and in the order of first use, and loading is all that was logged.  The next
request fails and changes nothing if its file is no text, or else if its grammar cannot be
imported: the grammar is missing, or its name is a relative one.  Otherwise its grammar has
a number, which every later request for it is answered with.  And what went before makes no
difference to the answer but by the grammars that are loaded and the heap. -/
theorem grammars_loaded_once (host : Host) (settings : Settings) (heap : Heap)
    (before : List Request) (request : Request) :
    let s := Session.after host settings before { heap }
    let name := request.grammar settings
    (s.reader.loaded.toList = (before.filterMap (Request.use? host settings)).eraseDups ∧
      s.reader.loaded.toList.Nodup ∧
      s.reader.trace.toList = s.reader.loaded.toList.map .grammarLoaded) ∧
    (¬ request.IsReadable →
      request.perform host settings s = (request.stop .undecodable s.heap, s)) ∧
    (request.IsReadable → ¬ host.Imports name →
      request.perform host settings s = (request.stop
        (if Reader.isRelative name then .grammarRelative name else .grammarMissing name)
        s.heap, s)) ∧
    (request.IsReadable → host.Imports name → ∃ k,
      (request.perform host settings s).1 = request.answer host settings k s.heap ∧
      ∀ later, ∃ s', s' = Session.after host settings (before ++ request :: later) { heap } ∧
        s'.reader.loaded.toList[k]? = some name ∧
        ∀ again, settings.grammarFor again = name →
          ((Request.load again).perform host settings s').1 = .language k) ∧
    ∀ before' heap' s', s' = Session.after host settings before' { heap := heap' } →
      s'.reader.loaded = s.reader.loaded → s'.heap = s.heap →
      (request.perform host settings s').1 = (request.perform host settings s).1 := by
  intro s name
  have hconsistent : ∀ requests heap,
      (Session.after host settings requests { heap }).reader.Consistent host := fun requests heap =>
    Session.after_consistent (Session.fresh_consistent host) requests
  have hs : s.reader.Consistent host := hconsistent before heap
  refine ⟨⟨Session.loaded_after heap before, hs.nodup, hs.trace_eq⟩, Request.perform_unreadable,
    Request.perform_refused hs, fun hreadable himports => ?_, ?_⟩
  · obtain ⟨k, hk, hanswer, hloaded, -⟩ := Request.perform_loaded (s := s) hreadable himports
    refine ⟨k, hanswer, fun later => ⟨_, rfl, ?_⟩⟩
    -- what comes later keeps the place, so the place settles the number
    have hplace : (Session.after host settings (before ++ request :: later)
        { heap }).reader.loaded.toList[k]? = some name := by
      have hgrows :=
        Session.prefix_after settings (Request.loaded_perform settings request hs).1 later
      rw [hloaded] at hgrows
      obtain ⟨new, hnew⟩ := hgrows
      obtain ⟨hlt, -⟩ := List.getElem?_eq_some_iff.1 hk
      rw [Session.after_append]
      show (Session.after host settings later
        (request.perform host settings s).2).reader.loaded.toList[k]? = _
      rw [← hnew, List.getElem?_append_left hlt, hk]
    exact ⟨hplace, fun again hagain => Request.perform_load (hconsistent _ heap) (hagain ▸ hplace)⟩
  · rintro before' heap' s' rfl hloaded hheap
    exact Request.perform_eq_of_loaded hs (hconsistent before' heap') hloaded hheap request

/-- An empty name means the grammar of the settings, and a grammar that is missing does not
come in between. -/
theorem grammars_loaded_once_by_empty_name :
    let host : Host := { grammars := ["g1", "g2"], parse := fun _ _ => { kind := "block" } }
    let settings : Settings := { entries := [("SCRIBL_GRAMMAR", " g2 ")] }
    let before : List Request :=
      [.load (some "g1"), .parseSource "x" (some "g3"), .load (some "g1")]
    let s := Session.after host settings before { heap := .initial }
    (Request.load (some "")).IsReadable ∧ host.Imports "g2" ∧
      s.reader.loaded.toList = ["g1"] ∧ s.reader.trace.toList = [.grammarLoaded "g1"] ∧
      ∃ k, ((Request.load (some "")).perform host settings s).1 = .language k ∧
        ((Request.load (some "g2")).perform host settings (Session.after host settings
          (before ++ [.load (some "")]) { heap := .initial })).1 = .language k := by
  intro host settings before s
  have himports : host.Imports "g2" := by decide
  have hempty : (Request.load (some "")).grammar settings = "g2" := by decide
  have huses : (before.filterMap (Request.use? host settings)).eraseDups = ["g1"] := by decide
  obtain ⟨⟨hloaded, -, htrace⟩, -, -, hanswered, -⟩ :=
    grammars_loaded_once host settings .initial before (.load (some ""))
  have hnames : s.reader.loaded.toList = ["g1"] := hloaded.trans huses
  rw [hempty] at hanswered
  obtain ⟨k, hanswer, hagain⟩ := hanswered trivial himports
  obtain ⟨s', rfl, -, hlater⟩ := hagain []
  refine ⟨trivial, himports, hnames, ?_, k, hanswer, hlater (some "g2") rfl⟩
  rw [htrace, hnames]
  rfl

/-- A relative name cannot be imported, and is not reported as that of a missing grammar. -/
theorem relative_name_not_missing :
    let host : Host := { grammars := ["g1"], parse := fun _ _ => { kind := "block" } }
    let s : Session := { heap := .initial }
    ¬ host.Imports ".g" ∧
      (Request.load (some ".g")).perform host {} s = (.stopped (.grammarRelative ".g"), s) ∧
      Answer.stopped (.grammarRelative ".g") ≠ .stopped (.grammarMissing ".g") := by
  intro host s
  have hunknown : ¬ host.Imports ".g" := by decide
  have hrefused : (Request.load (some ".g")).perform host {} s
      = (.stopped (.grammarRelative ".g"), s) :=
    Request.perform_refused (Session.fresh_consistent host) trivial hunknown
  refine ⟨hunknown, hrefused, fun h => ?_⟩
  cases h

end BlockScript
