/-
BlockScript/Proofs/Skeleton.lean

Reading a symbolic expression back.

The text of a tree shows its skeleton, the tree of the named nodes with their
kinds and marks.  Skeleton and text determine each other as long as the kinds
are names, which have neither a space nor a parenthesis in them.  `MISSING` may
well be a name; what follows it tells whether it is one or the mark:

    (MISSING (number))     a node of kind MISSING with a child
    (MISSING number)       a missing node of kind number

The reader goes through the text from the back.  It keeps what it has read since
the last parenthesis, and the trees it has read behind that, level by level:

    (statement (identi│fier) (number))

    run      fier
    level    none              children of the identifier
    outer    [number], none    children of the statement; trees beside it

At a closing parenthesis a new level begins.  At an opening one the run is the
head of a node, and the level its children.
-/
import BlockScript.Proofs.Visibility

namespace BlockScript

/-- What the symbolic expression shows of a tree. -/
structure Skeleton where
  kind : String
  missing : Bool
  children : List Skeleton
deriving Repr, Inhabited

/-- Whether a kind can be told from what surrounds it in a symbolic expression. -/
def isName (kind : String) : Bool :=
  kind != "" && kind.toList.all fun c => !([' ', '(', ')'].contains c)

theorem isName_iff {kind : String} :
    isName kind = true ↔ kind ≠ "" ∧ ∀ c ∈ kind.toList, c ≠ ' ' ∧ c ≠ '(' ∧ c ≠ ')' := by
  simp [isName]

/-- A head runs from one parenthesis to the next. -/
theorem parenthesis_not_mem_headText {kind : String} (hkind : isName kind = true) (missing : Bool) :
    ∀ c ∈ headText missing kind, c ≠ '(' ∧ c ≠ ')' := by
  refine List.forall_mem_append.2 ⟨?_, fun c hc => ((isName_iff.1 hkind).2 c hc).2⟩
  cases missing with
  | false => exact List.forall_mem_nil _
  | true => simp

namespace Skeleton

/-! ### Skeletons and their texts -/

mutual

/-- The text of a skeleton. -/
def text : Skeleton → List Char
  | ⟨kind, missing, children⟩ => '(' :: (headText missing kind ++ (texts children ++ [')']))

/-- The texts of skeletons, each after a space. -/
def texts : List Skeleton → List Char
  | [] => []
  | t :: ts => ' ' :: (t.text ++ texts ts)

end

mutual

/-- The kinds in a skeleton. -/
def kinds : Skeleton → List String
  | ⟨kind, _, children⟩ => kind :: kindsAll children

/-- The kinds in skeletons. -/
def kindsAll : List Skeleton → List String
  | [] => []
  | t :: ts => t.kinds ++ kindsAll ts

end

/-- The kinds in a skeleton are names. -/
def WellNamed (t : Skeleton) : Prop :=
  ∀ kind ∈ t.kinds, isName kind = true

end Skeleton

namespace Node

mutual

/-- The root with its named children, and so on below them. -/
def skeleton : Node → Skeleton
  | ⟨kind, _, children, _, missing⟩ => ⟨kind, missing, skeletons children⟩

/-- The skeletons of the named trees. -/
def skeletons : List Node → List Skeleton
  | [] => []
  | n :: ns => if n.named then n.skeleton :: skeletons ns else skeletons ns

end

mutual

/-- A tree shows its skeleton and nothing else. -/
theorem toList_sexp_eq_text : ∀ n : Node, n.sexp.toList = n.skeleton.text
  | ⟨kind, text, children, named, missing⟩ => by
    rw [toList_sexp, tail, toList_sexps_eq_texts children]
    rfl

/-- Trees that are not named are not shown. -/
theorem toList_sexps_eq_texts : ∀ ns : List Node,
    (sexps ns).toList = Skeleton.texts (skeletons ns)
  | [] => rfl
  | n :: ns => by
    rw [toList_sexps_cons, skeletons, toList_sexps_eq_texts ns]
    split
    · rw [toList_sexp_eq_text n]
      rfl
    · rfl

end

mutual

/-- The kinds in a skeleton are those of the nodes that are shown. -/
theorem kinds_skeleton : ∀ n : Node, n.skeleton.kinds = n.shown.map (·.kind)
  | ⟨kind, text, children, named, missing⟩ => by
    rw [skeleton, Skeleton.kinds, kindsAll_skeletons children]
    rfl

theorem kindsAll_skeletons : ∀ ns : List Node,
    Skeleton.kindsAll (skeletons ns) = (shownAll ns).map (·.kind)
  | [] => rfl
  | n :: ns => by
    rw [skeletons, shownAll, List.map_append, ← kindsAll_skeletons ns]
    split
    · rw [Skeleton.kindsAll, kinds_skeleton n]
    · rfl

end

theorem wellNamed_skeleton {n : Node} (hn : ∀ k ∈ n.shown, isName k.kind = true) :
    n.skeleton.WellNamed := by
  intro kind hkind
  rw [kinds_skeleton, List.mem_map] at hkind
  obtain ⟨k, hk, rfl⟩ := hkind
  exact hn k hk

end Node

namespace Skeleton

/-! ### The reader -/

/-- What stands in front of the trees of one level: a space, if there are any. -/
def gap (level : List Skeleton) : List Char :=
  if level.isEmpty then [] else [' ']

/-- The mark and the kind of a node whose children are known, from all that stands in
front of these. -/
def head? (run : List Char) (children : List Skeleton) : Option (Bool × String) :=
  let name := if children.isEmpty then run else run.dropLast
  let missing := "MISSING ".toList.isPrefixOf name
  let kind := String.ofList (if missing then name.drop 8 else name)
  if isName kind && run == headText missing kind ++ gap children then some (missing, kind) else none

/-- The state of the reader: what it has read since the last parenthesis, the trees behind
it on the same level, and those further out. -/
structure Scan where
  run : List Char := []
  level : List Skeleton := []
  outer : List (List Skeleton) := []

/-- Reads the character in front. -/
def Scan.step (c : Char) (s : Scan) : Option Scan :=
  if c = ')' then
    if s.run = gap s.level then some { outer := s.level :: s.outer } else none
  else if c = '(' then
    match head? s.run s.level, s.outer with
    | some (missing, kind), siblings :: outer =>
      some { level := ⟨kind, missing, s.level⟩ :: siblings, outer }
    | _, _ => none
  else some { s with run := c :: s.run }

/-- Reads the characters in front, from the last to the first. -/
def scan (cs : List Char) (s : Option Scan) : Option Scan :=
  cs.foldr (fun c s => s.bind (Scan.step c)) s

/-- The skeleton that a text shows. -/
def read? (text : String) : Option Skeleton :=
  match scan text.toList (some {}) with
  | some ⟨[], [t], []⟩ => some t
  | _ => none

theorem scan_append (cs ds : List Char) (s : Option Scan) :
    scan (cs ++ ds) s = scan cs (scan ds s) :=
  List.foldr_append

theorem scan_cons (c : Char) (cs : List Char) (s : Option Scan) :
    scan (c :: cs) s = (scan cs s).bind (Scan.step c) :=
  rfl

/-! ### What was written is read -/

/-- A name has no mark in front. -/
theorem isPrefixOf_headText {kind : String} (hkind : isName kind = true) (missing : Bool) :
    "MISSING ".toList.isPrefixOf (headText missing kind) = missing := by
  cases missing with
  | true => exact List.isPrefixOf_iff_prefix.2 (List.prefix_append _ _)
  | false =>
    refine Bool.eq_false_of_not_eq_true fun h => ?_
    have hspace : ' ' ∈ kind.toList := (List.isPrefixOf_iff_prefix.1 h).subset (by decide)
    exact ((isName_iff.1 hkind).2 _ hspace).1 rfl

/-- A head is read as its mark and its kind. -/
theorem head?_headText {kind : String} (hkind : isName kind = true) (missing : Bool)
    (children : List Skeleton) :
    head? (headText missing kind ++ gap children) children = some (missing, kind) := by
  -- the gap is there just if there are children, so it can be taken off again
  have hname : (if children.isEmpty then headText missing kind ++ gap children
      else (headText missing kind ++ gap children).dropLast) = headText missing kind := by
    cases children with
    | nil => exact List.append_nil _
    | cons t ts => exact List.dropLast_concat
  have hdrop : (if missing then (headText missing kind).drop 8 else headText missing kind)
      = kind.toList := by
    cases missing <;> rfl
  unfold head?
  dsimp only
  rw [hname, isPrefixOf_headText hkind, hdrop, String.ofList_toList, hkind, beq_self_eq_true]
  rfl

/-- Without parentheses, the run just grows. -/
theorem scan_of_no_parenthesis {cs : List Char} (hcs : ∀ c ∈ cs, c ≠ '(' ∧ c ≠ ')') (s : Scan) :
    scan cs (some s) = some { s with run := cs ++ s.run } := by
  induction cs with
  | nil => rfl
  | cons c cs ih =>
    obtain ⟨⟨hopening, hclosing⟩, hcs⟩ := List.forall_mem_cons.1 hcs
    rw [scan_cons, ih hcs, Option.bind_some, Scan.step, if_neg hclosing, if_neg hopening]
    rfl

mutual

/-- **A tree is read from its text.**  It joins the trees behind it. -/
theorem scan_text : ∀ (t : Skeleton), t.WellNamed → ∀ level outer,
    scan t.text (some ⟨gap level, level, outer⟩) = some ⟨[], t :: level, outer⟩
  | ⟨kind, missing, children⟩, ht, level, outer => by
    have hkind : isName kind = true := ht kind List.mem_cons_self
    have hchildren : ∀ k ∈ kindsAll children, isName k = true := fun k hk => ht k (.tail _ hk)
    -- from the back: the end, the children, the head
    have hend : scan [')'] (some ⟨gap level, level, outer⟩) = some ⟨gap [], [], level :: outer⟩ :=
      if_pos rfl
    rw [text, scan_cons, scan_append, scan_append, hend, scan_texts children hchildren,
      scan_of_no_parenthesis (parenthesis_not_mem_headText hkind missing), List.append_nil]
    simp only [Option.bind_some, Scan.step, head?_headText hkind]
    rfl

/-- Trees are read from their texts, the last one first. -/
theorem scan_texts : ∀ (ts : List Skeleton), (∀ k ∈ kindsAll ts, isName k = true) →
    ∀ level outer, scan (texts ts) (some ⟨gap level, level, outer⟩)
      = some ⟨gap (ts ++ level), ts ++ level, outer⟩
  | [], _, _, _ => rfl
  | t :: ts, hts, level, outer => by
    rw [kindsAll, List.forall_mem_append] at hts
    rw [texts, scan_cons, scan_append, scan_texts ts hts.2, scan_text t hts.1]
    rfl

end

/-! ### What is read was written -/

/-- What is read as a head is one. -/
theorem head?_eq_some {run : List Char} {children : List Skeleton} {missing : Bool} {kind : String}
    (h : head? run children = some (missing, kind)) :
    isName kind = true ∧ run = headText missing kind ++ gap children := by
  unfold head? at h
  dsimp only at h
  rw [Option.ite_none_right_eq_some, Bool.and_eq_true, beq_iff_eq] at h
  obtain ⟨hcheck, heq⟩ := h
  cases heq
  exact hcheck

theorem texts_eq (level : List Skeleton) : texts level = gap level ++ (texts level).tail := by
  cases level <;> rfl

/-- What stands behind a level whose end was read. -/
def behind : List (List Skeleton) → List Char
  | [] => []
  | level :: outer => ')' :: (texts level ++ behind outer)

namespace Scan

/-- The text that the reader has read. -/
def consumed (s : Scan) : List Char :=
  s.run ++ ((texts s.level).tail ++ behind s.outer)

/-- The kinds in the trees that the reader has read. -/
def kinds (s : Scan) : List String :=
  kindsAll s.level ++ s.outer.flatMap kindsAll

/-- What one step of the reader can do. -/
theorem step_cases {c : Char} {s s' : Scan} (h : step c s = some s') :
    (c = ')' ∧ s.run = gap s.level ∧ s' = { outer := s.level :: s.outer }) ∨
    (c = '(' ∧ ∃ missing kind siblings outer, isName kind = true ∧
      s.run = headText missing kind ++ gap s.level ∧ s.outer = siblings :: outer ∧
      s' = { level := ⟨kind, missing, s.level⟩ :: siblings, outer }) ∨
    s' = { s with run := c :: s.run } := by
  unfold step at h
  split at h
  next hc =>
    split at h
    next hrun => exact .inl ⟨hc, hrun, (Option.some.inj h).symm⟩
    next => cases h
  next =>
    split at h
    next hc =>
      split at h
      next missing kind siblings outer hhead houter =>
        obtain ⟨hkind, hrun⟩ := head?_eq_some hhead
        exact .inr (.inl ⟨hc, missing, kind, siblings, outer, hkind, hrun, houter,
          (Option.some.inj h).symm⟩)
      next => cases h
    next => exact .inr (.inr (Option.some.inj h).symm)

/-- One step accounts for one character. -/
theorem consumed_step {c : Char} {s s' : Scan} (h : step c s = some s') :
    s'.consumed = c :: s.consumed := by
  rcases step_cases h with
    ⟨rfl, hrun, rfl⟩ | ⟨rfl, missing, kind, siblings, outer, -, hrun, houter, rfl⟩ | rfl
  · show ')' :: (texts s.level ++ behind s.outer) = _
    rw [consumed, hrun, ← List.append_assoc, ← texts_eq]
  · -- the run was the head, with the gap to the first child behind it
    show '(' :: (headText missing kind ++ (texts s.level ++ [')'])) ++ texts siblings ++
      behind outer = _
    rw [consumed, hrun, houter, behind, List.append_assoc (headText _ _),
      ← List.append_assoc (gap _), ← texts_eq]
    simp only [List.cons_append, List.append_assoc, List.nil_append]
  · rfl

/-- Only names are taken for kinds. -/
theorem kinds_step {c : Char} {s s' : Scan} (h : step c s = some s')
    (hs : ∀ kind ∈ s.kinds, isName kind = true) : ∀ kind ∈ s'.kinds, isName kind = true := by
  rcases step_cases h with
    ⟨-, -, rfl⟩ | ⟨-, missing, kind, siblings, outer, hkind, -, houter, rfl⟩ | rfl
  · exact hs
  · rw [kinds, houter, List.flatMap_cons] at hs
    simp only [kinds, kindsAll, Skeleton.kinds, List.forall_mem_append,
      List.forall_mem_cons] at hs ⊢
    exact ⟨⟨⟨hkind, hs.1⟩, hs.2.1⟩, hs.2.2⟩
  · exact hs

end Scan

/-- What has been read is the text, and the kinds in it are names. -/
theorem scan_eq_some {cs : List Char} {s s' : Scan} (h : scan cs (some s) = some s')
    (hs : ∀ kind ∈ s.kinds, isName kind = true) :
    s'.consumed = cs ++ s.consumed ∧ ∀ kind ∈ s'.kinds, isName kind = true := by
  -- from the back: the last characters have been read when the first one is
  induction cs generalizing s' with
  | nil =>
    cases h
    exact ⟨rfl, hs⟩
  | cons c cs ih =>
    rw [scan_cons, Option.bind_eq_some_iff] at h
    obtain ⟨s'', hscan, hstep⟩ := h
    obtain ⟨hconsumed, hkinds⟩ := ih hscan
    exact ⟨by rw [Scan.consumed_step hstep, hconsumed]; rfl, Scan.kinds_step hstep hkinds⟩

/-- **Reading accepts exactly what writing produces.** -/
theorem read?_eq_some_iff {text : String} {t : Skeleton} :
    read? text = some t ↔ t.WellNamed ∧ text.toList = t.text := by
  unfold read?
  constructor
  · intro h
    split at h
    next t' hscan =>
      -- at the end nothing is left over, so the text is that of the tree
      cases h
      obtain ⟨hconsumed, hkinds⟩ := scan_eq_some hscan (List.forall_mem_nil _)
      simp only [Scan.consumed, texts, behind, List.tail_cons, List.append_nil, List.nil_append,
        List.tail_nil] at hconsumed
      simp only [Scan.kinds, kindsAll, List.flatMap_nil, List.append_nil] at hkinds
      exact ⟨hkinds, hconsumed.symm⟩
    next => cases h
  · rintro ⟨hnamed, htext⟩
    have hscan : scan t.text (some {}) = some ⟨[], [t], []⟩ := scan_text t hnamed [] []
    rw [htext, hscan]

end Skeleton

/-- **A symbolic expression is unambiguous.**  Two trees whose kinds are names have the same
text just if they have the same skeleton, and the skeleton is read back from the text. -/
theorem sexp_determines_skeleton (n m : Node) (hn : ∀ k ∈ n.shown, isName k.kind = true)
    (hm : ∀ k ∈ m.shown, isName k.kind = true) :
    (n.sexp = m.sexp ↔ n.skeleton = m.skeleton) ∧
      Skeleton.read? n.sexp = some n.skeleton ∧ Skeleton.read? m.sexp = some m.skeleton := by
  have hread : ∀ k : Node, k.skeleton.WellNamed → Skeleton.read? k.sexp = some k.skeleton :=
    fun k hk => Skeleton.read?_eq_some_iff.2 ⟨hk, k.toList_sexp_eq_text⟩
  have hreadn := hread n (Node.wellNamed_skeleton hn)
  have hreadm := hread m (Node.wellNamed_skeleton hm)
  refine ⟨⟨fun htext => ?_, fun hskeleton => ?_⟩, hreadn, hreadm⟩
  · rw [htext, hreadm] at hreadn
    exact (Option.some.inj hreadn).symm
  · apply String.toList_injective
    rw [n.toList_sexp_eq_text, m.toList_sexp_eq_text, hskeleton]

/-- A missing number and a node of kind `MISSING` with a number below it have different
texts, and each is read as what it is. -/
theorem sexp_determines_skeleton_of_mark :
    let n : Node := { kind := "number", missing := true, children := [.token "("] }
    let m : Node := { kind := "MISSING", children := [.token "(", .literal "1"] }
    (∀ k ∈ n.shown, isName k.kind = true) ∧ (∀ k ∈ m.shown, isName k.kind = true) ∧
      n.sexp ≠ m.sexp ∧ Skeleton.read? n.sexp = some ⟨"number", true, []⟩ ∧
      Skeleton.read? m.sexp = some ⟨"MISSING", false, [⟨"number", false, []⟩]⟩ := by
  intro n m
  have hn : ∀ k ∈ n.shown, isName k.kind = true := by decide
  have hm : ∀ k ∈ m.shown, isName k.kind = true := by decide
  obtain ⟨hiff, hreadn, hreadm⟩ := sexp_determines_skeleton n m hn hm
  refine ⟨hn, hm, fun htext => ?_, hreadn, hreadm⟩
  have hmissing : true = false := congrArg Skeleton.missing (hiff.1 htext)
  cases hmissing

end BlockScript
