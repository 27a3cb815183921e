/-
BlockScript/Proofs/Visibility.lean

Which syntax errors a report shows.

A tree is refused if any of its nodes is faulty.  The report is the symbolic
expression of the tree, and this shows the root and, below a node that is shown,
the named children:

    statement [identifier, MISSING ";"]    is shown as    (statement (identifier))

An opening parenthesis of the text begins the text of a node that is shown, and
each such node has its text there.  So the marks in the text are those of the
faulty nodes that are shown, and a fault at or below an anonymous node leaves no
mark.
-/
import BlockScript.Proofs.Command

namespace BlockScript

/-- What stands behind the opening parenthesis of a node: its kind, behind the mark
of a missing one. -/
def headText (missing : Bool) (kind : String) : List Char :=
  (if missing then "MISSING ".toList else []) ++ kind.toList

namespace Node

/-! ### The nodes that are shown -/

mutual

/-- The nodes that the symbolic expression of a tree shows. -/
def shown : Node → List Node
  | ⟨kind, text, children, named, missing⟩ =>
    ⟨kind, text, children, named, missing⟩ :: shownAll children

/-- The nodes that the symbolic expressions of the named trees show. -/
def shownAll : List Node → List Node
  | [] => []
  | n :: ns => (if n.named then n.shown else []) ++ shownAll ns

end

theorem self_mem_shown (n : Node) : n ∈ n.shown := by
  cases n
  exact List.mem_cons_self

mutual

theorem shown_subset_nodes : ∀ n : Node, n.shown ⊆ n.nodes
  | ⟨_, _, children, _, _⟩ => List.cons_subset_cons _ (shownAll_subset_nodesAll children)

theorem shownAll_subset_nodesAll : ∀ ns : List Node, shownAll ns ⊆ nodesAll ns
  | [] => List.nil_subset _
  | n :: ns => by
    rw [shownAll, nodesAll]
    refine List.append_subset.2 ⟨?_, ?_⟩
    · split
      · exact List.subset_append_of_subset_left _ (shown_subset_nodes n)
      · exact List.nil_subset _
    · exact List.subset_append_of_subset_right _ (shownAll_subset_nodesAll ns)

end

/-! ### The text of a node -/

/-- What a node's text says of the node itself. -/
def head (n : Node) : List Char :=
  headText n.missing n.kind

/-- What follows in its text: the children that are shown, and its end. -/
def tail (n : Node) : List Char :=
  (sexps n.children).toList ++ [')']

theorem head_of_missing {n : Node} (hn : n.missing = true) :
    n.head = "MISSING ".toList ++ n.kind.toList := by
  rw [head, headText, hn, if_pos rfl]

theorem head_of_present {n : Node} (hn : n.missing = false) : n.head = n.kind.toList := by
  rw [head, headText, hn, if_neg Bool.false_ne_true, List.nil_append]

/-- A text is an opening parenthesis, the head and the tail. -/
theorem toList_sexp (n : Node) : n.sexp.toList = '(' :: (n.head ++ n.tail) := by
  obtain ⟨kind, text, children, named, missing⟩ := n
  rw [sexp, head, headText, tail]
  cases missing <;> simp

/-- A named tree is shown behind a space, another one not at all. -/
theorem toList_sexps_cons (n : Node) (ns : List Node) :
    (sexps (n :: ns)).toList
      = (if n.named then ' ' :: n.sexp.toList else []) ++ (sexps ns).toList := by
  rw [sexps]
  cases n.named <;> simp

/-- Behind its kind, a node is closed or has a first child. -/
theorem tail_cases (n : Node) : n.tail = [')'] ∨ ∃ cs, n.tail = ' ' :: '(' :: cs := by
  unfold tail
  induction n.children with
  | nil => exact .inl rfl
  | cons k ks ih =>
    rw [toList_sexps_cons]
    split
    · rw [toList_sexp]
      exact .inr ⟨_, rfl⟩
    · exact ih

/-- A character that the names of a grammar have: neither blank, nor a parenthesis,
nor the beginning of a control sequence. -/
def isNameChar (c : Char) : Bool :=
  !isBlank c && !(['(', ')', '\x1b'].contains c)

/-- Whether the kind of the node is a name as grammars have them. -/
def hasRuleName (n : Node) : Bool :=
  n.kind.toList.all isNameChar

/-! ### Parentheses -/

/-- A character that does not occur in front occurs behind. -/
theorem suffix_of_suffix_append {c : Char} {s rest : List Char} (cs : List Char) (hc : c ∉ cs)
    (h : c :: s <:+ cs ++ rest) : c :: s <:+ rest := by
  induction cs with
  | nil => exact h
  | cons d cs ih =>
    rw [List.mem_cons, not_or] at hc
    rcases List.suffix_cons_iff.1 h with heq | h
    · exact absurd (List.cons.inj heq).1 hc.1
    · exact ih hc.2 h

/-- Names are free of what separates them. -/
theorem not_mem_kind {n : Node} (hn : n.hasRuleName = true) {c : Char}
    (hc : isNameChar c = false) : c ∉ n.kind.toList := fun hmem => by
  rw [List.all_eq_true.1 hn c hmem] at hc
  cases hc

theorem opening_not_mem_head {n : Node} (hn : n.hasRuleName = true) : '(' ∉ n.head := by
  rw [head, headText, List.mem_append, not_or]
  refine ⟨?_, not_mem_kind hn (by decide)⟩
  split <;> decide

mutual

/-- An opening parenthesis in the text of a tree, or behind it in `rest`, begins the text
of a node that is shown, or is one of `rest`. -/
theorem opening_sexp : ∀ (n : Node), (∀ k ∈ n.shown, k.hasRuleName = true) → ∀ {s rest : List Char},
    '(' :: s <:+ n.sexp.toList ++ rest →
      '(' :: s <:+ rest ∨ ∃ k ∈ n.shown, ∃ r, '(' :: s = k.sexp.toList ++ r
  | ⟨kind, text, children, named, missing⟩, hnames, s, rest, h => by
    have hn := hnames _ (self_mem_shown _)
    have hkids : ∀ k ∈ shownAll children, k.hasRuleName = true := fun k hk => hnames k (.tail _ hk)
    rw [toList_sexp, List.cons_append, List.suffix_cons_iff] at h
    rcases h with heq | h
    · exact .inr ⟨_, self_mem_shown _, rest, by rw [heq, toList_sexp]; rfl⟩
    · -- it is not the node's own, and the head has none: it belongs to a child
      rw [List.append_assoc, tail, List.append_assoc] at h
      have hbehind := suffix_of_suffix_append _ (opening_not_mem_head hn) h
      rcases opening_sexps children hkids hbehind with hrest | ⟨k, hk, hr⟩
      · exact .inl (suffix_of_suffix_append [')'] (by decide) hrest)
      · exact .inr ⟨k, .tail _ hk, hr⟩

theorem opening_sexps : ∀ (ns : List Node), (∀ k ∈ shownAll ns, k.hasRuleName = true) →
    ∀ {s rest : List Char}, '(' :: s <:+ (sexps ns).toList ++ rest →
      '(' :: s <:+ rest ∨ ∃ k ∈ shownAll ns, ∃ r, '(' :: s = k.sexp.toList ++ r
  | [], _, _, _, h => .inl h
  | n :: ns, hnames, s, rest, h => by
    rw [shownAll, List.forall_mem_append] at hnames
    rw [toList_sexps_cons, List.append_assoc] at h
    rw [shownAll]
    by_cases hn : n.named = true
    · -- it stands in the text of the first tree, or behind it
      rw [if_pos hn] at h hnames ⊢
      rcases opening_sexp n hnames.1 (suffix_of_suffix_append [' '] (by decide) h) with
        h | ⟨k, hk, hr⟩
      · rcases opening_sexps ns hnames.2 h with hrest | ⟨k, hk, hr⟩
        · exact .inl hrest
        · exact .inr ⟨k, List.mem_append_right _ hk, hr⟩
      · exact .inr ⟨k, List.mem_append_left _ hk, hr⟩
    · rw [if_neg hn] at h ⊢
      exact opening_sexps ns hnames.2 h

end

/-- What stands behind an opening parenthesis is the text of a node that is shown. -/
theorem exists_shown_of_infix {n : Node} (hnames : ∀ k ∈ n.shown, k.hasRuleName = true)
    {mark : List Char} (hmark : '(' :: mark <:+: n.sexp.toList) :
    ∃ k ∈ n.shown, ∃ back rest, mark ++ back = k.head ++ (k.tail ++ rest) := by
  obtain ⟨front, back, htext⟩ := hmark
  have hsuffix : '(' :: (mark ++ back) <:+ n.sexp.toList ++ [] :=
    ⟨front, by rw [List.append_nil, ← htext, List.append_assoc]; rfl⟩
  rcases opening_sexp n hnames hsuffix with hnil | ⟨k, hk, rest, hr⟩
  · cases List.suffix_nil.1 hnil
  · rw [toList_sexp, List.cons_append, List.append_assoc] at hr
    exact ⟨k, hk, back, rest, (List.cons.inj hr).2⟩

mutual

/-- Every node that is shown has its text in that of the tree. -/
theorem infix_sexp : ∀ (n : Node), ∀ k ∈ n.shown, k.sexp.toList <:+: n.sexp.toList
  | ⟨kind, text, children, named, missing⟩, k, hk => by
    rcases List.mem_cons.1 hk with rfl | hk
    · exact List.infix_rfl
    · refine (infix_sexps children k hk).trans ?_
      rw [toList_sexp]
      exact (List.infix_append' _ _ _).trans (List.infix_cons List.infix_rfl)

theorem infix_sexps : ∀ (ns : List Node), ∀ k ∈ shownAll ns, k.sexp.toList <:+: (sexps ns).toList
  | [], k, hk => by cases hk
  | n :: ns, k, hk => by
    rw [shownAll] at hk
    rw [toList_sexps_cons]
    rcases List.mem_append.1 hk with hk | hk
    · split at hk
      next hn =>
        rw [if_pos hn]
        exact (infix_sexp n k hk).trans ⟨[' '], _, rfl⟩
      next => cases hk
    · exact (infix_sexps ns k hk).trans (List.suffix_append _ _).isInfix

end

/-! ### Names -/

/-- Two names that are followed by something else agree if the texts do. -/
theorem name_eq_of_append {as bs xs ys : List Char} {c d : Char}
    (has : as.all isNameChar = true) (hbs : bs.all isNameChar = true)
    (hc : isNameChar c = false) (hd : isNameChar d = false) (h : as ++ c :: xs = bs ++ d :: ys) :
    as = bs ∧ c :: xs = d :: ys := by
  have hcut : ∀ {zs : List Char} {z : Char} (rest : List Char), zs.all isNameChar = true →
      isNameChar z = false → (zs ++ z :: rest).takeWhile isNameChar = zs := by
    intro zs z rest hzs hz
    rw [List.takeWhile_append_of_pos (List.all_eq_true.1 hzs),
      List.takeWhile_cons_of_neg (by simp [hz]), List.append_nil]
  have heq : as = bs := by rw [← hcut xs has hc, h, hcut ys hbs hd]
  exact ⟨heq, List.append_cancel_left (heq ▸ h)⟩

/-- A name that begins the kind and the tail of a node is its kind. -/
theorem eq_kind_of_append {k : Node} (hk : k.hasRuleName = true) {name rest xs : List Char}
    {c : Char} (hname : name.all isNameChar = true) (hc : isNameChar c = false)
    (h : name ++ c :: xs = k.kind.toList ++ (k.tail ++ rest)) :
    name = k.kind.toList ∧ c :: xs = k.tail ++ rest := by
  -- the tail begins with a blank or a parenthesis
  rcases k.tail_cases with htail | ⟨cs, htail⟩ <;> rw [htail] at h ⊢ <;>
    exact name_eq_of_append hname hk hc (by decide) h

/-! ### Characters -/

mutual

/-- But for the marks of missing nodes and what separates names, the text consists of
the kinds of the nodes. -/
theorem mem_sexp : ∀ (n : Node), ∀ c ∈ n.sexp.toList,
    c ∈ "(MISSING )".toList ∨ ∃ k ∈ n.shown, c ∈ k.kind.toList
  | ⟨kind, text, children, named, missing⟩, c, hc => by
    rw [toList_sexp, tail, head, headText, List.mem_cons, List.mem_append, List.mem_append,
      List.mem_append, List.mem_singleton] at hc
    rcases hc with rfl | (hc | hc) | hc | rfl
    · exact .inl (by decide)
    · split at hc
      · exact .inl (List.mem_cons_of_mem _ (List.mem_append_left [')'] hc))
      · cases hc
    · exact .inr ⟨_, self_mem_shown _, hc⟩
    · exact (mem_sexps children c hc).imp_right fun ⟨k, hk, hck⟩ => ⟨k, .tail _ hk, hck⟩
    · exact .inl (by decide)

theorem mem_sexps : ∀ (ns : List Node), ∀ c ∈ (sexps ns).toList,
    c ∈ "(MISSING )".toList ∨ ∃ k ∈ shownAll ns, c ∈ k.kind.toList
  | [], c, hc => by cases hc
  | n :: ns, c, hc => by
    rw [toList_sexps_cons, List.mem_append] at hc
    rw [shownAll]
    rcases hc with hc | hc
    · by_cases hn : n.named = true
      · rw [if_pos hn, List.mem_cons] at hc
        rw [if_pos hn]
        rcases hc with rfl | hc
        · exact .inl (by decide)
        · exact (mem_sexp n c hc).imp_right fun ⟨k, hk, hck⟩ =>
            ⟨k, List.mem_append_left _ hk, hck⟩
      · rw [if_neg hn] at hc
        cases hc
    · exact (mem_sexps ns c hc).imp_right fun ⟨k, hk, hck⟩ => ⟨k, List.mem_append_right _ hk, hck⟩

end

/-- The text of a tree is printed as it stands. -/
theorem plainText_sexp {n : Node} (hnames : ∀ k ∈ n.shown, k.hasRuleName = true) :
    plainText n.sexp = n.sexp := by
  refine plainText_eq_self fun hescape => ?_
  rcases mem_sexp n _ hescape with hmark | ⟨k, hk, hkind⟩
  · exact absurd hmark (by decide)
  · exact not_mem_kind (hnames k hk) (by decide) hkind

end Node

/-! ### Marks -/

/-- The text of a symbolic expression has a node of kind `ERROR` in it. -/
def ShowsError (s : String) : Prop :=
  ∃ c, (c = ' ' ∨ c = ')') ∧ '(' :: ("ERROR".toList ++ [c]) <:+: s.toList

/-- The text of a symbolic expression has a node in it that is marked as missing.  What
follows the mark is the kind; a parenthesis there is that of a child, and `MISSING` the
kind. -/
def ShowsMissing (s : String) : Prop :=
  ∃ c, c ≠ '(' ∧ '(' :: ("MISSING ".toList ++ [c]) <:+: s.toList

namespace Node

variable {n : Node}

/-- An error is shown just for a node of that kind that is not missing. -/
theorem showsError_iff (hnames : ∀ k ∈ n.shown, k.hasRuleName = true) :
    ShowsError n.sexp ↔ ∃ k ∈ n.shown, k.kind = "ERROR" ∧ k.missing = false := by
  constructor
  · rintro ⟨c, hc, hmark⟩
    obtain ⟨k, hk, back, rest, heq⟩ := exists_shown_of_infix hnames hmark
    rw [List.append_assoc] at heq
    cases hmissing : k.missing with
    | true =>
      -- the head of a missing node begins with another letter
      rw [head_of_missing hmissing] at heq
      cases heq
    | false =>
      have hc : isNameChar c = false := by rcases hc with rfl | rfl <;> decide
      rw [head_of_present hmissing] at heq
      have hkind := (eq_kind_of_append (hnames k hk) (by decide) hc heq).1
      exact ⟨k, hk, String.toList_injective hkind.symm, hmissing⟩
  · rintro ⟨k, hk, hkind, hmissing⟩
    have hinfix := infix_sexp n k hk
    rw [toList_sexp, head_of_present hmissing, hkind] at hinfix
    rcases k.tail_cases with htail | ⟨cs, htail⟩ <;> rw [htail] at hinfix
    · exact ⟨')', .inr rfl, hinfix⟩
    · exact ⟨' ', .inl rfl, .trans ⟨[], '(' :: cs, rfl⟩ hinfix⟩

/-- A mark is shown just for a node that is missing. -/
theorem showsMissing_iff (hnames : ∀ k ∈ n.shown, k.hasRuleName = true) :
    ShowsMissing n.sexp ↔ ∃ k ∈ n.shown, k.missing = true := by
  constructor
  · rintro ⟨c, hc, hmark⟩
    obtain ⟨k, hk, back, rest, heq⟩ := exists_shown_of_infix hnames hmark
    refine ⟨k, hk, Bool.eq_true_of_not_eq_false fun hmissing => ?_⟩
    -- a kind `MISSING` has nothing but a child behind it
    have hsplit : "MISSING ".toList ++ [c] ++ back = "MISSING".toList ++ ' ' :: c :: back := rfl
    rw [head_of_present hmissing, hsplit] at heq
    have htail := (eq_kind_of_append (hnames k hk) (by decide) (by decide) heq).2
    rcases k.tail_cases with hnil | ⟨cs, hcons⟩
    · rw [hnil] at htail
      cases htail
    · rw [hcons] at htail
      cases htail
      exact hc rfl
  · rintro ⟨k, hk, hmissing⟩
    -- the mark is followed by the kind, or by the tail if the kind is empty
    have hnext : ∃ c rest, c ≠ '(' ∧ k.kind.toList ++ k.tail = c :: rest := by
      have hopening := not_mem_kind (hnames k hk) (c := '(') (by decide)
      generalize k.kind.toList = name at hopening ⊢
      cases name with
      | nil =>
        rcases k.tail_cases with htail | ⟨cs, htail⟩ <;> rw [htail]
        · exact ⟨')', [], by decide, rfl⟩
        · exact ⟨' ', '(' :: cs, by decide, rfl⟩
      | cons c cs =>
        exact ⟨c, cs ++ k.tail, fun heq => hopening (heq ▸ List.mem_cons_self), rfl⟩
    obtain ⟨c, rest, hc, heq⟩ := hnext
    have hinfix := infix_sexp n k hk
    rw [toList_sexp, head_of_missing hmissing, List.append_assoc, heq] at hinfix
    exact ⟨c, hc, .trans ⟨[], rest, by simp⟩ hinfix⟩

/-- The marks in the text are those of the faulty nodes that are shown. -/
theorem shows_iff_faulty (hnames : ∀ k ∈ n.shown, k.hasRuleName = true) :
    ShowsError n.sexp ∨ ShowsMissing n.sexp ↔ ∃ k ∈ n.shown, k.isFaulty = true := by
  rw [showsError_iff hnames, showsMissing_iff hnames]
  constructor
  · rintro (⟨k, hk, hkind, -⟩ | ⟨k, hk, hmissing⟩)
    · exact ⟨k, hk, by rw [isFaulty, hkind]; rfl⟩
    · exact ⟨k, hk, by rw [isFaulty, hmissing, Bool.or_true]⟩
  · rintro ⟨k, hk, hfaulty⟩
    cases hmissing : k.missing with
    | true => exact .inr ⟨k, hk, hmissing⟩
    | false =>
      rw [isFaulty, hmissing, Bool.or_false, beq_iff_eq] at hfaulty
      exact .inl ⟨k, hk, hfaulty, hmissing⟩

theorem isFaulty_of_shown (hclean : n.hasError = false) {k : Node} (hk : k ∈ n.shown) :
    k.isFaulty = false := by
  rw [hasError_eq_any, List.any_eq_false] at hclean
  exact Bool.eq_false_of_not_eq_true (hclean k (shown_subset_nodes n hk))

end Node

/-! ### Reports of syntax errors -/

theorem run_of_hasError {n : Node} (herror : n.hasError = true) (limit : Int) (root : ScopeId)
    (h : Heap) : run limit root n h = .error (.syntaxError n.sexp) { heap := h } :=
  if_pos herror

/-- **A syntax error is visible in its report if its node is shown.**  A tree without
errors shows no mark.  One with errors is refused by every run and by the command, and
both quote its text.  This shows a mark just if a faulty node is shown, that is, if the
nodes from the root down to it are named. -/
theorem syntax_error_marked_iff_shown (n : Node) (hnames : ∀ k ∈ n.shown, k.hasRuleName = true) :
    (n.hasError = false → ¬ ShowsError n.sexp ∧ ¬ ShowsMissing n.sexp) ∧
    (n.hasError = true →
      (ShowsError n.sexp ∨ ShowsMissing n.sexp ↔ ∃ k ∈ n.shown, k.isFaulty = true) ∧
      (∃ halt : Halt, halt.message = "Parse errors detected:\n" ++ n.sexp ∧
        (∀ limit root h, run limit root n h = .error halt { heap := h }) ∧
        ∀ settings root h, runConfigured settings root n h = .error halt { heap := h }) ∧
      ∀ (s : Surroundings) bytes level path, s.Parses bytes n →
        Report.process s level path bytes = ⟨.exit 1, (Section.parsing path).text,
          lines (Event.log level [.grammarLoaded s.settings.grammar]) ++
            lines ["Parse errors detected:", n.sexp]⟩) := by
  refine ⟨fun hclean => ?_, fun herror => ⟨Node.shows_iff_faulty hnames, ?_, ?_⟩⟩
  · rw [← not_or, Node.shows_iff_faulty hnames]
    rintro ⟨k, hk, hfaulty⟩
    rw [Node.isFaulty_of_shown hclean hk] at hfaulty
    cases hfaulty
  · exact ⟨_, rfl, run_of_hasError herror, fun settings root h => if_pos herror⟩
  · intro s bytes level path hparses
    have hheader : plainText "Parse errors detected:" = "Parse errors detected:" :=
      plainText_eq_self (by decide)
    rw [Surroundings.process_of_parses hparses, if_pos herror, printed, List.map_cons,
      List.map_singleton, Node.plainText_sexp hnames, hheader]

/-- In a statement without its end, an identifier is missing, and so is the semicolon; the
report shows the first of them. -/
theorem missing_identifier_marked :
    let name : Node := { kind := "identifier", missing := true }
    let n : Node := { kind := "statement", text := "x", children := [.identifier "x", name,
      { Node.token ";" with text := "", missing := true }] }
    (∀ k ∈ n.shown, k.hasRuleName = true) ∧ n.hasError = true ∧
      (ShowsError n.sexp ∨ ShowsMissing n.sexp) := by
  intro name n
  have hnames : ∀ k ∈ n.shown, k.hasRuleName = true := by decide
  have herror : n.hasError = true := by decide
  have hmarked := ((syntax_error_marked_iff_shown n hnames).2 herror).1.2
  exact ⟨hnames, herror, hmarked ⟨name, .tail _ (.tail _ (.head _)), rfl⟩⟩

/-- A statement whose semicolon is missing is refused, and the report does not say why. -/
theorem missing_semicolon_not_marked :
    let n : Node := { kind := "statement", text := "1", children := [.literal "1",
      { Node.token ";" with text := "", missing := true }] }
    n.hasError = true ∧ ¬ ShowsError n.sexp ∧ ¬ ShowsMissing n.sexp ∧
      ∀ limit root h, ∃ halt, run limit root n h = .error halt { heap := h } ∧
        halt.message = "Parse errors detected:\n(statement (number))" := by
  intro n
  have hnames : ∀ k ∈ n.shown, k.hasRuleName = true := by decide
  have hunmarked : ¬ (ShowsError n.sexp ∨ ShowsMissing n.sexp) := by
    rw [Node.shows_iff_faulty hnames]
    decide
  rw [not_or] at hunmarked
  have herror : n.hasError = true := by decide
  exact ⟨herror, hunmarked.1, hunmarked.2, fun limit root h =>
    ⟨_, run_of_hasError herror limit root h, by decide⟩⟩

end BlockScript
