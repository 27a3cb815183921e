/-
BlockScript/Proofs/Padding.lean

Blanks around names, literals and operators.

A name is stripped where it is looked up, bound or made part of a path, a literal
where it is read, and an operator where it is told from the others.  So of these
texts nothing but

    strip text

has a say in an evaluation.  Trees that differ in the blanks around them have the
same operands, one by one, with other blanks in turn, and make the same of their
values.  What is left of the difference is the wording of some messages, which
quote the texts as they stand.
-/
import BlockScript.Proofs.Comments
import Mathlib.Data.List.DropRight

namespace BlockScript

/-! ### Blanks and words -/

theorem pieces_ne_nil (separator : Char → Bool) (cs : List Char) : pieces separator cs ≠ [] := by
  fun_cases pieces separator cs <;> exact List.cons_ne_nil _ _

/-- Separators at the end are followed by empty pieces. -/
theorem pieces_append_separators {separator : Char → Bool} (cs : List Char) {ends : List Char}
    (hends : ∀ c ∈ ends, separator c = true) :
    pieces separator (cs ++ ends) = pieces separator cs ++ List.replicate ends.length [] := by
  induction cs with
  | nil =>
    induction ends with
    | nil => rfl
    | cons c ends ih =>
      rw [List.forall_mem_cons] at hends
      have hrest : pieces separator ends = [] :: List.replicate ends.length [] := ih hends.2
      simp only [List.nil_append, pieces, if_pos hends.1, hrest, List.length_cons,
        List.replicate_succ, List.singleton_append]
  | cons c cs ih =>
    rw [List.cons_append, pieces, pieces, ih]
    split
    · rfl
    · cases hcs : pieces separator cs with
      | nil => exact absurd hcs (pieces_ne_nil separator cs)
      | cons p ps => rfl

section Strip

variable (cs : List Char)

/-- Blanks in front make no pieces but empty ones. -/
theorem filter_pieces_stripLeft :
    (pieces isBlank (stripLeft cs)).filter (· ≠ []) = (pieces isBlank cs).filter (· ≠ []) := by
  induction cs with
  | nil => rfl
  | cons c cs ih =>
    rw [stripLeft, List.dropWhile_cons]
    split
    next hc =>
      -- in front of a blank there is an empty piece
      rw [pieces, if_pos hc]
      exact ih
    next => rfl

/-- Blanks at the end do not either. -/
theorem filter_pieces_stripRight :
    (pieces isBlank (stripRight cs)).filter (· ≠ []) = (pieces isBlank cs).filter (· ≠ []) := by
  have hends : ∀ c ∈ cs.rtakeWhile isBlank, isBlank c = true := fun c => List.mem_rtakeWhile_imp
  have hcs : stripRight cs ++ cs.rtakeWhile isBlank = cs := List.rdropWhile_append_rtakeWhile
  have hpieces := pieces_append_separators (stripRight cs) hends
  rw [hcs] at hpieces
  simp [hpieces]

end Strip

/-- Blanks at the ends make no words. -/
theorem words_strip (s : String) : words (strip s) = words s := by
  rw [words, strip, String.toList_ofList, filter_pieces_stripRight, filter_pieces_stripLeft, words]

/-- A text is shown without the blanks around it. -/
theorem collapse_congr {s s' : String} (hs : strip s' = strip s) : collapse s' = collapse s := by
  rw [collapse, ← words_strip, hs, words_strip, collapse]

/-! ### Trees with other blanks -/

namespace Node

/-- Whether the child at a position is the operator of a node of this kind. -/
def operatorAt : String → Nat → Bool
  | "unary_expression", 0 | "binary_expression", 1 | "assignment_expression", 1 => true
  | _, _ => false

/-- The kinds of the leaves whose texts are stripped. -/
def strippedKinds : List String :=
  ["identifier", "number", "boolean"]

/-- The second tree is the first with other blanks around names, numbers, truth
values and operators.  Whether the tree itself is the operator of another is told
by the flag. -/
inductive Repadded : Bool → Node → Node → Prop
  | intro {operator : Bool} {n n' : Node} :
      n'.kind = n.kind → n'.named = n.named → n'.missing = n.missing →
      n'.text = n.text ∨ (operator = true ∨ n.kind ∈ strippedKinds) ∧
        strip n'.text = strip n.text →
      n'.children.length = n.children.length →
      (∀ i k k', n.children[i]? = some k → n'.children[i]? = some k' →
        Repadded (operatorAt n.kind i) k k') →
      Repadded operator n n'

/-- The trees agree but for blanks, wherever they stand. -/
def Resembles (n n' : Node) : Prop :=
  ∃ operator, n.Repadded operator n'

namespace Repadded

variable {operator : Bool} {n n' : Node}

theorem symm (h : n.Repadded operator n') : n'.Repadded operator n := by
  -- on the tree; which texts are free depends on the kinds, and these are the same
  induction h with
  | intro hkind hnamed hmissing htext hlength _ ih =>
    refine .intro hkind.symm hnamed.symm hmissing.symm ?_ hlength.symm ?_
    · rw [hkind]
      exact htext.imp Eq.symm (And.imp_right Eq.symm)
    · intro i k k' hk hk'
      rw [hkind]
      exact ih i k' k hk' hk

theorem kind_eq (h : n.Repadded operator n') : n'.kind = n.kind := by
  cases h
  assumption

theorem named_eq (h : n.Repadded operator n') : n'.named = n.named := by
  cases h
  assumption

theorem strip_text (h : n.Repadded operator n') : strip n'.text = strip n.text := by
  obtain ⟨-, -, -, htext | ⟨-, hstrip⟩, -, -⟩ := h
  · rw [htext]
  · exact hstrip

theorem text_eq (h : n.Repadded false n') (hkind : n.kind ∉ strippedKinds) : n'.text = n.text := by
  obtain ⟨-, -, -, htext | ⟨hoperator | hstripped, -⟩, -, -⟩ := h
  · exact htext
  · cases hoperator
  · exact absurd hstripped hkind

theorem form?_eq (h : n.Repadded operator n') : n'.form? = n.form? :=
  form?_congr h.kind_eq

theorem length_eq (h : n.Repadded operator n') : n'.children.length = n.children.length := by
  cases h
  assumption

theorem child {i : Nat} {k k' : Node} (h : n.Repadded operator n') (hk : n.children[i]? = some k)
    (hk' : n'.children[i]? = some k') : k.Repadded (operatorAt n.kind i) k' := by
  obtain ⟨-, -, -, -, -, hkids⟩ := h
  exact hkids i k k' hk hk'

/-- Children correspond one by one. -/
theorem getElem?_rel (h : n.Repadded operator n') (i : Nat) :
    Option.Rel (Repadded (operatorAt n.kind i)) n.children[i]? n'.children[i]? := by
  by_cases hi : i < n.children.length
  · have hi' : i < n'.children.length := h.length_eq.symm ▸ hi
    rw [List.getElem?_eq_getElem hi, List.getElem?_eq_getElem hi']
    exact .some (h.child (List.getElem?_eq_getElem hi) (List.getElem?_eq_getElem hi'))
  · have hi' : ¬ i < n'.children.length := h.length_eq.symm ▸ hi
    rw [List.getElem?_eq_none (Nat.le_of_not_lt hi), List.getElem?_eq_none (Nat.le_of_not_lt hi')]
    exact .none

/-! ### What becomes of the operands -/

theorem children_resemble (h : n.Repadded operator n') :
    List.Forall₂ Resembles n.children n'.children :=
  List.forall₂_iff_get.2 ⟨h.length_eq.symm, fun _ hi hi' =>
    ⟨_, h.child (List.getElem?_eq_getElem hi) (List.getElem?_eq_getElem hi')⟩⟩

/-- Where no child is an operator, all children have other blanks of their own
only. -/
theorem children_of_no_operator (h : n.Repadded operator n')
    (hkind : ∀ i, operatorAt n.kind i = false) :
    List.Forall₂ (Repadded false) n.children n'.children :=
  List.forall₂_iff_get.2 ⟨h.length_eq.symm, fun i hi hi' =>
    hkind i ▸ h.child (List.getElem?_eq_getElem hi) (List.getElem?_eq_getElem hi')⟩

/-- The children at positions where no operator stands correspond. -/
theorem childrenAt (h : n.Repadded operator n') (count : Nat) {positions : List Nat}
    (hpositions : ∀ i ∈ positions, operatorAt n.kind i = false) :
    List.Forall₂ (Repadded false) (n.childrenAt count positions)
      (n'.childrenAt count positions) := by
  rw [Node.childrenAt, Node.childrenAt, h.length_eq]
  split
  · refine List.rel_filterMap (R := fun i j => i = j ∧ i ∈ positions) ?_ ?_
    · rintro i _ ⟨rfl, hi⟩
      exact hpositions i hi ▸ h.getElem?_rel i
    · exact List.forall₂_same.2 fun i hi => ⟨rfl, hi⟩
  · exact .nil

/-- An operator is not an operand. -/
theorem operands (h : n.Repadded operator n') :
    List.Forall₂ (Repadded false) n.operands n'.operands := by
  rw [operands_eq_visited, operands_eq_visited, visited, visited, h.kind_eq]
  split
  next hn =>
    refine List.rel_filter (fun k k' hk => by simp [hk.kind_eq]) (h.children_of_no_operator ?_)
    rw [hn]
    exact fun _ => rfl
  next hn =>
    refine forall₂_toList (find?_of_forall₂ (fun k k' hk => hk.named_eq)
      (h.children_of_no_operator ?_))
    rw [hn]
    exact fun _ => rfl
  -- the forms with an operator leave its position out
  next hn => exact h.childrenAt 2 (by rw [hn]; decide)
  next hn => exact h.childrenAt 3 (by rw [hn]; decide)
  next hn => exact h.childrenAt 3 (by rw [hn]; decide)
  next hn => exact h.childrenAt 3 (by rw [hn]; decide)
  next => exact .nil

/-! ### What becomes of a target -/

/-- A path is still one with other blanks, and the same. -/
theorem targetNames_of_ok {whole whole' : String} {tail names : List String}
    (h : n.Repadded operator n') (hnames : n.targetNames whole tail = .ok names) :
    n'.targetNames whole' tail = .ok names := by
  fun_induction Node.targetNames whole tail n generalizing operator n' with
  | case1 tail text object dot property named missing hproperty ih =>
    -- a member: its parts stand where they stood
    have hkids := h.children_resemble
    obtain ⟨kind', text', kids', named', missing'⟩ := n'
    obtain rfl : kind' = "member_expression" := h.kind_eq
    obtain _ | ⟨⟨_, hobject⟩, _ | ⟨-, _ | ⟨⟨_, hname⟩, _ | _⟩⟩⟩ := hkids
    rw [Node.targetNames, hname.kind_eq, hname.strip_text, if_pos hproperty]
    exact ih hobject hnames
  | case2 => cases hnames
  | case3 tail kind text children named missing _ hkind =>
    cases hnames
    have hkind' : n'.kind = "identifier" := h.kind_eq.trans (beq_iff_eq.1 hkind)
    rw [targetNames_of_other (by simp [hkind']), hkind', h.strip_text]
    rfl
  | case4 => cases hnames

/-- A target stands for the same path, or for none with a fault of the same class. -/
theorem targetPath_cases (h : n.Repadded operator n') :
    n'.targetPath = n.targetPath ∨ ∃ fault fault', n.targetPath = .error fault ∧
      n'.targetPath = .error fault' ∧ fault'.label = fault.label := by
  rcases hpath : n.targetPath with fault | path
  · rcases hpath' : n'.targetPath with fault' | path
    · have hlabel := targetNames_error_label hpath
      exact .inr ⟨fault, fault', rfl, rfl, (targetNames_error_label hpath').trans hlabel.symm⟩
    · -- what is a path with other blanks is one without
      cases (h.symm.targetNames_of_ok hpath').symm.trans hpath
  · exact .inl (h.targetNames_of_ok hpath)

end Repadded

end Node

/-! ### What becomes of the conclusion -/

/-- What a diagnostic is about: all of it but the wording of the message. -/
def Diagnostic.subject (d : Diagnostic) : String × String × String :=
  (d.error, d.nodeKind, d.nodeText)

/-- Steps that differ at most in the wording of a fault, or in what they log
before they come to nothing. -/
inductive Step.Rewords : Step Value → Step Value → Prop
  | same {step step' : Step Value} : step' = step → Rewords step step'
  | fault {fault fault' : Fault} : fault'.label = fault.label →
      Rewords (throw (.soft fault)) (throw (.soft fault'))
  | logged (events events' : List Event) :
      Rewords (do Step.emitAll events; return .void) (do Step.emitAll events'; return .void)

/-- A literal has the same value, or none and a complaint about its own text. -/
theorem literalValue_cases {s s' : String} (hs : strip s' = strip s) :
    literalValue s' = literalValue s ∨ literalValue s = .error (.soft (.badLiteral s)) ∧
      literalValue s' = .error (.soft (.badLiteral s')) := by
  have hread : Literal.read? s' = Literal.read? s := by rw [Literal.read?, hs, Literal.read?]
  unfold literalValue
  rw [hread]
  cases Literal.read? s with
  | none => exact .inr ⟨rfl, rfl⟩
  | some literal => exact .inl rfl

theorem bindsConstant_congr {op op' : String} (hop : strip op' = strip op) :
    bindsConstant op' = bindsConstant op := by
  rw [bindsConstant, hop, bindsConstant]

namespace Node.Repadded

variable {operator : Bool} {n n' : Node}

/-- An assignment to the same target is reworded at most. -/
theorem assignTo (h : n.Repadded operator n') (e : ScopeId) (b : Binding) :
    Step.Rewords (assignTo e n b) (assignTo e n' b) := by
  unfold BlockScript.assignTo
  rw [h.form?_eq]
  split
  next => exact .same (by rw [h.strip_text])
  next =>
    rcases h.targetPath_cases with hpath | ⟨fault, fault', hpath, hpath', hlabel⟩
    · exact .same (by rw [hpath])
    · rw [hpath, hpath']
      exact .fault hlabel
  next => exact .logged _ _

/-- Every form looks only at the stripped texts, but for a string. -/
theorem concludeForm {ks ks' : List Node} (hks : List.Forall₂ Resembles ks ks')
    (hstrip : strip n'.text = strip n.text) (e : ScopeId) (form : Form)
    (hstring : form = .string → n'.text = n.text) (values : List Value) :
    Step.Rewords (concludeForm e n form ks values) (concludeForm e n' form ks' values) := by
  fun_cases BlockScript.concludeForm e n form ks values with
  | case1 | case2 | case3 => exact .same rfl
  | case4 | case8 => exact .same (by rw [BlockScript.concludeForm, hstrip])
  | case7 => exact .same (by rw [BlockScript.concludeForm, hstring rfl])
  | case5 _ _ x hx =>
    rcases literalValue_cases hstrip with hsame | ⟨hbad, -⟩
    · exact .same (by simp only [BlockScript.concludeForm, hsame, hx])
    · cases hbad.symm.trans hx
  | case6 _ _ f hx =>
    rcases literalValue_cases hstrip with hsame | ⟨hbad, hbad'⟩
    · exact .same (by simp only [BlockScript.concludeForm, hsame, hx])
    · cases hbad.symm.trans hx
      simp only [BlockScript.concludeForm, hbad']
      exact .fault rfl
  | case9 op operand v f hop =>
    obtain _ | ⟨⟨_, hk⟩, _ | ⟨-, _ | _⟩⟩ := hks
    exact .same (by simp only [BlockScript.concludeForm, hk.strip_text, hop])
  | case10 op operand v hop =>
    obtain _ | ⟨⟨_, hk⟩, _ | ⟨-, _ | _⟩⟩ := hks
    simp only [BlockScript.concludeForm, hk.strip_text, hop]
    exact .fault rfl
  | case11 lhs op rhs a b f hop =>
    obtain _ | ⟨-, _ | ⟨⟨_, hk⟩, _ | ⟨-, _ | _⟩⟩⟩ := hks
    exact .same (by simp only [BlockScript.concludeForm, hk.strip_text, hop])
  | case12 lhs op rhs a b hop =>
    obtain _ | ⟨-, _ | ⟨⟨_, hk⟩, _ | ⟨-, _ | _⟩⟩⟩ := hks
    simp only [BlockScript.concludeForm, hk.strip_text, hop]
    exact .fault rfl
  | case13 object dot name scope =>
    obtain _ | ⟨-, _ | ⟨-, _ | ⟨⟨_, hk⟩, _ | _⟩⟩⟩ := hks
    exact .same (by simp only [BlockScript.concludeForm, hk.strip_text])
  | case14 object dot name v hv =>
    obtain _ | ⟨-, _ | ⟨-, _ | ⟨-, _ | _⟩⟩⟩ := hks
    exact .same (by simp only [BlockScript.concludeForm])
  | case15 target op rhs v =>
    obtain _ | ⟨⟨_, htarget⟩, _ | ⟨⟨_, hk⟩, _ | ⟨-, _ | _⟩⟩⟩ := hks
    rw [BlockScript.concludeForm, bindsConstant_congr hk.strip_text]
    exact htarget.assignTo e _
  | case16 _ _ _ _ _ _ _ _ _ _ hunary hbinary hmember hassignment =>
    -- there are as many children as before, so the count is wrong for both
    refine .same ?_
    rw [BlockScript.concludeForm, hks.length_eq]
    any_goals assumption
    all_goals
      intros
      subst_vars
      simp_all [List.forall₂_cons_right_iff]

/-- A node makes the same of the values of its operands, up to the wording of
faults. -/
theorem conclude (h : n.Repadded false n') (e : ScopeId) (values : List Value) :
    Step.Rewords (conclude e n values) (conclude e n' values) := by
  rw [BlockScript.conclude, BlockScript.conclude, h.form?_eq, h.kind_eq]
  rcases hform : n.form? with - | form
  · exact .same rfl
  · refine concludeForm h.children_resemble h.strip_text e form ?_ values
    -- the blanks of a string are its own
    rintro rfl
    refine h.text_eq ?_
    rw [form?_eq_some_iff.1 hform]
    decide

end Node.Repadded

/-- A diagnostic looks the same in other words. -/
theorem Step.Rewords.likens {step step' : Step Value} {n n' : Node} (h : Rewords step step')
    (hstep : IgnoresPast step) (hkind : n'.kind = n.kind) (htext : strip n'.text = strip n.text) :
    Likens Diagnostic.subject (FailureLike Diagnostic.subject n n') step step' := by
  have hreport : ∀ {fault fault' : Fault}, fault'.label = fault.label →
      (Diagnostic.ofFault fault' n').subject = (Diagnostic.ofFault fault n).subject := by
    intro fault fault' hlabel
    simp [Diagnostic.subject, Diagnostic.ofFault, Diagnostic.ofMessage, hlabel, hkind,
      collapse_congr htext]
  cases h with
  | same heq =>
    rw [heq]
    exact .of_ignoresPast (FailureLike.refl fun _ => hreport rfl) hstep
  | fault hlabel => exact fun m m' hm => .error (.soft (hreport hlabel)) hm
  | logged events events' => exact fun m m' hm => .ok (hm.emitAll events events')

/-! ### What becomes of syntax errors -/

namespace Node

/-- The trees are taken for faulty, and shown, in the same way. -/
structure ShownAlike (n n' : Node) : Prop where
  named : n'.named = n.named
  hasError : n'.hasError = n.hasError
  sexp : n'.sexp = n.sexp

theorem anyError_of_shownAlike {ns ns' : List Node} (h : List.Forall₂ ShownAlike ns ns') :
    anyError ns' = anyError ns := by
  induction h with
  | nil => rfl
  | cons hn _ ih => rw [anyError, anyError, hn.hasError, ih]

theorem sexps_of_shownAlike {ns ns' : List Node} (h : List.Forall₂ ShownAlike ns ns') :
    sexps ns' = sexps ns := by
  induction h with
  | nil => rfl
  | cons hn _ ih => rw [sexps, sexps, hn.named, hn.sexp, ih]

/-- Texts are not looked at. -/
theorem Repadded.shownAlike {operator : Bool} {n n' : Node} (h : n.Repadded operator n') :
    ShownAlike n n' := by
  induction h with
  | @intro _ n n' hkind hnamed hmissing _ hlength _ ih =>
    have hkids : List.Forall₂ ShownAlike n.children n'.children :=
      List.forall₂_iff_get.2 ⟨hlength.symm, fun i hi hi' =>
        ih i _ _ (List.getElem?_eq_getElem hi) (List.getElem?_eq_getElem hi')⟩
    obtain ⟨kind, text, children, named, missing⟩ := n
    obtain ⟨kind', text', children', named', missing'⟩ := n'
    obtain ⟨rfl, rfl, rfl⟩ : kind' = kind ∧ named' = named ∧ missing' = missing :=
      ⟨hkind, hnamed, hmissing⟩
    refine ⟨rfl, ?_, ?_⟩
    · rw [Node.hasError, anyError_of_shownAlike hkids, Node.hasError]
    · rw [Node.sexp, sexps_of_shownAlike hkids, Node.sexp]

end Node

/-! ### Blanks are irrelevant -/

/-- Trees that agree but for blanks have evaluations that look the same. -/
theorem evalLike_of_repadded {n n' : Node} (h : n.Repadded false n') :
    EvalLike Diagnostic.subject n n' := by
  -- on the operands, which agree but for blanks of their own
  induction n using Node.operands_induction generalizing n' with
  | step n ih =>
    refine .of_operands h.kind_eq ?_ fun e values => .recover ?_
    · exact ((List.forall₂_and_left _ _).2 ⟨fun k hk => hk, h.operands⟩).imp
        fun k k' ⟨hk, hpadded⟩ => ih k hk hpadded
    · exact (h.conclude e values).likens (conclude_ignoresPast e n values) h.kind_eq h.strip_text

/-- **Blanks around names, literals and operators are irrelevant.**  A tree and the
same tree with other blanks around these texts come to the same value or stop for the
same cause, and leave the same heap.  Their diagnostics are of the same classes, at
nodes of the same kinds and, but for blanks, of the same texts. -/
theorem blanks_irrelevant (n n' : Node) (hn : n.Repadded false n') (limit : Int) (e : ScopeId)
    (m : Machine) :
    ResultLike Diagnostic.subject Eq (eval limit e n m) (eval limit e n' m) ∧
      ResultLike Diagnostic.subject Eq (run limit e n m.heap) (run limit e n' m.heap) := by
  have heval := evalLike_of_repadded hn
  have hoperands := hn.operands.imp fun _ _ => evalLike_of_repadded
  exact ⟨heval limit e m m (.refl m), resultLike_run hn.shownAlike.hasError hn.shownAlike.sexp
    (likens_evalProgram hn.kind_eq hoperands heval limit e) m.heap⟩

/-- In `b.c := -x`, with an em space before `b`, a tab behind `c`, a line break before the
operator `:=`, blanks around `-` and a no-break space behind `x`. -/
theorem blanks_irrelevant_in_member_assignment :
    let target := (Node.identifier "b").member (.identifier "c")
    let target' := { target with
      children := [.identifier "\u2003b", .token ".", .identifier "c\t"] }
    let rhs := Node.unary "-" (.identifier "x")
    let rhs' := { rhs with
      children := [{ Node.token "-" with text := " - " }, .identifier "x\u00a0"] }
    let n := target.assign ":=" rhs
    let n' := { n with children := [target', { Node.token ":=" with text := "\n:=" }, rhs'] }
    n.Repadded false n' ∧
      ResultLike Diagnostic.subject Eq (run 9 0 n .initial) (run 9 0 n' .initial) := by
  intro target target' rhs rhs' n n'
  have hleaf : ∀ {operator} {k : Node} (text : String), k.children = [] →
      text = k.text ∨ (operator = true ∨ k.kind ∈ Node.strippedKinds) ∧ strip text = strip k.text →
      k.Repadded operator { k with text := text } :=
    fun text hk htext => .intro rfl rfl rfl htext rfl (by simp [hk])
  have htarget : target.Repadded false target' := by
    refine .intro rfl rfl rfl (.inl rfl) rfl ?_
    rintro (_ | _ | _ | i) k k' hk hk' <;> cases hk <;> cases hk'
    · exact hleaf "\u2003b" rfl (by decide)
    · exact hleaf "." rfl (by decide)
    · exact hleaf "c\t" rfl (by decide)
  have hrhs : rhs.Repadded false rhs' := by
    refine .intro rfl rfl rfl (.inl rfl) rfl ?_
    rintro (_ | _ | i) k k' hk hk' <;> cases hk <;> cases hk'
    · exact hleaf " - " rfl (by decide)
    · exact hleaf "x\u00a0" rfl (by decide)
  have hn : n.Repadded false n' := by
    refine .intro rfl rfl rfl (.inl rfl) rfl ?_
    rintro (_ | _ | _ | i) k k' hk hk' <;> cases hk <;> cases hk'
    · exact htarget
    · exact hleaf "\n:=" rfl (by decide)
    · exact hrhs
  exact ⟨hn, (blanks_irrelevant n n' hn 9 0 { heap := .initial }).2⟩

end BlockScript
