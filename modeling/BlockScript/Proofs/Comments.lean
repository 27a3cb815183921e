/-
BlockScript/Proofs/Comments.lean

Comments in blocks and in statements.

A block evaluates its children of kind "statement", so comments between them are
passed over wherever they stand.  A statement evaluates its first named child
instead, and a comment is a named node.  Behind the expression it is passed over
as well; before it, the comment is what the statement evaluates:

    statement [expression, comment, ";"]    -- evaluates the expression
    statement [comment, expression, ";"]    -- evaluates the comment, and is void

A tree with comments put in has the operands of the original one by one, with
comments put into them in turn, and concludes from their values what the
original does.  By induction along the operands, the two evaluate alike.
-/
import BlockScript.Proofs.Alike
import BlockScript.Syntax.Build

namespace BlockScript

/-! ### Trees with comments put in -/

namespace Node

/-- The nodes agree in everything but their children. -/
structure SameHead (n n' : Node) : Prop where
  kind : n'.kind = n.kind
  text : n'.text = n.text
  named : n'.named = n.named
  missing : n'.missing = n.missing

/-- The second list is the first with comments put in between. -/
inductive Interspersed : List Node → List Node → Prop
  | nil : Interspersed [] []
  | kept {n : Node} {ns ns' : List Node} : Interspersed ns ns' → Interspersed (n :: ns) (n :: ns')
  | put {c : Node} {ns ns' : List Node} : c.kind = "comment" → Interspersed ns ns' →
      Interspersed ns (c :: ns')

/-- Comments may be put anywhere among the children of a block, and among
those of a statement with a named child where they are allowed. -/
def TakesComments (Allowed : List Node → List Node → Prop) (n : Node) (kids kids' : List Node) :
    Prop :=
  kids' = kids ∨ Interspersed kids kids' ∧
    (n.kind = "block" ∨ n.kind = "statement" ∧ n.namedChildren ≠ [] ∧ Allowed kids kids')

/-- The second tree is the first with comments put in, at the root and below. -/
inductive Commented (Allowed : List Node → List Node → Prop) : Node → Node → Prop
  | intro {n n' : Node} {kids : List Node} : SameHead n n' →
      List.Forall₂ (Commented Allowed) n.children kids →
      TakesComments Allowed n kids n'.children → Commented Allowed n n'

/-- The first named child stays the first, unless it is a comment itself. -/
def FirstKept (kids kids' : List Node) : Prop :=
  kids'.find? (·.named) = kids.find? (·.named) ∨
    ∃ c, kids.find? (·.named) = some c ∧ c.kind = "comment"

namespace Interspersed

variable {ns ns' : List Node}

theorem refl : ∀ ns : List Node, Interspersed ns ns
  | [] => .nil
  | _ :: ns => .kept (refl ns)

/-- Comments are no statements. -/
theorem filter_statement (h : Interspersed ns ns') :
    ns'.filter (·.kind == "statement") = ns.filter (·.kind == "statement") := by
  induction h with
  | nil => rfl
  | kept _ ih => rw [List.filter_cons, List.filter_cons, ih]
  | put hc _ ih => rw [List.filter_cons_of_neg (by simp [hc]), ih]

/-- The first named child stays the first, or a comment takes its place. -/
theorem find?_named (h : Interspersed ns ns') :
    ns'.find? (·.named) = ns.find? (·.named) ∨
      ∃ c, ns'.find? (·.named) = some c ∧ c.kind = "comment" := by
  induction h with
  | nil => exact .inl rfl
  | @kept n ns ns' _ ih =>
    rw [List.find?_cons, List.find?_cons]
    cases n.named with
    | true => exact .inl rfl
    | false => exact ih
  | @put c ns ns' hc _ ih =>
    rw [List.find?_cons]
    cases c.named with
    | true => exact .inr ⟨c, rfl, hc⟩
    | false => exact ih

end Interspersed

/-- A first child that is a comment may have been replaced, but then by another comment. -/
theorem FirstKept.cases {kids kids' : List Node} (hkept : FirstKept kids kids')
    (hput : Interspersed kids kids') :
    kids'.find? (·.named) = kids.find? (·.named) ∨
      ∃ c c', kids.find? (·.named) = some c ∧ kids'.find? (·.named) = some c' ∧
        c.kind = "comment" ∧ c'.kind = "comment" := by
  rcases hkept with hsame | ⟨c, hc, hcomment⟩
  · exact .inl hsame
  · rcases hput.find?_named with hsame | ⟨c', hc', hcomment'⟩
    · exact .inl hsame
    · exact .inr ⟨c, c', hc, hc', hcomment, hcomment'⟩

namespace Commented

variable {Allowed : List Node → List Node → Prop} {n n' : Node}

theorem refl (Allowed : List Node → List Node → Prop) (n : Node) : Commented Allowed n n :=
  .intro ⟨rfl, rfl, rfl, rfl⟩ (List.forall₂_same.2 fun k _ => refl Allowed k) (.inl rfl)
termination_by sizeOf n
decreasing_by
  rename_i hk
  have := List.sizeOf_lt_of_mem hk
  cases n
  simp only [Node.mk.sizeOf_spec] at *
  omega

theorem head (hc : Commented Allowed n n') : SameHead n n' := by
  cases hc
  assumption

theorem form?_eq (hc : Commented Allowed n n') : n'.form? = n.form? :=
  form?_congr hc.head.kind

/-- Below anything but a block or a statement, comments are put further down
only. -/
theorem children (hc : Commented Allowed n n') (hblock : n.kind ≠ "block")
    (hstatement : n.kind ≠ "statement") :
    List.Forall₂ (Commented Allowed) n.children n'.children := by
  obtain ⟨-, hkids, rfl | ⟨-, hkind | ⟨hkind, -⟩⟩⟩ := hc
  · exact hkids
  · exact absurd hkind hblock
  · exact absurd hkind hstatement

end Commented

/-! ### What becomes of the operands -/

section Operands

variable {n n' : Node}

/-- Lists that correspond one by one do so at every position. -/
theorem getElem?_of_forall₂ {R : Node → Node → Prop} {ns ns' : List Node}
    (hns : List.Forall₂ R ns ns') (i : Nat) : Option.Rel R ns[i]? ns'[i]? := by
  induction hns generalizing i with
  | nil => exact .none
  | cons hn _ ih =>
    cases i with
    | zero => exact .some hn
    | succ i => exact ih i

theorem childrenAt_of_forall₂ {R : Node → Node → Prop}
    (hkids : List.Forall₂ R n.children n'.children) (count : Nat) (positions : List Nat) :
    List.Forall₂ R (n.childrenAt count positions) (n'.childrenAt count positions) := by
  rw [childrenAt, childrenAt, hkids.length_eq]
  split
  · refine List.rel_filterMap (R := Eq) ?_ (List.forall₂_refl positions)
    rintro i _ rfl
    exact getElem?_of_forall₂ hkids i
  · exact .nil

/-- But for blocks and statements, children that correspond one by one make
operands that do. -/
theorem operands_of_forall₂ {R : Node → Node → Prop} (hkind : n'.kind = n.kind)
    (hblock : n.kind ≠ "block") (hstatement : n.kind ≠ "statement")
    (hkids : List.Forall₂ R n.children n'.children) :
    List.Forall₂ R n.operands n'.operands := by
  rw [operands_eq_visited, operands_eq_visited, visited, visited, hkind]
  split
  next hn => exact absurd hn hblock
  next hn => exact absurd hn hstatement
  next => exact childrenAt_of_forall₂ hkids 2 [1]
  next => exact childrenAt_of_forall₂ hkids 3 [0, 2]
  next => exact childrenAt_of_forall₂ hkids 3 [2]
  next => exact childrenAt_of_forall₂ hkids 3 [0]
  next => exact .nil

theorem operands_of_block (hn : n.kind = "block") :
    n.operands = n.children.filter (·.kind == "statement") := by
  rw [operands, show n.form? = some .block from form?_eq_some_iff.2 hn]

/-- A statement evaluates its first named child. -/
theorem operands_of_statement (hn : n.kind = "statement") :
    n.operands = (n.children.find? (·.named)).toList := by
  simp only [operands_eq_visited, visited, hn]

theorem find?_of_forall₂ {R : Node → Node → Prop} {ns ns' : List Node}
    (hR : ∀ k k', R k k' → k'.named = k.named) (hns : List.Forall₂ R ns ns') :
    Option.Rel R (ns.find? (·.named)) (ns'.find? (·.named)) := by
  induction hns with
  | nil => exact .none
  | @cons k k' _ _ hk _ ih =>
    rw [List.find?_cons, List.find?_cons, hR k k' hk]
    cases k.named with
    | true => exact .some hk
    | false => exact ih

theorem forall₂_toList {R : Node → Node → Prop} {k? k?' : Option Node} (h : Option.Rel R k? k?') :
    List.Forall₂ R k?.toList k?'.toList := by
  cases h with
  | none => exact .nil
  | some hk => exact .cons hk .nil

/-- What becomes of an operand: comments are put into it, or it is a comment
and another one comes in its place. -/
def Replaced (k k' : Node) : Prop :=
  Commented FirstKept k k' ∨ k.kind = "comment" ∧ k'.kind = "comment"

/-- The statements of a block are its operands, with comments put further down. -/
theorem Commented.operands_block (hc : Commented FirstKept n n') (hn : n.kind = "block") :
    List.Forall₂ Replaced n.operands n'.operands := by
  rw [operands_of_block hn, operands_of_block (hc.head.kind.trans hn)]
  obtain @⟨_, _, kids, -, hkids, htakes⟩ := hc
  have hsame : n'.children.filter (·.kind == "statement")
      = kids.filter (·.kind == "statement") := by
    rcases htakes with heq | ⟨hput, -⟩
    · rw [heq]
    · exact hput.filter_statement
  rw [hsame]
  exact (List.rel_filter (fun k k' hk => by simp [hk.head.kind]) hkids).imp fun _ _ => .inl

/-- The operand of a statement stays where it is, or is a comment as before. -/
theorem Commented.operands_statement (hc : Commented FirstKept n n') (hn : n.kind = "statement") :
    List.Forall₂ Replaced n.operands n'.operands := by
  rw [operands_of_statement hn, operands_of_statement (hc.head.kind.trans hn)]
  obtain @⟨_, _, kids, -, hkids, htakes⟩ := hc
  have hfirst := find?_of_forall₂ (fun k k' (hk : Commented FirstKept k k') => hk.head.named) hkids
  have hcases : n'.children.find? (·.named) = kids.find? (·.named) ∨
      ∃ c c', kids.find? (·.named) = some c ∧ n'.children.find? (·.named) = some c' ∧
        c.kind = "comment" ∧ c'.kind = "comment" := by
    rcases htakes with heq | ⟨hput, hkind | ⟨-, -, hkept⟩⟩
    · exact .inl (by rw [heq])
    · exact absurd (hkind.symm.trans hn) (by decide)
    · exact hkept.cases hput
  rcases hcases with hsame | ⟨c, c', hfound, hfound', hcomment, hcomment'⟩
  · rw [hsame]
    exact (forall₂_toList hfirst).imp fun _ _ => .inl
  · -- one comment takes the place of the other
    rw [hfound] at hfirst
    generalize n.children.find? (·.named) = first at hfirst
    cases hfirst with
    | some hk =>
      rw [hfound']
      exact .cons (.inr ⟨hk.head.kind.symm.trans hcomment, hcomment'⟩) .nil

/-- **The operands of a tree with comments put in** are those of the tree, one by one. -/
theorem Commented.operands (hc : Commented FirstKept n n') :
    List.Forall₂ Replaced n.operands n'.operands := by
  by_cases hblock : n.kind = "block"
  · exact hc.operands_block hblock
  · by_cases hstatement : n.kind = "statement"
    · exact hc.operands_statement hstatement
    · exact (operands_of_forall₂ hc.head.kind hblock hstatement
        (hc.children hblock hstatement)).imp fun _ _ => .inl

end Operands

/-! ### What becomes of the conclusion -/

/-- What is no member with three children is a name or nothing to assign to. -/
theorem targetNames_of_other {n : Node} (hn : n.kind = "member_expression" → n.children.length ≠ 3)
    (whole : String) (tail : List String) :
    n.targetNames whole tail = if n.kind == "identifier" then .ok (strip n.text :: tail)
      else .error (.throughForm n.kind whole) := by
  obtain ⟨kind, text, children, named, missing⟩ := n
  rw [targetNames]
  rintro object dot property hkind rfl
  exact hn hkind rfl

namespace Commented

variable {Allowed : List Node → List Node → Prop} {n n' : Node}

/-- Comments are put neither into members nor into names, so the names of a target stay. -/
theorem targetNames (hc : Commented Allowed n n') (whole : String) (tail : List String) :
    n'.targetNames whole tail = n.targetNames whole tail := by
  fun_induction Node.targetNames whole tail n generalizing n' with
  | case1 tail text object dot property named missing hproperty ih =>
    have hkids := hc.children (by simp) (by simp)
    obtain ⟨kind', text', kids', named', missing'⟩ := n'
    obtain rfl : kind' = "member_expression" := hc.head.kind
    dsimp only at hkids
    obtain _ | ⟨hobject, _ | ⟨-, _ | ⟨hname, _ | _⟩⟩⟩ := hkids
    rw [Node.targetNames, hname.head.kind, hname.head.text, if_pos hproperty, ih hobject]
  | case2 tail text object dot property named missing hproperty =>
    have hkids := hc.children (by simp) (by simp)
    obtain ⟨kind', text', kids', named', missing'⟩ := n'
    obtain rfl : kind' = "member_expression" := hc.head.kind
    dsimp only at hkids
    obtain _ | ⟨hobject, _ | ⟨-, _ | ⟨hname, _ | _⟩⟩⟩ := hkids
    rw [Node.targetNames, hname.head.kind, hname.head.text, if_neg hproperty]
  | case3 tail kind text children named missing hother hkind
  | case4 tail kind text children named missing hother hkind =>
    -- the other tree has no three children either
    have hother' : n'.kind = "member_expression" → n'.children.length ≠ 3 := by
      intro hmember hcount
      obtain rfl : kind = "member_expression" := hc.head.kind.symm.trans hmember
      have hkids := hc.children (by simp) (by simp)
      obtain ⟨object, dot, property, hchildren⟩ :=
        List.length_eq_three.1 (hkids.length_eq.trans hcount)
      exact hother object dot property rfl hchildren
    rw [targetNames_of_other hother', hc.head.kind, hc.head.text]
    simp only [hkind]
    rfl

/-- A target with comments put in stands for the same path. -/
theorem targetPath (hc : Commented Allowed n n') : n'.targetPath = n.targetPath := by
  rw [Node.targetPath, hc.head.text, hc.targetNames, Node.targetPath]

theorem assignTo_eq (hc : Commented Allowed n n') (e : ScopeId) (b : Binding) :
    assignTo e n' b = assignTo e n b := by
  rw [assignTo, hc.form?_eq, hc.head.text, hc.head.kind, hc.targetPath, assignTo]

/-- What a form makes of its values depends on its own text, on those of some children and
on their number, which all stay. -/
theorem concludeForm_eq {ks ks' : List Node} (hks : List.Forall₂ (Commented Allowed) ks ks')
    (htext : n'.text = n.text) (e : ScopeId) (form : Form) (values : List Value) :
    concludeForm e n' form ks' values = concludeForm e n form ks values := by
  fun_cases concludeForm e n form ks values with
  | case1 | case2 | case3 => rfl
  | case4 => rw [concludeForm, htext]
  | case5 _ _ x hx | case6 _ _ f hx => simp only [concludeForm, htext, hx]
  | case7 | case8 => rw [concludeForm, htext]
  | case9 op operand v f hop | case10 op operand v hop =>
    obtain _ | ⟨hk, _ | ⟨-, _ | _⟩⟩ := hks
    simp only [concludeForm, hk.head.text, hop]
  | case11 lhs op rhs a b f hop | case12 lhs op rhs a b hop =>
    obtain _ | ⟨-, _ | ⟨hk, _ | ⟨-, _ | _⟩⟩⟩ := hks
    simp only [concludeForm, hk.head.text, hop]
  | case13 object dot name scope =>
    obtain _ | ⟨-, _ | ⟨-, _ | ⟨hk, _ | _⟩⟩⟩ := hks
    simp only [concludeForm, hk.head.text]
  | case14 object dot name v hv =>
    obtain _ | ⟨-, _ | ⟨-, _ | ⟨hk, _ | _⟩⟩⟩ := hks
    simp only [concludeForm]
  | case15 target op rhs v =>
    obtain _ | ⟨htarget, _ | ⟨hk, _ | ⟨-, _ | _⟩⟩⟩ := hks
    rw [concludeForm, htarget.assignTo_eq, hk.head.text]
  | case16 _ _ _ _ _ _ _ _ _ _ hunary hbinary hmember hassignment =>
    -- there are as many children as before, so the count is wrong for both
    rw [concludeForm, hks.length_eq]
    any_goals assumption
    · rintro _ _ v hform rfl hv
      obtain _ | ⟨-, _ | ⟨-, _ | _⟩⟩ := hks
      exact hunary _ _ v hform rfl hv
    · rintro _ _ _ a b hform rfl hv
      obtain _ | ⟨-, _ | ⟨-, _ | ⟨-, _ | _⟩⟩⟩ := hks
      exact hbinary _ _ _ a b hform rfl hv
    · rintro _ _ _ v hform rfl hv
      obtain _ | ⟨-, _ | ⟨-, _ | ⟨-, _ | _⟩⟩⟩ := hks
      exact hmember _ _ _ v hform rfl hv
    · rintro _ _ _ v hform rfl hv
      obtain _ | ⟨-, _ | ⟨-, _ | ⟨-, _ | _⟩⟩⟩ := hks
      exact hassignment _ _ _ v hform rfl hv

/-- A node with comments put in makes the same of the values of its operands. -/
theorem conclude_eq (hc : Commented Allowed n n') (e : ScopeId) (values : List Value) :
    conclude e n' values = conclude e n values := by
  rw [conclude, conclude, hc.form?_eq, hc.head.kind]
  by_cases hblock : n.kind = "block"
  · rw [show n.form? = some .block from form?_eq_some_iff.2 hblock]
    rfl
  · by_cases hstatement : n.kind = "statement"
    · rw [show n.form? = some .statement from form?_eq_some_iff.2 hstatement]
      rfl
    · rcases n.form? with - | form
      · rfl
      · exact concludeForm_eq (hc.children hblock hstatement) hc.head.text e form values

end Commented

end Node

/-! ### Comments are inert -/

/-- A tree evaluates like one with comments put in, unless a comment comes in
front of the expression of a statement. -/
theorem evalAlike_of_commented {n n' : Node} (hc : n.Commented Node.FirstKept n') :
    EvalAlike n n' := by
  induction n using Node.operands_induction generalizing n' with
  | step n ih =>
    refine .of_operands hc.head.kind ?_ fun e values => ?_
    · -- the induction hypothesis is about operands, so membership is carried along
      refine ((List.forall₂_and_left _ _).2 ⟨fun k hk => hk, hc.operands⟩).imp ?_
      rintro k k' ⟨hk, hcommented | ⟨hcomment, hcomment'⟩⟩
      · exact ih k hk hcommented
      · exact evalAlike_comments hcomment hcomment'
    · rw [hc.conclude_eq]
      exact (conclude_ignoresPast e n values).alike.recover hc.head.kind hc.head.text

/-- A statement that begins with a comment comes to nothing. -/
theorem eval_statement_of_comment {n c : Node} (hn : n.kind = "statement")
    (hfirst : n.children.find? (·.named) = some c) (hc : c.kind = "comment") (limit : Int)
    (e : ScopeId) (m : Machine) (hlt : m.depth + 1 < limit) :
    ∃ m', eval limit e n m = .ok .void m' ∧ m'.untraced = m.untraced := by
  have hform : n.form? = some .statement := Node.form?_eq_some_iff.2 hn
  have hops : n.operands = [c] := by
    rw [Node.operands_of_statement hn, hfirst]
    rfl
  have hcomment : eval limit e c (m.enter n) = .ok .void ((m.enter n).enter c).leave := by
    rw [eval_leaf (by simp [form?_comment hc]) (operands_comment hc) hlt, conclude_comment hc]
    rfl
  refine ⟨((m.enter n).enter c).leave.leave, ?_, rfl⟩
  rw [eval_of_operand (by simp [hform]) hops hcomment, conclude, hform]
  rfl

/-- **Comments are inert, but for those before the expression of a statement.**
Put anywhere in blocks, and in statements behind their first named child, they
change neither value nor cause, neither heap nor diagnostics.  A statement that
begins with a comment is void, and what follows in it is not evaluated. -/
theorem comments_inert_behind_expression (n n' : Node) :
    (n.Commented Node.FirstKept n' → ∀ limit e m,
      untraced (eval limit e n' m) = untraced (eval limit e n m)) ∧
    ∀ c, n'.kind = "statement" → n'.children.find? (·.named) = some c → c.kind = "comment" →
      ∀ (limit : Int) e (m : Machine), m.depth + 1 < limit →
        ∃ m', eval limit e n' m = .ok .void m' ∧ m'.untraced = m.untraced :=
  ⟨fun hc limit e m => evalAlike_of_commented hc limit e m m rfl,
    fun _ hn hfirst hc => eval_statement_of_comment hn hfirst hc⟩

/-- In `x = { y = true; };`, a comment before the inner block's brace and
another before the last semicolon change nothing; one before `x` drops the
whole. -/
theorem comments_inert_in_nested_block :
    let inner := Node.block [(Node.identifier "y").assign "=" (.truth true)]
    let inner' := { inner with children := .anyComment :: inner.children }
    let x := Node.identifier "x"
    let body := x.assign "=" inner
    let body' := { body with children := [x, .token "=", inner'] }
    let n := Node.statement body
    let n' := { n with children := [body', .anyComment, .token ";"] }
    let dropped := { n with children := .anyComment :: n.children }
    let m : Machine := { heap := .initial }
    n.Commented Node.FirstKept n' ∧ untraced (eval 9 0 n' m) = untraced (eval 9 0 n m) ∧
      ∃ m', eval 9 0 dropped m = .ok .void m' ∧ m'.untraced = m.untraced := by
  intro inner inner' x body body' n n' dropped m
  -- from the innermost block outwards
  have hinner : inner.Commented Node.FirstKept inner' :=
    .intro ⟨rfl, rfl, rfl, rfl⟩ (List.forall₂_same.2 fun k _ => .refl _ k)
      (.inr ⟨.put rfl (.refl _), .inl rfl⟩)
  have hbody : body.Commented Node.FirstKept body' :=
    .intro ⟨rfl, rfl, rfl, rfl⟩ (.cons (.refl _ x) (.cons (.refl _ _) (.cons hinner .nil)))
      (.inl rfl)
  have hn : n.Commented Node.FirstKept n' :=
    .intro ⟨rfl, rfl, rfl, rfl⟩ (.cons hbody (.cons (.refl _ _) .nil))
      (.inr ⟨.kept (.put rfl (.refl _)), .inr ⟨rfl, List.cons_ne_nil _ _, .inl rfl⟩⟩)
  have hinert := (comments_inert_behind_expression n n').1 hn 9 0 m
  have hdropped := (comments_inert_behind_expression n dropped).2 .anyComment rfl rfl rfl 9 0 m
    (by decide)
  exact ⟨hn, hinert, hdropped⟩

/-- With a comment before it, the assignment in `x = true;` is dropped without
a word. -/
theorem comment_drops_assignment :
    let n := Node.statement ((Node.identifier "x").assign "=" (.truth true))
    let n' := { n with children := .anyComment :: n.children }
    n.Commented (fun _ _ => True) n' ∧
    (∃ m, eval 4 0 n { heap := .initial } = .ok (.boolean true) m ∧
      m.heap.own? 0 "x" = some ⟨.boolean true, true⟩) ∧
    ∃ m, eval 4 0 n' { heap := .initial } = .ok .void m ∧ m.heap.own? 0 "x" = none ∧
      m.diagnostics = #[] := by
  intro n n'
  refine ⟨?_, ?_, ?_⟩
  · exact .intro ⟨rfl, rfl, rfl, rfl⟩ (List.forall₂_same.2 fun k _ => .refl _ k)
      (.inr ⟨.put rfl (.refl _), .inr ⟨rfl, List.cons_ne_nil _ _, trivial⟩⟩)
  · let body := (Node.identifier "x").assign "=" (.truth true)
    let start : Machine := { heap := .initial }
    have hhome : Heap.initial.home .chain 0 "x" = 0 := by
      rw [Heap.home, Heap.resolve?_eq_none_iff.2 fun a _ => Heap.own?_initial a "x"]
      rfl
    have hrhs := eval_truth (m := (start.enter n).enter body) 4 0 true (by decide)
    obtain ⟨m, hbody, -, hheap⟩ := eval_assignment_of_name (n := body) rfl rfl hrhs rfl
      fun old hold => by cases (Heap.own?_initial _ _).symm.trans hold
    refine ⟨_, eval_of_operand (n := n) (by decide) rfl hbody, ?_⟩
    show m.heap.own? 0 "x" = _
    rw [hheap]
    show (Heap.initial.write (Heap.initial.home .chain 0 "x") "x" _).own? 0 "x" = _
    rw [hhome]
    decide
  · obtain ⟨m, hm, hsame⟩ := eval_statement_of_comment (n := n') rfl rfl rfl 4 0
      { heap := .initial } (by decide)
    rw [Machine.eq_of_untraced hsame] at hm
    exact ⟨_, hm, Heap.own?_initial 0 "x", rfl⟩

end BlockScript
