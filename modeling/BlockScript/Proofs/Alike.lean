/-
BlockScript/Proofs/Alike.lean

Evaluations that differ in the log alone.

The log names every node that is entered, so two trees have different logs even
if all else is the same.  Two computations are alike if, from machines that
differ in the log alone, they come to results that differ in the log alone:

    untraced (x' m')  =  untraced (x m)    where    untraced m'  =  untraced m.

These are the computations that look the same when all of the diagnostics is
looked at.  Hence two nodes of one kind evaluate alike if their operands do, one by
one, and if they conclude alike.
-/
import BlockScript.Proofs.Likeness

namespace BlockScript

/-! ### Computations that are alike but for the log -/

/-- The machine without its log. -/
def Machine.untraced (m : Machine) : Machine :=
  { m with trace := #[] }

/-- The result without the log. -/
def untraced {ε α : Type} : EStateM.Result ε Machine α → EStateM.Result ε Machine α
  | .ok a m => .ok a m.untraced
  | .error err m => .error err m.untraced

/-- From machines that differ in the log alone, the computations have results
that differ in the log alone. -/
def Alike {ε α : Type} (x x' : EStateM ε Machine α) : Prop :=
  ∀ m m', m'.untraced = m.untraced → untraced (x' m') = untraced (x m)

/-- Without their logs the same, two machines differ in the log alone. -/
theorem Machine.eq_of_untraced {m m' : Machine} (hm : m'.untraced = m.untraced) :
    m' = { m with trace := m'.trace } := by
  obtain ⟨heap, depth, diagnostics, trace⟩ := m
  obtain ⟨heap', depth', diagnostics', trace'⟩ := m'
  unfold untraced at hm
  cases hm
  rfl

/-- Machines that differ in the log alone are those whose diagnostics are the
same as a whole. -/
theorem Machine.like_id_iff {m m' : Machine} : m.Like id m' ↔ m'.untraced = m.untraced := by
  constructor
  · rintro ⟨hheap, hdepth, hdiagnostics⟩
    rw [Array.map_id, Array.map_id] at hdiagnostics
    rw [untraced, untraced, hheap, hdepth, hdiagnostics]
  · intro hm
    rw [eq_of_untraced hm]
    exact ⟨rfl, rfl, rfl⟩

/-- The results that differ in the log alone are those that look the same when all of the
diagnostics is looked at. -/
theorem resultLike_id_iff {ε α : Type} {r r' : EStateM.Result ε Machine α} :
    ResultLike id Eq r r' ↔ untraced r' = untraced r := by
  constructor
  · rintro (hm | ⟨rfl, hm⟩)
    · rw [untraced, untraced, Machine.like_id_iff.1 hm]
    · rw [untraced, untraced, Machine.like_id_iff.1 hm]
  · intro hr
    -- a value and an error never look the same, which leaves two of the four cases
    rcases r with ⟨a, m⟩ | ⟨err, m⟩ <;> rcases r' with ⟨a', m'⟩ | ⟨err', m'⟩ <;>
      rw [untraced, untraced] at hr
    · injection hr with hvalue hm
      exact hvalue ▸ .ok (Machine.like_id_iff.2 hm)
    · cases hr
    · cases hr
    · injection hr with herr hm
      exact .error herr.symm (Machine.like_id_iff.2 hm)

theorem alike_iff_likens {ε α : Type} {x x' : EStateM ε Machine α} :
    Alike x x' ↔ Likens id Eq x x' :=
  forall₂_congr fun _ _ => imp_congr Machine.like_id_iff.symm resultLike_id_iff.symm

/-- What does not look at the past does not look at the log. -/
theorem IgnoresPast.alike {ε α : Type} {x : EStateM ε Machine α} (hx : IgnoresPast x) :
    Alike x x :=
  alike_iff_likens.2 (.of_ignoresPast (fun _ => rfl) hx)

theorem Alike.pure {ε α : Type} (a : α) : Alike (pure a : EStateM ε Machine α) (pure a) :=
  alike_iff_likens.2 (.pure a)

/-! ### Nodes that evaluate alike -/

/-- In every scope and under every limit, the evaluations differ in the log
alone. -/
def EvalAlike (n n' : Node) : Prop :=
  ∀ limit e, Alike (eval limit e n) (eval limit e n')

section Rules

variable {n n' : Node}

theorem evalAlike_iff_evalLike : EvalAlike n n' ↔ EvalLike id n n' :=
  forall₂_congr fun _ _ => alike_iff_likens

/-- A report quotes the kind and the text of its node, and nothing else. -/
theorem Alike.recover {step step' : Step Value} (hstep : Alike step step')
    (hkind : n'.kind = n.kind) (htext : n'.text = n.text) :
    Alike (Step.recover n step) (Step.recover n' step') := by
  have hreport : ∀ fault, Diagnostic.ofFault fault n' = .ofFault fault n := fun fault => by
    simp [Diagnostic.ofFault, Diagnostic.ofMessage, hkind, htext]
  refine alike_iff_likens.2 (.recover ?_)
  exact (alike_iff_likens.1 hstep).imp fun failure failure' heq => heq ▸ .refl hreport failure

/-- Nodes evaluate alike if their operands do and they conclude alike. -/
theorem EvalAlike.of_operands (hkind : n'.kind = n.kind)
    (hops : List.Forall₂ EvalAlike n.operands n'.operands)
    (hconclude : ∀ e values, Alike (Step.recover n (conclude e n values))
      (Step.recover n' (conclude e n' values))) : EvalAlike n n' :=
  evalAlike_iff_evalLike.2 (.of_operands hkind
    (hops.imp fun _ _ => evalAlike_iff_evalLike.1)
    fun e values => alike_iff_likens.1 (hconclude e values))

theorem form?_comment (hn : n.kind = "comment") : n.form? = some .comment :=
  Node.form?_eq_some_iff.2 hn

theorem conclude_comment (hn : n.kind = "comment") (e : ScopeId) (values : List Value) :
    conclude e n values = pure .void := by
  rw [conclude, form?_comment hn]
  rfl

/-- Nothing of a comment is evaluated, whatever its children are. -/
theorem operands_comment (hn : n.kind = "comment") : n.operands = [] := by
  rw [Node.operands, form?_comment hn]

/-- Any two comments evaluate alike, whatever they say. -/
theorem evalAlike_comments (hn : n.kind = "comment") (hn' : n'.kind = "comment") :
    EvalAlike n n' := by
  refine .of_operands (hn'.trans hn.symm) ?_ fun e values => ?_
  · rw [operands_comment hn, operands_comment hn']
    exact .nil
  · rw [conclude_comment hn, conclude_comment hn']
    exact Alike.pure Value.void

end Rules

end BlockScript
