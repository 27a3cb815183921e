/-
BlockScript/Proofs/Balance.lean

The depth is balanced on every path.

An evaluation moves in four ways: it enters a node, opens the scope of the
operands, concludes the node, and leaves it.  Only the first and the last touch
the depth.  A node that is entered is left again, on every outcome; one that is
refused is neither entered nor left.

`moments` lists the machines that an evaluation comes to, move by move:

    m  →  enter  →  open  →  operands …  →  conclude  →  leave.

What a move keeps holds along the way, so the depth never exceeds the limit;
and between entering and leaving a node it is above what it was outside, so it
never falls below what it was at the start.
-/
import BlockScript.Proofs.Traversal

namespace BlockScript

/-! ### Moves -/

/-- A single move of an evaluation. -/
inductive Machine.Moves (limit : Int) : Machine → Machine → Prop
  | enter {m : Machine} (n : Node) : m.depth < limit → Moves limit m (m.enter n)
  | openOperands (m : Machine) (e : ScopeId) (n : Node) : Moves limit m (after (operandScope e n m))
  | conclude (m : Machine) (e : ScopeId) (n : Node) (values : List Value) :
      Moves limit m (after (Step.recover n (BlockScript.conclude e n values) m))
  | leave {m : Machine} : 0 < m.depth → Moves limit m m.leave

/-- Opening a scope for the operands is on the level of the node. -/
theorem depth_operandScope (e : ScopeId) (n : Node) (m : Machine) :
    (after (operandScope e n m)).depth = m.depth := by
  unfold operandScope
  split <;> rfl

/-- No move goes beyond the limit. -/
theorem Machine.Moves.depth_le {limit : Int} {m m' : Machine} (hmove : m.Moves limit m')
    (hm : m.depth ≤ limit) : m'.depth ≤ limit := by
  cases hmove with
  | enter n hlt =>
    show ((m.depth + 1 : Nat) : Int) ≤ limit
    omega
  | openOperands e n => rwa [depth_operandScope]
  | conclude e n values => rwa [depth_recover]
  | leave hpos =>
    show ((m.depth - 1 : Nat) : Int) ≤ limit
    omega

/-- Moves one after the other, with the machines that they come to. -/
inductive Passage (limit : Int) : Machine → List Machine → Machine → Prop
  | stay (m : Machine) : Passage limit m [] m
  | move {m k m' : Machine} {ks : List Machine} :
      m.Moves limit k → Passage limit k ks m' → Passage limit m (k :: ks) m'

namespace Passage

variable {limit : Int} {m m' m'' : Machine} {ks ks' : List Machine}

theorem trans (hp : Passage limit m ks m') (hp' : Passage limit m' ks' m'') :
    Passage limit m (ks ++ ks') m'' := by
  induction hp with
  | stay m => exact hp'
  | move hmove _ ih => exact .move hmove (ih hp')

/-- No moment of a passage lies beyond the limit. -/
theorem depth_le (hp : Passage limit m ks m') (hm : m.depth ≤ limit) :
    ∀ k ∈ ks, k.depth ≤ limit := by
  induction hp with
  | stay m => simp
  | move hmove _ ih =>
    have hk := hmove.depth_le hm
    intro k hmem
    rcases List.mem_cons.1 hmem with rfl | hmem
    · exact hk
    · exact ih hk k hmem

end Passage

/-! ### The moments of an evaluation -/

/-- What happens to a node behind its operands. -/
def closing (e : ScopeId) (n : Node) : Outcome (List Value) → List Machine
  | .ok values m =>
    let concluded := after (Step.recover n (conclude e n values) m)
    [concluded, concluded.leave]
  | .error _ m => [m.leave]

mutual

/-- The machines that the evaluation of a node comes to, in order. -/
def moments (limit : Int) (e : ScopeId) (n : Node) (m : Machine) : List Machine :=
  if limit ≤ m.depth then []
  else
    m.enter n :: m.inside e n ::
      (momentsAll limit (n.scopeFrom e m.heap).1 n.operands (m.inside e n) ++
        closing (n.scopeFrom e m.heap).1 n
          (evalAll limit (n.scopeFrom e m.heap).1 n.operands (m.inside e n)))
termination_by sizeOf n
decreasing_by exact n.sizeOf_operands_lt

/-- The machines that the evaluation of nodes from left to right comes to, up
to the first node that stops. -/
def momentsAll (limit : Int) (e : ScopeId) : List Node → Machine → List Machine
  | [], _ => []
  | n :: ns, m =>
    moments limit e n m ++
      match eval limit e n m with
      | .ok _ m' => momentsAll limit e ns m'
      | .error _ _ => []
termination_by ns => sizeOf ns

end

section Rules

variable {limit : Int} {e : ScopeId} {n : Node} {ns : List Node} {m m' : Machine}

theorem moments_of_tooDeep (h : limit ≤ m.depth) : moments limit e n m = [] := by
  rw [moments, if_pos h]

theorem moments_of_operands {r : Outcome (List Value)} (h : m.depth < limit)
    (hops : evalAll limit (n.scopeFrom e m.heap).1 n.operands (m.inside e n) = r) :
    moments limit e n m
      = m.enter n :: m.inside e n ::
          (momentsAll limit (n.scopeFrom e m.heap).1 n.operands (m.inside e n) ++
            closing (n.scopeFrom e m.heap).1 n r) := by
  rw [moments, if_neg (Int.not_le.2 h), hops]

theorem momentsAll_cons_of_ok {v : Value} (h : eval limit e n m = .ok v m') :
    momentsAll limit e (n :: ns) m = moments limit e n m ++ momentsAll limit e ns m' := by
  rw [momentsAll, h]

theorem momentsAll_cons_of_error {halt : Halt} (h : eval limit e n m = .error halt m') :
    momentsAll limit e (n :: ns) m = moments limit e n m := by
  rw [momentsAll, h]
  exact List.append_nil _

end Rules

/-! ### What an evaluation passes through -/

/-- The moments lead from one machine to another, and none of them lies above
the first. -/
structure Balanced (limit : Int) (m : Machine) (ks : List Machine) (m' : Machine) : Prop where
  passage : Passage limit m ks m'
  depth_eq : m'.depth = m.depth
  le_depth : ∀ k ∈ ks, m.depth ≤ k.depth

namespace Balanced

variable {limit : Int} {m m' m'' : Machine} {ks ks' : List Machine}

theorem stay (m : Machine) : Balanced limit m [] m :=
  ⟨.stay m, rfl, by simp⟩

theorem trans (hb : Balanced limit m ks m') (hb' : Balanced limit m' ks' m'') :
    Balanced limit m (ks ++ ks') m'' where
  passage := hb.passage.trans hb'.passage
  depth_eq := hb'.depth_eq.trans hb.depth_eq
  le_depth k hk := by
    rcases List.mem_append.1 hk with hk | hk
    · exact hb.le_depth k hk
    · exact hb.depth_eq ▸ hb'.le_depth k hk

/-- A move that keeps the depth, at the end. -/
theorem concat {k : Machine} (hb : Balanced limit m ks m') (hmove : m'.Moves limit k)
    (hk : k.depth = m'.depth) : Balanced limit m (ks ++ [k]) k :=
  hb.trans ⟨.move hmove (.stay k), hk, by simp [hk]⟩

/-- Entering a node and leaving it, with moments inside that are balanced
themselves. -/
theorem node {n : Node} (e : ScopeId) (hlt : m.depth < limit)
    (hb : Balanced limit (m.inside e n) ks m') :
    Balanced limit m (m.enter n :: m.inside e n :: (ks ++ [m'.leave])) m'.leave := by
  have hdepth : m'.depth = m.depth + 1 := hb.depth_eq
  have hopen : (m.enter n).Moves limit (m.inside e n) := by
    have hmove := @Machine.Moves.openOperands limit (m.enter n) e n
    rwa [operandScope_enter] at hmove
  have hleave : m'.Moves limit m'.leave := .leave (hdepth ▸ Nat.succ_pos _)
  have hout : m'.leave.depth = m.depth := by
    show m'.depth - 1 = m.depth
    rw [hdepth, Nat.add_sub_cancel]
  refine ⟨.move (.enter n hlt) (.move hopen (hb.passage.trans (.move hleave (.stay _)))), hout, ?_⟩
  intro k hk
  have hinside : ∀ k' : Machine, (m.inside e n).depth ≤ k'.depth → m.depth ≤ k'.depth :=
    fun _ hle => Nat.le_of_succ_le hle
  -- entering, opening, what happens inside, leaving
  rcases List.mem_cons.1 hk with rfl | hk
  · exact Nat.le_succ _
  · rcases List.mem_cons.1 hk with rfl | hk
    · exact Nat.le_succ _
    · rcases List.mem_append.1 hk with hk | hk
      · exact hinside k (hb.le_depth k hk)
      · rw [List.mem_singleton.1 hk, hout]

end Balanced

/-- **Evaluations are balanced**, whatever the outcome. -/
theorem eval_balanced (limit : Int) :
    (∀ e n m, Balanced limit m (moments limit e n m) (after (eval limit e n m))) ∧
      ∀ e ns m, Balanced limit m (momentsAll limit e ns m) (after (evalAll limit e ns m)) := by
  refine eval_induction limit
    (fun e n m r => Balanced limit m (moments limit e n m) (after r))
    (fun e ns m r => Balanced limit m (momentsAll limit e ns m) (after r)) ?_ ?_ ?_ ?_ ?_ ?_ ?_
  · -- refused: neither entered nor left
    intro e n m hdeep
    rw [moments_of_tooDeep hdeep]
    exact .stay m
  · -- an operand has stopped, and the node is left
    intro e n m halt m' hlt hops ih
    rw [moments_of_operands hlt hops]
    exact ih.node e hlt
  · -- the node concludes, and is left
    intro e n m values m' hlt hops ih
    have hconcluded := ih.concat (.conclude m' (n.scopeFrom e m.heap).1 n values)
      (depth_recover _ n values m')
    rw [moments_of_operands hlt hops, after_left]
    have hnode := hconcluded.node e hlt
    rw [List.append_assoc] at hnode
    exact hnode
  · intro e m
    rw [momentsAll]
    exact .stay m
  · -- the node has stopped, so nothing follows
    intro e n ns m halt m' he hn
    rw [momentsAll_cons_of_error he]
    exact hn
  · -- one node after the other, whether the last ones stop or not
    intro e n ns m v m' halt m'' he hn hns
    rw [momentsAll_cons_of_ok he]
    exact hn.trans hns
  · intro e n ns m v m' vs m'' he hn hns
    rw [momentsAll_cons_of_ok he]
    exact hn.trans hns

/-- **The depth is balanced on every path.**  Whatever the outcome, the depth
is in the end what it was at the start.  The moments of the evaluation lead
from the one to the other, and at none of them is the depth above the limit or
below its first value. -/
theorem depth_balanced (limit : Int) (e : ScopeId) (tree : Node) (m : Machine)
    (hm : m.depth ≤ limit) :
    (after (eval limit e tree m)).depth = m.depth ∧
      Passage limit m (moments limit e tree m) (after (eval limit e tree m)) ∧
      ∀ k ∈ moments limit e tree m, m.depth ≤ k.depth ∧ k.depth ≤ limit := by
  obtain ⟨hpassage, hdepth, hle⟩ := (eval_balanced limit).1 e tree m
  exact ⟨hdepth, hpassage, fun k hk => ⟨hle k hk, hpassage.depth_le hm k hk⟩⟩

/-- One level is left: the statement is entered, and its negation, which lies
on the level of the limit, is refused. -/
theorem depth_balanced_at_limit :
    let tree : Node := .statement (.unary "-" (.identifier "x"))
    let m : Machine := { heap := .initial, depth := 1 }
    let r := eval 2 0 tree m
    m.depth ≤ (2 : Int) ∧ (after r).depth = 1 ∧ Passage 2 m (moments 2 0 tree m) (after r) ∧
      ∀ k ∈ moments 2 0 tree m, 1 ≤ k.depth ∧ k.depth ≤ (2 : Int) := by
  intro tree m r
  have hm : m.depth ≤ (2 : Int) := by decide
  exact ⟨hm, depth_balanced 2 0 tree m hm⟩

end BlockScript
