/-
BlockScript/Proofs/Target.lean

Paths of names, as targets and as expressions.

A node that is made of names only is read in two ways.  As the target of an
assignment it stands for the list of its names,

    targetPath n  =  ok names,

and as an expression it has the value that the names lead to,

    eval limit e n m  =  ok v _    where    follow chain e names = some v,

with the first name looked for along the chain and each later one in the own
table of the block before it.  Reading changes neither heap nor diagnostics.
-/
import BlockScript.Proofs.Walk
import BlockScript.Syntax.Build

namespace BlockScript

/-! ### Paths as targets -/

/-- A node made of names only, with the names along it: an identifier, or a
member of such a node. -/
inductive Node.IsPath : Node → List String → Prop
  | name {n : Node} : n.form? = some .identifier → IsPath n [strip n.text]
  | member {n object dot property : Node} {names : List String} :
      n.form? = some .member → n.children = [object, dot, property] → IsPath object names →
      property.form? = some .identifier → IsPath n (names ++ [strip property.text])

namespace Node.IsPath

variable {n : Node} {names : List String}

theorem ne_nil (hpath : n.IsPath names) : names ≠ [] := by
  cases hpath <;> simp

/-- The names are collected in front of those that are further on. -/
theorem targetNames (hpath : n.IsPath names) (whole : String) (tail : List String) :
    n.targetNames whole tail = .ok (names ++ tail) := by
  -- on the path from its last name: what is further on becomes longer
  induction hpath generalizing tail with
  | @name n hn =>
    obtain ⟨kind, text, children, named, missing⟩ := n
    obtain rfl : kind = "identifier" := Node.form?_eq_some_iff.1 hn
    simp [Node.targetNames]
  | @member n object dot property names hn hchildren _ hproperty ih =>
    obtain ⟨kind, text, children, named, missing⟩ := n
    obtain rfl : kind = "member_expression" := Node.form?_eq_some_iff.1 hn
    obtain rfl : children = [object, dot, property] := hchildren
    have hkind : property.kind = "identifier" := Node.form?_eq_some_iff.1 hproperty
    simp [Node.targetNames, hkind, ih]

/-- As a target, a path stands for its names. -/
theorem targetPath (hpath : n.IsPath names) : n.targetPath = .ok names := by
  rw [Node.targetPath, hpath.targetNames, List.append_nil]

/-- The names along a path have no blanks around them. -/
theorem map_strip (hpath : n.IsPath names) : names.map strip = names := by
  induction hpath with
  | name => rw [List.map_singleton, strip_strip]
  | member _ _ _ _ ih => rw [List.map_append, ih, List.map_singleton, strip_strip]

theorem identifier {name : String} (hname : strip name = name) :
    (Node.identifier name).IsPath [name] := by
  have hpath := IsPath.name (n := .identifier name) rfl
  rwa [show strip (Node.identifier name).text = name from hname] at hpath

theorem memberOf {object : Node} {name : String} (hobject : object.IsPath names)
    (hname : strip name = name) :
    (Node.member object (.identifier name)).IsPath (names ++ [name]) := by
  have hpath := IsPath.member (n := .member object (.identifier name)) rfl rfl hobject rfl
  rwa [show strip (Node.identifier name).text = name from hname] at hpath

end Node.IsPath

/-! ### Paths as expressions -/

namespace Heap

/-- The value that a path of names leads to.  The first name is looked for as
far out as `reach` says, each later one in the block before it. -/
def follow (h : Heap) : Reach → ScopeId → List String → Option Value
  | _, _, [] => none
  | reach, e, [name] => some (h.lookupOwn (h.home reach e name) name)
  | reach, e, name :: next :: rest =>
    match h.lookupOwn (h.home reach e name) name with
    | .block c => h.follow .own c (next :: rest)
    | _ => none

theorem follow_of_block {h : Heap} {reach : Reach} {e c : ScopeId} {name next : String}
    {rest : List String} (hc : h.lookupOwn (h.home reach e name) name = .block c) :
    h.follow reach e (name :: next :: rest) = h.follow .own c (next :: rest) := by
  rw [follow, hc]

/-- A path that leads somewhere leads through blocks. -/
theorem follow_concat {h : Heap} {reach : Reach} {e : ScopeId} {path : List String}
    {name : String} {v : Value} (hne : path ≠ [])
    (hv : h.follow reach e (path ++ [name]) = some v) :
    ∃ c, h.follow reach e path = some (.block c) ∧ h.lookupOwn c name = v := by
  fun_induction follow h reach e path with
  | case1 => exact absurd rfl hne
  | case2 reach e first =>
    rw [List.singleton_append, follow] at hv
    split at hv
    next c hc => exact ⟨c, congrArg some hc, Option.some.inj hv⟩
    next => cases hv
  | case3 reach e first next rest c hfirst ih =>
    rw [List.cons_append, List.cons_append, follow_of_block hfirst] at hv
    exact ih (by simp) hv
  | case4 reach e first next rest hfirst =>
    rw [List.cons_append, List.cons_append, follow] at hv
    split at hv
    next c hc => exact absurd hc (hfirst c)
    next => cases hv

end Heap

section Reading

variable {limit : Int} {e : ScopeId} {n : Node} {m m' : Machine}

/-- A name has the value that is found for it. -/
theorem eval_identifier (hn : n.form? = some .identifier) (hlt : m.depth < limit) :
    eval limit e n m = .ok (m.heap.lookup e (strip n.text)) (m.enter n).leave := by
  have hops : n.operands = [] := by rw [Node.operands, hn]
  have hvalue : conclude e n [] (m.enter n)
      = .ok (m.heap.lookup e (strip n.text)) (m.enter n) := by
    rw [conclude, hn]
    rfl
  rw [eval_leaf (by simp [hn]) hops hlt, Step.recover_of_ok hvalue]
  rfl

/-- A member has the value that its block has for its name. -/
theorem eval_member {object dot property : Node} {c : ScopeId} (hn : n.form? = some .member)
    (hchildren : n.children = [object, dot, property])
    (hobject : eval limit e object (m.enter n) = .ok (.block c) m') :
    eval limit e n m = .ok (m'.heap.lookupOwn c (strip property.text)) m'.leave := by
  have hops : n.operands = [object] := by rw [Node.operands, hn, hchildren]
  have hvalue : conclude e n [.block c] m'
      = .ok (m'.heap.lookupOwn c (strip property.text)) m' := by
    rw [conclude, hn, hchildren]
    rfl
  rw [eval_of_operand (by simp [hn]) hops hobject, Step.recover_of_ok hvalue]
  rfl

/-- As an expression, a path has the value that its names lead to, if there
is a level of nesting for each name. -/
theorem eval_path {names : List String} {v : Value} (hpath : n.IsPath names)
    (hv : m.heap.follow .chain e names = some v) (hdepth : m.depth + names.length ≤ limit) :
    ∃ m', eval limit e n m = .ok v m' ∧ m'.heap = m.heap ∧ m'.diagnostics = m.diagnostics := by
  induction hpath generalizing m v with
  | @name n hn =>
    have hlt : m.depth < limit := by
      simp only [List.length_singleton] at hdepth
      omega
    refine ⟨(m.enter n).leave, ?_, rfl, rfl⟩
    rw [eval_identifier hn hlt, Heap.lookup_eq_lookupOwn_home]
    exact congrArg (EStateM.Result.ok · _) (Option.some.inj hv)
  | @member n object dot property names hn hchildren hobject _ ih =>
    obtain ⟨c, hc, rfl⟩ := Heap.follow_concat hobject.ne_nil hv
    have hinner : (m.enter n).depth + names.length ≤ limit := by
      show ((m.depth + 1 : Nat) : Int) + names.length ≤ limit
      rw [List.length_append, List.length_singleton] at hdepth
      omega
    obtain ⟨m', hm', hheap, hdiag⟩ := ih (m := m.enter n) hc hinner
    refine ⟨m'.leave, ?_, hheap, hdiag⟩
    rw [eval_member hn hchildren hm', hheap]
    rfl

end Reading

end BlockScript
