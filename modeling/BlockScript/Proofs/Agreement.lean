/-
BlockScript/Proofs/Agreement.lean

What was assigned to a path is what the path then reads.

Assigning walks a path and makes the blocks that are missing; reading follows
it through lookups.  The two find the names in the same places, so that after
an assignment that succeeds

    follow chain e names  =  some v,

unless the assignment has itself changed a slot that the walk had consulted.
Then the names lead elsewhere afterwards: with `s.me` bound to `s`, the target
`s.me.me` cuts off its own way.

It is not enough that the slot of the last name was not consulted.  A block
that is made on the way can stand in front of the name that led to it, if a
scope is on the chain and the value of a name at once (`made_block_hides_path`).
`setsAlong` therefore lists all the slots that an assignment sets.
-/
import BlockScript.Proofs.Evolution
import BlockScript.Proofs.Frame
import BlockScript.Proofs.Target

namespace BlockScript

namespace Heap

/-! ### The slots set along a path -/

/-- The slots that an assignment along a path sets, each with the slots that
are consulted on the way to it, `seen` before the start. -/
def setsAlong (h : Heap) (seen : List (ScopeId × String)) :
    Reach → ScopeId → List String → List ((ScopeId × String) × List (ScopeId × String))
  | _, _, [] => []
  | reach, e, [name] => [((h.home reach e name, name), seen)]
  | reach, e, name :: next :: rest =>
    match h.own? (h.home reach e name) name with
    | some ⟨.block inner, _⟩ =>
      h.setsAlong (seen ++ h.consulted reach e name) .own inner (next :: rest)
    | _ =>
      ((h.home reach e name, name), seen) ::
        (h.withBlock (h.home reach e name) name e).setsAlong
          (seen ++ h.consulted reach e name) .own h.scopes.size (next :: rest)

section Sets

variable {h : Heap} {seen : List (ScopeId × String)} {reach : Reach} {e : ScopeId}
  {name next : String} {rest : List String}

theorem setsAlong_of_block {inner : ScopeId} {mark : Bool}
    (hb : h.own? (h.home reach e name) name = some ⟨.block inner, mark⟩) :
    h.setsAlong seen reach e (name :: next :: rest)
      = h.setsAlong (seen ++ h.consulted reach e name) .own inner (next :: rest) := by
  rw [setsAlong, hb]

theorem setsAlong_of_vacant (hv : h.Vacant (h.home reach e name) name) :
    h.setsAlong seen reach e (name :: next :: rest)
      = ((h.home reach e name, name), seen) ::
          (h.withBlock (h.home reach e name) name e).setsAlong
            (seen ++ h.consulted reach e name) .own h.scopes.size (next :: rest) := by
  rw [setsAlong]
  split
  next hb => cases hv _ hb
  next => rfl

/-- The first slot that is set is one of those listed, with all that was seen
before. -/
theorem firstSet_mem_setsAlong (h : Heap) (seen : List (ScopeId × String)) (reach : Reach)
    (e : ScopeId) {path : List String} (hne : path ≠ []) :
    ∃ more, (h.firstSet reach e path, seen ++ more) ∈ h.setsAlong seen reach e path := by
  fun_induction firstSet h reach e path generalizing seen with
  | case1 => exact absurd rfl hne
  | case2 reach e name => exact ⟨[], by simp [setsAlong]⟩
  | case3 reach e name next rest inner mark hb ih =>
    obtain ⟨more, hmem⟩ := ih (seen ++ h.consulted reach e name) (by simp)
    refine ⟨h.consulted reach e name ++ more, ?_⟩
    rw [setsAlong_of_block hb, ← List.append_assoc]
    exact hmem
  | case4 reach e name next rest hb =>
    refine ⟨[], ?_⟩
    rw [setsAlong, List.append_nil]
    split
    next inner mark hb' => exact absurd hb' (hb inner mark)
    next => exact List.mem_cons_self

end Sets

/-! ### Reading back -/

theorem lookupOwn_of_own? {h : Heap} {s : ScopeId} {name : String} {b : Binding}
    (hb : h.own? s name = some b) : h.lookupOwn s name = b.value := by
  rw [lookupOwn, hb]
  rfl

/-- A path that was walked and bound leads to what was bound, if no slot that
was set had been consulted before. -/
theorem walk_follow (reach : Reach) (e : ScopeId) (constant : Bool) (path : List String)
    (h : Heap) (b : Binding) {seen : List (ScopeId × String)} {arrival : Arrival} {h' : Heap}
    (hclosed : h.Closed) (he : e < h.scopes.size)
    (hw : walk reach e constant path h = .ok arrival h') (hne : path ≠ [])
    (hlong : reach = .own ∨ 2 ≤ path.length)
    (hunread : ∀ set ∈ h.setsAlong seen reach e path, set.1 ∉ set.2) :
    (h'.write arrival.scope (path.getLastD "") b).follow reach e path = some b.value := by
  induction reach, e, constant, path, h using walk_induction generalizing seen arrival h' with
  | nil => exact absurd rfl hne
  | last reach e constant name h _ =>
    cases hw
    rcases hlong with rfl | hlong
    · -- the last name is read from the slot that was written
      have hb : (h.write e name b).own? e name = some b := by
        rw [own?_write, if_pos ⟨rfl, he, rfl⟩]
      exact congrArg some (lookupOwn_of_own? hb)
    · simp at hlong
  | refused => cases hw
  | barred => cases hw
  | unmakeable => cases hw
  | through reach e constant name next rest h inner mark r hb hr ih =>
    -- the slots consulted for the name are as before, so it leads on to `inner`
    have hd := walk_differsAt reach e constant (name :: next :: rest) h b
      ((walk_of_block hb).trans (hr.trans hw)) hne (.inr (by simp))
    rw [setsAlong_of_block hb] at hunread
    -- what is set first is set behind `inner`, when these slots had been seen
    have hslot : h.firstSet reach e (name :: next :: rest) ∉ h.consulted reach e name := by
      obtain ⟨more, hmem⟩ := h.firstSet_mem_setsAlong (seen ++ h.consulted reach e name) .own
        inner (List.cons_ne_nil next rest)
      rw [firstSet_of_block hb]
      intro hin
      exact hunread _ hmem (List.mem_append_left more (List.mem_append_right seen hin))
    have hkept := hd.own?_eq _ name (home_lt_size he)
      fun heq => hslot (heq ▸ h.home_mem_consulted reach e name)
    rw [follow_of_block (c := inner) ?_]
    · exact ih hclosed (hclosed inner (.of_own? hb)) hw (by simp) (.inl rfl) hunread
    · rw [hd.home_of_not_consulted he hslot]
      exact lookupOwn_of_own? (hkept.trans hb)
  | making reach e name next rest h r hv hmut hr ih =>
    rw [setsAlong_of_vacant hv] at hunread
    have hd := walk_differsAt reach e false (name :: next :: rest) h b
      ((walk_of_vacant_makeable hv hmut).trans ((congrArg (made name) hr).trans hw)) hne
      (.inr (by simp))
    rw [firstSet_of_vacant hv] at hd
    rcases r with ⟨arrival₁, h₁⟩ | ⟨f, h₁⟩
    · cases hw
      -- the new block stands in the slot of the name, so it is found there
      have hsize := size_withBlock h (h.home reach e name) name e
      have hinner := walk_differsAt .own h.scopes.size false (next :: rest) _ b hr (by simp)
        (.inl rfl)
      rw [firstSet_withBlock] at hinner
      have hhome : h.home reach e name < h.scopes.size := home_lt_size he
      have hb := hinner.own?_eq (h.home reach e name) name
        (by rw [hsize]; exact Nat.lt_succ_of_lt hhome)
        fun heq => Nat.ne_of_lt hhome (congrArg Prod.fst heq)
      rw [own?_withBlock, if_pos ⟨rfl, hhome, rfl⟩] at hb
      have hread : (h'.write arrival₁.scope ((next :: rest).getLastD "") b).follow .own
          h.scopes.size (next :: rest) = some b.value :=
        ih hclosed.withBlock (by rw [hsize]; exact Nat.lt_succ_self _) rfl (by simp) (.inl rfl)
          fun set hset => hunread set (List.mem_cons_of_mem _ hset)
      rw [follow_of_block (c := h.scopes.size) ?_]
      · exact hread
      · rw [hd.home_of_bound he (Option.isSome_of_eq_some hb)]
        exact lookupOwn_of_own? hb
    · cases hw

end Heap

/-- What a successful assignment to a path has bound is what the path then
leads to. -/
theorem Assigned.follow {e : ScopeId} {target : Node} {names : List String} {b : Binding}
    {h h' : Heap} {v : Value} (ha : Assigned e target b h v h') (hpath : target.IsPath names)
    (hclosed : h.Closed) (he : e < h.scopes.size)
    (hunread : ∀ set ∈ h.setsAlong [] .chain e names, set.1 ∉ set.2) :
    h'.follow .chain e names = some v := by
  cases ha with
  | ignored hid hmem =>
    cases hpath with
    | name hn => exact absurd hn hid
    | member hn => exact absurd hn hmem
  | name ht hmut =>
    cases hpath with
    | name =>
      -- the name is now bound in its home, so that it is found there
      have hb := Heap.own?_write h (h.home .chain e (strip target.text))
        (h.home .chain e (strip target.text)) (strip target.text) (strip target.text) b
      rw [if_pos ⟨rfl, Heap.home_lt_size he, rfl⟩] at hb
      have hhome := (Heap.differsAt_write h _ _ b).home_of_bound he (Option.isSome_of_eq_some hb)
      rw [Heap.follow, hhome, Heap.lookupOwn_of_own? hb]
    | member hn =>
      rw [ht] at hn
      cases hn
  | @member path arrival h₁ ht htarget hr hmut =>
    obtain rfl : names = path := Except.ok.inj (hpath.targetPath.symm.trans htarget)
    have hlong := Node.two_le_length_targetPath ht htarget
    -- the path was not refused, and its names are walked as they are
    rcases Heap.resolvePath_cases e names b.constant h with hcase | hcase
    · rw [hcase] at hr
      cases hr
    · rw [hcase, hpath.map_strip] at hr
      exact Heap.walk_follow .chain e b.constant names h b hclosed he hr hpath.ne_nil
        (.inr hlong) hunread

/-! ### Agreement, and where it ends -/

/-- A heap is closed whose inner scope is bound around it as a block. -/
theorem closed_with_inner_block (name : String) :
    ((Heap.initial.extend 0).2.write 0 name ⟨.block 1, false⟩).Closed := by
  apply ((Heap.Closed.of_unbound Heap.own?_initial).extend 0).write
  rintro c ⟨⟩
  exact Nat.lt_succ_self 1

/-- **What was assigned to a path is what the path reads.**  Let an assignment
to a path of names succeed without a report of its own, and let no slot that
it sets, those of the blocks it makes on the way included, be one that the
walk had consulted before.  Then the target has the value of the assignment
as an expression, read from the heap left behind with a level of nesting for
each name, and reading it reports nothing. -/
theorem assigned_path_reads_back {limit limit' : Int} {e : ScopeId} {n target op rhs : Node}
    {names : List String} {v w : Value} {m m₁ m₂ m₃ : Machine}
    (hclosed : m.heap.Closed) (he : e < m.heap.scopes.size)
    (hkind : n.kind = "assignment_expression") (hchildren : n.children = [target, op, rhs])
    (hpath : target.IsPath names) (hrhs : eval limit e rhs (m.enter n) = .ok w m₁)
    (heval : eval limit e n m = .ok v m₂) (hdiag : m₂.diagnostics = m₁.diagnostics)
    (hunread : ∀ set ∈ m₁.heap.setsAlong [] .chain e names, set.1 ∉ set.2)
    (hheap : m₃.heap = m₂.heap) (hdepth : m₃.depth + names.length ≤ limit') :
    ∃ m₄, eval limit' e target m₃ = .ok v m₄ ∧ m₄.diagnostics = m₃.diagnostics ∧
      m₄.heap = m₃.heap := by
  have hn : n.form? = some .assignment := Node.form?_eq_some_iff.2 hkind
  -- the right side keeps the heap closed and the scope in it
  have hev := Heap.eval_evolves limit e rhs (m.enter n)
  rw [hrhs] at hev
  have hclosed₁ : m₁.heap.Closed := hclosed.evolves hev
  have he₁ : e < m₁.heap.scopes.size := Nat.lt_of_lt_of_le he hev.size_le
  rcases eval_assignment_cases hn hchildren hrhs with
    ⟨u, m', hok, -, hassigned⟩ | ⟨d, m', hok, hreport, -, -⟩ | ⟨name, m', hstop, -⟩
  · rw [heval] at hok
    cases hok
    have hfollow := hassigned.follow hpath hclosed₁ he₁ hunread
    rw [← hheap] at hfollow
    obtain ⟨m₄, hread, hkept, hquiet⟩ := eval_path hpath hfollow hdepth
    exact ⟨m₄, hread, hquiet, hkept⟩
  · -- a report is one diagnostic more
    rw [heval] at hok
    cases hok
    rw [hdiag] at hreport
    have hsize := congrArg Array.size hreport
    rw [Array.size_push] at hsize
    omega
  · rw [heval] at hstop
    cases hstop

/-- With `p` an empty block, `p.q.r := true` makes the block `p.q`, and `p.q.r`
then reads as true. -/
theorem assigned_path_reads_back_nested :
    let h : Heap := (Heap.initial.extend 0).2.write 0 "p" ⟨.block 1, false⟩
    let target : Node := .member (.member (.identifier "p") (.identifier "q")) (.identifier "r")
    let n : Node := .assign target ":=" (.truth true)
    ∃ m m', eval 5 0 n { heap := h } = .ok (.boolean true) m ∧
      eval 5 0 target { heap := m.heap } = .ok (.boolean true) m' ∧ m'.diagnostics = #[] := by
  intro h target n
  let bound : Machine := ((({ heap := h } : Machine).enter n).enter (.truth true)).leave
  have hrhs : eval 5 0 (.truth true) (({ heap := h } : Machine).enter n)
      = .ok (.boolean true) bound :=
    eval_leaf (by decide) rfl (by show (1 : Int) < 5; decide)
  have hpath : target.IsPath ["p", "q", "r"] :=
    ((Node.IsPath.identifier (by decide)).memberOf (by decide)).memberOf (by decide)
  have hp : h.own? (h.home .chain 0 "p") "p" = some ⟨.block 1, false⟩ := by
    rw [Heap.home_of_own? (show h.own? 0 "p" = some ⟨.block 1, false⟩ from rfl)]
    rfl
  have hvacant : h.Vacant (h.home .own 1 "q") "q" := by
    intro b hb
    cases hb
  have hwalk : Heap.resolvePath 0 ["p", "q", "r"] (bindsConstant ":=") h
      = .ok ⟨2, ["q"]⟩ (h.withBlock 1 "q" 1) := by
    rw [show bindsConstant ":=" = false by decide,
      Heap.resolvePath_of_stripped (by decide) (by decide) (by decide), Heap.walk_of_block hp,
      Heap.walk_of_vacant_makeable hvacant fun old hold => (by cases hold),
      Heap.walk_last_of_mutable]
    rfl
  obtain ⟨m, heval, hdiag, -⟩ := eval_assignment_of_path (n := n) (by decide) rfl hrhs (by decide)
    hpath.targetPath hwalk fun old hold => by cases hold
  have hsets : h.setsAlong [] .chain 0 ["p", "q", "r"]
      = [((1, "q"), [(0, "p")]), ((2, "r"), [(0, "p"), (1, "q")])] := by
    have hconsulted : h.consulted .chain 0 "p" = [(0, "p")] := by
      rw [Heap.consulted, Heap.chain]
      rfl
    rw [Heap.setsAlong_of_block hp, Heap.setsAlong_of_vacant hvacant, hconsulted]
    rfl
  have hunread : ∀ set ∈ h.setsAlong [] .chain 0 ["p", "q", "r"], set.1 ∉ set.2 := by
    rw [hsets]
    decide
  have hclosed : h.Closed := closed_with_inner_block "p"
  have hread : ∃ m', eval 5 0 target { heap := m.heap } = .ok (.boolean true) m' ∧
      m'.diagnostics = #[] ∧ m'.heap = m.heap :=
    assigned_path_reads_back (m := { heap := h }) hclosed (by decide) rfl rfl hpath hrhs heval
      hdiag hunread rfl (by show (0 : Int) + 3 ≤ 5; decide)
  obtain ⟨m', hvalue, hquiet, -⟩ := hread
  exact ⟨m, m', heval, hvalue, hquiet⟩

/-- It does not suffice that the slot of the last name was not consulted.  Let
`x` be the block of a scope, bound around that scope.  There `x.x.y := true`
succeeds: the outer `x` is found, its member `x` is made, and `y` is set in the
new block.  But that member is itself a name `x` of the scope and hides the
outer one, so that `x.x.y` reads as void, with a report. -/
theorem made_block_hides_path :
    let h : Heap := (Heap.initial.extend 0).2.write 0 "x" ⟨.block 1, false⟩
    let target : Node := .member (.member (.identifier "x") (.identifier "x")) (.identifier "y")
    let n : Node := .assign target ":=" (.truth true)
    h.Closed ∧ target.IsPath ["x", "x", "y"] ∧
    ∃ m m' seen, eval 5 1 n { heap := h } = .ok (.boolean true) m ∧ m.diagnostics = #[] ∧
      (h.setsAlong [] .chain 1 ["x", "x", "y"]).getLast? = some ((2, "y"), seen) ∧
      (2, "y") ∉ seen ∧
      eval 5 1 target { heap := m.heap } = .ok .void m' ∧ m'.diagnostics.size = 1 := by
  intro h target n
  let bound : Machine := ((({ heap := h } : Machine).enter n).enter (.truth true)).leave
  have hrhs : eval 5 1 (.truth true) (({ heap := h } : Machine).enter n)
      = .ok (.boolean true) bound :=
    eval_leaf (by decide) rfl (by show (1 : Int) < 5; decide)
  have hobject : (Node.member (.identifier "x") (.identifier "x")).IsPath ["x", "x"] :=
    (Node.IsPath.identifier (by decide)).memberOf (by decide)
  have hpath : target.IsPath ["x", "x", "y"] := hobject.memberOf (by decide)
  have hclosed : h.Closed := closed_with_inner_block "x"
  -- the scope is 1 and the one around it 0, where `x` is found
  have hchain : h.chain 1 = [1, 0] := by
    rw [Heap.chain]
    show 1 :: h.chain 0 = [1, 0]
    rw [Heap.chain]
    rfl
  have hhome : h.home .chain 1 "x" = 0 := by
    rw [Heap.home, Heap.resolve?_eq_find?, hchain]
    rfl
  have hx : h.own? (h.home .chain 1 "x") "x" = some ⟨.block 1, false⟩ := by
    rw [hhome]
    rfl
  have hvacant : h.Vacant (h.home .own 1 "x") "x" := by
    intro b hb
    cases hb
  have hwalk : Heap.resolvePath 1 ["x", "x", "y"] (bindsConstant ":=") h
      = .ok ⟨2, ["x"]⟩ (h.withBlock 1 "x" 1) := by
    rw [show bindsConstant ":=" = false by decide,
      Heap.resolvePath_of_stripped (by decide) (by decide) (by decide), Heap.walk_of_block hx,
      Heap.walk_of_vacant_makeable hvacant fun old hold => (by cases hold),
      Heap.walk_last_of_mutable]
    rfl
  obtain ⟨m, heval, hdiag, hheap⟩ := eval_assignment_of_path (n := n) (by decide) rfl hrhs
    (by decide) hpath.targetPath hwalk fun old hold => by cases hold
  have hsets : h.setsAlong [] .chain 1 ["x", "x", "y"]
      = [((1, "x"), [(1, "x"), (0, "x")]), ((2, "y"), [(1, "x"), (0, "x"), (1, "x")])] := by
    have hconsulted : h.consulted .chain 1 "x" = [(1, "x"), (0, "x")] := by
      rw [Heap.consulted, hchain]
      rfl
    rw [Heap.setsAlong_of_block hx, Heap.setsAlong_of_vacant hvacant, hconsulted]
    rfl
  -- the new block is found first, and it has no member `x`
  have hnew : m.heap.own? (m.heap.home .chain 1 "x") "x" = some ⟨.block 2, false⟩ := by
    have hown : m.heap.own? 1 "x" = some ⟨.block 2, false⟩ := by
      rw [hheap]
      rfl
    rw [Heap.home_of_own? hown]
    exact hown
  have hvoid : m.heap.follow .chain 1 ["x", "x"] = some .void := by
    rw [Heap.follow_of_block (Heap.lookupOwn_of_own? hnew), hheap]
    rfl
  have hobjectRead : ∃ m₁, eval 5 1 (.member (.identifier "x") (.identifier "x"))
      (({ heap := m.heap } : Machine).enter target) = .ok .void m₁ ∧ m₁.heap = m.heap ∧
        m₁.diagnostics = #[] :=
    eval_path hobject hvoid (by show (1 : Int) + 2 ≤ 5; decide)
  obtain ⟨m₁, hread, -, hquiet⟩ := hobjectRead
  have hmisread : eval 5 1 target { heap := m.heap }
      = .ok .void (m₁.report (.ofFault (.memberOfNonBlock Value.void.kind) target)).leave :=
    eval_of_operand (by decide) rfl hread
  refine ⟨hclosed, hpath, m, _, _, heval, hdiag, congrArg List.getLast? hsets, by decide,
    hmisread, ?_⟩
  show (m₁.diagnostics.push _).size = 1
  rw [Array.size_push, hquiet]
  rfl

end BlockScript
