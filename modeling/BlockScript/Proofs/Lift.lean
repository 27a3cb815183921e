/-
BlockScript/Proofs/Lift.lean

Evaluation in other surroundings.

A lift takes a machine into other surroundings: a morphism maps its heap, its
nodes lie some levels deeper, and the reports of others come before its own.
Evaluation does not notice, if it has as many levels more to go:

    eval (limit + levels) (scope e) n (machine m)  =  outcome (eval limit e n m).

The morphism may be restricted to some names; then they have to include the
names that the tree spells.
-/
import BlockScript.Proofs.Morphism
import BlockScript.Proofs.Traversal

namespace BlockScript

/-! ### The names of a tree -/

namespace Node

/-- The texts of all nodes of a tree, without blanks around them. -/
def spellings (n : Node) : List String :=
  n.nodes.map fun k => strip k.text

/-- The texts of the nodes of a tree are among the names. -/
def Spells (Names : String → Prop) (n : Node) : Prop :=
  ∀ name ∈ n.spellings, Names name

namespace Spells

variable {Names : String → Prop} {n : Node}

theorem text (hn : n.Spells Names) : Names (strip n.text) := by
  refine hn _ ?_
  rw [spellings, n.nodes_eq]
  exact List.mem_cons_self

theorem child {c : Node} (hn : n.Spells Names) (hc : c ∈ n.children) : c.Spells Names :=
  fun name hname => hn name (List.map_subset _ (nodes_subset hc) hname)

theorem operand {k : Node} (hn : n.Spells Names) (hk : k ∈ n.operands) : k.Spells Names :=
  hn.child (n.operands_sublist.subset hk)

/-- Each name along a target is spelled by a node of it, and has no blanks around it. -/
theorem targetNames {whole : String} {tail names : List String} (hn : n.Spells Names)
    (htail : ∀ name ∈ tail, Names name ∧ strip name = name)
    (hnames : n.targetNames whole tail = .ok names) :
    ∀ name ∈ names, Names name ∧ strip name = name := by
  fun_induction Node.targetNames whole tail n with
  | case1 tail text object dot property named missing hproperty ih =>
    refine ih (hn.child List.mem_cons_self) ?_ hnames
    intro name hname
    rcases List.mem_cons.1 hname with rfl | hname
    · exact ⟨(hn.child (by simp)).text, strip_strip _⟩
    · exact htail name hname
  | case2 => cases hnames
  | case3 tail kind text children named missing hother hkind =>
    cases hnames
    intro name hname
    rcases List.mem_cons.1 hname with rfl | hname
    · exact ⟨hn.text, strip_strip _⟩
    · exact htail name hname
  | case4 => cases hnames

/-- The names along a target are spelled by it. -/
theorem targetPath {path : List String} (hn : n.Spells Names) (hpath : n.targetPath = .ok path) :
    ∀ name ∈ path, Names name ∧ strip name = name :=
  hn.targetNames (by simp) hpath

end Spells

end Node

/-! ### Machines in other surroundings -/

/-- The event, some levels deeper. -/
def Event.deepen (levels : Nat) : Event → Event
  | .entered n depth => .entered n (depth + levels)
  | event => event

/-- The cause, under a limit that is some levels higher. -/
def Halt.deepen (levels : Nat) : Halt → Halt
  | .tooDeep limit kind => .tooDeep (limit + levels) kind
  | halt => halt

@[simp] theorem Event.deepen_zero (event : Event) : event.deepen 0 = event := by
  cases event <;> rfl

@[simp] theorem Halt.deepen_zero (halt : Halt) : halt.deepen 0 = halt := by
  cases halt <;> simp [deepen]

theorem Event.deepen_of_entry? {event : Event} (h : event.entry? = none) (levels : Nat) :
    event.deepen levels = event := by
  cases event with
  | entered n depth => cases h
  | _ => rfl

/-- Only the limit shows how deep a node lies. -/
theorem Halt.IsOfNode.deepen {halt : Halt} (h : halt.IsOfNode) (levels : Nat) :
    halt.deepen levels = halt := by
  cases halt with
  | tooDeep limit kind => exact h.elim
  | _ => rfl

/-- Other surroundings for a machine. -/
structure Lift where
  heap : Heap.Morphism
  levels : Nat
  past : Machine

namespace Lift

variable (L : Lift) (m : Machine) (e : ScopeId) (n : Node)

/-- A value in other surroundings: a block refers to the scope under its new number. -/
def value (v : Value) : Value :=
  v.rename L.heap.scope

/-- The machine in other surroundings. -/
def machine : Machine where
  heap := L.heap.onHeap m.heap
  depth := m.depth + L.levels
  diagnostics := L.past.diagnostics ++ m.diagnostics
  trace := L.past.trace ++ m.trace.map (·.deepen L.levels)

/-- The result of a step in other surroundings. -/
def step {α : Type} (f : α → α) :
    EStateM.Result Failure Machine α → EStateM.Result Failure Machine α
  | .ok a m => .ok (f a) (L.machine m)
  | .error failure m => .error failure (L.machine m)

/-- The outcome of an evaluation in other surroundings. -/
def outcome {α : Type} (f : α → α) : Outcome α → Outcome α
  | .ok a m => .ok (f a) (L.machine m)
  | .error halt m => .error (halt.deepen L.levels) (L.machine m)

theorem machine_emit (event : Event) :
    L.machine (m.emit event) = (L.machine m).emit (event.deepen L.levels) := by
  unfold machine Machine.emit
  rw [Array.map_push, Array.append_push]

/-- Events other than that of entering a node are the same at any depth. -/
theorem machine_emitAll {es : List Event} (hes : ∀ event ∈ es, event.entry? = none) :
    L.machine (m.emitAll es) = (L.machine m).emitAll es := by
  unfold Machine.emitAll
  induction es generalizing m with
  | nil => rfl
  | cons event es ih =>
    rw [List.foldl_cons, List.foldl_cons, ih _ fun k hk => hes k (List.mem_cons_of_mem event hk),
      machine_emit, Event.deepen_of_entry? (hes event List.mem_cons_self)]

theorem machine_emitAll_between {es : List Event} (hes : ∀ event ∈ es, event.entry? = none)
    (h h' : Heap) :
    L.machine { ({ m with heap := h } : Machine).emitAll es with heap := h' }
      = { ({ L.machine m with heap := L.heap.onHeap h } : Machine).emitAll es with
          heap := L.heap.onHeap h' } := by
  have hemit := L.machine_emitAll { m with heap := h } hes
  show ({ L.machine (({ m with heap := h } : Machine).emitAll es) with
    heap := L.heap.onHeap h' } : Machine) = _
  rw [hemit]
  rfl

theorem machine_report (d : Diagnostic) : L.machine (m.report d) = (L.machine m).report d := by
  unfold Machine.report
  rw [show (L.machine m).emit (.recovered d) = L.machine (m.emit (.recovered d)) from
    (L.machine_emit m (.recovered d)).symm]
  unfold machine
  rw [Array.append_push]

/-- A node is entered at its own depth, which is some levels more. -/
theorem machine_enter : L.machine (m.enter n) = (L.machine m).enter n := by
  unfold Machine.enter
  rw [machine_emit]
  unfold machine Event.deepen
  simp only [Nat.add_right_comm]

/-- Levels are left as they were entered, so one of them is left behind. -/
theorem machine_leave {m : Machine} (hdepth : 0 < m.depth) :
    L.machine m.leave = (L.machine m).leave := by
  unfold Machine.leave machine
  dsimp only
  rw [Nat.sub_add_comm hdepth]

theorem scopeFrom_eq {h : Heap} (hh : L.heap.Holds h) :
    n.scopeFrom (L.heap.scope e) (L.heap.onHeap h)
      = (L.heap.scope (n.scopeFrom e h).1, L.heap.onHeap (n.scopeFrom e h).2) := by
  by_cases hblock : n.form? = some .block
  · rw [Node.scopeFrom_block hblock, Node.scopeFrom_block hblock, L.heap.extend_eq h e hh]
    exact Prod.ext (L.heap.size_eq h hh) rfl
  · rw [Node.scopeFrom_of_ne_block hblock, Node.scopeFrom_of_ne_block hblock]

theorem holds_scopeFrom {h : Heap} (hh : L.heap.Holds h) : L.heap.Holds (n.scopeFrom e h).2 := by
  by_cases hblock : n.form? = some .block
  · rw [Node.scopeFrom_block hblock]
    exact L.heap.holds_extend h e hh
  · rw [Node.scopeFrom_of_ne_block hblock]
    exact hh

theorem scope_operands (hm : L.heap.Holds m.heap) :
    (n.scopeFrom (L.heap.scope e) (L.machine m).heap).1 = L.heap.scope (n.scopeFrom e m.heap).1 :=
  congrArg Prod.fst (L.scopeFrom_eq e n hm)

theorem machine_inside (hm : L.heap.Holds m.heap) :
    (L.machine m).inside (L.heap.scope e) n = L.machine (m.inside e n) := by
  unfold Machine.inside
  rw [show (L.machine m).heap = L.heap.onHeap m.heap from rfl, L.scopeFrom_eq e n hm,
    ← machine_enter]
  rfl

/-! ### Steps in other surroundings -/

/-- The second result is that of the first step in other surroundings, and the
heap that it leaves is one that the morphism is about. -/
def Follows {α : Type} (f : α → α) (r r' : EStateM.Result Failure Machine α) : Prop :=
  r' = L.step f r ∧ L.heap.Holds (after r).heap

variable {L m e}

/-- A path is assigned to in the image of the scope that it leads to. -/
theorem assignPath_follows {path : List String} (b : Binding) (hm : L.heap.Holds m.heap)
    (hpath : ∀ name ∈ path, L.heap.Names name ∧ strip name = name) (hne : path ≠ []) :
    L.Follows id (assignPath e path b m)
      (assignPath (L.heap.scope e) path (b.rename L.heap.scope) (L.machine m)) := by
  have hlast : L.heap.Names (path.getLastD "") := by
    rw [List.getLastD_eq_getLast?, List.getLast?_eq_some_getLast hne]
    exact (hpath _ (List.getLast_mem hne)).1
  obtain ⟨hr', hholds⟩ := L.heap.resolvePath_eq e path b.constant hm fun name hname => by
    rw [(hpath name hname).2]
    exact (hpath name hname).1
  rcases hr : Heap.resolvePath e path b.constant m.heap with ⟨arrival, h⟩ | ⟨f, h⟩ <;>
    rw [hr] at hr' hholds
  · -- the last name is bound in the image of the scope that the path leads to
    have hmachine := L.machine_emitAll_between m (arrival.events_entry? path) h
    rcases h.mutable_or_constant arrival.scope (path.getLastD "") with hmut | ⟨v, hconst⟩
    · rw [assignPath_of_mutable hr hmut]
      refine ⟨?_, L.heap.holds_write h _ _ b hholds hlast⟩
      rw [assignPath_of_mutable (m := L.machine m) (b := b.rename L.heap.scope) hr'
        (L.heap.mutable_of _ hholds hlast hmut), step, hmachine,
        L.heap.write_eq h _ _ b hholds hlast]
      rfl
    · have hconst' := L.heap.own?_eq h arrival.scope _ hholds hlast
      rw [hconst] at hconst'
      rw [assignPath_of_constant hr hconst]
      refine ⟨?_, hholds⟩
      rw [assignPath_of_constant (m := L.machine m) (b := b.rename L.heap.scope) hr' hconst', step,
        hmachine]
      rfl
  · rw [assignPath_of_error hr]
    exact ⟨assignPath_of_error hr', hholds⟩

/-- An assignment does in the image what it does without. -/
theorem assignTo_follows {target : Node} (b : Binding) (hm : L.heap.Holds m.heap)
    (ht : target.Spells L.heap.Names) :
    L.Follows L.value (assignTo e target b m)
      (assignTo (L.heap.scope e) target (b.rename L.heap.scope) (L.machine m)) := by
  by_cases hid : target.form? = some .identifier
  · -- a name is bound in the image of its slot
    have hhome := L.heap.home_eq .chain e hm ht.text
    rcases m.heap.mutable_or_constant (m.heap.home .chain e (strip target.text))
      (strip target.text) with hmut | ⟨v, hconst⟩
    · have hmut' := L.heap.mutable_of _ hm ht.text hmut
      rw [← hhome] at hmut'
      rw [assignTo_identifier_of_mutable hid hmut]
      refine ⟨?_, L.heap.holds_write _ _ _ b hm ht.text⟩
      have hwrite := L.heap.write_eq _ (m.heap.home .chain e (strip target.text)) _ b hm ht.text
      rw [← hhome] at hwrite
      rw [assignTo_identifier_of_mutable (m := L.machine m) hid hmut']
      exact congrArg (fun h => EStateM.Result.ok (L.value b.value) { L.machine m with heap := h })
        hwrite.symm
    · have hconst' := L.heap.slot_eq .chain e hm ht.text
      rw [hconst] at hconst'
      rw [assignTo_identifier_of_constant hid hconst]
      exact ⟨assignTo_identifier_of_constant (m := L.machine m) hid hconst', hm⟩
  · by_cases hmem : target.form? = some .member
    · rcases hpath : target.targetPath with fault | path
      · rw [assignTo_member_of_error hmem hpath]
        exact ⟨assignTo_member_of_error hmem hpath, hm⟩
      · have hne : path ≠ [] := by
          rintro rfl
          exact absurd (Node.two_le_length_targetPath hmem hpath) (by simp)
        obtain ⟨hr', hholds⟩ := assignPath_follows (e := e) b hm (ht.targetPath hpath) hne
        rw [assignTo_member_of_path hmem hpath, Lift.Follows, assignTo_member_of_path hmem hpath]
        rcases hr : assignPath e path b m with ⟨u, m'⟩ | ⟨f, m'⟩ <;> rw [hr] at hr' hholds
        · rw [bind_of_ok hr, bind_of_ok hr']
          exact ⟨rfl, hholds⟩
        · rw [bind_of_error hr, bind_of_error hr']
          exact ⟨rfl, hholds⟩
    · -- nothing is assigned to, and the log says the same
      rw [assignTo_of_ignored hid hmem]
      refine ⟨?_, by rwa [after_ok, Machine.emitAll_heap]⟩
      rw [assignTo_of_ignored hid hmem, ← L.machine_emitAll m (by simp [Event.entry?])]
      rfl

theorem ofExcept_follows {r r' : Except Fault Value} (hm : L.heap.Holds m.heap)
    (hr : r' = r.map L.value) :
    L.Follows L.value (Step.ofExcept r m) (Step.ofExcept r' (L.machine m)) := by
  subst hr
  refine ⟨?_, ?_⟩ <;> rcases r with fault | v
  · rfl
  · rfl
  · exact hm
  · exact hm

/-- Every form makes of the images of its values the image of what it makes of them. -/
theorem concludeForm_follows {n : Node} {children : List Node} (form : Form)
    (values : List Value) (hm : L.heap.Holds m.heap) (hn : L.heap.Names (strip n.text))
    (hchildren : ∀ c ∈ children, c.Spells L.heap.Names) :
    L.Follows L.value (concludeForm e n form children values m)
      (concludeForm (L.heap.scope e) n form children (values.map L.value) (L.machine m)) := by
  fun_cases concludeForm e n form children values with
  | case2 =>
    -- a statement hands on a value
    refine ⟨?_, hm⟩
    rcases values with - | ⟨v, vs⟩ <;> rfl
  | case4 =>
    refine ⟨?_, hm⟩
    exact congrArg (EStateM.Result.ok · (L.machine m)) (L.heap.lookup_eq e hm hn)
  | case5 _ _ x hx | case6 _ _ f hx =>
    refine ⟨?_, hm⟩
    simp only [concludeForm, hx]
    rfl
  | case9 op operand v f hop =>
    simp only [concludeForm, List.map_cons, List.map_nil, hop]
    exact ofExcept_follows hm (f.apply_rename L.heap.scope v)
  | case10 op operand v hop =>
    refine ⟨?_, hm⟩
    simp only [concludeForm, List.map_cons, List.map_nil, hop]
    rfl
  | case11 lhs op rhs a b f hop =>
    simp only [concludeForm, List.map_cons, List.map_nil, hop]
    exact ofExcept_follows hm (BinaryOp.apply_rename a b f L.heap.injective)
  | case12 lhs op rhs a b hop =>
    refine ⟨?_, hm⟩
    simp only [concludeForm, List.map_cons, List.map_nil, hop]
    rfl
  | case13 object dot name scope =>
    refine ⟨?_, hm⟩
    exact congrArg (EStateM.Result.ok · (L.machine m))
      (L.heap.lookupOwn_eq scope hm (hchildren name (by simp)).text)
  | case14 object dot name v hv =>
    refine ⟨?_, hm⟩
    rcases v with - | x | s | b | c | i | i
    case block => exact absurd rfl (hv c)
    all_goals rfl
  | case15 target op rhs v =>
    have htarget := hchildren target (by simp)
    show L.Follows L.value (assignTo e target ⟨v, bindsConstant op.text⟩ m)
      (assignTo (L.heap.scope e) target ⟨L.value v, bindsConstant op.text⟩ (L.machine m))
    generalize bindsConstant op.text = constant
    exact assignTo_follows ⟨v, constant⟩ hm htarget
  | case16 _ _ _ _ _ _ _ _ _ _ hunary hbinary hmember hassignment =>
    -- there are as many values as before, so the count is wrong for both
    refine ⟨?_, hm⟩
    rw [concludeForm]
    any_goals assumption
    · rfl
    · intro op operand v hform hc hv
      obtain ⟨w, rfl, -⟩ := List.map_eq_singleton_iff.1 hv
      exact hunary op operand w hform hc rfl
    · intro lhs op rhs a b hform hc hv
      obtain ⟨a', rest, rfl, -, hrest⟩ := List.map_eq_cons_iff.1 hv
      obtain ⟨b', rfl, -⟩ := List.map_eq_singleton_iff.1 hrest
      exact hbinary lhs op rhs a' b' hform hc rfl
    · intro object dot name v hform hc hv
      obtain ⟨w, rfl, -⟩ := List.map_eq_singleton_iff.1 hv
      exact hmember object dot name w hform hc rfl
    · intro target op rhs v hform hc hv
      obtain ⟨w, rfl, -⟩ := List.map_eq_singleton_iff.1 hv
      exact hassignment target op rhs w hform hc rfl
  | case1 | case3 | case7 | case8 => exact ⟨rfl, hm⟩

theorem conclude_follows {n : Node} (values : List Value) (hm : L.heap.Holds m.heap)
    (hn : n.Spells L.heap.Names) :
    L.Follows L.value (conclude e n values m)
      (conclude (L.heap.scope e) n (values.map L.value) (L.machine m)) := by
  unfold conclude
  rcases n.form? with - | form
  · -- a kind without a form is refused in the same words
    exact ⟨rfl, hm⟩
  · exact concludeForm_follows form values hm hn.text fun c hc => hn.child hc

/-! ### Evaluation in other surroundings -/

/-- The second outcome is that of the first evaluation in other surroundings,
and the heap that it leaves is one that the morphism is about. -/
def Carries {α : Type} (L : Lift) (f : α → α) (r r' : Outcome α) : Prop :=
  r' = L.outcome f r ∧ L.heap.Holds (after r).heap

/-- A conclusion is recovered from and left alike in other surroundings. -/
theorem conclusion_carries {n : Node} (values : List Value) (hm : L.heap.Holds m.heap)
    (hn : n.Spells L.heap.Names) (hdepth : 0 < m.depth) :
    L.Carries L.value (left (Step.recover n (conclude e n values) m))
      (left (Step.recover n (conclude (L.heap.scope e) n (values.map L.value)) (L.machine m))) := by
  obtain ⟨hr', hholds⟩ := conclude_follows (e := e) values hm hn
  have hsame := (conclude_sameRecord e n values m).depth
  rcases hr : conclude e n values m with ⟨v, m'⟩ | ⟨fault | halt, m'⟩ <;>
    rw [hr] at hr' hholds hsame
  · have hleave := L.machine_leave (m := m') (hsame ▸ hdepth)
    rw [Step.recover_of_ok hr, Step.recover_of_ok hr']
    exact ⟨congrArg _ hleave.symm, hholds⟩
  · have hleave := L.machine_leave (m := m'.report (.ofFault fault n)) (hsame ▸ hdepth)
    rw [machine_report] at hleave
    rw [Step.recover_of_soft hr, Step.recover_of_soft hr']
    exact ⟨congrArg _ hleave.symm, hholds⟩
  · have hleave := L.machine_leave (m := m') (hsame ▸ hdepth)
    rw [Step.recover_of_hard hr, Step.recover_of_hard hr']
    refine ⟨?_, hholds⟩
    -- a hard stop of a node does not name the limit
    show EStateM.Result.error halt (L.machine m').leave
      = .error (halt.deepen L.levels) (L.machine m'.leave)
    rw [hleave, (conclude_stops hr).isOfNode.deepen]

/-- The operands of a node are done one level below it. -/
theorem depth_operands {limit : Int} {n : Node} {r : Outcome (List Value)}
    (hops : evalAll limit (n.scopeFrom e m.heap).1 n.operands (m.inside e n) = r) :
    (after r).depth = m.depth + 1 :=
  hops ▸ (depth_eval limit).2 (n.scopeFrom e m.heap).1 n.operands (m.inside e n)

/-- **Evaluation does not notice its surroundings.** -/
theorem eval_carries (L : Lift) (limit : Int) :
    (∀ e n (m : Machine), L.heap.Holds m.heap → n.Spells L.heap.Names →
      L.Carries L.value (eval limit e n m)
        (eval (limit + L.levels) (L.heap.scope e) n (L.machine m))) ∧
    ∀ e ns (m : Machine), L.heap.Holds m.heap → (∀ n ∈ ns, n.Spells L.heap.Names) →
      L.Carries (List.map L.value) (evalAll limit e ns m)
        (evalAll (limit + L.levels) (L.heap.scope e) ns (L.machine m)) := by
  have hlimit : ∀ m : Machine, m.depth < limit →
      ((L.machine m).depth : Int) < limit + L.levels := by
    intro m hlt
    show ((m.depth + L.levels : Nat) : Int) < limit + L.levels
    omega
  refine eval_induction limit
    (fun e n m r => L.heap.Holds m.heap → n.Spells L.heap.Names →
      L.Carries L.value r (eval (limit + L.levels) (L.heap.scope e) n (L.machine m)))
    (fun e ns m r => L.heap.Holds m.heap → (∀ n ∈ ns, n.Spells L.heap.Names) →
      L.Carries (List.map L.value) r
        (evalAll (limit + L.levels) (L.heap.scope e) ns (L.machine m))) ?_ ?_ ?_ ?_ ?_ ?_ ?_
  · -- refused on both sides, as the limit is as many levels higher
    intro e n m hdeep hm _
    have hdeep' : limit + L.levels ≤ (L.machine m).depth := by
      show limit + L.levels ≤ ((m.depth + L.levels : Nat) : Int)
      omega
    exact ⟨eval_of_tooDeep hdeep', hm⟩
  · -- an operand has stopped, one level below
    intro e n m halt m' hlt hops ih hm hn
    obtain ⟨hr', hholds⟩ := ih (L.holds_scopeFrom e n hm) fun k hk => hn.operand hk
    have hdepth := depth_operands hops
    rw [← L.machine_inside m e n hm, ← L.scope_operands m e n hm] at hr'
    refine ⟨?_, hholds⟩
    rw [eval_of_halted (hlimit m hlt) hr', ← L.machine_leave (hdepth ▸ Nat.succ_pos _)]
    rfl
  · -- the operands have values, the images of those on the other side
    intro e n m values m' hlt hops ih hm hn
    obtain ⟨hr', hholds⟩ := ih (L.holds_scopeFrom e n hm) fun k hk => hn.operand hk
    have hdepth := depth_operands hops
    rw [← L.machine_inside m e n hm, ← L.scope_operands m e n hm] at hr'
    rw [eval_of_operands (hlimit m hlt) hr', L.scope_operands m e n hm]
    exact conclusion_carries values hholds hn (hdepth ▸ Nat.succ_pos _)
  · intro e m hm _
    exact ⟨evalAll_nil, hm⟩
  · intro e n ns m halt m' _ ihn hm hns
    obtain ⟨hr', hholds⟩ := ihn hm (hns n List.mem_cons_self)
    exact ⟨evalAll_cons_of_error hr', hholds⟩
  · -- what a node leaves behind is still a heap that the morphism is about
    intro e n ns m v m' halt m'' _ ihn ihns hm hns
    obtain ⟨hr', hholds⟩ := ihn hm (hns n List.mem_cons_self)
    obtain ⟨hr'', hholds'⟩ := ihns hholds fun k hk => hns k (List.mem_cons_of_mem n hk)
    exact ⟨evalAll_cons_of_ok_error hr' hr'', hholds'⟩
  · intro e n ns m v m' vs m'' _ ihn ihns hm hns
    obtain ⟨hr', hholds⟩ := ihn hm (hns n List.mem_cons_self)
    obtain ⟨hr'', hholds'⟩ := ihns hholds fun k hk => hns k (List.mem_cons_of_mem n hk)
    exact ⟨evalAll_cons_of_ok_ok hr' hr'', hholds'⟩

end Lift

end BlockScript
