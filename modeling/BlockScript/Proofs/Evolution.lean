/-
BlockScript/Proofs/Evolution.lean

All that an evaluation can do to the heap.

`Evolves e h h'` says that `h'` comes from `h` by steps of three kinds, those
of an evaluation in the scope `e`: it sets a slot, it binds a new scope as a
block in a slot, or it opens a scope inside `e` and goes on there.  A slot
that is set never holds a constant, and it is either where its name resolves
from `e` or in the scope of a block that the evaluation holds.  What it holds
is known: a block that was bound in `h`, or one whose scope was made since.

Every evaluation is such an evolution (`eval_evolves`), whatever its outcome,
and so is every run (`run_evolves`).  What the steps preserve is therefore
preserved by all programs, and no proof about heaps has to look at the forms
of nodes again.
-/
import BlockScript.Proofs.Assignment

namespace BlockScript

namespace Heap

/-! ### Blocks that are bound, and blocks that are known -/

/-- The block of scope `c` is bound in some table. -/
def Wraps (h : Heap) (c : ScopeId) : Prop :=
  ∃ s name b, h.own? s name = some b ∧ b.value = .block c

/-- A value that an evaluation from `h` can hold at `h'`: if it is a block,
then one that was bound in `h`, or one whose scope was made since. -/
def Known (h h' : Heap) (v : Value) : Prop :=
  ∀ c, v = .block c → h.Wraps c ∨ (h.scopes.size ≤ c ∧ c < h'.scopes.size)

theorem Wraps.of_own? {h : Heap} {s c : ScopeId} {name : String} {mark : Bool}
    (hb : h.own? s name = some ⟨.block c, mark⟩) : h.Wraps c :=
  ⟨s, name, _, hb, rfl⟩

theorem wraps_extend_iff {h : Heap} {p c : ScopeId} : (h.extend p).2.Wraps c ↔ h.Wraps c := by
  unfold Wraps
  simp only [own?_extend]

/-- After a write, a bound block is the one that was written or an old one. -/
theorem Wraps.of_write {h : Heap} {s c : ScopeId} {name : String} {b : Binding}
    (hw : (h.write s name b).Wraps c) : b.value = .block c ∨ h.Wraps c := by
  obtain ⟨s', name', b', hb, hc⟩ := hw
  rw [own?_write] at hb
  split at hb
  · cases hb
    exact .inl hc
  · exact .inr ⟨s', name', b', hb, hc⟩

/-- Making a block binds that one and no other. -/
theorem Wraps.of_withBlock {h : Heap} {s p c : ScopeId} {name : String}
    (hw : (h.withBlock s name p).Wraps c) : c = h.scopes.size ∨ h.Wraps c := by
  rcases (wraps_extend_iff.1 hw).of_write with hc | hw
  · cases hc
    exact .inl rfl
  · exact .inr hw

theorem lookupOwn_wraps {h : Heap} {e c : ScopeId} {name : String}
    (hv : h.lookupOwn e name = .block c) : h.Wraps c := by
  unfold lookupOwn at hv
  rcases hb : h.own? e name with - | b
  · rw [hb] at hv
    cases hv
  · rw [hb] at hv
    exact ⟨e, name, b, hb, hv⟩

theorem Known.of_wraps {h h' : Heap} {c : ScopeId} (hc : h.Wraps c) : Known h h' (.block c) := by
  rintro c' ⟨⟩
  exact .inl hc

/-- What is known stays known as scopes are added. -/
theorem Known.mono {h h₁ h₂ : Heap} {v : Value} (hv : Known h h₁ v)
    (hsize : h₁.scopes.size ≤ h₂.scopes.size) : Known h h₂ v := by
  intro c hc
  rcases hv c hc with hw | ⟨hge, hlt⟩
  · exact .inl hw
  · exact .inr ⟨hge, Nat.lt_of_lt_of_le hlt hsize⟩

/-! ### Evolution -/

/-- A slot that an evaluation from `h` in the scope `e` may set at `h'`. -/
structure Settable (e : ScopeId) (h h' : Heap) (s : ScopeId) (name : String) : Prop where
  mutable : ∀ old, h'.own? s name = some old → old.constant = false
  place : s = h'.home .chain e name ∨ Known h h' (.block s)

/-- What evaluations in the scope `e` make of the heap `h`. -/
inductive Evolves : ScopeId → Heap → Heap → Prop
  | refl (e : ScopeId) (h : Heap) : Evolves e h h
  | set {e : ScopeId} {h h' : Heap} {s : ScopeId} {name : String} {b : Binding} :
      Evolves e h h' → Settable e h h' s name → Known h h' b.value →
      Evolves e h (h'.write s name b)
  | bindNew {e : ScopeId} {h h' : Heap} {s p : ScopeId} {name : String} :
      Evolves e h h' → Settable e h h' s name → p = e ∨ p = s →
      Evolves e h (h'.withBlock s name p)
  | inside {e : ScopeId} {h h' h'' : Heap} :
      Evolves e h h' → Evolves h'.scopes.size (h'.extend e).2 h'' → Evolves e h h''

namespace Evolves

variable {e c : ScopeId} {h h₁ h₂ : Heap} {v : Value}

/-- Scopes are never removed. -/
theorem size_le (hev : Evolves e h h₁) : h.scopes.size ≤ h₁.scopes.size := by
  induction hev with
  | refl e h => exact Nat.le_refl _
  | set _ _ _ ih => rw [size_write]; exact ih
  | bindNew _ _ _ ih => rw [size_withBlock]; omega
  | inside _ _ ih ihInner => rw [size_extend] at ihInner; omega

/-- An evaluation binds no block that it did not hold. -/
theorem known_of_wraps (hev : Evolves e h h₁) (hc : h₁.Wraps c) : Known h h₁ (.block c) := by
  induction hev generalizing c with
  | refl e h => exact .of_wraps hc
  | @set e h h' s name b _ _ hknown ih =>
    have hsize := Nat.le_of_eq (size_write h' s name b).symm
    rcases hc.of_write with hb | hold
    · rw [hb] at hknown
      exact hknown.mono hsize
    · exact (ih hold).mono hsize
  | @bindNew e h h' s p name hev _ _ ih =>
    have hsize := hev.size_le
    rcases hc.of_withBlock with rfl | hold
    · -- the new block is known since its scope was made
      rintro c ⟨⟩
      refine .inr ⟨hsize, ?_⟩
      rw [size_withBlock]
      exact Nat.lt_succ_self _
    · exact (ih hold).mono (by rw [size_withBlock]; omega)
  | @inside e h h' h'' hev hinner ih ihInner =>
    have hsize := hev.size_le
    have hinnerSize := hinner.size_le
    rw [size_extend] at hinnerSize
    rcases ihInner hc c rfl with hw | ⟨hge, hlt⟩
    · exact (ih (wraps_extend_iff.1 hw)).mono (by omega)
    · rw [size_extend] at hge
      rintro c ⟨⟩
      exact .inr ⟨by omega, hlt⟩

/-- What is known from a later heap on is known from the earlier one. -/
theorem known_trans (hev : Evolves e h h₁) (hv : Known h₁ h₂ v)
    (hsize : h₁.scopes.size ≤ h₂.scopes.size) : Known h h₂ v := by
  rintro c rfl
  rcases hv c rfl with hw | ⟨hge, hlt⟩
  · exact (hev.known_of_wraps hw).mono hsize c rfl
  · exact .inr ⟨Nat.le_trans hev.size_le hge, hlt⟩

theorem settable_trans {s : ScopeId} {name : String} (hev : Evolves e h h₁)
    (hs : Settable e h₁ h₂ s name) (hsize : h₁.scopes.size ≤ h₂.scopes.size) :
    Settable e h h₂ s name :=
  ⟨hs.mutable, hs.place.imp_right fun hknown => hev.known_trans hknown hsize⟩

/-- One evaluation after another is an evolution from the first heap. -/
theorem trans (hev : Evolves e h h₁) (hev' : Evolves e h₁ h₂) : Evolves e h h₂ := by
  induction hev' with
  | refl e h => exact hev
  | set hev' hs hv ih =>
    exact .set (ih hev) (hev.settable_trans hs hev'.size_le) (hev.known_trans hv hev'.size_le)
  | bindNew hev' hs hp ih => exact .bindNew (ih hev) (hev.settable_trans hs hev'.size_le) hp
  | inside _ hinner ih _ => exact .inside (ih hev) hinner

end Evolves

/-- Every block that is bound has its scope in the heap. -/
def Closed (h : Heap) : Prop :=
  ∀ c, h.Wraps c → c < h.scopes.size

theorem Closed.of_unbound {h : Heap} (hnone : ∀ s name, h.own? s name = none) : h.Closed := by
  rintro c ⟨s, name, b, hb, -⟩
  rw [hnone] at hb
  cases hb

/-- Evaluations keep a heap closed: they bind only what they hold. -/
theorem Closed.evolves {h h' : Heap} {e : ScopeId} (hclosed : h.Closed)
    (hev : Evolves e h h') : h'.Closed := by
  intro c hc
  rcases hev.known_of_wraps hc c rfl with hw | ⟨-, hlt⟩
  · exact Nat.lt_of_lt_of_le (hclosed c hw) hev.size_le
  · exact hlt

theorem Closed.extend {h : Heap} (hclosed : h.Closed) (p : ScopeId) : (h.extend p).2.Closed := by
  intro c hc
  rw [size_extend]
  exact Nat.lt_succ_of_lt (hclosed c (wraps_extend_iff.1 hc))

theorem Closed.write {h : Heap} {b : Binding} (hclosed : h.Closed) (s : ScopeId) (name : String)
    (hb : ∀ c, b.value = .block c → c < h.scopes.size) : (h.write s name b).Closed := by
  intro c hc
  rw [size_write]
  rcases hc.of_write with hnew | hold
  · exact hb c hnew
  · exact hclosed c hold

theorem Closed.withBlock {h : Heap} {s p : ScopeId} {name : String} (hclosed : h.Closed) :
    (h.withBlock s name p).Closed := by
  intro c hc
  rw [size_withBlock]
  rcases hc.of_withBlock with rfl | hold
  · exact Nat.lt_succ_self _
  · exact Nat.lt_succ_of_lt (hclosed c hold)

/-! ### Walks and assignments evolve -/

/-- Where a walk stands: at its start, or in the scope of a known block. -/
def Stands (e₀ : ScopeId) (h₀ h : Heap) : Reach → ScopeId → Prop
  | .chain, e => e = e₀
  | .own, e => Known h₀ h (.block e)

theorem Stands.settable {e₀ : ScopeId} {h₀ h : Heap} {reach : Reach} {e : ScopeId}
    {name : String} (hst : Stands e₀ h₀ h reach e)
    (hmut : ∀ old, h.own? (h.home reach e name) name = some old → old.constant = false) :
    Settable e₀ h₀ h (h.home reach e name) name := by
  refine ⟨hmut, ?_⟩
  rcases reach with - | -
  · obtain rfl : e = e₀ := hst
    exact .inl rfl
  · exact .inr hst

/-- The block that a walk makes hangs on the scope where the walk stands. -/
theorem Stands.parent {e₀ : ScopeId} {h₀ h : Heap} {reach : Reach} {e : ScopeId}
    {name : String} (hst : Stands e₀ h₀ h reach e) : e = e₀ ∨ e = h.home reach e name := by
  rcases reach with - | -
  · exact .inl hst
  · exact .inr rfl

/-- A walk evolves the heap, and behind the first name it stands in the scope
of a known block. -/
theorem walk_evolves {e₀ : ScopeId} {h₀ : Heap} (reach : Reach) (e : ScopeId)
    (constant : Bool) (path : List String) (h : Heap) (hev : Evolves e₀ h₀ h)
    (hst : Stands e₀ h₀ h reach e) :
    Evolves e₀ h₀ (after (walk reach e constant path h)) ∧
      ∀ arrival h', walk reach e constant path h = .ok arrival h' →
        reach = .own ∨ 2 ≤ path.length → Known h₀ h' (.block arrival.scope) := by
  induction reach, e, constant, path, h using walk_induction with
  | nil reach e constant h =>
    refine ⟨hev, ?_⟩
    rintro arrival h' ⟨⟩ (rfl | hlen)
    · exact hst
    · simp at hlen
  | last reach e constant name h _ =>
    -- the walk ends where it stands
    refine ⟨hev, ?_⟩
    rintro arrival h' ⟨⟩ (rfl | hlen)
    · exact hst
    · simp at hlen
  | refused => exact ⟨hev, fun arrival h' hr => by cases hr⟩
  | barred => exact ⟨hev, fun arrival h' hr => by cases hr⟩
  | unmakeable => exact ⟨hev, fun arrival h' hr => by cases hr⟩
  | through reach e constant name next rest h inner mark r hb _ ih =>
    obtain ⟨hevolves, hknown⟩ := ih hev (hev.known_of_wraps (.of_own? hb))
    exact ⟨hevolves, fun arrival h' hr _ => hknown arrival h' hr (.inl rfl)⟩
  | making reach e name next rest h r hv hmut _ ih =>
    -- the block is made where the name has its slot, and the walk enters it
    have hev' := hev.bindNew (hst.settable hmut) hst.parent
    have hnew : Known h₀ (h.withBlock (h.home reach e name) name e) (.block h.scopes.size) := by
      rintro c ⟨⟩
      refine .inr ⟨hev.size_le, ?_⟩
      rw [size_withBlock]
      exact Nat.lt_succ_self _
    obtain ⟨hevolves, hknown⟩ := ih hev' hnew
    rw [after_made]
    refine ⟨hevolves, ?_⟩
    rintro arrival h' hr -
    rcases r with ⟨arrival₁, h₁⟩ | ⟨f, h₁⟩
    · cases hr
      exact hknown arrival₁ h' rfl (.inl rfl)
    · cases hr

/-- A path that is resolved evolves the heap, and if it has two names it leads into a known
block. -/
theorem resolvePath_evolves {e : ScopeId} {h₀ h : Heap} (path : List String) (constant : Bool)
    (hev : Evolves e h₀ h) :
    Evolves e h₀ (after (resolvePath e path constant h)) ∧
      ∀ arrival h', resolvePath e path constant h = .ok arrival h' →
        2 ≤ path.length → Known h₀ h' (.block arrival.scope) := by
  rcases resolvePath_cases e path constant h with hr | hr <;> rw [hr]
  · exact ⟨hev, fun arrival h' hok => by cases hok⟩
  · obtain ⟨hevolves, hknown⟩ := walk_evolves .chain e constant (path.map strip) h hev rfl
    refine ⟨hevolves, fun arrival h' hok hlen => ?_⟩
    exact hknown arrival h' hok (.inr (by rwa [List.length_map]))

end Heap

/-- A member target has at least two names. -/
theorem Node.two_le_length_targetPath {n : Node} {path : List String}
    (hn : n.form? = some .member) (hpath : n.targetPath = .ok path) : 2 ≤ path.length := by
  -- each level of members puts a name in front of the tail
  have hlength : ∀ (k : Node) whole tail names, k.targetNames whole tail = .ok names →
      tail.length < names.length := by
    intro k whole tail
    fun_induction Node.targetNames whole tail k with
    | case1 tail text object dot property named missing hproperty ih =>
      intro names hk
      exact Nat.lt_of_succ_lt (ih names hk)
    | case2 => rintro names ⟨⟩
    | case3 => rintro names ⟨⟩; exact Nat.lt_succ_self _
    | case4 => rintro names ⟨⟩
  have hkind := Node.form?_eq_some_iff.1 hn
  unfold Node.targetPath Node.targetNames at hpath
  split at hpath
  · split at hpath
    · exact hlength _ _ _ _ hpath
    · cases hpath
  · split at hpath
    next hid =>
      rw [beq_iff_eq] at hid
      simp [hid, Form.kind] at hkind
    next => cases hpath

namespace Heap

theorem resolvePath_size_le {e : ScopeId} {path : List String} {constant : Bool}
    {arrival : Arrival} {h h' : Heap}
    (hr : resolvePath e path constant h = .ok arrival h') :
    h.scopes.size ≤ h'.scopes.size := by
  have hev := (resolvePath_evolves path constant (.refl e h)).1
  rw [hr] at hev
  exact hev.size_le

/-- A successful assignment evolves the heap, if what it binds is known. -/
theorem Evolves.assigned {e : ScopeId} {target : Node} {b : Binding} {h₀ h h' : Heap}
    {v : Value} (hev : Evolves e h₀ h) (hb : Known h₀ h b.value)
    (ha : Assigned e target b h v h') : Evolves e h₀ h' ∧ Known h₀ h' v := by
  cases ha with
  | ignored => exact ⟨hev, fun c hc => by cases hc⟩
  | name ht hmut =>
    exact ⟨hev.set ⟨hmut, .inl rfl⟩ hb, hb.mono (Nat.le_of_eq (size_write _ _ _ _).symm)⟩
  | @member path arrival h₁ ht hpath hr hmut =>
    obtain ⟨hwalked, hknown⟩ := resolvePath_evolves path b.constant hev
    rw [hr] at hwalked
    have hplace := hknown arrival h₁ hr (Node.two_le_length_targetPath ht hpath)
    have hb₁ : Known h₀ h₁ b.value := hb.mono (resolvePath_size_le hr)
    exact ⟨hwalked.set ⟨hmut, .inr hplace⟩ hb₁,
      hb₁.mono (Nat.le_of_eq (size_write _ _ _ _).symm)⟩

end Heap

/-! ### Nodes evolve -/

/-- No operator with one operand has a block for its result. -/
theorem UnaryOp.apply_ne_block (op : UnaryOp) (v : Value) (c : ScopeId) :
    op.apply v ≠ .ok (.block c) := by
  unfold UnaryOp.apply
  split <;> simp

/-- An operator makes no block; it may hand on one of its operands. -/
theorem BinaryOp.eq_of_apply_eq_block {op : BinaryOp} {a b : Value} {c : ScopeId}
    (h : op.apply a b = .ok (.block c)) : a = .block c ∨ b = .block c := by
  have hnumbers : ∀ op f, BinaryOp.onNumbers op f a b ≠ .ok (.block c) := by
    intro op f
    unfold BinaryOp.onNumbers BinaryOp.refuse
    split <;> simp
  have hbooleans : ∀ op f, BinaryOp.onBooleans op f a b ≠ .ok (.block c) := by
    intro op f
    unfold BinaryOp.onBooleans BinaryOp.refuse
    split <;> simp
  have hordered : ∀ op test, BinaryOp.onOrdered op test a b ≠ .ok (.block c) := by
    intro op test
    unfold BinaryOp.onOrdered BinaryOp.refuse
    split <;> simp
  have hsum : BinaryOp.sum a b ≠ .ok (.block c) := by
    unfold BinaryOp.sum BinaryOp.refuse
    split <;> simp
  cases op with
  | coalesce =>
    have hor : BinaryOp.orElse a b = .block c := Except.ok.inj h
    unfold BinaryOp.orElse at hor
    split at hor
    · exact .inr hor
    · exact .inr hor
    · exact .inl hor
  | add => exact absurd h hsum
  | and | or => exact absurd h (hbooleans _ _)
  | less => exact absurd h (hordered .less Value.less)
  | greater => exact absurd h (hordered .greater fun a b => b.less a)
  | lessEqual =>
    rw [BinaryOp.apply_lessEqual] at h
    exact absurd h (hordered _ _)
  | greaterEqual =>
    rw [BinaryOp.apply_greaterEqual] at h
    exact absurd h (hordered _ _)
  | equal | notEqual => cases h
  | _ => exact absurd h (hnumbers _ _)

/-- A result that leaves the machine as it is.  If it is a block, then that of
an operand, one that is bound, or the scope of the node itself. -/
def OnlyReads (e : ScopeId) (form? : Option Form) (values : List Value) (m : Machine) :
    EStateM.Result Failure Machine Value → Prop
  | .ok v m' => m' = m ∧ ∀ c, v = .block c →
      v ∈ values ∨ m.heap.Wraps c ∨ (form? = some .block ∧ c = e)
  | .error _ m' => m' = m

theorem OnlyReads.ofExcept {e : ScopeId} {form? : Option Form} {values : List Value}
    {r : Except Fault Value} (m : Machine)
    (hr : ∀ c, r = .ok (.block c) → .block c ∈ values) :
    OnlyReads e form? values m (Step.ofExcept r m) := by
  rcases r with fault | v
  · rfl
  · refine ⟨rfl, ?_⟩
    rintro c rfl
    exact .inl (hr c rfl)

/-- Every form but the assignment only reads. -/
theorem concludeForm_onlyReads (e : ScopeId) (n : Node) (form : Form) (children : List Node)
    (values : List Value) (m : Machine) :
    (form = .assignment ∧ ∃ target op rhs v, children = [target, op, rhs] ∧ values = [v]) ∨
      OnlyReads e (some form) values m (concludeForm e n form children values m) := by
  fun_cases concludeForm e n form children values with
  | case1 =>
    -- a block is its own scope
    exact .inr ⟨rfl, fun c hc => .inr (.inr ⟨rfl, (Value.block.inj hc).symm⟩)⟩
  | case2 =>
    -- a statement hands on the value of its expression
    refine .inr ⟨rfl, fun c hc => .inl ?_⟩
    rcases values with - | ⟨v, rest⟩
    · cases hc
    · exact List.mem_cons_self
  | case4 =>
    -- a name is looked up along the chain
    refine .inr ⟨rfl, fun c hc => .inr (.inl ?_)⟩
    rw [Heap.lookup_eq_lookupOwn_home] at hc
    exact Heap.lookupOwn_wraps hc
  | case9 op operand v f hop =>
    exact .inr (.ofExcept m fun c hc => absurd hc (f.apply_ne_block v c))
  | case11 lhs op rhs a b f hop =>
    refine .inr (.ofExcept m fun c hc => ?_)
    rcases BinaryOp.eq_of_apply_eq_block hc with rfl | rfl
    · exact List.mem_cons_self
    · exact List.mem_cons_of_mem _ List.mem_cons_self
  | case13 object dot name scope =>
    -- a member is looked up in its block
    exact .inr ⟨rfl, fun c hc => .inr (.inl (Heap.lookupOwn_wraps hc))⟩
  | case15 target op rhs v => exact .inl ⟨rfl, target, op, rhs, v, rfl, rfl⟩
  -- comments and literals have values that are no blocks, and the rest fails
  | case3 | case5 | case7 | case8 => exact .inr ⟨rfl, fun c hc => by cases hc⟩
  | case6 | case10 | case12 | case14 | case16 => exact .inr rfl

/-- Only assignments write. -/
theorem conclude_cases (e : ScopeId) (n : Node) (values : List Value) (m : Machine) :
    (∃ target op rhs v, n.form? = some .assignment ∧ n.children = [target, op, rhs] ∧
        values = [v] ∧ conclude e n values m = assignTo e target ⟨v, bindsConstant op.text⟩ m) ∨
      OnlyReads e n.form? values m (conclude e n values m) := by
  unfold conclude
  rcases hform : n.form? with - | form
  · exact .inr rfl
  · rcases concludeForm_onlyReads e n form n.children values m with
      ⟨rfl, target, op, rhs, v, hchildren, rfl⟩ | hreads
    · rw [hchildren]
      exact .inl ⟨target, op, rhs, v, rfl, rfl, rfl, rfl⟩
    · exact .inr hreads

theorem conclude_block {n : Node} (hn : n.form? = some .block) (e : ScopeId)
    (values : List Value) (m : Machine) : conclude e n values m = .ok (.block e) m := by
  rw [conclude, hn]
  rfl

/-- Concluding a node evolves the heap, and its value is known. -/
theorem Heap.Evolves.conclude {e : ScopeId} {n : Node} {values : List Value} {h₀ : Heap}
    {m : Machine} (hev : Evolves e h₀ m.heap) (hvalues : ∀ v ∈ values, Known h₀ m.heap v)
    (hblock : n.form? ≠ some .block) :
    Evolves e h₀ (after (conclude e n values m)).heap ∧
      ∀ v m', conclude e n values m = .ok v m' → Known h₀ m'.heap v := by
  rcases conclude_cases e n values m with ⟨target, op, rhs, v, -, -, rfl, hassign⟩ | hreads
  · have hspec := assignTo_spec e target ⟨v, bindsConstant op.text⟩ m
    rw [hassign]
    rcases ha : assignTo e target ⟨v, bindsConstant op.text⟩ m with ⟨w, m₁⟩ | ⟨f, m₁⟩
    · rw [ha] at hspec
      obtain ⟨hev₁, hknown⟩ := hev.assigned (hvalues v List.mem_cons_self) hspec.2.2
      refine ⟨hev₁, ?_⟩
      rintro w' m' ⟨⟩
      exact hknown
    · rw [ha] at hspec
      refine ⟨?_, fun w m' hok => by cases hok⟩
      rw [after_error, hspec.2.2.1]
      exact hev
  · rcases hc : BlockScript.conclude e n values m with ⟨v, m₁⟩ | ⟨f, m₁⟩
    · rw [hc] at hreads
      obtain ⟨rfl, horigin⟩ := hreads
      refine ⟨hev, ?_⟩
      rintro v' m' ⟨⟩ c rfl
      -- the value is that of an operand, or it was looked up
      rcases horigin c rfl with hmem | hwraps | ⟨hform, rfl⟩
      · exact hvalues _ hmem c rfl
      · exact hev.known_of_wraps hwraps c rfl
      · exact absurd hform hblock
    · rw [hc] at hreads
      obtain rfl : m₁ = m := hreads
      exact ⟨hev, fun v m' hok => by cases hok⟩

/-! ### Evaluations and runs evolve -/

/-- Recovering touches the report and the log, not the heap. -/
theorem after_recover_heap (n : Node) (step : Step Value) (m : Machine) :
    (after (Step.recover n step m)).heap = (after (step m)).heap := by
  rcases hs : step m with ⟨v, m'⟩ | ⟨fault | halt, m'⟩
  · rw [Step.recover_of_ok hs]
    rfl
  · rw [Step.recover_of_soft hs]
    rfl
  · rw [Step.recover_of_hard hs]
    rfl

/-- A recovered step has the value of the step, or void. -/
theorem recover_eq_ok {n : Node} {step : Step Value} {m m' : Machine} {v : Value}
    (hr : Step.recover n step m = .ok v m') : step m = .ok v m' ∨ v = .void := by
  rcases hs : step m with ⟨w, m₁⟩ | ⟨fault | halt, m₁⟩
  · rw [Step.recover_of_ok hs] at hr
    cases hr
    exact .inl rfl
  · rw [Step.recover_of_soft hs] at hr
    cases hr
    exact .inr rfl
  · rw [Step.recover_of_hard hs] at hr
    cases hr

namespace Heap

/-- What an evaluation in `e` has reached from `h`: the heap has evolved, and
the values it holds are known. -/
def Reached {α : Type} (held : α → List Value) (e : ScopeId) (h : Heap) : Outcome α → Prop
  | .ok a m => Evolves e h m.heap ∧ ∀ v ∈ held a, Known h m.heap v
  | .error _ m => Evolves e h m.heap

theorem Reached.evolves {α : Type} {held : α → List Value} {e : ScopeId} {h : Heap}
    {r : Outcome α} (hr : Reached held e h r) : Evolves e h (after r).heap := by
  rcases r with ⟨a, m⟩ | ⟨halt, m⟩
  · exact hr.1
  · exact hr

/-- The operands of a node are evaluated in the scope itself or, for a block,
in a new one inside it. -/
theorem Evolves.of_operands {e : ScopeId} {n : Node} {h h' : Heap}
    (hev : Evolves (n.scopeFrom e h).1 (n.scopeFrom e h).2 h') : Evolves e h h' := by
  by_cases hblock : n.form? = some .block
  · rw [Node.scopeFrom_block hblock] at hev
    exact .inside (.refl e h) hev
  · rw [Node.scopeFrom_of_ne_block hblock] at hev
    exact hev

/-- What the operands have reached, the node reaches in its own scope. -/
theorem reached_conclusion {e : ScopeId} {n : Node} {values : List Value} {m m' : Machine}
    (hops : Reached id (n.scopeFrom e m.heap).1 (n.scopeFrom e m.heap).2
      (.ok values m' : Outcome (List Value))) :
    Reached (fun v => [v]) e m.heap
      (left (Step.recover n (conclude (n.scopeFrom e m.heap).1 n values) m')) := by
  by_cases hblock : n.form? = some .block
  · -- the value is the scope of the block, which was opened for it
    have hinner := hops.1
    rw [Step.recover_of_ok (conclude_block hblock _ _ _)]
    rw [Node.scopeFrom_block hblock] at hinner ⊢
    refine ⟨.inside (.refl e m.heap) hinner, ?_⟩
    intro v hv c hc
    obtain rfl := List.mem_singleton.1 hv
    cases hc
    have hsize := hinner.size_le
    rw [size_extend] at hsize
    exact .inr ⟨Nat.le_refl _, hsize⟩
  · rw [Node.scopeFrom_of_ne_block hblock] at hops ⊢
    obtain ⟨hev, hvalues⟩ : Evolves e m.heap m'.heap ∧ ∀ v ∈ values, Known m.heap m'.heap v :=
      hops
    obtain ⟨hev', hknown⟩ := hev.conclude hvalues hblock
    rw [← after_recover_heap n] at hev'
    rcases hr : Step.recover n (BlockScript.conclude e n values) m' with ⟨v, m''⟩ | ⟨halt, m''⟩
    · rw [hr] at hev'
      refine ⟨hev', ?_⟩
      intro w hw
      obtain rfl := List.mem_singleton.1 hw
      rcases recover_eq_ok hr with hc | rfl
      · exact hknown w m'' hc
      · exact fun c hc => by cases hc
    · rw [hr] at hev'
      exact hev'

/-- Every evaluation evolves the heap, and the values it returns are known. -/
theorem eval_reached (limit : Int) :
    (∀ e n (m : Machine), Reached (fun v => [v]) e m.heap (eval limit e n m)) ∧
      ∀ e ns (m : Machine), Reached id e m.heap (evalAll limit e ns m) := by
  refine eval_induction limit (fun e _ m r => Reached (fun v => [v]) e m.heap r)
    (fun e _ m r => Reached id e m.heap r) ?_ ?_ ?_ ?_ ?_ ?_ ?_
  · -- too deep
    intro e n m _
    exact .refl e m.heap
  · -- an operand has stopped
    intro e n m halt m' _ _ hops
    exact Evolves.of_operands hops
  · -- all operands have values
    intro e n m values m' _ _ hops
    exact reached_conclusion hops
  · -- no nodes
    intro e m
    exact ⟨.refl e m.heap, by simp⟩
  · -- the first node has stopped
    intro e n ns m halt m' _ hn
    exact hn
  · -- a later node has stopped
    intro e n ns m v m' halt m'' _ hn hns
    exact hn.1.trans hns
  · -- what the first node holds is still known behind the others
    intro e n ns m v m' vs m'' _ hn hns
    obtain ⟨hev, hv⟩ := hn
    obtain ⟨hev', hvs⟩ := hns
    refine ⟨hev.trans hev', ?_⟩
    intro w hw
    rcases List.mem_cons.1 hw with rfl | hw
    · exact (hv w List.mem_cons_self).mono hev'.size_le
    · exact hev.known_trans (hvs w hw) hev'.size_le

/-- **Every evaluation is an evolution of the heap**, whatever its outcome. -/
theorem eval_evolves (limit : Int) (e : ScopeId) (n : Node) (m : Machine) :
    Evolves e m.heap (after (eval limit e n m)).heap :=
  ((eval_reached limit).1 e n m).evolves

theorem evalAll_evolves (limit : Int) (e : ScopeId) (ns : List Node) (m : Machine) :
    Evolves e m.heap (after (evalAll limit e ns m)).heap :=
  ((eval_reached limit).2 e ns m).evolves

theorem evalProgram_evolves (limit : Int) (root : ScopeId) (tree : Node) (m : Machine) :
    Evolves root m.heap (after (evalProgram limit root tree m)).heap := by
  by_cases hblock : tree.form? = some .block
  · rw [after_evalProgram hblock]
    exact evalAll_evolves limit root tree.operands m
  · rw [evalProgram_of_ne_block hblock]
    exact eval_evolves limit root tree m

/-- **Every run is an evolution of the heap**, whatever its outcome. -/
theorem run_evolves (limit : Int) (root : ScopeId) (tree : Node) (h : Heap) :
    Evolves root h (after (run limit root tree h)).heap := by
  unfold run
  split
  · exact .refl root h
  · have hev := evalProgram_evolves limit root tree { heap := h }
    split <;> rename_i hr <;> rw [hr] at hev
    · rw [after_ok, Machine.finish_heap]
      exact hev
    · exact hev

theorem runConfigured_evolves (settings : Settings) (root : ScopeId) (tree : Node) (h : Heap) :
    Evolves root h (after (runConfigured settings root tree h)).heap := by
  unfold runConfigured
  split
  · exact .refl root h
  · split
    · exact run_evolves _ root tree h
    · exact .refl root h

end Heap

end BlockScript
