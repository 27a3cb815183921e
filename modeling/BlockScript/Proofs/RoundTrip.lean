/-
BlockScript/Proofs/RoundTrip.lean

Printing and reading numbers.

The literal of a number evaluates to the number, bit for bit:

    bits  —ofBits→  x  —numberText→  text  —evaluation→  x  —toBits→  bits

for the zeros, subnormals and largest numbers as for all others.  The text is a
sign and the layout of the shortest decimal that is read as the number.  The
infinities and the NaN have texts that are no literals; theirs evaluate to void,
with one report.
-/
import BlockScript.Proofs.Evaluation
import BlockScript.Proofs.Shortest
import BlockScript.Syntax.Build

namespace BlockScript

/-! ### The text of a number -/

/-- The decimal is read as the number, none that is has fewer digits, and of those
with as many none is nearer. -/
structure SpellsShortest (x : Float) (p : Parts) (d : Decimal) : Prop where
  reads : d.toFloat (signBit x) = x
  length_le : ∀ d' : Decimal, d'.toFloat (signBit x) = x → d.length ≤ d'.length
  nearest : ∀ d' : Decimal, d'.toFloat (signBit x) = x → d'.length = d.length →
    |d.value - p.value| ≤ |d'.value - p.value|

section Finite

variable {x : Float} {p : Parts}

/-- A decimal is read as a number if it is rounded to its magnitude. -/
theorem toFloat_eq_iff (hp : Parts.ofFloat? x = some p) (d : Decimal) :
    d.toFloat (signBit x) = x ↔ Rounded d.value p.magnitude := by
  obtain ⟨hproper, -, hmagnitude⟩ := Parts.ofFloat?_spec hp
  have hx : ofSignBits (signBit x) p.magnitude = x := by
    rw [hmagnitude]
    exact ofSignBits_signBit ((finiteBits_iff_parts x).2 ⟨p, hp⟩)
  have hd := d.rounded_nearestBits
  constructor
  · -- equal floats have equal bits, and the sign is the same
    intro h
    have hbits := congrArg (·.toBits.toNat) (h.trans hx.symm)
    simp only [Decimal.toFloat_eq hd, toBits_ofSignBits _ hd.le_infinityBits,
      toBits_ofSignBits _ hproper.magnitude_lt.le] at hbits
    rwa [Nat.add_left_cancel hbits] at hd
  · intro h
    rw [Decimal.toFloat_eq h, hx]

/-- A shortest decimal for the parts of a number spells the number. -/
theorem Parts.IsShortest.spells (hp : Parts.ofFloat? x = some p) {d : Decimal}
    (hd : p.IsShortest d) : SpellsShortest x p d where
  reads := (toFloat_eq_iff hp d).2 hd.reads
  length_le d' h := hd.length_le d' ((toFloat_eq_iff hp d').1 h)
  nearest d' h := hd.nearest d' ((toFloat_eq_iff hp d').1 h)

/-- The text of a number is its sign and the layout of its shortest decimal. -/
theorem numberText_eq (hp : Parts.ofFloat? x = some p) :
    ∃ d : Decimal, SpellsShortest x p d ∧
      numberText x = String.ofList (signText (signBit x) ++ d.layout) := by
  obtain ⟨hproper, -, -⟩ := Parts.ofFloat?_spec hp
  have hsign : (if signBit x then "-" else "") = String.ofList (signText (signBit x)) := by
    cases signBit x <;> rfl
  have htext : numberText x = String.ofList (signText (signBit x) ++
      if p.mantissa = 0 then ['0', '.', '0'] else p.shortest.layout) := by
    rw [numberText, Spelling.write, hp, String.ofList_append, hsign]
  by_cases hzero : p.mantissa = 0
  · refine ⟨⟨0, 0⟩, (hproper.zero_isShortest hzero).spells hp, ?_⟩
    rw [htext, if_pos hzero]
    rfl
  · refine ⟨p.shortest, (hproper.shortest_isShortest hzero).spells hp, ?_⟩
    rw [htext, if_neg hzero]

/-- **The text of a number is read as the number.** -/
theorem literalValue_numberText (hp : Parts.ofFloat? x = some p) :
    literalValue (numberText x) = .ok x := by
  obtain ⟨d, hd, htext⟩ := numberText_eq hp
  obtain ⟨d', hread, hvalue⟩ := d.read?_layout (signBit x)
  have hreads : d'.toFloat (signBit x) = x := by
    rw [toFloat_eq_iff hp, hvalue, ← toFloat_eq_iff hp]
    exact hd.reads
  rw [literalValue, htext, hread]
  dsimp only [Literal.value?]
  rw [hreads]

end Finite

/-- The other texts are no literals. -/
theorem literalValue_unspelled {x : Float} (hx : ¬ FiniteBits x.toBits) :
    literalValue (numberText x) = .error (.soft (.badLiteral (numberText x))) := by
  have hnone : Parts.ofFloat? x = none := by
    rw [finiteBits_iff_parts, ← Option.isSome_iff_exists] at hx
    simpa using hx
  have htext : numberText x ∈ ["nan", "inf", "-inf"] := by
    rw [numberText, Spelling.write, hnone]
    dsimp only [Spelling.plain]
    cases x.isNaN <;> cases signBit x <;> decide
  have hread : Literal.read? (numberText x) = none := by
    revert htext
    generalize numberText x = text
    revert text
    decide
  rw [literalValue, hread]

/-! ### The literal of a number -/

section Literal

variable {limit : Int} {e : ScopeId} {m : Machine} {text : String}

theorem form?_literal (text : String) : (Node.literal text).form? = some .number :=
  Node.form?_eq_some_iff.2 rfl

theorem conclude_literal : conclude e (.literal text) [] m =
    match literalValue text with
    | .ok x => .ok (.number x) m
    | .error f => .error f m := by
  rw [conclude, form?_literal]
  simp only [concludeForm, show (Node.literal text).text = text from rfl]
  cases literalValue text <;> rfl

theorem eval_literal (hdepth : m.depth < limit) :
    eval limit e (.literal text) m = left (Step.recover (.literal text)
      (conclude e (.literal text) []) (m.enter (.literal text))) :=
  eval_leaf (by rw [form?_literal]; decide) rfl hdepth

theorem eval_literal_of_ok {x : Float} (hdepth : m.depth < limit) (h : literalValue text = .ok x) :
    eval limit e (.literal text) m = .ok (.number x) (m.enter (.literal text)).leave := by
  have hconclude : conclude e (.literal text) [] (m.enter (.literal text)) =
      .ok (.number x) (m.enter (.literal text)) := by
    rw [conclude_literal, h]
  rw [eval_literal hdepth, Step.recover_of_ok hconclude]
  rfl

/-- A literal without a value is void and reported. -/
theorem eval_literal_of_soft {fault : Fault} (hdepth : m.depth < limit)
    (h : literalValue text = .error (.soft fault)) :
    eval limit e (.literal text) m =
      .ok .void ((m.enter (.literal text)).report (.ofFault fault (.literal text))).leave := by
  have hconclude : conclude e (.literal text) [] (m.enter (.literal text)) =
      .error (.soft fault) (m.enter (.literal text)) := by
    rw [conclude_literal, h]
  rw [eval_literal hdepth, Step.recover_of_soft hconclude]
  rfl

end Literal

/-- **The literal of a number evaluates to the number.**  Its text is as short as
can be; the literal of an infinity or of the NaN is void and reported. -/
theorem number_literal_round_trips (bits : UInt64) (limit : Int) (e : ScopeId) (m : Machine)
    (hdepth : m.depth < limit) :
    let x := Float.ofBits bits
    (FiniteBits bits →
      x.toBits = bits ∧
      (∃ p d, Parts.ofFloat? x = some p ∧ SpellsShortest x p d ∧
        (Node.number x).text = String.ofList (signText (signBit x) ++ d.layout)) ∧
      ∃ m', eval limit e (.number x) m = .ok (.number x) m' ∧ m'.heap = m.heap ∧
        m'.diagnostics = m.diagnostics) ∧
    (¬ FiniteBits bits →
      ∃ m' report, eval limit e (.number x) m = .ok .void m' ∧ m'.heap = m.heap ∧
        m'.diagnostics = m.diagnostics.push report ∧ report.error = "ScriblLiteralParseError") := by
  intro x
  rw [← finiteBits_ofBits bits]
  refine ⟨fun hfinite => ?_, fun hother => ?_⟩
  · obtain ⟨p, hp⟩ := (finiteBits_iff_parts x).1 hfinite
    obtain ⟨d, hd, htext⟩ := numberText_eq hp
    refine ⟨toBits_ofBits (.inl ((finiteBits_ofBits bits).1 hfinite)), ⟨p, d, hp, hd, htext⟩, ?_⟩
    exact ⟨_, eval_literal_of_ok hdepth (literalValue_numberText hp), rfl, rfl⟩
  · exact ⟨_, _, eval_literal_of_soft hdepth (literalValue_unspelled hother), rfl, rfl, rfl⟩

/-- The least negative subnormal keeps its bits; a negative NaN is reported. -/
theorem number_literal_round_trips_subnormal :
    let m : Machine := { heap := .initial }
    let x := Float.ofBits 0x8000000000000001
    let y := Float.ofBits 0xfff0000000000001
    m.depth < (1 : Int) ∧ FiniteBits 0x8000000000000001 ∧ ¬ FiniteBits 0xfff0000000000001 ∧
      x.toBits = 0x8000000000000001 ∧
      (∃ m', eval 1 0 (.number x) m = .ok (.number x) m' ∧ m'.diagnostics = #[]) ∧
      ∃ m' report, eval 1 0 (.number y) m = .ok .void m' ∧ m'.diagnostics = #[report] := by
  intro m x y
  have hdepth : m.depth < (1 : Int) := by decide
  have hx : FiniteBits 0x8000000000000001 := by decide
  have hy : ¬ FiniteBits 0xfff0000000000001 := by decide
  obtain ⟨hbits, -, m₁, heval, -, hquiet⟩ :=
    (number_literal_round_trips 0x8000000000000001 1 0 m hdepth).1 hx
  obtain ⟨m₂, report, hvoid, -, hreport, -⟩ :=
    (number_literal_round_trips 0xfff0000000000001 1 0 m hdepth).2 hy
  exact ⟨hdepth, hx, hy, hbits, ⟨m₁, heval, hquiet⟩, m₂, report, hvoid, hreport⟩

end BlockScript
