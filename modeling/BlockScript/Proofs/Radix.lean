/-
BlockScript/Proofs/Radix.lean

Integers in different bases.

An integer literal has the same value in every base, in letters of either case and
behind any number of zeros,

    255  =  0xff  =  0XfF  =  0o00377  =  0b11111111,

as long as the nearest float is finite.  From the limit on the decimal is infinite
and the prefixed integer has no value.  An evaluation that reaches such a literal
does not return, and stops for it unless an error of the language comes first;
nothing else than these errors stops an evaluation.
-/
import BlockScript.Proofs.Reports
import BlockScript.Proofs.RoundTrip
import BlockScript.Proofs.Spelling

namespace BlockScript

open Literal

/-! ### The spellings of an integer -/

namespace Literal

/-- The row is made of the digits of `n`, behind any number of zeros. -/
def IsDigitsOf (base n : ℕ) (cs : List Char) : Prop :=
  cs ≠ [] ∧ ∃ zeros,
    List.Forall₂ (BasedDigit base) cs (List.replicate zeros 0 ++ (Nat.digits base n).reverse)

/-- Digits behind a mark spell the integer, with or without zeros in front. -/
theorem IsDigitsOf.prefixed {mark : Char} {base n : ℕ} {cs : List Char}
    (hmark : (mark, base) ∈ baseMarks) (hcs : IsDigitsOf base n cs) :
    Prefixed ('0' :: mark :: cs) n := by
  obtain ⟨hne, zeros, hdigits⟩ := hcs
  refine .intro hmark hne ⟨_, hdigits, ?_⟩
  rw [List.reverse_append, List.reverse_reverse, List.reverse_replicate,
    Nat.ofDigits_append_replicate_zero, Nat.ofDigits_digits]

theorem BasedDigit.not_blank {base v : ℕ} {c : Char} (h : BasedDigit base c v) :
    isBlank c = false := by
  have hdigits :
      ("0123456789abcdef".toList ++ "0123456789ABCDEF".toList).all (! isBlank ·) = true := by
    decide
  have hmem : c ∈ "0123456789abcdef".toList ++ "0123456789ABCDEF".toList :=
    List.mem_append.2 (h.2.imp List.mem_of_getElem? List.mem_of_getElem?)
  simpa using List.all_eq_true.1 hdigits c hmem

/-- A prefixed integer has no blanks to be stripped. -/
theorem Prefixed.strip_eq {cs : List Char} {n : ℕ} (h : Prefixed cs n) :
    strip (String.ofList cs) = String.ofList cs := by
  obtain ⟨hmark, -, hspells⟩ := h
  obtain ⟨hdigits, -⟩ := (spells_based_iff (base_le_of_mem hmark)).1 hspells
  have hmarks : ∀ entry ∈ baseMarks, isBlank entry.1 = false := by decide
  apply strip_of_not_blank
  rw [List.forall_mem_cons, List.forall_mem_cons]
  refine ⟨by decide, hmarks _ hmark, fun c hc => ?_⟩
  obtain ⟨v, hv⟩ := Option.isSome_iff_exists.1 (hdigits c hc)
  exact ((basedDigit?_eq_some_iff (base_le_of_mem hmark)).1 hv).not_blank

/-- The decimal digits of an integer spell it as a decimal. -/
theorem isDecimal_toDigits (n : ℕ) : IsDecimal (Nat.toDigits 10 n) false n := by
  have hspells := spells_decimalValue (isDecimalDigit_of_digits (isDigit_toDigits (n := n)))
  rw [decimalValue_toDigits] at hspells
  have hdecimal := IsDecimal.intro .none (.whole Nat.toDigits_ne_nil hspells) .none
  rwa [List.nil_append, List.append_nil, zpow_zero, mul_one] at hdecimal

end Literal

/-- An integer in decimal digits has the value of the nearest float. -/
theorem literalValue_toString (n : ℕ) : literalValue (toString n) = .ok (nearest false n 1) := by
  have htext : toString n = String.ofList (Nat.toDigits 10 n) := rfl
  have hstrip : strip (toString n) = toString n := by
    rw [htext]
    exact strip_of_not_blank fun c hc => Decimal.isBlank_of_isPlain (.inl (isDigit_toDigits c hc))
  have hdecimal : IsDecimal (strip (toString n)).toList false n := by
    rw [hstrip, htext, String.toList_ofList]
    exact isDecimal_toDigits n
  obtain ⟨d, hvalue, hd⟩ := literalValue_of_isDecimal hdecimal
  have hround : Rounded d.value (nearestBits n 1) := by
    rw [hvalue]
    exact rounded_natCast n
  rw [hd, Decimal.toFloat_eq hround]
  rfl

/-- A literal without a value is an integer behind a prefix, beyond the limit. -/
theorem literalValue_hard_iff {text : String} {halt : Halt} :
    literalValue text = .error (.hard halt) ↔
      halt = .integerOverflow ∧ ∃ n : ℕ, Prefixed (strip text).toList n ∧ overflowLimit ≤ n := by
  constructor
  · intro h
    by_cases hprefixed : ∃ n, Prefixed (strip text).toList n
    · obtain ⟨n, hn⟩ := hprefixed
      rw [literalValue_of_prefixed hn] at h
      split at h
      next => cases h
      next hlimit =>
        cases h
        exact ⟨rfl, n, hn, not_lt.1 hlimit⟩
    · -- a decimal has a value, and what is neither is a fault
      by_cases hdecimal : ∃ negative q, IsDecimal (strip text).toList negative q
      · obtain ⟨negative, q, hq⟩ := hdecimal
        obtain ⟨d, -, hd⟩ := literalValue_of_isDecimal hq
        rw [hd] at h
        cases h
      · rw [literalValue_of_neither hprefixed hdecimal] at h
        cases h
  · rintro ⟨rfl, n, hn, hlimit⟩
    rw [literalValue_of_prefixed hn, if_neg (not_lt.2 hlimit)]

/-! ### What literals do to an evaluation -/

/-- The node is a prefixed integer beyond the limit. -/
def Node.IsOversized (n : Node) : Prop :=
  n.form? = some .number ∧ ∃ k : ℕ, Prefixed (strip n.text).toList k ∧ overflowLimit ≤ k

/-- The causes that are errors of the language. -/
def Halt.IsLanguageError : Halt → Prop
  | .syntaxError _ | .grammarMissing _ | .redeclared _ | .tooDeep _ _ => True
  | _ => False

/-- How an evaluation of some nodes ends: with a value only if none of them is
oversized, and otherwise with an error of the language or at one that is. -/
def Ends {α : Type} (nodes : List Node) : Outcome α → Prop
  | .ok _ _ => ∀ k ∈ nodes, ¬ k.IsOversized
  | .error halt _ =>
    halt.IsLanguageError ∨ halt = .integerOverflow ∧ ∃ k ∈ nodes, k.IsOversized

/-- What stops one evaluation stops those around it. -/
theorem Ends.of_error {α β : Type} {ns ns' : List Node} {halt : Halt} {m m' : Machine}
    (h : Ends ns (.error halt m : Outcome α)) (hsubset : ns ⊆ ns') :
    Ends ns' (.error halt m' : Outcome β) := by
  refine h.imp_right ?_
  rintro ⟨rfl, k, hk, hoversized⟩
  exact ⟨rfl, k, hsubset hk, hoversized⟩

/-- An oversized literal cannot be recovered from. -/
theorem recover_of_oversized {n : Node} (hn : n.IsOversized) (e : ScopeId) (values : List Value)
    (m : Machine) : Step.recover n (conclude e n values) m = .error .integerOverflow m := by
  have hliteral := literalValue_hard_iff.2 ⟨rfl, hn.2⟩
  apply Step.recover_of_hard
  rw [conclude, hn.1]
  simp only [concludeForm, hliteral]
  rfl

/-- The node behind its operands. -/
theorem Ends.conclusion {ns : List Node} {values : List Value} {m : Machine}
    (hops : Ends ns (.ok values m)) (e : ScopeId) (n : Node) :
    Ends (ns ++ [n]) (left (Step.recover n (conclude e n values) m)) := by
  rcases hr : Step.recover n (conclude e n values) m with ⟨v, m'⟩ | ⟨halt, m'⟩
  · show ∀ k ∈ ns ++ [n], ¬ k.IsOversized
    rw [List.forall_mem_append, List.forall_mem_singleton]
    refine ⟨hops, fun hn => ?_⟩
    rw [recover_of_oversized hn] at hr
    cases hr
  · -- a conclusion stops at a constant or at the literal itself
    rcases recover_stops hr with ⟨name, rfl⟩ | ⟨hform, hliteral⟩
    · exact .inl trivial
    · obtain ⟨rfl, hlarge⟩ := literalValue_hard_iff.1 hliteral
      exact .inr ⟨rfl, n, by simp, hform, hlarge⟩

/-- **What stops an evaluation** is an error of the language or an oversized literal. -/
theorem eval_ends (limit : Int) :
    (∀ e n m, Ends n.postorder (eval limit e n m)) ∧
      ∀ e ns m, Ends (Node.postorders ns) (evalAll limit e ns m) := by
  refine eval_induction limit (fun _ n _ r => Ends n.postorder r)
    (fun _ ns _ r => Ends (Node.postorders ns) r) ?_ ?_ ?_ ?_ ?_ ?_ ?_
  · intro e n m _
    exact .inl trivial
  · -- an operand has stopped
    intro e n m halt m' _ _ hops
    rw [Node.postorder_eq]
    exact hops.of_error (List.subset_append_left _ _)
  · intro e n m values m' _ _ hops
    rw [Node.postorder_eq]
    exact hops.conclusion _ n
  · intro e m
    rw [Node.postorders]
    exact List.forall_mem_nil _
  · intro e n ns m halt m' _ hn
    rw [Node.postorders]
    exact hn.of_error (List.subset_append_left _ _)
  · intro e n ns m v m' halt m'' _ _ hns
    rw [Node.postorders]
    exact hns.of_error (List.subset_append_right _ _)
  · intro e n ns m v m' vs m'' _ hn hns
    rw [Node.postorders]
    exact List.forall_mem_append.2 ⟨hn, hns⟩

theorem evalProgram_ends (limit : Int) (root : ScopeId) (tree : Node) (m : Machine) :
    Ends tree.postorder (evalProgram limit root tree m) := by
  by_cases hblock : tree.form? = some .block
  · have hall := (eval_ends limit).2 root tree.operands m
    rw [Node.postorder_eq]
    rcases hops : evalAll limit root tree.operands m with ⟨vs, m'⟩ | ⟨halt, m'⟩ <;>
      rw [hops] at hall
    · rw [evalProgram_of_ok hblock hops]
      -- the root is a block and no literal
      refine List.forall_mem_append.2 ⟨hall, List.forall_mem_singleton.2 fun hroot => ?_⟩
      cases hblock.symm.trans hroot.1
    · rw [evalProgram_of_error hblock hops]
      exact hall.of_error (List.subset_append_left _ _)
  · rw [evalProgram_of_ne_block hblock]
    exact (eval_ends limit).1 root tree m

theorem run_ends (limit : Int) (root : ScopeId) (tree : Node) (h : Heap) :
    Ends tree.postorder (run limit root tree h) := by
  have hprogram := evalProgram_ends limit root tree { heap := h }
  unfold run
  split
  next => exact .inl trivial
  next =>
    split <;> rename_i hr <;> rw [hr] at hprogram <;> exact hprogram

/-- **The base of an integer literal does not matter below the limit.**  Its decimal
digits and its digits behind a prefix have the nearest float as their value.  From
the limit on the decimal is infinite and the prefixed integer has no value; these
literals, where they are reached, are all that makes an evaluation or a run end in
anything but a value or an error of the language. -/
theorem integer_spellings_agree_below_limit (n : ℕ) (limit : Int) (e : ScopeId) (tree : Node)
    (h : Heap) :
    (∃ x, IsNearest false n x ∧ literalValue (toString n) = .ok x ∧
      ∀ mark base cs, (mark, base) ∈ baseMarks → IsDigitsOf base n cs →
        literalValue (String.ofList ('0' :: mark :: cs)) =
          if (n : ℚ) < overflowLimit then .ok x else .error (.hard .integerOverflow)) ∧
    Ends tree.postorder (evaluate limit e tree h) ∧
    Ends tree.postorder (run limit e tree h) := by
  refine ⟨⟨_, nearest_natCast_isNearest n, literalValue_toString n, ?_⟩, ?_, ?_⟩
  · intro mark base cs hmark hcs
    have hprefixed := hcs.prefixed hmark
    apply literalValue_of_prefixed
    rwa [hprefixed.strip_eq, String.toList_ofList]
  · exact (eval_ends limit).1 e tree { heap := h }
  · exact run_ends limit e tree h

/-- The same number in four spellings. -/
theorem integer_spellings_agree_in_all_bases :
    IsDigitsOf 16 48879 "bEeF".toList ∧ IsDigitsOf 8 48879 "00137357".toList ∧
    IsDigitsOf 2 48879 "1011111011101111".toList ∧
    ∃ x, IsNearest false (48879 : ℕ) x ∧ literalValue "48879" = .ok x ∧
      literalValue "0XbEeF" = .ok x ∧ literalValue "0o00137357" = .ok x ∧
      literalValue "0b1011111011101111" = .ok x := by
  have hhex : IsDigitsOf 16 48879 "bEeF".toList :=
    ⟨by decide, 0,
      (forall₂_based_iff (by decide) _ _).2 ⟨List.all_eq_true.1 (by decide), by decide⟩⟩
  have hoctal : IsDigitsOf 8 48879 "00137357".toList :=
    ⟨by decide, 2,
      (forall₂_based_iff (by decide) _ _).2 ⟨List.all_eq_true.1 (by decide), by decide⟩⟩
  have hbinary : IsDigitsOf 2 48879 "1011111011101111".toList :=
    ⟨by decide, 0,
      (forall₂_based_iff (by decide) _ _).2 ⟨List.all_eq_true.1 (by decide), by decide⟩⟩
  obtain ⟨x, hx, hdecimal, hvalue⟩ :=
    (integer_spellings_agree_below_limit 48879 400 0 (.literal "48879") .initial).1
  have hlimit : ((48879 : ℕ) : ℚ) < overflowLimit :=
    (rounded_natCast _).lt_infinityBits_iff.1 (by decide)
  simp only [if_pos hlimit] at hvalue
  exact ⟨hhex, hoctal, hbinary, x, hx, hdecimal, hvalue 'X' 16 _ (by decide) hhex,
    hvalue 'o' 8 _ (by decide) hoctal, hvalue 'b' 2 _ (by decide) hbinary⟩

/-- From the limit on the spellings differ: the decimal is infinite, and the same
integer behind a prefix stops the evaluation. -/
theorem integer_spellings_differ_at_limit :
    let text := String.ofList ('0' :: 'x' :: '1' :: List.replicate 256 '0')
    Prefixed (strip text).toList (2 ^ 1024) ∧
    literalValue text = .error (.hard .integerOverflow) ∧
    (∃ x, literalValue (toString (2 ^ 1024 : ℕ)) = .ok x ∧ x.isInf = true) ∧
    ∃ m, evaluate 400 0 (.literal text) .initial = .error .integerOverflow m := by
  intro text
  have hprefixed : Prefixed ('0' :: 'x' :: '1' :: List.replicate 256 '0') (2 ^ 1024) := by
    have hdigits : List.Forall₂ (BasedDigit 16) ('1' :: List.replicate 256 '0')
        (1 :: List.replicate 256 0) :=
      (forall₂_based_iff (by decide) _ _).2
        ⟨List.all_eq_true.1 (by decide +kernel), by decide +kernel⟩
    refine .intro (by decide) (List.cons_ne_nil _ _) ⟨_, hdigits, ?_⟩
    rw [List.reverse_cons, List.reverse_replicate, Nat.ofDigits_append, Nat.ofDigits_replicate_zero,
      List.length_replicate, Nat.ofDigits_singleton, zero_add, mul_one]
    rw [show (16 : ℕ) = 2 ^ 4 from rfl, ← pow_mul]
  have htext : (strip text).toList = '0' :: 'x' :: '1' :: List.replicate 256 '0' := by
    rw [hprefixed.strip_eq, String.toList_ofList]
  have hlimit : overflowLimit ≤ ((2 ^ 1024 : ℕ) : ℚ) := by
    rw [overflowLimit, Nat.cast_pow, Nat.cast_ofNat]
    exact sub_le_self _ (by positivity)
  rw [← htext] at hprefixed
  have hvalue : literalValue text = .error (.hard .integerOverflow) :=
    literalValue_hard_iff.2 ⟨rfl, _, hprefixed, hlimit⟩
  refine ⟨hprefixed, hvalue, ⟨_, literalValue_toString _, ?_⟩, ?_⟩
  · exact (nearest_natCast_isNearest _).infinite hlimit
  · have hnode : (Node.literal text).IsOversized := ⟨form?_literal text, _, hprefixed, hlimit⟩
    have heval : eval 400 0 (.literal text) { heap := .initial } = _ := eval_literal (by decide)
    rw [recover_of_oversized hnode] at heval
    exact ⟨_, heval⟩

end BlockScript
