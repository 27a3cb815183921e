/-
BlockScript/Text/Terminal.lean

Control sequences of a terminal, such as the ones that switch colours.  A
sequence is an escape character and an opening bracket, then any number of
parameters, then one letter:

    ESC [ 1 ; 31 m

Text for a reader that may not be a terminal is printed without them.
Anything that falls short of a whole sequence is ordinary text.
-/

namespace BlockScript

/-- A character that may stand among the parameters of a control sequence. -/
def isParameter (c : Char) : Bool :=
  c == ';' || c == '?' || c.isDigit

/-- The length of the control sequence at the front of a text, or zero if none
stands there. -/
def controlLength : List Char → Nat
  | '\x1b' :: '[' :: cs =>
    let parameters := (cs.takeWhile isParameter).length
    match cs.drop parameters with
    | c :: _ => if c.isAlpha then parameters + 3 else 0
    | [] => 0
  | _ => 0

/-- Leaves out the next `skipped` characters, and every control sequence that
starts behind them. -/
def withoutControls (skipped : Nat) : List Char → List Char
  | [] => []
  | c :: cs =>
    match skipped with
    | n + 1 => withoutControls n cs
    | 0 =>
      match controlLength (c :: cs) with
      | n + 1 => withoutControls n cs
      | 0 => c :: withoutControls 0 cs

/-- A text without its control sequences. -/
def plainText (s : String) : String :=
  String.ofList (withoutControls 0 s.toList)

/-! ### Text without an escape character -/

/-- A sequence begins with an escape character. -/
theorem controlLength_cons_of_ne {c : Char} (h : c ≠ '\x1b') (cs : List Char) :
    controlLength (c :: cs) = 0 := by
  unfold controlLength
  split
  · next heq => exact absurd (List.cons.inj heq).1 h
  · rfl

/-- Without escape characters nothing is left out. -/
theorem withoutControls_eq_self {cs : List Char} (h : '\x1b' ∉ cs) : withoutControls 0 cs = cs := by
  induction cs with
  | nil => rfl
  | cons c cs ih =>
    have hc : c ≠ '\x1b' := fun e => h (e ▸ List.mem_cons_self)
    have hcs : '\x1b' ∉ cs := fun m => h (List.mem_cons_of_mem c m)
    rw [withoutControls, controlLength_cons_of_ne hc, ih hcs]

/-- Only an escape character makes a difference. -/
theorem plainText_eq_self {s : String} (h : '\x1b' ∉ s.toList) : plainText s = s := by
  rw [plainText, withoutControls_eq_self h, String.ofList_toList]

end BlockScript
