/-
BlockScript/Text/Blank.lean

Blank characters, and the three things done with them: names, literals and
operators are stripped before use, and the text of a node is collapsed to
single spaces before it is shown.

A run of characters, of blanks or of any other sort, ends where a character of
another sort begins or nothing follows: see `Ended`.
-/

namespace BlockScript

/-- Ranges of the blank characters. -/
def blankRanges : List (Nat × Nat) :=
  [(0x09, 0x0d), (0x1c, 0x20), (0x85, 0x85), (0xa0, 0xa0), (0x1680, 0x1680),
   (0x2000, 0x200a), (0x2028, 0x2029), (0x202f, 0x202f), (0x205f, 0x205f), (0x3000, 0x3000)]

/-- Whether a character is blank. -/
def isBlank (c : Char) : Bool :=
  blankRanges.any fun (lo, hi) => lo ≤ c.toNat && c.toNat ≤ hi

/-- The pieces of a text between its separators; there is always one more
piece than there are separators. -/
def pieces (separator : Char → Bool) : List Char → List (List Char)
  | [] => [[]]
  | c :: cs =>
    if separator c then [] :: pieces separator cs
    else
      match pieces separator cs with
      | p :: ps => (c :: p) :: ps
      | [] => [[c]]

/-- Removes blanks in front. -/
def stripLeft (cs : List Char) : List Char :=
  cs.dropWhile isBlank

/-- Removes blanks at the end. -/
def stripRight (cs : List Char) : List Char :=
  (cs.reverse.dropWhile isBlank).reverse

/-- Removes blanks at both ends. -/
def strip (s : String) : String :=
  String.ofList (stripRight (stripLeft s.toList))

/-- The maximal runs of characters that are not blank. -/
def words (s : String) : List String :=
  ((pieces isBlank s.toList).filter (· ≠ [])).map String.ofList

/-- The words of a text with one space between them. -/
def collapse (s : String) : String :=
  " ".intercalate (words s)

/-! ### Runs of characters -/

/-- No run of characters for which `inside` holds goes on into the text: nothing is
left of it, or it begins with another character. -/
def Ended (inside : Char → Bool) (cs : List Char) : Prop :=
  ∀ c ∈ cs.head?, inside c = false

theorem ended_nil {inside : Char → Bool} : Ended inside [] := by
  rintro c ⟨⟩

theorem ended_cons {inside : Char → Bool} {c : Char} (hc : inside c = false) (cs : List Char) :
    Ended inside (c :: cs) := by
  rintro _ ⟨⟩
  exact hc

/-! ### Stripping twice -/

theorem stripLeft_stripLeft (cs : List Char) : stripLeft (stripLeft cs) = stripLeft cs := by
  unfold stripLeft
  induction cs with
  | nil => rfl
  | cons c cs ih =>
    rw [List.dropWhile_cons]
    split
    next => exact ih
    next hc => rw [List.dropWhile_cons, if_neg hc]

theorem stripRight_stripRight (cs : List Char) : stripRight (stripRight cs) = stripRight cs := by
  have hleft := stripLeft_stripLeft cs.reverse
  unfold stripLeft at hleft
  unfold stripRight
  rw [List.reverse_reverse, hleft]

/-- Stripping at the end leaves a beginning of the text. -/
theorem stripRight_prefix_self (cs : List Char) : stripRight cs <+: cs := by
  have hsuffix := List.reverse_prefix.2 (List.dropWhile_suffix isBlank (l := cs.reverse))
  rwa [List.reverse_reverse] at hsuffix

/-- What begins a text without blanks in front has none in front. -/
theorem stripLeft_of_prefix {cs ds : List Char} (hp : cs <+: ds) (hds : stripLeft ds = ds) :
    stripLeft cs = cs := by
  rcases cs with - | ⟨c, cs⟩
  · rfl
  · obtain ⟨rest, rfl⟩ := hp
    -- a blank in front would have been stripped from the longer text too
    have hc : ¬ isBlank c = true := by
      intro hc
      have hshort := (List.dropWhile_suffix isBlank (l := cs ++ rest)).length_le
      have hlength := congrArg List.length hds
      simp only [stripLeft, List.cons_append, List.dropWhile_cons, hc, if_true,
        List.length_cons] at hlength
      omega
    rw [stripLeft, List.dropWhile_cons, if_neg hc]

/-- A text that has been stripped stays as it is. -/
theorem strip_strip (s : String) : strip (strip s) = strip s := by
  have hleft : stripLeft (stripRight (stripLeft s.toList)) = stripRight (stripLeft s.toList) :=
    stripLeft_of_prefix (stripRight_prefix_self _) (stripLeft_stripLeft _)
  unfold strip
  rw [String.toList_ofList, hleft, stripRight_stripRight]

/-! ### Texts without blanks -/

theorem stripLeft_of_not_blank {cs : List Char} (hcs : ∀ c ∈ cs, isBlank c = false) :
    stripLeft cs = cs := by
  cases cs with
  | nil => rfl
  | cons c cs =>
    apply List.dropWhile_cons_of_neg
    simp [hcs c List.mem_cons_self]

/-- A text without blanks is stripped of nothing. -/
theorem strip_of_not_blank {cs : List Char} (hcs : ∀ c ∈ cs, isBlank c = false) :
    strip (String.ofList cs) = String.ofList cs := by
  have hreverse : stripLeft cs.reverse = cs.reverse :=
    stripLeft_of_not_blank fun c hc => hcs c (List.mem_reverse.1 hc)
  rw [strip, String.toList_ofList, stripLeft_of_not_blank hcs, stripRight]
  rw [stripLeft] at hreverse
  rw [hreverse, List.reverse_reverse]

end BlockScript
