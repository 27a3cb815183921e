/-
BlockScript/Proofs/Dotted.lean

The path of a target is the one that its text spells.

A member expression is nested to the left, and its text has a dot where the
tree has a level:

    text (member object property)  =  text object ++ "." ++ text property

Cutting a text at its dots therefore takes a tree apart from the outside, one
name for each level, as long as no name holds a dot itself (`Dotted`).  A tree
that was built from a text has just the pieces of the text as its names.

Of the trees with other shapes, those stand for a path whose objects, followed
from the target inwards, end in an identifier; all others are refused with one
class of fault.
-/
import BlockScript.Proofs.Assignment
import BlockScript.Proofs.Target
import Mathlib.Logic.Relation

namespace BlockScript

/-! ### Texts with dots -/

/-- The names that a text spells: its pieces between the dots, without the
blanks around them. -/
def segments (s : String) : List String :=
  (s.toList.splitOn '.').map fun piece => strip (String.ofList piece)

theorem segments_of_no_dot {s : String} (hs : '.' ∉ s.toList) : segments s = [strip s] := by
  rw [segments, List.splitOn_eq_singleton hs, List.map_singleton, String.ofList_toList]

/-- A dot between two texts puts the names of the one before those of the other. -/
theorem segments_append (s t : String) :
    segments (s ++ "." ++ t) = segments s ++ segments t := by
  have hlist : (s ++ "." ++ t).toList = s.toList ++ '.' :: t.toList := by simp
  rw [segments, hlist, List.splitOn_append_cons_self, List.map_append]
  rfl

/-- The pieces of a text are those that splitting it gives. -/
theorem pieces_eq_splitOnP (separator : Char → Bool) (cs : List Char) :
    pieces separator cs = cs.splitOnP separator := by
  fun_induction pieces separator cs with
  | case1 => rfl
  | case2 c cs hc ih => rw [List.splitOnP_cons_eq_if_modifyHead, if_pos hc, ih]
  | case3 c cs hc piece rest hrest ih =>
    rw [List.splitOnP_cons_eq_if_modifyHead, if_neg hc, ← ih, hrest]
    rfl
  | case4 c cs hc hrest ih => exact absurd (ih.symm.trans hrest) (List.splitOnP_ne_nil _ _)

/-- A piece holds no separator. -/
theorem not_separator_of_mem_pieces {separator : Char → Bool} {cs piece : List Char} {c : Char}
    (hpiece : piece ∈ pieces separator cs) (hc : c ∈ piece) : separator c = false := by
  fun_induction pieces separator cs generalizing piece with
  | case1 =>
    obtain rfl := List.mem_singleton.1 hpiece
    cases hc
  | case2 d cs hd ih =>
    rcases List.mem_cons.1 hpiece with rfl | hpiece
    · cases hc
    · exact ih hpiece hc
  | case3 d cs hd first rest hrest ih =>
    rcases List.mem_cons.1 hpiece with rfl | hpiece
    · -- the first piece goes on with a character that is no separator
      rcases List.mem_cons.1 hc with rfl | hc
      · exact Bool.eq_false_iff.2 hd
      · exact ih (hrest ▸ List.mem_cons_self) hc
    · exact ih (hrest ▸ List.mem_cons_of_mem _ hpiece) hc
  | case4 d cs hd hrest ih =>
    rw [pieces_eq_splitOnP] at hrest
    exact absurd hrest (List.splitOnP_ne_nil _ _)

theorem not_dot_of_mem_splitOn {cs piece : List Char} (hpiece : piece ∈ cs.splitOn '.') :
    '.' ∉ piece := by
  rw [List.splitOn_eq_splitOnP, ← pieces_eq_splitOnP] at hpiece
  intro hdot
  exact absurd (not_separator_of_mem_pieces hpiece hdot) (by decide)

namespace Node

/-! ### Trees made of names without dots -/

/-- An identifier, or members of one to any depth, such that no name has a
dot in it. -/
inductive Dotted : Node → Prop
  | name {n : Node} : n.kind = "identifier" → '.' ∉ n.text.toList → Dotted n
  | member {object property : Node} : Dotted object → property.kind = "identifier" →
      '.' ∉ property.text.toList → Dotted (.member object property)

/-- Such a tree has the names that its text spells. -/
theorem Dotted.isPath {n : Node} (hn : n.Dotted) : n.IsPath (segments n.text) := by
  induction hn with
  | @name n hkind hdot =>
    rw [segments_of_no_dot hdot]
    exact .name (form?_eq_some_iff.2 hkind)
  | @member object property _ hkind hdot ih =>
    show IsPath _ (segments (object.text ++ "." ++ property.text))
    rw [segments_append, segments_of_no_dot hdot]
    exact .member rfl rfl ih (form?_eq_some_iff.2 hkind)

/-- Members of members, for names from the inside outwards. -/
def members (object : Node) (names : List String) : Node :=
  names.foldl (fun n name => member n (identifier name)) object

theorem Dotted.members {n : Node} {names : List String} (hn : n.Dotted)
    (hnames : ∀ name ∈ names, '.' ∉ name.toList) : (n.members names).Dotted := by
  induction names generalizing n with
  | nil => exact hn
  | cons name names ih =>
    obtain ⟨hname, hnames⟩ := List.forall_mem_cons.1 hnames
    exact ih (.member hn rfl hname) hnames

/-- The text has a dot in front of each further name. -/
theorem text_members (n : Node) (names : List String) :
    (n.members names).text.toList
      = ['.'].intercalate (n.text.toList :: names.map String.toList) := by
  induction names generalizing n with
  | nil => exact (List.append_nil _).symm
  | cons name names ih =>
    have hinner : (member n (identifier name)).text.toList
        = n.text.toList ++ '.' :: name.toList := by
      simp [member, identifier]
    show ((member n (identifier name)).members names).text.toList = _
    rw [ih, hinner]
    rcases names with - | ⟨next, names⟩ <;> simp [List.intercalate]

theorem exists_memberPath_eq (dotted : String) :
    ∃ first rest, dotted.toList.splitOn '.' = first :: rest ∧
      memberPath dotted = (identifier (String.ofList first)).members (rest.map String.ofList) := by
  rcases hpieces : dotted.toList.splitOn '.' with - | ⟨first, rest⟩
  · exact absurd hpieces (List.splitOn_ne_nil _ _)
  · refine ⟨first, rest, rfl, ?_⟩
    -- there is always a first piece, which gives the innermost name
    rw [List.splitOn_eq_splitOnP, ← pieces_eq_splitOnP] at hpieces
    rw [memberPath, hpieces]
    rfl

/-- A tree that is built from a text has that text. -/
theorem text_memberPath (dotted : String) : (memberPath dotted).text = dotted := by
  obtain ⟨first, rest, hpieces, hpath⟩ := exists_memberPath_eq dotted
  have htexts : (rest.map String.ofList).map String.toList = rest := by simp
  rw [← String.toList_inj, hpath, text_members, htexts]
  show ['.'].intercalate ((String.ofList first).toList :: rest) = dotted.toList
  rw [String.toList_ofList, ← hpieces, List.intercalate_splitOn]

theorem dotted_memberPath (dotted : String) : (memberPath dotted).Dotted := by
  obtain ⟨first, rest, hpieces, hpath⟩ := exists_memberPath_eq dotted
  have hfree : ∀ piece ∈ first :: rest, '.' ∉ (String.ofList piece).toList := by
    intro piece hpiece
    rw [String.toList_ofList]
    exact not_dot_of_mem_splitOn (hpieces ▸ hpiece)
  obtain ⟨hfirst, hrest⟩ := List.forall_mem_cons.1 hfree
  have hhead : (identifier (String.ofList first)).Dotted := .name rfl hfirst
  rw [hpath]
  refine hhead.members fun name hname => ?_
  obtain ⟨piece, hpiece, rfl⟩ := List.mem_map.1 hname
  exact hrest piece hpiece

/-! ### Trees of any shape -/

/-- The object of a member expression that is complete and has an identifier
for its member. -/
def Object (n object : Node) : Prop :=
  n.kind = "member_expression" ∧
    ∃ dot property, n.children = [object, dot, property] ∧ property.kind = "identifier"

theorem exists_isPath_of_targetNames {n : Node} {whole : String} {tail names : List String}
    (hn : n.targetNames whole tail = .ok names) : ∃ path, n.IsPath path := by
  fun_induction targetNames whole tail n with
  | case1 tail text object dot property named missing hproperty ih =>
    obtain ⟨path, hpath⟩ := ih hn
    have hkind : property.form? = some .identifier := form?_eq_some_iff.2 (beq_iff_eq.1 hproperty)
    exact ⟨_, .member rfl rfl hpath hkind⟩
  | case2 => cases hn
  | case3 tail kind text children named missing _ hkind =>
    obtain rfl : kind = "identifier" := beq_iff_eq.1 hkind
    exact ⟨_, .name rfl⟩
  | case4 => cases hn

/-- A target has a path just if it is a path of names. -/
theorem exists_targetPath_iff {n : Node} :
    (∃ names, n.targetPath = .ok names) ↔ ∃ names, n.IsPath names :=
  ⟨fun ⟨_, hn⟩ => exists_isPath_of_targetNames hn, fun ⟨names, hpath⟩ => ⟨names, hpath.targetPath⟩⟩

/-- A path of names is what ends in an identifier. -/
theorem exists_isPath_iff {n : Node} :
    (∃ names, n.IsPath names) ↔
      ∃ last, Relation.ReflTransGen Object n last ∧ last.kind = "identifier" := by
  constructor
  · rintro ⟨names, hpath⟩
    induction hpath with
    | @name n hn => exact ⟨n, .refl, form?_eq_some_iff.1 hn⟩
    | @member n object dot property names hn hchildren _ hproperty ih =>
      obtain ⟨last, hsteps, hlast⟩ := ih
      have hobject : n.Object object :=
        ⟨form?_eq_some_iff.1 hn, dot, property, hchildren, form?_eq_some_iff.1 hproperty⟩
      exact ⟨last, .head hobject hsteps, hlast⟩
  · rintro ⟨last, hsteps, hlast⟩
    -- along the objects, from the target inwards
    induction hsteps using Relation.ReflTransGen.head_induction_on with
    | refl => exact ⟨_, .name (form?_eq_some_iff.2 hlast)⟩
    | head hobject _ ih =>
      obtain ⟨names, hpath⟩ := ih
      obtain ⟨hkind, dot, property, hchildren, hproperty⟩ := hobject
      exact ⟨_, .member (form?_eq_some_iff.2 hkind) hchildren hpath
        (form?_eq_some_iff.2 hproperty)⟩

end Node

/-- **Target paths follow the text.**  The tree of a dotted text has that very text,
and stands for the pieces between its dots.  So does every tree of members whose
names have no dot.  A tree of any shape stands for a path just if its objects, from
one to the next, end in an identifier; otherwise it is an unresolved member. -/
theorem target_path_follows_text (dotted : String) (n : Node) :
    ((Node.memberPath dotted).text = dotted ∧
      (Node.memberPath dotted).targetPath = .ok (segments dotted)) ∧
    (n.Dotted → n.targetPath = .ok (segments n.text)) ∧
    ((∃ names, n.targetPath = .ok names) ↔
      ∃ last, Relation.ReflTransGen Node.Object n last ∧ last.kind = "identifier") ∧
    ∀ fault, n.targetPath = .error fault → fault.label = "ScriblUnresolvedMember" := by
  refine ⟨⟨Node.text_memberPath dotted, ?_⟩, fun hn => hn.isPath.targetPath, ?_, ?_⟩
  · have hpath := (Node.dotted_memberPath dotted).isPath
    rw [Node.text_memberPath] at hpath
    exact hpath.targetPath
  · rw [Node.exists_targetPath_iff, Node.exists_isPath_iff]
  · exact fun fault hn => Node.targetNames_error_label hn

/-- Names with blanks around them, an empty one between two dots, and a member of a
block, which is no path. -/
theorem target_path_follows_text_of_blanks :
    let n : Node := .member (.member (.identifier " shape ") (.identifier "")) (.identifier " x ")
    let other : Node := .member (.block []) (.identifier "x")
    n.Dotted ∧ n.targetPath = .ok ["shape", "", "x"] ∧
      (Node.memberPath " shape .. x ").targetPath = .ok ["shape", "", "x"] ∧
      ∃ fault, other.targetPath = .error fault ∧ fault.label = "ScriblUnresolvedMember" := by
  intro n other
  have hn : n.Dotted :=
    .member (.member (.name rfl (by decide)) rfl (by decide)) rfl (by decide)
  have hsegments : segments " shape .. x " = ["shape", "", "x"] := by decide
  have htext : n.text = " shape .. x " := by decide
  obtain ⟨⟨-, hpath⟩, htree, -, -⟩ := target_path_follows_text " shape .. x " n
  have hother : other.targetPath = .error (.throughForm "block" other.text) := rfl
  refine ⟨hn, ?_, ?_, _, hother, (target_path_follows_text "" other).2.2.2 _ hother⟩
  · rw [htree hn, htext, hsegments]
  · rw [hpath, hsegments]

end BlockScript
