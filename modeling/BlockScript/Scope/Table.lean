/-
BlockScript/Scope/Table.lean

The bindings of one scope in the order in which the names were first bound.
Binding a name again replaces its entry where it stands, so a name keeps its
position for good and occurs once.
-/
import BlockScript.Scope.Value

namespace BlockScript

/-- A value and whether it may be replaced. -/
structure Binding where
  value : Value
  constant : Bool
deriving Repr, DecidableEq, Inhabited

/-- The bindings of a scope, oldest name first. -/
structure Table where
  entries : List (String × Binding)
  nodup : (entries.map Prod.fst).Nodup
deriving Repr

namespace Table

/-- The table that binds no name. -/
def empty : Table := ⟨[], List.nodup_nil⟩

instance : Inhabited Table := ⟨empty⟩

/-- A table is its entries. -/
theorem eq_of_entries {t t' : Table} (h : t.entries = t'.entries) : t = t' := by
  cases t
  cases t'
  cases h
  rfl

/-- The names bound, oldest first. -/
def names (t : Table) : List String :=
  t.entries.map Prod.fst

/-- The binding of a name. -/
def find? (t : Table) (name : String) : Option Binding :=
  t.entries.lookup name

/-- Whether a name is bound. -/
def contains (t : Table) (name : String) : Bool :=
  (t.find? name).isSome

/-- Replaces the entry of a name. -/
def replace (entries : List (String × Binding)) (name : String) (b : Binding) :
    List (String × Binding) :=
  entries.map fun e => if e.1 = name then (name, b) else e

/-- Replacing keeps the names. -/
theorem map_fst_replace (entries : List (String × Binding)) (name : String) (b : Binding) :
    (replace entries name b).map Prod.fst = entries.map Prod.fst := by
  simp only [replace, List.map_map]
  refine List.map_congr_left fun e _ => ?_
  by_cases h : e.1 = name <;> simp [h]

/-- Binds a name: in place if it is bound already, at the end otherwise. -/
def set (t : Table) (name : String) (b : Binding) : Table :=
  if h : name ∈ t.names then
    ⟨replace t.entries name b, by rw [map_fst_replace]; exact t.nodup⟩
  else
    ⟨t.entries ++ [(name, b)], by
      rw [List.map_append]
      exact List.nodup_append.2 ⟨t.nodup, by simp, by
        intro a ha c hc
        simp at hc
        subst hc
        exact fun he => h (he ▸ ha)⟩⟩

/-! ### What binding a name does to the names and to look-up -/

theorem entries_set (t : Table) (name : String) (b : Binding) :
    (t.set name b).entries =
      if name ∈ t.names then replace t.entries name b else t.entries ++ [(name, b)] := by
  unfold set
  split <;> rfl

/-- Names keep their places; a new one comes last. -/
theorem names_set (t : Table) (name : String) (b : Binding) :
    (t.set name b).names = if name ∈ t.names then t.names else t.names ++ [name] := by
  unfold set
  split
  · exact map_fst_replace _ _ _
  · simp [names]

/-- Names are only added, and at the end. -/
theorem names_prefix_set (t : Table) (name : String) (b : Binding) :
    t.names <+: (t.set name b).names := by
  rw [names_set]
  split
  · exact List.prefix_rfl
  · exact List.prefix_append _ _

theorem lookup_eq_none_iff_not_mem {entries : List (String × Binding)} {name : String} :
    entries.lookup name = none ↔ name ∉ entries.map Prod.fst := by
  simp [List.lookup_eq_none_iff]
  grind

theorem lookup_map_snd {α : Type} (f : Binding → α) (entries : List (String × Binding))
    (name : String) :
    (entries.map fun entry => (entry.1, f entry.2)).lookup name = (entries.lookup name).map f := by
  induction entries with
  | nil => rfl
  | cons entry rest ih =>
    rw [List.map_cons, List.lookup_cons, List.lookup_cons, ih]
    split <;> rfl

/-- Replacing is seen under its name, if the name is there. -/
theorem lookup_replace (entries : List (String × Binding)) (name other : String) (b : Binding) :
    (replace entries name b).lookup other =
      if other = name ∧ name ∈ entries.map Prod.fst then some b else entries.lookup other := by
  induction entries with
  | nil => simp [replace]
  | cons e rest ih =>
    obtain ⟨key, old⟩ := e
    simp only [replace, List.map_cons, List.lookup_cons, List.mem_cons] at *
    -- the first entry may be the one replaced, and it may be the one looked for
    by_cases hk : key = name <;> by_cases ho : other = key <;> grind

/-- A bound name reads as its new binding, every other name as before. -/
theorem find?_set (t : Table) (name other : String) (b : Binding) :
    (t.set name b).find? other = if other = name then some b else t.find? other := by
  unfold set find?
  split
  next h =>
    have hmem : name ∈ t.entries.map Prod.fst := h
    rw [lookup_replace]
    simp [hmem]
  next h =>
    rw [List.lookup_append]
    by_cases ho : other = name
    · subst ho
      simp [lookup_eq_none_iff_not_mem.2 h]
    · have hne : (other == name) = false := by simpa using ho
      simp [ho, hne, List.lookup_cons]

end Table

end BlockScript
