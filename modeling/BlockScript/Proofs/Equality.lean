/-
BlockScript/Proofs/Equality.lean

Equality of values, and collections without duplicates.

Two values are equal if equality sees the same in both: a number by its place on
the line, so that the zeros are one; a block by its scope; a function or an
iterator by the entry that was made for it.  The NaN shows nothing to look at and
differs from every value.  Equality is hence symmetric and transitive, and it is
reflexive but for the NaN.

A collection takes items for the same if they are one and the same or equal.
Over items whose identity determines the value this is an equivalence, so what a
collection keeps is one item of every class,

    length (distinct items)  =  number of classes,

in whatever order and however often the items are put in.  Items that are the
same have the same hash, so it makes no difference if only items of one hash are
compared.
-/
import BlockScript.Proofs.Line
import BlockScript.Scope.Value
import Mathlib.Data.Finset.Card

namespace BlockScript

/-! ### Equality -/

namespace Value

/-- What equality looks at. -/
inductive Key where
  | void
  | number (place : Line)
  | string (s : String)
  | boolean (b : Bool)
  | block (scope : ScopeId)
  | function (id : ℕ)
  | iterator (id : ℕ)

/-- The kind of the values that have a key. -/
def Key.kind : Key → Kind
  | void => .void
  | number _ => .number
  | string _ => .string
  | boolean _ => .boolean
  | block _ => .block
  | function _ => .function
  | iterator _ => .iterator

/-- What equality sees in a value; nothing in the NaN. -/
def key? : Value → Option Key
  | void => some .void
  | number x => (place? x).map .number
  | string s => some (.string s)
  | boolean b => some (.boolean b)
  | block e => some (.block e)
  | function i => some (.function i)
  | iterator i => some (.iterator i)

/-- The value is the NaN. -/
def IsNaN (a : Value) : Prop :=
  ∃ x, a = .number x ∧ x.isNaN = true

theorem key?_eq_none_iff {a : Value} : a.key? = none ↔ a.IsNaN := by
  cases a with
  | number x =>
    rw [key?, Option.map_eq_none_iff, place?_eq_none_iff]
    constructor
    · intro hx
      exact ⟨x, rfl, hx⟩
    · rintro ⟨y, ⟨⟩, hy⟩
      exact hy
  | _ =>
    refine iff_of_false (by simp [key?]) ?_
    rintro ⟨x, ⟨⟩, -⟩

/-- **Values are equal if equality sees the same in both.** -/
theorem equals_iff_key {a b : Value} :
    a.equals b = true ↔ ∃ k, a.key? = some k ∧ b.key? = some k := by
  cases a <;> cases b
  case number.number x y =>
    rw [equals, float_beq_iff]
    constructor
    · rintro ⟨p, hx, hy⟩
      exact ⟨.number p, by rw [key?, hx, Option.map_some], by rw [key?, hy, Option.map_some]⟩
    · rintro ⟨k, hx, hy⟩
      obtain ⟨p, hp, rfl⟩ := Option.map_eq_some_iff.1 hx
      obtain ⟨q, hq, ⟨⟩⟩ := Option.map_eq_some_iff.1 hy
      exact ⟨p, hp, hq⟩
  -- of the other kinds, the payload is the key; values of two kinds have no key in common
  all_goals simp [equals, key?]
  all_goals exact eq_comm

theorem kind_of_key? {a : Value} {k : Key} (h : a.key? = some k) : a.kind = k.kind := by
  cases a with
  | number x =>
    obtain ⟨p, -, rfl⟩ := Option.map_eq_some_iff.1 h
    rfl
  | _ =>
    cases h
    rfl

section Laws

variable {a b c : Value}

theorem equals_comm (a b : Value) : a.equals b = b.equals a := by
  rw [Bool.eq_iff_iff, equals_iff_key, equals_iff_key]
  exact exists_congr fun _ => and_comm

/-- Equality is transitive: a value has one key. -/
theorem equals_trans (hab : a.equals b = true) (hbc : b.equals c = true) : a.equals c = true := by
  obtain ⟨k, ha, hb⟩ := equals_iff_key.1 hab
  obtain ⟨k', hb', hc⟩ := equals_iff_key.1 hbc
  obtain rfl : k = k' := Option.some.inj (hb.symm.trans hb')
  exact equals_iff_key.2 ⟨k, ha, hc⟩

/-- Values of different kinds are not equal. -/
theorem kind_eq_of_equals (hab : a.equals b = true) : a.kind = b.kind := by
  obtain ⟨k, ha, hb⟩ := equals_iff_key.1 hab
  rw [kind_of_key? ha, kind_of_key? hb]

/-- A value equals itself, unless it is the NaN. -/
theorem equals_self_iff : a.equals a = true ↔ ¬ a.IsNaN := by
  rw [equals_iff_key, ← key?_eq_none_iff, ← Ne, Option.ne_none_iff_exists']
  exact exists_congr fun _ => and_self_iff

/-- The NaN equals nothing. -/
theorem IsNaN.equals_left (ha : a.IsNaN) (b : Value) : a.equals b = false := by
  rw [Bool.eq_false_iff, Ne, equals_iff_key, key?_eq_none_iff.2 ha]
  simp

end Laws

end Value

/-! ### Items that are the same -/

namespace Item

/-- The item of an identity, where every identity has a value. -/
def holding (value : ℕ → Value) (i : ℕ) : Item :=
  ⟨i, value i⟩

variable {value : ℕ → Value} {i j : ℕ}

theorem same_iff : (holding value i).same (holding value j) = true ↔
    i = j ∨ (value i).equals (value j) = true := by
  simp [same, holding]

/-- **To be one and the same or equal is an equivalence**, also where equality itself is not
reflexive. -/
theorem same_equivalence (value : ℕ → Value) :
    Equivalence fun i j => (holding value i).same (holding value j) = true where
  refl i := same_iff.2 (.inl rfl)
  symm h := by
    rw [same_iff] at h ⊢
    rwa [eq_comm, Value.equals_comm]
  trans h h' := by
    rw [same_iff] at h h' ⊢
    rcases h with rfl | h
    · exact h'
    · rcases h' with rfl | h'
      · exact .inr h
      · exact .inr (Value.equals_trans h h')

/-- Identities, those of the same items being taken for one. -/
def classes (value : ℕ → Value) : Setoid ℕ :=
  ⟨_, same_equivalence value⟩

instance (value : ℕ → Value) : DecidableRel (classes value).r :=
  fun i j => inferInstanceAs (Decidable ((holding value i).same (holding value j) = true))

/-- The class of an identity. -/
def classOf (value : ℕ → Value) (i : ℕ) : Quotient (classes value) :=
  Quotient.mk _ i

/-- The number of classes that some items make up. -/
def classCount (value : ℕ → Value) (ids : List ℕ) : ℕ :=
  (ids.map (classOf value)).toFinset.card

theorem same_iff_classOf :
    (holding value i).same (holding value j) = true ↔ classOf value i = classOf value j :=
  ⟨fun h => Quotient.sound h, fun h => Quotient.exact h⟩

/-! ### What a collection keeps -/

/-- An item is put in if its class is not there yet. -/
theorem insert_map (value : ℕ → Value) (kept : List ℕ) (i : ℕ) :
    insert (kept.map (holding value)) (holding value i) =
      (if classOf value i ∈ kept.map (classOf value) then kept else kept ++ [i]).map
        (holding value) := by
  have hany : (kept.map (holding value)).any (·.same (holding value i)) = true ↔
      classOf value i ∈ kept.map (classOf value) := by
    simp [same_iff_classOf]
  unfold insert
  rw [apply_ite (List.map (holding value)), List.map_append]
  exact if_congr hany rfl rfl

/-- The identities `kept` stand for the classes of `seen`, each for another. -/
structure Represents (value : ℕ → Value) (kept seen : List ℕ) : Prop where
  nodup : (kept.map (classOf value)).Nodup
  mem_iff : ∀ c, c ∈ kept.map (classOf value) ↔ c ∈ seen.map (classOf value)

namespace Represents

variable {kept seen : List ℕ}

theorem nil (value : ℕ → Value) : Represents value [] [] :=
  ⟨List.nodup_nil, fun _ => Iff.rfl⟩

/-- One item more. -/
theorem insert (h : Represents value kept seen) (i : ℕ) :
    Represents value
      (if classOf value i ∈ kept.map (classOf value) then kept else kept ++ [i]) (seen ++ [i]) := by
  have hseen : ∀ c, c ∈ (seen ++ [i]).map (classOf value) ↔
      c ∈ kept.map (classOf value) ∨ c = classOf value i := by
    intro c
    rw [List.map_append, List.mem_append, h.mem_iff]
    simp
  split
  next hmem =>
    -- the class is there already, so none is added to those seen
    refine ⟨h.nodup, fun c => ?_⟩
    rw [hseen]
    refine ⟨.inl, ?_⟩
    rintro (hc | rfl)
    · exact hc
    · exact hmem
  next hnew =>
    constructor
    · rw [List.map_append]
      exact h.nodup.append (List.nodup_singleton _) (by simpa using hnew)
    · intro c
      rw [hseen, List.map_append, List.mem_append]
      simp

/-- Where each class has one representative, there are as many as classes. -/
theorem length_eq (h : Represents value kept seen) : kept.length = classCount value seen := by
  have hclasses : (kept.map (classOf value)).toFinset = (seen.map (classOf value)).toFinset := by
    ext c
    rw [List.mem_toFinset, List.mem_toFinset, h.mem_iff]
  rw [classCount, ← hclasses, List.toFinset_card_of_nodup h.nodup, List.length_map]

end Represents

/-- Whatever has been put in, one item of every class is kept. -/
theorem foldl_represents {kept seen : List ℕ} (h : Represents value kept seen) (ids : List ℕ) :
    ∃ kept', (ids.map (holding value)).foldl insert (kept.map (holding value)) =
      kept'.map (holding value) ∧ Represents value kept' (seen ++ ids) := by
  induction ids generalizing kept seen with
  | nil => exact ⟨kept, rfl, by rwa [List.append_nil]⟩
  | cons i ids ih =>
    obtain ⟨kept', hkept', hrepresents⟩ := ih (h.insert i)
    refine ⟨kept', ?_, ?_⟩
    · rw [List.map_cons, List.foldl_cons, insert_map, hkept']
    · rwa [List.append_assoc] at hrepresents

/-- **A collection keeps as many items as there are classes.** -/
theorem length_distinct (value : ℕ → Value) (ids : List ℕ) :
    (distinct (ids.map (holding value))).length = classCount value ids := by
  obtain ⟨kept, hkept, hrepresents⟩ := foldl_represents (.nil value) ids
  have hdistinct : distinct (ids.map (holding value)) = kept.map (holding value) := hkept
  rw [hdistinct, List.length_map]
  exact hrepresents.length_eq

/-- The classes are a matter of which items there are. -/
theorem classCount_congr {ids ids' : List ℕ} (h : ∀ i, i ∈ ids' ↔ i ∈ ids) :
    classCount value ids' = classCount value ids := by
  unfold classCount
  congr 1
  ext c
  simp [h]

end Item

/-! ### Hashes -/

/-- How hashes are computed: those of numbers, strings and truth values from the
payload, those of blocks from the scope, those of functions and iterators from
the entry.  Numbers that are equal have one hash; that of the NaN may depend on
the identity of the item. -/
structure Hasher where
  void : ℕ
  number : ℕ → Float → ℕ
  string : String → ℕ
  boolean : Bool → ℕ
  block : ScopeId → ℕ
  function : ℕ → ℕ
  iterator : ℕ → ℕ
  number_eq : ∀ {i j x y}, (x == y) = true → number i x = number j y

namespace Hasher

variable (hasher : Hasher)

/-- The hash of an item, which goes by the kind of its value. -/
def hash (a : Item) : ℕ :=
  match a.value with
  | .void => hasher.void
  | .number x => hasher.number a.identity x
  | .string s => hasher.string s
  | .boolean b => hasher.boolean b
  | .block e => hasher.block e
  | .function i => hasher.function i
  | .iterator i => hasher.iterator i

/-- Adds an item unless it is there already, comparing it with those of its
hash only. -/
def insert (kept : List Item) (a : Item) : List Item :=
  if kept.any fun k => hasher.hash k == hasher.hash a && k.same a then kept else kept ++ [a]

/-- The items left when each is counted once. -/
def distinct (items : List Item) : List Item :=
  items.foldl hasher.insert []

variable {value : ℕ → Value} {i j : ℕ}

/-- **Equal values have one hash.** -/
theorem hash_eq_of_equals {a b : Item} (h : a.value.equals b.value = true) :
    hasher.hash a = hasher.hash b := by
  obtain ⟨i, v⟩ := a
  obtain ⟨j, w⟩ := b
  cases v <;> cases w
  case number.number x y => exact hasher.number_eq h
  all_goals simp [Value.equals] at h
  all_goals simp [hash, h]

theorem hash_eq_of_same (h : (Item.holding value i).same (.holding value j) = true) :
    hasher.hash (.holding value i) = hasher.hash (.holding value j) := by
  rcases Item.same_iff.1 h with rfl | hequals
  · rfl
  · exact hasher.hash_eq_of_equals hequals

/-- Putting in an item compares it with those of its hash, and it is the same as none of the
others. -/
theorem insert_eq (kept : List ℕ) (i : ℕ) :
    hasher.insert (kept.map (.holding value)) (.holding value i) =
      Item.insert (kept.map (.holding value)) (.holding value i) := by
  have htest (j : ℕ) : (hasher.hash (.holding value j) == hasher.hash (.holding value i) &&
      (Item.holding value j).same (.holding value i)) =
        (Item.holding value j).same (.holding value i) := by
    rw [Bool.and_eq_right_iff_imp, beq_iff_eq]
    exact hasher.hash_eq_of_same
  have hany : (kept.map (Item.holding value)).any (fun k =>
        hasher.hash k == hasher.hash (.holding value i) && k.same (.holding value i)) =
      (kept.map (Item.holding value)).any (·.same (.holding value i)) := by
    rw [List.any_map, List.any_map]
    exact congrArg kept.any (funext htest)
  rw [insert, hany, Item.insert]

/-- **Comparing within a hash only makes no difference.** -/
theorem distinct_eq (value : ℕ → Value) (ids : List ℕ) :
    hasher.distinct (ids.map (.holding value)) = Item.distinct (ids.map (.holding value)) := by
  suffices h : ∀ kept : List ℕ,
      (ids.map (Item.holding value)).foldl hasher.insert (kept.map (.holding value)) =
        (ids.map (Item.holding value)).foldl Item.insert (kept.map (.holding value)) from h []
  induction ids with
  | nil => exact fun _ => rfl
  | cons i ids ih =>
    intro kept
    rw [List.map_cons, List.foldl_cons, List.foldl_cons, insert_eq, Item.insert_map]
    exact ih _

end Hasher

/-- All numbers may share a hash, if the NaN is hashed by its identity. -/
instance : Inhabited Hasher where
  default :=
    { void := 0
      number := fun i x => if x.isNaN then i else 0
      string := String.length
      boolean := Bool.toNat
      block := id
      function := id
      iterator := id
      number_eq := fun {_ _ x y} h => by
        obtain ⟨p, hx, hy⟩ := float_beq_iff.1 h
        have hxnan : ¬ x.isNaN = true := by rw [← place?_eq_none_iff, hx]; simp
        have hynan : ¬ y.isNaN = true := by rw [← place?_eq_none_iff, hy]; simp
        rw [if_neg hxnan, if_neg hynan] }

/-! ### Collections count classes -/

/-- **Equality is an equivalence that collections can rely on.**  Equality is
symmetric and transitive, it holds within a kind only, and of every value with
itself but the NaN.  To be one and the same or equal is an equivalence, under
which the NaN is the same as itself alone, the two zeros are the same, and so are
blocks of one scope.  However hashes are computed, a collection has one item of
every class; neither the order in which items are put in nor repeating them
changes the number. -/
theorem collections_count_classes (value : ℕ → Value) (ids : List ℕ) :
    ((∀ a b : Value, a.equals b = b.equals a) ∧
      (∀ a b c : Value, a.equals b = true → b.equals c = true → a.equals c = true) ∧
      (∀ a b : Value, a.kind ≠ b.kind → a.equals b = false) ∧
      ∀ a : Value, a.equals a = true ↔ ¬ a.IsNaN) ∧
    (Equivalence (fun i j => (Item.holding value i).same (.holding value j) = true) ∧
      (∀ i j, (Item.holding value i).same (.holding value j) = true ↔
        i = j ∨ ∃ k, (value i).key? = some k ∧ (value j).key? = some k) ∧
      (∀ i j, (value i).IsNaN →
        ((Item.holding value i).same (.holding value j) = true ↔ i = j)) ∧
      (Value.number 0.0).equals (.number (-0.0)) = true) ∧
    ((∀ hasher : Hasher, (hasher.distinct (ids.map (.holding value))).length =
        Item.classCount value ids) ∧
      (Item.distinct (ids.map (.holding value))).length = Item.classCount value ids ∧
      (∀ ids' : List ℕ, ids'.Perm ids →
        (Item.distinct (ids'.map (.holding value))).length =
          (Item.distinct (ids.map (.holding value))).length) ∧
      ∀ repeated : List ℕ, repeated ⊆ ids →
        (Item.distinct ((ids ++ repeated).map (.holding value))).length =
          (Item.distinct (ids.map (.holding value))).length) := by
  refine ⟨⟨Value.equals_comm, fun _ _ _ => Value.equals_trans, fun a b hne => ?_,
    fun _ => Value.equals_self_iff⟩, ⟨Item.same_equivalence value, fun i j => ?_,
    fun i j hnan => ?_, ?_⟩, fun hasher => ?_, Item.length_distinct value ids, fun ids' hperm => ?_,
    fun repeated hsubset => ?_⟩
  · exact Bool.eq_false_iff.2 fun h => hne (Value.kind_eq_of_equals h)
  · rw [Item.same_iff, Value.equals_iff_key]
  · -- the NaN equals nothing, so only its identity is left
    rw [Item.same_iff, hnan.equals_left]
    simp
  · rfl
  · rw [hasher.distinct_eq, Item.length_distinct]
  · rw [Item.length_distinct, Item.length_distinct]
    exact Item.classCount_congr fun _ => hperm.mem_iff
  · rw [Item.length_distinct, Item.length_distinct]
    refine Item.classCount_congr fun i => ?_
    rw [List.mem_append]
    exact ⟨fun h => h.elim id fun hi => hsubset hi, .inl⟩

/-- Of a NaN, another NaN, the first again, two zeros, two blocks of one scope and
a void, five are left, from either end. -/
theorem collections_count_classes_of_eight :
    let nan := Value.number (Float.ofBits 0x7ff8000000000000)
    let value := fun i => [nan, nan, .number 0.0, .number (-0.0), .block 1, .block 1].getD i .void
    let ids := [0, 1, 0, 2, 3, 4, 5, 6]
    (value 0).IsNaN ∧ ((Item.holding value 0).same (.holding value 1) = true ↔ 0 = 1) ∧
      (Item.distinct (ids.map (.holding value))).length = 5 ∧ Item.classCount value ids = 5 ∧
      ((default : Hasher).distinct (ids.map (.holding value))).length = 5 ∧
      (Item.distinct (ids.reverse.map (.holding value))).length = 5 ∧
      (Item.distinct ((ids ++ [3, 1]).map (.holding value))).length = 5 := by
  intro nan value ids
  have hnan : (value 0).IsNaN := ⟨_, rfl, rfl⟩
  obtain ⟨-, ⟨-, -, halone, -⟩, hhashed, hcount, horder, hrepeated⟩ :=
    collections_count_classes value ids
  have hfive : (Item.distinct (ids.map (.holding value))).length = 5 := by decide
  refine ⟨hnan, halone 0 1 hnan, hfive, hcount.symm.trans hfive, ?_, ?_, ?_⟩
  · exact (hhashed default).trans (hcount.symm.trans hfive)
  · exact (horder _ ids.reverse_perm).trans hfive
  · exact (hrepeated [3, 1] (by decide)).trans hfive

end BlockScript
