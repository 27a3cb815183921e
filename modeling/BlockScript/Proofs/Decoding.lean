/-
BlockScript/Proofs/Decoding.lean

From the tree a parser delivers to the tree that is evaluated.

Only the texts change: bytes become characters.  A character is carried by one to
four bytes,

    0xxxxxxx
    110xxxxx 10xxxxxx
    1110xxxx 10xxxxxx 10xxxxxx
    11110xxx 10xxxxxx 10xxxxxx 10xxxxxx

and of the sequences that carry a number the shortest alone spells it; surrogates
and numbers beyond the last character are not spelled at all.  Bytes that are no
row of such spellings are no text, and a single node with such bytes, however deep
in the tree, makes the conversion fail.  Otherwise the two trees agree at every
position.
-/
import BlockScript.Proofs.Command
import Mathlib.Data.Option.Defs

namespace BlockScript

/-! ### Spellings of characters -/

namespace Utf8

/-- A byte that continues a sequence. -/
abbrev Continues (b : UInt8) : Prop :=
  b.toNat / 64 = 2

/-- The bytes have the form of a sequence, and the bits that the form leaves free are
those of the number. -/
inductive Carries : List UInt8 → ℕ → Prop
  | one {a : UInt8} {n : ℕ} : a.toNat / 128 = 0 → n = a.toNat → Carries [a] n
  | two {a b : UInt8} {n : ℕ} : a.toNat / 32 = 6 → Continues b →
      n = a.toNat % 32 * 64 + b.toNat % 64 → Carries [a, b] n
  | three {a b c : UInt8} {n : ℕ} : a.toNat / 16 = 14 → Continues b → Continues c →
      n = a.toNat % 16 * 4096 + b.toNat % 64 * 64 + c.toNat % 64 → Carries [a, b, c] n
  | four {a b c d : UInt8} {n : ℕ} : a.toNat / 8 = 30 → Continues b → Continues c → Continues d →
      n = a.toNat % 8 * 262144 + b.toNat % 64 * 4096 + c.toNat % 64 * 64 + d.toNat % 64 →
      Carries [a, b, c, d] n

/-- The bytes spell the number: it is that of a character, and no fewer bytes carry it. -/
structure Spells (bytes : List UInt8) (n : ℕ) : Prop where
  carries : Carries bytes n
  shortest : ∀ bytes', Carries bytes' n → bytes.length ≤ bytes'.length
  scalar : n < 0xd800 ∨ 0xdfff < n ∧ n ≤ 0x10ffff

/-- The bytes spell the numbers one after the other. -/
inductive SpellsAll : List UInt8 → List ℕ → Prop
  | nil : SpellsAll [] []
  | cons {bytes rest : List UInt8} {n : ℕ} {ns : List ℕ} : Spells bytes n → SpellsAll rest ns →
      SpellsAll (bytes ++ rest) (n :: ns)

/-- The bytes are those of a text. -/
def WellFormed (bytes : ByteArray) : Prop :=
  ∃ ns, SpellsAll bytes.data.toList ns

theorem toNat_byte {n : ℕ} (h : n < 256) : (UInt8.ofNat n).toNat = n :=
  UInt8.toNat_ofNat_of_lt' h

theorem toNat_continuation (n : ℕ) : (UInt8.ofNat (n % 64 + 128)).toNat = n % 64 + 128 :=
  toNat_byte (by omega)

theorem continues_ofNat (n : ℕ) : Continues (.ofNat (n % 64 + 128)) := by
  rw [Continues, toNat_continuation]
  omega

/-- Up to seven bits fit into one byte. -/
theorem carries_one {n : ℕ} (h : n < 0x80) : Carries [.ofNat n] n := by
  have ha : (UInt8.ofNat n).toNat = n := toNat_byte (by omega)
  exact .one (by omega) ha.symm

/-- Up to eleven bits fit into two bytes. -/
theorem carries_two {n : ℕ} (h : n < 0x800) :
    Carries [.ofNat (n / 64 % 32 + 192), .ofNat (n % 64 + 128)] n := by
  have ha : (UInt8.ofNat (n / 64 % 32 + 192)).toNat = n / 64 % 32 + 192 := toNat_byte (by omega)
  have hb := toNat_continuation n
  exact .two (by omega) (continues_ofNat n) (by omega)

/-- Up to sixteen bits fit into three bytes. -/
theorem carries_three {n : ℕ} (h : n < 0x10000) :
    Carries
      [.ofNat (n / 4096 % 16 + 224), .ofNat (n / 64 % 64 + 128), .ofNat (n % 64 + 128)] n := by
  have ha : (UInt8.ofNat (n / 4096 % 16 + 224)).toNat = n / 4096 % 16 + 224 :=
    toNat_byte (by omega)
  have hb := toNat_continuation (n / 64)
  have hc := toNat_continuation n
  exact .three (by omega) (continues_ofNat (n / 64)) (continues_ofNat n) (by omega)

/-- Up to twenty-one bits fit into four bytes. -/
theorem carries_four {n : ℕ} (h : n < 0x200000) :
    Carries [.ofNat (n / 262144 % 8 + 240), .ofNat (n / 4096 % 64 + 128),
      .ofNat (n / 64 % 64 + 128), .ofNat (n % 64 + 128)] n := by
  have ha : (UInt8.ofNat (n / 262144 % 8 + 240)).toNat = n / 262144 % 8 + 240 :=
    toNat_byte (by omega)
  have hb := toNat_continuation (n / 4096)
  have hc := toNat_continuation (n / 64)
  have hd := toNat_continuation n
  exact .four (by omega) (continues_ofNat (n / 4096)) (continues_ofNat (n / 64))
    (continues_ofNat n) (by omega)

/-- Few bytes carry small numbers only. -/
theorem Carries.bounds {bytes : List UInt8} {n : ℕ} (h : Carries bytes n) :
    0 < bytes.length ∧ (bytes.length < 2 → n < 0x80) ∧ (bytes.length < 3 → n < 0x800) ∧
      (bytes.length < 4 → n < 0x10000) := by
  cases h <;> simp only [List.length_cons, List.length_nil] <;> omega

/-- A number is carried by as many bytes in one way only. -/
theorem Carries.unique {bytes bytes' : List UInt8} {n : ℕ} (h : Carries bytes n)
    (h' : Carries bytes' n) (hlength : bytes.length = bytes'.length) : bytes = bytes' := by
  -- all bits of the bytes are fixed by the form or by the number
  cases h with
  | one ha hn =>
    cases h' with
    | one ha' hn' =>
      simp only [List.cons.injEq, and_true, ← UInt8.toNat_inj]
      omega
    | _ => simp at hlength
  | two ha hb hn =>
    cases h' with
    | two ha' hb' hn' =>
      simp only [List.cons.injEq, and_true, ← UInt8.toNat_inj]
      omega
    | _ => simp at hlength
  | three ha hb hc hn =>
    cases h' with
    | three ha' hb' hc' hn' =>
      simp only [List.cons.injEq, and_true, ← UInt8.toNat_inj]
      omega
    | _ => simp at hlength
  | four ha hb hc hd hn =>
    cases h' with
    | four ha' hb' hc' hd' hn' =>
      simp only [List.cons.injEq, and_true, ← UInt8.toNat_inj]
      omega
    | _ => simp at hlength

/-- The bytes of a character, by how many it takes. -/
theorem encode_cases (c : Char) :
    (c.toNat < 0x80 ∧ String.utf8EncodeChar c = [.ofNat c.toNat]) ∨
    (0x80 ≤ c.toNat ∧ c.toNat < 0x800 ∧ String.utf8EncodeChar c =
      [.ofNat (c.toNat / 64 % 32 + 192), .ofNat (c.toNat % 64 + 128)]) ∨
    (0x800 ≤ c.toNat ∧ c.toNat < 0x10000 ∧ String.utf8EncodeChar c =
      [.ofNat (c.toNat / 4096 % 16 + 224), .ofNat (c.toNat / 64 % 64 + 128),
        .ofNat (c.toNat % 64 + 128)]) ∨
    (0x10000 ≤ c.toNat ∧ String.utf8EncodeChar c =
      [.ofNat (c.toNat / 262144 % 8 + 240), .ofNat (c.toNat / 4096 % 64 + 128),
        .ofNat (c.toNat / 64 % 64 + 128), .ofNat (c.toNat % 64 + 128)]) := by
  have hencode : String.utf8EncodeChar c =
      if c.toNat ≤ 127 then [.ofNat c.toNat]
      else if c.toNat ≤ 2047 then [.ofNat (c.toNat / 64 % 32 + 192), .ofNat (c.toNat % 64 + 128)]
      else if c.toNat ≤ 65535 then
        [.ofNat (c.toNat / 4096 % 16 + 224), .ofNat (c.toNat / 64 % 64 + 128),
          .ofNat (c.toNat % 64 + 128)]
      else
        [.ofNat (c.toNat / 262144 % 8 + 240), .ofNat (c.toNat / 4096 % 64 + 128),
          .ofNat (c.toNat / 64 % 64 + 128), .ofNat (c.toNat % 64 + 128)] := rfl
  rw [hencode]
  by_cases hone : c.toNat ≤ 127
  · exact .inl ⟨by omega, if_pos hone⟩
  rw [if_neg hone]
  by_cases htwo : c.toNat ≤ 2047
  · exact .inr (.inl ⟨by omega, by omega, if_pos htwo⟩)
  rw [if_neg htwo]
  by_cases hthree : c.toNat ≤ 65535
  · exact .inr (.inr (.inl ⟨by omega, by omega, if_pos hthree⟩))
  · exact .inr (.inr (.inr ⟨by omega, if_neg hthree⟩))

theorem carries_encode (c : Char) : Carries (String.utf8EncodeChar c) c.toNat := by
  have hvalid : c.toNat < 0xd800 ∨ 0xdfff < c.toNat ∧ c.toNat < 0x110000 := c.valid
  -- the last character needs twenty-one bits
  rcases encode_cases c with ⟨hlt, h⟩ | ⟨-, hlt, h⟩ | ⟨-, hlt, h⟩ | ⟨-, h⟩ <;> rw [h]
  · exact carries_one hlt
  · exact carries_two hlt
  · exact carries_three hlt
  · exact carries_four (by omega)

/-- The bytes of a character spell it. -/
theorem spells_encode (c : Char) : Spells (String.utf8EncodeChar c) c.toNat where
  carries := carries_encode c
  shortest bytes' h := by
    -- in fewer bytes the number would be too small for the form it has
    obtain ⟨hpos, hone, htwo, hthree⟩ := h.bounds
    rcases encode_cases c with ⟨-, h⟩ | ⟨hle, -, h⟩ | ⟨hle, -, h⟩ | ⟨hle, h⟩ <;> rw [h] <;>
      simp only [List.length_cons, List.length_nil] <;> omega
  scalar := by
    have hvalid : c.toNat < 0xd800 ∨ 0xdfff < c.toNat ∧ c.toNat < 0x110000 := c.valid
    omega

/-- Every number that is spelled is that of a character, and spelled as this is. -/
theorem Spells.exists_char {bytes : List UInt8} {n : ℕ} (h : Spells bytes n) :
    ∃ c : Char, c.toNat = n ∧ String.utf8EncodeChar c = bytes := by
  have hvalid : n.isValidChar := by
    have hscalar := h.scalar
    unfold Nat.isValidChar
    omega
  have hc : (Char.ofNatAux n hvalid).toNat = n := rfl
  have hencode := spells_encode (Char.ofNatAux n hvalid)
  rw [hc] at hencode
  -- either spelling is no longer than the other
  refine ⟨_, hc, hencode.carries.unique h.carries ?_⟩
  exact le_antisymm (hencode.shortest _ h.carries) (h.shortest _ hencode.carries)

/-- What is spelled is a row of characters, each with its own bytes. -/
theorem spellsAll_iff {bytes : List UInt8} {ns : List ℕ} :
    SpellsAll bytes ns ↔
      ∃ cs : List Char, cs.map Char.toNat = ns ∧ cs.flatMap String.utf8EncodeChar = bytes := by
  constructor
  · intro h
    induction h with
    | nil => exact ⟨[], rfl, rfl⟩
    | cons hspells _ ih =>
      obtain ⟨c, hc, hbytes⟩ := hspells.exists_char
      obtain ⟨cs, hcs, hrest⟩ := ih
      exact ⟨c :: cs, by rw [List.map_cons, hc, hcs], by rw [List.flatMap_cons, hbytes, hrest]⟩
  · rintro ⟨cs, rfl, rfl⟩
    induction cs with
    | nil => exact .nil
    | cons c cs ih => exact .cons (spells_encode c) ih

/-- The bytes of a text spell its characters. -/
theorem spellsAll_toUTF8 (s : String) :
    SpellsAll s.toUTF8.data.toList (s.toList.map Char.toNat) := by
  refine spellsAll_iff.2 ⟨s.toList, rfl, ?_⟩
  show _ = s.toByteArray.data.toList
  rw [← String.utf8Encode_toList, List.utf8Encode, List.data_toByteArray]

/-- The bytes of a text are those that the decoder accepts. -/
theorem wellFormed_iff {bytes : ByteArray} : WellFormed bytes ↔ bytes.IsValidUTF8 := by
  constructor
  · rintro ⟨ns, hns⟩
    obtain ⟨cs, -, hcs⟩ := spellsAll_iff.1 hns
    refine ⟨cs, ByteArray.ext ?_⟩
    rw [List.utf8Encode, List.data_toByteArray, hcs]
  · exact fun h => ⟨_, spellsAll_toUTF8 (.fromUTF8 bytes h)⟩

end Utf8

/-! ### The text of a node -/

/-- The text is the one that a node with these bytes has. -/
def IsTextOf (s : String) : Option ByteArray → Prop
  | none => s = ""
  | some bytes => Utf8.SpellsAll bytes.data.toList (s.toList.map Char.toNat) ∧ s.toUTF8 = bytes

namespace ParsedNode

theorem isTextOf_of_text? {bytes : Option ByteArray} {s : String} (h : text? bytes = some s) :
    IsTextOf s bytes := by
  cases bytes with
  | none => exact (Option.some.inj h).symm
  | some bytes =>
    rw [text?, String.fromUTF8?, Option.dite_none_right_eq_some] at h
    obtain ⟨hvalid, heq⟩ := h
    cases heq
    exact ⟨Utf8.spellsAll_toUTF8 (.fromUTF8 bytes hvalid), rfl⟩

/-- Only bytes can fail to be a text; without bytes the text is empty. -/
theorem text?_eq_none_iff {bytes : Option ByteArray} :
    text? bytes = none ↔ ∃ bs, bytes = some bs ∧ ¬ Utf8.WellFormed bs := by
  cases bytes with
  | none => simp [text?]
  | some bytes =>
    rw [text?, String.fromUTF8?, dite_eq_right_iff]
    simp [Utf8.wellFormed_iff]

/-! ### Positions -/

/-- The node at a position, which is given by the way down from the root. -/
def at? : ParsedNode → List ℕ → Option ParsedNode
  | p, [] => some p
  | p, i :: path => p.children[i]?.bind fun k => k.at? path

end ParsedNode

namespace Node

/-- The node at a position, which is given by the way down from the root. -/
def at? : Node → List ℕ → Option Node
  | n, [] => some n
  | n, i :: path => n.children[i]?.bind fun k => k.at? path

mutual

/-- Every node has a position. -/
theorem mem_nodes_iff : ∀ (n : Node) {k : Node}, k ∈ n.nodes ↔ ∃ path, n.at? path = some k
  | ⟨kind, text, children, named, missing⟩, k => by
    rw [nodes, List.mem_cons, mem_nodesAll_iff children]
    constructor
    · rintro (rfl | ⟨i, path, h⟩)
      · exact ⟨[], rfl⟩
      · exact ⟨i :: path, h⟩
    · rintro ⟨path, h⟩
      cases path with
      | nil => exact .inl (Option.some.inj h).symm
      | cons i path => exact .inr ⟨i, path, h⟩

theorem mem_nodesAll_iff : ∀ (ns : List Node) {k : Node},
    k ∈ nodesAll ns ↔ ∃ (i : ℕ) (path : List ℕ), (ns[i]?.bind fun n => n.at? path) = some k
  | [], k => by simp [nodesAll]
  | n :: ns, k => by
    rw [nodesAll, List.mem_append, mem_nodes_iff n, mem_nodesAll_iff ns]
    constructor
    · rintro (⟨path, h⟩ | ⟨i, path, h⟩)
      · exact ⟨0, path, h⟩
      · exact ⟨i + 1, path, h⟩
    · rintro ⟨i, path, h⟩
      cases i with
      | zero => exact .inl ⟨path, h⟩
      | succ i => exact .inr ⟨i, path, h⟩

end

end Node

namespace ParsedNode

/-! ### Conversion -/

theorem toNode?_eq_some {kind : String} {bytes : Option ByteArray} {children : List ParsedNode}
    {named missing : Bool} {n : Node}
    (h : toNode? ⟨kind, bytes, children, named, missing⟩ = some n) :
    ∃ text nodes, text? bytes = some text ∧ toNodes? children = some nodes ∧
      n = ⟨kind, text, nodes, named, missing⟩ := by
  rw [toNode?] at h
  obtain ⟨text, htext, h⟩ := Option.bind_eq_some_iff.1 h
  obtain ⟨nodes, hnodes, h⟩ := Option.bind_eq_some_iff.1 h
  exact ⟨text, nodes, htext, hnodes, (Option.some.inj h).symm⟩

theorem toNodes?_cons_eq_some {p : ParsedNode} {ps : List ParsedNode} {ns : List Node}
    (h : toNodes? (p :: ps) = some ns) :
    ∃ n ns', p.toNode? = some n ∧ toNodes? ps = some ns' ∧ ns = n :: ns' := by
  rw [toNodes?] at h
  obtain ⟨n, hn, h⟩ := Option.bind_eq_some_iff.1 h
  obtain ⟨ns', hns', h⟩ := Option.bind_eq_some_iff.1 h
  exact ⟨n, ns', hn, hns', (Option.some.inj h).symm⟩

/-- The nodes agree in all but their children. -/
structure Agrees (p : ParsedNode) (n : Node) : Prop where
  kind : n.kind = p.kind
  named : n.named = p.named
  missing : n.missing = p.missing
  text : IsTextOf n.text p.bytes

mutual

/-- The trees agree wherever one of them has a node. -/
theorem agrees_of_toNode? : ∀ (p : ParsedNode) {n : Node}, p.toNode? = some n →
    ∀ path, Option.Rel Agrees (p.at? path) (n.at? path)
  | ⟨kind, bytes, children, named, missing⟩, n, h, path => by
    obtain ⟨text, nodes, htext, hnodes, rfl⟩ := toNode?_eq_some h
    cases path with
    | nil => exact .some ⟨rfl, rfl, rfl, isTextOf_of_text? htext⟩
    | cons i path => exact agrees_of_toNodes? children hnodes i path

theorem agrees_of_toNodes? : ∀ (ps : List ParsedNode) {ns : List Node}, toNodes? ps = some ns →
    ∀ (i : ℕ) (path : List ℕ), Option.Rel Agrees (ps[i]?.bind fun p => p.at? path)
      (ns[i]?.bind fun n => n.at? path)
  | [], ns, h, i, path => by
    cases h
    exact .none
  | p :: ps, ns, h, i, path => by
    obtain ⟨n, ns', hn, hns', rfl⟩ := toNodes?_cons_eq_some h
    cases i with
    | zero => exact agrees_of_toNode? p hn path
    | succ i => exact agrees_of_toNodes? ps hns' i path

end

mutual

/-- If the conversion fails, some node has no text. -/
theorem exists_of_toNode?_eq_none : ∀ p : ParsedNode, p.toNode? = none →
    ∃ path k, p.at? path = some k ∧ text? k.bytes = none
  | ⟨kind, bytes, children, named, missing⟩, h => by
    cases htext : text? bytes with
    | none => exact ⟨[], _, rfl, htext⟩
    | some text =>
      cases hnodes : toNodes? children with
      | none =>
        obtain ⟨i, path, k, hk, hnone⟩ := exists_of_toNodes?_eq_none children hnodes
        exact ⟨i :: path, k, hk, hnone⟩
      | some nodes =>
        rw [toNode?, htext, hnodes] at h
        cases h

theorem exists_of_toNodes?_eq_none : ∀ ps : List ParsedNode, toNodes? ps = none →
    ∃ (i : ℕ) (path : List ℕ) (k : ParsedNode),
      (ps[i]?.bind fun p => p.at? path) = some k ∧ text? k.bytes = none
  | [], h => by cases h
  | p :: ps, h => by
    cases hn : p.toNode? with
    | none =>
      obtain ⟨path, k, hk, hnone⟩ := exists_of_toNode?_eq_none p hn
      exact ⟨0, path, k, hk, hnone⟩
    | some n =>
      cases hns : toNodes? ps with
      | none =>
        obtain ⟨i, path, k, hk, hnone⟩ := exists_of_toNodes?_eq_none ps hns
        exact ⟨i + 1, path, k, hk, hnone⟩
      | some ns =>
        rw [toNodes?, hn, hns] at h
        cases h

end

section Converted

variable {p : ParsedNode} {n : Node} (h : p.toNode? = some n) {path : List ℕ}
include h

theorem exists_node_at {k : ParsedNode} (hk : p.at? path = some k) :
    ∃ k', n.at? path = some k' ∧ Agrees k k' := by
  -- the node at the position is made a variable, as it is an index of the relation
  have hrel := agrees_of_toNode? p h path
  rw [hk] at hrel
  generalize n.at? path = o at hrel
  cases hrel with
  | some hagrees => exact ⟨_, rfl, hagrees⟩

theorem exists_parsed_at {k' : Node} (hk' : n.at? path = some k') :
    ∃ k, p.at? path = some k ∧ Agrees k k' := by
  have hrel := agrees_of_toNode? p h path
  rw [hk'] at hrel
  generalize p.at? path = o at hrel
  cases hrel with
  | some hagrees => exact ⟨_, rfl, hagrees⟩

/-- An error at any position is one in the converted tree. -/
theorem hasError_of_toNode? : n.hasError = true ↔
    ∃ path k, p.at? path = some k ∧ (k.kind = "ERROR" ∨ k.missing = true) := by
  -- whether a node is faulty is seen from what the trees agree in
  have hfaulty : ∀ {k : ParsedNode} {k' : Node}, Agrees k k' →
      (k'.isFaulty = true ↔ k.kind = "ERROR" ∨ k.missing = true) := by
    intro k k' hagrees
    rw [Node.isFaulty, hagrees.kind, hagrees.missing, Bool.or_eq_true, beq_iff_eq]
  rw [Node.hasError_eq_any, List.any_eq_true]
  constructor
  · rintro ⟨k', hk', herror⟩
    obtain ⟨path, hpath⟩ := n.mem_nodes_iff.1 hk'
    obtain ⟨k, hk, hagrees⟩ := exists_parsed_at h hpath
    exact ⟨path, k, hk, (hfaulty hagrees).1 herror⟩
  · rintro ⟨path, k, hk, herror⟩
    obtain ⟨k', hk', hagrees⟩ := exists_node_at h hk
    exact ⟨k', n.mem_nodes_iff.2 ⟨path, hk'⟩, (hfaulty hagrees).2 herror⟩

end Converted

/-- Some node of the tree has bytes that are no text. -/
def IllFormed (p : ParsedNode) : Prop :=
  ∃ path k bytes, p.at? path = some k ∧ k.bytes = some bytes ∧ ¬ Utf8.WellFormed bytes

/-- The conversion fails just if some node has no text. -/
theorem toNode?_eq_none_iff (p : ParsedNode) : p.toNode? = none ↔ p.IllFormed := by
  constructor
  · intro h
    obtain ⟨path, k, hk, hnone⟩ := exists_of_toNode?_eq_none p h
    obtain ⟨bytes, hbytes, hill⟩ := text?_eq_none_iff.1 hnone
    exact ⟨path, k, bytes, hk, hbytes, hill⟩
  · rintro ⟨path, k, bytes, hk, hbytes, hill⟩
    cases h : p.toNode? with
    | none => rfl
    | some n =>
      -- the node at that position would have a text
      obtain ⟨k', -, hagrees⟩ := exists_node_at h hk
      have htext := hagrees.text
      rw [hbytes] at htext
      exact absurd ⟨_, htext.1⟩ hill

end ParsedNode

/-- What is parsed with a grammar that loads is converted. -/
theorem Reader.parseSource_of_load {host : Host} {name source : String} {r r' : Reader} {i : ℕ}
    (hload : load host name r = .ok i r') :
    parseSource host name source r = match (host.parse name source).toNode? with
      | some tree => .ok tree { r' with sources := r'.sources.push source }
      | none => .error .undecodable { r' with sources := r'.sources.push source } := by
  refine (bind_of_ok (discard_of_ok hload)).trans ?_
  rcases (host.parse name source).toNode? with - | tree <;> rfl

/-- **The conversion of a parsed tree is faithful and fails on ill-formed text only.**  A
tree is converted unless some node at any depth has bytes that are no text, and then
parsing it stops for that cause.  A converted tree has the same nodes at the same
positions, with the same kinds and flags; its texts are those that the bytes spell, and
their bytes are the ones of the parsed tree.  It holds an error if the parsed tree does. -/
theorem conversion_faithful (p : ParsedNode) :
    (p.toNode? = none ↔ p.IllFormed) ∧
    (∀ n, p.toNode? = some n →
      (∀ path, Option.Rel ParsedNode.Agrees (p.at? path) (n.at? path)) ∧
      (n.hasError = true ↔
        ∃ path k, p.at? path = some k ∧ (k.kind = "ERROR" ∨ k.missing = true))) ∧
    ∀ (host : Host) (name source : String) (r r' : Reader) (i : ℕ),
      host.parse name source = p → Reader.load host name r = .ok i r' →
      ∃ r'', (p.IllFormed → Reader.parseSource host name source r = .error .undecodable r'') ∧
        ∀ n, p.toNode? = some n → Reader.parseSource host name source r = .ok n r'' := by
  refine ⟨p.toNode?_eq_none_iff, fun n hn => ⟨p.agrees_of_toNode? hn, p.hasError_of_toNode? hn⟩, ?_⟩
  rintro host name source r r' i rfl hload
  refine ⟨{ r' with sources := r'.sources.push source }, fun hill => ?_, fun n hn => ?_⟩
  · rw [Reader.parseSource_of_load hload, (ParsedNode.toNode?_eq_none_iff _).2 hill]
  · rw [Reader.parseSource_of_load hload, hn]

/-- The three bytes of a surrogate are no text. -/
theorem Utf8.not_wellFormed_surrogate : ¬ WellFormed ⟨#[0xed, 0xa0, 0x80]⟩ := by
  rintro ⟨ns, h⟩
  generalize hbytes : (ByteArray.mk #[0xed, 0xa0, 0x80]).data.toList = bytes at h
  cases h with
  | nil => cases hbytes
  | cons hspells _ =>
    have hscalar := hspells.scalar
    cases hspells.carries with
    | one ha =>
      cases hbytes
      exact absurd ha (by decide)
    | two ha =>
      cases hbytes
      exact absurd ha (by decide)
    | three _ _ _ hn =>
      -- the form is right, and the number is not one of a character
      cases hbytes
      rw [hn] at hscalar
      exact absurd hscalar (by decide)
    | four => cases hbytes

/-- An accented letter below an anonymous error node is converted; a surrogate in its
place is not. -/
theorem conversion_faithful_below_error :
    let tree (bytes : ByteArray) : ParsedNode := { kind := "block", children :=
      [{ kind := "ERROR", named := false,
         children := [{ kind := "string", bytes := some bytes }] }] }
    (∃ n, (tree "é".toUTF8).toNode? = some n ∧ n.hasError = true ∧
      Option.Rel ParsedNode.Agrees ((tree "é".toUTF8).at? [0, 0]) (n.at? [0, 0])) ∧
      (tree ⟨#[0xed, 0xa0, 0x80]⟩).toNode? = none := by
  intro tree
  have hconverted : ∃ n, (tree "é".toUTF8).toNode? = some n := ⟨_, rfl⟩
  obtain ⟨n, hn⟩ := hconverted
  obtain ⟨hagrees, herror⟩ := (conversion_faithful (tree "é".toUTF8)).2.1 n hn
  refine ⟨⟨n, hn, herror.2 ⟨[0], _, rfl, .inl rfl⟩, hagrees [0, 0]⟩, ?_⟩
  exact (conversion_faithful _).1.2 ⟨[0, 0], _, _, rfl, rfl, Utf8.not_wellFormed_surrogate⟩

end BlockScript
