import Naome.VariableNumbering
import Naome.ByteCursor

/-!
# Canonical formula bytes

One codec for both formula languages: primitive formulas and formulas that apply
definitions. Nodes are written in prefix order, one tag byte each; a variable is a tag
and four big-endian bytes. Encoder and decoder charge every node to a budget and bound
the nesting depth.
-/
namespace Naome
open LocallyNameless Outcome ByteCursor FirstOccurrence

/-- A 32-byte content address. -/
abbrev Digest := BitVec 256

instance lawfulBEqDigest : LawfulBEq Digest := inferInstance

def digestBytes (d : Digest) : List UInt8 := bigEndian 32 d.toNat

def readDigest {ε : Type} (e : ε) (bytes : List UInt8) : Except ε (Digest × List UInt8) := do
  let (value, bytes) ← readBigEndian e 32 bytes
  return (BitVec.ofNat 256 value, bytes)

@[simp] theorem length_digestBytes (d : Digest) : (digestBytes d).length = 32 :=
  length_bigEndian 32 _

theorem readDigest_eq_ok {ε : Type} {e : ε} {bytes rest : List UInt8} {d : Digest} :
    readDigest e bytes = .ok (d, rest) ↔ bytes = digestBytes d ++ rest := by
  have hpow : (256 : ℕ) ^ 32 = 2 ^ 256 := by norm_num
  unfold readDigest digestBytes
  simp only [bind_eq_ok, Prod.exists, readBigEndian_eq_ok, pure_eq_ok, Prod.mk.injEq, hpow]
  constructor
  · rintro ⟨value, tail, ⟨hv, hbytes⟩, hd, htail⟩
    rw [hbytes, htail, ← hd, BitVec.toNat_ofNat, Nat.mod_eq_of_lt hv]
  · intro h
    exact ⟨d.toNat, rest, ⟨d.isLt, h⟩, by rw [BitVec.ofNat_toNat, BitVec.setWidth_eq], rfl⟩

theorem digestBytes_injective : Function.Injective digestBytes := by
  intro d d' h
  have h₁ : readDigest () (digestBytes d ++ []) = .ok (d, []) := readDigest_eq_ok.2 rfl
  have h₂ : readDigest () (digestBytes d' ++ []) = .ok (d', []) := readDigest_eq_ok.2 rfl
  rw [h, h₂] at h₁
  cases h₁
  rfl

-- Unification must not unfold the 32 digits.
attribute [irreducible] digestBytes

abbrev DefinitionId := Digest

def formulaMaxBytes : ℕ := 393216

def formulaMaxDepth : ℕ := 256

def formulaMaxNodes : ℕ := 65536

inductive FormulaCodecError
  | inputTooLong (actual maximum : ℕ)
  | nodeLimitExceeded (maximum : ℕ)
  | depthLimitExceeded (maximum : ℕ)
  | tooManyDefinitionArguments (actual : ℕ)
  | unexpandedDefinition (definitionId : DefinitionId)
  | unexpectedEnd
  | unknownFormulaTag (tag : UInt8)
  | unknownVariableTag (tag : UInt8)
  | danglingBoundVariable (index binderDepth : ℕ)
  | trailingBytes (remaining : ℕ)
  deriving DecidableEq, Repr

/-- Nodes charged so far. The use never exceeds the maximum. -/
@[ext]
structure NodeBudget where
  used : ℕ
  maximum : ℕ
  used_le : used ≤ maximum

namespace NodeBudget

def new (maximum : ℕ) : NodeBudget := ⟨0, min maximum formulaMaxNodes, Nat.zero_le _⟩

def charge (b : NodeBudget) : Except FormulaCodecError NodeBudget :=
  if h : b.used = b.maximum then .error (.nodeLimitExceeded b.maximum)
  else .ok ⟨b.used + 1, b.maximum, Nat.lt_of_le_of_ne b.used_le h⟩

/-- The budget after `k` further nodes. -/
def Spent (b b' : NodeBudget) (k : ℕ) : Prop := b'.maximum = b.maximum ∧ b'.used = b.used + k

theorem charge_eq_ok {b b' : NodeBudget} : b.charge = .ok b' ↔ b.Spent b' 1 := by
  obtain ⟨used, maximum, hle⟩ := b
  obtain ⟨used', maximum', hle'⟩ := b'
  unfold charge Spent
  dsimp only
  split_ifs with h
  · simp only [false_iff]
    omega
  · simp only [Except.ok.injEq, mk.injEq]
    omega

theorem Spent.trans {b b' b'' : NodeBudget} {k l : ℕ} (h : b.Spent b' k) (h' : b'.Spent b'' l) :
    b.Spent b'' (k + l) :=
  ⟨h'.1.trans h.1, by rw [h'.2, h.2, Nat.add_assoc]⟩

/-- A node is charged before its subtrees. -/
theorem Spent.node {b b' b'' : NodeBudget} {k : ℕ} (h : b.Spent b' 1) (h' : b'.Spent b'' k) :
    b.Spent b'' (k + 1) :=
  Nat.add_comm 1 k ▸ h.trans h'

/-- A budget with room for `k` nodes can be spent on the first `l` of them. -/
theorem exists_spent {b b' : NodeBudget} {k l : ℕ} (h : b.Spent b' k) (hl : l ≤ k) :
    ∃ m : NodeBudget, b.Spent m l ∧ m.Spent b' (k - l) := by
  obtain ⟨hm, hu⟩ := h
  have := b'.used_le
  refine ⟨⟨b.used + l, b.maximum, by omega⟩, ⟨rfl, rfl⟩, hm, ?_⟩
  simp only
  omega

end NodeBudget

/-- Where the primitive and the definition-aware format differ. -/
structure NodeFormat (D : Type) where
  identifier : D → Digest
  ofIdentifier : Option (Digest → D)
  allowDefinitions : Bool
  maximumDepth : ℕ
  byteLimit : Option ℕ

variable {D : Type}

namespace NodeFormat

/-- Reading an identifier back gives the symbol it was written for. -/
def Lawful (fmt : NodeFormat D) : Prop :=
  ∀ f, fmt.ofIdentifier = some f → (∀ d, fmt.identifier (f d) = d) ∧ ∀ s, f (fmt.identifier s) = s

/-- The symbols and argument counts of the tree can be written. -/
def Writes (fmt : NodeFormat D) : Node FreeVariable D → Prop
  | .equal _ _ => True
  | .member _ _ => True
  | .not n => fmt.Writes n
  | .implies a b => fmt.Writes a ∧ fmt.Writes b
  | .forAll n => fmt.Writes n
  | .definedRelation _ xs => fmt.allowDefinitions = true ∧ xs.length < 2 ^ 32

/-- The symbols and argument counts of the tree can be read. -/
def Reads (fmt : NodeFormat D) : Node FreeVariable D → Prop
  | .equal _ _ => True
  | .member _ _ => True
  | .not n => fmt.Reads n
  | .implies a b => fmt.Reads a ∧ fmt.Reads b
  | .forAll n => fmt.Reads n
  | .definedRelation _ xs => fmt.ofIdentifier.isSome = true ∧ xs.length < 2 ^ 32

end NodeFormat

namespace FormulaCodec

def variableBytes : Variable FreeVariable → List UInt8
  | .free v => 0x00 :: u32Bytes v.identifier.toNat
  | .bound i => 0x01 :: u32Bytes i

/-- The bytes of a tree without any limits. -/
def nodeBytes (fmt : NodeFormat D) : Node FreeVariable D → List UInt8
  | .equal l r => 0x00 :: (variableBytes l ++ variableBytes r)
  | .member l r => 0x01 :: (variableBytes l ++ variableBytes r)
  | .not n => 0x02 :: nodeBytes fmt n
  | .implies a b => 0x03 :: (nodeBytes fmt a ++ nodeBytes fmt b)
  | .forAll n => 0x04 :: nodeBytes fmt n
  | .definedRelation s xs =>
    0x05 :: (digestBytes (fmt.identifier s) ++ u32Bytes xs.length ++
      xs.flatMap variableBytes)

/-- What the encoder carries from node to node. -/
@[ext]
structure Encoder where
  nodes : NodeBudget
  encoding : FreeVariableEncoding
  output : List UInt8

def Encoder.push (s : Encoder) (bytes : List UInt8) : Encoder :=
  { s with output := s.output ++ bytes }

def encodeVariable (x : Variable FreeVariable) (s : Encoder) : Encoder :=
  match x with
  | .free v =>
    let (w, encoding) := s.encoding.identifier v
    { s with encoding, output := s.output ++ 0x00 :: u32Bytes w.identifier.toNat }
  | .bound i => s.push (0x01 :: u32Bytes i)

/-- Depth check and charge at the entry of a node. -/
def enterNode (maximumDepth depth : ℕ) (nodes : NodeBudget) :
    Except FormulaCodecError NodeBudget := do
  require (depth < maximumDepth) (.depthLimitExceeded maximumDepth)
  nodes.charge

/-- The length check of the definition-aware encoder at the exit of a node. -/
def leaveNode (fmt : NodeFormat D) (s : Encoder) : Except FormulaCodecError Encoder :=
  match fmt.byteLimit with
  | none => .ok s
  | some maximum =>
    if s.output.length > maximum then .error (.inputTooLong s.output.length maximum) else .ok s

def encodeNode (fmt : NodeFormat D) :
    ℕ → Node FreeVariable D → Encoder → Except FormulaCodecError Encoder
  | depth, .equal l r, s => do
    let nodes ← enterNode fmt.maximumDepth depth s.nodes
    leaveNode fmt (encodeVariable r (encodeVariable l ({ s with nodes }.push [0x00])))
  | depth, .member l r, s => do
    let nodes ← enterNode fmt.maximumDepth depth s.nodes
    leaveNode fmt (encodeVariable r (encodeVariable l ({ s with nodes }.push [0x01])))
  | depth, .not n, s => do
    let nodes ← enterNode fmt.maximumDepth depth s.nodes
    let s ← encodeNode fmt (depth + 1) n ({ s with nodes }.push [0x02])
    leaveNode fmt s
  | depth, .implies a b, s => do
    let nodes ← enterNode fmt.maximumDepth depth s.nodes
    let s ← encodeNode fmt (depth + 1) a ({ s with nodes }.push [0x03])
    let s ← encodeNode fmt (depth + 1) b s
    leaveNode fmt s
  | depth, .forAll n, s => do
    let nodes ← enterNode fmt.maximumDepth depth s.nodes
    let s ← encodeNode fmt (depth + 1) n ({ s with nodes }.push [0x04])
    leaveNode fmt s
  | depth, .definedRelation symbol xs, s => do
    let nodes ← enterNode fmt.maximumDepth depth s.nodes
    require (fmt.allowDefinitions = true) (.unexpandedDefinition (fmt.identifier symbol))
    require (xs.length < 2 ^ 32) (.tooManyDefinitionArguments xs.length)
    let s := { s with nodes }.push
      (0x05 :: (digestBytes (fmt.identifier symbol) ++ u32Bytes xs.length))
    leaveNode fmt (xs.foldl (fun s x => encodeVariable x s) s)

def decodeVariable (binderDepth : ℕ) (bytes : List UInt8) :
    Except FormulaCodecError (Variable FreeVariable × List UInt8) := do
  let (tag, bytes) ← readU8 .unexpectedEnd bytes
  let (value, bytes) ← readU32 .unexpectedEnd bytes
  if tag = 0x00 then return (.free ⟨UInt32.ofNat value⟩, bytes)
  else if tag = 0x01 then
    if value < binderDepth then return (.bound value, bytes)
    else .error (.danglingBoundVariable value binderDepth)
  else .error (.unknownVariableTag tag)

/-- Decodes one node with `depthLeft` levels of nesting left. -/
def decodeNode (fmt : NodeFormat D) :
    ℕ → ℕ → NodeBudget → List UInt8 →
      Except FormulaCodecError (Node FreeVariable D × NodeBudget × List UInt8)
  | 0, _, _, _ => .error (.depthLimitExceeded formulaMaxDepth)
  | depthLeft + 1, binderDepth, nodes, bytes => do
    let nodes ← nodes.charge
    let (tag, bytes) ← readU8 .unexpectedEnd bytes
    if tag = 0x00 then
      let (l, bytes) ← decodeVariable binderDepth bytes
      let (r, bytes) ← decodeVariable binderDepth bytes
      return (.equal l r, nodes, bytes)
    else if tag = 0x01 then
      let (l, bytes) ← decodeVariable binderDepth bytes
      let (r, bytes) ← decodeVariable binderDepth bytes
      return (.member l r, nodes, bytes)
    else if tag = 0x02 then
      let (n, nodes, bytes) ← decodeNode fmt depthLeft binderDepth nodes bytes
      return (.not n, nodes, bytes)
    else if tag = 0x03 then
      let (a, nodes, bytes) ← decodeNode fmt depthLeft binderDepth nodes bytes
      let (b, nodes, bytes) ← decodeNode fmt depthLeft binderDepth nodes bytes
      return (.implies a b, nodes, bytes)
    else if tag = 0x04 then
      let (n, nodes, bytes) ← decodeNode fmt depthLeft (binderDepth + 1) nodes bytes
      return (.forAll n, nodes, bytes)
    else if tag = 0x05 then
      match fmt.ofIdentifier with
      | none => .error (.unknownFormulaTag 0x05)
      | some ofIdentifier => do
        let (identifier, bytes) ← readDigest .unexpectedEnd bytes
        let (count, bytes) ← readU32 .unexpectedEnd bytes
        require (count ≤ bytes.length / 5) .unexpectedEnd
        let (xs, bytes) ← readMany (decodeVariable binderDepth) count bytes
        return (.definedRelation (ofIdentifier identifier) xs, nodes, bytes)
    else .error (.unknownFormulaTag tag)

end FormulaCodec
end Naome
