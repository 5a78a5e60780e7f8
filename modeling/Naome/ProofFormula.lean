import Naome.Definition

/-!
# Formula fields of proof certificates

A primitive formula is kept as it is; only a formula that really applies a definition
uses the definition-aware tree, so equal bytes have one representation.
-/
namespace Naome
open LocallyNameless Outcome ByteCursor FormulaCodec

inductive ProofFormula
  | primitive (formula : Formula)
  | defined (formula : DefinedFormula) (cites : formula.containsDefinition = true)
  deriving DecidableEq

inductive ProofFormulaCodecError
  | primitive (reason : FormulaCodecError)
  | defined (reason : DefinedFormulaCodecError)
  deriving DecidableEq, Repr

namespace ProofFormula

/-- The tree in the definition-aware language. -/
def node : ProofFormula → DefinedNode
  | .primitive f => f.node.embed
  | .defined f _ => f.node

theorem containsDefinition_iff {f : DefinedFormula} :
    f.containsDefinition = true ↔ f.node.symbols ≠ [] := by
  simp [DefinedFormula.containsDefinition]

theorem node_injective : Function.Injective node := by
  intro p q h
  cases p with
  | primitive f =>
    cases q with
    | primitive g => rw [Formula.ext (Node.embed_injective h)]
    | defined g hg =>
      refine absurd ?_ (containsDefinition_iff.1 hg)
      rw [← show f.node.embed = g.node from h, Node.symbols_embed]
  | defined f hf =>
    cases q with
    | primitive g =>
      refine absurd ?_ (containsDefinition_iff.1 hf)
      rw [show f.node = g.node.embed from h, Node.symbols_embed]
    | defined g hg =>
      obtain rfl := DefinedFormula.ext (show f.node = g.node from h)
      rfl

theorem containsDefinition_mapFreeVariables (g : FreeVariable → FreeVariable) (f : DefinedFormula) :
    (f.mapFreeVariables g).containsDefinition = f.containsDefinition := by
  simp [DefinedFormula.containsDefinition, DefinedFormula.mapFreeVariables]

/-- The canonical representation of a definition-aware formula. -/
def fromDefined (f : DefinedFormula) : Except DefinedFormulaCodecError ProofFormula :=
  if h : f.containsDefinition = true then .ok (.defined f h)
  else f.intoPrimitive.map .primitive

def mapFreeVariables (g : FreeVariable → FreeVariable) : ProofFormula → ProofFormula
  | .primitive f => .primitive (f.mapFreeVariables g)
  | .defined f h => .defined (f.mapFreeVariables g)
      (by rw [containsDefinition_mapFreeVariables]; exact h)

def definitionReferences : ProofFormula → List DefinitionId
  | .primitive _ => []
  | .defined f _ => f.definitionReferences

/-- Definition expansion; primitive formulas report no expansion work. -/
def expandWithNodeLimit (p : ProofFormula) (resolver : DefinitionResolver) (maximumNodes : ℕ) :
    Except DefinitionExpansionError (Formula × ℕ) :=
  match p with
  | .primitive f => .ok (f, 0)
  | .defined f _ => f.expandWithNodeLimit resolver maximumNodes

def encodeCanonicalWithNodeLimit (p : ProofFormula) (maximumNodes : ℕ) :
    Except ProofFormulaCodecError (List UInt8 × ℕ) :=
  match p with
  | .primitive f => (f.encodeCanonicalWithNodeLimit maximumNodes).mapError .primitive
  | .defined f _ => (f.encodeCanonicalWithNodeLimit maximumNodes).mapError .defined

def canonicalBytes : ProofFormula → List UInt8
  | .primitive f => f.canonicalBytes
  | .defined f _ => f.canonicalBytes

def WithinLimits : ProofFormula → Prop
  | .primitive f => f.WithinLimits
  | .defined f _ => f.WithinLimits

def nodeCount (p : ProofFormula) : ℕ := p.node.nodeCount

theorem encodeCanonicalWithNodeLimit_eq_ok {p : ProofFormula} {maximumNodes used : ℕ}
    {bytes : List UInt8} :
    p.encodeCanonicalWithNodeLimit maximumNodes = .ok (bytes, used) ↔
      p.WithinLimits ∧ p.nodeCount ≤ maximumNodes ∧ used = p.nodeCount ∧
        bytes = p.canonicalBytes := by
  cases p with
  | primitive f =>
    simp only [encodeCanonicalWithNodeLimit, mapError_eq_ok,
      Formula.encodeCanonicalWithNodeLimit_eq_ok, WithinLimits, nodeCount, node,
      Node.nodeCount_embed, canonicalBytes]
  | defined f hf =>
    simp only [encodeCanonicalWithNodeLimit, mapError_eq_ok,
      DefinedFormula.encodeCanonicalWithNodeLimit_eq_ok, WithinLimits, nodeCount, node,
      canonicalBytes]

/-- The primitive decoder stops at the first definition of a tree within the limits. -/
theorem decodeNode_definition {n : DefinedNode} (hn : n.symbols ≠ []) {depthLeft binderDepth : ℕ}
    (hb : binderDepth + depthLeft ≤ 2 ^ 32) (hd : n.depth ≤ depthLeft)
    (hs : n.Scoped binderDepth) {b : NodeBudget} (hroom : b.used + n.nodeCount ≤ b.maximum)
    (rest : List UInt8) :
    decodeNode primitiveFormat depthLeft binderDepth b
      (nodeBytes (definedFormat true formulaMaxDepth) n ++ rest) =
        .error (.unknownFormulaTag 0x05) := by
  induction n generalizing depthLeft binderDepth b rest with
  | equal l r | member l r => simp [Node.symbols] at hn
  | not n ih =>
    obtain ⟨depthLeft, rfl⟩ := Nat.exists_eq_add_one.mpr (lt_of_lt_of_le n.not.depth_pos hd)
    simp only [Node.depth, Node.nodeCount] at hd hroom
    have hc : b.charge = .ok ⟨b.used + 1, b.maximum, by omega⟩ :=
      NodeBudget.charge_eq_ok.2 ⟨rfl, rfl⟩
    have := ih hn (by omega) (Nat.le_of_succ_le_succ hd) hs
      (b := ⟨b.used + 1, b.maximum, by omega⟩) (by simp only; omega) rest
    simp [decodeNode, hc, nodeBytes, readU8, this]
  | forAll n ih =>
    obtain ⟨depthLeft, rfl⟩ := Nat.exists_eq_add_one.mpr (lt_of_lt_of_le n.forAll.depth_pos hd)
    simp only [Node.depth, Node.nodeCount] at hd hroom
    have hc : b.charge = .ok ⟨b.used + 1, b.maximum, by omega⟩ :=
      NodeBudget.charge_eq_ok.2 ⟨rfl, rfl⟩
    have := ih hn (by omega) (Nat.le_of_succ_le_succ hd) hs
      (b := ⟨b.used + 1, b.maximum, by omega⟩) (by simp only; omega) rest
    simp [decodeNode, hc, nodeBytes, readU8, this]
  | implies k l ihk ihl =>
    obtain ⟨depthLeft, rfl⟩ :=
      Nat.exists_eq_add_one.mpr (lt_of_lt_of_le (k.implies l).depth_pos hd)
    simp only [Node.depth, Node.nodeCount] at hd hroom
    have hc : b.charge = .ok ⟨b.used + 1, b.maximum, by omega⟩ :=
      NodeBudget.charge_eq_ok.2 ⟨rfl, rfl⟩
    by_cases hk : k.symbols = []
    · have hl : l.symbols ≠ [] := by
        intro h
        simp [Node.symbols, hk, h] at hn
      obtain ⟨m, rfl⟩ := Node.exists_embed hk
      simp only [Node.nodeCount_embed, Node.depth_embed] at hroom hd
      let b₁ : NodeBudget := ⟨b.used + 1, b.maximum, by omega⟩
      let b₂ : NodeBudget := ⟨b.used + 1 + m.nodeCount, b.maximum, by omega⟩
      have hm : decodeNode primitiveFormat depthLeft binderDepth b₁ (nodeBytes primitiveFormat m ++
          (nodeBytes (definedFormat true formulaMaxDepth) l ++ rest)) =
            .ok (m, b₂, nodeBytes (definedFormat true formulaMaxDepth) l ++ rest) :=
        decodeNode_complete primitiveFormat_lawful (by omega) ⟨by omega,
          (Node.scoped_embed _ m).mp hs.1, PrimitiveNode.reads m, ⟨rfl, rfl⟩, rfl⟩
      have := ihl hl (by omega) ((le_max_right _ _).trans (Nat.le_of_succ_le_succ hd)) hs.2
        (b := b₂) (by simp only [b₂]; omega) rest
      simp [decodeNode, hc, nodeBytes, readU8, DefinedFormula.nodeBytes_embed, b₁, hm, this]
    · have := ihk hk (by omega) ((le_max_left _ _).trans (Nat.le_of_succ_le_succ hd)) hs.1
        (b := ⟨b.used + 1, b.maximum, by omega⟩) (by simp only; omega)
        (nodeBytes (definedFormat true formulaMaxDepth) l ++ rest)
      simp [decodeNode, hc, nodeBytes, readU8, this]
  | definedRelation s xs =>
    obtain ⟨depthLeft, rfl⟩ := Nat.exists_eq_add_one.mpr hd
    simp only [Node.nodeCount] at hroom
    have hc : b.charge = .ok ⟨b.used + 1, b.maximum, by omega⟩ :=
      NodeBudget.charge_eq_ok.2 ⟨rfl, rfl⟩
    simp [decodeNode, hc, nodeBytes, readU8, primitiveFormat]

theorem decodeCanonicalWithNodeLimit_definition {f : DefinedFormula}
    (hf : f.containsDefinition = true) (hw : f.WithinLimits) {maximumNodes : ℕ}
    (hm : f.node.nodeCount ≤ maximumNodes) :
    Formula.decodeCanonicalWithNodeLimit f.canonicalBytes maximumNodes =
      .error (.unknownFormulaTag 0x05) := by
  have hc := hw.nodeCount_le
  have herror : decodeTree primitiveFormat maximumNodes f.canonicalBytes =
      .error (.unknownFormulaTag 0x05) := by
    have hdepth : 0 + formulaMaxDepth ≤ 2 ^ 32 := by decide
    have := decodeNode_definition (containsDefinition_iff.1 hf) hdepth hw.depth_le f.wellScoped
      (b := NodeBudget.new maximumNodes) (by simp only [NodeBudget.new]; omega) []
    rw [List.append_nil] at this
    rw [decodeTree, require, if_pos hw.length_le, DefinedFormula.canonicalBytes, this]
    rfl
  unfold Formula.decodeCanonicalWithNodeLimit
  split
  · next h =>
    rw [herror] at h
    cases h
  · next e h =>
    rw [herror] at h
    cases h
    rfl

/-- The definition-aware decoder returns a definition when the primitive one stopped at
the definition tag. -/
theorem containsDefinition_of_decode {bytes : List UInt8} {maximumNodes used : ℕ}
    {f : DefinedFormula} {e : FormulaCodecError}
    (hprimitive : Formula.decodeCanonicalWithNodeLimit bytes maximumNodes = .error e)
    (hdefined : DefinedFormula.decodeCanonicalWithNodeLimit bytes maximumNodes = .ok (f, used)) :
    f.containsDefinition = true := by
  rw [containsDefinition_iff]
  intro hs
  obtain ⟨hw, hm, -, rfl⟩ := DefinedFormula.decodeCanonicalWithNodeLimit_eq_ok.1 hdefined
  obtain ⟨m, hmn⟩ := Node.exists_embed hs
  have hscoped := f.wellScoped
  have hc := hw.nodeCount_le
  have hd := hw.depth_le
  rw [← hmn] at hscoped hm hc hd
  rw [Node.nodeCount_embed] at hm hc
  rw [Node.depth_embed] at hd
  let p : Formula := ⟨m, (Node.scoped_embed 0 m).mp hscoped⟩
  have hbytes : f.canonicalBytes = p.canonicalBytes := by
    rw [DefinedFormula.canonicalBytes, ← hmn, DefinedFormula.nodeBytes_embed]
    rfl
  have hok : Formula.decodeCanonicalWithNodeLimit p.canonicalBytes maximumNodes =
      .ok (p, m.nodeCount) :=
    Formula.decodeCanonicalWithNodeLimit_eq_ok.2 ⟨⟨hc, hd⟩, hm, rfl, rfl⟩
  rw [hbytes, hok] at hprimitive
  cases hprimitive

/-- Decodes a primitive formula, or a definition-aware one when the primitive decoder
meets the definition tag. -/
def decodeCanonicalWithNodeLimit (bytes : List UInt8) (maximumNodes : ℕ) :
    Except ProofFormulaCodecError (ProofFormula × ℕ) :=
  match hp : Formula.decodeCanonicalWithNodeLimit bytes maximumNodes with
  | .ok (f, nodes) => .ok (.primitive f, nodes)
  | .error e =>
    if e = .unknownFormulaTag 0x05 then
      match hd : DefinedFormula.decodeCanonicalWithNodeLimit bytes maximumNodes with
      | .ok (f, nodes) => .ok (.defined f (containsDefinition_of_decode hp hd), nodes)
      | .error e => .error (.defined e)
    else .error (.primitive e)

theorem decodeCanonicalWithNodeLimit_eq_ok {bytes : List UInt8} {maximumNodes used : ℕ}
    {p : ProofFormula} :
    decodeCanonicalWithNodeLimit bytes maximumNodes = .ok (p, used) ↔
      p.WithinLimits ∧ p.nodeCount ≤ maximumNodes ∧ used = p.nodeCount ∧
        bytes = p.canonicalBytes := by
  constructor
  · intro h
    unfold decodeCanonicalWithNodeLimit at h
    split at h
    · next f nodes hp =>
      cases h
      have := Formula.decodeCanonicalWithNodeLimit_eq_ok.1 hp
      simpa only [WithinLimits, nodeCount, node, Node.nodeCount_embed, canonicalBytes] using this
    · next e hp =>
      split_ifs at h with he
      split at h
      · next f nodes hd =>
        cases h
        exact DefinedFormula.decodeCanonicalWithNodeLimit_eq_ok.1 hd
      · cases h
  · intro h
    cases p with
    | primitive f =>
      have hp := Formula.decodeCanonicalWithNodeLimit_eq_ok.2 (by
        simpa only [WithinLimits, nodeCount, node, Node.nodeCount_embed, canonicalBytes] using h)
      unfold decodeCanonicalWithNodeLimit
      split
      · next hp' => rw [hp] at hp'; cases hp'; rfl
      · next hp' => rw [hp] at hp'; cases hp'
    | defined f hf =>
      have hd := DefinedFormula.decodeCanonicalWithNodeLimit_eq_ok.2 h
      obtain ⟨hw, hm, -, hbytes⟩ := h
      have hp := decodeCanonicalWithNodeLimit_definition hf hw hm
      rw [← show bytes = f.canonicalBytes from hbytes] at hp
      unfold decodeCanonicalWithNodeLimit
      split
      · next hp' => rw [hp] at hp'; cases hp'
      · next hp' =>
        rw [hp] at hp'
        cases hp'
        rw [if_pos rfl]
        split
        · next hd' => rw [hd] at hd'; cases hd'; rfl
        · next hd' => rw [hd] at hd'; cases hd'

end ProofFormula
end Naome
