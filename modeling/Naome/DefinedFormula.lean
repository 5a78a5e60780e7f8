import Naome.FormulaCodec

/-!
# Formulas with definition applications

A `DefinedFormula` may apply selected definitions to variables. Applications are
eliminated by expansion into primitive formulas; the resolver supplies the bodies.
-/
namespace Naome
open LocallyNameless Outcome FormulaCodec

abbrev DefinedNode := Node FreeVariable DefinitionId

@[ext]
structure DefinedFormula where
  node : DefinedNode
  wellScoped : node.Scoped 0
  deriving DecidableEq

inductive DefinedFormulaCodecError
  | codec (reason : FormulaCodecError)
  | primitive (reason : FormulaCodecError)
  deriving DecidableEq, Repr

/-- The definition-aware format. Its encoder also checks the byte length. -/
def definedFormat (allowDefinitions : Bool) (maximumDepth : ℕ) : NodeFormat DefinitionId where
  identifier := id
  ofIdentifier := some id
  allowDefinitions := allowDefinitions
  maximumDepth := min maximumDepth formulaMaxDepth
  byteLimit := some formulaMaxBytes

theorem definedFormat_lawful (allow : Bool) (depth : ℕ) : (definedFormat allow depth).Lawful := by
  intro f hf
  cases hf
  exact ⟨fun _ => rfl, fun _ => rfl⟩

namespace DefinedFormula

theorem scoped_equal (left right : FreeVariable) :
    (.equal (.free left) (.free right) : DefinedNode).Scoped 0 := ⟨trivial, trivial⟩

theorem scoped_member (element set : FreeVariable) :
    (.member (.free element) (.free set) : DefinedNode).Scoped 0 := ⟨trivial, trivial⟩

def equal (left right : FreeVariable) : DefinedFormula :=
  ⟨.equal (.free left) (.free right), scoped_equal left right⟩

def member (element set : FreeVariable) : DefinedFormula :=
  ⟨.member (.free element) (.free set), scoped_member element set⟩

def definedRelation (definitionId : DefinitionId) (arguments : List FreeVariable) :
    DefinedFormula :=
  ⟨.definedRelation definitionId (arguments.map .free), by
    intro x hx
    obtain ⟨v, -, rfl⟩ := List.mem_map.mp hx
    trivial⟩

def negate (f : DefinedFormula) : DefinedFormula := ⟨.not f.node, f.wellScoped⟩

def implies (antecedent consequent : DefinedFormula) : DefinedFormula :=
  ⟨.implies antecedent.node consequent.node, antecedent.wellScoped, consequent.wellScoped⟩

def conjunction (left right : DefinedFormula) : DefinedFormula :=
  negate (implies left (negate right))

def disjunction (left right : DefinedFormula) : DefinedFormula := implies (negate left) right

def biconditional (left right : DefinedFormula) : DefinedFormula :=
  conjunction (implies left right) (implies right left)

def forAll (v : FreeVariable) (body : DefinedFormula) : DefinedFormula :=
  ⟨.forAll (body.node.bindFree (bindOne v) 0),
    Node.scoped_bindFree (fun _ _ h => bindOne_lt h) body.wellScoped⟩

def existsOne (v : FreeVariable) (body : DefinedFormula) : DefinedFormula :=
  negate (forAll v (negate body))

def mapFreeVariables (g : FreeVariable → FreeVariable) (f : DefinedFormula) : DefinedFormula :=
  ⟨f.node.mapFree g, (Node.scoped_mapFree g 0 f.node).mpr f.wellScoped⟩

def substituteFree (source target : FreeVariable) (f : DefinedFormula) : DefinedFormula :=
  if source = target then f else f.mapFreeVariables (Formula.substitution source target)

def freeVariables (f : DefinedFormula) : Std.TreeSet FreeVariable :=
  Std.TreeSet.ofList f.node.occurrences

/-- Definition references in prefix order, including duplicates. -/
def definitionReferences (f : DefinedFormula) : List DefinitionId := f.node.symbols

def firstDefinitionReference (f : DefinedFormula) : Option DefinitionId := f.node.symbols.head?

def containsDefinition (f : DefinedFormula) : Bool := !f.node.symbols.isEmpty

def isClosed (f : DefinedFormula) : Bool := f.freeVariables.isEmpty

def encodeCanonicalWithLimits (f : DefinedFormula) (maximumNodes maximumDepth : ℕ) :
    Except DefinedFormulaCodecError (List UInt8 × ℕ) :=
  (encodeTree (definedFormat true maximumDepth) .preserve maximumNodes f.node).mapError .codec

def encodeCanonicalWithNodeLimit (f : DefinedFormula) (maximumNodes : ℕ) :
    Except DefinedFormulaCodecError (List UInt8 × ℕ) :=
  f.encodeCanonicalWithLimits maximumNodes formulaMaxDepth

def encodeCanonical (f : DefinedFormula) : Except DefinedFormulaCodecError (List UInt8) :=
  (f.encodeCanonicalWithNodeLimit formulaMaxNodes).map Prod.fst

def encodeFreeVariableNormalized (f : DefinedFormula) :
    Except DefinedFormulaCodecError (List UInt8) :=
  ((encodeTree (definedFormat true formulaMaxDepth) (.normalize .empty) formulaMaxNodes
    f.node).mapError .codec).map Prod.fst

def decodeCanonicalWithNodeLimit (bytes : List UInt8) (maximumNodes : ℕ) :
    Except DefinedFormulaCodecError (DefinedFormula × ℕ) :=
  match h : decodeTree (definedFormat true formulaMaxDepth) maximumNodes bytes with
  | .ok (n, used) => .ok (⟨n, ((decodeTree_eq_ok (definedFormat_lawful _ _)).mp h).2.1⟩, used)
  | .error e => .error (.codec e)

def decodeCanonical (bytes : List UInt8) : Except DefinedFormulaCodecError DefinedFormula :=
  (decodeCanonicalWithNodeLimit bytes formulaMaxNodes).map Prod.fst

def fromPrimitive (f : Formula) : Except DefinedFormulaCodecError DefinedFormula := do
  let bytes ← f.encodeCanonical.mapError .primitive
  decodeCanonical bytes

/-- Writes a tree in the primitive format and reads it with the primitive decoder. -/
def nodeIntoPrimitive (n : DefinedNode) : Except DefinedFormulaCodecError Formula := do
  let (bytes, _) ← (encodeTree (definedFormat false formulaMaxDepth) .preserve formulaMaxNodes
    n).mapError .codec
  (Formula.decodeCanonical bytes).mapError .primitive

def intoPrimitive (f : DefinedFormula) : Except DefinedFormulaCodecError Formula :=
  nodeIntoPrimitive f.node

def canonicalBytes (f : DefinedFormula) : List UInt8 :=
  nodeBytes (definedFormat true formulaMaxDepth) f.node

/-- The limits of the definition-aware codec. -/
structure WithinLimits (f : DefinedFormula) : Prop where
  nodeCount_le : f.node.nodeCount ≤ formulaMaxNodes
  depth_le : f.node.depth ≤ formulaMaxDepth
  length_le : f.canonicalBytes.length ≤ formulaMaxBytes

/-- Argument counts fit 32 bits because every argument takes five bytes. -/
theorem writes_of_length_le {n : DefinedNode} {depth : ℕ}
    (h : (nodeBytes (definedFormat true depth) n).length ≤ formulaMaxBytes) :
    (definedFormat true depth).Writes n ∧ (definedFormat true depth).Reads n := by
  induction n with
  | equal | member => exact ⟨trivial, trivial⟩
  | not n ih | forAll n ih =>
    simp only [nodeBytes, List.length_cons] at h
    exact ih (by omega)
  | implies a b iha ihb =>
    simp only [nodeBytes, List.length_cons, List.length_append] at h
    obtain ⟨ha, ha'⟩ := iha (by omega)
    obtain ⟨hb, hb'⟩ := ihb (by omega)
    exact ⟨⟨ha, hb⟩, ha', hb'⟩
  | definedRelation s xs =>
    simp only [nodeBytes, List.length_cons, List.length_append, length_flatMap_variableBytes,
      formulaMaxBytes] at h
    have hlt : xs.length < 2 ^ 32 := by omega
    exact ⟨⟨rfl, hlt⟩, rfl, hlt⟩

theorem encodeCanonicalWithNodeLimit_eq_ok {f : DefinedFormula} {maximumNodes used : ℕ}
    {bytes : List UInt8} :
    f.encodeCanonicalWithNodeLimit maximumNodes = .ok (bytes, used) ↔
      f.WithinLimits ∧ f.node.nodeCount ≤ maximumNodes ∧ used = f.node.nodeCount ∧
        bytes = f.canonicalBytes := by
  rw [encodeCanonicalWithNodeLimit, encodeCanonicalWithLimits, mapError_eq_ok, encodeTree_eq_ok,
    mapFreeState_preserve]
  constructor
  · rintro ⟨h, hu, hb⟩
    have hc := h.nodeCount_le
    exact ⟨⟨by omega, h.depth_le, h.fits _ rfl⟩, by omega, hu, hb⟩
  · rintro ⟨hw, hm, hu, hb⟩
    have hc := hw.nodeCount_le
    refine ⟨⟨hw.depth_le, (writes_of_length_le hw.length_le).1, ?_, by omega⟩, hu, hb⟩
    intro m h
    cases h
    exact hw.length_le

theorem encodeCanonical_eq_ok {f : DefinedFormula} {bytes : List UInt8} :
    f.encodeCanonical = .ok bytes ↔ f.WithinLimits ∧ bytes = f.canonicalBytes := by
  rw [encodeCanonical, map_eq_ok, Prod.exists]
  simp only [encodeCanonicalWithNodeLimit_eq_ok]
  constructor
  · rintro ⟨_, _, ⟨hw, -, -, rfl⟩, rfl⟩
    exact ⟨hw, rfl⟩
  · rintro ⟨hw, rfl⟩
    exact ⟨_, _, ⟨hw, hw.nodeCount_le, rfl, rfl⟩, rfl⟩

theorem decodeCanonicalWithNodeLimit_eq_ok {bytes : List UInt8} {maximumNodes used : ℕ}
    {f : DefinedFormula} :
    decodeCanonicalWithNodeLimit bytes maximumNodes = .ok (f, used) ↔
      f.WithinLimits ∧ f.node.nodeCount ≤ maximumNodes ∧ used = f.node.nodeCount ∧
        bytes = f.canonicalBytes := by
  have hopen : decodeCanonicalWithNodeLimit bytes maximumNodes = .ok (f, used) ↔
      decodeTree (definedFormat true formulaMaxDepth) maximumNodes bytes = .ok (f.node, used) := by
    unfold decodeCanonicalWithNodeLimit
    split
    · next n used' h => simp only [h, Except.ok.injEq, Prod.mk.injEq, DefinedFormula.ext_iff]
    · next e h => simp only [h, reduceCtorEq]
  rw [hopen, decodeTree_eq_ok (definedFormat_lawful true formulaMaxDepth)]
  constructor
  · rintro ⟨hd, -, -, hc, hu, rfl, hl⟩
    exact ⟨⟨by omega, hd, hl⟩, by omega, hu, rfl⟩
  · rintro ⟨hw, hm, hu, rfl⟩
    have hc := hw.nodeCount_le
    exact ⟨hw.depth_le, f.wellScoped, (writes_of_length_le hw.length_le).2, by omega, hu, rfl,
      hw.length_le⟩

theorem decodeCanonical_eq_ok {bytes : List UInt8} {f : DefinedFormula} :
    decodeCanonical bytes = .ok f ↔ f.WithinLimits ∧ bytes = f.canonicalBytes := by
  rw [decodeCanonical, map_eq_ok, Prod.exists]
  simp only [decodeCanonicalWithNodeLimit_eq_ok]
  constructor
  · rintro ⟨_, _, ⟨hw, -, -, rfl⟩, rfl⟩
    exact ⟨hw, rfl⟩
  · rintro ⟨hw, rfl⟩
    exact ⟨_, _, ⟨hw, hw.nodeCount_le, rfl, rfl⟩, rfl⟩

theorem nodeBytes_embed (allow : Bool) (depth : ℕ) (n : PrimitiveNode) :
    nodeBytes (definedFormat allow depth) n.embed = nodeBytes primitiveFormat n := by
  induction n with
  | equal | member => rfl
  | not n ih | forAll n ih => simp only [Node.embed, nodeBytes, ih]
  | implies a b iha ihb => simp only [Node.embed, nodeBytes, iha, ihb]
  | definedRelation s => exact s.elim

theorem writes_false_iff {n : DefinedNode} {depth : ℕ} :
    (definedFormat false depth).Writes n ↔ n.symbols = [] := by
  induction n with
  | equal | member => simp [NodeFormat.Writes, Node.symbols]
  | not n ih | forAll n ih => simp [NodeFormat.Writes, Node.symbols, ih]
  | implies a b iha ihb => simp [NodeFormat.Writes, Node.symbols, iha, ihb]
  | definedRelation s xs => simp [NodeFormat.Writes, Node.symbols, definedFormat]

/-- Conversion to the primitive language succeeds exactly on definition-free trees
within the limits, and changes nothing. -/
theorem nodeIntoPrimitive_eq_ok {n : DefinedNode} (hn : n.Scoped 0) {f : Formula} :
    nodeIntoPrimitive n = .ok f ↔ f.WithinLimits ∧ n = f.node.embed := by
  simp only [nodeIntoPrimitive, bind_eq_ok, Prod.exists, mapError_eq_ok, encodeTree_eq_ok,
    mapFreeState_preserve, Formula.decodeCanonical_eq_ok]
  constructor
  · rintro ⟨bytes, used, ⟨he, -, rfl⟩, hw, hbytes⟩
    obtain ⟨m, rfl⟩ := Node.exists_embed (writes_false_iff.1 he.writes)
    refine ⟨hw, congrArg Node.embed ?_⟩
    rw [nodeBytes_embed] at hbytes
    have hd := he.depth_le
    have hfd := hw.2
    simp only [definedFormat, min_self, Node.depth_embed] at hd
    unfold formulaMaxDepth at hd hfd
    have happend : nodeBytes primitiveFormat m ++ [] = nodeBytes primitiveFormat f.node ++ [] :=
      congrArg (· ++ []) hbytes
    exact (nodeBytes_append_inj primitiveFormat_lawful ((Node.scoped_embed 0 m).mp hn)
      f.wellScoped (PrimitiveNode.reads _) (PrimitiveNode.reads _) (by omega) (by omega) happend).1
  · rintro ⟨hw, rfl⟩
    refine ⟨_, _, ⟨⟨by simpa [definedFormat] using hw.2, ?_, ?_, by simpa using hw.1⟩, rfl, rfl⟩,
      hw, nodeBytes_embed _ _ _⟩
    · exact writes_false_iff.2 (Node.symbols_embed _)
    · intro m hm
      cases hm
      rw [nodeBytes_embed]
      exact length_nodeBytes_le _ (PrimitiveNode.symbols_eq_nil _) hw.1

end DefinedFormula
end Naome
