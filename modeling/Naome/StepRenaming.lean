import Naome.ProofDecode

/-!
# Renaming free variables of proof steps

Renaming keeps the tag, the widths and the limits of a step. A renaming that numbers
variables by first occurrence acts on a step like the renaming it ends with.
-/
namespace Naome
open LocallyNameless FirstOccurrence ByteCursor FormulaCodec

variable {g h : FreeVariable → FreeVariable}

namespace ProofFormula

/-- Renames free variables one occurrence after another with a state. -/
def mapFreeState {S : Type} (f : FreeVariable → S → FreeVariable × S) (p : ProofFormula) (s : S) :
    ProofFormula × S :=
  match p with
  | .primitive p => (.primitive ⟨(p.node.mapFreeState f s).1,
      (Node.scoped_mapFreeState f 0 p.node s).mpr p.wellScoped⟩, (p.node.mapFreeState f s).2)
  | .defined p cites => (.defined ⟨(p.node.mapFreeState f s).1,
      (Node.scoped_mapFreeState f 0 p.node s).mpr p.wellScoped⟩ (by
        rw [containsDefinition_iff, Node.symbols_mapFreeState]
        exact containsDefinition_iff.mp cites), (p.node.mapFreeState f s).2)

def occurrences (p : ProofFormula) : List FreeVariable := p.node.occurrences

theorem node_mapFreeVariables (g : FreeVariable → FreeVariable) (p : ProofFormula) :
    (p.mapFreeVariables g).node = p.node.mapFree g := by
  cases p with
  | primitive f => exact (Node.mapFree_embed g f.node).symm
  | defined f hf => rfl

theorem mapFreeVariables_congr {p : ProofFormula} (hp : ∀ v ∈ p.occurrences, g v = h v) :
    p.mapFreeVariables g = p.mapFreeVariables h := by
  apply node_injective
  rw [node_mapFreeVariables, node_mapFreeVariables]
  exact Node.mapFree_congr hp

theorem mapFreeVariables_id (p : ProofFormula) : p.mapFreeVariables id = p := by
  apply node_injective
  rw [node_mapFreeVariables, Node.mapFree_id]

theorem mapFreeVariables_comp (g h : FreeVariable → FreeVariable) (p : ProofFormula) :
    (p.mapFreeVariables g).mapFreeVariables h = p.mapFreeVariables (h ∘ g) := by
  apply node_injective
  simp only [node_mapFreeVariables, Node.mapFree_mapFree]

theorem occurrences_mapFreeVariables (g : FreeVariable → FreeVariable) (p : ProofFormula) :
    (p.mapFreeVariables g).occurrences = p.occurrences.map g := by
  rw [occurrences, node_mapFreeVariables, Node.occurrences_mapFree, occurrences]

theorem length_nodeBytes_mapFree {D : Type} (fmt : NodeFormat D) (g : FreeVariable → FreeVariable)
    (n : Node FreeVariable D) :
    (nodeBytes fmt (n.mapFree g)).length = (nodeBytes fmt n).length := by
  induction n with
  | equal l r | member l r => simp [Node.mapFree, nodeBytes]
  | not n ih | forAll n ih => simp [Node.mapFree, nodeBytes, ih]
  | implies a b iha ihb => simp [Node.mapFree, nodeBytes, iha, ihb]
  | definedRelation s xs =>
    simp only [Node.mapFree, nodeBytes, List.length_cons, List.length_append,
      length_flatMap_variableBytes, List.length_map, length_u32Bytes]

@[simp] theorem length_canonicalBytes_mapFreeVariables (g : FreeVariable → FreeVariable)
    (p : ProofFormula) : (p.mapFreeVariables g).canonicalBytes.length = p.canonicalBytes.length := by
  cases p with
  | primitive f => exact length_nodeBytes_mapFree _ g f.node
  | defined f hf => exact length_nodeBytes_mapFree _ g f.node

@[simp] theorem nodeCount_mapFreeVariables (g : FreeVariable → FreeVariable) (p : ProofFormula) :
    (p.mapFreeVariables g).nodeCount = p.nodeCount := by
  rw [nodeCount, node_mapFreeVariables, Node.nodeCount_mapFree, nodeCount]

theorem withinLimits_mapFreeVariables (g : FreeVariable → FreeVariable) (p : ProofFormula) :
    (p.mapFreeVariables g).WithinLimits ↔ p.WithinLimits := by
  cases p with
  | primitive f =>
    simp only [mapFreeVariables, WithinLimits, Formula.WithinLimits, Formula.mapFreeVariables,
      Node.nodeCount_mapFree, Node.depth_mapFree]
  | defined f hf =>
    have hlen : (f.mapFreeVariables g).canonicalBytes.length = f.canonicalBytes.length :=
      length_nodeBytes_mapFree _ g f.node
    simp only [mapFreeVariables, WithinLimits]
    constructor
    · intro hw
      have hc := hw.nodeCount_le
      have hd := hw.depth_le
      simp only [DefinedFormula.mapFreeVariables, Node.nodeCount_mapFree, Node.depth_mapFree] at hc hd
      exact ⟨hc, hd, hlen ▸ hw.length_le⟩
    · intro hw
      refine ⟨?_, ?_, hlen ▸ hw.length_le⟩
      · simpa only [DefinedFormula.mapFreeVariables, Node.nodeCount_mapFree] using hw.nodeCount_le
      · simpa only [DefinedFormula.mapFreeVariables, Node.depth_mapFree] using hw.depth_le

/-- Every occurrence of a free variable takes four bytes or more. -/
theorem length_occurrences_le (fmt : NodeFormat DefinitionId) (n : DefinedNode) :
    4 * n.occurrences.length ≤ (nodeBytes fmt n).length := by
  have hx : ∀ x : Variable FreeVariable, x.occurrences.length ≤ 1 := by
    intro x
    cases x <;> simp [Variable.occurrences]
  induction n with
  | equal l r | member l r =>
    have hl := hx l
    have hr := hx r
    simp only [Node.occurrences, nodeBytes, List.length_append, List.length_cons,
      length_variableBytes]
    omega
  | not n ih | forAll n ih =>
    simp only [Node.occurrences, nodeBytes, List.length_cons]
    omega
  | implies a b iha ihb =>
    simp only [Node.occurrences, nodeBytes, List.length_cons, List.length_append]
    omega
  | definedRelation s xs =>
    have hxs : (xs.flatMap Variable.occurrences).length ≤ xs.length := by
      induction xs with
      | nil => simp
      | cons x xs ih =>
        have := hx x
        simp only [List.flatMap_cons, List.length_append, List.length_cons]
        omega
    simp only [Node.occurrences, nodeBytes, List.length_cons, List.length_append,
      length_flatMap_variableBytes]
    omega

theorem four_mul_length_occurrences_le (p : ProofFormula) :
    4 * p.occurrences.length ≤ p.canonicalBytes.length := by
  cases p with
  | primitive f =>
    have := length_occurrences_le (definedFormat true formulaMaxDepth) f.node.embed
    rwa [DefinedFormula.nodeBytes_embed] at this
  | defined f hf => exact length_occurrences_le _ f.node

end ProofFormula

namespace StepField

def mapFreeVariables (g : FreeVariable → FreeVariable) : StepField → StepField
  | .formula f => .formula (f.mapFreeVariables g)
  | .freeVariable v => .freeVariable (g v)
  | .freeVariables vs => .freeVariables (vs.map g)
  | .zfcAxiom fixed => .zfcAxiom fixed
  | .proofId id => .proofId id
  | .reference position => .reference position

def occurrences : StepField → List FreeVariable
  | .formula f => f.occurrences
  | .freeVariable v => [v]
  | .freeVariables vs => vs
  | _ => []

@[simp] theorem length_bytes_mapFreeVariables (g : FreeVariable → FreeVariable) (f : StepField) :
    (f.mapFreeVariables g).bytes.length = f.bytes.length := by
  cases f with
  | freeVariables vs =>
    simp only [mapFreeVariables, bytes, List.length_append, length_u32Bytes,
      ProofCodec.length_flatMap_u32Bytes, List.length_map]
  | _ => simp [mapFreeVariables, bytes]

@[simp] theorem nodes_mapFreeVariables (g : FreeVariable → FreeVariable) (f : StepField) :
    (f.mapFreeVariables g).nodes = f.nodes := by
  cases f <;> simp [mapFreeVariables, nodes]

@[simp] theorem fits_mapFreeVariables (g : FreeVariable → FreeVariable) (f : StepField) :
    (f.mapFreeVariables g).Fits ↔ f.Fits := by
  cases f <;> simp [mapFreeVariables, Fits, ProofFormula.withinLimits_mapFreeVariables]

theorem length_occurrences_le (f : StepField) : 4 * f.occurrences.length ≤ f.bytes.length := by
  cases f with
  | formula f =>
    have := f.four_mul_length_occurrences_le
    simp only [occurrences, bytes, length_framed]
    omega
  | freeVariables vs =>
    simp only [occurrences, bytes, List.length_append, ProofCodec.length_flatMap_u32Bytes]
    omega
  | _ => simp [occurrences, bytes]

end StepField

namespace ProofStep

def mapFreeVariables (g : FreeVariable → FreeVariable) : ProofStep → ProofStep
  | .simplification antecedent consequent =>
    .simplification (antecedent.mapFreeVariables g) (consequent.mapFreeVariables g)
  | .frege first second third =>
    .frege (first.mapFreeVariables g) (second.mapFreeVariables g) (third.mapFreeVariables g)
  | .classicalContraposition antecedent consequent =>
    .classicalContraposition (antecedent.mapFreeVariables g) (consequent.mapFreeVariables g)
  | .universalDistribution v antecedent consequent =>
    .universalDistribution (g v) (antecedent.mapFreeVariables g) (consequent.mapFreeVariables g)
  | .vacuousUniversal formula => .vacuousUniversal (formula.mapFreeVariables g)
  | .universalInstantiation v r body =>
    .universalInstantiation (g v) (g r) (body.mapFreeVariables g)
  | .equalityReflexivity v => .equalityReflexivity (g v)
  | .equalitySubstitution source target body =>
    .equalitySubstitution (g source) (g target) (body.mapFreeVariables g)
  | .zfcAxiom fixed => .zfcAxiom fixed
  | .separation s => .separation ⟨s.predicate.mapFreeVariables g, g s.element, g s.source,
      g s.result, s.parameters.map g⟩
  | .replacement r => .replacement ⟨r.predicate.mapFreeVariables g, g r.input, g r.output,
      g r.uniquenessWitness, g r.source, g r.result, r.parameters.map g⟩
  | .proofReference proofId => .proofReference proofId
  | .modusPonens premise implication => .modusPonens premise implication
  | .generalization premise v => .generalization premise (g v)

/-- The free variables of a step in the order in which its fields hold them. -/
def occurrences (step : ProofStep) : List FreeVariable := step.fields.flatMap StepField.occurrences

theorem fields_mapFreeVariables (g : FreeVariable → FreeVariable) (step : ProofStep) :
    (step.mapFreeVariables g).fields = step.fields.map (StepField.mapFreeVariables g) := by
  cases step <;> rfl

@[simp] theorem canonicalTag_mapFreeVariables (g : FreeVariable → FreeVariable)
    (step : ProofStep) : (step.mapFreeVariables g).canonicalTag = step.canonicalTag := by
  cases step <;> rfl

@[simp] theorem references_mapFreeVariables (g : FreeVariable → FreeVariable) (step : ProofStep) :
    (step.mapFreeVariables g).references = step.references := by
  cases step <;> rfl

@[simp] theorem length_bytes_mapFreeVariables (g : FreeVariable → FreeVariable)
    (step : ProofStep) : (step.mapFreeVariables g).bytes.length = step.bytes.length := by
  simp [bytes, fields_mapFreeVariables, List.length_flatMap, Function.comp_def]

@[simp] theorem nodes_mapFreeVariables (g : FreeVariable → FreeVariable) (step : ProofStep) :
    (step.mapFreeVariables g).nodes = step.nodes := by
  simp [nodes, fields_mapFreeVariables, Function.comp_def]

theorem fits_mapFreeVariables (g : FreeVariable → FreeVariable) (step : ProofStep) :
    (step.mapFreeVariables g).Fits ↔ step.Fits := by
  simp [Fits, fields_mapFreeVariables]

theorem length_occurrences_le (step : ProofStep) :
    4 * step.occurrences.length ≤ step.bytes.length := by
  have hfields : ∀ fields : List StepField, 4 * (fields.flatMap StepField.occurrences).length ≤
      (fields.flatMap StepField.bytes).length := by
    intro fields
    induction fields with
    | nil => simp
    | cons f fields ih =>
      have := f.length_occurrences_le
      simp only [List.flatMap_cons, List.length_append]
      omega
  have := hfields step.fields
  rw [occurrences, bytes, List.length_cons]
  omega

theorem occurrences_mapFreeVariables (g : FreeVariable → FreeVariable) (step : ProofStep) :
    (step.mapFreeVariables g).occurrences = step.occurrences.map g := by
  have hfield : ∀ f : StepField, (f.mapFreeVariables g).occurrences = f.occurrences.map g := by
    intro f
    cases f <;>
      simp [StepField.mapFreeVariables, StepField.occurrences,
        ProofFormula.occurrences_mapFreeVariables]
  rw [occurrences, fields_mapFreeVariables, List.flatMap_map, occurrences, List.map_flatMap]
  exact congrArg (List.flatMap · step.fields) (funext hfield)

theorem mapFreeVariables_congr {step : ProofStep} (hs : ∀ v ∈ step.occurrences, g v = h v) :
    step.mapFreeVariables g = step.mapFreeVariables h := by
  cases step with
  | separation s | replacement s =>
    simp only [occurrences, fields, List.flatMap_cons, List.flatMap_nil, StepField.occurrences,
      List.mem_append, List.mem_singleton, List.not_mem_nil, or_false] at hs
    simp only [mapFreeVariables]
    congr 2
    · exact ProofFormula.mapFreeVariables_congr fun v hv => hs v (.inl hv)
    all_goals first
      | exact hs _ (by simp)
      | exact List.map_congr_left fun v hv => hs v (by simp [hv])
  | _ =>
    simp only [occurrences, fields, List.flatMap_cons, List.flatMap_nil, StepField.occurrences,
      List.mem_append, List.mem_singleton, List.not_mem_nil, or_false] at hs
    simp only [mapFreeVariables]
    try congr 1
    all_goals first
      | exact hs _ (by simp)
      | exact ProofFormula.mapFreeVariables_congr fun v hv => hs v (by simp [hv])

theorem mapFreeVariables_id (step : ProofStep) : step.mapFreeVariables id = step := by
  cases step <;> simp [mapFreeVariables, ProofFormula.mapFreeVariables_id]

theorem mapFreeVariables_comp (g h : FreeVariable → FreeVariable) (step : ProofStep) :
    (step.mapFreeVariables g).mapFreeVariables h = step.mapFreeVariables (h ∘ g) := by
  cases step <;> simp [mapFreeVariables, ProofFormula.mapFreeVariables_comp]

end ProofStep
end Naome
