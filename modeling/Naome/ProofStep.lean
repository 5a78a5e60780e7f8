import Naome.ProofFormula
import Naome.Zfc

/-!
# Proof steps

One axiom witness, primitive inference or proof reference. Local references are
zero-based positions of earlier steps of the same certificate.
-/
namespace Naome
open LocallyNameless Outcome ByteCursor

abbrev ProofId := Digest

/-- A Separation payload whose predicate may cite definitions. -/
structure ProofSeparation where
  predicate : ProofFormula
  element : FreeVariable
  source : FreeVariable
  result : FreeVariable
  parameters : List FreeVariable
  deriving DecidableEq

/-- A Replacement payload whose predicate may cite definitions. -/
structure ProofReplacement where
  predicate : ProofFormula
  input : FreeVariable
  output : FreeVariable
  uniquenessWitness : FreeVariable
  source : FreeVariable
  result : FreeVariable
  parameters : List FreeVariable
  deriving DecidableEq

inductive ProofStep
  | simplification (antecedent consequent : ProofFormula)
  | frege (first second third : ProofFormula)
  | classicalContraposition (antecedent consequent : ProofFormula)
  | universalDistribution (v : FreeVariable) (antecedent consequent : ProofFormula)
  | vacuousUniversal (formula : ProofFormula)
  | universalInstantiation (v replacement : FreeVariable) (body : ProofFormula)
  | equalityReflexivity (v : FreeVariable)
  | equalitySubstitution (source target : FreeVariable) (body : ProofFormula)
  | zfcAxiom (fixed : ZfcAxiom)
  | separation (schema : ProofSeparation)
  | replacement (schema : ProofReplacement)
  | proofReference (proofId : ProofId)
  | modusPonens (premise implication : ℕ)
  | generalization (premise : ℕ) (v : FreeVariable)
  deriving DecidableEq

/-- One field of an encoded step. -/
inductive StepField
  | formula (f : ProofFormula)
  | freeVariable (v : FreeVariable)
  | freeVariables (vs : List FreeVariable)
  | zfcAxiom (fixed : ZfcAxiom)
  | proofId (id : ProofId)
  | reference (position : ℕ)
  deriving DecidableEq

def encodeZfcAxiom : ZfcAxiom → UInt8
  | .extensionality => 0x00
  | .pairing => 0x01
  | .union => 0x02
  | .powerSet => 0x03
  | .infinity => 0x04
  | .foundation => 0x05
  | .choice => 0x06

namespace ProofStep

def canonicalTag : ProofStep → UInt8
  | .simplification .. => 0x00
  | .frege .. => 0x01
  | .classicalContraposition .. => 0x02
  | .universalDistribution .. => 0x03
  | .vacuousUniversal .. => 0x04
  | .universalInstantiation .. => 0x05
  | .equalityReflexivity .. => 0x06
  | .equalitySubstitution .. => 0x07
  | .zfcAxiom .. => 0x10
  | .separation .. => 0x11
  | .replacement .. => 0x12
  | .modusPonens .. => 0x20
  | .generalization .. => 0x21
  | .proofReference .. => 0x30

/-- The fields in the order in which the encoder writes them. -/
def fields : ProofStep → List StepField
  | .simplification antecedent consequent => [.formula antecedent, .formula consequent]
  | .frege first second third => [.formula first, .formula second, .formula third]
  | .classicalContraposition antecedent consequent => [.formula antecedent, .formula consequent]
  | .universalDistribution v antecedent consequent =>
    [.freeVariable v, .formula antecedent, .formula consequent]
  | .vacuousUniversal formula => [.formula formula]
  | .universalInstantiation v r body =>
    [.freeVariable v, .freeVariable r, .formula body]
  | .equalityReflexivity v => [.freeVariable v]
  | .equalitySubstitution source target body =>
    [.freeVariable source, .freeVariable target, .formula body]
  | .zfcAxiom fixed => [.zfcAxiom fixed]
  | .separation s => [.formula s.predicate, .freeVariable s.element, .freeVariable s.source,
      .freeVariable s.result, .freeVariables s.parameters]
  | .replacement r => [.formula r.predicate, .freeVariable r.input, .freeVariable r.output,
      .freeVariable r.uniquenessWitness, .freeVariable r.source, .freeVariable r.result,
      .freeVariables r.parameters]
  | .proofReference proofId => [.proofId proofId]
  | .modusPonens premise implication => [.reference premise, .reference implication]
  | .generalization premise v => [.reference premise, .freeVariable v]

/-- Local references in rule-role order. -/
def localReferences : ProofStep → Option ℕ × Option ℕ
  | .modusPonens premise implication => (some premise, some implication)
  | .generalization premise _ => (some premise, none)
  | _ => (none, none)

/-- The local references that are present. -/
def references (step : ProofStep) : List ℕ :=
  step.localReferences.1.toList ++ step.localReferences.2.toList

/-- Embedded definition references in field order. -/
def definitionReferences (step : ProofStep) : List DefinitionId :=
  step.fields.flatMap fun
    | .formula f => f.definitionReferences
    | _ => []

end ProofStep

namespace StepField

/-- The bytes of a field. -/
def bytes : StepField → List UInt8
  | .formula f => framed f.canonicalBytes
  | .freeVariable v => u32Bytes v.identifier.toNat
  | .freeVariables vs => u32Bytes vs.length ++ vs.flatMap fun v => u32Bytes v.identifier.toNat
  | .zfcAxiom fixed => [encodeZfcAxiom fixed]
  | .proofId id => digestBytes id
  | .reference position => u32Bytes position

/-- Formula nodes charged for a field. -/
def nodes : StepField → ℕ
  | .formula f => f.nodeCount
  | _ => 0

/-- A field that can be written within the certificate limits. -/
def Writable : StepField → Prop
  | .formula f => f.WithinLimits
  | _ => True

/-- A field that fits its wire width. -/
def Fits : StepField → Prop
  | .formula f => f.WithinLimits
  | .freeVariables vs => vs.length < 2 ^ 32
  | .reference position => position < 2 ^ 32
  | _ => True

end StepField

namespace ProofStep

def bytes (step : ProofStep) : List UInt8 :=
  step.canonicalTag :: step.fields.flatMap StepField.bytes

def nodes (step : ProofStep) : ℕ := (step.fields.map StepField.nodes).sum

def Writable (step : ProofStep) : Prop := ∀ f ∈ step.fields, f.Writable

def Fits (step : ProofStep) : Prop := ∀ f ∈ step.fields, f.Fits

end ProofStep
end Naome
