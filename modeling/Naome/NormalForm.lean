import Naome.StepRenaming

/-!
# Proof normal forms

The normalizer walks the final step of a certificate depth first with an explicit stack,
renames free variables by first occurrence and merges steps with equal bytes.
-/
namespace Naome
open LocallyNameless FirstOccurrence Outcome ByteCursor ProofCodec

/-- Renames a list of variables one after another with a state. -/
def mapVariablesState {S : Type} (f : FreeVariable → S → FreeVariable × S) :
    List FreeVariable → S → List FreeVariable × S
  | [], s => ([], s)
  | v :: vs, s =>
    let (w, s) := f v s
    let (ws, s) := mapVariablesState f vs s
    (w :: ws, s)

/-- Renames the variables of a step in field order with a state. -/
def ProofStep.mapFreeState {S : Type} (f : FreeVariable → S → FreeVariable × S) :
    ProofStep → S → ProofStep × S
  | .simplification antecedent consequent, s =>
    let (antecedent, s) := antecedent.mapFreeState f s
    let (consequent, s) := consequent.mapFreeState f s
    (.simplification antecedent consequent, s)
  | .frege first second third, s =>
    let (first, s) := first.mapFreeState f s
    let (second, s) := second.mapFreeState f s
    let (third, s) := third.mapFreeState f s
    (.frege first second third, s)
  | .classicalContraposition antecedent consequent, s =>
    let (antecedent, s) := antecedent.mapFreeState f s
    let (consequent, s) := consequent.mapFreeState f s
    (.classicalContraposition antecedent consequent, s)
  | .universalDistribution v antecedent consequent, s =>
    let (v, s) := f v s
    let (antecedent, s) := antecedent.mapFreeState f s
    let (consequent, s) := consequent.mapFreeState f s
    (.universalDistribution v antecedent consequent, s)
  | .vacuousUniversal formula, s =>
    let (formula, s) := formula.mapFreeState f s
    (.vacuousUniversal formula, s)
  | .universalInstantiation v r body, s =>
    let (v, s) := f v s
    let (r, s) := f r s
    let (body, s) := body.mapFreeState f s
    (.universalInstantiation v r body, s)
  | .equalityReflexivity v, s =>
    let (v, s) := f v s
    (.equalityReflexivity v, s)
  | .equalitySubstitution source target body, s =>
    let (source, s) := f source s
    let (target, s) := f target s
    let (body, s) := body.mapFreeState f s
    (.equalitySubstitution source target body, s)
  | .zfcAxiom fixed, s => (.zfcAxiom fixed, s)
  | .separation schema, s =>
    let (predicate, s) := schema.predicate.mapFreeState f s
    let (element, s) := f schema.element s
    let (source, s) := f schema.source s
    let (result, s) := f schema.result s
    let (parameters, s) := mapVariablesState f schema.parameters s
    (.separation ⟨predicate, element, source, result, parameters⟩, s)
  | .replacement schema, s =>
    let (predicate, s) := schema.predicate.mapFreeState f s
    let (input, s) := f schema.input s
    let (output, s) := f schema.output s
    let (uniquenessWitness, s) := f schema.uniquenessWitness s
    let (source, s) := f schema.source s
    let (result, s) := f schema.result s
    let (parameters, s) := mapVariablesState f schema.parameters s
    (.replacement ⟨predicate, input, output, uniquenessWitness, source, result, parameters⟩, s)
  | .proofReference proofId, s => (.proofReference proofId, s)
  | .modusPonens premise implication, s => (.modusPonens premise implication, s)
  | .generalization premise v, s =>
    let (v, s) := f v s
    (.generalization premise v, s)

namespace NormalForm

/-- The normalized position of a step that was already visited. -/
def normalizedReference (normalizedIndices : List (Option ℕ)) (reference : ℕ) : CodecM ℕ :=
  orError .panic (normalizedIndices[reference]?.bind id)

def normalizeReferences (normalizedIndices : List (Option ℕ)) : ProofStep → CodecM ProofStep
  | .modusPonens premise implication => do
    let premise ← normalizedReference normalizedIndices premise
    let implication ← normalizedReference normalizedIndices implication
    return .modusPonens premise implication
  | .generalization premise v => do
    let premise ← normalizedReference normalizedIndices premise
    return .generalization premise v
  | step => .ok step

/-- Renames one step. Numbering a variable stops when the next identifier no longer fits
32 bits. -/
def normalizeStep (normalizedIndices : List (Option ℕ)) (step : ProofStep)
    (numbering : VariableNumbering) : CodecM (ProofStep × VariableNumbering) := do
  let step ← normalizeReferences normalizedIndices step
  let (step, numbering) := step.mapFreeState VariableNumbering.visit numbering
  require (numbering.nextIdentifier < 2 ^ 32) .panic
  return (step, numbering)

/-- What the normalizer carries through the traversal. A step of the source is there until it
is taken. -/
structure Normalizer where
  source : List (Option ProofStep)
  normalizedIndices : List (Option ℕ)
  normalizedSteps : List ProofStep
  internedSteps : List (List UInt8 × ℕ)
  numbering : VariableNumbering

inductive Visit
  | enter (position : ℕ)
  | exit (position : ℕ)
  deriving DecidableEq, Repr

def Visit.position : Visit → ℕ
  | .enter position => position
  | .exit position => position

/-- Numbers a renamed step by its bytes, adding it when it is new. -/
def Normalizer.intern (s : Normalizer) (position : ℕ) (step : ProofStep) (key : List UInt8) :
    CodecM Normalizer :=
  match s.internedSteps.lookup key with
  | some index => .ok { s with normalizedIndices := s.normalizedIndices.set position (some index) }
  | none => do
    let index := s.normalizedSteps.length
    require (index < 2 ^ 32) .panic
    return { s with
      normalizedIndices := s.normalizedIndices.set position (some index)
      normalizedSteps := s.normalizedSteps ++ [step]
      internedSteps := s.internedSteps ++ [(key, index)] }

/-- The visit of an unvisited step: references first, then the step itself. -/
def enterStep (s : Normalizer) (position : ℕ) : CodecM (List Visit) := do
  let step ← orError .panic (s.source[position]?.bind id)
  return step.references.map .enter ++ [.exit position]

/-- Takes a step out of the source and numbers it. -/
def exitStep (s : Normalizer) (position : ℕ) : CodecM Normalizer := do
  let step ← orError .panic (s.source[position]?.bind id)
  let source := s.source.set position none
  let (step, numbering) ← normalizeStep s.normalizedIndices step s.numbering
  let key ← (encodeStep step).mapError fun _ => .panic
  { s with source, numbering }.intern position step key

/-- One turn of the loop: the new state and the visits pushed on the stack, top first. -/
def visitNext (s : Normalizer) (visit : Visit) : CodecM (Normalizer × List Visit) := do
  let index ← orError .panic s.normalizedIndices[visit.position]?
  if index.isSome then return (s, [])
  else match visit with
    | .enter position => return (s, ← enterStep s position)
    | .exit position => return (← exitStep s position, [])

/-- The loop over the stack. Each step is entered once and leaves at most three visits, so
`fuel` bounds the number of turns. -/
def traverse : ℕ → Normalizer → List Visit → CodecM Normalizer
  | _, s, [] => .ok s
  | 0, _, _ :: _ => .error .panic
  | fuel + 1, s, visit :: traversal => do
    let (s, pushed) ← visitNext s visit
    traverse fuel s (pushed ++ traversal)

def normalizeWithStepOrigins (c : ProofCertificate) : CodecM Normalizer := do
  require (c.steps ≠ []) .panic
  traverse (3 * c.steps.length + 1)
    ⟨c.steps.map some, List.replicate c.steps.length none, [], [], .empty⟩
    [.enter (c.steps.length - 1)]

def normalize (c : ProofCertificate) : CodecM ProofCertificate := do
  let s ← normalizeWithStepOrigins c
  return ⟨s.normalizedSteps⟩

end NormalForm

/-- A root-reachable projection of a certificate. -/
structure ProofNormalForm where
  certificate : ProofCertificate
  deriving DecidableEq

def ProofCertificate.intoUncheckedNormalForm (c : ProofCertificate) : CodecM ProofNormalForm := do
  let certificate ← NormalForm.normalize c
  return ⟨certificate⟩

def ProofNormalForm.canonicalBytes (n : ProofNormalForm) : CodecM (List UInt8) :=
  n.certificate.toCanonicalBytes

end Naome
