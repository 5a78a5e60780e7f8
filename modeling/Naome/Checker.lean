import Naome.Context
import Naome.NormalForm

/-!
# The certificate checker

Every step is reconstructed in order from the results of earlier steps. Results are
released after their last use, and all formula work is charged against one budget.
-/
namespace Naome
open LocallyNameless Outcome ByteCursor

def checkerMaxFormulaWorkBytes : ℕ := certificateMaxBytes

def derivationNodeIdDomain : List UInt8 := asciiBytes "naome:derivation-node" ++ [0]

def statementIdDomain : List UInt8 := asciiBytes "naome:statement" ++ [0]

def proofIdDomain : List UInt8 := asciiBytes "naome:proof" ++ [0]

inductive CheckErrorKind
  | contextAccess (step : ℕ) (source : ContextError)
  | unknownProofReference (step : ℕ) (proofId : ProofId)
  | definitionExpansion (step : ℕ) (source : DefinitionExpansionError)
  | logic (step : ℕ) (source : LogicError)
  | schema (step : ℕ) (source : SchemaError)
  | derivedFormula (step : ℕ) (source : FormulaCodecError)
  | formulaWorkLimitExceeded (step actual maximum : ℕ)
  | openConclusion (step : ℕ)
  deriving DecidableEq, Repr

/-- The result of checking: a value, a reported error or a violated assertion. -/
abbrev CheckM := Except (Stop CheckErrorKind)

inductive IdentityMode
  | omitDerivation
  | derive
  deriving DecidableEq, Repr

structure CheckedStep where
  formula : Formula
  canonicalLength : ℕ

structure DerivedStep where
  formula : Formula
  prechargedLength : Option ℕ
  referencedDerivationId : Option DerivationId

namespace Checker

def chargeFormulaWork (step amount remaining : ℕ) : CheckM ℕ :=
  if remaining < amount then
    .error (.error (.formulaWorkLimitExceeded step (checkerMaxFormulaWorkBytes - remaining + amount)
      checkerMaxFormulaWorkBytes))
  else .ok (remaining - amount)

/-- The retained result of an earlier step. -/
def result (results : List (Option CheckedStep)) (reference : ℕ) : CheckM CheckedStep :=
  orError .panic (results[reference]?.bind id)

/-- The position of the last step that refers to each step. -/
def lastUses (steps : List ProofStep) : List (Option ℕ) :=
  steps.zipIdx.foldl (fun uses p => p.1.references.foldl (fun uses r => uses.set r (some p.2)) uses)
    (List.replicate steps.length none)

def preflightSchemaDepth (step parameterCount : ℕ) : CheckM Unit :=
  require (parameterCount < formulaMaxDepth)
    (.error (.derivedFormula step (.depthLimitExceeded formulaMaxDepth)))

section

variable (ctx : ContextView) (step : ℕ)

def primitiveFormula : ProofFormula → CheckM Formula
  | .primitive f => .ok f
  | .defined f _ => (f.expandWithNodeLimit ctx.resolveDefinition formulaMaxNodes).map Prod.fst
      |>.mapError fun
        | .access source => .error (.contextAccess step (.ofAccess source))
        | source => .error (.definitionExpansion step source)

def primitiveSeparation (schema : ProofSeparation) : CheckM Separation := do
  let predicate ← primitiveFormula ctx step schema.predicate
  return ⟨predicate, schema.element, schema.source, schema.result, schema.parameters⟩

def primitiveReplacement (schema : ProofReplacement) : CheckM Replacement := do
  let predicate ← primitiveFormula ctx step schema.predicate
  return ⟨predicate, schema.input, schema.output, schema.uniquenessWitness, schema.source,
    schema.result, schema.parameters⟩

/-- The formula of a step that refers to no other step and no other proof. -/
def deriveAxiom : ProofStep → CheckM Formula
  | .simplification antecedent consequent => do
    let antecedent ← primitiveFormula ctx step antecedent
    let consequent ← primitiveFormula ctx step consequent
    return Logic.simplification antecedent consequent
  | .frege first second third => do
    let first ← primitiveFormula ctx step first
    let second ← primitiveFormula ctx step second
    let third ← primitiveFormula ctx step third
    return Logic.frege first second third
  | .classicalContraposition antecedent consequent => do
    let antecedent ← primitiveFormula ctx step antecedent
    let consequent ← primitiveFormula ctx step consequent
    return Logic.classicalContraposition antecedent consequent
  | .universalDistribution v antecedent consequent => do
    let antecedent ← primitiveFormula ctx step antecedent
    let consequent ← primitiveFormula ctx step consequent
    return Logic.universalDistribution v antecedent consequent
  | .vacuousUniversal formula => do
    let formula ← primitiveFormula ctx step formula
    return Logic.vacuousUniversal formula
  | .universalInstantiation v r body => do
    let body ← primitiveFormula ctx step body
    return Logic.universalInstantiation v r body
  | .equalityReflexivity v => .ok (Logic.equalityReflexivity v)
  | .equalitySubstitution source target body => do
    let body ← primitiveFormula ctx step body
    return Logic.equalitySubstitution source target body
  | .zfcAxiom fixed => .ok fixed.formula
  | .separation schema => do
    preflightSchemaDepth step schema.parameters.length
    let schema ← primitiveSeparation ctx step schema
    schema.formula.mapError fun source => .error (.schema step source)
  | .replacement schema => do
    preflightSchemaDepth step schema.parameters.length
    let schema ← primitiveReplacement ctx step schema
    schema.formula.mapError fun source => .error (.schema step source)
  | .proofReference _ => .error .panic
  | .modusPonens _ _ => .error .panic
  | .generalization _ _ => .error .panic

/-- Reconstructs one step; returns it with the results and the work that are left. -/
def deriveStep (proofStep : ProofStep) (results : List (Option CheckedStep))
    (lastUses : List (Option ℕ)) (remainingWork : ℕ) :
    CheckM (DerivedStep × List (Option CheckedStep) × ℕ) :=
  match proofStep with
  | .proofReference proofId => do
    let header ← (ctx.proofHeader proofId).mapError fun source => .error (.contextAccess step source)
    let header ← orError (.error (.unknownProofReference step proofId)) header
    let remainingWork ← chargeFormulaWork step header.length remainingWork
    let formula ← (ctx.proofFormula header header.length).mapError
      fun source => .error (.contextAccess step source)
    let formula ← orError (.error (.contextAccess step .corrupt)) formula
    return (⟨formula, some header.length, some header.derivation⟩, results, remainingWork)
  | .modusPonens premise implication => do
    let premise ← result results premise
    let implication ← result results implication
    let remainingWork ← chargeFormulaWork step
      (premise.canonicalLength + implication.canonicalLength) remainingWork
    let formula ← (Logic.modusPonens premise.formula implication.formula).mapError
      fun source => .error (.logic step source)
    return (⟨formula, none, none⟩, results, remainingWork)
  | .generalization premise v => do
    let checked ← result results premise
    let remainingWork ← chargeFormulaWork step checked.canonicalLength remainingWork
    -- the result moves out of the table at its last use
    let results := if lastUses[premise]? = some (some step) then results.set premise none else results
    return (⟨Logic.generalization v checked.formula, none, none⟩, results, remainingWork)
  | proofStep => do
    let formula ← deriveAxiom ctx step proofStep
    return (⟨formula, none, none⟩, results, remainingWork)

end

section

variable (sha256 : List UInt8 → Digest)

def derivationId (step : ProofStep) (canonicalResult : List UInt8)
    (inputs : List DerivationId) : DerivationId :=
  sha256 (derivationNodeIdDomain ++ framed foundationId ++ [step.canonicalTag] ++
    framed canonicalResult ++ inputs.flatMap digestBytes)

/-- The bytes of a reconstructed formula in the chosen mode. -/
def canonicalResult (mode : IdentityMode) (f : Formula) : Except FormulaCodecError (List UInt8) :=
  match mode with
  | .omitDerivation => f.encodeCanonical
  | .derive => f.encodeFreeVariableNormalized

/-- What the checker carries from step to step. -/
structure CheckState where
  results : List (Option CheckedStep)
  derivationIds : List DerivationId
  remainingWork : ℕ
  canonicalConclusion : Option (List UInt8)

/-- The results without those whose last use is the step at `position`. -/
def release (lastUses : List (Option ℕ)) (position : ℕ) (results : List (Option CheckedStep))
    (references : List ℕ) : List (Option CheckedStep) :=
  references.foldl (fun results r =>
    if lastUses[r]? = some (some position) then results.set r none else results) results

/-- The inputs of the derivation identity. -/
def derivationInputs (step : ProofStep) (derivationIds : List DerivationId) :
    CheckM (List DerivationId) :=
  step.references.mapM fun r => orError .panic derivationIds[r]?

/-- The length of a result and the work left after charging it, unless it was charged
before it was read. -/
def chargeResult (position : ℕ) (derived : DerivedStep) (canonical : Option (List UInt8))
    (remainingWork : ℕ) : CheckM (ℕ × ℕ) :=
  match derived.prechargedLength with
  | some length => .ok (length, remainingWork)
  | none => do
    let bytes ← orError .panic canonical
    let remainingWork ← chargeFormulaWork position bytes.length remainingWork
    return (bytes.length, remainingWork)

/-- The derivation identities after one more step. -/
def recordDerivation (mode : IdentityMode) (step : ProofStep) (derived : DerivedStep)
    (canonical : Option (List UInt8)) (derivationIds : List DerivationId) :
    CheckM (List DerivationId) :=
  match mode, derived.referencedDerivationId with
  | .omitDerivation, _ => .ok derivationIds
  | .derive, some id => .ok (derivationIds ++ [id])
  | .derive, none => do
    let bytes ← orError .panic canonical
    let inputs ← derivationInputs step derivationIds
    return derivationIds ++ [derivationId sha256 step bytes inputs]

/-- The canonical bytes of a result that is charged now or ends the certificate. -/
def encodeResult (mode : IdentityMode) (position finalStep : ℕ) (derived : DerivedStep) :
    CheckM (Option (List UInt8)) :=
  if derived.prechargedLength.isNone ∨ position = finalStep then
    (canonicalResult mode derived.formula).map some |>.mapError
      fun source => .error (.derivedFormula position source)
  else .ok none

def checkStep (ctx : ContextView) (mode : IdentityMode) (steps : List ProofStep)
    (s : CheckState) (step : ProofStep × ℕ) : CheckM CheckState := do
  let position := step.2
  let finalStep := steps.length - 1
  let (derived, results, remainingWork) ←
    deriveStep ctx position step.1 s.results (lastUses steps) s.remainingWork
  let results := release (lastUses steps) position results step.1.references
  let canonical ← encodeResult mode position finalStep derived
  let (canonicalLength, remainingWork) ← chargeResult position derived canonical remainingWork
  let derivationIds ← recordDerivation sha256 mode step.1 derived canonical s.derivationIds
  let retain := position = finalStep ∨ (lastUses steps)[position]?.bind id ≠ none
  return {
    results := results ++ [if retain then some ⟨derived.formula, canonicalLength⟩ else none]
    derivationIds
    remainingWork
    canonicalConclusion := if position = finalStep then canonical else s.canonicalConclusion }

/-- An accepted certificate with the formula work that was left over. -/
structure CheckOutcome where
  conclusion : Formula
  canonical : List UInt8
  derivationId : Option DerivationId
  remainingWork : ℕ

/-- The checking loop and its closing checks. -/
def checkSteps (certificate : ProofCertificate) (ctx : ContextView) (mode : IdentityMode) :
    CheckM CheckOutcome := do
  let steps := certificate.steps
  require (steps ≠ []) .panic
  let finalStep := steps.length - 1
  let s ← steps.zipIdx.foldlM (checkStep sha256 ctx mode steps)
    ⟨[], [], checkerMaxFormulaWorkBytes, none⟩
  let checked ← orError .panic (s.results.getLast?.bind id)
  let remainingWork ← chargeFormulaWork finalStep checked.canonicalLength s.remainingWork
  require (checked.formula.isClosed = true) (.error (.openConclusion finalStep))
  let canonical ← orError .panic s.canonicalConclusion
  return ⟨checked.formula, canonical,
    match mode with
    | .derive => s.derivationIds.getLast?
    | .omitDerivation => none, remainingWork⟩

def checkWithDiagnosticQuery (certificate : ProofCertificate) (ctx : ContextView)
    (mode : IdentityMode) : CheckM (Formula × List UInt8 × Option DerivationId) := do
  let outcome ← checkSteps sha256 certificate ctx mode
  return (outcome.conclusion, outcome.canonical, outcome.derivationId)

def statementId (canonicalConclusion : List UInt8) : StatementId :=
  sha256 (statementIdDomain ++ framed foundationId ++ framed canonicalConclusion)

def proofId (statement : StatementId) (canonicalCertificate : List UInt8) : ProofId :=
  sha256 (proofIdDomain ++ framed foundationId ++ digestBytes statement ++
    framed canonicalCertificate)

end

end Checker

/-- A normalized proof accepted by the checker. -/
structure CheckedProof where
  normalForm : ProofNormalForm
  conclusion : Formula
  statementId : StatementId
  derivationId : DerivationId
  proofId : ProofId
  canonicalConclusionLength : ℕ
  contextSnapshot : Digest
  closed : conclusion.isClosed = true

namespace Checker

theorem checkSteps_closed {sha256 : List UInt8 → Digest} {ctx : ContextView}
    {certificate : ProofCertificate} {mode : IdentityMode} {outcome : CheckOutcome}
    (h : checkSteps sha256 certificate ctx mode = .ok outcome) :
    outcome.conclusion.isClosed = true := by
  simp only [checkSteps, bind_eq_ok, require_eq_ok, exists_const, orError_eq_ok, pure_eq_ok] at h
  obtain ⟨-, s, -, checked, -, _, -, hclosed, _, -, rfl⟩ := h
  exact hclosed

theorem checkWithDiagnosticQuery_closed {sha256 : List UInt8 → Digest} {ctx : ContextView}
    {certificate : ProofCertificate} {mode : IdentityMode}
    {r : Formula × List UInt8 × Option DerivationId}
    (h : checkWithDiagnosticQuery sha256 certificate ctx mode = .ok r) : r.1.isClosed = true := by
  obtain ⟨outcome, houtcome, h⟩ := bind_eq_ok.mp h
  cases pure_eq_ok.mp h
  exact checkSteps_closed houtcome

section

variable (sha256 : List UInt8 → Digest)

def checkNormalFormWithState (normalForm : ProofNormalForm) (ctx : ContextView) :
    CheckM CheckedProof :=
  match h : checkWithDiagnosticQuery sha256 normalForm.certificate ctx .derive with
  | .error stop => .error stop
  | .ok (conclusion, canonicalConclusion, derivationId) => do
    let derivationId ← orError .panic derivationId
    require (canonicalConclusion.length < 2 ^ 32) .panic
    let statementId := statementId sha256 canonicalConclusion
    let canonicalCertificate ← normalForm.canonicalBytes.mapError fun _ => .panic
    require (canonicalCertificate.length < 2 ^ 32) .panic
    return {
      normalForm
      conclusion
      statementId
      derivationId
      proofId := proofId sha256 statementId canonicalCertificate
      canonicalConclusionLength := canonicalConclusion.length
      contextSnapshot := ctx.snapshotId
      closed := checkWithDiagnosticQuery_closed h }

def normalizeAndCheckWithState (certificate : ProofCertificate) (ctx : ContextView) :
    CheckM CheckedProof := do
  let normalForm ← certificate.intoUncheckedNormalForm.mapError fun _ => .panic
  checkNormalFormWithState sha256 normalForm ctx

end

end Checker
end Naome
