import Naome.KnowledgeIndex
import Naome.ProofDecode
import Naome.QuestionWork

/-!
# Planned certificates

A plan collects steps with the lengths of their formulas, and adds up what their certificate and
its check will cost. It is turned into a checked certificate only after this cost was reserved.
-/
namespace Naome
open Outcome ProofCodec

namespace ProofCodec

/-- The length of one encoded step. -/
def stepEncodedLength (step : ProofStep) : CodecM ℕ := do
  let s ← encodeStepWithFormulaBudget step ⟨[], certificateMaxFormulaNodes⟩
  ensureWithinByteLimit s.output.length
  return s.output.length

end ProofCodec

def ProofStep.citedProof : ProofStep → Option ProofId
  | .proofReference proofId => some proofId
  | _ => none

namespace Question
open Effect

structure PlannedStep where
  step : ProofStep
  length : ℕ
  deriving DecidableEq

structure Program where
  steps : List PlannedStep

structure Plan where
  steps : List PlannedStep
  encodedBytes : ℕ
  checkerWork : ℕ
  references : DigestMap ℕ

/-- A checked temporary derivation with the proofs it cites. -/
structure DeductionWitness where
  proof : ProofId
  originalProofs : List ProofId
  certificate : List UInt8
  deriving DecidableEq

def contextFailure : ContextError → Failure
  | .limit => .limit
  | _ => .invalid

/-- A failed check as a rejection: an exhausted limit is no evidence against the proof. -/
def checkerFailure : CheckErrorKind → Failure
  | .formulaWorkLimitExceeded _ _ _ => .limit
  | .derivedFormula _ _ => .limit
  | .contextAccess _ .limit => .limit
  | _ => .invalid

/-- A certificate that cannot be built: an exhausted limit or malformed steps. -/
def constructionFailure : ProofCertificateError → Failure
  | .tooManySteps _ _ => .limit
  | .inputTooLong _ _ => .limit
  | .formulaNodeLimitExceeded _ => .limit
  | .formula _ => .limit
  | .definedFormula _ => .limit
  | _ => .invalid

/-- A result without effects. -/
def WorkM.ofExcept {α : Type} (x : Except (Stop Failure) α) : WorkM α := ⟨fun w => (x, w)⟩

/-- The header of a cited proof. -/
def citedHeader (ctx : ContextView) (proofId : ProofId) : Except (Stop Failure) ProofHeader := do
  let header ← (ctx.proofHeader proofId).mapError fun e => .error (contextFailure e)
  orError Work.invalid header

namespace Plan

def intoProgram (plan : Plan) : Program := ⟨plan.steps⟩

def new : Plan := ⟨[], 4, 0, ∅⟩

/-- The length planned for an earlier step. -/
def lengthAt (plan : Plan) (position : ℕ) : WorkM ℕ :=
  orThrow .panic (plan.steps[position]?.map PlannedStep.length)

section

variable (sizes : MemorySizes)

def push (plan : Plan) (step : ProofStep) (length encoded checkerWork : ℕ) : WorkM (Plan × ℕ) := do
  let count := plan.steps.length + 1
  let bytes := plan.encodedBytes + encoded
  Work.certificateLimits count bytes
  let totalWork := plan.checkerWork + checkerWork
  Effect.require (totalWork ≤ checkerMaxFormulaWorkBytes) Work.limit
  Work.charge (sizes.plannedStep * 4 + 128)
  Effect.require (plan.steps.length < 2 ^ 32) Work.limit
  return (⟨plan.steps ++ [⟨step, length⟩], bytes, totalWork, plan.references⟩, plan.steps.length)

def reference (ctx : ContextView) (plan : Plan) (proofId : ProofId) : WorkM (Plan × ℕ) := do
  Work.index
  match plan.references[proofId]? with
  | some index => return (plan, index)
  | none => do
    Effect.forEach (fun _ => Work.index) [0, 1, 2]
    let proof ← WorkM.ofExcept (citedHeader ctx proofId)
    let (plan, index) ← plan.push sizes (.proofReference proofId) proof.length 33 proof.length
    return ({ plan with references := plan.references.insert proofId index }, index)

def modusPonens (plan : Plan) (premise implication length : ℕ) : WorkM (Plan × ℕ) := do
  let premiseLength ← plan.lengthAt premise
  let implicationLength ← plan.lengthAt implication
  plan.push sizes (.modusPonens premise implication) length 9
    (premiseLength + implicationLength + length)

def axiomStep (plan : Plan) (step : ProofStep) (length : ℕ) : WorkM (Plan × ℕ) := do
  Effect.require (step.references = []) Work.invalid
  Work.formula length 8
  let encoded ← WorkM.ofExcept ((stepEncodedLength step).mapError (Stop.map fun _ => .limit))
  plan.push sizes step length encoded length

def generalize (plan : Plan) (premise : ℕ) (v : FreeVariable) : WorkM (Plan × ℕ) := do
  let previous ← plan.lengthAt premise
  let length := previous + 1
  plan.push sizes (.generalization premise v) length 9 (previous + length)

/-- Adds one step of a program, whose references are positions of the program. -/
def appendEntry (ctx : ContextView) (plan : Plan) (remapped : List ℕ) (entry : PlannedStep) :
    WorkM (Plan × ℕ) :=
  match entry.step with
  | .proofReference proofId => plan.reference sizes ctx proofId
  | .modusPonens premise implication => do
    let premise ← orThrow .panic remapped[premise]?
    let implication ← orThrow .panic remapped[implication]?
    plan.modusPonens sizes premise implication entry.length
  | .generalization premise v => do
    let premise ← orThrow .panic remapped[premise]?
    plan.generalize sizes premise v
  | step => do
    Work.formula entry.length 8
    plan.axiomStep sizes step entry.length

def appendStep (ctx : ContextView) (s : Plan × List ℕ) (entry : PlannedStep) :
    WorkM (Plan × List ℕ) := do
  let (plan, position) ← appendEntry sizes ctx s.1 s.2 entry
  let length ← plan.lengthAt position
  Effect.require (length = entry.length) Work.invalid
  return (plan, s.2 ++ [position])

def append (ctx : ContextView) (plan : Plan) (program : Program) : WorkM (Plan × ℕ) := do
  Work.charge (program.steps.length * 8)
  let (plan, remapped) ← program.steps.foldlM (appendStep sizes ctx) (plan, [])
  let root ← orThrow Work.invalid remapped.getLast?
  return (plan, root)

end

end Plan

namespace Deduction

/-- Builds, normalizes and checks a certificate that was paid for. -/
def checkReserved (sha256 : List UInt8 → Digest) (ctx : ContextView) (steps : List ProofStep)
    (target : Formula) : Except (Stop Failure) DeductionWitness := do
  let certificate ← (ProofCertificate.new steps).mapError (Stop.map constructionFailure)
  let checked ← (Checker.normalizeAndCheckWithState sha256 certificate ctx).mapError
    (Stop.map checkerFailure)
  Outcome.require (checked.conclusion = target) Work.invalid
  let originalProofs := checked.normalForm.certificate.steps.filterMap ProofStep.citedProof
  let certificate ← checked.normalForm.canonicalBytes.mapError fun _ => .panic
  return ⟨checked.proofId, (Std.TreeSet.ofList originalProofs).toList, certificate⟩

end Deduction

section

variable (sizes : MemorySizes) (sha256 : List UInt8 → Digest) (ctx : ContextView)

/-- The work of checking a plan: that of its steps and of its conclusion. -/
def Plan.finalWork (plan : Plan) : Except (Stop Failure) ℕ := do
  let last ← orError Work.invalid plan.steps.getLast?
  return plan.checkerWork + last.length

def Plan.finish (plan : Plan) (target : Formula) : WorkM DeductionWitness := do
  let checkerWork ← WorkM.ofExcept plan.finalWork
  Work.reserveCertificate sizes plan.steps.length plan.encodedBytes checkerWork plan.references.size
  WorkM.ofExcept (Deduction.checkReserved sha256 ctx (plan.steps.map PlannedStep.step) target)

end

namespace Deduction

section

variable (sizes : MemorySizes) (sha256 : List UInt8 → Digest) (ctx : ContextView)

/-- What the references of a list cost before it is measured: the longest cited conclusion and the
number of citations. -/
def measureReference (s : ℕ × ℕ) (step : ProofStep) : WorkM (ℕ × ℕ) :=
  match step with
  | .proofReference proofId => do
    Effect.forEach (fun _ => Work.index) [0, 1, 2]
    let proof ← WorkM.ofExcept (citedHeader ctx proofId)
    return (max s.1 proof.length, s.2 + 1)
  | _ => return s

/-- The totals of the steps measured so far. -/
structure Measure where
  lengths : List ℕ
  encoded : ℕ
  formulaWork : ℕ
  bodyNodes : ℕ

def primitiveBody : ProofFormula → WorkM Formula
  | .primitive body => Pure.pure body
  | .defined _ _ => Effect.throw Work.invalid

/-- Bounds the length, the bytes and the work of one step from those of earlier steps; the last
component counts the nodes of the embedded formulas. -/
def boundStep (maxReference : ℕ) (s : Measure) : ProofStep → WorkM (ℕ × ℕ × ℕ × ℕ)
  | .proofReference proofId => do
    let proof ← WorkM.ofExcept (citedHeader ctx proofId)
    return (proof.length, 33, proof.length, s.bodyNodes)
  | .universalInstantiation _ _ body => do
    Work.formula maxReference 8
    let body ← primitiveBody body
    let (bytes, nodes) ← WorkM.ofExcept
      ((body.encodeCanonicalWithNodeLimit certificateMaxFormulaNodes).mapError fun _ => Work.limit)
    Effect.require (¬ (certificateMaxFormulaNodes < s.bodyNodes + nodes ∨
      maxReference < bytes.length)) Work.limit
    let length := bytes.length * 2 + 2
    return (length, bytes.length + 13, length, s.bodyNodes + nodes)
  | .modusPonens premise implication => do
    let premise ← orThrow Work.invalid s.lengths[premise]?
    let implication ← orThrow Work.invalid s.lengths[implication]?
    return (implication, 9, premise + implication * 2, s.bodyNodes)
  | .generalization premise _ => do
    let premise ← orThrow Work.invalid s.lengths[premise]?
    return (premise + 1, 9, premise + (premise + 1), s.bodyNodes)
  | _ => Effect.throw Work.invalid

def measureStep (maxReference : ℕ) (s : Measure) (step : ProofStep) : WorkM Measure := do
  let (length, bytes, cost, bodyNodes) ← boundStep ctx maxReference s step
  return ⟨s.lengths ++ [length], s.encoded + bytes, s.formulaWork + cost, bodyNodes⟩

/-- The measure of a whole list, the work for the target included, and its citations. -/
def measureSteps (steps : List ProofStep) (target : Formula) : WorkM (Measure × ℕ) := do
  Work.certificateLimits steps.length 4
  Work.charge (steps.length * 64)
  let (maxReference, referenceCount) ← steps.foldlM (measureReference ctx) (0, 0)
  let measure ← steps.foldlM (measureStep ctx maxReference) ⟨[], 4, 0, 0⟩
  let target ← WorkM.ofExcept (target.encodeCanonical.mapError fun _ => Work.limit)
  return ({ measure with formulaWork := measure.formulaWork + target.length }, referenceCount)

def checkSteps (steps : List ProofStep) (target : Formula) : WorkM DeductionWitness := do
  let (measure, references) ← measureSteps ctx steps target
  Work.reserveCertificate sizes steps.length measure.encoded measure.formulaWork references
  WorkM.ofExcept (checkReserved sha256 ctx steps target)

end

end Deduction
end Question
end Naome
