import Naome.ProofStep

/-!
# The certificate codec

Steps are written as a tag and their fields; formulas carry a length and share one node
budget for the whole certificate. Assertions of the source that stop the process are
`Stop.panic` here.
-/
namespace Naome
open LocallyNameless Outcome ByteCursor

def certificateMaxBytes : ℕ := 4194304

def certificateMaxSteps : ℕ := 65536

def certificateMaxFormulaNodes : ℕ := formulaMaxNodes

inductive ProofCertificateError
  | emptyCertificate
  | tooManySteps (actual maximum : ℕ)
  | inputTooLong (actual maximum : ℕ)
  | referenceNotEarlier (step reference : ℕ)
  | unexpectedEnd
  | unknownStepTag (tag : UInt8)
  | unknownZfcAxiomTag (tag : UInt8)
  | formulaNodeLimitExceeded (maximum : ℕ)
  | formula (reason : FormulaCodecError)
  | definedFormula (reason : DefinedFormulaCodecError)
  | trailingBytes (remaining : ℕ)
  deriving DecidableEq, Repr

/-- The result of a codec function: a value, a reported error or a violated assertion. -/
abbrev CodecM := Except (Stop ProofCertificateError)

namespace ProofCodec

def mapProofFormulaError : ProofFormulaCodecError → ProofCertificateError
  | .primitive (.nodeLimitExceeded _) => .formulaNodeLimitExceeded certificateMaxFormulaNodes
  | .primitive reason => .formula reason
  | .defined (.codec (.nodeLimitExceeded _)) => .formulaNodeLimitExceeded certificateMaxFormulaNodes
  | .defined reason => .definedFormula reason

def ensureWithinByteLimit (actual : ℕ) : CodecM Unit :=
  require (actual ≤ certificateMaxBytes) (.error (.inputTooLong actual certificateMaxBytes))

/-- The written bytes and the formula nodes that are left. -/
@[ext]
structure Sink where
  output : List UInt8
  remainingFormulaNodes : ℕ

def Sink.extend (s : Sink) (bytes : List UInt8) : Sink := { s with output := s.output ++ bytes }

def writeFormula (f : ProofFormula) (s : Sink) : CodecM Sink := do
  let (bytes, usedNodes) ← (f.encodeCanonicalWithNodeLimit s.remainingFormulaNodes).mapError
    fun e => .error (mapProofFormulaError e)
  require (usedNodes ≤ s.remainingFormulaNodes) .panic
  require (bytes.length < 2 ^ 32) .panic
  ensureWithinByteLimit (s.output.length + (4 + bytes.length))
  return ⟨s.output ++ framed bytes, s.remainingFormulaNodes - usedNodes⟩

def writeVariables (vs : List FreeVariable) (s : Sink) : CodecM Sink := do
  ensureWithinByteLimit (s.output.length + (vs.length * 4 + 4))
  require (vs.length < 2 ^ 32) .panic
  return s.extend (u32Bytes vs.length ++ vs.flatMap fun v => u32Bytes v.identifier.toNat)

def writeField (s : Sink) : StepField → CodecM Sink
  | .formula f => writeFormula f s
  | .freeVariable v => .ok (s.extend (u32Bytes v.identifier.toNat))
  | .freeVariables vs => writeVariables vs s
  | .zfcAxiom fixed => .ok (s.extend [encodeZfcAxiom fixed])
  | .proofId id => .ok (s.extend (digestBytes id))
  | .reference position => .ok (s.extend (u32Bytes position))

def encodeStepWithFormulaBudget (step : ProofStep) (s : Sink) : CodecM Sink :=
  step.fields.foldlM writeField (s.extend [step.canonicalTag])

/-- The bytes of one step with a budget of its own. -/
def encodeStep (step : ProofStep) : CodecM (List UInt8) :=
  (encodeStepWithFormulaBudget step ⟨[], certificateMaxFormulaNodes⟩).map Sink.output

def encodeStepsInto (steps : List ProofStep) : CodecM Sink := do
  require (steps.length < 2 ^ 32) .panic
  steps.foldlM (fun s step => do
      let s ← encodeStepWithFormulaBudget step s
      ensureWithinByteLimit s.output.length
      return s)
    ⟨u32Bytes steps.length, certificateMaxFormulaNodes⟩

def encodeSteps (steps : List ProofStep) : CodecM (List UInt8) :=
  (encodeStepsInto steps).map Sink.output

def validateStepsEncoding (steps : List ProofStep) : CodecM Unit :=
  (encodeStepsInto steps).map fun _ => ()

def validateReference (step reference : ℕ) : CodecM Unit :=
  require (reference < step) (.error (.referenceNotEarlier step reference))

def validateStepReferences (position : ℕ) (step : ProofStep) : CodecM Unit :=
  step.references.forM (validateReference position)

def validateSteps (steps : List ProofStep) : CodecM Unit := do
  require (steps ≠ []) (.error .emptyCertificate)
  require (steps.length ≤ certificateMaxSteps)
    (.error (.tooManySteps steps.length certificateMaxSteps))
  steps.zipIdx.forM fun p => validateStepReferences p.2 p.1

def unexpectedEnd : Stop ProofCertificateError := .error .unexpectedEnd

def readFormula (bytes : List UInt8) (remaining : ℕ) :
    CodecM (ProofFormula × List UInt8 × ℕ) := do
  let (length, bytes) ← readU32 unexpectedEnd bytes
  let (formulaBytes, bytes) ← take unexpectedEnd length bytes
  let (formula, usedNodes) ← (ProofFormula.decodeCanonicalWithNodeLimit formulaBytes
    remaining).mapError fun e => .error (mapProofFormulaError e)
  require (usedNodes ≤ remaining) .panic
  return (formula, bytes, remaining - usedNodes)

def readVariable (bytes : List UInt8) : CodecM (FreeVariable × List UInt8) := do
  let (value, bytes) ← readU32 unexpectedEnd bytes
  return (⟨UInt32.ofNat value⟩, bytes)

def readVariables (bytes : List UInt8) : CodecM (List FreeVariable × List UInt8) := do
  let (count, bytes) ← readU32 unexpectedEnd bytes
  require (count ≤ bytes.length / 4) unexpectedEnd
  readMany readVariable count bytes

def decodeZfcAxiom (tag : UInt8) : CodecM ZfcAxiom :=
  if tag = 0x00 then .ok .extensionality
  else if tag = 0x01 then .ok .pairing
  else if tag = 0x02 then .ok .union
  else if tag = 0x03 then .ok .powerSet
  else if tag = 0x04 then .ok .infinity
  else if tag = 0x05 then .ok .foundation
  else if tag = 0x06 then .ok .choice
  else .error (.error (.unknownZfcAxiomTag tag))

end ProofCodec

/-- A proof program. The final step is the root and claimed conclusion. -/
@[ext]
structure ProofCertificate where
  steps : List ProofStep
  deriving DecidableEq

namespace ProofCertificate
open ProofCodec

def new (steps : List ProofStep) : CodecM ProofCertificate := do
  validateSteps steps
  validateStepsEncoding steps
  return ⟨steps⟩

/-- The canonical bytes. The source asserts that encoding succeeds. -/
def toCanonicalBytes (c : ProofCertificate) : CodecM (List UInt8) :=
  (encodeSteps c.steps).mapError fun _ => .panic

end ProofCertificate
end Naome
