import Naome.ProgramStaging
import Naome.Checker
import Naome.Artifact

/-!
# Stored artifacts

The canonical payload of an artifact with its typed identities, as the catalog stores it. The
identity of a payload is recomputed from its bytes; no record grants mathematical validity.
-/
namespace Naome
open Outcome ByteCursor Program

inductive KnowledgeError
  | message (text : String)
  | inputLimit (text : String)
  | certificateFormat (reason : Stop ProofCertificateError)
  | definitionFormat (reason : DefinitionCertificateError)
  | staging (reason : StagingError)
  | deadline
  | staleAuthority
  /-- A violated constraint of a table or a row that is missing. -/
  | corruptStorage
  | uncertainDurability
  deriving DecidableEq

abbrev KnowledgeM := Except KnowledgeError

/-- The first bytes of the payload of a program. -/
def manifestMagic : List UInt8 := 0xff :: asciiBytes "NAOP" ++ [0]

def codecId : List UInt8 := asciiBytes "naome:artifact-codec"

def checkerId : List UInt8 := asciiBytes "naome:zfc-checker"

def graphPolicyId : List UInt8 := asciiBytes "naome:knowledge:artifacts"

/-- Canonical payload and typed identities. -/
structure BinaryArtifact where
  id : ArtifactId
  statement : Option StatementId
  obligation : Option ProofId
  bytes : List UInt8
  dependencies : Finset ArtifactId
  deriving DecidableEq

section

variable (sha256 : List UInt8 → Digest)

def compatibility : Digest :=
  sha256 (asciiBytes "naome:knowledge:compatibility" ++ [0] ++
    ([foundationId, codecId, checkerId, graphPolicyId].map framed).flatten)

/-- The artifact address of the bytes of a normal form. -/
def contentId (statement : StatementId) (bytes : List UInt8) : KnowledgeM ArtifactId := do
  require (bytes.length < 2 ^ 32) (.certificateFormat .panic)
  return KnowledgeIndex.artifactIdOfProof sha256 (Checker.proofId sha256 statement bytes)

variable (serde : Serialization)

omit sha256 in
def programManifest (bytes : List UInt8) : KnowledgeM (Option Manifest) :=
  if bytes.head? = some 0xff then do
    require (manifestMagic <+: bytes) (.message "unknown program payload format")
    let manifest ← (Manifest.fromCanonicalBytes serde (bytes.drop manifestMagic.length)).mapError
      .message
    require (manifest.commands < i64Limit ∧ manifest.inputBytes < i64Limit)
      (.message "invalid canonical program manifest")
    return some manifest
  else .ok none

def recordContentId (statement : Option StatementId) (bytes : List UInt8) :
    KnowledgeM ArtifactId := do
  match ← programManifest serde bytes with
  | some manifest =>
    require (some manifest.statement = statement) (.message "program statement binding differs")
    return manifest.artifactId sha256
  | none =>
    match bytes with
    | [] => .error (.message "unknown artifact payload")
    | tag :: payload =>
      if tag = ArtifactPayload.proofTag then
        let statement ← orError (.message "proof statement missing") statement
        contentId sha256 statement payload
      else if tag = ArtifactPayload.definitionTag then
        require (statement = none) (.message "definition has a statement claim")
        let certificate ←
          (DefinitionCertificate.fromCanonicalBytes sha256 payload).mapError .definitionFormat
        return KnowledgeIndex.artifactIdOfDefinition sha256 certificate.definitionId
      else .error (.message "unknown artifact payload")

/-- The artifacts that a proof cites. -/
def citedArtifacts (steps : List ProofStep) : Finset ArtifactId :=
  (steps.flatMap fun step =>
    step.definitionReferences.map (KnowledgeIndex.artifactIdOfDefinition sha256) ++
      match step with
      | .proofReference proofId => [KnowledgeIndex.artifactIdOfProof sha256 proofId]
      | _ => []).toFinset

def dependenciesWithLimit (id : ArtifactId) (normal : ProofNormalForm) (maximum : ℕ) :
    KnowledgeM (Finset ArtifactId) := do
  let dependencies := citedArtifacts sha256 normal.certificate.steps
  require (dependencies.card ≤ maximum) (.inputLimit "dependency count limit")
  require (id ∉ dependencies) (.message "dependency cycle")
  return dependencies

inductive CandidatePayload
  | proof (normal : ProofNormalForm)
  | definition (certificate : DefinitionCertificate)

/-- Parsed syntax of an artifact. -/
structure Candidate where
  id : ArtifactId
  statement : Option StatementId
  obligation : Option ProofId
  payload : CandidatePayload
  dependencies : Finset ArtifactId
  bytes : List UInt8

def Candidate.record (c : Candidate) : BinaryArtifact :=
  ⟨c.id, c.statement, c.obligation, c.bytes, c.dependencies⟩

def candidatePayload (obligation : Option ProofId) (bytes : List UInt8) :
    KnowledgeM CandidatePayload :=
  match bytes with
  | [] => .error (.message "unknown artifact payload")
  | tag :: payload =>
    if tag = ArtifactPayload.proofTag then do
      require (obligation = none) (.message "proof has definition obligation metadata")
      let certificate ← (ProofCertificate.fromCanonicalBytes payload).mapError .certificateFormat
      let normal ← certificate.intoUncheckedNormalForm.mapError .certificateFormat
      let canonical ← normal.canonicalBytes.mapError .certificateFormat
      require (canonical = payload) (.message "non-normal proof bytes")
      return .proof normal
    else if tag = ArtifactPayload.definitionTag then do
      let definition ←
        (DefinitionCertificate.fromCanonicalBytes sha256 payload).mapError .definitionFormat
      let function := match definition.kind with
        | .function _ => true
        | .relation _ => false
      require (function = obligation.isSome) (.message "definition obligation witness binding differs")
      return .definition definition
    else .error (.message "unknown artifact payload")

/-- The address that the parsed payload has. -/
def reconstructedId (statement : Option StatementId) : CandidatePayload → KnowledgeM ArtifactId
  | .proof normal => do
    let statement ← orError (.message "proof statement missing") statement
    let canonical ← normal.canonicalBytes.mapError .certificateFormat
    contentId sha256 statement canonical
  | .definition certificate => do
    require (statement = none) (.message "definition has a statement claim")
    return KnowledgeIndex.artifactIdOfDefinition sha256 certificate.definitionId

def candidateDependencies (id : ArtifactId) (obligation : Option ProofId) (maximum : ℕ) :
    CandidatePayload → KnowledgeM (Finset ArtifactId)
  | .proof normal => dependenciesWithLimit sha256 id normal maximum
  | .definition _ =>
    .ok (obligation.map (KnowledgeIndex.artifactIdOfProof sha256)).toFinset

def prepareCandidate (id : ArtifactId) (statement : Option StatementId)
    (obligation : Option ProofId) (bytes : List UInt8) (maximumDependencies : ℕ) :
    KnowledgeM Candidate := do
  let payload ← candidatePayload sha256 obligation bytes
  let reconstructed ← reconstructedId sha256 statement payload
  require (reconstructed = id) (.message "claimed artifact ID mismatch")
  let dependencies ← candidateDependencies sha256 id obligation maximumDependencies payload
  require (dependencies.card ≤ maximumDependencies) (.inputLimit "dependency count limit")
  return ⟨id, statement, obligation, payload, dependencies, bytes⟩

namespace BinaryArtifact

/-- The manifest of a program; other payloads have none. -/
def program (object : BinaryArtifact) : KnowledgeM (Option Manifest) := do
  match ← programManifest serde object.bytes with
  | none => return none
  | some manifest =>
    require (manifest.artifactId sha256 = object.id ∧ some manifest.statement = object.statement ∧
      object.obligation = none ∧ object.dependencies = ∅)
      (.message "canonical program identity differs")
    return some manifest

def prepareWithLimits (object : BinaryArtifact) (maximum maximumDependencies : ℕ) :
    KnowledgeM Candidate := do
  require (object.bytes.length ≤ maximum) (.inputLimit "artifact byte limit")
  let candidate ← prepareCandidate sha256 object.id object.statement object.obligation object.bytes
    maximumDependencies
  require (candidate.dependencies = object.dependencies)
    (.message "artifact dependency metadata differs")
  return candidate

def prepareRetained (object : BinaryArtifact) : KnowledgeM Candidate :=
  object.prepareWithLimits sha256 artifactPayloadMaxBytes certificateMaxSteps

end BinaryArtifact
end
end Naome
