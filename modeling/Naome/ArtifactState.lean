import Naome.KnowledgeIndex

/-!
# Selected artifacts

The checked proofs and definitions of one mathematical context in memory, with the checks
that guard their registration. A registration never replaces what is stored.
-/
namespace Naome
open LocallyNameless Outcome ByteCursor

namespace Fingerprint

section

variable (sha256 : List UInt8 → Digest)

def leaf (key : Digest) : Digest :=
  sha256 (asciiBytes "naome:checked-map:leaf:v1" ++ [0] ++ digestBytes key)

def branch (bit : ℕ) (left right : Digest) : Digest :=
  sha256 (asciiBytes "naome:checked-map:branch:v1" ++ [0] ++ [UInt8.ofNat bit] ++
    digestBytes left ++ digestBytes right)

/-- The first bit, from the most significant one, in which two keys differ. -/
def firstDifferingBit (a b : Digest) : ℕ := 255 - Nat.log2 (a ^^^ b).toNat

/-- Closes the pending branches at or below a bit. -/
def close (bit : ℕ) : List (ℕ × Digest) → Digest → List (ℕ × Digest) × Digest
  | [], current => ([], current)
  | (level, left) :: pending, current =>
    if bit ≤ level then close bit pending (branch sha256 level left current)
    else ((level, left) :: pending, current)

/-- The branches over the remaining ascending keys. -/
def fingerprintFrom (previous : Digest) (pending : List (ℕ × Digest)) (current : Digest) :
    List Digest → Digest
  | [] => (close sha256 0 pending current).2
  | key :: keys =>
    let bit := firstDifferingBit previous key
    let (pending, current) := close sha256 bit pending current
    fingerprintFrom key ((bit, current) :: pending) (leaf sha256 key) keys

/-- The fingerprint of a set of keys in ascending order. -/
def ofKeys : List Digest → Digest
  | [] => 0
  | key :: keys => fingerprintFrom sha256 key [] (leaf sha256 key) keys

end

end Fingerprint

inductive ArtifactStateError
  | context (source : ContextError)
  | duplicateProof (proofId : ProofId)
  | duplicateDerivation (derivationId : DerivationId)
  | proofIdentityCollision (proofId : ProofId)
  | derivationIdentityCollision (derivationId : DerivationId)
  | statementIdentityCollision (statementId : StatementId)
  | duplicateDefinition (definitionId : DefinitionId)
  | definitionIdentityCollision (definitionId : DefinitionId)
  | missingProofDependency (proofId : ProofId)
  | missingDefinitionDependency (definitionId : DefinitionId)
  | missingDefinitionObligation (statementId : StatementId)
  deriving DecidableEq, Repr

/-- The result of a registration: a new state, a refusal or a violated assertion. -/
abbrev RegisterM := Except (Stop ArtifactStateError)

structure CheckedDefinitionObligation where
  statementId : StatementId
  conclusion : Formula

structure CheckedDefinition where
  certificate : DefinitionCertificate
  definitionId : DefinitionId
  obligation : Option CheckedDefinitionObligation

structure StoredStatement where
  conclusion : Formula
  canonicalLength : ℕ
  closed : conclusion.isClosed = true

structure ArtifactState where
  proofs : DigestMap DerivationId
  derivations : DigestMap StatementId
  statements : DigestMap StoredStatement
  definitions : DigestMap DefinitionCertificate
  questionIndex : KnowledgeIndex

/-- What registration reads beyond a view. -/
structure RegistrationView where
  view : ContextView
  hasProof : ProofId → Except ContextError Bool
  derivationStatement : DerivationId → Except ContextError (Option StatementId)

namespace Registration

def access {α : Type} (x : Except ContextError α) : RegisterM α :=
  x.mapError fun source => .error (.context source)

def sameStatement (state : RegistrationView) (proof : CheckedProof) : RegisterM Unit := do
  let stored ← access (state.view.statementFormula proof.statementId checkerMaxFormulaWorkBytes)
  require (∀ f ∈ stored, f = proof.conclusion)
    (.error (.statementIdentityCollision proof.statementId))

/-- The proof that a step cites is selected. -/
def validateReference (state : RegistrationView) : ProofStep → RegisterM Unit
  | .proofReference proofId => do
    let known ← access (state.hasProof proofId)
    require (known = true) (.error (.missingProofDependency proofId))
  | _ => .ok ()

/-- The definitions that a step cites are selected. -/
def validateDefinitions (state : RegistrationView) (step : ProofStep) : RegisterM Unit :=
  step.definitionReferences.forM fun definitionId => do
    let certificate ← access (state.view.definitionCertificate definitionId)
    require (certificate.isSome = true) (.error (.missingDefinitionDependency definitionId))

def validateDependencies (state : RegistrationView) (steps : List ProofStep) : RegisterM Unit :=
  steps.forM fun step => do
    validateReference state step
    validateDefinitions state step

/-- The refusal of a proof whose identity is already registered. -/
def refuseKnown (state : RegistrationView) (proof : CheckedProof) (header : ProofHeader) :
    RegisterM Unit := do
  require (header.derivation = proof.derivationId ∧ header.statement = proof.statementId)
    (.error (.proofIdentityCollision proof.proofId))
  sameStatement state proof
  .error (.error (.duplicateProof proof.proofId))

/-- The checks of a derivation whose identity is already registered. -/
def validateAlias (state : RegistrationView) (proof : CheckedProof) (aliases : Bool)
    (statement : StatementId) : RegisterM Unit := do
  require (statement = proof.statementId)
    (.error (.derivationIdentityCollision proof.derivationId))
  sameStatement state proof
  require (aliases = true) (.error (.duplicateDerivation proof.derivationId))

def validate (state : RegistrationView) (proof : CheckedProof) (aliases : Bool) : RegisterM Unit := do
  match ← access (state.view.proofHeader proof.proofId) with
  | some header => refuseKnown state proof header
  | none =>
    validateDependencies state proof.normalForm.certificate.steps
    match ← access (state.derivationStatement proof.derivationId) with
    | some statement => validateAlias state proof aliases statement
    | none => sameStatement state proof

def validateDefinition (view : ContextView) (definition : CheckedDefinition) : RegisterM Unit := do
  match ← access (view.definitionCertificate definition.definitionId) with
  | some known =>
    if known.kind = definition.certificate.kind ∧ known.body = definition.certificate.body then
      .error (.error (.duplicateDefinition definition.definitionId))
    else .error (.error (.definitionIdentityCollision definition.definitionId))
  | none =>
    match definition.obligation with
    | none => .ok ()
    | some obligation => do
      let selected ← access (view.statementFormula obligation.statementId checkerMaxFormulaWorkBytes)
      let selected ← orError (.error (.missingDefinitionObligation obligation.statementId)) selected
      require (selected = obligation.conclusion)
        (.error (.statementIdentityCollision obligation.statementId))

end Registration

namespace ArtifactState

def empty : ArtifactState := ⟨∅, ∅, ∅, ∅, .empty⟩

/-- The header of a registered proof. A missing derivation or statement, which the source excludes by
its assertions, does not occur in a well-formed state. -/
def resolveProof (s : ArtifactState) (proofId : ProofId) : Option ProofHeader := do
  let derivation ← s.proofs[proofId]?
  let statement ← s.derivations[derivation]?
  let stored ← s.statements[statement]?
  return ⟨derivation, statement, stored.canonicalLength⟩

def knownStatement (s : ArtifactState) (statementId : StatementId) :
    Option (ProofId × StoredStatement) := do
  let stored ← s.statements[statementId]?
  let witness ← s.questionIndex.witnesses[statementId]?
  return (witness, stored)

def statementFormula (s : ArtifactState) (id : StatementId) (maximum : ℕ) :
    Except ContextError (Option Formula) :=
  match s.knownStatement id with
  | none => .ok none
  | some (_, stored) =>
    if maximum < stored.canonicalLength then .error .limit else .ok (some stored.conclusion)

theorem closed_of_statementFormula {s : ArtifactState} {id : StatementId} {maximum : ℕ}
    {f : Formula} (h : s.statementFormula id maximum = .ok (some f)) : f.isClosed = true := by
  unfold statementFormula at h
  split at h
  · cases h
  · split_ifs at h
    cases h
    exact StoredStatement.closed _

section

variable (sha256 : List UInt8 → Digest)

def snapshotId (s : ArtifactState) : Digest :=
  sha256 (asciiBytes "naome:checked-artifact-snapshot:v1" ++ [0] ++
    digestBytes (Fingerprint.ofKeys sha256 s.proofs.keys) ++
    digestBytes (Fingerprint.ofKeys sha256 s.definitions.keys))

/-- The sealed view of a context in memory. -/
def view (s : ArtifactState) : ContextView where
  snapshotId := s.snapshotId sha256
  containsArtifact id := .ok (s.questionIndex.artifacts.contains id)
  proofHeader id := .ok (s.resolveProof id)
  statementHeader id := .ok ((s.knownStatement id).map fun p => ⟨p.1, p.2.canonicalLength⟩)
  statementFormula := s.statementFormula
  proofFormula header maximum := s.statementFormula header.statement maximum
  bucket kind target := .ok ((s.questionIndex.bucket kind target).map .ok)
  definitionCertificate id := .ok s.definitions[id]?
  closed _ _ _ h := closed_of_statementFormula h

def registrationView (s : ArtifactState) : RegistrationView where
  view := s.view sha256
  hasProof id := .ok (s.proofs.contains id)
  derivationStatement id := .ok s.derivations[id]?

def validateProofRegistration (s : ArtifactState) (proof : CheckedProof) : RegisterM Unit :=
  Registration.validate (s.registrationView sha256) proof false

/-- Stores a checked proof; returns the state and the canonical bytes of the proof. -/
def registerProof (s : ArtifactState) (proof : CheckedProof) :
    RegisterM (ArtifactState × List UInt8) := do
  s.validateProofRegistration sha256 proof
  let questionIndex ← s.questionIndex.registerProof sha256 proof.proofId proof.statementId
    proof.conclusion
  let canonical ← proof.normalForm.canonicalBytes.mapError fun _ => .panic
  return ({ s with
    questionIndex
    statements := s.statements.insertIfNew proof.statementId
      ⟨proof.conclusion, proof.canonicalConclusionLength, proof.closed⟩
    derivations := s.derivations.insertIfNew proof.derivationId proof.statementId
    proofs := s.proofs.insertIfNew proof.proofId proof.derivationId }, canonical)

/-- Stores a checked proof next to other certificates of its derivation. -/
def registerProofForReplication (s : ArtifactState) (proof : CheckedProof) :
    RegisterM (ArtifactState × List UInt8) :=
  match s.validateProofRegistration sha256 proof with
  | .error (.error (.duplicateDerivation _)) => do
    let questionIndex ← s.questionIndex.registerProof sha256 proof.proofId proof.statementId
      proof.conclusion
    let canonical ← proof.normalForm.canonicalBytes.mapError fun _ => .panic
    return ({ s with
      questionIndex
      proofs := s.proofs.insertIfNew proof.proofId proof.derivationId }, canonical)
  | .error stop => .error stop
  | .ok () => s.registerProof sha256 proof

def registerDefinition (s : ArtifactState) (definition : CheckedDefinition) :
    RegisterM ArtifactState := do
  Registration.validateDefinition (s.view sha256) definition
  return { s with
    questionIndex := s.questionIndex.registerDefinition sha256 definition.definitionId
    definitions := s.definitions.insertIfNew definition.definitionId definition.certificate }

end

end ArtifactState
end Naome
