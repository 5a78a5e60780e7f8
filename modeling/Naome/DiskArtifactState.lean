import Naome.ArtifactState
import Naome.AuthenticatedMap
import Naome.FormulaGraph

/-!
# Selected artifacts on disk

The checked context with its records in untrusted storage. A context is ten roots of
authenticated maps; formulas and definitions are records of their own, found by content
address. Every access may fail, and a failed registration publishes no roots.
-/
namespace Naome
open LocallyNameless Outcome ByteCursor StorageM

namespace DiskArtifact

def encodeStatementRecord (address : Digest) (length : ℕ) : List UInt8 :=
  digestBytes address ++ bigEndian 8 length

def decodeStatementRecord (record : List UInt8) : Except ContextError (Digest × ℕ) := do
  require (record.length = 40) .corrupt
  let length := ofBigEndian (record.drop 32)
  require (length ≤ checkerMaxFormulaWorkBytes) .corrupt
  let address ← DiskMap.fixedKey (record.take 32)
  return (address, length)

def encodeProofRecord (derivation : DerivationId) (depth : ℕ) : List UInt8 :=
  digestBytes derivation ++ bigEndian 8 depth

def proofRecord (bytes : List UInt8) : Except ContextError (DerivationId × ℕ) := do
  require (bytes.length = 40) .corrupt
  let depth := ofBigEndian (bytes.drop 32)
  require (depth ≠ 0) .corrupt
  let derivation ← DiskMap.fixedKey (bytes.take 32)
  return (derivation, depth)

def definitionRecord (record : List UInt8) : Except ContextError (Digest × ℕ) := do
  let (address, length) ← decodeStatementRecord record
  require (length ≠ 0 ∧ length ≤ definitionMaxBytes ∧ length ≤ checkerMaxFormulaWorkBytes) .corrupt
  return (address, length)

def proofIdentity (proof : ProofId) : List UInt8 := 0 :: digestBytes proof

def definitionIdentity (definition : DefinitionId) : List UInt8 := 1 :: digestBytes definition

def encodeRoot : Option DiskMap.Root → List UInt8
  | none => [0]
  | some root => 1 :: (digestBytes root.address ++ digestBytes root.fingerprint)

def decodeRoot (bytes : Option (List UInt8)) : Except ContextError (Option DiskMap.Root) :=
  match bytes with
  | none => .ok none
  | some bytes =>
    if bytes = [0] then .ok none
    else if bytes.length = 65 ∧ bytes[0]? = some 1 then do
      let address ← DiskMap.fixedKey ((bytes.drop 1).take 32)
      let fingerprint ← DiskMap.fixedKey (bytes.drop 33)
      return some ⟨address, fingerprint⟩
    else .error .corrupt

section

variable (sha256 : List UInt8 → Digest)

def formulaAddress (bytes : List UInt8) : Digest :=
  sha256 (asciiBytes "naome:checked-formula-storage:v1" ++ [0] ++ bytes)

def definitionAddress (bytes : List UInt8) : Digest :=
  sha256 (asciiBytes "naome:checked-definition" ++ [0] ++ bytes)

/-- The proof of an artifact record, or none for a definition. -/
def artifactProofId (id : ArtifactId) (record : List UInt8) : Except ContextError (Option ProofId) := do
  require (record.length = 33) .corrupt
  let raw ← DiskMap.fixedKey (record.drop 1)
  if record[0]? = some 0 ∧ KnowledgeIndex.artifactIdOfProof sha256 raw = id then return some raw
  else if record[0]? = some 1 ∧ KnowledgeIndex.artifactIdOfDefinition sha256 raw = id then
    return none
  else .error .corrupt

end

/-- The length that stands for a conclusion too large for the formula codec. -/
def graphLength : ℕ := 2 ^ 64 - 1

def headerLength (length : ℕ) : ℕ := if length = 0 then graphLength else length

end DiskArtifact

/-- Where the bytes of a conclusion are, and in which snapshot this was read. -/
structure FormulaLocation where
  address : Digest
  snapshot : Digest
  deriving DecidableEq

/-- The inventory of the maps of a context. -/
inductive MapKind
  | proofs
  | definitions
  | derivations
  | statements
  | artifacts
  | witnesses
  | outgoing
  | deductions
  | instances
  | programNodes
  deriving DecidableEq, Repr

namespace MapKind

def all : List MapKind :=
  [proofs, definitions, derivations, statements, artifacts, witnesses, outgoing, deductions,
    instances, programNodes]

def next (kind : MapKind) : Option MapKind := all[all.idxOf kind + 1]?

def ofBucket : BucketKind → MapKind
  | .outgoing => outgoing
  | .deductions => deductions
  | .instances => instances

end MapKind

structure DiskArtifactState where
  map : MapKind → DiskMap

namespace DiskArtifactState
open DiskArtifact

def new : DiskArtifactState := ⟨fun _ => {}⟩

def setMap (s : DiskArtifactState) (kind : MapKind) (m : DiskMap) : DiskArtifactState :=
  ⟨Function.update s.map kind m⟩

section

variable (sha256 : List UInt8 → Digest)

def snapshotId (s : DiskArtifactState) : Digest :=
  sha256 (asciiBytes "naome:checked-artifact-snapshot:v1" ++ [0] ++
    digestBytes (s.map .proofs).fingerprint ++ digestBytes (s.map .definitions).fingerprint)

def get (s : DiskArtifactState) (kind : MapKind) (key : Digest) : StorageM (Option (List UInt8)) :=
  DiskMap.get sha256 (s.map kind) key

def containsKey (s : DiskArtifactState) (kind : MapKind) (key : Digest) : StorageM Bool :=
  DiskMap.containsKey sha256 (s.map kind) key

def containsArtifact (s : DiskArtifactState) (id : ArtifactId) : StorageM Bool :=
  s.containsKey sha256 .artifacts id

def containsProof (s : DiskArtifactState) (id : ProofId) : StorageM Bool :=
  s.containsKey sha256 .proofs id

def derivationStatement (s : DiskArtifactState) (id : DerivationId) :
    StorageM (Option StatementId) := do
  match ← s.get sha256 .derivations id with
  | none => return none
  | some bytes => do
    let statement ← StorageM.reporting (lift (DiskMap.fixedKey bytes))
    return some statement

/-- Where the conclusion of a statement is stored and how long it is. -/
def statementRecord (s : DiskArtifactState) (id : StatementId) : StorageM (Option (Digest × ℕ)) :=
    StorageM.reporting do
  match ← s.get sha256 .statements id with
  | none => return none
  | some record => do
    let (address, length) ← lift (decodeStatementRecord record)
    if length = 0 then
      lift (require (graphStatementId sha256 address = id) .corrupt)
      let known ← s.containsKey sha256 .programNodes address
      lift (require (known = true) .corrupt)
    return some (address, length)

def proofHeader (s : DiskArtifactState) (id : ProofId) :
    StorageM (Option (ProofHeader × FormulaLocation)) := StorageM.reporting do
  match ← s.get sha256 .proofs id with
  | none => return none
  | some record => do
    let (derivation, _) ← lift (proofRecord record)
    let statement ← s.get sha256 .derivations derivation
    let statement ← lift (orError .corrupt statement)
    let statement ← lift (DiskMap.fixedKey statement)
    let located ← s.statementRecord sha256 statement
    let (address, length) ← lift (orError .corrupt located)
    return some (⟨derivation, statement, headerLength length⟩, ⟨address, s.snapshotId sha256⟩)

def statementHeader (s : DiskArtifactState) (id : StatementId) :
    StorageM (Option (StatementHeader × FormulaLocation)) := StorageM.reporting do
  match ← s.statementRecord sha256 id with
  | none => return none
  | some (address, length) => do
    let proof ← s.get sha256 .witnesses id
    let proof ← lift (orError .corrupt proof)
    let proof ← lift (DiskMap.fixedKey proof)
    return some (⟨proof, headerLength length⟩, ⟨address, s.snapshotId sha256⟩)

/-- Reads a conclusion back and compares it with what is known about it. -/
def readFormula (id : StatementId) (address : Digest) (length : ℕ) : StorageM Formula := do
  let bytes ← readRecord address length
  lift (require (bytes.length = length ∧ formulaAddress sha256 bytes = address ∧
    Checker.statementId sha256 bytes = id) .corrupt)
  let formula ← lift ((Formula.decodeCanonical bytes).mapError fun _ => .corrupt)
  lift (require (formula.isClosed = true) .corrupt)
  return formula

def statementFormula (s : DiskArtifactState) (id : StatementId) (maximum : ℕ) :
    StorageM (Option Formula) := StorageM.reporting do
  match ← s.statementRecord sha256 id with
  | none => return none
  | some (address, length) => do
    lift (require (length ≠ 0 ∧ length ≤ maximum) .limit)
    let formula ← readFormula sha256 id address length
    return some formula

/-- The conclusion behind a header of this snapshot. -/
def formulaAt (s : DiskArtifactState) (id : StatementId) (location : FormulaLocation)
    (length maximum : ℕ) : StorageM Formula := StorageM.reporting do
  lift (require (location.snapshot = s.snapshotId sha256) .corrupt)
  lift (require (length ≠ graphLength ∧ length ≤ maximum) .limit)
  readFormula sha256 id location.address length

def proofDependencyDepth (s : DiskArtifactState) (id : ProofId) : StorageM (Option ℕ) :=
    StorageM.reporting do
  match ← s.get sha256 .proofs id with
  | none => return none
  | some record => do
    let (_, depth) ← lift (proofRecord record)
    return some depth

def definition (s : DiskArtifactState) (id : DefinitionId) :
    StorageM (Option DefinitionCertificate) := StorageM.reporting do
  match ← s.get sha256 .definitions id with
  | none => return none
  | some record => do
    let (address, length) ← lift (definitionRecord record)
    let bytes ← readRecord address length
    let certificate ← lift ((DefinitionCertificate.fromCanonicalBytes sha256 bytes).mapError
      fun _ => .corrupt)
    lift (require (bytes.length = length ∧ definitionAddress sha256 bytes = address ∧
      certificate.definitionId = id) .corrupt)
    return some certificate

/-- One item of a bucket; the values of a bucket are empty. -/
def bucketItem : Except ContextError (Digest × List UInt8) →
    StorageM (Except ContextError StatementId)
  | .ok (key, value) =>
    if value = [] then return .ok key
    else StorageM.recordFailure .corrupt (pure (.error .corrupt))
  | .error e => StorageM.recordFailure e (pure (.error e))

def bucketItems : ℕ → DiskMap.Entries → StorageM (List (Except ContextError StatementId))
  | 0, _ => pure []
  | calls + 1, it => do
    match ← it.next sha256 with
    | (none, _) => return []
    | (some item, it) => do
      let item ← bucketItem item
      let items ← bucketItems calls it
      return item :: items

/-- The statements of a bucket, as the cursor yields them. -/
def bucket (s : DiskArtifactState) (kind : BucketKind) (target : StatementId) :
    StorageM (List (Except ContextError StatementId)) := do
  let root ← StorageM.reporting do
    let root ← s.get sha256 (.ofBucket kind) target
    lift (decodeRoot root)
  let it := (⟨root⟩ : DiskMap).entriesAfter none
  bucketItems sha256 (it.remaining + 1) it

end
end DiskArtifactState

/-- Registration on disk: a refusal or a violated assertion ends it, and the state that was
reached stays visible. -/
abbrev UpdateM := ExceptT (Stop ArtifactStateError) (StateT DiskArtifactState StorageM)

namespace UpdateM

variable {α : Type}

/-- An access to the current state whose failure ends the registration. -/
def reading (p : DiskArtifactState → StorageM α) : UpdateM α := fun s => do
  let result ← (p s).attempt
  return (result.mapError fun source => .error (.context source), s)

def access (p : StorageM α) : UpdateM α := reading fun _ => p

def outcome (r : Except (Stop ArtifactStateError) α) : UpdateM α := fun s => pure (r, s)

def refuse (stop : Stop ArtifactStateError) : UpdateM α := outcome (.error stop)

def check (p : Prop) [Decidable p] (e : ArtifactStateError) : UpdateM Unit :=
  outcome (require p (.error e))

end UpdateM

namespace DiskArtifactState
open DiskArtifact UpdateM

section

variable (sha256 : List UInt8 → Digest)

def insertInto (kind : MapKind) (key : Digest) (value : List UInt8) : UpdateM Unit := fun s => do
  let (result, m) ← DiskMap.insert sha256 (s.map kind) key value
  return ((result.map fun _ => ()).mapError fun source => .error (.context source),
    s.setMap kind m)

def setIn (kind : MapKind) (key : Digest) (value : List UInt8) : UpdateM Unit := fun s => do
  let (result, m) ← DiskMap.set sha256 (s.map kind) key value
  return (result.mapError fun source => .error (.context source), s.setMap kind m)

def getFrom (kind : MapKind) (key : Digest) : UpdateM (Option (List UInt8)) :=
  reading fun s => s.get sha256 kind key

/-- Adds a statement to the bucket of one projection. -/
def insertProjection (statement : StatementId) (projection : BucketKind × StatementId) :
    UpdateM Unit := do
  let kind := MapKind.ofBucket projection.1
  let root ← getFrom sha256 kind projection.2
  let root ← access (lift (decodeRoot root))
  let (result, bucket) ← access (DiskMap.insert sha256 ⟨root⟩ statement [])
  let _ ← access (lift result)
  setIn sha256 kind projection.2 (encodeRoot bucket.root)

/-- A statement or derivation that is already known keeps its record. -/
def checkKnown (kind : MapKind) (key : Digest) (value : List UInt8) (e : ArtifactStateError) :
    UpdateM Unit := do
  let previous ← getFrom sha256 kind key
  check (∀ known ∈ previous, known = value) e

/-- The least proof of a statement, and the projections of a new statement. -/
def registerWitness (proof : ProofId) (statement : StatementId) (formula : Option Formula) :
    UpdateM Unit := do
  match ← getFrom sha256 .witnesses statement with
  | some previous => do
    let previous ← access (lift (DiskMap.fixedKey previous))
    if proof < previous then setIn sha256 .witnesses statement (digestBytes proof)
    else return ()
  | none => do
    insertInto sha256 .witnesses statement (digestBytes proof)
    match formula with
    | none => return ()
    | some formula => do
      let found ← outcome (KnowledgeIndex.projections sha256 proof formula)
      found.forM (insertProjection sha256 statement)

/-- The records of a checked fact. -/
def publishRecords (proof : ProofId) (derivation : DerivationId) (statement : StatementId) (depth : ℕ)
    (record : List UInt8) : UpdateM Unit := do
  insertInto sha256 .statements statement record
  insertInto sha256 .derivations derivation (digestBytes statement)
  insertInto sha256 .proofs proof (encodeProofRecord derivation depth)
  insertInto sha256 .artifacts (KnowledgeIndex.artifactIdOfProof sha256 proof) (proofIdentity proof)

/-- The publication of a checked fact and its indexes, for both formats of proofs. -/
def registerFact (proof : ProofId) (derivation : DerivationId) (statement : StatementId) (depth : ℕ)
    (record : List UInt8) (formula : Option Formula) : UpdateM Unit := do
  checkKnown sha256 .statements statement record (.statementIdentityCollision statement)
  checkKnown sha256 .derivations derivation (digestBytes statement)
    (.derivationIdentityCollision derivation)
  publishRecords sha256 proof derivation statement depth record
  registerWitness sha256 proof statement formula

def sameStatement (proof : CheckedProof) : UpdateM Unit := do
  let stored ← reading fun s =>
    s.statementFormula sha256 proof.statementId checkerMaxFormulaWorkBytes
  check (∀ f ∈ stored, f = proof.conclusion) (.statementIdentityCollision proof.statementId)

def validateReference : ProofStep → UpdateM Unit
  | .proofReference proofId => do
    let known ← reading fun s => s.containsProof sha256 proofId
    check (known = true) (.missingProofDependency proofId)
  | _ => return ()

def validateDefinitions (step : ProofStep) : UpdateM Unit :=
  step.definitionReferences.forM fun definitionId => do
    let certificate ← reading fun s => s.definition sha256 definitionId
    check (certificate.isSome = true) (.missingDefinitionDependency definitionId)

def validateDependencies (steps : List ProofStep) : UpdateM Unit :=
  steps.forM fun step => do
    validateReference sha256 step
    validateDefinitions sha256 step

def refuseKnown (proof : CheckedProof) (header : ProofHeader) : UpdateM Unit := do
  check (header.derivation = proof.derivationId ∧ header.statement = proof.statementId)
    (.proofIdentityCollision proof.proofId)
  sameStatement sha256 proof
  refuse (.error (.duplicateProof proof.proofId))

def validateAlias (proof : CheckedProof) (aliases : Bool) (statement : StatementId) :
    UpdateM Unit := do
  check (statement = proof.statementId) (.derivationIdentityCollision proof.derivationId)
  sameStatement sha256 proof
  check (aliases = true) (.duplicateDerivation proof.derivationId)

def validate (proof : CheckedProof) (aliases : Bool) : UpdateM Unit := do
  match ← reading fun s => s.proofHeader sha256 proof.proofId with
  | some (header, _) => refuseKnown sha256 proof header
  | none => do
    validateDependencies sha256 proof.normalForm.certificate.steps
    match ← reading fun s => s.derivationStatement sha256 proof.derivationId with
    | some statement => validateAlias sha256 proof aliases statement
    | none => sameStatement sha256 proof

def validateDefinition (definition : CheckedDefinition) : UpdateM Unit := do
  match ← reading fun s => s.definition sha256 definition.definitionId with
  | some known =>
    if known.kind = definition.certificate.kind ∧ known.body = definition.certificate.body then
      refuse (.error (.duplicateDefinition definition.definitionId))
    else refuse (.error (.definitionIdentityCollision definition.definitionId))
  | none =>
    match definition.obligation with
    | none => return ()
    | some obligation => do
      let selected ← reading fun s =>
        s.statementFormula sha256 obligation.statementId checkerMaxFormulaWorkBytes
      let selected ← outcome
        (orError (.error (.missingDefinitionObligation obligation.statementId)) selected)
      check (selected = obligation.conclusion) (.statementIdentityCollision obligation.statementId)

/-- Runs a registration on a copy: the state changes only when all of it succeeds. -/
def publishing {α : Type} (p : UpdateM α) : UpdateM α := fun s => do
  let (result, next) ← p s
  match result with
  | .ok a => return (.ok a, next)
  | .error stop => return (.error stop, s)

def registerDefinition (definition : CheckedDefinition) : UpdateM Unit := publishing do
  validateDefinition sha256 definition
  let bytes := definition.certificate.canonical
  let address := definitionAddress sha256 bytes
  access (writeRecord address bytes)
  insertInto sha256 .definitions definition.definitionId (encodeStatementRecord address bytes.length)
  insertInto sha256 .artifacts
    (KnowledgeIndex.artifactIdOfDefinition sha256 definition.definitionId)
    (DiskArtifact.definitionIdentity definition.definitionId)

/-- The greatest depth of the cited proofs. -/
def dependencyDepth : List ProofStep → UpdateM ℕ
  | [] => return 0
  | .proofReference proofId :: steps => do
    let depth ← reading fun s => s.proofDependencyDepth sha256 proofId
    let depth ← outcome (orError (.error (.missingProofDependency proofId)) depth)
    let rest ← dependencyDepth steps
    return max depth rest
  | _ :: steps => dependencyDepth steps

def registerProofForReplication (proof : CheckedProof) : UpdateM (List UInt8) := publishing do
  validate sha256 proof true
  let depth ← dependencyDepth sha256 proof.normalForm.certificate.steps
  check (depth + 1 < 2 ^ 64) (.context .limit)
  let bytes ← access (lift (proof.conclusion.encodeCanonical.mapError fun _ => .corrupt))
  check (bytes.length = proof.canonicalConclusionLength ∧ bytes.length ≤ checkerMaxFormulaWorkBytes)
    (.context .limit)
  let address := formulaAddress sha256 bytes
  access (writeRecord address bytes)
  registerFact sha256 proof.proofId proof.derivationId proof.statementId (depth + 1)
    (encodeStatementRecord address bytes.length) (some proof.conclusion)
  outcome (proof.normalForm.canonicalBytes.mapError fun _ => .panic)

end
end DiskArtifactState
end Naome
