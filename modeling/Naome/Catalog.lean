import Naome.CatalogObject
import Naome.SetFingerprint

/-!
# The catalog of accepted artifacts

A commit adds the artifacts of one batch to the tables in one transaction: rows in the order of
their identities, replay orders in the order of the batch. Every start validates the complete
catalog before a proof is read from it.
-/
namespace Naome
open Outcome ByteCursor Program

namespace Catalog

def ordinalMaximum : ℕ := 65535

structure Meta where
  databaseId : Digest
  active : Bool
  corpusRoot : Option Digest
  count : ℕ
  bytes : ℕ
  deriving DecidableEq

structure CommitRow where
  root : ArtifactId
  memberCount : ℕ
  deriving DecidableEq

structure ArtifactRow where
  replayOrder : ℕ
  statement : Option StatementId
  obligation : Option ProofId
  compatibility : Digest
  payload : List UInt8
  payloadLength : ℕ
  payloadDigest : Digest
  originCommit : Digest
  deriving DecidableEq

structure DependencyRow where
  artifactId : ArtifactId
  ordinal : ℕ
  target : ArtifactId
  deriving DecidableEq

structure MemberRow where
  commitId : Digest
  artifactId : ArtifactId
  deriving DecidableEq

end Catalog

open Catalog in
/-- The seven tables; `programs` and `program_input` are those of the staged programs. -/
structure Catalog where
  metadata : Meta
  commits : DigestMap CommitRow
  artifacts : DigestMap ArtifactRow
  dependencies : List DependencyRow
  members : List MemberRow
  staging : Staging

namespace Catalog

structure Summary where
  root : Digest
  count : ℕ
  bytes : ℕ
  deriving DecidableEq

structure Member where
  id : ArtifactId
  statement : Option StatementId
  obligation : Option ProofId
  compatibility : Digest
  length : ℕ
  digest : Digest
  dependencies : List ArtifactId
  deriving DecidableEq

structure Prepared where
  member : Member
  payload : List UInt8
  inputOrder : ℕ
  deriving DecidableEq

/-- A stored artifact with the commit it came with. -/
structure Record where
  member : Member
  origin : Digest
  replayOrder : ℕ
  object : BinaryArtifact

inductive BatchCut
  | beforeWrite
  | duringWrite
  | beforeCommit
  | afterCommit
  deriving DecidableEq

/-- How the storage library ends a transaction that it was told to commit. -/
inductive CommitEnd
  | committed
  | refused
  /-- The transaction is durable and its success is not reported. -/
  | unreported
  deriving DecidableEq

/-- The objects of a batch in the order of their identities. -/
def preparedObjects (objects : DigestMap Prepared) : List Prepared := objects.toList.map Prod.snd

structure BatchLimits where
  batchObjects : ℕ
  batchBytes : ℕ

def sqlWidth (value : ℕ) : KnowledgeM ℕ := do
  require (value < i64Limit) (.message "catalog integer width")
  return value

def replayOrdinal (value : ℕ) : KnowledgeM ℕ := do
  require (value ≠ 0) (.message "catalog replay ordinal must be positive")
  return value

/-- Cuts are injected in test builds only. -/
def failAt (test : Bool) (cut : Option BatchCut) (position : BatchCut) : KnowledgeM Unit :=
  if test = true ∧ cut = some position then .error (.message "injected batch persistence cut")
  else .ok ()

def insertCommitRow (c : Catalog) (id : Digest) (row : CommitRow) : KnowledgeM Catalog := do
  require (c.commits.contains id = false ∧ 1 ≤ row.memberCount) .corruptStorage
  return { c with commits := c.commits.insert id row }

def insertArtifactRow (c : Catalog) (id : ArtifactId) (row : ArtifactRow) : KnowledgeM Catalog := do
  require (c.artifacts.contains id = false ∧ 0 < row.replayOrder ∧
    (∀ entry ∈ c.artifacts.toList, entry.2.replayOrder ≠ row.replayOrder) ∧
    1 ≤ row.payload.length ∧ row.payload.length ≤ artifactPayloadMaxBytes ∧
    row.payloadLength = row.payload.length) .corruptStorage
  return { c with artifacts := c.artifacts.insert id row }

def insertDependencyRow (c : Catalog) (row : DependencyRow) : KnowledgeM Catalog := do
  require (row.ordinal ≤ ordinalMaximum ∧ c.artifacts.contains row.artifactId = true ∧
    ∀ other ∈ c.dependencies, other.artifactId = row.artifactId →
      other.ordinal ≠ row.ordinal ∧ other.target ≠ row.target) .corruptStorage
  return { c with dependencies := c.dependencies ++ [row] }

def insertMemberRow (c : Catalog) (row : MemberRow) : KnowledgeM Catalog := do
  require (c.commits.contains row.commitId = true ∧ c.artifacts.contains row.artifactId = true ∧
    ∀ other ∈ c.members, other.artifactId ≠ row.artifactId) .corruptStorage
  return { c with members := c.members ++ [row] }

/-- The references between tables; those that are deferred are checked by `COMMIT`. -/
def ForeignKeys (c : Catalog) : Prop :=
  (∀ entry ∈ c.commits.toList, c.artifacts.contains entry.2.root = true) ∧
  (∀ entry ∈ c.artifacts.toList, c.commits.contains entry.2.originCommit = true) ∧
  (∀ row ∈ c.dependencies, c.artifacts.contains row.artifactId = true ∧
    c.artifacts.contains row.target = true) ∧
  (∀ row ∈ c.members, c.commits.contains row.commitId = true ∧
    c.artifacts.contains row.artifactId = true) ∧
  ∀ row ∈ c.staging.input, c.staging.programs.contains row.1 = true

instance (c : Catalog) : Decidable c.ForeignKeys := by
  unfold ForeignKeys
  infer_instance

def verifyForeignKeys (c : Catalog) : KnowledgeM Unit :=
  require c.ForeignKeys (.message "catalog foreign-key relation differs")

/-- The targets of an artifact with their ordinals, in the order of the ordinals. -/
def dependencyRows (c : Catalog) (id : ArtifactId) : List DependencyRow :=
  (c.dependencies.filter fun row => decide (row.artifactId = id)).mergeSort
    fun a b => decide (a.ordinal ≤ b.ordinal)

/-- The artifacts of a commit in the order of their identities. -/
def memberIds (c : Catalog) (commit : Digest) : List ArtifactId :=
  ((c.members.filter fun row => decide (row.commitId = commit)).map MemberRow.artifactId).mergeSort
    fun a b => decide (a ≤ b)

def readMeta (c : Catalog) (expectedId : Option Digest) : KnowledgeM Meta := do
  require (∀ expected ∈ expectedId, expected = c.metadata.databaseId)
    (.message "catalog database identity differs from lineage receipt")
  require (c.metadata.active = c.metadata.corpusRoot.isSome)
    (.message "catalog activation root missing or premature")
  require (¬ (c.metadata.active = false ∧ (c.metadata.count ≠ 0 ∨ c.metadata.bytes ≠ 0)))
    (.message "initializing catalog contains accepted data")
  return c.metadata

def checkExpectedSummary (metadata : Meta) (expected : Summary) : KnowledgeM Unit := do
  require (metadata.active = true) (.message "canonical catalog is not active")
  require (metadata.corpusRoot = some expected.root ∧ metadata.count = expected.count ∧
    metadata.bytes = expected.bytes)
    (.message "canonical catalog differs from the committed graph summary")

def collectDependencies (dependencies : List ArtifactId) :
    List DependencyRow → KnowledgeM (List ArtifactId)
  | [] => .ok dependencies
  | row :: rows => do
    require (dependencies.length < certificateMaxSteps ∧ row.ordinal = dependencies.length ∧
      ∀ previous ∈ dependencies.getLast?, previous < row.target)
      (.message "catalog dependency ordering or width differs")
    collectDependencies (dependencies ++ [row.target]) rows

def readDependencies (c : Catalog) (id : ArtifactId) : KnowledgeM (List ArtifactId) :=
  collectDependencies [] (c.dependencyRows id)

/-- A dependency that is missing or not replayed before the artifact. -/
def Unordered (c : Catalog) (id : ArtifactId) (replayOrder : ℕ) : Prop :=
  ∃ row ∈ c.dependencies, row.artifactId = id ∧
    ∀ target ∈ c.artifacts[row.target]?, replayOrder ≤ target.replayOrder

instance (c : Catalog) (id : ArtifactId) (replayOrder : ℕ) : Decidable (c.Unordered id replayOrder) := by
  unfold Unordered
  infer_instance

section

variable (sha256 : List UInt8 → Digest) (serde : Serialization)

def requireComplete (c : Catalog) (manifest : Manifest) : KnowledgeM Unit := do
  let progress ← (c.staging.progress sha256 serde manifest).mapError .staging
  (progress.requireComplete manifest).mapError .message

/-- The input of a program has arrived completely. -/
def requireProgram (c : Catalog) (object : BinaryArtifact) : KnowledgeM Unit := do
  match ← object.program sha256 serde with
  | some manifest => c.requireComplete sha256 serde manifest
  | none => return ()

/-- What a row says about itself. -/
def checkRow (id : ArtifactId) (row : ArtifactRow) : KnowledgeM Unit := do
  require (row.payloadLength ≠ 0 ∧ row.payloadLength ≤ artifactPayloadMaxBytes)
    (.message "catalog payload length differs")
  let _ ← replayOrdinal row.replayOrder
  require (row.payload ≠ [] ∧ row.payload.length ≤ artifactPayloadMaxBytes ∧
    row.payloadLength = row.payload.length ∧ sha256 row.payload = row.payloadDigest)
    (.message "catalog payload length or digest differs")
  require (row.compatibility = compatibility sha256)
    (.message "catalog canonical proof identity differs")
  let content ← recordContentId sha256 serde row.statement row.payload
  require (content = id) (.message "catalog canonical proof identity differs")

/-- The record of a row whose dependencies have been read. -/
def recordOf (id : ArtifactId) (row : ArtifactRow) (dependencies : List ArtifactId) : Record where
  member := ⟨id, row.statement, row.obligation, row.compatibility, row.payload.length,
    row.payloadDigest, dependencies⟩
  origin := row.originCommit
  replayOrder := row.replayOrder
  object := ⟨id, row.statement, row.obligation, row.payload, dependencies.toFinset⟩

def readRecord (c : Catalog) (id : ArtifactId) : KnowledgeM (Option Record) :=
  match c.artifacts[id]? with
  | none => .ok none
  | some row => do
    checkRow sha256 serde id row
    let dependencies ← c.readDependencies id
    let record := recordOf id row dependencies
    c.requireProgram sha256 serde record.object
    let origin := (c.members.find? fun member => decide (member.artifactId = id)).map
      MemberRow.commitId
    require (origin = some row.originCommit)
      (.message "catalog proof originating membership differs")
    require (c.commits.contains row.originCommit = true)
      (.message "catalog proof originating commit missing")
    require (¬ c.Unordered id row.replayOrder) (.message "catalog dependency replay order differs")
    return some record

/-- The members of a commit, one at a time. -/
def visitMembers {σ : Type} (visit : σ → ArtifactId → KnowledgeM σ) :
    Option ArtifactId → ℕ → σ → List ArtifactId → KnowledgeM (ℕ × σ)
  | _, count, s, [] => .ok (count, s)
  | previous, count, s, id :: ids => do
    require (∀ last ∈ previous, last < id) (.message "catalog membership ordering differs")
    require (count + 1 < u32Limit) (.message "catalog commit count width")
    let s ← visit s id
    visitMembers visit (some id) (count + 1) s ids

end

section

variable (sha256 : List UInt8 → Digest)

/-- The root of a set of artifacts, from their number and their fingerprint. -/
def corpusRoot (count : ℕ) (fingerprint : Digest) : Digest :=
  sha256 (asciiBytes "naome:knowledge:set" ++ [0] ++ digestBytes (compatibility sha256) ++
    bigEndian 8 count ++ digestBytes fingerprint)

def payloadBytes (c : Catalog) : ℕ := (c.artifacts.toList.map fun entry => entry.2.payloadLength).sum

def corpusSummary (c : Catalog) : KnowledgeM Summary := do
  let count ← sqlWidth c.artifacts.size
  let bytes ← sqlWidth c.payloadBytes
  require (∀ entry ∈ c.artifacts.toList, entry.2.payloadLength = entry.2.payload.length ∧
    1 ≤ entry.2.payload.length ∧ entry.2.payload.length ≤ artifactPayloadMaxBytes)
    (.message "catalog payload width differs")
  let fingerprint ← (c.artifacts.keys.foldlM (SetFingerprint.push sha256) {}).mapError
    fun _ => .message "corrupt context"
  return ⟨corpusRoot sha256 count (fingerprint.finish sha256), count, bytes⟩

end

/-- The state of a digest over the members of a commit. -/
structure CommitDigest where
  hash : List UInt8
  root : ArtifactId
  remaining : ℕ
  previous : Option ArtifactId
  foundRoot : Bool

namespace CommitDigest

def new (root : ArtifactId) (count : ℕ) : KnowledgeM CommitDigest := do
  require (count < u32Limit) (.message "catalog commit count width")
  require (count ≠ 0) (.message "invalid catalog commit membership")
  return ⟨asciiBytes "naome:knowledge:catalog-commit:v1" ++ [0] ++ digestBytes root ++ u32Bytes count,
    root, count, none, false⟩

def optionBytes : Option Digest → List UInt8
  | none => [0]
  | some value => 1 :: digestBytes value

def memberBytes (member : Member) : List UInt8 :=
  digestBytes member.id ++ optionBytes member.statement ++ optionBytes member.obligation ++
    digestBytes member.compatibility ++ u32Bytes member.length ++ digestBytes member.digest ++
    u32Bytes member.dependencies.length ++ (member.dependencies.map digestBytes).flatten

def push (d : CommitDigest) (member : Member) : KnowledgeM CommitDigest := do
  require (d.remaining ≠ 0 ∧ ∀ previous ∈ d.previous, previous < member.id)
    (.message "catalog commit members are not uniquely sorted")
  require (member.length ≠ 0 ∧ member.length ≤ artifactPayloadMaxBytes ∧
    member.dependencies.length ≤ certificateMaxSteps)
    (.message "catalog commit member width differs")
  return ⟨d.hash ++ memberBytes member, d.root, d.remaining - 1, some member.id,
    d.foundRoot || decide (member.id = d.root)⟩

def finish (sha256 : List UInt8 → Digest) (d : CommitDigest) : KnowledgeM Digest := do
  require (d.remaining = 0 ∧ d.foundRoot = true)
    (.message "catalog commit root or member count differs")
  return sha256 d.hash

end CommitDigest

section

variable (sha256 : List UInt8 → Digest)

def commitDigest (root : ArtifactId) (members : List Member) : KnowledgeM Digest := do
  let digest ← CommitDigest.new root members.length
  let digest ← members.foldlM CommitDigest.push digest
  digest.finish sha256

def memberOf (object : BinaryArtifact) : Member :=
  ⟨object.id, object.statement, object.obligation, compatibility sha256, object.bytes.length,
    sha256 object.bytes, object.dependencies.sort (· ≤ ·)⟩

def prepareObject (limits : BatchLimits) (state : DigestMap Prepared × ℕ) (object : BinaryArtifact) :
    KnowledgeM (DigestMap Prepared × ℕ) := do
  let (prepared, bytes) := state
  require (prepared.size < limits.batchObjects) (.message "catalog batch object count limit")
  let bytes ← (checkedAdd bytes object.bytes.length "catalog batch byte overflow").mapError .message
  require (bytes ≤ limits.batchBytes) (.message "catalog batch byte capacity")
  require (prepared.contains object.id = false) (.message "duplicate catalog batch proof ID")
  return (prepared.insert object.id ⟨memberOf sha256 object, object.bytes, prepared.size⟩, bytes)

def prepare (limits : BatchLimits) (objects : List BinaryArtifact) :
    KnowledgeM (DigestMap Prepared) := do
  let (prepared, _) ← objects.foldlM (prepareObject sha256 limits) (∅, 0)
  require (prepared.isEmpty = false) (.message "empty catalog batch")
  return prepared

variable (serde : Serialization)

def verifyProof (c : Catalog) (commit : Digest) (expected : Prepared) : KnowledgeM Unit := do
  let stored ← c.readRecord sha256 serde expected.member.id
  let record ← orError (.message "catalog commit proof missing") stored
  require (record.member = expected.member ∧ record.object.bytes = expected.payload ∧
    record.origin = commit) (.message "immutable catalog proof collision or corruption")

/-- The members of a commit are compared with the keys that remain. -/
def expectMember (expected : List ArtifactId) (member : ArtifactId) :
    KnowledgeM (List ArtifactId) := do
  require (expected.head? = some member) (.message "existing catalog commit membership differs")
  return expected.tail

def verifyCommit (c : Catalog) (commit : Digest) (root : ArtifactId)
    (objects : DigestMap Prepared) : KnowledgeM Unit := do
  let row ← orError .corruptStorage c.commits[commit]?
  let (members, _) ← visitMembers expectMember none 0 objects.keys (c.memberIds commit)
  require (row.root = root ∧ row.memberCount = objects.size ∧ members = objects.size ∧
    objects.contains root = true) (.message "existing catalog commit membership differs")
  (preparedObjects objects).forM (c.verifyProof sha256 serde commit)

omit sha256 serde in
def insertDependencies (c : Catalog) (member : Member) : KnowledgeM Catalog :=
  member.dependencies.zipIdx.foldlM (fun c entry => do
    let ordinal ← sqlWidth entry.2
    c.insertDependencyRow ⟨member.id, ordinal, entry.1⟩) c

omit sha256 serde in
def rowOf (commit : Digest) (precedingCount : ℕ) (object : Prepared) : ArtifactRow :=
  ⟨precedingCount + object.inputOrder + 1, object.member.statement, object.member.obligation,
    object.member.compatibility, object.payload, object.member.length, object.member.digest, commit⟩

omit sha256 serde in
def insertObject (commit : Digest) (precedingCount : ℕ) (test : Bool) (cut : Option BatchCut)
    (c : Catalog) (object : Prepared) : KnowledgeM Catalog := do
  let member := object.member
  require (c.artifacts.contains member.id = false)
    (.message "concrete proof already belongs to another commit")
  let order ← (checkedAdd precedingCount object.inputOrder "catalog replay ordinal overflow").mapError
    .message
  let order ← (checkedAdd order 1 "catalog replay ordinal overflow").mapError .message
  let _ ← sqlWidth member.length
  let _ ← sqlWidth order
  let c ← c.insertArtifactRow member.id (rowOf commit precedingCount object)
  let c ← c.insertDependencies member
  let c ← c.insertMemberRow ⟨commit, member.id⟩
  failAt test cut .duringWrite
  return c

/-- False when the commit is stored already. -/
def insertCommit (c : Catalog) (commit : Digest) (root : ArtifactId) (objects : DigestMap Prepared)
    (precedingCount : ℕ) (test : Bool) (cut : Option BatchCut) : KnowledgeM (Bool × Catalog) :=
  if c.commits.contains commit = true then do
    c.verifyCommit sha256 serde commit root objects
    failAt test cut .duringWrite
    return (false, c)
  else do
    require (objects.contains root = true) (.message "catalog commit root missing from members")
    let memberCount ← sqlWidth objects.size
    let c ← c.insertCommitRow commit ⟨root, memberCount⟩
    let c ← (preparedObjects objects).foldlM (insertObject commit precedingCount test cut) c
    return (true, c)

omit serde in
/-- The root after a commit; only tests reconstruct it from the rows. -/
def successorRoot (c : Catalog) (nextRoot : Option Digest) (test : Bool) : KnowledgeM Digest :=
  match nextRoot with
  | some root => .ok root
  | none =>
    if test = true then do
      let summary ← c.corpusSummary sha256
      return summary.root
    else .error (.message "checked successor fingerprint missing")

omit serde in
def commitSummary (c : Catalog) (preceding : Summary) (objects : DigestMap Prepared)
    (nextRoot : Option Digest) (test : Bool) : KnowledgeM (Summary × Catalog) := do
  let count ← (checkedAdd preceding.count objects.size "catalog count overflow").mapError .message
  let bytes ← (preparedObjects objects).foldlM (fun total object =>
    (checkedAdd total object.member.length "catalog byte overflow").mapError .message) preceding.bytes
  let root ← c.successorRoot sha256 nextRoot test
  let _ ← sqlWidth count
  let _ ← sqlWidth bytes
  let c := { c with metadata := { c.metadata with corpusRoot := some root, count, bytes } }
  let metadata ← c.readMeta none
  checkExpectedSummary metadata ⟨root, count, bytes⟩
  return (⟨root, count, bytes⟩, c)

/-- The arguments of a commit. Deadline and guard are consulted once, inside the transaction. -/
structure Commit where
  expected : Summary
  expired : Bool
  cut : Option BatchCut
  nextRoot : Option Digest
  guarded : KnowledgeM Unit

/-- A new commit is read back and counted. -/
def conclude (c : Catalog) (inserted : Bool) (id : Digest) (root : ArtifactId)
    (prepared : DigestMap Prepared) (commit : Commit) (test : Bool) : KnowledgeM (Summary × Catalog) :=
  if inserted = true then do
    c.verifyCommit sha256 serde id root prepared
    c.commitSummary sha256 commit.expected prepared commit.nextRoot test
  else .ok (commit.expected, c)

/-- The transaction up to its `COMMIT`. -/
def transact (c : Catalog) (databaseId : Digest) (limits : BatchLimits) (test : Bool)
    (root : ArtifactId) (objects : List BinaryArtifact) (commit : Commit) :
    KnowledgeM (Summary × Catalog) := do
  let prepared ← prepare sha256 limits objects
  let id ← commitDigest sha256 root ((preparedObjects prepared).map Prepared.member)
  failAt test commit.cut .beforeWrite
  let metadata ← c.readMeta (some databaseId)
  checkExpectedSummary metadata commit.expected
  objects.forM (c.requireProgram sha256 serde)
  let (inserted, c) ← c.insertCommit sha256 serde id root prepared metadata.count test commit.cut
  let (summary, c) ← c.conclude sha256 serde inserted id root prepared commit test
  failAt test commit.cut .beforeCommit
  require (commit.expired = false) .deadline
  commit.guarded
  return (summary, c)

/-- The answer of a call and the tables after it; a failed transaction is rolled back. -/
def persist (c : Catalog) (databaseId : Digest) (limits : BatchLimits) (test : Bool)
    (root : ArtifactId) (objects : List BinaryArtifact) (commit : Commit) (ending : CommitEnd) :
    KnowledgeM Summary × Catalog :=
  match c.transact sha256 serde databaseId limits test root objects commit with
  | .error e => (.error e, c)
  | .ok (summary, c') =>
    if ¬ c'.ForeignKeys then (.error .uncertainDurability, c)
    else match ending with
      | .refused => (.error .uncertainDurability, c)
      | .unreported => (.error .uncertainDurability, c')
      | .committed => ((failAt test commit.cut .afterCommit).map fun _ => summary, c')

omit serde in
def verifySummaryFields (c : Catalog) (metadata : Meta) (summary : Summary) : KnowledgeM Summary := do
  require (summary.count = metadata.count ∧ summary.bytes = metadata.bytes ∧
    (metadata.active = true → metadata.corpusRoot = some summary.root))
    (.message "catalog corpus root, count or byte total differs")
  require (c.members.length = summary.count) (.message "catalog relation count differs")
  let orders := c.artifacts.toList.map fun entry => entry.2.replayOrder
  let expectedFirst := if summary.count = 0 then 0 else 1
  require (orders.max?.getD 0 = summary.count ∧ orders.min?.getD 0 = expectedFirst)
    (.message "catalog replay ordering is incomplete")
  require ((∀ entry ∈ c.commits.toList, entry.2.memberCount = (c.memberIds entry.1).length ∧
      entry.2.root ∈ c.memberIds entry.1) ∧
    ∀ entry ∈ c.artifacts.toList, ⟨entry.2.originCommit, entry.1⟩ ∈ c.members)
    (.message "incomplete catalog commit membership")
  c.verifyForeignKeys
  require (∀ row ∈ c.dependencies, c.artifacts.contains row.target = true)
    (.message "catalog has missing proof dependencies")
  require (∀ row ∈ c.dependencies, ∀ owner ∈ c.artifacts[row.artifactId]?,
    ∀ target ∈ c.artifacts[row.target]?, target.replayOrder < owner.replayOrder)
    (.message "catalog dependency replay order differs")
  return summary

/-- The rows in the order of their replay orders. -/
def replayRows (c : Catalog) : List (ArtifactId × ℕ) :=
  (c.artifacts.toList.map fun entry => (entry.1, entry.2.replayOrder)).mergeSort
    fun a b => decide (a.2 ≤ b.2)

/-- The number of rows, whose replay orders have to be consecutive. -/
def countReplay (c : Catalog) (observed : ℕ) : List (ArtifactId × ℕ) → KnowledgeM ℕ
  | [] => .ok observed
  | (id, order) :: rows => do
    let ordinal ← replayOrdinal order
    let observed ← (checkedAdd observed 1 "catalog replay count overflow").mapError .message
    require (ordinal = observed) (.message "catalog replay ordering is incomplete")
    let stored ← orError (.message "missing catalog proof during validation") c.artifacts[id]?
    let storedOrdinal ← replayOrdinal stored.replayOrder
    require (storedOrdinal = ordinal) (.message "catalog replay proof order differs")
    countReplay c observed rows

/-- The payload of a record is a complete program or parses. -/
def requireRetained (c : Catalog) (object : BinaryArtifact) : KnowledgeM Unit := do
  match ← object.program sha256 serde with
  | some manifest => c.requireComplete sha256 serde manifest
  | none =>
    let _ ← object.prepareRetained sha256

/-- One member of a stored commit: its record, its payload and the digest. -/
def verifyMember (c : Catalog) (commit : Digest) (digest : CommitDigest) (member : ArtifactId) :
    KnowledgeM CommitDigest := do
  let stored ← c.readRecord sha256 serde member
  let record ← orError (.message "missing catalog commit proof") stored
  c.requireRetained sha256 serde record.object
  require (record.origin = commit) (.message "catalog proof belongs to a different originating commit")
  digest.push record.member

def verifyStoredCommit (c : Catalog) (entry : Digest × CommitRow) : KnowledgeM Unit := do
  let digest ← CommitDigest.new entry.2.root entry.2.memberCount
  let (_, digest) ← visitMembers (c.verifyMember sha256 serde entry.1) none 0 digest
    (c.memberIds entry.1)
  let id ← digest.finish sha256
  require (id = entry.1) (.message "catalog commit digest differs")

def validateCatalog (c : Catalog) (databaseId : Digest) : KnowledgeM Summary := do
  c.verifyForeignKeys
  let metadata ← c.readMeta (some databaseId)
  let summary ← c.corpusSummary sha256
  let summary ← c.verifySummaryFields metadata summary
  (c.staging.validateStaging sha256 serde).mapError .staging
  let observed ← c.countReplay 0 c.replayRows
  require (observed = summary.count) (.message "catalog payload count differs")
  c.commits.toList.forM (c.verifyStoredCommit sha256 serde)
  return summary

omit sha256 serde in
def initializeSchema (databaseId : Digest) : Catalog :=
  ⟨⟨databaseId, false, none, 0, 0⟩, ∅, ∅, [], [], .empty⟩

def activate (c : Catalog) (databaseId root : Digest) : KnowledgeM Catalog := do
  let summary ← c.validateCatalog sha256 serde databaseId
  require (summary.root = root) (.message "replayed corpus root differs from catalog")
  let metadata ← c.readMeta (some databaseId)
  if metadata.active = true then return c
  else return { c with metadata := { c.metadata with active := true, corpusRoot := some root } }

end
end Catalog
end Naome
