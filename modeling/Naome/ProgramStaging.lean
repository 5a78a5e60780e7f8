import Naome.ProgramTransfer
import Naome.KnowledgeIndex

/-!
# Staged program input

A catalog keeps the received part of every announced program until the complete program has
been checked. The rows come from other nodes; every start reads all of them again.
-/
namespace Naome.Program
open Outcome ByteCursor

def manifestLimit : ℕ := 2048

/-- The serialization library, which writes and reads the JSON of records and manifests. -/
structure Serialization where
  json : Command → List UInt8
  parse : List UInt8 → Except String Command
  manifestJson : Manifest → List UInt8
  parseManifest : List UInt8 → Except String Manifest

/-- What the library writes it reads back. -/
structure Serialization.RoundTrip (serde : Serialization) : Prop where
  parse_json : ∀ c, serde.parse (serde.json c) = .ok c
  parseManifest_json : ∀ m, serde.parseManifest (serde.manifestJson m) = .ok m

inductive StagingError
  | message (text : String)
  /-- A violated constraint of a table or a row that is missing. -/
  | storage
  deriving DecidableEq

abbrev StagingM := Except StagingError

def checked {α : Type} (x : Except String α) : StagingM α := x.mapError .message

structure ProgramRow where
  manifest : List UInt8
  received : ℕ
  inputBytes : ℕ
  hash : Digest
  remaining : Digest
  deriving DecidableEq

/-- The two tables of staged programs; the rows of the input are keyed by program and position. -/
structure Staging where
  programs : DigestMap ProgramRow
  input : List (ArtifactId × PreparedRecord)

def Staging.empty : Staging := ⟨∅, []⟩

def ordinal (value : ℕ) : StagingM ℕ := do
  require (value < i64Limit) (.message "physical program address exhausted")
  return value

section

variable (sha256 : List UInt8 → Digest)

def Manifest.address (m : Manifest) (domain : List UInt8) : Digest :=
  sha256 (domain ++ foundationId ++ bigEndian 8 m.commands ++ bigEndian 8 m.inputBytes ++
    digestBytes m.programHash ++ digestBytes m.streamRoot ++ digestBytes m.conclusion ++
    digestBytes m.statement)

def Manifest.proofId (m : Manifest) : ProofId :=
  m.address sha256 (asciiBytes "naome:program-proof" ++ [0])

def Manifest.artifactId (m : Manifest) : ArtifactId :=
  KnowledgeIndex.artifactIdOfProof sha256 (m.proofId sha256)

variable (serde : Serialization)

def decodeCommand (bytes : List UInt8) : Except String Command := do
  require (bytes.length ≤ recordBytes) "program command byte capacity"
  let command ← serde.parse bytes
  let canonical ← encodeCommand serde.json command
  require (canonical = bytes) "noncanonical program command"
  return command

def Manifest.canonicalBytes (m : Manifest) : Except String (List UInt8) := do
  require (¬ (m.commands = 0 ∨ m.inputBytes = 0)) "invalid program manifest"
  require ((serde.manifestJson m).length ≤ manifestLimit) "program manifest byte capacity"
  return serde.manifestJson m

def Manifest.fromCanonicalBytes (bytes : List UInt8) : Except String Manifest := do
  require (bytes.length ≤ manifestLimit) "program manifest byte capacity"
  let m ← serde.parseManifest bytes
  let canonical ← m.canonicalBytes serde
  require (canonical = bytes) "noncanonical program manifest"
  return m

def manifestBytes (m : Manifest) : StagingM (List UInt8) := do
  let _ ← ordinal m.commands
  let _ ← ordinal m.inputBytes
  checked (m.canonicalBytes serde)

def decodeManifest (bytes : List UInt8) : StagingM Manifest := do
  let m ← checked (Manifest.fromCanonicalBytes serde bytes)
  let _ ← ordinal m.commands
  let _ ← ordinal m.inputBytes
  return m

namespace Staging

/-- The input rows of a program in the order of their positions. -/
def rows (s : Staging) (id : ArtifactId) : List PreparedRecord :=
  ((s.input.filter fun r => decide (r.1 = id)).map Prod.snd).mergeSort
    fun a b => decide (a.position ≤ b.position)

def rowAt (s : Staging) (id : ArtifactId) (position : ℕ) : StagingM PreparedRecord :=
  orError .storage ((s.rows id).find? fun r => decide (r.position = position))

def progress (s : Staging) (m : Manifest) : StagingM Progress :=
  match s.programs[m.artifactId sha256]? with
  | none => .error (.message "program staging missing")
  | some row => do
    let bytes ← manifestBytes serde m
    require (row.manifest = bytes) (.message "program manifest changed")
    require (¬ (m.commands < row.received ∨ m.inputBytes < row.inputBytes))
      (.message "program prefix exceeds manifest")
    return ⟨row.received, row.inputBytes, row.hash, row.remaining⟩

/-- `INSERT OR IGNORE`: a row that exists or violates a constraint is skipped. -/
def insertProgram (s : Staging) (id : ArtifactId) (row : ProgramRow) : Staging :=
  if row.manifest = [] ∨ manifestLimit < row.manifest.length then s
  else { s with programs := s.programs.insertIfNew id row }

def startProgram (s : Staging) (m : Manifest) : StagingM (Progress × Staging) := do
  let bytes ← manifestBytes serde m
  let s := s.insertProgram (m.artifactId sha256) ⟨bytes, 0, 0, 0, m.streamRoot⟩
  let value ← s.progress sha256 serde m
  return (value, s)

def insertInput (id : ArtifactId) (s : Staging) (record : PreparedRecord) : StagingM Staging := do
  let _ ← ordinal record.position
  require (s.programs.contains id = true ∧ record.bytes ≠ [] ∧ record.bytes.length ≤ recordBytes ∧
    ∀ r ∈ s.input, ¬ (r.1 = id ∧ r.2.position = record.position)) .storage
  return { s with input := s.input ++ [(id, record)] }

/-- `UPDATE` of the progress of a program. -/
def updateProgress (s : Staging) (id : ArtifactId) (value : Progress) : Staging :=
  match s.programs[id]? with
  | none => s
  | some row =>
    let row := ⟨row.manifest, value.commands, value.inputBytes, value.hash, value.remaining⟩
    { s with programs := s.programs.insert id row }

def appendProgram (s : Staging) (m : Manifest) (chunk : Chunk) : StagingM (Progress × Staging) := do
  let p ← s.progress sha256 serde m
  let (value, records) ← checked (p.prepareAppend sha256 serde.json m chunk)
  let s ← records.foldlM (insertInput (m.artifactId sha256)) s
  let _ ← ordinal value.commands
  let _ ← ordinal value.inputBytes
  return (value, s.updateProgress (m.artifactId sha256) value)

end Staging

/-- A chunk under construction; storage supplies the rows. -/
structure ChunkReader where
  start : ℕ
  previous : Digest
  commands : List Command
  records : ℕ
  maximum : ℕ
  bytes : ℕ
  hash : Digest

namespace ChunkReader

omit sha256 serde in
def new (start : ℕ) (previous : Digest) (records maximum : ℕ) : Except String ChunkReader := do
  require (¬ (records = 0 ∨ chunkRecords < records ∨ maximum = 0 ∨ chunkBytes < maximum))
    "program chunk request capacity"
  return ⟨start, previous, [], records, maximum, 0, previous⟩

def fin (r : ChunkReader) : ℕ := r.start + r.commands.length

/-- False when the row belongs to the next chunk. -/
def push (r : ChunkReader) (position : ℕ) (bytes : List UInt8) (stored : Digest) :
    Except String (Bool × ChunkReader) := do
  require (position = r.fin ∧ bytes.length ≤ recordBytes) "program record order or width differs"
  if r.commands.length = r.records ∨ r.maximum - r.bytes < bytes.length then
    require (r.commands ≠ []) "program record exceeds chunk budget"
    return (false, r)
  else
    let command ← decodeCommand serde bytes
    let hash := commandHash sha256 r.hash bytes
    require (stored = hash) "program input hash mismatch"
    let _ ← checkedAdd position 1 "program address exhausted"
    return (true, { r with
      bytes := r.bytes + bytes.length, hash, commands := r.commands ++ [command] })

def pushAll (r : ChunkReader) : List PreparedRecord → Except String ChunkReader
  | [] => .ok r
  | row :: rows => do
    let (more, r) ← r.push sha256 serde row.position row.bytes row.hash
    if more then pushAll r rows else return r

def finish (r : ChunkReader) (available : ℕ) (next : Digest) : Except String Chunk := do
  require (¬ (available < r.start ∨ available < r.fin ∨ r.start < available ∧ r.commands = []))
    "program input prefix missing"
  return ⟨r.start, r.previous, next, r.commands⟩

end ChunkReader

namespace Staging

/-- The forward hash before a position. -/
def hashBefore (s : Staging) (id : ArtifactId) (start : ℕ) : StagingM Digest :=
  if start = 0 then .ok 0
  else do
    let position ← ordinal (start - 1)
    let row ← s.rowAt id position
    return row.hash

/-- The reverse commitment at the end of a chunk. -/
def suffixAt (s : Staging) (id : ArtifactId) (value : Progress) (fin : ℕ) : StagingM Digest :=
  if fin = value.commands then .ok value.remaining
  else do
    let position ← ordinal fin
    let row ← s.rowAt id position
    return row.suffix

def programChunk (s : Staging) (m : Manifest) (start records maximum : ℕ) : StagingM Chunk := do
  let id := m.artifactId sha256
  let value ← s.progress sha256 serde m
  require (start ≤ value.commands) (.message "program cursor exceeds received prefix")
  let previous ← s.hashBefore id start
  let _ ← ordinal start
  let rows := ((s.rows id).filter fun r => decide (start ≤ r.position)).take records
  let reader ← checked (ChunkReader.new start previous records maximum)
  let reader ← checked (reader.pushAll sha256 serde rows)
  let next ← s.suffixAt id value reader.fin
  checked (reader.finish value.commands next)

/-- The forward pass: order, width, canonical bytes and the hash chain of the input. -/
def observe (p : Prefix) : List PreparedRecord → StagingM Prefix
  | [] => .ok p
  | row :: rows => do
    require (row.position = p.commands ∧ row.bytes.length ≤ recordBytes)
      (.message "staged program input order or width differs")
    let _ ← checked (decodeCommand serde row.bytes)
    let next ← checked (p.append sha256 row.bytes)
    require (next.hash = row.hash) (.message "staged program input hash differs")
    observe next rows

/-- The backward pass, over the rows in descending order. -/
def unwind (suffix : Digest) : List PreparedRecord → StagingM Digest
  | [] => .ok suffix
  | row :: rows => do
    let suffix := streamHash sha256 row.bytes suffix
    require (suffix = row.suffix) (.message "staged program stream suffix differs")
    unwind suffix rows

def validateProgram (s : Staging) (entry : ArtifactId × ProgramRow) : StagingM Unit := do
  let (id, row) := entry
  let m ← decodeManifest serde row.manifest
  require (m.artifactId sha256 = id) (.message "staged program identity differs")
  let expected ← s.progress sha256 serde m
  let observed ← observe sha256 serde {} (s.rows id)
  let suffix ← unwind sha256 expected.remaining (s.rows id).reverse
  require (suffix = m.streamRoot) (.message "staged program stream root differs")
  require (⟨observed.commands, observed.inputBytes, observed.hash, expected.remaining⟩ = expected)
    (.message "staged program prefix summary differs")
  if observed.commands = m.commands then
    let p ← s.progress sha256 serde m
    checked (p.requireComplete m)

def validateStaging (s : Staging) : StagingM Unit :=
  s.programs.toList.forM (validateProgram sha256 serde s)

end Staging
end
end Naome.Program
