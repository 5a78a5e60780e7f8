import Naome.ProgramCommand
import Naome.Definition

/-!
# Authenticated program streams

A program is transferred in chunks. A forward hash chain names the received part and a reverse
commitment of the manifest authenticates every chunk before a record of it is saved.
-/
namespace Naome.Program
open Outcome ByteCursor

def recordBytes : ℕ := 4096

def chunkRecords : ℕ := 1024

def chunkBytes : ℕ := 32 * 1024

structure Chunk where
  start : ℕ
  previous : Digest
  next : Digest
  records : List Command

/-- A claim about a complete program; its counters are 64-bit words. -/
structure Manifest where
  commands : ℕ
  inputBytes : ℕ
  programHash : Digest
  streamRoot : Digest
  conclusion : Digest
  statement : Digest
  commands_lt : commands < u64Limit
  inputBytes_lt : inputBytes < u64Limit

/-- The received part, bound to the forward hash and the reverse commitment. -/
structure Progress where
  commands : ℕ
  inputBytes : ℕ
  hash : Digest
  remaining : Digest
  deriving DecidableEq

structure PreparedRecord where
  position : ℕ
  bytes : List UInt8
  hash : Digest
  suffix : Digest
  deriving DecidableEq

/-- The forward commitment to a sequence of records. -/
structure Prefix where
  commands : ℕ := 0
  inputBytes : ℕ := 0
  hash : Digest := 0
  deriving DecidableEq

section

variable (sha256 : List UInt8 → Digest)

def commandHash (previous : Digest) (bytes : List UInt8) : Digest :=
  sha256 (asciiBytes "naome:proof-program" ++ digestBytes previous ++ bigEndian 8 bytes.length ++
    bytes)

def streamHash (bytes : List UInt8) (next : Digest) : Digest :=
  sha256 (asciiBytes "naome:program-stream" ++ [0] ++ bigEndian 8 bytes.length ++ bytes ++
    digestBytes next)

def checkedAdd (a b : ℕ) (error : String) : Except String ℕ :=
  if a + b < u64Limit then .ok (a + b) else .error error

def Prefix.append (p : Prefix) (bytes : List UInt8) : Except String Prefix := do
  require (bytes.length ≤ recordBytes) "program command byte capacity"
  let commands ← checkedAdd p.commands 1 "program address exhausted"
  let inputBytes ← checkedAdd p.inputBytes bytes.length "program byte width"
  return ⟨commands, inputBytes, commandHash sha256 p.hash bytes⟩

def Progress.requireComplete (p : Progress) (manifest : Manifest) : Except String Unit :=
  require (p.commands = manifest.commands ∧ p.inputBytes = manifest.inputBytes ∧
    p.hash = manifest.programHash ∧ p.remaining = 0)
    "program input is incomplete or differs from manifest"

variable (json : Command → List UInt8)

/-- The canonical bytes of a command, from the JSON encoding of the serialization library. -/
def encodeCommand (command : Command) : Except String (List UInt8) := do
  require ((json command).length ≤ recordBytes) "program command byte capacity"
  return json command

/-- The bytes of the records of a chunk, within its byte capacity. -/
def encodeRecords (total : ℕ) : List Command → Except String (List (List UInt8))
  | [] => .ok []
  | command :: commands => do
    let bytes ← encodeCommand json command
    let total := total + bytes.length
    require (total ≤ chunkBytes) "program chunk byte capacity"
    let rest ← encodeRecords total commands
    return bytes :: rest

/-- The reverse commitments of the records above a next commitment, with the first of them. -/
def suffixes (next : Digest) : List (List UInt8) → List Digest × Digest
  | [] => ([], next)
  | bytes :: rest =>
    let (hashes, suffix) := suffixes next rest
    let hash := streamHash sha256 bytes suffix
    (hash :: hashes, hash)

/-- Appends the records one by one and numbers them. -/
def appendRecords (manifest : Manifest) (p : Prefix) :
    List (Command × List UInt8 × Digest) → Except String (Prefix × List PreparedRecord)
  | [] => .ok (p, [])
  | (command, bytes, suffix) :: rest => do
    require (¬ (command.isSeal = true ∧ p.commands + 1 ≠ manifest.commands))
      "program seal precedes declared end"
    let next ← p.append sha256 bytes
    let (last, records) ← appendRecords manifest next rest
    return (last, ⟨p.commands, bytes, next.hash, suffix⟩ :: records)

def Progress.prepareAppend (p : Progress) (manifest : Manifest) (chunk : Chunk) :
    Except String (Progress × List PreparedRecord) := do
  require (chunk.records ≠ [] ∧ chunk.records.length ≤ chunkRecords)
    "program chunk record capacity"
  let bytes ← encodeRecords json 0 chunk.records
  let (hashes, suffix) := suffixes sha256 chunk.next bytes
  require (p.commands = chunk.start ∧ p.hash = chunk.previous ∧ p.remaining = suffix)
    "program chunk authentication or prefix mismatch"
  let fin ← checkedAdd p.commands bytes.length "program chunk cursor width"
  require (fin ≤ manifest.commands ∧ (fin = manifest.commands → chunk.next = 0))
    "program chunk end mismatch"
  let (last, records) ← appendRecords sha256 manifest ⟨p.commands, p.inputBytes, p.hash⟩
    (chunk.records.zip (bytes.zip hashes))
  let progress : Progress := ⟨last.commands, last.inputBytes, last.hash, chunk.next⟩
  require (progress.commands ≤ manifest.commands ∧ progress.inputBytes ≤ manifest.inputBytes)
    "program prefix exceeds manifest"
  if progress.commands = manifest.commands then progress.requireComplete manifest
  return (progress, records)

end
end Naome.Program
