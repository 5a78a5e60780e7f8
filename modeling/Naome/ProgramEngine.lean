import Naome.ConclusionIdentity
import Naome.ProgramRelay

/-!
# The program evaluator

The stored program, the cursor of its check and what is prepared for its export are separate fields
of one owner. The mathematical work of a quantum is an answer of the environment; a failed quantum
and a failed group of records are rolled back.
-/
namespace Naome.Program
open LocallyNameless Outcome

/-- The bytes of records that a database file takes; no file has more than `2 ^ 48`. -/
structure Database where
  bytes : ℕ
  bytes_le : bytes ≤ 2 ^ 48

/-- The state row and the input rows in the order of their positions. -/
structure StoredProgram where
  commands : ℕ
  sealed : Bool
  hash : Digest
  input : List (List UInt8 × Digest)

namespace StoredProgram

def empty : StoredProgram := ⟨0, false, 0, []⟩

def records (p : StoredProgram) : List (List UInt8) := p.input.map Prod.fst

end StoredProgram

/-- The command under evaluation. -/
structure Active where
  isSeal : Bool
  sourceHash : Digest
  deriving DecidableEq

/-- The suffix of the records that the reverse commitment covers. -/
structure Export where
  before : ℕ
  hash : Digest
  bytes : ℕ
  deriving DecidableEq

structure Engine where
  program : StoredProgram
  store : NodeStore
  cursor : ℕ
  checkedHash : Digest
  active : Option Active
  accepted : Option ℕ
  cacheBudget : Option ℕ
  exported : Option Export
  finalization : Option Finalization

structure EngineStatus where
  commands : ℕ
  checkedCommands : ℕ
  isSealed : Bool
  fullyChecked : Bool
  programHash : Digest
  conclusion : Option Digest

/-- One operation of the command under evaluation: it fails, leaves more to do or is the last. -/
inductive Work
  | fails (error : ProgramError)
  | works (store : NodeStore)
  | completes (store : NodeStore) (node : ℕ)

structure CheckedProgram where
  manifest : Manifest
  canonical : Option Formula

namespace Engine

section

variable (sha256 : List UInt8 → Digest) (serde : Serialization)

/-- The entries of the projection cache within its share of the budget. -/
def cacheEntries (entryBytes budget : ℕ) : ℕ := budget / 4 / entryBytes

def opened (program : StoredProgram) (rows : List (ℕ × NodeRow)) : Engine where
  program := program
  store := ⟨rows, fun _ => none⟩
  cursor := 0
  checkedHash := 0
  active := none
  accepted := none
  cacheBudget := none
  exported := none
  finalization := none

def appendRecord (database : Database) (command : Command) (e : Engine) : Except ProgramError Engine := do
  require (e.active = none) (.program "cannot append during an uncommitted instruction")
  require (e.program.sealed = false) (.program "proof program is sealed")
  let bytes ← (encodeCommand serde.json command).mapError .program
  let hash := commandHash sha256 e.program.hash bytes
  require ((e.program.records.map List.length).sum + bytes.length ≤ database.bytes)
    (.storage "database or disk is full")
  require (e.program.commands + 1 < 2 ^ 63) (.program "program address exhausted")
  return { e with program := {
    commands := e.program.commands + 1
    sealed := command.isSeal
    hash
    input := e.program.input ++ [(bytes, hash)] } }

/-- Appends all records or none. -/
def appendGroup (database : Database) (commands : List Command) (e : Engine) :
    Except ProgramError (Option ℕ) × Engine :=
  match commands.foldlM (fun e command => appendRecord sha256 serde database command e) e with
  | .error error => (.error error, e)
  | .ok e' => (.ok (if commands = [] then none else some e.program.commands),
      { e' with accepted := none, finalization := none, exported := none })

def append (database : Database) (command : Command) (e : Engine) :
    Except ProgramError (Option ℕ) × Engine :=
  appendGroup sha256 serde database [command] e

/-- Authenticates and decodes the record at the cursor; there is none after the last one. -/
def fetch (e : Engine) : Except ProgramError (Option Active) :=
  match e.program.input[e.cursor]? with
  | none => .ok none
  | some (bytes, stored) => do
    require (bytes.length ≤ recordBytes) (.program "stored command capacity")
    let sourceHash := commandHash sha256 e.checkedHash bytes
    require (stored = sourceHash) (.program "program input hash mismatch")
    let command ← (decodeCommand serde bytes).mapError .program
    return some ⟨command.isSeal, sourceHash⟩

/-- The command to work on: the one in progress or the next one. -/
def current (e : Engine) : Except ProgramError (Option Active) :=
  match e.active with
  | some a => .ok (some a)
  | none => fetch sha256 serde e

omit sha256 serde in
/-- Records a checked command; a seal accepts the complete program. -/
def conclude (a : Active) (store : NodeStore) (node : ℕ) (e : Engine) :
    Except ProgramError Engine := do
  require (e.cursor + 1 < u64Limit) (.program "proof address exhausted")
  let e := { e with store, cursor := e.cursor + 1, checkedHash := a.sourceHash, active := none }
  if a.isSeal = true then
    require (e.program.sealed = true ∧ e.program.commands = e.cursor ∧
      e.program.hash = e.checkedHash) (.program "seal is not the complete program")
    return { e with accepted := some node }
  else return e

/-- One operation; without a command the batch ends. -/
def step (work : Work) (e : Engine) : Except ProgramError (Option Engine) := do
  match ← current sha256 serde e with
  | none => return none
  | some a =>
    match work with
    | .fails error => .error error
    | .works store => return some { e with store, active := some a }
    | .completes store node => return some (← conclude a store node e)

/-- Reports whether an operation was executed. -/
def advanceBatch : List Work → Engine → Except ProgramError (Bool × Engine)
  | [], e => .ok (false, e)
  | work :: rest, e => do
    match ← step sha256 serde work e with
    | none => return (false, e)
    | some e' => return (true, (← advanceBatch rest e').2)

omit sha256 serde in
/-- Shares the budget with the projection cache. -/
def restrictCache (entryBytes budget : ℕ) (e : Engine) : Engine :=
  if e.cacheBudget = some budget then e
  else { e with
    finalization := e.finalization.map (·.restrictCache (cacheEntries entryBytes budget))
    cacheBudget := some budget }

/-- One quantum of as many steps as there are answers. A quantum that fails is rolled back. -/
def advance (entryBytes cacheBytes : ℕ) (work : List Work) (commits : Bool) (e : Engine) :
    Except ProgramError Bool × Engine :=
  if cacheBytes < 4096 then (.error (.program "invalid effective cache budget"), e)
  else
    let e := e.restrictCache entryBytes cacheBytes
    if work = [] then (.ok false, e)
    else
      match advanceBatch sha256 serde work e with
      | .error error => (.error error, { e with active := none })
      | .ok (progress, e') =>
        if commits = true then (.ok progress, e')
        else (.error (.storage "quantum not committed"), { e with active := none })

/-- The hash of an accepted conclusion, authenticated again. -/
def conclusionHash (e : Engine) : Except ProgramError (Option Digest) :=
  match e.accepted with
  | none => .ok none
  | some root => do
    let loaded ← (e.store.load sha256 root).mapError .program
    return some loaded.1.2.1

def status (e : Engine) : Except ProgramError EngineStatus := do
  let conclusion ← e.conclusionHash sha256
  return {
    commands := e.program.commands
    checkedCommands := e.cursor
    isSealed := e.program.sealed
    fullyChecked := e.accepted.isSome && decide (e.cursor = e.program.commands)
    programHash := e.program.hash
    conclusion }

/-- Extends the reverse commitment towards the first record. -/
def exportLoop (input : List (List UInt8 × Digest)) : ℕ → Export → Except ProgramError Export
  | 0, x => .ok x
  | steps + 1, x =>
    if x.before = 0 then .ok x
    else do
      let row ← orError (.storage "query returned no rows") input[x.before - 1]?
      require (row.1.length ≤ recordBytes) (.program "stored command capacity")
      let hash := streamHash sha256 row.1 x.hash
      let bytes ← (checkedAdd x.bytes row.1.length "program byte width").mapError .program
      exportLoop input steps ⟨x.before - 1, hash, bytes⟩

omit sha256 serde in
def prepareConclusion (entryBytes : ℕ) (q : Quantum) (e : Engine) :
    Except ProgramError Bool × Engine :=
  match e.accepted with
  | none => (.error (.program "program has no checked conclusion"), e)
  | some root =>
    match e.store.authenticated root with
    | none => (.error (.program "conclusion is not authenticated"), e)
    | some r =>
      let (result, finalization) := Naome.prepareConclusion root
        (cacheEntries entryBytes (e.cacheBudget.getD 0)) r.shape q e.finalization
      (result, { e with finalization })

def prepareExport (entryBytes : ℕ) (q : Quantum) (e : Engine) :
    Except ProgramError Bool × Engine :=
  match e.status sha256 with
  | .error error => (.error error, e)
  | .ok status =>
    if status.fullyChecked = false then
      (.error (.program "program has not been completely checked"), e)
    else
      let before := e.exported.getD ⟨e.cursor, 0, 0⟩
      if e.exported.isSome = true ∧ before.before = 0 then e.prepareConclusion entryBytes q
      else
        match exportLoop sha256 e.program.input q.steps before with
        | .error error => (.error error, { e with exported := some before })
        | .ok cursor =>
          if q.commits = true then (.ok false, { e with exported := some cursor })
          else (.error (.storage "export not committed"), { e with exported := some before })

/-- The complete check of this owner. -/
def checked (e : Engine) : Except ProgramError CheckedProgram := do
  let root ← orError (.program "program has not been completely checked") e.accepted
  let status ← e.status sha256
  require (status.fullyChecked = true) (.program "program has not been completely checked")
  let canonical ← orError (.program "program conclusion export is incomplete")
    (e.finalization.bind Finalization.canonical)
  let loaded ← (e.store.load sha256 root).mapError .program
  let statement ← manifestStatement sha256 canonical loaded.1.2.1
  let exported ← orError (.program "program export index is incomplete")
    (e.exported.filter fun x => decide (x.before = 0))
  if h : status.commands < u64Limit ∧ exported.bytes < u64Limit then
    return ⟨⟨status.commands, exported.bytes, e.checkedHash, exported.hash, loaded.1.2.1, statement,
      h.1, h.2⟩, canonical⟩
  else .error (.program "program byte width")

end

end Engine
end Naome.Program
