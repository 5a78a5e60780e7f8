import Naome.ResearchJournal

/-!
# The checkpoint of research jobs

The owner of the journal with its durable rows. What the clock, the file system and the clients
answer is an environment: the n-th question has the n-th answer. A commit is written, refused with
the rows unchanged, or uncertain: then nothing more is read or written before the next start.
-/
namespace Naome.Jobs
open Outcome

inductive Error
  | limit
  | invalid (message : String)
  | corrupt (message : String)
  | uncertain (message : String)
  deriving DecidableEq, Repr

namespace Error

def retryable : Error → Bool
  | .limit => true
  | _ => false

def fatal : Error → Bool
  | .corrupt _ => true
  | .uncertain _ => true
  | _ => false

end Error

inductive CommitAnswer
  | committed
  | refused (error : Error)
  | uncertain (written : Bool)

/-- Limits that follow the load of the machine. -/
structure ActiveLimits where
  terminalJobPage : ℕ
  waitersPerJob : ℕ
  queuedJobsPerRole : ℕ

/-- What a provider reports when its process ended. -/
structure Completed where
  state : State
  result : Except String Output

abbrev Reply := ℕ

structure Environment where
  wallMs : ℕ → Except String UInt64
  elapsedMs : ℕ → Option UInt64
  readable : ℕ → Except String Unit
  commit : ℕ → CommitAnswer
  active : ℕ → ActiveLimits
  closed : ℕ → Reply → Bool
  diskSpace : ℕ → Except Error Unit
  computation : ℕ → Bool
  slots : ℕ → ℕ
  slot : ℕ → Except String Bool
  flushDue : ℕ → Bool
  markerWritten : ℕ → Bool
  nextTask : ℕ → ℕ
  outcome : ℕ → Completed

structure PendingProgram where
  unit : ℕ
  records : List Program.Command
  reply : Reply

/-- A reservation that was answered: the clock it was decided at and the committed account of its
input at the moment of the answer. -/
structure Grant where
  input : Input
  now : ℕ
  durable : Option Account

/-- Durable rows, the journal in memory and the jobs in progress. `questions` counts the answers
taken from the environment; `granted` is the history of answered reservations. -/
structure Owner where
  questions : ℕ
  rows : Rows
  established : Bool
  granted : List Grant
  uncertain : Bool
  journal : Journal
  settings : Settings
  waiters : Std.TreeMap ℕ (List Reply)
  running : Std.TreeSet ℕ
  programs : Std.TreeMap ℕ PendingProgram
  tasks : List ℕ
  nextLane : ℕ
  recoverySkip : List ℕ

abbrev OwnerM := Effect Owner Error

/-- An account row of at most 8192 bytes. -/
def Host.readAccount (host : Host) (rows : Rows) (key : Digest) : Except String (Option Account) :=
  match rows.accounts[key]? with
  | none => .ok none
  | some account => do
    Outcome.require (host.accountLen account ≤ 8192) "checkpoint record digest or capacity differs"
    return some account

namespace Owner
open Effect

def setJournal (o : Owner) (journal : Journal) : Owner := { o with journal := journal }

variable {α : Type}

/-- The next answer of the environment. -/
def ask (answers : ℕ → α) : OwnerM α :=
  ⟨fun o => (.ok (answers o.questions), { o with questions := o.questions + 1 })⟩

def liftError (x : Except String α) : OwnerM α :=
  match x with
  | .ok a => Effect.pure a
  | .error message => Effect.throw (.invalid message)

def getJournal : OwnerM Journal := do return (← state).journal

def modifyJournal (f : Journal → Journal) : OwnerM Unit :=
  Effect.modify fun o => o.setJournal (f o.journal)

theorem run_modifyJournal_bind (f : Journal → Journal) (g : Unit → OwnerM α) (o : Owner) :
    (modifyJournal f >>= g).run o = (g ()).run (o.setJournal (f o.journal)) := rfl

theorem run_getJournal_bind (g : Journal → OwnerM α) (o : Owner) :
    (getJournal >>= g).run o = (g o.journal).run o := rfl

variable (env : Environment) (host : Host)

def wallMs : OwnerM ℕ := do
  let answer ← ask env.wallMs
  liftError (answer.map UInt64.toNat)

/-- The error of a save: whatever is wrong with the journal is storage corruption. -/
def asCorrupt (m : OwnerM α) : OwnerM α := m.mapError fun
  | .invalid message => .corrupt message
  | error => error

/-- A read of the checkpoint fails after an uncertain write. -/
def ensureGeneration : OwnerM Unit := do
  let o ← state
  require (o.uncertain = false) (.invalid "checkpoint requires replay after an uncertain write")
  let answer ← ask env.readable
  liftError answer

theorem ensureGeneration_cases (o : Owner) : ∃ questions,
    (ensureGeneration env).run o = (.ok (), { o with questions := questions }) ∨
    ∃ e, (ensureGeneration env).run o = (.error e, { o with questions := questions }) := by
  simp only [ensureGeneration, run_bind, run_state, run_require, ask]
  by_cases hcertain : o.uncertain = false
  · simp only [hcertain, if_true]
    cases env.readable o.questions with
    | ok a => exact ⟨o.questions + 1, .inl rfl⟩
    | error message => exact ⟨o.questions + 1, .inr ⟨_, rfl⟩⟩
  · simp only [if_neg hcertain]
    exact ⟨o.questions, .inr ⟨_, rfl⟩⟩

def account (key : Digest) : OwnerM (Option Account) := do
  ensureGeneration env
  let o ← state
  liftError (host.readAccount o.rows key)

/-- The unacknowledged record that the request index names. -/
def request (input : Input) (binding : Binding) (settings : RoleSettings) :
    OwnerM (Option Record) := do
  ensureGeneration env
  let o ← state
  match o.rows.requests[host.requestKey input binding settings]? with
  | none => return none
  | some id =>
    let record ← orThrow (.invalid "indexed research request is missing") o.rows.records[id]?
    require (record.id = id ∧ record.input = input ∧ record.binding = binding ∧
      record.settings = settings ∧ record.acknowledged = false)
      (.invalid "research request identity index differs")
    return some record

def commit (rows : Rows) : OwnerM Unit := do
  let o ← state
  require (o.uncertain = false) (.uncertain "checkpoint requires replay after an uncertain write")
  match ← ask env.commit with
  | .committed => Effect.modify fun o => { o with rows := rows }
  | .refused error => Effect.throw error
  | .uncertain written => do
    Effect.modify fun o => { o with uncertain := true, rows := if written then rows else o.rows }
    Effect.throw (.uncertain "commit outcome unknown")

/-- A commit changes the rows to the written ones or not at all. -/
theorem commit_cases (rows : Rows) (o : Owner) : ∃ questions uncertain,
    (commit env rows).run o = (.ok (), { o with questions := questions, uncertain := uncertain, rows := rows }) ∨
    (∃ e, (commit env rows).run o =
      (.error e, { o with questions := questions, uncertain := uncertain })) ∨
    (∃ e, (commit env rows).run o =
      (.error e, { o with questions := questions, uncertain := uncertain, rows := rows })) := by
  simp only [commit, run_bind, run_state, run_require]
  by_cases hcertain : o.uncertain = false
  · simp only [hcertain, if_true, ask]
    cases env.commit o.questions with
    | committed => exact ⟨o.questions + 1, false, .inl rfl⟩
    | refused e => exact ⟨o.questions + 1, false, .inr (.inl ⟨e, rfl⟩)⟩
    | uncertain written =>
      cases written with
      | false => exact ⟨o.questions + 1, true, .inr (.inl ⟨_, rfl⟩)⟩
      | true => exact ⟨o.questions + 1, true, .inr (.inr ⟨_, rfl⟩)⟩
  · simp only [if_neg hcertain]
    exact ⟨o.questions, o.uncertain, .inr (.inl ⟨_, rfl⟩)⟩

/-- An uncertain job holds its account under the smallest such job. -/
def rememberHold (r : Record) : OwnerM Unit := do
  let j ← getJournal
  let key := host.accountKey r.input
  let account ← orThrow (.corrupt "uncertain job original account missing") (j.accounts.get? key)
  let held := account.held.elim r.id fun old => min old r.id
  if account.held = some held then return ()
  else modifyJournal fun j => j.updateAccount key fun a => { a with held := some held }

def rememberHolds : OwnerM Unit := do
  let j ← getJournal
  forEach (rememberHold host)
    (j.records.values.filter fun r => decide (r.state = .inDoubt) && !r.input.isFind)

/-- `Disk::save`: the changed rows in one commit, then the journal is clean. -/
def diskSave : OwnerM Unit := do
  rememberHolds host
  let o ← state
  require (host.encodedActiveLen o.journal ≤ host.activeJobBytes)
    (.corrupt "active journal byte capacity")
  asCorrupt (ensureGeneration env)
  commit env (host.written o.journal o.rows)
  modifyJournal host.settled

/-- A save fails with or without its rows written, or leaves a clean journal. -/
theorem diskSave_cases (o : Owner) : ∃ questions uncertain,
    (∃ e, (diskSave env host).run o =
      (.error e, { ((rememberHolds host).run o).2 with questions := questions, uncertain := uncertain })) ∨
    (∃ e, (diskSave env host).run o = (.error e, { ((rememberHolds host).run o).2 with
      questions := questions, uncertain := uncertain
      rows := host.written ((rememberHolds host).run o).2.journal ((rememberHolds host).run o).2.rows })) ∨
    (((rememberHolds host).run o).1 = .ok () ∧
      host.encodedActiveLen ((rememberHolds host).run o).2.journal ≤ host.activeJobBytes ∧
      (diskSave env host).run o = (.ok (), { ((rememberHolds host).run o).2 with
        questions := questions, uncertain := uncertain
        rows := host.written ((rememberHolds host).run o).2.journal ((rememberHolds host).run o).2.rows
        journal := host.settled ((rememberHolds host).run o).2.journal })) := by
  rcases hholds : (rememberHolds host).run o with ⟨r, o₁⟩
  cases r with
  | error e =>
    refine ⟨o₁.questions, o₁.uncertain, .inl ⟨e, ?_⟩⟩
    simp only [diskSave, run_bind, hholds]
  | ok u =>
    simp only [diskSave, run_bind, hholds, run_state, run_require]
    by_cases hcapacity : host.encodedActiveLen o₁.journal ≤ host.activeJobBytes
    · simp only [if_pos hcapacity, asCorrupt, mapError]
      obtain ⟨questions, hok | ⟨e, herror⟩⟩ := ensureGeneration_cases env o₁
      · simp only [hok, Except.mapError]
        obtain ⟨questions', uncertain, hdone | ⟨e, hnot⟩ | ⟨e, hlost⟩⟩ :=
          commit_cases env (host.written o₁.journal o₁.rows) { o₁ with questions := questions }
        · rw [hdone]
          exact ⟨questions', uncertain, .inr (.inr ⟨trivial, hcapacity, rfl⟩)⟩
        · rw [hnot]
          exact ⟨questions', uncertain, .inl ⟨e, rfl⟩⟩
        · rw [hlost]
          exact ⟨questions', uncertain, .inr (.inl ⟨e, rfl⟩)⟩
      · simp only [herror, Except.mapError]
        exact ⟨questions, o₁.uncertain, .inl ⟨_, rfl⟩⟩
    · simp only [if_neg hcapacity]
      exact ⟨o₁.questions, o₁.uncertain, .inl ⟨_, rfl⟩⟩

/-- Acknowledges a record that is not resident. -/
def diskAcknowledge (id : ℕ) : OwnerM Unit := do
  ensureGeneration env
  let o ← state
  match o.rows.records[id]? with
  | none => require (id < o.journal.nextId) (.invalid "unknown research acknowledgement")
  | some record =>
    require (record.state.terminal = true)
      (.invalid "acknowledged research job is still running or held")
    let key := host.requestKey record.input record.binding record.settings
    commit env
      { o.rows with
        header := o.journal.header
        records := o.rows.records.insert id { record with acknowledged := true }
        requests := if o.rows.requests[key]? = some id then o.rows.requests.erase key
          else o.rows.requests }

def commitGroup (id unit : ℕ) (records : List Program.Command) : OwnerM Unit := do
  let o ← state
  commit env { o.rows with
    header := o.journal.header, programs := ((id, unit), records) :: o.rows.programs }

def saveProgramGroup (id unit : ℕ) (records : List Program.Command) : OwnerM Unit := do
  liftError (host.validateGroup records)
  ensureGeneration env
  let o ← state
  let record ← orThrow (.invalid "provider program original job missing") (o.journal.records.get? id)
  require (unit ≠ 0 ∧ unit ≤ record.reservedUnits ∧ unit ≤ record.checkpoint + 1 ∧
    record.input.isSolve = true) (.invalid "provider program original reservation missing")
  match o.rows.programs.lookup (id, unit) with
  | some previous => require (previous = records) (.invalid "resumed provider program group differs")
  | none => do
    match ← ask env.diskSpace with
    | .error error => Effect.throw error
    | .ok () => commitGroup env id unit records

end Owner

/-- The record rows in the order of their decimal keys. -/
def Rows.scan (rows : Rows) : List (ℕ × Record) :=
  rows.records.toList.mergeSort fun a b => decide (toString a.1 ≤ toString b.1)

/-- What the scan of the record rows has collected. -/
structure Scan where
  journal : Journal
  residentBytes : ℕ
  terminalResidents : List (ℕ × ℕ)
  observedResidents : ℕ
  unacknowledged : ℕ

namespace Host

variable (host : Host)

def checkProgram (rows : Rows) (e : (ℕ × ℕ) × List Program.Command) : Except String Unit := do
  require (e.1.2 ≠ 0) "noncanonical provider program key"
  let record ← orError "provider program job missing" rows.records[e.1.1]?
  require (e.1.2 ≤ record.reservedUnits ∧ record.input.isSolve = true)
    "provider program reservation missing"
  host.validateGroup e.2

/-- The bytes a resident record is charged for at a start. -/
def residentCharge (id : ℕ) (r : Record) : ℕ :=
  host.recordLen r + (toString id).length + 128 + if r.input.isFind then 0 else 8192

def rowAccount (rows : Rows) (r : Record) : Except String (Option Account) :=
  if r.input.isFind then .ok none else host.readAccount rows (host.accountKey r.input)

def scanResident (s : Scan) (r : Record) : Except String Scan :=
  let charge := host.residentCharge r.id r
  let s := { s with observedResidents := s.observedResidents + 1 }
  if r.state.terminal then .ok { s with terminalResidents := s.terminalResidents ++ [(r.id, charge)] }
  else do
    require (s.residentBytes + charge ≤ host.activeJobBytes)
      "resource overload: retained active research obligations exceed installed capacity"
    return { s with
      residentBytes := s.residentBytes + charge
      journal := { s.journal with records := s.journal.records.insert r.id r } }

def scanRecord (rows : Rows) (s : Scan) (e : ℕ × Record) : Except String Scan := do
  require (e.2.id = e.1 ∧ rows.history[e.2.id]? = some e.2.id) "research record row identity differs"
  let account ← host.rowAccount rows e.2
  host.validateRecord e.2.id e.2 rows.header.observedMs rows.header.nextId rows.header.nextCursor
    account
  require (e.2.acknowledged = false →
    rows.requests[host.requestKey e.2.input e.2.binding e.2.settings]? = some e.2.id)
    "research unacknowledged request index differs"
  let s := { s with unacknowledged := s.unacknowledged + if e.2.acknowledged then 0 else 1 }
  if e.2.id ∈ rows.header.residentRecords then host.scanResident s e.2 else return s

/-- Completed results stay resident as far as they fit. -/
def retainTerminal (rows : Rows) (s : Journal × ℕ) (e : ℕ × ℕ) : Except String (Journal × ℕ) :=
  if s.2 + e.2 ≤ host.activeJobBytes ∧ s.1.records.entries.size < host.residentJobs then do
    let record ← orError "research resident record disappeared" rows.records[e.1]?
    return ({ s.1 with records := s.1.records.insert e.1 record }, s.2 + e.2)
  else do
    let retired ← orError "research retired count overflow" (checkedAdd s.1.retiredJobs 1)
    return ({ s.1 with retiredJobs := retired }, s.2)

def requireHeld (rows : Rows) (key : Digest) (account : Account) : Except String Unit :=
  match account.held with
  | none => .ok ()
  | some id => do
    let held ← orError "held research job is missing" rows.records[id]?
    require (held.state = .inDoubt ∧ host.accountKey held.input = key)
      "held research account identity differs"

/-- The accounts of resident obligations are loaded, all others are only checked. -/
def scanAccount (rows : Rows) (needed : List Digest) (j : Journal) (e : Digest × Account) :
    Except String Journal := do
  require (host.accountLen e.2 ≤ 8192) "checkpoint record digest or capacity differs"
  host.validateAccount e.2
  host.requireHeld rows e.1 e.2
  return if e.1 ∈ needed then { j with accounts := j.accounts.insert e.1 e.2 } else j

/-- The journal that the rows describe. -/
def load (rows : Rows) : Except String Journal := do
  rows.programs.forM (host.checkProgram rows)
  require rows.header.residentRecords.Nodup "research resident record index differs"
  let s ← rows.scan.foldlM (host.scanRecord rows) ⟨.fromHeader rows.header, 4096, [], 0, 0⟩
  require (rows.history.size = rows.records.size) "research history index cardinality differs"
  require (rows.requests.size = s.unacknowledged) "research request index cardinality differs"
  require (rows.header.residentRecords.length = s.observedResidents)
    "research resident record is missing"
  let retained ← s.terminalResidents.foldlM (host.retainTerminal rows) (s.journal, s.residentBytes)
  let needed := (retained.1.records.values.filter fun r => !r.input.isFind).map fun r =>
    host.accountKey r.input
  let j ← rows.accounts.toList.foldlM (host.scanAccount rows needed) retained.1
  requireTotals (rows.accounts.toList.map Prod.snd) j.totalReservedUnits j.totalSpentMs
    "research archive unit overflow" "research archive time overflow"
    "research archived allowance differs"
  return j

/-- A job that was in progress: neither a process nor a prior response grants authority. -/
def recoveredState (r : Record) (account : Option Account) (now : ℕ) : State :=
  if r.state = .running ∧ r.settings.recovery = .holdInFlight then .inDoubt
  else if (r.allowance account now).timeExpired then .expired
  else if host.resumable r ∧ r.settings.recovery = .deterministicCheckpoint then .suspended
  else .inDoubt

def recovered (now elapsed : ℕ) (account : Option Account) (r : Record) : Record :=
  let r := { r with spentMs := saturatingAdd r.spentMs elapsed, accountedMs := now }
  { r with state := host.recoveredState r account now }

/-- Charges the downtime to a job in progress and to its account. -/
def recover (now : ℕ) (j : Journal) (id : ℕ) : Except String Journal :=
  match j.records.get? id with
  | none => .ok j
  | some r =>
    if r.state.active then do
      require (r.accountedMs ≤ now) "research clock rollback"
      let elapsed := now - r.accountedMs
      let key := host.accountKey r.input
      let charged := { j with totalSpentMs := saturatingAdd j.totalSpentMs elapsed }.updateAccount key
        fun a => { a with spentMs := saturatingAdd a.spentMs elapsed }
      return charged.updateRecord id (host.recovered now elapsed (charged.accounts.get? key))
    else .ok j

/-- The validated journal of the rows with the downtime until `now` charged. -/
def reopened (rows : Rows) (now : ℕ) : Except String Journal := do
  let loaded ← host.load rows
  host.validate loaded
  require (loaded.observedMs ≤ now)
    "research clock moved backwards; original budgets require reconciliation"
  let j ← loaded.records.entries.keys.foldlM (host.recover now) loaded
  return { j with records := j.records.touchAll, observedMs := now }

end Host

structure RecoveryPage where
  records : List Record
  next : Option ℕ

namespace Host

variable (host : Host)

/-- The history rows that fit the memory of a page. -/
def fitting : List (ℕ × ℕ) → ℕ → List (ℕ × ℕ)
  | [], _ => []
  | e :: es, room =>
    let needed := 20 + (toString e.2).length + 128
    if needed ≤ room then e :: fitting es (room - needed) else []

/-- A single oversized row is overload, never the end of the history. -/
def historyPage (rows : Rows) (after : ℕ) : Except String (List (ℕ × ℕ)) := do
  require (0 < host.terminalJobPage ∧ 0 < host.providerStreamBytes)
    "checkpoint page budget must be positive"
  let later := (rows.history.toList.filter fun e => decide (after < e.1)).take host.terminalJobPage
  let page := fitting later host.providerStreamBytes
  require (later = [] ∨ page ≠ []) "checkpoint record exceeds page memory budget"
  return page

/-- The record of a history row. -/
def historyRecord (rows : Rows) (id : ℕ) : Except String Record := do
  let record ← orError "research history record is missing" rows.records[id]?
  require (record.id = id) "research history record identity differs"
  return record

/-- The unacknowledged records of a page of history below the startup horizon. -/
def pageRecords (rows : Rows) (before : ℕ) (skip : List ℕ) :
    List (ℕ × ℕ) → RecoveryPage → ℕ → Except String RecoveryPage
  | [], page, _ => .ok page
  | e :: es, page, bytes =>
    if e.2 = 0 ∨ e.1 ≠ e.2 then .error "research FIFO history identity differs"
    else if before ≤ e.2 then .ok { page with next := none }
    else if e.2 ∈ skip then pageRecords rows before skip es { page with next := some e.2 } bytes
    else match historyRecord rows e.2 with
      | .error message => .error message
      | .ok record =>
        let size := bytes + host.recordLen record
        if record.acknowledged then
          pageRecords rows before skip es { page with next := some e.2 } bytes
        else if page.records ≠ [] ∧ host.activeJobBytes < size then .ok page
        else pageRecords rows before skip es ⟨page.records ++ [record], some e.2⟩ size

def recoveryPage (rows : Rows) (after before : ℕ) (skip : List ℕ) : Except String RecoveryPage := do
  let page ← host.historyPage rows after
  host.pageRecords rows before skip page ⟨[], none⟩ 0

end Host

namespace Owner
open Effect

variable (env : Environment) (host : Host)

def recoveryPage (after before : ℕ) : OwnerM RecoveryPage := do
  ensureGeneration env
  let o ← state
  liftError (host.recoveryPage o.rows after before o.recoverySkip)

def writeMarker : OwnerM Unit := do
  let o ← state
  if o.established then return () else do
    let marked ← ask env.markerWritten
    require (marked = true) (.invalid "research marker")
    Effect.modify fun o => { o with established := true }

def saveOpened : OwnerM Unit := do
  rememberHolds host
  diskSave env host
  writeMarker env
  Effect.modify fun o => { o with recoverySkip := o.journal.records.entries.keys }

/-- `Disk::open` on existing rows. -/
def openDisk : OwnerM Unit := do
  ensureGeneration env
  let now ← wallMs env
  let o ← state
  let j ← liftError (host.reopened o.rows now)
  modifyJournal fun _ => j
  saveOpened env host

end Owner

end Naome.Jobs
