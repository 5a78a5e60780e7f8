import Naome.ResearchDisk

/-!
# The owner of research jobs

Commands of clients, events of providers and the regular reconciliation. An iteration that fails
ends the owner after it stopped its jobs; a crash ends it at once.
-/
namespace Naome.Jobs
open Outcome Effect

def Host.outputReservation (host : Host) : Input → ℕ
  | .solve _ => 6 * host.closureBytes + 1024
  | .find _ _ => 6 * questionSourceMaxBytes + 128
  | .select _ _ _ => 64

def Journal.retire (j : Journal) (id : ℕ) : Journal :=
  { j with records := j.records.remove id, retiredJobs := j.retiredJobs + 1 }

namespace Owner

/-- Terminal or uncertain, with its process gone. -/
def finished (o : Owner) (e : ℕ × Record) : Bool :=
  (e.2.state.terminal || decide (e.2.state = .inDoubt)) && !o.running.contains e.1

/-- The oldest unchanged finished jobs leave memory; their rows stay. -/
def compacted (o : Owner) (page : ℕ) : Owner :=
  let terminal := (o.journal.records.entries.toList.filter o.finished).map Prod.fst
  let ids := (terminal.filter fun id => !o.journal.records.changed id).take (terminal.length - page)
  o.setJournal (ids.foldl Journal.retire o.journal)

def oldest (o : Owner) : Option ℕ :=
  (o.journal.records.entries.toList.find? fun e =>
    o.finished e && !o.journal.records.changed e.1).map Prod.fst

variable (env : Environment) (host : Host)

/-- Retires finished jobs until the journal and `future` bytes fit. -/
def shrink (future : ℕ) : ℕ → Owner → Bool × Owner
  | 0, o => (decide (host.encodedActiveLen o.journal + future + 256 ≤ host.activeJobBytes), o)
  | n + 1, o =>
    if host.encodedActiveLen o.journal + future + 256 ≤ host.activeJobBytes then (true, o)
    else match o.oldest with
      | none => (false, o)
      | some id => shrink future n (o.setJournal (o.journal.retire id))

def compact : OwnerM Unit := do
  let active ← ask env.active
  Effect.modify fun o => o.compacted active.terminalJobPage

def compactBytes (additional : ℕ) : OwnerM Bool := do
  compact env
  let o ← state
  let future := ((o.journal.records.values.filter fun r => r.state.active).map fun r =>
    host.outputReservation r.input).sum + additional
  ⟨fun o => (.ok (shrink host future o.journal.records.entries.size o).1,
    (shrink host future o.journal.records.entries.size o).2)⟩

def save : OwnerM Unit := do
  let now ← asCorrupt (wallMs env)
  let j ← getJournal
  require (j.observedMs ≤ now) (.corrupt "research clock moved backwards; no fresh allowance")
  modifyJournal fun j => { j with observedMs := now }
  rememberHolds host
  let fits ← compactBytes env host 0
  require (fits = true) (.corrupt "research reserved result byte capacity")
  let j ← getJournal
  asCorrupt (liftError (host.validateDelta j))
  diskSave env host

/-- Keeps an uncertain outcome without consulting the clock again. -/
def retainUncertainty : OwnerM Unit := do
  modifyJournal fun j =>
    { j with observedMs := (j.records.values.map Record.accountedMs).foldl max j.observedMs }
  rememberHolds host
  let j ← getJournal
  liftError (host.validateDelta j)
  diskSave env host

def updateRecord (id : ℕ) (f : Record → Record) : OwnerM Unit :=
  modifyJournal fun j => j.updateRecord id f

end Owner

namespace Journal

/-- Time is charged to the record, its account and the total. -/
def chargeTime (j : Journal) (id : ℕ) (key : Digest) (now elapsed : ℕ) : Journal :=
  ({ j with totalSpentMs := saturatingAdd j.totalSpentMs elapsed }.updateRecord id fun r =>
    { r with spentMs := saturatingAdd r.spentMs elapsed, accountedMs := now }).updateAccount key
      fun a => { a with spentMs := saturatingAdd a.spentMs elapsed }

/-- A unit is reserved in the record, its account and the total. -/
def reserveUnit (j : Journal) (id : ℕ) (key : Digest) : Journal :=
  ({ j with totalReservedUnits := saturatingAdd j.totalReservedUnits 1 }.updateRecord id fun r =>
    { r with reservedUnits := r.reservedUnits + 1 }).updateAccount key
      fun a => { a with reservedUnits := a.reservedUnits + 1 }

end Journal

namespace Owner

variable (env : Environment) (host : Host)

/-- Charges the time since the last charge. -/
def charge (id : ℕ) : OwnerM Unit := do
  let now ← wallMs env
  let j ← getJournal
  require (j.observedMs ≤ now) (.invalid "research clock rollback")
  let answer ← ask env.elapsedMs
  let elapsed ← orThrow (.invalid "research elapsed overflow") (answer.map UInt64.toNat)
  let r ← orThrow (.invalid "research accounting record absent") (j.records.get? id)
  modifyJournal fun j => j.chargeTime id (host.accountKey r.input) now elapsed

/-- The outcome of a reservation; a grant carries its input and the clock it was decided at. -/
inductive Reservation
  | granted (input : Input) (now : ℕ)
  | exhausted

def reserve (id next : ℕ) : OwnerM Reservation := do
  charge env host id
  let now ← wallMs env
  updateRecord id fun r => r
  let j ← getJournal
  let r ← orThrow (.invalid "research reservation record absent") (j.records.get? id)
  require (r.state = .running ∧ next = r.checkpoint + 1)
    (.invalid "research reservation lifecycle differs")
  if (r.allowance (host.original j r) now).canReserve then do
    modifyJournal fun j => j.reserveUnit id (host.accountKey r.input)
    save env host
    return .granted r.input now
  else do
    updateRecord id fun r => { r with state := .expired, result := none }
    save env host
    return .exhausted

def allowanceExpired (id : ℕ) : OwnerM Bool := do
  let j ← getJournal
  let r ← orThrow (.invalid "completion research identity absent") (j.records.get? id)
  let now ← wallMs env
  return (r.allowance (host.original j r) now).timeExpired

/-- The completion of a terminal job goes to everyone who waits for it. -/
def deliver (id : ℕ) : OwnerM Unit := do
  let j ← getJournal
  let r ← orThrow (.corrupt "delivered research record absent") (j.records.get? id)
  if r.state.terminal then Effect.modify fun o => { o with waiters := o.waiters.erase id }
  else return ()

/-- Whether every client that waits for the job is gone. -/
def abandoned (id : ℕ) : OwnerM Bool := do
  let gone ← ask env.closed
  let o ← state
  return ((o.waiters[id]?).getD []).all gone

def joinWaiters (r : Record) (reply : Reply) : OwnerM Unit := do
  let gone ← ask env.closed
  let active ← ask env.active
  let o ← state
  let waiting := ((o.waiters[r.id]?).getD []).filter fun reply => !gone reply
  if active.waitersPerJob ≤ waiting.length then
    Effect.modify fun o => { o with waiters := o.waiters.insert r.id waiting }
  else do
    Effect.modify fun o => { o with waiters := o.waiters.insert r.id (waiting ++ [reply]) }
    if r.state.terminal then deliver r.id else return ()

/-- The account of an obligation, from memory or from its row. -/
def originalAccount (input : Input) : OwnerM (Option Account) := do
  let j ← getJournal
  if input.isFind then return none
  else match j.accounts.get? (host.accountKey input) with
    | some account => return some account
    | none => account env host (host.accountKey input)

def createRecord (input : Input) (binding : Binding) (reply : Reply) (now : ℕ) (original : Account) :
    OwnerM Unit := do
  let j ← getJournal
  let nextId ← orThrow (.invalid "research job identity exhausted") (checkedAdd j.nextId 1)
  let record : Record :=
    { id := j.nextId
      input := input
      binding := binding
      provider := defaultProvider
      configuration := host.configuration original.settings
      settings := original.settings
      createdMs := original.createdMs
      expiresMs := original.expiresMs
      accountedMs := now
      spentMs := original.spentMs
      reservedUnits := original.reservedUnits
      checkpoint := 0
      state := .queued
      result := none
      acknowledged := false
      failure := none }
  modifyJournal fun j => { j with nextId := nextId, records := j.records.insert j.nextId record }
  Effect.modify fun o => { o with waiters := o.waiters.insert record.id [reply] }
  save env host

def insertAccount (key : Digest) (account : Account) : OwnerM Unit :=
  modifyJournal fun j => { j with accounts := j.accounts.insert key account }

/-- A finding consumes its cursor. -/
def admitFinding (input : Input) (cursor : ℕ) (binding : Binding) (reply : Reply) (now : ℕ)
    (new : Account) : OwnerM Unit := do
  let j ← getJournal
  if cursor < j.nextCursor then return ()
  else do
    let nextCursor ← orThrow (.invalid "research finding cursor exhausted") (checkedAdd cursor 1)
    modifyJournal fun j => { j with nextCursor := nextCursor }
    createRecord env host input binding reply now new

/-- A job continues the account of its obligation, or opens it. -/
def admitObligation (input : Input) (binding : Binding) (reply : Reply) (now : ℕ) (new : Account) :
    Option Account → OwnerM Unit
  | some account =>
    if account.held.isSome || !(account.allowance now).canReserve then return ()
    else do
      insertAccount (host.accountKey input) account
      createRecord env host input binding reply now account
  | none => do
    insertAccount (host.accountKey input) new
    createRecord env host input binding reply now new

def admitNew (input : Input) (binding : Binding) (reply : Reply) (settings : RoleSettings)
    (original : Option Account) : OwnerM Unit := do
  let now ← wallMs env
  let j ← getJournal
  require (j.observedMs ≤ now) (.invalid "research clock rollback")
  let expires ← orThrow (.invalid "research horizon overflow")
    (checkedAdd now settings.limits.horizonMs)
  let new : Account := ⟨settings, now, expires, 0, 0, none⟩
  match input with
  | .find cursor _ => admitFinding env host input cursor binding reply now new
  | _ => admitObligation env host input binding reply now new original

/-- Room for a new job: its bytes, a resident record and a place in the queue of its role. -/
def submitNew (input : Input) (binding : Binding) (reply : Reply) (settings : RoleSettings)
    (original : Option Account) : OwnerM Unit := do
  match ← ask env.diskSpace with
  | .error _ => return ()
  | .ok () => do
    compact env
    let fits ← compactBytes env host
      (host.outputReservation input + host.requestLen input binding settings + 4096)
    let active ← ask env.active
    let j ← getJournal
    let queued := j.records.values.countP fun r =>
      r.state.active && decide (r.input.lane = input.lane)
    if fits && decide (j.records.entries.size < host.residentJobs ∧
        queued < active.queuedJobsPerRole + host.workers.getD input.lane 0) then
      admitNew env host input binding reply settings original
    else return ()

def submitArchived (input : Input) (binding : Binding) (reply : Reply) (settings : RoleSettings)
    (original : Option Account) : OwnerM Unit := do
  match ← request env host input binding settings with
  | some r =>
    require (r.state.terminal = true ∨ r.state = .inDoubt)
      (.invalid "nonterminal research job is absent from its resident working set")
  | none => submitNew env host input binding reply settings original

def submit (input : Input) (binding : Binding) (reply : Reply) : OwnerM Unit := do
  let closed ← ask env.closed
  if closed reply then return ()
  else do
    let original ← originalAccount env host input
    let o ← state
    let settings := original.elim (o.settings.forInput input) Account.settings
    let records := o.journal.records.values
    if records.any fun r => decide (r.input = input ∧ r.state = .inDoubt) then return ()
    else match records.find? fun r => decide (r.input = input ∧ r.binding = binding ∧
        r.acknowledged = false ∧ r.configuration = host.configuration settings) with
      | some r => joinWaiters env r reply
      | none => submitArchived env host input binding reply settings original

/-- Whether the iteration goes on to programs and scheduling. -/
def acknowledge (id : ℕ) : OwnerM Bool := do
  let j ← getJournal
  if id = 0 then return false
  else match j.records.get? id with
    | none => do
      diskAcknowledge env host id
      return false
    | some r => do
      updateRecord id fun r => r
      require (r.state.terminal = true) (.invalid "acknowledged research job is still running")
      updateRecord id fun r => { r with acknowledged := true }
      compact env
      save env host
      return true

def discardOne (id : ℕ) : OwnerM Unit := do
  let gone ← ask env.closed
  Effect.modify fun o => match o.waiters[id]? with
    | some waiting => { o with waiters := o.waiters.insert id (waiting.filter fun reply => !gone reply) }
    | none => o
  let o ← state
  if (o.waiters[id]?).getD [] = [] then do
    updateRecord id fun r =>
      if r.state.terminal then r else { r with state := .cancelled, result := none }
    if o.running.contains id then return ()
    else updateRecord id fun r => { r with acknowledged := true }
  else return ()

/-- An archived result that nobody waits for any more. -/
def discardArchived (input : Input) (binding : Binding) : OwnerM Unit := do
  let o ← state
  match ← request env host input binding (o.settings.forInput input) with
  | none => return ()
  | some r =>
    if (o.journal.records.get? r.id).isNone && r.state.terminal then diskAcknowledge env host r.id
    else return ()

def discard (input : Input) (binding : Binding) : OwnerM Unit := do
  discardArchived env host input binding
  let j ← getJournal
  forEach (discardOne env) ((j.records.values.filter fun r => decide (r.input = input ∧
    r.binding = binding ∧ r.acknowledged = false ∧ r.state ≠ .inDoubt)).map Record.id)
  compact env
  save env host

/-- A cancelled or expired job gets no more work. -/
def withdrawn (id : ℕ) : OwnerM Bool := do
  let j ← getJournal
  return match j.records.get? id with
    | some r => decide (r.state = .cancelled ∨ r.state = .expired)
    | none => false

def recordGrant (input : Input) (now : ℕ) : OwnerM Unit := Effect.modify fun o =>
  { o with granted := ⟨input, now, o.rows.accounts[host.accountKey input]?⟩ :: o.granted }

def reserveEvent (id next : ℕ) : OwnerM Bool := do
  if ← withdrawn id then return false
  else match ← reserve env host id next with
    | .granted input now => do
      recordGrant host input now
      return true
    | .exhausted => return true

def progress (id checkpoint : ℕ) : OwnerM Unit := do
  charge env host id
  let j ← getJournal
  let r ← orThrow (.invalid "unknown provider progress") (j.records.get? id)
  updateRecord id fun r => r
  require (r.state = .running) (.invalid "research checkpoint cancelled")
  require (checkpoint = r.checkpoint + 1 ∧ checkpoint ≤ r.reservedUnits)
    (.invalid "provider checkpoint differs from its durable reservation")
  updateRecord id fun r => { r with checkpoint := checkpoint }
  save env host

def progressEvent (id checkpoint : ℕ) : OwnerM Bool := do
  if ← withdrawn id then return false
  else do
    progress env host id checkpoint
    return true

def programEvent (id unit : ℕ) (records : List Program.Command) (reply : Reply) : OwnerM Unit :=
  Effect.modify fun o =>
    if o.programs.contains id then o
    else { o with programs := o.programs.insert id ⟨unit, records, reply⟩ }

def persistProgram (id : ℕ) (pending : PendingProgram) : OwnerM Unit := do
  let j ← getJournal
  let r ← orThrow (.invalid "unknown program job") (j.records.get? id)
  require (r.state = .running ∧ pending.unit = r.checkpoint + 1 ∧ pending.unit ≤ r.reservedUnits ∧
    r.input.isSolve = true) (.invalid "program group lacks its original reservation")
  match ← ask env.diskSpace with
  | .error error => Effect.throw error
  | .ok () => do
    charge env host id
    save env host
    saveProgramGroup env host id pending.unit pending.records

/-- Writes a group, keeps it for a retry, or reports why it cannot be written. -/
def persistOne (id : ℕ) : OwnerM Unit := do
  let o ← state
  let pending ← orThrow (.corrupt "owned candidate group") o.programs[id]?
  Effect.modify fun o => { o with programs := o.programs.erase id }
  let closed ← ask env.closed
  if closed pending.reply then return ()
  else match ← attempt (persistProgram env host id pending) with
    | .ok () => return ()
    | .error error =>
      if error.retryable then
        Effect.modify fun o => { o with programs := o.programs.insert id pending }
      else if error.fatal then Effect.throw error
      else return ()

def persistPrograms : OwnerM Unit := do
  let o ← state
  forEach (persistOne env host) o.programs.keys

/-- The longest beginning of a failure text that fits. -/
def Host.failureDetail (host : Host) (error : String) : String :=
  let rec go : List Char → ℕ → List Char
    | [], _ => []
    | c :: cs, index =>
      if index + c.utf8Size ≤ host.failureDetailBytes then c :: go cs (index + c.utf8Size) else []
  String.ofList (go error.toList 0)

def failureOf (host : Host) : Except String Output → Option String
  | .ok _ => none
  | .error error => some (Host.failureDetail host error)

def finishRunning (id : ℕ) : OwnerM Unit :=
  Effect.modify fun o => { o with running := o.running.erase id }

/-- An outcome that may have left effects: the job is held, and the owner stops. -/
def completeInDoubt (id : ℕ) (outcome : Completed) : OwnerM Unit := do
  let j ← getJournal
  let _ ← orThrow (.invalid "unknown provider completion") (j.records.get? id)
  updateRecord id fun r => { r with
    state := .inDoubt, acknowledged := false, result := none, failure := failureOf host outcome.result }
  let _ ← attempt (charge env host id)
  finishRunning id
  let _ ← attempt (retainUncertainty env host)
  Effect.throw (.invalid "provider cleanup or effects require reconciliation")

def settleRecord (r : Record) (outcome : Completed) (expired : Bool) : Record :=
  if r.state.terminal then r
  else
    let r := { r with state := if expired then .expired else outcome.state }
    match outcome.result with
    | .ok output => { r with result := if expired then none else some output }
    | .error error => { r with failure := some (Host.failureDetail host error) }

def acknowledgeAbandoned (gone : Bool) (r : Record) : Record :=
  if gone && r.state.terminal then { r with acknowledged := true } else r

def complete (id : ℕ) (outcome : Completed) : OwnerM Unit := do
  if outcome.state = .inDoubt then completeInDoubt env host id outcome
  else do
    charge env host id
    let expired ← allowanceExpired env host id
    let j ← getJournal
    let r ← orThrow (.invalid "unknown provider completion") (j.records.get? id)
    let settled := settleRecord host r outcome expired
    let gone ← abandoned env id
    updateRecord id fun r => acknowledgeAbandoned gone (settleRecord host r outcome expired)
    save env host
    finishRunning id
    deliver id
    require (settled.state ≠ .inDoubt) (.invalid "provider cleanup or effects require reconciliation")

def startJob (id lane : ℕ) : OwnerM Unit := do
  charge env host id
  let now ← wallMs env
  let j ← getJournal
  let r ← orThrow (.invalid "queued research job absent") (j.records.get? id)
  let allowance := r.allowance (host.original j r) now
  let finalizing := host.complete r r.checkpoint &&
    decide (r.settings.recovery = .deterministicCheckpoint)
  if allowance.timeExpired || (decide (allowance.remainingUnits = 0) && !finalizing) then do
    updateRecord id fun r => { r with state := .expired }
    save env host
    deliver id
  else do
    updateRecord id fun r => { r with state := .running }
    save env host
    Effect.modify fun o => { o with
      running := o.running.insert id, tasks := o.tasks ++ [id], nextLane := (lane + 1) % 4 }

def startJobs (lane : ℕ) : List ℕ → OwnerM Unit
  | [] => return ()
  | id :: ids => do
    if ← ask env.computation then do
      let slot ← ask env.slot
      let free ← liftError slot
      onlyIf free (startJob env host id lane)
      startJobs lane ids
    else return ()

def laneOf (j : Journal) (id : ℕ) : Option ℕ := (j.records.get? id).map fun r => r.input.lane

def scheduleLane (lane : ℕ) : OwnerM Unit := do
  let slots ← ask env.slots
  let gone ← ask env.closed
  let o ← state
  let active := o.running.toList.countP fun id => decide (laneOf o.journal id = some lane)
  let room := min (host.workers.getD lane 0 - active) (slots - o.running.size)
  let ready := o.journal.records.entries.toList.filter fun e =>
    decide (e.2.input.lane = lane ∧ (e.2.state = .queued ∨ e.2.state = .suspended)) &&
      ((o.waiters[e.1]?).getD []).any fun reply => !gone reply
  startJobs env host lane ((ready.map Prod.fst).take room)

def schedule : OwnerM Unit := do
  let o ← state
  forEach (scheduleLane env host) ((List.range 4).map fun offset => (o.nextLane + offset) % 4)

def cancelOrExpire (id : ℕ) (cancelled expired : Bool) : OwnerM Unit := do
  updateRecord id fun r =>
    { r with state := if expired then .expired else .cancelled, result := none }
  let o ← state
  if o.running.contains id then return ()
  else do
    onlyIf cancelled (updateRecord id fun r => { r with acknowledged := true })
    deliver id

/-- Charges a job somebody waits for; ends it when its time is over or nobody waits any more. -/
def reconcileOne (now id : ℕ) : OwnerM Bool := do
  let o ← state
  let waited := o.waiters.contains id
  onlyIf waited (charge env host id)
  let gone ← abandoned env id
  let j ← getJournal
  let r ← orThrow (.corrupt "research reconciliation identity") (j.records.get? id)
  updateRecord id fun r => r
  let expired := (r.allowance (host.original j r) now).timeExpired
  if (waited && gone) || expired then do
    cancelOrExpire id (waited && gone) expired
    return true
  else return waited

def reconcileAll (now : ℕ) : List ℕ → OwnerM Bool
  | [] => return false
  | id :: ids => do
    let changed ← reconcileOne env host now id
    let rest ← reconcileAll now ids
    return changed || rest

def reconcile : OwnerM Unit := do
  let now ← wallMs env
  let j ← getJournal
  require (j.observedMs ≤ now) (.invalid "research clock rollback")
  let changed ← reconcileAll env host now
    ((j.records.values.filter fun r => r.state.active).map Record.id)
  let due ← ask env.flushDue
  if changed && due then save env host else return ()

def stopRunning (id : ℕ) : OwnerM Unit := do
  let _ ← attempt (charge env host id)
  updateRecord id fun r =>
    if r.state.active then
      { r with state := if r.settings.recovery = .holdInFlight then .inDoubt else .suspended }
    else r

/-- The result of a job that was suspended while its process ended. -/
def stopResult (id : ℕ) (output : Output) : OwnerM Unit := do
  let j ← getJournal
  match j.records.get? id with
  | none => return ()
  | some r =>
    updateRecord id fun r => r
    if r.state = .suspended then do
      let expired ← attempt (allowanceExpired env host id)
      let exhausted := match expired with
        | .ok expired => expired
        | .error _ => true
      updateRecord id fun r => { r with
        state := if exhausted then .expired else .complete
        result := if exhausted then none else some output }
    else return ()

def stopTask (id : ℕ) (outcome : Completed) : OwnerM Unit := do
  let _ ← attempt (charge env host id)
  if outcome.state = .inDoubt then
    updateRecord id fun r => { r with
      state := .inDoubt, acknowledged := false, result := none
      failure := failureOf host outcome.result }
  else match outcome.result with
    | .ok output => stopResult env host id output
    | .error _ => return ()

/-- The processes end one after another, in the order of the environment. -/
def stopTasks : ℕ → OwnerM Unit
  | 0 => return ()
  | n + 1 => do
    let o ← state
    let pick ← ask env.nextTask
    let outcome ← ask env.outcome
    match o.tasks[pick % o.tasks.length]? with
    | none => return ()
    | some id => do
      Effect.modify fun o => { o with tasks := o.tasks.eraseIdx (pick % o.tasks.length) }
      stopTask env host id outcome
      stopTasks n

def stopAll : OwnerM Unit := do
  let o ← state
  forEach (stopRunning env host) o.running.toList
  let _ ← attempt (save env host)
  Effect.modify fun o => { o with running := ∅ }
  stopTasks env host o.tasks.length
  Effect.modify fun o => { o with waiters := ∅ }
  match ← attempt (save env host) with
  | .ok () => return ()
  | .error _ => do
    let j ← getJournal
    if j.records.values.any fun r => decide (r.state = .inDoubt) then
      retainUncertainty env host
    else return ()

inductive Event
  | submit (input : Input) (binding : Binding) (reply : Reply)
  | recover (after before : ℕ)
  | acknowledge (id : ℕ)
  | discard (input : Input) (binding : Binding)
  | program (id unit : ℕ) (records : List Program.Command) (reply : Reply)
  | reserve (id next : ℕ)
  | progress (id checkpoint : ℕ)
  | completed (pick : ℕ) (outcome : Completed)
  | tick

/-- A process that ended leaves the tasks before its outcome is handled. -/
def completedEvent (pick : ℕ) (outcome : Completed) : OwnerM Unit := do
  let o ← state
  match o.tasks[pick % o.tasks.length]? with
  | none => return ()
  | some id => do
    Effect.modify fun o => { o with tasks := o.tasks.eraseIdx (pick % o.tasks.length) }
    complete env host id outcome

/-- One branch of the loop; whether it goes on to programs and scheduling. -/
def handle : Event → OwnerM Bool
  | .submit input binding reply => do
    submit env host input binding reply
    return true
  | .recover after before => do
    let _ ← recoveryPage env host after before
    return true
  | .acknowledge id => acknowledge env host id
  | .discard input binding => do
    discard env host input binding
    return true
  | .program id unit records reply => do
    programEvent id unit records reply
    return true
  | .reserve id next => reserveEvent env host id next
  | .progress id checkpoint => progressEvent env host id checkpoint
  | .completed pick outcome => do
    completedEvent env host pick outcome
    return true
  | .tick => do
    reconcile env host
    return true

def iteration (event : Event) : OwnerM Unit := do
  if ← handle env host event then do
    persistPrograms env host
    schedule env host
  else return ()

end Owner

/-- What survives the process. -/
structure Machine where
  questions : ℕ
  rows : Option Rows
  established : Bool
  granted : List Grant

inductive Node
  | stopped (machine : Machine)
  | running (owner : Owner)

def Owner.machine (o : Owner) : Machine := ⟨o.questions, some o.rows, o.established, o.granted⟩

def Node.machine : Node → Machine
  | .stopped machine => machine
  | .running owner => owner.machine

/-- An owner that has not read its rows yet. -/
def Machine.boot (m : Machine) (settings : Settings) : Owner where
  questions := m.questions
  rows := m.rows.getD (.fresh (.fresh 0 0))
  established := m.established
  granted := m.granted
  uncertain := false
  journal := .fresh 0 0
  settings := settings
  waiters := ∅
  running := ∅
  programs := ∅
  tasks := []
  nextLane := 0
  recoverySkip := []

/-- A step of the node. A crash inside an iteration leaves what an iteration leaves whose later
commits are refused, or written with the answer lost. -/
inductive Step
  | start (settings : Settings) (cursor : ℕ)
  | event (event : Owner.Event)
  | halt
  | crash

section Run

variable (env : Environment) (host : Host)

/-- The limits of one role, at the time its horizon is counted from. -/
def Owner.validateRole (role : RoleSettings) : OwnerM Unit := do
  require (role.limits.horizonMs ≠ 0 ∧ role.limits.workUnits ≠ 0)
    (.invalid "research role horizon or workload limit")
  let now ← wallMs env
  require ((checkedAdd now role.limits.horizonMs).isSome = true ∧
    (∀ ms ∈ [role.limits.horizonMs, role.mock.stepMs, role.mock.cpuMs, role.mock.resultDelayMs],
      host.representable ms = true) ∧
    role.mock.proofPaddingBytes ≤ host.proofBytes)
    (.invalid "research role horizon or workload limit")
  require (host.developerTools = true ∨ role.mock = .standard)
    (.invalid "controlled mock workloads require developer-tools")

def Owner.validateSettings (settings : Settings) : OwnerM Unit :=
  forEach (validateRole env host) [settings.finding, settings.solving, settings.selection]

/-- Opens existing rows. -/
def Machine.open (m : Machine) (settings : Settings) : Node :=
  match (Owner.openDisk env host).run (m.boot settings) with
  | (.ok (), owner) => .running owner
  | (.error _, owner) => .stopped owner.machine

/-- Creates the rows, unless the directory was already in use, and opens them. -/
def Machine.create (m : Machine) (settings : Settings) (cursor : ℕ) : Node :=
  let asked := { m with questions := m.questions + 2 }
  if m.established then .stopped m
  else match env.wallMs m.questions with
    | .error _ => .stopped asked
    | .ok now =>
      let journal := Journal.fresh cursor now.toNat
      let created := { asked with rows := some (.fresh journal) }
      match host.validate journal, env.commit (m.questions + 1) with
      | .ok (), .committed => created.open env host settings
      | .ok (), .uncertain true => .stopped created
      | _, _ => .stopped asked

/-- The settings are validated before the rows are opened or created. -/
def Machine.start (m : Machine) (settings : Settings) (cursor : ℕ) : Node :=
  let (validated, owner) := (Owner.validateSettings env host settings).run (m.boot settings)
  let asked := { m with questions := owner.questions }
  match validated with
  | .error _ => .stopped asked
  | .ok () =>
    match m.rows with
    | some _ => asked.open env host settings
    | none => asked.create env host settings cursor

def Owner.stop (o : Owner) : Node := .stopped ((Owner.stopAll env host).run o).2.machine

def step : Node → Step → Node
  | .stopped m, .start settings cursor => m.start env host settings cursor
  | .running o, .event event =>
    match (Owner.iteration env host event).run o with
    | (.ok (), o') => .running o'
    | (.error _, o') => o'.stop env host
  | .running o, .halt => o.stop env host
  | .running o, .crash => .stopped o.machine
  | node, _ => node

def run (steps : List Step) : Node := steps.foldl (step env host) (.stopped ⟨0, none, false, []⟩)

end Run

end Naome.Jobs
