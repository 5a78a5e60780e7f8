import Naome.ResearchJob
import Naome.TrackedMap
import Naome.Effect
import Naome.KnowledgeIndex

/-!
# The journal of research jobs

The rows of a checkpoint, the journal that is kept in memory, and what a save writes. Every row
that is read again at the next start is validated against the header and the account of its
obligation.
-/
namespace Naome.Jobs
open Outcome

def maxRow : ℕ := 64 * 1024 * 1024

def authoringSourceMaxBytes : ℕ := certificateMaxBytes

def Output.validateWithLimits (output : Output) (input : Input) (sourceBytes objects bytes : ℕ) :
    Except String Unit :=
  match output, input with
  | .question source, .find _ _ =>
    require (source.utf8ByteSize ≤ questionSourceMaxBytes) "provider result type or capacity differs"
  | .proof source helpers, .solve _ =>
    require (source.utf8ByteSize ≤ sourceBytes ∧ helpers.length < objects ∧
      (∀ helper ∈ helpers, helper.utf8ByteSize ≤ sourceBytes) ∧
      source.utf8ByteSize + (helpers.map String.utf8ByteSize).sum ≤ bytes)
      "provider result type or capacity differs"
  | .program units, .solve _ => require (0 < units) "provider result type or capacity differs"
  | .noCandidate, .solve _ => .ok ()
  | .selected _, .select _ _ _ => .ok ()
  | _, _ => .error "provider result type or capacity differs"

def Output.validateRetained (output : Output) (input : Input) : Except String Unit :=
  output.validateWithLimits input authoringSourceMaxBytes certificateMaxSteps (maxRow / 8)

namespace Host

variable (host : Host)

def validateRoot : Input → Except String Unit
  | .select _ _ (some root) => require (host.isIdentity root = true) "identity width"
  | _ => .ok ()

def validateInput (input : Input) : Except String Unit := do
  require (host.compiles input.question = true) "question does not compile"
  host.validateRoot input

def validateBinding (binding : Binding) : Except String Unit := do
  require (∀ value ∈ [binding.snapshot, binding.policy, binding.compatibility, binding.selection],
    host.isIdentity value = true) "identity width"
  require (binding.compatibility = host.compatibility) "research compatibility differs"

/-- Historical allowances are validated against the value format, never against the defaults for
new obligations. -/
def validateHistory (settings : RoleSettings) : Except String Unit :=
  require (settings.limits.horizonMs ≠ 0 ∧ settings.limits.workUnits ≠ 0 ∧
    settings.mock.proofPaddingBytes ≤ authoringSourceMaxBytes ∧
    ∀ ms ∈ [settings.limits.horizonMs, settings.mock.stepMs, settings.mock.cpuMs,
      settings.mock.resultDelayMs], host.representable ms = true)
    "research historical role value exceeds its format"

def validateGroup (records : List Program.Command) : Except String Unit := do
  require (records ≠ [] ∧ records.length ≤ Program.chunkRecords) "provider program group capacity"
  let _ ← records.mapM (Program.encodeCommand host.json)
  require ((records.map fun command => (host.json command).length).sum + records.length + 1 ≤
    Program.chunkBytes) "provider program group byte capacity"

end Host

def validateResult (r : Record) : Except String Unit :=
  match r.result with
  | none => .ok ()
  | some output => do
    output.validateRetained r.input
    match output with
    | .program units =>
      require (units = r.checkpoint) "retained program differs from original checkpoints"
    | _ => .ok ()

def validateObligation (r : Record) (account : Option Account) : Except String Unit :=
  if r.input.isFind then .ok () else
    match account with
    | none => .error "missing original obligation budget"
    | some account =>
      require (account.settings = r.settings ∧ account.createdMs = r.createdMs ∧
        account.expiresMs = r.expiresMs ∧ r.reservedUnits ≤ account.reservedUnits ∧
        r.spentMs ≤ account.spentMs) "research original obligation budget differs"

def validateCursor (input : Input) (nextCursor : ℕ) : Except String Unit :=
  match input with
  | .find cursor _ => require (cursor < nextCursor) "research finding cursor binding differs"
  | _ => .ok ()

def Host.validateRecord (host : Host) (id : ℕ) (r : Record) (observedMs nextId nextCursor : ℕ)
    (account : Option Account) : Except String Unit := do
  host.validateInput r.input
  host.validateBinding r.binding
  host.validateHistory r.settings
  require (id = r.id ∧ id < nextId ∧ host.validCheckpoint r = true ∧
    r.configuration = host.configuration r.settings ∧ r.createdMs ≤ r.accountedMs ∧
    r.accountedMs ≤ observedMs)
    "research record identity, lifecycle, checkpoint or budget differs"
  let horizon ← orError "job horizon overflow" (checkedAdd r.createdMs r.settings.limits.horizonMs)
  require (r.expiresMs = horizon ∧ r.checkpoint ≤ r.reservedUnits ∧
    r.reservedUnits ≤ r.settings.limits.workUnits ∧
    (r.acknowledged = true → r.state.terminal = true) ∧ (r.state = .complete ↔ r.result.isSome = true))
    "research record identity, lifecycle, checkpoint or budget differs"
  require (∀ reason ∈ r.failure, reason.utf8ByteSize ≤ maxRow) "research failure detail capacity"
  validateResult r
  validateObligation r account
  validateCursor r.input nextCursor

def Host.validateAccount (host : Host) (account : Account) : Except String Unit := do
  host.validateHistory account.settings
  require (account.settings.limits.horizonMs ≠ 0 ∧ account.settings.limits.workUnits ≠ 0 ∧
    checkedAdd account.createdMs account.settings.limits.horizonMs = some account.expiresMs ∧
    account.held ≠ some 0 ∧ account.reservedUnits ≤ account.settings.limits.workUnits)
    "research obligation allowance corruption"

structure Journal where
  nextId : ℕ
  nextCursor : ℕ
  observedMs : ℕ
  retiredJobs : ℕ
  totalSpentMs : ℕ
  totalReservedUnits : ℕ
  records : TrackedMap ℕ Record
  accounts : TrackedMap Digest Account

structure Header where
  nextId : ℕ
  nextCursor : ℕ
  observedMs : ℕ
  retiredJobs : ℕ
  totalSpentMs : ℕ
  totalReservedUnits : ℕ
  residentRecords : List ℕ
  deriving DecidableEq, Repr

/-- The committed rows of the checkpoint, by kind. -/
structure Rows where
  header : Header
  records : Std.TreeMap ℕ Record
  accounts : DigestMap Account
  requests : DigestMap ℕ
  history : Std.TreeMap ℕ ℕ
  programs : List ((ℕ × ℕ) × List Program.Command)

namespace Journal

def header (j : Journal) : Header :=
  ⟨j.nextId, j.nextCursor, j.observedMs, j.retiredJobs, j.totalSpentMs, j.totalReservedUnits,
    j.records.entries.keys⟩

def fromHeader (h : Header) : Journal :=
  ⟨h.nextId, h.nextCursor, h.observedMs, h.retiredJobs, h.totalSpentMs, h.totalReservedUnits,
    .empty, .empty⟩

/-- The journal of a directory without one. -/
def fresh (cursor now : ℕ) : Journal := ⟨1, cursor, now, 0, 0, 0, .empty, .empty⟩

def updateRecord (j : Journal) (id : ℕ) (f : Record → Record) : Journal :=
  { j with records := j.records.update id f }

def updateAccount (j : Journal) (key : Digest) (f : Account → Account) : Journal :=
  { j with accounts := j.accounts.update key f }

end Journal

def Rows.fresh (j : Journal) : Rows := ⟨j.header, ∅, ∅, ∅, ∅, []⟩

def checkedSum (values : List ℕ) : Option ℕ := values.foldlM checkedAdd 0

/-- The accounts stay within the totals ever reserved and charged. -/
def requireTotals (accounts : List Account) (units spent : ℕ)
    (unitOverflow timeOverflow differs : String) : Except String Unit := do
  let reserved ← orError unitOverflow (checkedSum (accounts.map Account.reservedUnits))
  let charged ← orError timeOverflow (checkedSum (accounts.map Account.spentMs))
  require (reserved ≤ units ∧ charged ≤ spent) differs

namespace Host

variable (host : Host)

def original (j : Journal) (r : Record) : Option Account := j.accounts.get? (host.accountKey r.input)

def validateChanges (j : Journal) (full : Bool) : Except String Unit := do
  require (j.nextId ≠ 0) "research journal compatibility, configuration or capacity differs"
  require (((checkedAdd j.retiredJobs j.records.entries.size).bind (checkedAdd · 1)) = some j.nextId)
    "research monotonic sequence or retired accounting differs"
  requireTotals j.accounts.values j.totalReservedUnits j.totalSpentMs
    "research aggregate units overflow" "research aggregate time overflow"
    "research aggregate original allowance differs"
  j.records.entries.toList.forM fun e =>
    if full || j.records.changed e.1 then
      host.validateRecord e.1 e.2 j.observedMs j.nextId j.nextCursor (host.original j e.2)
    else .ok ()
  j.accounts.entries.toList.forM fun e =>
    if full || j.accounts.changed e.1 then host.validateAccount e.2 else .ok ()

def validate (j : Journal) : Except String Unit := host.validateChanges j true

def validateDelta (j : Journal) : Except String Unit := host.validateChanges j false

def encodedActiveLen (j : Journal) : ℕ :=
  (j.records.entries.toList.map fun e => host.recordLen e.2 + (toString e.1).length + 4).sum +
    (j.accounts.values.map fun account => host.accountLen account + 64 + 4).sum + 4096

/-- The request row of a changed record, decided on the rows committed before the save. -/
def requestUpdate (committed requests : DigestMap ℕ) (e : ℕ × Record) : DigestMap ℕ :=
  let key := host.requestKey e.2.input e.2.binding e.2.settings
  if e.2.acknowledged then
    if committed[key]? = some e.1 then requests.erase key else requests
  else requests.insert key e.1

/-- What a save of the journal commits. -/
def written (j : Journal) (rows : Rows) : Rows where
  header := j.header
  records := j.records.writePuts rows.records
  accounts := j.accounts.writeAll rows.accounts
  requests := j.records.puts.foldl (host.requestUpdate rows.requests) rows.requests
  history := j.records.puts.foldl (fun history e => history.insertIfNew e.1 e.1) rows.history
  programs := rows.programs

/-- After a save nothing is changed, and only the accounts of resident records stay in memory. -/
def settled (j : Journal) : Journal :=
  let retained := (j.records.values.filter fun r => !r.input.isFind).map fun r =>
    host.accountKey r.input
  { j with records := j.records.clean, accounts := j.accounts.clean.evictExcept (· ∈ retained) }

end Host

end Naome.Jobs
