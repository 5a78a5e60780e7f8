import Naome.ProgramStream

/-!
# Research jobs

Inputs, settings and records of research jobs, and the bounds on time and work units of an
obligation. A result is a candidate, never admission.
-/
namespace Naome.Jobs
open Outcome

def checkedAdd (a b : ℕ) : Option ℕ := if a + b < u64Limit then some (a + b) else none

structure Limits where
  horizonMs : ℕ
  workUnits : ℕ
  deriving DecidableEq, Repr

inductive MockOutcome
  | success
  | failed
  | malformed
  | wrongTarget
  deriving DecidableEq, Repr

structure MockWork where
  stepMs : ℕ
  steps : ℕ
  cpuMs : ℕ
  outcome : MockOutcome
  descendant : Bool
  proofPaddingBytes : ℕ
  resultDelayMs : ℕ
  programUnits : ℕ
  deriving DecidableEq, Repr

def MockWork.standard : MockWork := ⟨0, 1, 0, .success, false, 0, 0, 0⟩

inductive RecoveryPolicy
  | deterministicCheckpoint
  | holdInFlight
  deriving DecidableEq, Repr

structure RoleSettings where
  limits : Limits
  mock : MockWork
  recovery : RecoveryPolicy
  deriving DecidableEq, Repr

structure Settings where
  finding : RoleSettings
  solving : RoleSettings
  selection : RoleSettings
  deriving DecidableEq, Repr

structure Binding where
  snapshot : String
  policy : String
  compatibility : String
  selection : String
  deriving DecidableEq, Repr

inductive Purpose
  | assessment
  | admission
  | initial
  | final
  | publication
  deriving DecidableEq, Repr

inductive Input
  | find (cursor : ℕ) (question : String)
  | solve (question : String)
  | select (question : String) (purpose : Purpose) (root : Option String)
  deriving DecidableEq, Repr

namespace Input

def isFind : Input → Bool
  | .find _ _ => true
  | _ => false

def isSolve : Input → Bool
  | .solve _ => true
  | _ => false

def question : Input → String
  | .find _ question => question
  | .solve question => question
  | .select question _ _ => question

/-- The worker lane: finding, solving, local selection, peer selection. -/
def lane : Input → ℕ
  | .find _ _ => 0
  | .solve _ => 1
  | .select _ _ none => 2
  | .select _ _ (some _) => 3

end Input

def Settings.forInput (s : Settings) : Input → RoleSettings
  | .find _ _ => s.finding
  | .solve _ => s.solving
  | .select _ _ _ => s.selection

inductive Output
  | question (source : String)
  | proof (source : String) (helpers : List String)
  | program (units : ℕ)
  | selected (choice : Bool)
  | noCandidate
  deriving DecidableEq, Repr

inductive State
  | queued
  | running
  | suspended
  | complete
  | failed
  | cancelled
  | expired
  | inDoubt
  deriving DecidableEq, Repr

def State.terminal : State → Bool
  | .queued | .running | .suspended | .inDoubt => false
  | _ => true

/-- Queued, running or suspended: the job still needs room for its result. -/
def State.active : State → Bool
  | .queued | .running | .suspended => true
  | _ => false

structure Record where
  id : ℕ
  input : Input
  binding : Binding
  provider : String
  configuration : Digest
  settings : RoleSettings
  createdMs : ℕ
  expiresMs : ℕ
  accountedMs : ℕ
  spentMs : ℕ
  /-- Charged before starting each unit. -/
  reservedUnits : ℕ
  checkpoint : ℕ
  state : State
  result : Option Output
  acknowledged : Bool
  failure : Option String
  deriving DecidableEq, Repr

/-- The allowance of an obligation, shared by all jobs created for one input. -/
structure Account where
  settings : RoleSettings
  createdMs : ℕ
  expiresMs : ℕ
  spentMs : ℕ
  reservedUnits : ℕ
  held : Option ℕ
  deriving DecidableEq, Repr

structure Allowance where
  remainingMs : ℕ
  remainingUnits : ℕ
  deriving DecidableEq, Repr

namespace Allowance

def atNow (limits : Limits) (expiresMs spentMs reservedUnits now : ℕ) : Allowance where
  remainingMs := min (expiresMs - now) (limits.horizonMs - spentMs)
  remainingUnits := limits.workUnits - reservedUnits

def timeExpired (a : Allowance) : Bool := a.remainingMs = 0

def canReserve (a : Allowance) : Bool := !a.timeExpired && decide (0 < a.remainingUnits)

def intersect (a b : Allowance) : Allowance where
  remainingMs := min a.remainingMs b.remainingMs
  remainingUnits := min a.remainingUnits b.remainingUnits

end Allowance

def Account.allowance (a : Account) (now : ℕ) : Allowance :=
  .atNow a.settings.limits a.expiresMs a.spentMs a.reservedUnits now

def Record.allowance (r : Record) (original : Option Account) (now : ℕ) : Allowance :=
  let own := Allowance.atNow r.settings.limits r.expiresMs r.spentMs r.reservedUnits now
  match original with
  | some account => own.intersect (account.allowance now)
  | none => own

theorem Allowance.canReserve_intersect {a b : Allowance} :
    (a.intersect b).canReserve = true ↔ a.canReserve = true ∧ b.canReserve = true := by
  unfold canReserve timeExpired intersect
  simp only [← decide_not, ← Bool.decide_and, decide_eq_true_eq]
  omega

/-- A unit can be reserved only before the expiry, within the horizon and below the work units. -/
theorem Account.canReserve_iff {a : Account} {now : ℕ} :
    (a.allowance now).canReserve = true ↔ now < a.expiresMs ∧
      a.spentMs < a.settings.limits.horizonMs ∧ a.reservedUnits < a.settings.limits.workUnits := by
  unfold allowance Allowance.atNow Allowance.canReserve Allowance.timeExpired
  simp only [← decide_not, ← Bool.decide_and, decide_eq_true_eq]
  omega

theorem Record.canReserve_account {r : Record} {a : Account} {now : ℕ}
    (h : (r.allowance (some a) now).canReserve = true) : now < a.expiresMs ∧
      a.spentMs < a.settings.limits.horizonMs ∧ a.reservedUnits < a.settings.limits.workUnits :=
  Account.canReserve_iff.1 (Allowance.canReserve_intersect.1 h).2

/-- Constants of a node: its limits, the identities and sizes of serialized values, and what the
question compiler accepts. -/
structure Host where
  activeJobBytes : ℕ
  residentJobs : ℕ
  terminalJobPage : ℕ
  providerStreamBytes : ℕ
  workers : List ℕ
  closureBytes : ℕ
  proofBytes : ℕ
  failureDetailBytes : ℕ
  compatibility : String
  developerTools : Bool
  accountKey : Input → Digest
  configuration : RoleSettings → Digest
  requestKey : Input → Binding → RoleSettings → Digest
  requestLen : Input → Binding → RoleSettings → ℕ
  recordLen : Record → ℕ
  accountLen : Account → ℕ
  json : Program.Command → List UInt8
  compiles : String → Bool
  isIdentity : String → Bool
  streamed : String → Bool
  representable : ℕ → Bool

variable (host : Host)

def defaultProvider : String := "naome-deterministic-mocks-v1"

structure Contract where
  units : ℕ
  resumable : Bool

namespace Host

/-- A streamed candidate workload of the default provider. -/
def streams (input : Input) (work : MockWork) : Bool :=
  decide (0 < work.programUnits) && input.isSolve && host.streamed input.question

def contract (r : Record) : Option Contract :=
  if r.provider = defaultProvider then
    some ⟨if host.streams r.input r.settings.mock then r.settings.mock.programUnits
      else r.settings.mock.steps, true⟩
  else none

def complete (r : Record) (checkpoint : ℕ) : Bool :=
  match host.contract r with
  | some c => decide (0 < c.units ∧ c.units = checkpoint)
  | none => false

def validCheckpoint (r : Record) : Bool :=
  match host.contract r with
  | some c => decide (r.checkpoint ≤ c.units) &&
      (decide (r.state ≠ .complete) || host.complete r r.checkpoint)
  | none => false

def resumable (r : Record) : Bool :=
  match host.contract r with
  | some c => c.resumable && (host.developerTools || decide (r.settings.mock = .standard))
  | none => false

end Host

end Naome.Jobs
