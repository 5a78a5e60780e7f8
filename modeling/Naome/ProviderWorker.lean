import Naome.ProviderFrame

/-!
# The worker of a provider attempt

A provider is a computation that calls its supervisor; the worker drives it through its units and
turns the calls into frames and awaited grants.
-/
namespace Naome.Jobs.Process

inductive Probe
  | descendant (pid : ℕ)
  | cpuActive (unit : ℕ)
  | cpuDone (unit : ℕ)
  | resultReady
  deriving DecidableEq, Repr

inductive Failure
  | failed (error : String)
  | uncertain (error : String)
  deriving DecidableEq, Repr

/-- The calls a supervisor answers. -/
inductive Call
  | program (unit : ℕ) (records : List Program.Command)
  | reserve (next : ℕ)
  | checkpoint (checkpoint : ℕ)
  | probe (probe : Probe)
  | observe (phase : Phase) (sample : Sample)

/-- What a meter reads: the clock, the usage of the process and the time spent waiting. -/
structure Reading where
  nanos : ℕ
  cpuNanos : Option ℕ
  peakRssBytes : Option ℕ
  check : Work
  blockedNanos : ℕ

/-- A computation that calls its supervisor. -/
inductive Talk (α : Type) : Type
  | pure (a : α)
  | call (call : Call) (next : Except String Unit → Talk α)
  | read (next : Reading → Talk α)

/-- A provider with a state of its own. -/
structure Provider (σ : Type) where
  start : σ → Talk (Except Failure Unit × σ)
  next : σ → ℕ → Except Failure (Option ℕ)
  execute : σ → ℕ → Talk (Except Failure Unit × σ)
  result : σ → Talk (Except Failure Output × σ)

/-- Permission to go on with a unit. -/
structure Permit where
  id : ℕ
  next : ℕ
  deriving DecidableEq, Repr

/-- A worker process: what it does next, on every answer it can get. -/
inductive Worker : Type
  | exited
  | emit (frame : Frame) (next : Except String Unit → Worker)
  | receive (next : Option Permit → Worker)
  | read (next : Reading → Worker)
  | execute (unit : ℕ) (next : Worker)

/-- The measurement between two readings. -/
def measurement (first last : Reading) (succeeded : Bool) : Sample :=
  let elapsed := min (last.nanos - first.nanos) u64Max
  let units := last.check.units - first.check.units
  { elapsedNanos := elapsed
    blockedNanos := min (last.blockedNanos - first.blockedNanos) elapsed
    cpuNanos := last.cpuNanos.bind fun after => first.cpuNanos.bind fun before =>
      if before ≤ after then some (after - before) else none
    peakRssBytes := last.peakRssBytes.filter (0 < ·)
    check := ⟨units, if units = 0 then 0 else last.check.nanos - first.check.nanos⟩
    succeeded := succeeded }

namespace WorkerControl

variable (host : Host) (id : ℕ)

def grant (next : ℕ) (k : Except String Unit → Worker) : Worker :=
  .receive fun permit => k <| match permit with
    | none => .error "provider durable grant closed"
    | some permit =>
      if permit.id ≠ id ∨ permit.next ≠ next then .error "provider durable grant identity differs"
      else .ok ()

/-- Emits a frame and waits for the grant of its unit. -/
def exchange (frame : Frame) (next : ℕ) (k : Except String Unit → Worker) : Worker :=
  .emit frame fun
    | .error error => k (.error error)
    | .ok () => grant id next k

def probeFrame : Probe → Frame
  | .descendant pid => .descendant id pid
  | .cpuActive next => .cpuActive id next
  | .cpuDone next => .cpuDone id next
  | .resultReady => .resultReady id

def perform : Call → (Except String Unit → Worker) → Worker
  | .program unit records, k =>
    match host.validateGroup records with
    | .error error => k (.error error)
    | .ok () => exchange id (.program id unit records) unit k
  | .reserve next, k => exchange id (.reserve id next) next k
  | .checkpoint checkpoint, k => exchange id (.progress id checkpoint) checkpoint k
  | .probe probe, k => .emit (probeFrame id probe) k
  | .observe phase sample, k => .emit (.feedback id phase sample) k

/-- Runs a computation with this supervisor. -/
def run {α : Type} : Talk α → (α → Worker) → Worker
  | .pure a, k => k a
  | .call call next, k => perform host id call fun answer => run (next answer) k
  | .read next, k => .read fun reading => run (next reading) k

end WorkerControl

section Drive

variable {σ : Type} (host : Host) (id : ℕ) (provider : Provider σ)

/-- Runs one phase and reports its measurement before its result counts. -/
def measured {α : Type} (phase : Phase) (operation : Talk (Except Failure α × σ))
    (k : Except Failure (α × σ) → Worker) : Worker :=
  .read fun first => WorkerControl.run host id operation fun (result, s) =>
    .read fun last =>
      WorkerControl.perform host id (.observe phase (measurement first last result.toBool)) fun
        | .error error => k (.error (.failed error))
        | .ok () => k (result.map fun a => (a, s))

/-- The units after `checkpoint`, of which `remaining` can still be counted. -/
def driveUnits (k : Except Failure Output → Worker) : (remaining : ℕ) → σ → (checkpoint : ℕ) → Worker
  | remaining, s, checkpoint =>
    match provider.next s checkpoint with
    | .error failure => k (.error failure)
    | .ok none =>
      measured host id .finalization (provider.result s) fun result => k (result.map Prod.fst)
    | .ok (some next) =>
      match remaining with
      | 0 => k (.error (.uncertain "provider work-unit sequence differs"))
      | remaining + 1 =>
        if next = checkpoint + 1 then
          WorkerControl.perform host id (.reserve next) fun
            | .error error => k (.error (.failed error))
            | .ok () => .execute next <|
              measured host id (.unit next) (provider.execute s next) fun
                | .error failure => k (.error failure)
                | .ok ((), s) =>
                  WorkerControl.perform host id (.checkpoint next) fun
                    | .error error => k (.error (.failed error))
                    | .ok () => driveUnits k remaining s next
        else k (.error (.uncertain "provider work-unit sequence differs"))

def drive (s : σ) (checkpoint : ℕ) (k : Except Failure Output → Worker) : Worker :=
  measured host id .setup (provider.start s) fun
    | .error failure => k (.error failure)
    | .ok ((), s) => driveUnits host id provider k (u32Limit - 1 - checkpoint) s checkpoint

/-- The last frame of a worker. -/
def finalFrame : Except Failure Output → Frame
  | .ok output => .result id output
  | .error (.failed error) => .failed id error
  | .error (.uncertain error) => .uncertain id error

/-- The worker of a record with this process number. -/
def work (codec : Codec) (record : Record) (pid : ℕ) (s : σ) : Worker :=
  .emit (.ready record.id (codec.identity record) pid) fun
    | .error _ => .exited
    | .ok () => drive host record.id provider s record.checkpoint fun outcome =>
      .emit (finalFrame record.id outcome) fun _ => .exited

end Drive

namespace Worker

/-- Whatever it is answered, the worker emits only such frames. -/
def Emits (P : Frame → Prop) : Worker → Prop
  | .exited => True
  | .emit f next => P f ∧ ∀ answer, (next answer).Emits P
  | .receive next => ∀ permit, (next permit).Emits P
  | .read next => ∀ reading, (next reading).Emits P
  | .execute _ next => next.Emits P

end Worker

section Emits

variable {P : Frame → Prop} {host : Host} {id : ℕ}

theorem WorkerControl.emits_grant {next : ℕ} {k : Except String Unit → Worker}
    (hk : ∀ answer, (k answer).Emits P) : (grant id next k).Emits P :=
  fun _ => hk _

theorem WorkerControl.emits_exchange {f : Frame} (hf : P f) {next : ℕ}
    {k : Except String Unit → Worker} (hk : ∀ answer, (k answer).Emits P) :
    (exchange id f next k).Emits P := by
  refine ⟨hf, ?_⟩
  intro answer
  cases answer with
  | error error => exact hk _
  | ok => exact emits_grant hk

/-- The frame of a call. -/
def Call.frame (id : ℕ) : Call → Frame
  | .program unit records => .program id unit records
  | .reserve next => .reserve id next
  | .checkpoint next => .progress id next
  | .probe p => WorkerControl.probeFrame id p
  | .observe phase sample => .feedback id phase sample

theorem WorkerControl.emits_perform {call : Call} (hf : P (call.frame id))
    {k : Except String Unit → Worker} (hk : ∀ answer, (k answer).Emits P) :
    (perform host id call k).Emits P := by
  cases call with
  | program unit records =>
    simp only [perform]
    split
    · exact hk _
    · exact emits_exchange hf hk
  | reserve next => exact emits_exchange hf hk
  | checkpoint checkpoint => exact emits_exchange hf hk
  | probe probe => exact ⟨hf, hk⟩
  | observe phase sample => exact ⟨hf, hk⟩

variable (hcalls : ∀ call : Call, P (call.frame id))

include hcalls

theorem WorkerControl.emits_run {α : Type} (talk : Talk α) {k : α → Worker}
    (hk : ∀ a, (k a).Emits P) : (run host id talk k).Emits P := by
  induction talk with
  | pure a => exact hk a
  | call call next ih => exact emits_perform (hcalls call) ih
  | read next ih => exact ih

theorem emits_measured {α σ : Type} (phase : Phase) (operation : Talk (Except Failure α × σ))
    {k : Except Failure (α × σ) → Worker} (hk : ∀ result, (k result).Emits P) :
    (measured host id phase operation k).Emits P := by
  intro first
  apply WorkerControl.emits_run hcalls operation
  rintro ⟨result, s⟩ last
  apply WorkerControl.emits_perform (hcalls _)
  intro answer
  cases answer with
  | error error => exact hk _
  | ok => exact hk _

theorem emits_driveUnits {σ : Type} (provider : Provider σ) {k : Except Failure Output → Worker}
    (hk : ∀ result, (k result).Emits P) (remaining : ℕ) (s : σ) (checkpoint : ℕ) :
    (driveUnits host id provider k remaining s checkpoint).Emits P := by
  induction remaining generalizing s checkpoint with
  | zero =>
    unfold driveUnits
    split
    · exact hk _
    · exact emits_measured hcalls _ _ fun _ => hk _
    · exact hk _
  | succ remaining ih =>
    unfold driveUnits
    split
    · exact hk _
    · exact emits_measured hcalls _ _ fun _ => hk _
    next next hnext =>
      simp only
      split_ifs
      · apply WorkerControl.emits_perform (hcalls _)
        intro answer
        cases answer with
        | error error => exact hk _
        | ok =>
          simp only [Worker.Emits]
          apply emits_measured hcalls
          rintro (failure | ⟨⟨⟩, s⟩)
          · exact hk _
          · apply WorkerControl.emits_perform (hcalls _)
            intro answer
            cases answer with
            | error error => exact hk _
            | ok => exact ih s _
      · exact hk _

theorem emits_work {σ : Type} (provider : Provider σ) (codec : Codec) (record : Record) (pid : ℕ)
    (s : σ) (hid : id = record.id) (hready : P (.ready record.id (codec.identity record) pid))
    (hfinal : ∀ outcome, P (finalFrame record.id outcome)) :
    (work host provider codec record pid s).Emits P := by
  subst hid
  refine ⟨hready, ?_⟩
  intro answer
  cases answer with
  | error error => trivial
  | ok =>
    refine emits_measured hcalls .setup (provider.start s) ?_
    rintro (failure | ⟨⟨⟩, s⟩)
    · exact ⟨hfinal _, fun _ => trivial⟩
    · apply emits_driveUnits hcalls provider
      intro outcome
      exact ⟨hfinal outcome, fun _ => trivial⟩

end Emits

end Naome.Jobs.Process
