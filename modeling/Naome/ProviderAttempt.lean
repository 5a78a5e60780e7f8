import Naome.ProviderWorker
import Naome.ResearchDisk

/-!
# The parent of a provider attempt

Launching the supervisor, the execution of the frames of its worker, the drain after the execution
ended, and the disposition of the attempt.
-/
namespace Naome.Jobs.Process
open Outcome

/-- Where the parent waits. -/
inductive Stage
  | starting
  | reading
  | reserving (next : ℕ)
  | offering (unit : ℕ) (records : List Program.Command)
  | reporting (checkpoint : ℕ)
  /-- Writes a grant, and then has this unit outstanding. -/
  | granting (next : ℕ) (outstanding : Option ℕ)
  | draining (completion : Option State) (result : Except String Output)
  | reaping (completion : Option State) (result : Except String Output) (drainError : Option String)
  | ended (result : Except String Output)

def Stage.executing : Stage → Bool
  | .starting | .reading | .reserving _ | .offering _ _ | .reporting _ | .granting _ _ => true
  | _ => false

/-- The frames read by the execution and by the drain, whether one was refused, and whether the end
of the attempt was cut short by a timeout or a failed call, are its history. -/
structure Parent where
  record : Record
  stage : Stage
  disposition : Option State
  feedback : Attempt
  reader : FrameReader
  cleaned : Bool
  startDelivered : Bool
  ready : Bool
  checkpoint : ℕ
  outstanding : Option ℕ
  frames : List Frame
  drainFrames : List Frame
  refused : Bool
  cutShort : Bool

/-- How the launch of the supervisor went. -/
inductive Launch
  | expired
  | refused (error : String)
  | unrestored (error : String)
  | unidentified (error : String)
  | launched

namespace Parent

def failed (p : Parent) (error : String) : Parent := { p with stage := .ended (.error error) }

def new (record : Record) : Parent where
  record := record
  stage := .starting
  disposition := none
  feedback := .new
  reader := .new
  cleaned := false
  startDelivered := false
  ready := false
  checkpoint := record.checkpoint
  outstanding := none
  frames := []
  drainFrames := []
  refused := false
  cutShort := false

/-- Once there is a child, its effects are in doubt until its cleanup is confirmed. -/
def launch (record : Record) : Launch → Parent
  | .expired => { new record with
      disposition := some .expired,
      stage := .ended (.error "research deadline expired before launch") }
  | .refused error => (new record).failed error
  | .unrestored error => { (new record).failed ("slot inheritance restoration: " ++ error) with
      disposition := some .inDoubt }
  | .unidentified error => { (new record).failed error with disposition := some .inDoubt }
  | .launched => { new record with disposition := some .inDoubt }

/-- The execution ends: its disposition is set aside until the drain is over. -/
def leave (p : Parent) (result : Except String Output) : Parent :=
  { p with stage := .draining p.disposition result, disposition := some .inDoubt }

def leaveWith (p : Parent) (state : State) (error : String) : Parent :=
  { p with disposition := some state }.leave (.error error)

def refuse (p : Parent) : Parent :=
  { p with refused := true }.leave (.error "provider frame identity or lifecycle differs")

variable (host : Host) (codec : Codec)

def acceptFeedback (p : Parent) (elapsed : ℕ) (phase : Phase) (sample : Sample) : Parent :=
  match p.feedback.observe elapsed phase sample p.outstanding
      (host.complete p.record p.checkpoint) with
  | .ok feedback => { p with feedback := feedback }
  | .error error => { p with refused := true }.leave (.error error)

def acceptReserve (p : Parent) (id next : ℕ) : Parent :=
  if p.ready = true ∧ p.feedback.ready = true ∧ p.outstanding = none ∧ id = p.record.id then
    if u32Limit ≤ p.checkpoint + 1 then p.leave (.error "provider checkpoint overflow")
    else if next = p.checkpoint + 1 then { p with stage := .reserving next }
    else p.refuse
  else p.refuse

def acceptProgram (p : Parent) (id unit : ℕ) (records : List Program.Command) : Parent :=
  if p.ready = true ∧ id = p.record.id ∧ p.outstanding = some unit ∧
      p.record.input.isSolve = true then
    match host.validateGroup records with
    | .error error => p.leave (.error error)
    | .ok () => { p with stage := .offering unit records }
  else p.refuse

def acceptResult (p : Parent) (id : ℕ) (output : Output) : Parent :=
  if p.ready = true ∧ p.feedback.finished = true ∧ p.cleaned = true ∧ p.outstanding = none ∧
      id = p.record.id ∧ host.complete p.record p.checkpoint = true then
    match output.validateWithLimits p.record.input host.proofBytes codec.closureObjects
        host.closureBytes with
    | .error error => p.leave (.error error)
    | .ok () =>
      match output with
      | .program units =>
        if units = p.checkpoint then p.leave (.ok output)
        else p.leave (.error "provider program length differs from its durable checkpoints")
      | _ => p.leave (.ok output)
  else p.refuse

/-- The guard of a frame that only reports. -/
def acceptIf (p : Parent) (guard : Bool) : Parent := if guard then p else p.refuse

/-- One frame of the execution; `elapsed` is the age of the attempt. -/
def accept (p : Parent) (elapsed : ℕ) : Frame → Parent
  | .ready id binding _ =>
    if p.ready = false ∧ id = p.record.id ∧ binding = codec.identity p.record then
      { p with ready := true }
    else p.refuse
  | .descendant id _ =>
    p.acceptIf (p.ready && decide (id = p.record.id) && p.record.settings.mock.descendant)
  | .cpuActive id next | .cpuDone id next =>
    p.acceptIf (p.ready && decide (id = p.record.id ∧ p.outstanding = some next))
  | .resultReady id => p.acceptIf (p.ready && decide (id = p.record.id ∧ p.outstanding = none))
  | .feedback id phase sample =>
    if p.ready = true ∧ id = p.record.id then p.acceptFeedback host elapsed phase sample
    else p.refuse
  | .reserve id next => p.acceptReserve id next
  | .program id unit records => p.acceptProgram host id unit records
  | .progress id next =>
    if p.ready = true ∧ p.feedback.unitReady next = true ∧ p.outstanding = some next ∧
        id = p.record.id ∧ next = p.checkpoint + 1 then
      { p with checkpoint := next, stage := .reporting next }
    else p.refuse
  | .cleanupComplete id => if id = p.record.id then { p with cleaned := true } else p.refuse
  | .result id output => p.acceptResult host codec id output
  | .uncertain id error =>
    if p.ready = true ∧ id = p.record.id then p.leaveWith .inDoubt error else p.refuse
  | .failed id error =>
    if p.ready = true ∧ id = p.record.id then p.leave (.error error) else p.refuse
  | .cleanupFailed id error =>
    if id = p.record.id then
      p.leaveWith .inDoubt ("provider group termination is unconfirmed: " ++ error)
    else p.refuse

/-- The owner's answer to a reservation, a group or a checkpoint. -/
def answered (p : Parent) (reply : Except String Unit) : Option Parent :=
  match p.stage, reply with
  | .reserving next, .ok () => some { p with stage := .granting next (some next) }
  | .offering unit _, .ok () => some { p with stage := .granting unit p.outstanding }
  | .reporting next, .ok () =>
    some (match p.feedback.checkpoint next with
      | .ok feedback => { p with feedback := feedback, stage := .granting next none }
      | .error error => p.leave (.error error))
  | .reserving _, .error error | .offering _ _, .error error | .reporting _, .error error =>
    some (p.leave (.error error))
  | _, _ => none

def drained (p : Parent) (drainError : Option String) : Parent :=
  match p.stage with
  | .draining completion result => { p with stage := .reaping completion result drainError }
  | _ => p

/-- One frame of the drain: any frame of the job but a group. -/
def drain (p : Parent) : Frame → Parent
  | .cleanupComplete id =>
    if id = p.record.id then { p with cleaned := true }
    else { p with refused := true }.drained (some "provider cleanup identity differs")
  | .cleanupFailed id error =>
    if id = p.record.id then
      { p with cleaned := false }.drained
        (some ("provider group termination is unconfirmed: " ++ error))
    else { p with refused := true }.drained (some "provider cleanup identity differs")
  | f =>
    if f.isProgram = false ∧ f.id = p.record.id then p
    else { p with refused := true }.drained (some "provider cleanup identity differs")

/-- The supervisor has exited. -/
def reap (p : Parent) (completion : Option State) (result : Except String Output)
    (drainError : Option String) (success : Bool) : Parent :=
  let cleaned := p.cleaned ||
    decide (p.startDelivered = false ∧ p.reader.total = 0 ∧ drainError = none)
  if cleaned then
    { p with
      cleaned := cleaned
      disposition := completion.filter fun state => decide (state ≠ .inDoubt)
      stage := .ended <| match drainError, result with
        | some error, .error primary => .error (primary ++ "; " ++ error)
        | some error, .ok _ => .error error
        | none, .ok output =>
          if success then .ok output else .error "provider exited without clean completion"
        | none, .error error => .error error }
  else { p with
    disposition := some .inDoubt
    stage := .ended (.error "provider cleanup receipt is absent; recovery is uncertain") }

inductive Event
  | startWritten
  | startFailed (error : String)
  /-- The bytes that have arrived, none at the end of the stream, and the age of the attempt. -/
  | fill (buffer : List UInt8) (elapsed : ℕ)
  | readFailed (error : String)
  | answered (reply : Except String Unit)
  | grantWritten
  | grantFailed (error : String)
  | cancelled
  | expired
  | drainDeadline
  | exited (success : Bool)
  | waitFailed (error : String)
  | reapDeadline

def readExecuting (p : Parent) (elapsed : ℕ) : Filled → Parent
  | .ended => p.leave (.error "provider ended before a complete result")
  | .more => p
  | .failed error => p.leave (.error error)
  | .frame bytes =>
    match codec.fromSlice bytes with
    | none => { p with refused := true }.leave (.error "provider frame corruption")
    | some f => { p with frames := p.frames ++ [f] }.accept host codec elapsed f

def readDraining (p : Parent) : Filled → Parent
  | .ended => p.drained none
  | .more => p
  | .failed error => p.drained (some error)
  | .frame bytes =>
    match codec.fromSlice bytes with
    | none => { p with refused := true }.drained (some "provider cleanup frame corruption")
    | some f => { p with drainFrames := p.drainFrames ++ [f] }.drain f

/-- One step of the parent; `none` where it does not wait for this. -/
def step (p : Parent) (event : Event) : Option Parent :=
  match event, p.stage with
  | .startWritten, .starting => some { p with startDelivered := true, stage := .reading }
  | .startFailed error, .starting => some (p.leave (.error error))
  | .fill buffer elapsed, .reading =>
    some ({ p with reader := (p.reader.fill host codec buffer).2.1 }.readExecuting host codec elapsed
      (p.reader.fill host codec buffer).1)
  | .fill buffer _, .draining _ _ =>
    some ({ p with reader := (p.reader.fill host codec buffer).2.1 }.readDraining codec
      (p.reader.fill host codec buffer).1)
  | .readFailed error, .reading => some (p.leave (.error error))
  | .readFailed error, .draining _ _ => some ({ p with cutShort := true }.drained (some error))
  | .answered reply, _ => p.answered reply
  | .grantWritten, .granting _ outstanding =>
    some { p with outstanding := outstanding, stage := .reading }
  | .grantFailed error, .granting _ _ => some (p.leave (.error error))
  | .cancelled, stage =>
    if stage.executing then some (p.leaveWith .cancelled "research cancelled") else none
  | .expired, stage =>
    if stage.executing then some (p.leaveWith .expired "research deadline expired") else none
  | .drainDeadline, .draining _ _ =>
    some ({ p with cutShort := true }.drained (some "provider output drain deadline"))
  | .exited success, .reaping completion result drainError =>
    some (p.reap completion result drainError success)
  | .waitFailed error, .reaping _ _ _ => some { p.failed error with cutShort := true }
  | .reapDeadline, .reaping _ _ _ =>
    some { p.failed "provider supervisor cleanup deadline; recovery is uncertain" with
      disposition := some .inDoubt, cutShort := true }
  | _, _ => none

/-- The outcome of `run`, once the attempt has ended. -/
def outcome (p : Parent) : Option Completed :=
  match p.stage with
  | .ended result => some ⟨p.disposition.getD (if result.toBool then .complete else .failed), result⟩
  | _ => none

end Parent

end Naome.Jobs.Process
