import Naome.ProviderAttempt

/-!
# A provider attempt

The parent, its supervisor and the worker, with the pipes between them. Every party may stop at any
point.
-/
namespace Naome.Jobs.Process
open Outcome

inductive Message
  | parent (permit : Permit)
  | parentClosed
  | provider (bytes : List UInt8)
  | providerClosed

inductive Supervision
  /-- Reads the start message. -/
  | waiting
  | running
  /-- Has left its loop and terminates the worker. -/
  | finishing
  /-- Has written the receipt of a confirmed cleanup. -/
  | cleaned
  | exited (success : Bool)
  deriving DecidableEq

/-- The two readers of a supervisor share one queue with its loop. -/
structure Supervisor where
  stage : Supervision
  queue : List Message
  total : ℕ
  result : Option (List UInt8)

/-- The parties, the pipes between them and the age of the attempt. The history holds the frames
the worker emitted, those the supervisor took and those it sent, and the units the worker began. -/
structure System where
  parent : Parent
  supervisor : Supervisor
  worker : Worker
  alive : Bool
  toSupervisor : List Permit
  toWorker : List Permit
  fromWorker : List UInt8
  toParent : List UInt8
  clock : ℕ
  emitted : List Frame
  passed : List Frame
  sent : List Frame
  executed : List ℕ

namespace System

def launched (record : Record) (launch : Launch) : System where
  parent := .launch record launch
  supervisor := ⟨.waiting, [], 0, none⟩
  worker := .exited
  alive := false
  toSupervisor := []
  toWorker := []
  fromWorker := []
  toParent := []
  clock := 0
  emitted := []
  passed := []
  sent := []
  executed := []

def id (s : System) : ℕ := s.parent.record.id

def supervise (s : System) (stage : Supervision) : System :=
  { s with supervisor := { s.supervisor with stage := stage } }

def enqueue (s : System) (message : Message) : System :=
  { s with supervisor := { s.supervisor with queue := s.supervisor.queue ++ [message] } }

def dequeue (s : System) (rest : List Message) : System :=
  { s with supervisor := { s.supervisor with queue := rest } }

variable (codec : Codec)

/-- The supervisor writes a frame to the parent. -/
def send (s : System) (f : Frame) : System :=
  { s with toParent := s.toParent ++ codec.line f, sent := s.sent ++ [f] }

/-- A line of the worker joins the queue. -/
def readLine (s : System) : System :=
  let bytes := s.fromWorker.take (lineEnd s.fromWorker)
  { s with
    fromWorker := s.fromWorker.drop (lineEnd s.fromWorker)
    supervisor := { s.supervisor with
      queue := s.supervisor.queue ++ [.provider bytes]
      total := s.supervisor.total + codec.lineCharge bytes } }

/-- A result is kept until the cleanup is confirmed; any other line goes to the parent. -/
def forward (s : System) (bytes : List UInt8) (rest : List Message) : System :=
  let s := { s.dequeue rest with passed := s.passed ++ (codec.fromSlice bytes).toList }
  if (codec.fromSlice bytes).any Frame.isResult then
    { s with supervisor := { s.supervisor with result := some bytes } }
  else { s with
    toParent := s.toParent ++ bytes
    sent := s.sent ++ (codec.fromSlice bytes).toList }

/-- The kept result follows the receipt. -/
def deliver (s : System) (bytes : List UInt8) : System :=
  { s.supervise (.exited true) with
    toParent := s.toParent ++ bytes
    sent := s.sent ++ (codec.fromSlice bytes).toList }

end System

/-- The events of a parent that depend on no other party. -/
def Parent.Event.isExternal : Parent.Event → Bool
  | .startWritten | .fill _ _ | .grantWritten | .exited _ => false
  | _ => true

/-- A step of one party, with the worker the supervisor spawns. -/
inductive Step (host : Host) (codec : Codec) (program : Worker) : System → System → Prop
  | tick {s : System} (clock : ℕ) (h : s.clock ≤ clock) :
    Step host codec program s { s with clock := clock }
  -- the parent
  | parent {s : System} {p : Parent} (event : Parent.Event) (hexternal : event.isExternal = true)
      (h : s.parent.step host codec event = some p) :
    Step host codec program s { s with parent := p }
  | parentStart {s : System} {p : Parent} (h : s.parent.step host codec .startWritten = some p) :
    Step host codec program s { s with parent := p }
  | parentFill {s : System} {p : Parent} (n : ℕ) (hpos : 0 < n) (hle : n ≤ s.toParent.length)
      (h : s.parent.step host codec (.fill (s.toParent.take n) s.clock) = some p) :
    Step host codec program s { s with
      parent := p
      toParent := s.toParent.drop (s.parent.reader.fill host codec (s.toParent.take n)).2.2 }
  | parentEnded {s : System} {p : Parent} {success : Bool} (hpipe : s.toParent = [])
      (hexit : s.supervisor.stage = .exited success)
      (h : s.parent.step host codec (.fill [] s.clock) = some p) :
    Step host codec program s { s with parent := p }
  | parentGrant {s : System} {p : Parent} {next : ℕ} {outstanding : Option ℕ}
      (hstage : s.parent.stage = .granting next outstanding)
      (h : s.parent.step host codec .grantWritten = some p) :
    Step host codec program s { s with
      parent := p, toSupervisor := s.toSupervisor ++ [⟨s.id, next⟩] }
  | parentReaps {s : System} {p : Parent} {success : Bool}
      (hexit : s.supervisor.stage = .exited success)
      (h : s.parent.step host codec (.exited success) = some p) :
    Step host codec program s { s with parent := p }
  -- the supervisor
  | supervisorSpawns {s : System} (h : s.supervisor.stage = .waiting)
      (hstart : s.parent.startDelivered = true) :
    Step host codec program s { s.supervise .running with worker := program, alive := true }
  | supervisorReadsParent {s : System} {permit : Permit} {rest : List Permit}
      (h : s.toSupervisor = permit :: rest) :
    Step host codec program s { s.enqueue (.parent permit) with toSupervisor := rest }
  | supervisorLosesParent {s : System} (h : s.toSupervisor = [])
      (hclosed : s.parent.stage.executing = false) :
    Step host codec program s (s.enqueue .parentClosed)
  | supervisorReadsWorker {s : System} (h : newline ∈ s.fromWorker)
      (hline : lineEnd s.fromWorker ≤ host.maxFrameBytes)
      (htotal : s.supervisor.total + codec.lineCharge (s.fromWorker.take (lineEnd s.fromWorker)) ≤
        host.providerStreamBytes) :
    Step host codec program s (s.readLine codec)
  /-- At the end of the stream, at an overlong line or beyond the limit of the stream. -/
  | supervisorLosesWorker {s : System}
      (h : (newline ∉ s.fromWorker ∧ s.alive = false) ∨
        host.maxFrameBytes < lineEnd s.fromWorker ∨
        host.providerStreamBytes <
          s.supervisor.total + codec.lineCharge (s.fromWorker.take (lineEnd s.fromWorker))) :
    Step host codec program s (s.enqueue .providerClosed)
  | supervisorGrants {s : System} {permit : Permit} {rest : List Message}
      (h : s.supervisor.stage = .running) (hqueue : s.supervisor.queue = .parent permit :: rest) :
    Step host codec program s { s.dequeue rest with toWorker := s.toWorker ++ [permit] }
  | supervisorForwards {s : System} {bytes : List UInt8} {rest : List Message}
      (h : s.supervisor.stage = .running) (hqueue : s.supervisor.queue = .provider bytes :: rest) :
    Step host codec program s (s.forward codec bytes rest)
  /-- At its deadline, a closed pipe or a failed write. -/
  | supervisorLeaves {s : System} (h : s.supervisor.stage = .running) :
    Step host codec program s (s.supervise .finishing)
  | supervisorConfirms {s : System} (h : s.supervisor.stage = .finishing) :
    Step host codec program s
      ({ s.supervise .cleaned with alive := false }.send codec (.cleanupComplete s.id))
  | supervisorDoubts {s : System} (h : s.supervisor.stage = .finishing) (error : String) :
    Step host codec program s
      ((s.supervise (.exited false)).send codec (.cleanupFailed s.id error))
  | supervisorDelivers {s : System} {bytes : List UInt8} (h : s.supervisor.stage = .cleaned)
      (hresult : s.supervisor.result = some bytes) :
    Step host codec program s (s.deliver codec bytes)
  /-- By a refused start, without a result, or killed while it writes. -/
  | supervisorExits {s : System} (h : ∀ success, s.supervisor.stage ≠ .exited success)
      (fragment : List UInt8) (hfragment : newline ∉ fragment) :
    Step host codec program s
      { s.supervise (.exited false) with toParent := s.toParent ++ fragment }
  -- the worker
  | workerEmits {s : System} {f : Frame} {next : Except String Unit → Worker}
      (halive : s.alive = true) (h : s.worker = .emit f next)
      (hline : (codec.line f).length ≤ host.maxFrameBytes) :
    Step host codec program s { s with
      worker := next (.ok ())
      fromWorker := s.fromWorker ++ codec.line f
      emitted := s.emitted ++ [f] }
  | workerFails {s : System} {f : Frame} {next : Except String Unit → Worker}
      (halive : s.alive = true) (h : s.worker = .emit f next) (error : String) :
    Step host codec program s { s with worker := next (.error error) }
  | workerReceives {s : System} {permit : Permit} {rest : List Permit}
      {next : Option Permit → Worker} (halive : s.alive = true) (h : s.worker = .receive next)
      (hpipe : s.toWorker = permit :: rest) :
    Step host codec program s { s with worker := next (some permit), toWorker := rest }
  | workerLosesLifeline {s : System} {next : Option Permit → Worker} (halive : s.alive = true)
      (h : s.worker = .receive next) :
    Step host codec program s { s with worker := next none }
  | workerReads {s : System} {next : Reading → Worker} (halive : s.alive = true)
      (h : s.worker = .read next) (reading : Reading) (hclock : reading.nanos = s.clock)
      (hpeak : ∀ bytes ∈ reading.peakRssBytes, bytes ≤ isizeMax) :
    Step host codec program s { s with worker := next reading }
  | workerExecutes {s : System} {unit : ℕ} {next : Worker} (halive : s.alive = true)
      (h : s.worker = .execute unit next) :
    Step host codec program s { s with worker := next, executed := s.executed ++ [unit] }
  | workerExits {s : System} (halive : s.alive = true) (fragment : List UInt8)
      (hfragment : newline ∉ fragment) :
    Step host codec program s { s with alive := false, fromWorker := s.fromWorker ++ fragment }

/-- What a run of the parties reaches. -/
abbrev Runs (host : Host) (codec : Codec) (program : Worker) : System → System → Prop :=
  Relation.ReflTransGen (Step host codec program)

end Naome.Jobs.Process
