import Naome.ResearchJournal

/-!
# Frames of a provider attempt

The lines a worker, its supervisor and the parent exchange, the reader that splits them off the
stream, and the order of feedback inside one attempt.
-/
namespace Naome.Jobs.Process
open Outcome

inductive Phase
  | setup
  | unit (unit : ℕ)
  | finalization
  deriving DecidableEq, Repr

structure Work where
  units : ℕ
  nanos : ℕ
  deriving DecidableEq, Repr

/-- What a worker measured of its own time and memory. -/
structure Sample where
  elapsedNanos : ℕ
  blockedNanos : ℕ
  cpuNanos : Option ℕ
  peakRssBytes : Option ℕ
  check : Work
  succeeded : Bool
  deriving DecidableEq, Repr

def isizeMax : ℕ := 2 ^ 63 - 1

@[reducible] def Sample.Validates (s : Sample) (elapsed : ℕ) : Prop :=
  s.blockedNanos ≤ s.elapsedNanos ∧ s.elapsedNanos ≤ elapsed ∧
    (∀ bytes ∈ s.peakRssBytes, 0 < bytes ∧ bytes ≤ isizeMax) ∧
    (s.check.units ≠ 0 ∨ s.check.nanos = 0)

/-- The phases one attempt has reported, and the time they took together. -/
structure Attempt where
  setup : Option Bool
  unit : Option (ℕ × Bool)
  finalized : Option Bool
  elapsedNanos : ℕ
  deriving DecidableEq, Repr

namespace Attempt

def new : Attempt := ⟨none, none, none, 0⟩

/-- Accepts a phase in its turn; `elapsed` is the age of the attempt. -/
def observe (a : Attempt) (elapsed : ℕ) (phase : Phase) (sample : Sample)
    (outstanding : Option ℕ) (complete : Bool) : Except String Attempt := do
  let elapsedNanos := saturatingAdd a.elapsedNanos sample.elapsedNanos
  require (sample.Validates elapsed ∧ elapsedNanos ≤ elapsed)
    "provider feedback measurement differs from its owned attempt"
  match phase with
  | .setup => do
    require (a.setup = none ∧ outstanding = none ∧ a.finalized = none)
      "provider feedback phase or work-unit sequence differs"
    return { a with setup := some sample.succeeded, elapsedNanos := elapsedNanos }
  | .unit unit => do
    require (a.setup = some true ∧ outstanding = some unit ∧ a.unit = none ∧ a.finalized = none)
      "provider feedback phase or work-unit sequence differs"
    return { a with unit := some (unit, sample.succeeded), elapsedNanos := elapsedNanos }
  | .finalization => do
    require (a.setup = some true ∧ outstanding = none ∧ a.unit = none ∧ a.finalized = none ∧
      complete = true) "provider feedback phase or work-unit sequence differs"
    return { a with finalized := some sample.succeeded, elapsedNanos := elapsedNanos }

def ready (a : Attempt) : Bool := decide (a.setup = some true ∧ a.finalized = none)

def unitReady (a : Attempt) (unit : ℕ) : Bool := decide (a.unit = some (unit, true))

def checkpoint (a : Attempt) (unit : ℕ) : Except String Attempt := do
  require (a.unitReady unit = true) "provider progress lacks successful measured work"
  return { a with unit := none }

def finished (a : Attempt) : Bool := decide (a.finalized = some true)

end Attempt

inductive Frame
  | feedback (id : ℕ) (phase : Phase) (sample : Sample)
  | ready (id : ℕ) (binding : String) (pid : ℕ)
  | descendant (id pid : ℕ)
  | cpuActive (id next : ℕ)
  | cpuDone (id next : ℕ)
  | resultReady (id : ℕ)
  | reserve (id next : ℕ)
  | program (id unit : ℕ) (records : List Program.Command)
  | progress (id checkpoint : ℕ)
  | result (id : ℕ) (output : Output)
  | failed (id : ℕ) (error : String)
  | uncertain (id : ℕ) (error : String)
  | cleanupComplete (id : ℕ)
  | cleanupFailed (id : ℕ) (error : String)
  deriving DecidableEq, Repr

namespace Frame

def id : Frame → ℕ
  | .feedback id _ _ | .ready id _ _ | .descendant id _ | .cpuActive id _ | .cpuDone id _
  | .resultReady id | .reserve id _ | .program id _ _ | .progress id _ | .result id _
  | .failed id _ | .uncertain id _ | .cleanupComplete id | .cleanupFailed id _ => id

def isProgram : Frame → Bool
  | .program _ _ _ => true
  | _ => false

def isResult : Frame → Bool
  | .result _ _ => true
  | _ => false

/-- The receipts of the supervisor. -/
def isCleanup : Frame → Bool
  | .cleanupComplete _ | .cleanupFailed _ _ => true
  | _ => false

end Frame

/-- The serialization of frames and the identity of a record. -/
structure Codec where
  toVec : Frame → List UInt8
  fromSlice : List UInt8 → Option Frame
  identity : Record → String
  closureObjects : ℕ

def newline : UInt8 := 10

namespace Codec

variable (codec : Codec)

def line (f : Frame) : List UInt8 := codec.toVec f ++ [newline]

/-- Streamed groups have their own limits and are not charged to the stream. -/
def isProgramLine (bytes : List UInt8) : Bool := (codec.fromSlice bytes).any Frame.isProgram

/-- What a line is charged against the limit of the stream. -/
def lineCharge (bytes : List UInt8) : ℕ := if codec.isProgramLine bytes then 0 else bytes.length

/-- A serialized frame is one line, and reads back as itself. -/
structure Lawful : Prop where
  newline_notMem : ∀ f, newline ∉ codec.toVec f
  fromSlice_line : ∀ f, codec.fromSlice (codec.line f) = some f

end Codec

end Naome.Jobs.Process

namespace Naome.Jobs

def Host.maxFrameBytes (host : Host) : ℕ := 8 * host.closureBytes

end Naome.Jobs

namespace Naome.Jobs.Process

/-- The bytes up to and with the first newline, or all of them. -/
def lineEnd (buffer : List UInt8) : ℕ :=
  match buffer.findIdx? (· = newline) with
  | some n => n + 1
  | none => buffer.length

/-- The part of a frame that was read, and the bytes charged so far. It outlives a cancelled
read. -/
structure FrameReader where
  partialBytes : List UInt8
  total : ℕ
  deriving DecidableEq, Repr

/-- What one round of reading gives. -/
inductive Filled
  | ended
  | more
  | frame (bytes : List UInt8)
  | failed (error : String)
  deriving DecidableEq, Repr

namespace FrameReader

variable (host : Host) (codec : Codec)

def new : FrameReader := ⟨[], 0⟩

/-- One round of `next` on the bytes that have arrived, none at the end of the stream: its result,
the reader afterwards and the bytes it consumed. -/
def fill (r : FrameReader) (buffer : List UInt8) : Filled × FrameReader × ℕ :=
  if buffer = [] then
    (if r.partialBytes = [] then .ended else .failed "provider ended inside a frame", r, 0)
  else if host.maxFrameBytes < r.partialBytes.length + lineEnd buffer then
    (.failed "provider frame capacity", r, 0)
  else
    let bytes := r.partialBytes ++ buffer.take (lineEnd buffer)
    if bytes.getLast? = some newline then
      let total := r.total + codec.lineCharge bytes
      if host.providerStreamBytes < total then
        (.failed "provider stream capacity", ⟨bytes, total⟩, lineEnd buffer)
      else (.frame bytes, ⟨[], total⟩, lineEnd buffer)
    else (.more, { r with partialBytes := bytes }, lineEnd buffer)

end FrameReader

end Naome.Jobs.Process
