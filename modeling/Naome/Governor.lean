import Naome.ResourceBudget

/-!
# The resource governor

Feedback changes execution quanta and new admission only. A pressure event reduces at once; growth
is damped. A pause ends after a quiet recovery window.
-/
namespace Naome.Resources
open Outcome

structure Load where
  externalPercent : ℕ
  availableMillis : ℕ
  deriving DecidableEq

structure Pressure where
  cpu : Option Load
  memory : Option Bool
  io : Bool
  lowPower : Option Bool
  thermal : Option Bool
  deriving DecidableEq

def highCpu : ℕ := 85

def clearCpu : ℕ := 60

/-- Ten seconds, in nanoseconds. -/
def cpuConfirm : ℕ := 10 * 10 ^ 9

/-- Thirty seconds, in nanoseconds. -/
def recovery : ℕ := 30 * 10 ^ 9

structure Pause where
  reason : Option String
  highSince : Option ℕ
  clearSince : Option ℕ
  needsCpu : Bool
  needsMemory : Bool
  needsPower : Bool
  needsThermal : Bool
  deriving DecidableEq

namespace Pause

def empty : Pause := ⟨none, none, none, false, false, false, false⟩

def unavailable (p : Pause) : Pause :=
  { p with
    reason := some "hardware observation unavailable"
    clearSince := none
    highSince := none }

def high (pressure : Pressure) : Bool :=
  match pressure.cpu with
  | some load => decide (highCpu ≤ load.externalPercent)
  | none => false

/-- Since when the CPU is under pressure, with this observation. -/
def highFrom (p : Pause) (pressure : Pressure) (now : ℕ) : Option ℕ :=
  if high pressure then some (p.highSince.getD now) else none

def cpuPressure (p : Pause) (pressure : Pressure) (now : ℕ) : Bool :=
  match p.highFrom pressure now with
  | some since => decide (cpuConfirm ≤ now - since)
  | none => false

def trigger (p : Pause) (next : Snapshot) (pressure : Pressure) (now : ℕ) : Option String :=
  match next.budget.paused with
  | some reason => some reason
  | none =>
    if pressure.lowPower = some true then some "operating system power saving"
    else if pressure.thermal = some true then some "operating system thermal pressure"
    else if p.cpuPressure pressure now then some "sustained external CPU pressure"
    else none

/-- Room that the memory target, the process tree and the disk must leave. -/
def margins (limits : Limits) (next : Snapshot) (descendants capacity : ℕ) : Bool :=
  decide (saturatingAdd next.observed.processRss (max (next.budget.memoryBytes / 10) mib) ≤
    next.budget.memoryBytes) &&
  decide (saturatingAdd (saturatingAdd next.observed.processRss descendants) (capacity / 10) ≤
    capacity) &&
  decide (saturatingAdd (saturatingAdd limits.diskReserveBytes (2 * mib))
    (max (limits.diskReserveBytes / 2) (2 * mib)) ≤ next.observed.diskAvailable)

/-- The signals that are needed are observed clear. -/
def signalsClear (p : Pause) (pressure : Pressure) : Bool :=
  (!p.needsMemory || decide (pressure.memory = some false)) &&
  (!p.needsCpu || match pressure.cpu with
    | some load => decide (load.externalPercent < clearCpu)
    | none => false) &&
  (!p.needsPower || decide (pressure.lowPower = some false)) &&
  (!p.needsThermal || decide (pressure.thermal = some false))

/-- Remembers the signals that fire. -/
def remember (p : Pause) (pressure : Pressure) (now : ℕ) : Pause :=
  { p with
    highSince := p.highFrom pressure now
    needsCpu := p.needsCpu || p.cpuPressure pressure now
    needsMemory := p.needsMemory || decide (pressure.memory = some true)
    needsPower := p.needsPower || decide (pressure.lowPower = some true)
    needsThermal := p.needsThermal || decide (pressure.thermal = some true) }

/-- Counts the quiet time of a pause and ends it. -/
def recover (p : Pause) (clear : Bool) (now : ℕ) : Pause :=
  if clear then
    let since := p.clearSince.getD now
    if recovery ≤ now - since then ⟨none, p.highSince, none, false, false, false, false⟩
    else { p with clearSince := some since }
  else { p with clearSince := none }

def apply (limits : Limits) (p : Pause) (next : Snapshot) (pressure : Pressure)
    (descendants capacity now : ℕ) : Pause × Snapshot :=
  let remembered := p.remember pressure now
  let p :=
    match p.trigger next pressure now with
    | some reason => { remembered with reason := some reason, clearSince := none }
    | none =>
      if remembered.reason.isSome then
        remembered.recover
          (margins limits next descendants capacity && remembered.signalsClear pressure) now
      else remembered
  (p, { next with budget := { next.budget with paused := p.reason } })

end Pause

def approach (current target : ℕ) : ℕ :=
  if target < current then max target 1
  else min target (saturatingAdd current (max (current / 4) 1))

section

variable (limits : Limits) (before : Snapshot) (previous statistics : Statistics)
  (pressure : Pressure) (next : Snapshot)

def availableCpu : ℕ :=
  match pressure.cpu with
  | some cpu => cpu.availableMillis
  | none => next.observed.cpuMillis

/-- The jobs that the demand and the CPU ask for. -/
def targetConcurrency : ℕ :=
  let available := availableCpu pressure next
  let cpuAvailable := max (divCeil available 1000) 1
  if 0 < statistics.queuedJobs ∨ 0 < statistics.runningJobs ∨
      previous.check.units < statistics.check.units then
    (statistics.providers.cpuSlots available limits.transportBusyGrace).getD cpuAvailable
  else min (max before.budget.concurrency 1) cpuAvailable

def steeredConcurrency : ℕ :=
  let concurrency := approach (max before.budget.concurrency 1)
    (targetConcurrency limits before previous statistics pressure next)
  let perJob := max (statistics.descendantRss / max statistics.runningJobs 1)
    statistics.providers.peakWorkerBytes
  if perJob = 0 then concurrency
  else min concurrency
    (max ((next.budget.memoryBytes - next.observed.processRss) / perJob) 1)

def steeredYield : ℕ :=
  if next.selection.profile = .dynamic then
    let quantum := limits.transportBusyGrace / 1000000
    let cpu := next.observed.cpuMillis
    let external := cpu - availableCpu pressure next
    let quotaDelay := quantum * (1000 - cpu) % 2 ^ 64 / max cpu 1
    (quantum * min external cpu % 2 ^ 64 / max cpu 1 + quotaDelay) % 2 ^ 64
  else next.budget.yieldMs

/-- Concurrency follows the demand and the memory that one job takes. -/
def steerConcurrency : Budget :=
  if next.selection.profile ≠ .custom ∧ next.selection.profile ≠ .light then
    { next.budget with
      concurrency := steeredConcurrency limits before previous statistics pressure next
      yieldMs := steeredYield limits pressure next }
  else next.budget

end

section

variable (limits : Limits) (before : Snapshot) (previous statistics : Statistics)
  (pressure : Pressure) (b : Budget)

def steeredBatch : ℕ :=
  let units := statistics.check.units - previous.check.units
  let nanos := statistics.check.nanos - previous.check.nanos
  let ceiling := max (b.memoryBytes / 8192) 1
  if 0 < units ∧ 0 < nanos then
    -- The quotient is cut to 64 bits.
    let target := max (min (limits.transportBusyGrace * units) (2 ^ 128 - 1) / nanos) 1 % 2 ^ 64
    min (approach (max before.budget.batchSteps 1) target) ceiling
  else min (max before.budget.batchSteps 1) ceiling

def steeredCache : ℕ :=
  let hits := statistics.cacheHits - previous.cacheHits
  let misses := statistics.cacheMisses - previous.cacheMisses
  let cache := before.budget.cacheBytes
  let wanted :=
    if 0 < hits ∧ hits < misses ∧ pressure.memory ≠ some true ∧ pressure.io = false then
      saturatingAdd cache (max (cache / 4) 4096)
    else cache
  max (min wanted (b.memoryBytes / 4)) 4096

/-- Batches follow the measured cost of a step, the cache its misses. -/
def steerWork : Budget :=
  { b with
    batchSteps := steeredBatch limits before previous statistics b
    cacheBytes := steeredCache before previous statistics pressure b }

end

/-- The network rate and latency of the last measured interval. -/
structure NetworkMemory where
  rate : ℕ
  latency : ℕ
  deriving DecidableEq

/-- Request latency, rather than CPU count, sets the pipeline. -/
def steerNetwork (limits : Limits) (before : Snapshot) (previous statistics : Statistics)
    (elapsed : ℕ) (memory : NetworkMemory) (b : Budget) : Budget × NetworkMemory :=
  let requests := statistics.network.units - previous.network.units
  let latency := statistics.network.nanos - previous.network.nanos
  let failures := statistics.failedRequests - previous.failedRequests
  if 0 < failures then
    ({ b with networkRequests := max (before.budget.networkRequests / 2) 1 }, memory)
  else if 0 < requests ∧ 0 < latency then
    let average := latency / requests
    let rate := saturatingMul requests 1000000 / elapsed
    let pipeline := max (divCeil average (max limits.transportBusyGrace 1)) 1
    let wanted :=
      if 0 < memory.latency ∧ memory.latency < average ∧ rate ≤ memory.rate then
        max (before.budget.networkRequests / 2) 1
      else if 0 < statistics.pendingRequests ∧ (memory.rate = 0 ∨ memory.rate < rate) then
        approach (max before.budget.networkRequests 1) pipeline
      else max before.budget.networkRequests 1
    ({ b with networkRequests := min wanted limits.flights }, ⟨rate, average⟩)
  else (b, memory)

/-- Pressure of the system's input and output halves the work, memory pressure pauses it. -/
def relieve (before : Snapshot) (pressure : Pressure) (b : Budget) : Budget :=
  let b :=
    if pressure.io then
      { b with
        concurrency := min b.concurrency (max (before.budget.concurrency / 2) 1)
        batchSteps := min b.batchSteps (max (before.budget.batchSteps / 2) 1)
        networkRequests := min b.networkRequests (max (before.budget.networkRequests / 2) 1) }
    else b
  if pressure.memory = some true then
    { b with paused := some "operating system memory pressure" }
  else b

structure Governor where
  previous : Option (ℕ × Snapshot × Statistics)
  pause : Pause
  stable : ℕ
  network : NetworkMemory

namespace Governor

def empty : Governor := ⟨none, .empty, 0, ⟨0, 0⟩⟩

/-- The damped budget after an earlier observation. -/
def damp (limits : Limits) (g : Governor) (beforeTime : ℕ) (before : Snapshot)
    (previous statistics : Statistics) (pressure : Pressure) (now : ℕ) (next : Snapshot) :
    Governor × Snapshot :=
  let elapsed := max ((now - beforeTime) / 1000000) 1
  let b := steerConcurrency limits before previous statistics pressure next
  let (b, network) :=
    if next.selection = before.selection ∧ next.selection.profile ≠ .custom then
      steerNetwork limits before previous statistics elapsed g.network
        (steerWork limits before previous statistics pressure b)
    else (b, g.network)
  let constrained := pressure.memory = some true ∨ pressure.io = true ∨ b.paused.isSome
  let stable :=
    if constrained ∨ next.selection ≠ before.selection then 0
    else min (g.stable + 1) (2 ^ 32 - 1)
  ({ g with stable, network }, { next with budget := relieve before pressure b })

/-- The limits that hold with or without an earlier observation. -/
def confine (limits : Limits) (statistics : Statistics) (pressure : Pressure) (capacity : ℕ)
    (next : Snapshot) : Snapshot :=
  let b := { next.budget with concurrency := min next.budget.concurrency limits.workers.sum }
  let b :=
    if capacity < saturatingAdd next.observed.processRss statistics.descendantRss then
      { b with paused := some "node process tree memory pressure" }
    else b
  let b :=
    if pressure.memory = some true then
      { b with
        paused := some "operating system memory pressure"
        cacheBytes := max (b.cacheBytes / 2) 4096 }
    else b
  { next with budget := b }

/-- A paused budget admits no work and one request. -/
def close (b : Budget) : Budget :=
  if b.paused.isSome then
    { b with concurrency := 0, batchSteps := 0, networkRequests := min b.networkRequests 1 }
  else b

/-- What one call of `update` observes. `clock` is the wall clock, `now` the monotonic one. -/
structure Observation where
  selection : Selection
  observed : Observed
  statistics : Statistics
  pressure : Pressure
  now : ℕ
  clock : Except String ℕ

/-- The snapshot that the pause judges, and the governor that remembers the network. -/
def judged (limits : Limits) (capacity : ℕ) (g : Governor) (o : Observation) :
    Except String (Governor × Snapshot) := do
  let next ← Snapshot.derive limits o.selection o.observed capacity o.clock
  let (g, next) :=
    match g.previous with
    | some (beforeTime, before, previous) =>
      damp limits g beforeTime before previous o.statistics o.pressure o.now next
    | none => (g, next)
  return (g, confine limits o.statistics o.pressure capacity next)

def update (limits : Limits) (capacity : ℕ) (g : Governor) (o : Observation) :
    Except String (Governor × Snapshot) := do
  let (g, next) ← judged limits capacity g o
  let (pause, next) :=
    g.pause.apply limits next o.pressure o.statistics.descendantRss capacity o.now
  let next := { next with budget := close next.budget }
  return ({ g with pause, previous := some (o.now, next, o.statistics) }, next)

/-- A telemetry failure closes work and may narrow a newly selected ceiling; it never expands an
allocation from stale observations. -/
def unavailable (limits : Limits) (g : Governor) (selection : Selection)
    (clock : Except String ℕ) : Governor × Option Snapshot :=
  let g := { g with pause := g.pause.unavailable }
  match g.previous with
  | none => (g, none)
  | some (_, previous, _) =>
    match Snapshot.derive limits selection previous.observed previous.budget.memoryBytes clock with
    | .error _ => (g, none)
    | .ok snapshot =>
      (g, some { snapshot with
        timestampMs := previous.timestampMs
        budget := { snapshot.budget with
          cacheBytes := min snapshot.budget.cacheBytes previous.budget.cacheBytes
          networkRequests :=
            min (min snapshot.budget.networkRequests previous.budget.networkRequests) 1
          paused := some "hardware observation unavailable"
          concurrency := 0
          batchSteps := 0 } })

end Governor

/-- How a quantum of work answers to a budget: it refuses an invalid one, does nothing while the
budget is paused, or runs. -/
def admitQuantum (limits : Limits) (b : Budget) : Except String Bool := do
  require (¬ (b.cacheBytes < 4096 ∨ max (b.memoryBytes / 4) 4096 < b.cacheBytes ∨
    limits.memoryBytes / 4 < b.cacheBytes)) "invalid effective cache budget"
  if b.paused.isSome ∨ b.batchSteps = 0 then return false
  else
    require (¬ (b.memoryBytes < 8 * 1024 * 1024 ∨ b.memoryBytes / 4 < b.cacheBytes ∨
      b.memoryBytes / 8192 < b.batchSteps ∨ b.concurrency = 0)) "invalid effective proof budget"
    return true

end Naome.Resources
