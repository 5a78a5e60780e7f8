import Naome.MachineIntegers
import Naome.Outcome

/-!
# Effective resource budgets

A profile selection and one hardware observation give a budget below the process capacity. Sizes and
times are natural numbers; saturating arithmetic stops at the largest 64-bit number.
-/
namespace Naome.Resources
open Outcome

def mib : ℕ := 1024 * 1024

def saturatingMul (a b : ℕ) : ℕ := min (a * b) u64Max

def divCeil (a b : ℕ) : ℕ := (a + b - 1) / b

/-- What the adaptive budgets read of the process limits. Validated limits have a worker, a flight
and a positive grace interval, which is also the execution quantum. -/
structure Limits where
  memoryBytes : ℕ
  workers : List ℕ
  flights : ℕ
  providerStreamBytes : ℕ
  diskReserveBytes : ℕ
  /-- In nanoseconds. -/
  transportBusyGrace : ℕ
  checkerReserve : ℕ
  workers_pos : 1 ≤ workers.sum
  flights_pos : 1 ≤ flights
  grace_pos : 0 < transportBusyGrace

inductive Profile
  | dynamic
  | heavy
  | light
  | custom
  deriving DecidableEq, Inhabited

structure Custom where
  memoryBytes : ℕ
  concurrency : ℕ
  cacheBytes : ℕ
  batchSteps : ℕ
  networkRequests : ℕ
  deriving DecidableEq

structure Selection where
  profile : Profile
  custom : Option Custom
  deriving DecidableEq

def Custom.consistent (c : Custom) : Bool :=
  decide (8 * mib ≤ c.memoryBytes) && decide (c.memoryBytes ≤ 2 ^ 63 - 1) &&
    decide (0 < c.concurrency) && decide (c.concurrency ≤ c.memoryBytes / 65536) &&
    decide (4096 ≤ c.cacheBytes) && decide (c.cacheBytes ≤ c.memoryBytes / 4) &&
    decide (0 < c.batchSteps) && decide (c.batchSteps ≤ c.memoryBytes / 8192) &&
    decide (0 < c.networkRequests) && decide (c.networkRequests ≤ c.memoryBytes / 65536)

def Selection.validate (s : Selection) : Except String Unit :=
  match s.profile, s.custom with
  | .custom, some c =>
    require (c.consistent = true)
      ("custom requires positive, internally consistent memory, concurrency, " ++
        "cache, batch and network limits")
  | .custom, none =>
    .error ("custom requires positive, internally consistent memory, concurrency, " ++
      "cache, batch and network limits")
  | _, none => .ok ()
  | _, some _ => .error "custom settings require the custom profile"

/-- One observation of the hardware; the fields that only reports use are left out. -/
structure Observed where
  memoryTotal : ℕ
  memoryAvailable : ℕ
  memoryLimit : ℕ
  processRss : ℕ
  cpuMillis : ℕ
  diskAvailable : ℕ
  deriving DecidableEq

structure Budget where
  memoryBytes : ℕ
  concurrency : ℕ
  cacheBytes : ℕ
  batchSteps : ℕ
  networkRequests : ℕ
  yieldMs : ℕ
  paused : Option String
  deriving DecidableEq

structure Snapshot where
  selection : Selection
  budget : Budget
  observed : Observed
  timestampMs : ℕ
  deriving DecidableEq

namespace Snapshot

section

variable (limits : Limits) (selection : Selection) (observed : Observed) (capacity : ℕ)

def reserve : ℕ :=
  max (observed.memoryLimit / (if selection.profile = .heavy then 20 else 8)) (64 * mib)

/-- What the process may use without harm to the rest of the system. -/
def safe : ℕ :=
  min (observed.memoryLimit - reserve selection observed)
    (saturatingAdd observed.processRss observed.memoryAvailable - reserve selection observed)

def cpus : ℕ := max (divCeil observed.cpuMillis 1000) 1

def workerBytes : ℕ := saturatingMul limits.providerStreamBytes 4

def hostSlots : ℕ :=
  match selection.profile with
  | .light => 1
  | .heavy => cpus observed
  -- Begin below the host ceiling; measured demand may grow later.
  | _ => max (cpus observed - 1) 1

def desired : ℕ :=
  match selection.profile with
  | .light =>
    saturatingAdd (saturatingAdd observed.processRss limits.checkerReserve) (workerBytes limits)
  | .dynamic =>
    saturatingAdd (saturatingAdd observed.processRss limits.checkerReserve)
      (saturatingMul (workerBytes limits) (hostSlots selection observed))
  | .heavy => observed.memoryLimit
  | .custom => (selection.custom.map Custom.memoryBytes).getD 0

def memory : ℕ := min (min (desired limits selection observed) (safe selection observed)) capacity

def slots : ℕ :=
  min (hostSlots selection observed)
    (max (memory limits selection observed capacity / max (workerBytes limits) 1) 1)

def concurrency : ℕ :=
  match selection.custom with
  | none => slots limits selection observed capacity
  | some c => min c.concurrency (slots limits selection observed capacity)

def cache : ℕ :=
  let wanted :=
    match selection.custom with
    | none => max observed.processRss (workerBytes limits) /
        (if selection.profile = .light then 8 else if selection.profile = .heavy then 2 else 4)
    | some c => c.cacheBytes
  max (min wanted (memory limits selection observed capacity / 4)) 4096

def batch : ℕ :=
  let wanted :=
    match selection.custom with
    | none =>
      if selection.profile = .light then 1
      else if selection.profile = .heavy then saturatingMul (cpus observed) 2
      else max (slots limits selection observed capacity) 2
    | some c => c.batchSteps
  min wanted (max (memory limits selection observed capacity / 8192) 1)

def network : ℕ :=
  let wanted :=
    match selection.custom with
    | none =>
      if selection.profile = .light then 1
      else max (concurrency limits selection observed capacity) 1
    | some c => c.networkRequests
  min wanted limits.flights

def pressure : Option String :=
  if memory limits selection observed capacity < 8 * mib ∨
      memory limits selection observed capacity < observed.processRss then some "memory pressure"
  else if observed.diskAvailable < saturatingAdd limits.diskReserveBytes (2 * mib) then
    some "disk pressure"
  else none

def yieldMs : ℕ :=
  if selection.profile = .heavy then 0
  else
    let quantum := limits.transportBusyGrace / 1000000
    let quotaDelay := saturatingMul quantum (1000 - observed.cpuMillis) / max observed.cpuMillis 1
    if selection.profile = .light then saturatingAdd quantum quotaDelay else quotaDelay

/-- The budget of one observation. `clock` is the wall clock in milliseconds. -/
def derive (clock : Except String ℕ) : Except String Snapshot := do
  selection.validate
  require (¬ (observed.memoryTotal = 0 ∨ observed.memoryLimit = 0 ∨ observed.cpuMillis = 0))
    "hardware observation is incomplete"
  let paused := pressure limits selection observed capacity
  let network := network limits selection observed capacity
  let timestampMs ← clock
  return {
    selection
    budget := {
      memoryBytes := memory limits selection observed capacity
      concurrency := if paused.isSome then 0 else concurrency limits selection observed capacity
      cacheBytes := cache limits selection observed capacity
      batchSteps := if paused.isSome then 0 else batch limits selection observed capacity
      networkRequests := if paused.isSome then min network 1 else network
      yieldMs := yieldMs limits selection observed
      paused }
    observed
    timestampMs }

end

end Snapshot

/-- Work counters; they only grow while the process runs, but nothing here relies on it. -/
structure Work where
  units : ℕ
  nanos : ℕ
  deriving DecidableEq

structure Provider where
  setupPeakRssBytes : ℕ
  workPeakRssBytes : ℕ
  finalizationPeakRssBytes : ℕ
  completed : ℕ
  activeNanos : ℕ
  cpuNanos : Option ℕ
  queued : ℕ
  running : ℕ
  deriving DecidableEq

def Provider.demanding (p : Provider) : Bool := decide (0 < p.queued) || decide (0 < p.running)

/-- The providers of the four roles. -/
abbrev Providers := List Provider

/-- Slots that the measured CPU duty of the demanding roles allows. -/
def Providers.cpuSlots (providers : Providers) (availableMillis quantum : ℕ) : Option ℕ := do
  let perJob ← providers.foldlM
    (fun perJob p =>
      if p.demanding then do
        let cpu ← p.cpuNanos
        if p.completed = 0 ∨ p.activeNanos < quantum then none
        else some (max perJob (max (divCeil (cpu * 1000) p.activeNanos) 1))
      else some perJob) 0
  if 0 < perJob then some (min (max (availableMillis / perJob) 1) u64Max) else none

def Providers.peakWorkerBytes (providers : Providers) : ℕ :=
  ((providers.filter Provider.demanding).map fun p =>
    max (max p.setupPeakRssBytes p.workPeakRssBytes) p.finalizationPeakRssBytes).foldl max 0

structure Statistics where
  check : Work
  network : Work
  cacheHits : ℕ
  cacheMisses : ℕ
  queuedJobs : ℕ
  runningJobs : ℕ
  descendantRss : ℕ
  pendingRequests : ℕ
  failedRequests : ℕ
  providers : Providers

/-- The ranges of a budget that work may run with, or that is paused. -/
structure Budget.Ranges (limits : Limits) (b : Budget) : Prop where
  cache_low : 4096 ≤ b.cacheBytes
  cache_high : b.cacheBytes ≤ max 4096 (b.memoryBytes / 4)
  batch_high : b.batchSteps ≤ max (b.memoryBytes / 8192) 1
  network_high : b.networkRequests ≤ limits.flights
  network_low : 1 ≤ b.networkRequests
  running : b.paused = none → 8 * mib ≤ b.memoryBytes ∧ 1 ≤ b.concurrency ∧ 1 ≤ b.batchSteps

namespace Snapshot

variable {limits : Limits} {selection : Selection} {observed : Observed} {capacity : ℕ}
  {clock : Except String ℕ} {s : Snapshot}

theorem custom_pos (h : selection.validate = .ok ()) {c : Custom} (hc : selection.custom = some c) :
    0 < c.concurrency ∧ 0 < c.batchSteps ∧ 0 < c.networkRequests := by
  unfold Selection.validate at h
  rw [hc] at h
  cases hprofile : selection.profile with
  | custom =>
    rw [hprofile] at h
    simp only [require_eq_ok, Custom.consistent, Bool.and_eq_true, decide_eq_true_eq] at h
    omega
  | dynamic | heavy | light =>
    rw [hprofile] at h
    cases h

theorem hostSlots_pos : 1 ≤ hostSlots selection observed := by
  unfold hostSlots cpus
  split <;> omega

theorem slots_pos : 1 ≤ slots limits selection observed capacity := by
  have hhost := @hostSlots_pos selection observed
  unfold slots
  omega

theorem concurrency_pos (h : selection.validate = .ok ()) :
    1 ≤ concurrency limits selection observed capacity := by
  have hslots := @slots_pos limits selection observed capacity
  unfold concurrency
  split
  · exact hslots
  · next c hc =>
    have hpos := custom_pos h hc
    omega

theorem batch_pos (h : selection.validate = .ok ()) :
    1 ≤ batch limits selection observed capacity := by
  unfold batch
  dsimp only
  split
  · have hcpus : 1 ≤ cpus observed := by
      unfold cpus
      omega
    unfold saturatingMul u64Max u64Limit
    split_ifs <;> omega
  · next c hc =>
    have hpos := custom_pos h hc
    omega

theorem network_pos (h : selection.validate = .ok ()) :
    1 ≤ network limits selection observed capacity := by
  have hflights := limits.flights_pos
  unfold network
  dsimp only
  split
  · split_ifs <;> omega
  · next c hc =>
    have hpos := custom_pos h hc
    omega

theorem memory_of_pressure (h : pressure limits selection observed capacity = none) :
    8 * mib ≤ memory limits selection observed capacity := by
  unfold pressure at h
  split_ifs at h with hmemory
  omega

theorem derive_eq_ok (h : derive limits selection observed capacity clock = .ok s) :
    selection.validate = .ok () ∧
      ¬ (observed.memoryTotal = 0 ∨ observed.memoryLimit = 0 ∨ observed.cpuMillis = 0) ∧
      s.selection = selection ∧ s.observed = observed ∧
      s.budget.memoryBytes = memory limits selection observed capacity ∧
      s.budget.paused = pressure limits selection observed capacity ∧ s.budget.Ranges limits := by
  simp only [derive, bind_eq_ok, require_eq_ok, pure_eq_ok] at h
  obtain ⟨_, hvalid, _, hcomplete, timestampMs, -, rfl⟩ := h
  refine ⟨hvalid, hcomplete, rfl, rfl, rfl, rfl, ?_⟩
  have hnetwork := @network_pos limits selection observed capacity hvalid
  have hflights : network limits selection observed capacity ≤ limits.flights :=
    Nat.min_le_right _ _
  constructor
  · exact Nat.le_max_right _ _
  · dsimp only [cache]
    omega
  · dsimp only
    split_ifs
    · omega
    · exact Nat.min_le_right _ _
  · dsimp only
    split_ifs <;> omega
  · dsimp only
    split_ifs <;> omega
  · intro hnone
    dsimp only at hnone ⊢
    rw [hnone]
    exact ⟨memory_of_pressure hnone, concurrency_pos hvalid, batch_pos hvalid⟩

end Snapshot
end Naome.Resources
