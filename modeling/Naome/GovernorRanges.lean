import Naome.Governor

/-!
# Ranges of published budgets

Each stage of the governor keeps the ranges of a budget, whatever it was before; so they hold for
every snapshot that any sequence of calls publishes.
-/
namespace Naome.Resources
open Outcome

theorem approach_pos {current target : ℕ} (h : 1 ≤ current) : 1 ≤ approach current target := by
  unfold approach saturatingAdd u64Max u64Limit
  split_ifs <;> omega

section

variable {limits : Limits} {before next : Snapshot} {previous statistics : Statistics}
  {pressure : Pressure} {b b' b'' : Budget} {capacity : ℕ}

/-- A stage keeps the memory and the ranges, and never lifts a pause. -/
structure Budget.Stage (limits : Limits) (b b' : Budget) : Prop where
  memory : b'.memoryBytes = b.memoryBytes
  paused : b'.paused = none → b.paused = none
  ranges : b.Ranges limits → b'.Ranges limits

theorem Budget.Stage.refl (b : Budget) : b.Stage limits b := ⟨rfl, id, id⟩

theorem Budget.Stage.trans (h : b.Stage limits b') (h' : b'.Stage limits b'') :
    b.Stage limits b'' :=
  ⟨h'.memory.trans h.memory, fun hnone => h.paused (h'.paused hnone),
    fun hranges => h'.ranges (h.ranges hranges)⟩

theorem steeredConcurrency_pos :
    1 ≤ steeredConcurrency limits before previous statistics pressure next := by
  have hpos := @approach_pos (max before.budget.concurrency 1)
    (targetConcurrency limits before previous statistics pressure next) (Nat.le_max_right _ _)
  unfold steeredConcurrency
  dsimp only
  split_ifs
  · exact hpos
  · exact Nat.le_min.mpr ⟨hpos, Nat.le_max_right _ _⟩

theorem stage_steerConcurrency :
    next.budget.Stage limits
      (steerConcurrency limits before previous statistics pressure next) := by
  unfold steerConcurrency
  split_ifs
  · refine ⟨rfl, id, fun h => ?_⟩
    refine ⟨h.cache_low, h.cache_high, h.batch_high, h.network_high, h.network_low, ?_⟩
    intro hnone
    obtain ⟨hmemory, -, hbatch⟩ := h.running hnone
    exact ⟨hmemory, steeredConcurrency_pos, hbatch⟩
  · exact .refl _

theorem steeredBatch_range :
    1 ≤ steeredBatch limits before previous statistics b ∧
      steeredBatch limits before previous statistics b ≤ max (b.memoryBytes / 8192) 1 := by
  have hpos := fun target => @approach_pos (max before.budget.batchSteps 1) target
    (Nat.le_max_right _ _)
  unfold steeredBatch
  dsimp only
  split_ifs
  · exact ⟨Nat.le_min.mpr ⟨hpos _, Nat.le_max_right _ _⟩, Nat.min_le_right _ _⟩
  · omega

theorem stage_steerWork :
    b.Stage limits (steerWork limits before previous statistics pressure b) := by
  refine ⟨rfl, id, fun h => ?_⟩
  obtain ⟨hbatch, hceiling⟩ := @steeredBatch_range limits before previous statistics b
  refine ⟨Nat.le_max_right _ _, ?_, hceiling, h.network_high, h.network_low, ?_⟩
  · dsimp only [steerWork, steeredCache]
    omega
  · intro hnone
    obtain ⟨hmemory, hconcurrency, -⟩ := h.running hnone
    exact ⟨hmemory, hconcurrency, hbatch⟩

theorem stage_steerNetwork {elapsed : ℕ} {memory : NetworkMemory}
    (hbefore : before.budget.networkRequests ≤ limits.flights) :
    b.Stage limits (steerNetwork limits before previous statistics elapsed memory b).1 := by
  have hflights := limits.flights_pos
  have hpos := fun target => @approach_pos (max before.budget.networkRequests 1) target
    (Nat.le_max_right _ _)
  unfold steerNetwork
  dsimp only
  split_ifs
  all_goals try exact .refl _
  all_goals
    refine ⟨rfl, id, fun h => ?_⟩
    refine ⟨h.cache_low, h.cache_high, h.batch_high, ?_, ?_, h.running⟩
  · dsimp only
    omega
  · exact Nat.le_max_right _ _
  · exact Nat.min_le_right _ _
  · exact Nat.le_min.mpr ⟨Nat.le_max_right _ _, hflights⟩
  · exact Nat.min_le_right _ _
  · exact Nat.le_min.mpr ⟨hpos _, hflights⟩
  · exact Nat.min_le_right _ _
  · exact Nat.le_min.mpr ⟨Nat.le_max_right _ _, hflights⟩

/-- A pause that is set asks for less. -/
theorem Budget.Ranges.pause (h : b.Ranges limits) (reason : String) :
    ({ b with paused := some reason } : Budget).Ranges limits :=
  ⟨h.cache_low, h.cache_high, h.batch_high, h.network_high, h.network_low,
    fun hnone => (by cases hnone)⟩

theorem stage_pause (reason : String) : b.Stage limits { b with paused := some reason } :=
  ⟨rfl, fun hnone => (by cases hnone), fun h => h.pause reason⟩

theorem stage_relieve : b.Stage limits (relieve before pressure b) := by
  have hio : b.Stage limits (if pressure.io then
      { b with
        concurrency := min b.concurrency (max (before.budget.concurrency / 2) 1)
        batchSteps := min b.batchSteps (max (before.budget.batchSteps / 2) 1)
        networkRequests := min b.networkRequests (max (before.budget.networkRequests / 2) 1) }
      else b) := by
    split_ifs
    · refine ⟨rfl, id, fun h => ?_⟩
      refine ⟨h.cache_low, h.cache_high, (Nat.min_le_left _ _).trans h.batch_high,
        (Nat.min_le_left _ _).trans h.network_high,
        Nat.le_min.mpr ⟨h.network_low, Nat.le_max_right _ _⟩, ?_⟩
      intro hnone
      obtain ⟨hmemory, hconcurrency, hbatch⟩ := h.running hnone
      exact ⟨hmemory, Nat.le_min.mpr ⟨hconcurrency, Nat.le_max_right _ _⟩,
        Nat.le_min.mpr ⟨hbatch, Nat.le_max_right _ _⟩⟩
    · exact .refl _
  unfold relieve
  dsimp only
  split_ifs at hio ⊢
  · exact hio.trans (stage_pause _)
  · exact hio.trans (stage_pause _)
  · exact hio
  · exact hio

namespace Governor

theorem damp_spec {g g' : Governor} {beforeTime now : ℕ} {next' : Snapshot}
    (hbefore : before.budget.networkRequests ≤ limits.flights)
    (h : damp limits g beforeTime before previous statistics pressure now next = (g', next')) :
    g'.pause = g.pause ∧ g'.previous = g.previous ∧ next'.selection = next.selection ∧
      next'.observed = next.observed ∧ next.budget.Stage limits next'.budget := by
  unfold damp at h
  dsimp only at h
  cases h
  refine ⟨rfl, rfl, rfl, rfl, ?_⟩
  have hconcurrency := @stage_steerConcurrency limits before next previous statistics pressure
  split_ifs
  · exact hconcurrency.trans (stage_steerWork.trans
      ((stage_steerNetwork hbefore).trans stage_relieve))
  · exact hconcurrency.trans stage_relieve

theorem confine_spec :
    (confine limits statistics pressure capacity next).selection = next.selection ∧
      (confine limits statistics pressure capacity next).observed = next.observed ∧
      next.budget.Stage limits (confine limits statistics pressure capacity next).budget ∧
      (confine limits statistics pressure capacity next).budget.concurrency ≤
        limits.workers.sum := by
  have hworkers := limits.workers_pos
  have hclamp : next.budget.Stage limits
      { next.budget with concurrency := min next.budget.concurrency limits.workers.sum } := by
    refine ⟨rfl, id, fun h => ?_⟩
    refine ⟨h.cache_low, h.cache_high, h.batch_high, h.network_high, h.network_low, ?_⟩
    intro hnone
    obtain ⟨hmemory, hconcurrency, hbatch⟩ := h.running hnone
    exact ⟨hmemory, Nat.le_min.mpr ⟨hconcurrency, hworkers⟩, hbatch⟩
  have hmemory : ∀ (b : Budget) (reason : String), b.Stage limits
      { b with paused := some reason, cacheBytes := max (b.cacheBytes / 2) 4096 } := by
    intro b reason
    refine ⟨rfl, fun hnone => (by cases hnone), fun h => ?_⟩
    have hhigh := h.cache_high
    refine ⟨Nat.le_max_right _ _, ?_, h.batch_high, h.network_high, h.network_low,
      fun hnone => (by cases hnone)⟩
    dsimp only
    omega
  refine ⟨rfl, rfl, ?_, ?_⟩
  · unfold confine
    dsimp only
    split_ifs
    · exact hclamp.trans ((stage_pause _).trans (hmemory _ _))
    · exact hclamp.trans (hmemory _ _)
    · exact hclamp.trans (stage_pause _)
    · exact hclamp
  · unfold confine
    dsimp only
    split_ifs <;> exact Nat.min_le_right _ _

theorem judged_eq_ok {g g' : Governor} {o : Observation}
    (hbefore : ∀ t s st, g.previous = some (t, s, st) → s.budget.networkRequests ≤ limits.flights)
    (h : judged limits capacity g o = .ok (g', next)) :
    g'.pause = g.pause ∧ next.selection = o.selection ∧ next.observed = o.observed ∧
      ¬ (o.observed.memoryTotal = 0 ∨ o.observed.memoryLimit = 0 ∨ o.observed.cpuMillis = 0) ∧
      next.budget.memoryBytes ≤ capacity ∧
      next.budget.memoryBytes ≤ Snapshot.safe o.selection o.observed ∧
      next.budget.Ranges limits ∧ next.budget.concurrency ≤ limits.workers.sum := by
  simp only [judged, bind_eq_ok, pure_eq_ok] at h
  obtain ⟨derived, hderive, h⟩ := h
  obtain ⟨-, hcomplete, hselection, hobserved, hmemory, -, hranges⟩ := Snapshot.derive_eq_ok hderive
  have hcapacity : derived.budget.memoryBytes ≤ capacity := by
    rw [hmemory]
    exact Nat.min_le_right _ _
  have hsafe : derived.budget.memoryBytes ≤ Snapshot.safe o.selection o.observed := by
    rw [hmemory]
    exact (Nat.min_le_left _ _).trans (Nat.min_le_right _ _)
  have hfinish : ∀ {g₁ : Governor} {s : Snapshot}, g₁.pause = g.pause →
      s.selection = derived.selection → s.observed = derived.observed →
      derived.budget.Stage limits s.budget →
      (g₁, confine limits o.statistics o.pressure capacity s) = (g', next) →
      g'.pause = g.pause ∧ next.selection = o.selection ∧ next.observed = o.observed ∧
        ¬ (o.observed.memoryTotal = 0 ∨ o.observed.memoryLimit = 0 ∨ o.observed.cpuMillis = 0) ∧
        next.budget.memoryBytes ≤ capacity ∧
        next.budget.memoryBytes ≤ Snapshot.safe o.selection o.observed ∧
        next.budget.Ranges limits ∧ next.budget.concurrency ≤ limits.workers.sum := by
    intro g₁ s hpause hs hs' hstage heq
    cases heq
    obtain ⟨hconfine, hconfine', hconfined, hworkers⟩ :=
      @confine_spec limits s o.statistics o.pressure capacity
    have hall := hstage.trans hconfined
    refine ⟨hpause, hconfine.trans (hs.trans hselection), hconfine'.trans (hs'.trans hobserved),
      hcomplete, ?_, ?_, hall.ranges hranges, hworkers⟩
    · rw [hall.memory]
      exact hcapacity
    · rw [hall.memory]
      exact hsafe
  cases hprevious : g.previous with
  | none =>
    rw [hprevious] at h
    exact hfinish rfl rfl rfl (.refl _) h
  | some earlier =>
    obtain ⟨t, before, previous⟩ := earlier
    rw [hprevious] at h
    dsimp only at h
    cases hdamp : damp limits g t before previous o.statistics o.pressure o.now derived with
    | mk g₁ s =>
      rw [hdamp] at h
      obtain ⟨hpause, -, hs, hs', hstage⟩ := damp_spec (hbefore t before previous hprevious) hdamp
      exact hfinish hpause hs hs' hstage h

/-- What every published snapshot keeps. -/
structure Consistent (limits : Limits) (capacity : ℕ) (s : Snapshot) : Prop where
  memory_capacity : s.budget.memoryBytes ≤ capacity
  memory_safe : s.budget.memoryBytes ≤ Snapshot.safe s.selection s.observed
  cache_low : 4096 ≤ s.budget.cacheBytes
  cache_high : s.budget.cacheBytes ≤ max 4096 (s.budget.memoryBytes / 4)
  paused : s.budget.paused.isSome →
    s.budget.concurrency = 0 ∧ s.budget.batchSteps = 0 ∧ s.budget.networkRequests ≤ 1
  running : s.budget.paused = none →
    8 * mib ≤ s.budget.memoryBytes ∧
    (1 ≤ s.budget.concurrency ∧ s.budget.concurrency ≤ limits.workers.sum) ∧
    (1 ≤ s.budget.batchSteps ∧ s.budget.batchSteps ≤ s.budget.memoryBytes / 8192) ∧
    1 ≤ s.budget.networkRequests ∧ s.budget.networkRequests ≤ limits.flights

theorem Consistent.network_high {s : Snapshot} (h : Consistent limits capacity s) :
    s.budget.networkRequests ≤ limits.flights := by
  cases hpaused : s.budget.paused with
  | none => exact (h.running hpaused).2.2.2.2
  | some reason =>
    have hone := (h.paused (by rw [hpaused]; rfl)).2.2
    exact hone.trans limits.flights_pos

/-- The snapshot that the next observation is compared with. -/
def Sound (limits : Limits) (capacity : ℕ) (g : Governor) : Prop :=
  ∀ t s st, g.previous = some (t, s, st) → Consistent limits capacity s ∧
    ¬ (s.observed.memoryTotal = 0 ∨ s.observed.memoryLimit = 0 ∨ s.observed.cpuMillis = 0)

theorem Sound.empty : Sound limits capacity .empty := by
  intro t s st h
  cases h

/-- The snapshot of a pause decision, closed while the pause lasts. -/
theorem consistent_of_judged {pause : Option String}
    (hcapacity : next.budget.memoryBytes ≤ capacity)
    (hsafe : next.budget.memoryBytes ≤ Snapshot.safe next.selection next.observed)
    (hranges : next.budget.Ranges limits) (hworkers : next.budget.concurrency ≤ limits.workers.sum)
    (hpause : pause = none → next.budget.paused = none) :
    Consistent limits capacity
      { next with budget := close { next.budget with paused := pause } } := by
  cases pause with
  | none =>
    refine ⟨hcapacity, hsafe, hranges.cache_low, hranges.cache_high, fun h => (by cases h), ?_⟩
    intro _
    obtain ⟨hmemory, hconcurrency, hbatch⟩ := hranges.running (hpause rfl)
    refine ⟨hmemory, ⟨hconcurrency, hworkers⟩, ⟨hbatch, ?_⟩, hranges.network_low,
      hranges.network_high⟩
    have hhigh := hranges.batch_high
    unfold mib at hmemory
    dsimp only [close]
    change next.budget.batchSteps ≤ next.budget.memoryBytes / 8192
    omega
  | some reason =>
    exact ⟨hcapacity, hsafe, hranges.cache_low, hranges.cache_high,
      fun _ => ⟨rfl, rfl, Nat.min_le_right _ _⟩, fun h => (by cases h)⟩

end Governor

theorem Pause.apply_paused {p p' : Pause} {next' : Snapshot} {descendants now : ℕ}
    (h : p.apply limits next pressure descendants capacity now = (p', next')) :
    next' = { next with budget := { next.budget with paused := p'.reason } } ∧
      (p'.reason = none → next.budget.paused = none) := by
  unfold apply at h
  dsimp only at h
  cases h
  refine ⟨rfl, ?_⟩
  cases hpaused : next.budget.paused with
  | none => exact fun _ => rfl
  | some reason =>
    have htrigger : p.trigger next pressure now = some reason := by
      rw [trigger, hpaused]
    rw [htrigger]
    intro hreason
    cases hreason

namespace Governor

theorem update_consistent {g g' : Governor} {o : Observation} {s : Snapshot}
    (hg : Sound limits capacity g) (h : update limits capacity g o = .ok (g', s)) :
    Consistent limits capacity s ∧ Sound limits capacity g' ∧ s.selection = o.selection ∧
      s.observed = o.observed := by
  simp only [update, bind_eq_ok, pure_eq_ok] at h
  obtain ⟨⟨g₁, next⟩, hjudged, h⟩ := h
  obtain ⟨-, hselection, hobserved, hcomplete, hcapacity, hsafe, hranges, hworkers⟩ :=
    judged_eq_ok (fun t s st hs => (hg t s st hs).1.network_high) hjudged
  cases happly : g₁.pause.apply limits next o.pressure o.statistics.descendantRss capacity
    o.now with
  | mk pause paused =>
    obtain ⟨rfl, hpause⟩ := Pause.apply_paused happly
    dsimp only at h
    rw [happly] at h
    cases h
    have hconsistent : Consistent limits capacity
        { next with budget := close { next.budget with paused := pause.reason } } :=
      consistent_of_judged hcapacity (by rw [hselection, hobserved]; exact hsafe) hranges hworkers
        hpause
    refine ⟨hconsistent, ?_, hselection, hobserved⟩
    intro t s st hs
    cases hs
    refine ⟨hconsistent, ?_⟩
    dsimp only
    rw [hobserved]
    exact hcomplete

theorem unavailable_spec {g g' : Governor} {selection : Selection} {clock : Except String ℕ}
    {result : Option Snapshot} (hg : Sound limits capacity g)
    (h : unavailable limits g selection clock = (g', result)) :
    g' = { g with pause := g.pause.unavailable } ∧ ∀ s, result = some s →
      Consistent limits capacity s ∧ s.budget.paused.isSome ∧ ∃ t before st,
        g.previous = some (t, before, st) ∧ s.selection = selection ∧ s.observed = before.observed ∧
        s.budget.memoryBytes ≤ before.budget.memoryBytes ∧
        s.budget.cacheBytes ≤ before.budget.cacheBytes ∧
        s.budget.networkRequests ≤ before.budget.networkRequests := by
  unfold unavailable at h
  dsimp only at h
  cases hprevious : g.previous with
  | none =>
    rw [hprevious] at h
    cases h
    exact ⟨rfl, fun s hs => (by cases hs)⟩
  | some earlier =>
    obtain ⟨t, before, st⟩ := earlier
    rw [hprevious] at h
    dsimp only at h
    split at h
    · cases h
      exact ⟨rfl, fun s hs => (by cases hs)⟩
    · next derived hderive =>
      cases h
      refine ⟨rfl, ?_⟩
      intro s hs
      cases hs
      obtain ⟨-, -, hselection, hobserved, hmemory, -, hranges⟩ := Snapshot.derive_eq_ok hderive
      obtain ⟨hbefore, -⟩ := hg t before st hprevious
      have hnarrow : derived.budget.memoryBytes ≤ before.budget.memoryBytes := by
        rw [hmemory]
        exact Nat.min_le_right _ _
      have hlow := hranges.cache_low
      have hhigh := hranges.cache_high
      have hlow' := hbefore.cache_low
      refine ⟨⟨hnarrow.trans hbefore.memory_capacity, ?_, ?_, ?_, ?_, ?_⟩, rfl, t, before, st, rfl,
        hselection, hobserved, hnarrow, Nat.min_le_right _ _, ?_⟩
      · dsimp only
        rw [hmemory, hselection, hobserved]
        exact (Nat.min_le_left _ _).trans (Nat.min_le_right _ _)
      · exact Nat.le_min.mpr ⟨hlow, hlow'⟩
      · exact (Nat.min_le_left _ _).trans hhigh
      · exact fun _ => ⟨rfl, rfl, Nat.min_le_right _ _⟩
      · intro hnone
        cases hnone
      · exact (Nat.min_le_left _ _).trans (Nat.min_le_right _ _)

inductive Call
  | update (o : Observation)
  | unavailable (selection : Selection) (clock : Except String ℕ)

/-- A refused observation leaves the governor as it is. -/
def step (limits : Limits) (capacity : ℕ) (g : Governor) : Call → Governor × Option Snapshot
  | .update o =>
    match update limits capacity g o with
    | .ok (g, s) => (g, some s)
    | .error _ => (g, none)
  | .unavailable selection clock => unavailable limits g selection clock

def run (limits : Limits) (capacity : ℕ) (calls : List Call) : Governor :=
  calls.foldl (fun g c => (step limits capacity g c).1) .empty

theorem run_snoc (calls : List Call) (c : Call) :
    run limits capacity (calls ++ [c]) =
      (step limits capacity (run limits capacity calls) c).1 := by
  simp only [run, List.foldl_append, List.foldl_cons, List.foldl_nil]

theorem step_consistent {g : Governor} (hg : Sound limits capacity g) (c : Call) :
    Sound limits capacity (step limits capacity g c).1 ∧
      ∀ s, (step limits capacity g c).2 = some s → Consistent limits capacity s := by
  cases c with
  | update o =>
    unfold step
    dsimp only
    split
    · next g' s h =>
      obtain ⟨hs, hg', -⟩ := update_consistent hg h
      refine ⟨hg', ?_⟩
      intro s' hs'
      cases hs'
      exact hs
    · exact ⟨hg, fun s hs => (by cases hs)⟩
  | unavailable selection clock =>
    cases h : unavailable limits g selection clock with
    | mk g' result =>
      obtain ⟨rfl, hresult⟩ := unavailable_spec hg h
      rw [step, h]
      exact ⟨fun t s st hs => hg t s st hs, fun s hs => (hresult s hs).1⟩

theorem sound_run (calls : List Call) : Sound limits capacity (run limits capacity calls) := by
  induction calls using List.reverseRecOn with
  | nil => exact .empty
  | append_singleton calls c ih =>
    rw [run_snoc]
    exact (step_consistent ih c).1

end Governor
end
end Naome.Resources
