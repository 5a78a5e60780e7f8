import Naome.GovernorRanges

/-!
# The end of a pause

The clear time of a pause starts a run of quiet observations that lasts to the present. A signal
that has fired during the pause is needed, and quiet observations see every needed signal clear.
-/
namespace Naome.Resources
open Outcome

inductive Signal
  | cpu
  | memory
  | power
  | thermal
  deriving DecidableEq

def Pause.needs (p : Pause) : Signal → Bool
  | .cpu => p.needsCpu
  | .memory => p.needsMemory
  | .power => p.needsPower
  | .thermal => p.needsThermal

/-- The signal is observed, and it is clear. -/
def Pressure.Clear (pressure : Pressure) : Signal → Prop
  | .cpu => ∃ load, pressure.cpu = some load ∧ load.externalPercent < clearCpu
  | .memory => pressure.memory = some false
  | .power => pressure.lowPower = some false
  | .thermal => pressure.thermal = some false

/-- The signal fires; the CPU only after sustained pressure. -/
def Pause.fires (p : Pause) (pressure : Pressure) (now : ℕ) : Signal → Bool
  | .cpu => p.cpuPressure pressure now
  | .memory => decide (pressure.memory = some true)
  | .power => decide (pressure.lowPower = some true)
  | .thermal => decide (pressure.thermal = some true)

namespace Pause

variable {limits : Limits} {p p' : Pause} {next next' : Snapshot} {pressure : Pressure}
  {descendants capacity now : ℕ} {signal : Signal}

theorem needs_remember :
    (p.remember pressure now).needs signal = (p.needs signal || p.fires pressure now signal) := by
  cases signal <;> rfl

theorem signalsClear_eq (h : p.signalsClear pressure = true) (hneeds : p.needs signal = true) :
    pressure.Clear signal := by
  simp only [signalsClear, Bool.and_eq_true, Bool.or_eq_true, Bool.not_eq_true',
    decide_eq_true_eq] at h
  obtain ⟨⟨⟨hmemory, hcpu⟩, hpower⟩, hthermal⟩ := h
  cases signal with
  | cpu =>
    rcases hcpu with hcpu | hcpu
    · exact absurd hneeds (by rw [needs, hcpu]; exact Bool.false_ne_true)
    · cases hload : pressure.cpu with
      | none =>
        rw [hload] at hcpu
        cases hcpu
      | some load =>
        rw [hload] at hcpu
        exact ⟨load, hload, of_decide_eq_true hcpu⟩
  | memory => exact hmemory.resolve_left (by rw [show p.needsMemory = true from hneeds]; decide)
  | power => exact hpower.resolve_left (by rw [show p.needsPower = true from hneeds]; decide)
  | thermal => exact hthermal.resolve_left (by rw [show p.needsThermal = true from hneeds]; decide)

/-- Nothing fires where there is no trigger. -/
theorem fires_of_trigger (h : p.trigger next pressure now = none)
    (hmemory : pressure.memory = some true → next.budget.paused.isSome) :
    p.fires pressure now signal = false := by
  unfold trigger at h
  split at h
  · cases h
  · next hpaused =>
    split_ifs at h with hpower hthermal hcpu
    cases signal with
    | cpu => exact Bool.eq_false_iff.mpr hcpu
    | memory =>
      refine decide_eq_false fun htrue => ?_
      have hsome := hmemory htrue
      rw [hpaused] at hsome
      cases hsome
    | power => exact decide_eq_false hpower
    | thermal => exact decide_eq_false hthermal

/-- A quiet observation of a pause: nothing triggers, the margins hold and every needed signal is
observed clear. -/
structure Quiet (limits : Limits) (p : Pause) (next : Snapshot) (pressure : Pressure)
    (descendants capacity now : ℕ) : Prop where
  trigger : p.trigger next pressure now = none
  margins : margins limits next descendants capacity = true
  signals : ∀ signal, p.needs signal = true → pressure.Clear signal

/-- What one observation can do to a pause. -/
theorem apply_cases
    (hmemory : pressure.memory = some true → next.budget.paused.isSome)
    (h : p.apply limits next pressure descendants capacity now = (p', next')) :
    (∃ reason, p.trigger next pressure now = some reason ∧ p'.reason = some reason ∧
      p'.clearSince = none ∧
      ∀ signal, p'.needs signal = (p.needs signal || p.fires pressure now signal)) ∨
    (p.reason = none ∧ p.trigger next pressure now = none ∧ p'.reason = none ∧
      p'.clearSince = p.clearSince ∧ ∀ signal, p'.needs signal = p.needs signal) ∨
    (p.reason.isSome ∧ p.trigger next pressure now = none ∧ p'.reason = p.reason ∧
      p'.clearSince = none ∧ ∀ signal, p'.needs signal = p.needs signal) ∨
    (p.reason.isSome ∧ p.Quiet limits next pressure descendants capacity now ∧
      p'.reason = p.reason ∧ p'.clearSince = some (p.clearSince.getD now) ∧
      ∀ signal, p'.needs signal = p.needs signal) ∨
    (p.reason.isSome ∧ p.Quiet limits next pressure descendants capacity now ∧
      recovery ≤ now - p.clearSince.getD now ∧ p'.reason = none ∧ p'.clearSince = none ∧
      ∀ signal, p'.needs signal = false) := by
  unfold apply at h
  dsimp only at h
  cases htrigger : p.trigger next pressure now with
  | some reason =>
    rw [htrigger] at h
    cases h
    exact .inl ⟨reason, rfl, rfl, rfl, fun _ => needs_remember⟩
  | none =>
    have hsame : ∀ signal, (p.remember pressure now).needs signal = p.needs signal := by
      intro signal
      rw [needs_remember, fires_of_trigger htrigger hmemory, Bool.or_false]
    rw [htrigger] at h
    right
    split_ifs at h with hreason
    · right
      cases hclear : (margins limits next descendants capacity &&
          (p.remember pressure now).signalsClear pressure) with
      | false =>
        rw [hclear] at h
        cases h
        exact .inl ⟨hreason, rfl, rfl, rfl, hsame⟩
      | true =>
        rw [hclear] at h
        rw [Bool.and_eq_true] at hclear
        have hquiet : p.Quiet limits next pressure descendants capacity now := by
          refine ⟨htrigger, hclear.1, fun signal hneeds => signalsClear_eq hclear.2 ?_⟩
          rw [hsame]
          exact hneeds
        right
        cases h
        by_cases hlong : recovery ≤ now - p.clearSince.getD now
        · right
          refine ⟨hreason, hquiet, hlong, ?_⟩
          have hrecover : (p.remember pressure now).recover true now =
              ⟨none, (p.remember pressure now).highSince, none, false, false, false, false⟩ :=
            if_pos hlong
          rw [hrecover]
          exact ⟨rfl, rfl, fun signal => by cases signal <;> rfl⟩
        · left
          have hrecover : (p.remember pressure now).recover true now =
              { p.remember pressure now with clearSince := some (p.clearSince.getD now) } :=
            if_neg hlong
          rw [hrecover]
          exact ⟨hreason, hquiet, rfl, rfl, hsame⟩
    · cases h
      have hnone : p.reason = none := by
        cases hp : p.reason with
        | none => rfl
        | some reason => exact absurd (by rw [hp]; rfl : p.reason.isSome = true) hreason
      exact .inl ⟨hnone, rfl, hnone, rfl, hsame⟩

end Pause

namespace Governor

variable {limits : Limits} {capacity : ℕ} {g g' : Governor} {o : Observation} {calls : List Call}
  {signal : Signal}

theorem confine_memory {statistics : Statistics} {pressure : Pressure} {next : Snapshot}
    (h : pressure.memory = some true) :
    (confine limits statistics pressure capacity next).budget.paused.isSome := by
  unfold confine
  dsimp only
  rw [if_pos h]
  rfl

theorem judged_memory {g₁ : Governor} {next : Snapshot}
    (h : judged limits capacity g o = .ok (g₁, next)) (hmemory : o.pressure.memory = some true) :
    next.budget.paused.isSome := by
  simp only [judged, bind_eq_ok, pure_eq_ok] at h
  obtain ⟨derived, -, h⟩ := h
  cases h
  exact confine_memory hmemory

theorem close_paused (b : Budget) : (close b).paused = b.paused := by
  unfold close
  split_ifs <;> rfl

/-- An accepted observation decides the pause of the governor, and its snapshot shows it. -/
theorem step_update (hg : Sound limits capacity g) (o : Observation) :
    step limits capacity g (.update o) = (g, none) ∨
    ∃ g' s g₁ next paused, step limits capacity g (.update o) = (g', some s) ∧
      judged limits capacity g o = .ok (g₁, next) ∧
      g.pause.apply limits next o.pressure o.statistics.descendantRss capacity o.now =
        (g'.pause, paused) ∧
      s.budget.paused = g'.pause.reason ∧
      (o.pressure.memory = some true → next.budget.paused.isSome) := by
  cases h : update limits capacity g o with
  | error e =>
    left
    rw [step, h]
  | ok r =>
    obtain ⟨g', s⟩ := r
    right
    have hstep : step limits capacity g (.update o) = (g', some s) := by rw [step, h]
    simp only [update, bind_eq_ok, pure_eq_ok] at h
    obtain ⟨⟨g₁, next⟩, hjudged, h⟩ := h
    have hpause := (judged_eq_ok (fun t s st hs => (hg t s st hs).1.network_high) hjudged).1
    rw [hpause] at h
    cases happly : g.pause.apply limits next o.pressure o.statistics.descendantRss capacity
      o.now with
    | mk pause paused =>
      rw [happly] at h
      obtain ⟨rfl, -⟩ := Pause.apply_paused happly
      cases h
      exact ⟨_, _, g₁, next, _, hstep, hjudged, happly, close_paused _, judged_memory hjudged⟩

/-- An observation of the pause that lasts to the end of the calls saw the signal fire. -/
def HadFired (limits : Limits) (capacity : ℕ) (calls : List Call) (signal : Signal) : Prop :=
  ∃ before o rest, calls = before ++ .update o :: rest ∧
    (step limits capacity (run limits capacity before) (.update o)).2.isSome ∧
    (run limits capacity before).pause.fires o.pressure o.now signal = true ∧
    ∀ early late, rest = early ++ late →
      (run limits capacity (before ++ .update o :: early)).pause.reason.isSome

/-- What is needed stays needed while the pause lasts. -/
theorem needs_step (hg : Sound limits capacity g) (c : Call)
    (hreason : (step limits capacity g c).1.pause.reason.isSome)
    (h : g.pause.needs signal = true) : (step limits capacity g c).1.pause.needs signal = true := by
  cases c with
  | unavailable selection clock =>
    cases hstep : unavailable limits g selection clock with
    | mk g' result =>
      obtain ⟨rfl, -⟩ := unavailable_spec hg hstep
      rw [step, hstep]
      cases signal <;> exact h
  | update o =>
    rcases step_update hg o with hsame | ⟨g', s, g₁, next, paused, hstep, -, happly, -, hmemory⟩
    · rw [hsame]
      exact h
    · rw [hstep] at hreason ⊢
      dsimp only at hreason ⊢
      rcases Pause.apply_cases hmemory happly with ⟨_, -, -, -, hneeds⟩ | ⟨-, -, -, -, hneeds⟩ |
          ⟨-, -, -, -, hneeds⟩ | ⟨-, -, -, -, hneeds⟩ | ⟨-, -, -, hnone, -⟩
      · rw [hneeds, h, Bool.true_or]
      · rw [hneeds, h]
      · rw [hneeds, h]
      · rw [hneeds, h]
      · rw [hnone] at hreason
        cases hreason

theorem needs_of_fires (hg : Sound limits capacity g)
    (haccepted : (step limits capacity g (.update o)).2.isSome)
    (h : g.pause.fires o.pressure o.now signal = true) :
    (step limits capacity g (.update o)).1.pause.needs signal = true := by
  rcases step_update hg o with hsame | ⟨g', s, g₁, next, paused, hstep, -, happly, -, hmemory⟩
  · rw [hsame] at haccepted
    cases haccepted
  · have hnot : g.pause.trigger next o.pressure o.now ≠ none := by
      intro htrigger
      rw [Pause.fires_of_trigger htrigger hmemory] at h
      cases h
    rw [hstep]
    rcases Pause.apply_cases hmemory happly with ⟨_, -, -, -, hneeds⟩ | ⟨-, hnone, -⟩ |
        ⟨-, hnone, -⟩ | ⟨-, hquiet, -⟩ | ⟨-, hquiet, -⟩
    · rw [hneeds, h, Bool.or_true]
    · exact absurd hnone hnot
    · exact absurd hnone hnot
    · exact absurd hquiet.trigger hnot
    · exact absurd hquiet.trigger hnot

theorem needs_of_hadFired (h : HadFired limits capacity calls signal) :
    (run limits capacity calls).pause.needs signal = true := by
  obtain ⟨before, o, rest, rfl, haccepted, hfires, hlasts⟩ := h
  induction rest using List.reverseRecOn with
  | nil =>
    rw [run_snoc]
    exact needs_of_fires (sound_run before) haccepted hfires
  | append_singleton rest c ih =>
    have hearlier := ih fun early late hsplit => hlasts early (late ++ [c]) (by rw [hsplit]; simp)
    have hlast := hlasts (rest ++ [c]) [] (by simp)
    rw [← List.cons_append, ← List.append_assoc, run_snoc] at hlast ⊢
    exact needs_step (sound_run _) c hlast hearlier

/-- Nothing triggers at an observation, the margins hold and these signals are observed clear. -/
def QuietAt (limits : Limits) (capacity : ℕ) (signals : Signal → Prop) (g : Governor)
    (o : Observation) : Prop :=
  ∃ g₁ next, judged limits capacity g o = .ok (g₁, next) ∧
    g.pause.trigger next o.pressure o.now = none ∧
    Pause.margins limits next o.statistics.descendantRss capacity = true ∧
    ∀ signal, signals signal → o.pressure.Clear signal

/-- Only observations, and all that are accepted are quiet. -/
def QuietRun (limits : Limits) (capacity : ℕ) (signals : Signal → Prop) :
    Governor → List Call → Prop
  | _, [] => True
  | g, .update o :: rest =>
    ((step limits capacity g (.update o)).2.isSome → QuietAt limits capacity signals g o) ∧
      QuietRun limits capacity signals (step limits capacity g (.update o)).1 rest
  | _, .unavailable _ _ :: _ => False

theorem QuietRun.mono {signals signals' : Signal → Prop} (hle : ∀ s, signals' s → signals s)
    (h : QuietRun limits capacity signals g calls) :
    QuietRun limits capacity signals' g calls := by
  induction calls generalizing g with
  | nil => trivial
  | cons c calls ih =>
    cases c with
    | unavailable => exact h
    | update o =>
      refine ⟨fun haccepted => ?_, ih h.2⟩
      obtain ⟨g₁, next, hjudged, htrigger, hmargins, hclear⟩ := h.1 haccepted
      exact ⟨g₁, next, hjudged, htrigger, hmargins, fun s hs => hclear s (hle s hs)⟩

theorem QuietRun.snoc {signals : Signal → Prop} {o : Observation}
    (h : QuietRun limits capacity signals g calls)
    (ho : (step limits capacity (calls.foldl (fun g c => (step limits capacity g c).1) g)
        (.update o)).2.isSome →
      QuietAt limits capacity signals
        (calls.foldl (fun g c => (step limits capacity g c).1) g) o) :
    QuietRun limits capacity signals g (calls ++ [.update o]) := by
  induction calls generalizing g with
  | nil => exact ⟨ho, trivial⟩
  | cons c calls ih =>
    cases c with
    | unavailable => exact h
    | update o' => exact ⟨h.1, ih h.2 ho⟩

/-- A quiet run to the end of the calls that starts with an accepted observation at a time. -/
def QuietSince (limits : Limits) (capacity : ℕ) (signals : Signal → Prop) (calls : List Call)
    (since : ℕ) : Prop :=
  ∃ before first rest, calls = before ++ .update first :: rest ∧ first.now = since ∧
    (step limits capacity (run limits capacity before) (.update first)).2.isSome ∧
    QuietRun limits capacity signals (run limits capacity before) (.update first :: rest)

theorem QuietSince.snoc {signals signals' : Signal → Prop} {since : ℕ}
    (h : QuietSince limits capacity signals calls since) (hle : ∀ s, signals' s → signals s)
    (ho : (step limits capacity (run limits capacity calls) (.update o)).2.isSome →
      QuietAt limits capacity signals' (run limits capacity calls) o) :
    QuietSince limits capacity signals' (calls ++ [.update o]) since := by
  obtain ⟨before, first, rest, rfl, hsince, haccepted, hrun⟩ := h
  refine ⟨before, first, rest ++ [.update o], by simp, hsince, haccepted, ?_⟩
  have hfold : run limits capacity (before ++ .update first :: rest) =
      (.update first :: rest : List Call).foldl (fun g c => (step limits capacity g c).1)
        (run limits capacity before) := List.foldl_append
  rw [hfold] at ho
  exact (hrun.mono hle).snoc ho

theorem QuietSince.start {signals : Signal → Prop}
    (haccepted : (step limits capacity (run limits capacity calls) (.update o)).2.isSome)
    (ho : QuietAt limits capacity signals (run limits capacity calls) o) :
    QuietSince limits capacity signals (calls ++ [.update o]) o.now :=
  ⟨calls, o, [], rfl, rfl, haccepted, fun _ => ho, trivial⟩

/-- The clear time of a pause is the start of a quiet run; without a pause there is none. -/
structure Recovering (limits : Limits) (capacity : ℕ) (calls : List Call) : Prop where
  idle : (run limits capacity calls).pause.reason = none →
    (run limits capacity calls).pause.clearSince = none
  quiet : ∀ since, (run limits capacity calls).pause.clearSince = some since →
    QuietSince limits capacity
      (fun signal => (run limits capacity calls).pause.needs signal = true) calls since

theorem quietAt_of_quiet {g₁ : Governor} {next : Snapshot}
    (hjudged : judged limits capacity g o = .ok (g₁, next))
    (h : g.pause.Quiet limits next o.pressure o.statistics.descendantRss capacity o.now) :
    QuietAt limits capacity (fun signal => g.pause.needs signal = true) g o :=
  ⟨g₁, next, hjudged, h.trigger, h.margins, h.signals⟩

/-- A quiet observation of a pause continues the run of its clear time, or starts one. -/
theorem Recovering.observe (h : Recovering limits capacity calls)
    (haccepted : (step limits capacity (run limits capacity calls) (.update o)).2.isSome)
    (ho : QuietAt limits capacity
      (fun signal => (run limits capacity calls).pause.needs signal = true)
      (run limits capacity calls) o) :
    QuietSince limits capacity
      (fun signal => (run limits capacity calls).pause.needs signal = true)
      (calls ++ [.update o]) ((run limits capacity calls).pause.clearSince.getD o.now) := by
  cases hsince : (run limits capacity calls).pause.clearSince with
  | none => exact .start haccepted ho
  | some since => exact (h.quiet since hsince).snoc (fun _ hs => hs) fun _ => ho

theorem QuietSince.mono {signals signals' : Signal → Prop} {since : ℕ}
    (hle : ∀ s, signals' s → signals s) (h : QuietSince limits capacity signals calls since) :
    QuietSince limits capacity signals' calls since := by
  obtain ⟨before, first, rest, hcalls, hsince, haccepted, hrun⟩ := h
  exact ⟨before, first, rest, hcalls, hsince, haccepted, hrun.mono hle⟩

theorem recovering_run (calls : List Call) : Recovering limits capacity calls := by
  induction calls using List.reverseRecOn with
  | nil =>
    refine ⟨fun _ => rfl, fun since h => ?_⟩
    cases h
  | append_singleton calls c ih =>
    cases c with
    | unavailable selection clock =>
      cases hstep : unavailable limits (run limits capacity calls) selection clock with
      | mk g' result =>
        obtain ⟨rfl, -⟩ := unavailable_spec (sound_run calls) hstep
        constructor
        · rw [run_snoc, step, hstep]
          exact fun _ => rfl
        · rw [run_snoc, step, hstep]
          intro since hsince
          cases hsince
    | update o =>
      rcases step_update (sound_run calls) o with
        hsame | ⟨g', s, g₁, next, paused, hstep, hjudged, happly, -, hmemory⟩
      · constructor
        · rw [run_snoc, hsame]
          exact ih.idle
        · rw [run_snoc, hsame]
          intro since hsince
          refine (ih.quiet since hsince).snoc (fun _ hs => hs) fun haccepted => ?_
          rw [hsame] at haccepted
          cases haccepted
      · have haccepted :
            (step limits capacity (run limits capacity calls) (.update o)).2.isSome := by
          rw [hstep]
          rfl
        have hrun : run limits capacity (calls ++ [.update o]) = g' := by rw [run_snoc, hstep]
        rcases Pause.apply_cases hmemory happly with ⟨_, -, hreason, hclear, -⟩ |
            ⟨hidle, -, -, hclear, -⟩ | ⟨-, -, -, hclear, -⟩ |
            ⟨hpaused, hquiet, hreason, hclear, hneeds⟩ | ⟨-, -, -, -, hclear, -⟩
        · constructor <;> rw [hrun, hclear]
          · exact fun _ => rfl
          · intro since hsince
            cases hsince
        · have hnone := hclear.trans (ih.idle hidle)
          constructor <;> rw [hrun, hnone]
          · exact fun _ => rfl
          · intro since hsince
            cases hsince
        · constructor <;> rw [hrun, hclear]
          · exact fun _ => rfl
          · intro since hsince
            cases hsince
        · have hsince := ih.observe haccepted (quietAt_of_quiet hjudged hquiet)
          constructor <;> rw [hrun, hclear]
          · intro hnone
            rw [hreason] at hnone
            rw [hnone] at hpaused
            cases hpaused
          · rintro since ⟨⟩
            exact hsince.mono fun signal hs => (hneeds signal).symm.trans hs
        · constructor <;> rw [hrun, hclear]
          · exact fun _ => rfl
          · intro since hsince
            cases hsince

/-- A pause ends only after a quiet run of at least the recovery window, in which every signal that
had fired during the pause is observed clear. -/
theorem pause_ends {s : Snapshot} (hpaused : (run limits capacity calls).pause.reason.isSome)
    (hs : (step limits capacity (run limits capacity calls) (.update o)).2 = some s)
    (hnone : s.budget.paused = none) :
    ∃ since, since + recovery ≤ o.now ∧
      QuietSince limits capacity (HadFired limits capacity calls) (calls ++ [.update o]) since := by
  have haccepted : (step limits capacity (run limits capacity calls) (.update o)).2.isSome := by
    rw [hs]
    rfl
  rcases step_update (sound_run calls) o with
    hsame | ⟨g', s', g₁, next, paused, hstep, hjudged, happly, hreason', hmemory⟩
  · rw [hsame] at hs
    cases hs
  rw [hstep] at hs
  cases hs
  rw [hnone] at hreason'
  rcases Pause.apply_cases hmemory happly with ⟨_, -, hreason, -⟩ | ⟨hidle, -⟩ |
      ⟨-, -, hreason, -⟩ | ⟨-, -, hreason, -⟩ | ⟨-, hquiet, hlong, -⟩
  · rw [hreason] at hreason'
    cases hreason'
  · rw [hidle] at hpaused
    cases hpaused
  · rw [← hreason, ← hreason'] at hpaused
    cases hpaused
  · rw [← hreason, ← hreason'] at hpaused
    cases hpaused
  · have hrecovering := @recovering_run limits capacity calls
    refine ⟨_, ?_, (hrecovering.observe haccepted (quietAt_of_quiet hjudged hquiet)).mono
      fun signal hfired => needs_of_hadFired hfired⟩
    unfold recovery at hlong ⊢
    omega

theorem admitQuantum_of_consistent {s : Snapshot} (h : Consistent limits capacity s)
    (hcapacity : 8 * mib ≤ capacity) (hlimit : capacity ≤ limits.memoryBytes) :
    ∃ admitted, admitQuantum limits s.budget = .ok admitted := by
  have hmemory := h.memory_capacity
  have hlow := h.cache_low
  have hhigh := h.cache_high
  unfold mib at hcapacity
  have hcache : ¬ (s.budget.cacheBytes < 4096 ∨
      max (s.budget.memoryBytes / 4) 4096 < s.budget.cacheBytes ∨
      limits.memoryBytes / 4 < s.budget.cacheBytes) := by omega
  simp only [admitQuantum, require, if_pos hcache, ok_bind]
  split_ifs with hstop hbudget
  · exact ⟨false, rfl⟩
  · exfalso
    have hnone : s.budget.paused = none := by
      cases hpaused : s.budget.paused with
      | none => rfl
      | some reason => exact absurd (.inl (by rw [hpaused]; rfl)) hstop
    obtain ⟨hmemory', hconcurrency, hbatch, -⟩ := h.running hnone
    unfold mib at hmemory'
    omega
  · exact ⟨true, rfl⟩

theorem paused_iff_reason (calls : List Call) (c : Call) {s : Snapshot}
    (h : (step limits capacity (run limits capacity calls) c).2 = some s) :
    s.budget.paused.isSome ↔ (run limits capacity (calls ++ [c])).pause.reason.isSome := by
  rw [run_snoc]
  cases c with
  | unavailable selection clock =>
    cases hstep : unavailable limits (run limits capacity calls) selection clock with
    | mk g' result =>
      obtain ⟨rfl, hresult⟩ := unavailable_spec (sound_run calls) hstep
      rw [step, hstep] at h
      rw [step, hstep]
      exact ⟨fun _ => rfl, fun _ => (hresult s h).2.1⟩
  | update o =>
    rcases step_update (sound_run calls) o with hsame | ⟨g', s', _, _, _, hstep, -, -, hreason, -⟩
    · rw [hsame] at h
      cases h
    · rw [hstep] at h
      cases h
      rw [hstep, hreason]

theorem unavailable_isSome {selection : Selection} {clock : Except String ℕ}
    (hg : Sound limits capacity g) (hprevious : g.previous.isSome)
    (hvalid : selection.validate = .ok ()) (hclock : ∃ ms, clock = .ok ms) :
    (step limits capacity g (.unavailable selection clock)).2.isSome := by
  obtain ⟨ms, rfl⟩ := hclock
  cases hearlier : g.previous with
  | none =>
    rw [hearlier] at hprevious
    cases hprevious
  | some earlier =>
    obtain ⟨t, before, st⟩ := earlier
    have hcomplete := (hg t before st hearlier).2
    have hderive : ∃ s, Snapshot.derive limits selection before.observed before.budget.memoryBytes
        (.ok ms) = .ok s := by
      simp only [Snapshot.derive, hvalid, require, if_pos hcomplete, ok_bind]
      exact ⟨_, rfl⟩
    obtain ⟨s, hs⟩ := hderive
    simp only [step, unavailable, hearlier, hs]
    rfl

/-- Whatever the governor is told, in whatever order: each snapshot that it publishes keeps its
ranges, so that a quantum of work never reports its budget as invalid; a snapshot is paused exactly
while the pause has a reason; a pause ends only after a quiet run of at least thirty seconds; and
without an observation the governor publishes a paused budget that is no larger than the last. -/
theorem budgets_consistent (limits : Limits) (capacity : ℕ) (hcapacity : 8 * mib ≤ capacity) :
    (∀ calls c s, (step limits capacity (run limits capacity calls) c).2 = some s →
      Consistent limits capacity s ∧
      (s.budget.paused.isSome ↔ (run limits capacity (calls ++ [c])).pause.reason.isSome) ∧
      (capacity ≤ limits.memoryBytes → ∃ admitted, admitQuantum limits s.budget = .ok admitted)) ∧
    (∀ calls o s, (run limits capacity calls).pause.reason.isSome →
      (step limits capacity (run limits capacity calls) (.update o)).2 = some s →
      s.budget.paused = none → ∃ since, since + recovery ≤ o.now ∧
        QuietSince limits capacity (HadFired limits capacity calls) (calls ++ [.update o]) since) ∧
    ∀ calls selection clock,
      (∀ s, (step limits capacity (run limits capacity calls) (.unavailable selection clock)).2 =
          some s → s.budget.paused.isSome ∧ ∃ t before st,
        (run limits capacity calls).previous = some (t, before, st) ∧
        s.budget.memoryBytes ≤ before.budget.memoryBytes ∧
        s.budget.cacheBytes ≤ before.budget.cacheBytes ∧
        s.budget.networkRequests ≤ before.budget.networkRequests) ∧
      ((run limits capacity calls).previous.isSome → selection.validate = .ok () →
        (∃ ms, clock = .ok ms) →
        (step limits capacity (run limits capacity calls)
          (.unavailable selection clock)).2.isSome) := by
  refine ⟨?_, ?_, ?_⟩
  · intro calls c s hs
    have hconsistent := (step_consistent (sound_run calls) c).2 s hs
    exact ⟨hconsistent, paused_iff_reason calls c hs,
      fun hlimit => admitQuantum_of_consistent hconsistent hcapacity hlimit⟩
  · intro calls o s hpaused hs hnone
    exact pause_ends hpaused hs hnone
  · intro calls selection clock
    refine ⟨?_, unavailable_isSome (sound_run calls)⟩
    intro s hs
    cases hstep : unavailable limits (run limits capacity calls) selection clock with
    | mk g' result =>
      rw [step, hstep] at hs
      obtain ⟨-, hresult⟩ := unavailable_spec (sound_run calls) hstep
      obtain ⟨-, hpaused, t, before, st, hprevious, -, -, hmemory, hcache, hnetwork⟩ :=
        hresult s hs
      exact ⟨hpaused, t, before, st, hprevious, hmemory, hcache, hnetwork⟩

namespace PowerSaving

def hostLimits : Limits :=
  ⟨512 * mib, [1, 2, 2, 2], 16, 4 * mib, 128 * mib, 10 ^ 7, 64 * mib, by decide, by decide, by decide⟩

/-- A host with eight processors, so many seconds after its start. -/
def observation (lowPower : Bool) (seconds : ℕ) : Observation :=
  ⟨⟨.dynamic, none⟩, ⟨8192 * mib, 6144 * mib, 8192 * mib, 16 * mib, 8000, 1024 * mib⟩,
    ⟨⟨0, 0⟩, ⟨0, 0⟩, 0, 0, 0, 0, 0, 0, 0, []⟩, ⟨none, none, false, some lowPower, none⟩,
    seconds * 10 ^ 9, .ok seconds⟩

/-- Power saving begins after a second, and is over after two. -/
def history : List Call :=
  [.update (observation false 0), .update (observation true 1), .update (observation false 2)]

def resumed : Option Snapshot :=
  (step hostLimits (512 * mib) (run hostLimits (512 * mib) history)
    (.update (observation false 32))).2

theorem pauses :
    (run hostLimits (512 * mib) history).pause.reason = some "operating system power saving" ∧
    ((step hostLimits (512 * mib) (run hostLimits (512 * mib) history)
      (.update (observation false 31))).2.map fun s => s.budget.paused.isSome) = some true ∧
    resumed.map (fun s => s.budget.paused) = some none := by
  decide +kernel

end PowerSaving

open PowerSaving in
/-- Power saving pauses the work, which goes on thirty seconds after it is over, and not before. -/
theorem budgets_consistent_resumed :
    (run hostLimits (512 * mib) history).pause.reason = some "operating system power saving" ∧
    ((step hostLimits (512 * mib) (run hostLimits (512 * mib) history)
      (.update (observation false 31))).2.map fun s => s.budget.paused.isSome) = some true ∧
    ∃ s, (step hostLimits (512 * mib) (run hostLimits (512 * mib) history)
        (.update (observation false 32))).2 = some s ∧ s.budget.paused = none ∧
      Consistent hostLimits (512 * mib) s ∧
      (∃ admitted, admitQuantum hostLimits s.budget = .ok admitted) ∧
      ∃ since, since + recovery ≤ 32 * 10 ^ 9 ∧
        QuietSince hostLimits (512 * mib) (HadFired hostLimits (512 * mib) history)
          (history ++ [.update (observation false 32)]) since := by
  obtain ⟨hall, hends, -⟩ := budgets_consistent hostLimits (512 * mib) (by decide)
  obtain ⟨hpaused, hwaits, hresumed⟩ := pauses
  obtain ⟨s, hs, hrunning⟩ := Option.map_eq_some_iff.1 hresumed
  obtain ⟨hconsistent, -, hadmit⟩ := hall _ _ s hs
  exact ⟨hpaused, hwaits, s, hs, hrunning, hconsistent, hadmit (by decide),
    hends _ _ s (by rw [hpaused]; rfl) hs hrunning⟩

end Governor
end Naome.Resources
