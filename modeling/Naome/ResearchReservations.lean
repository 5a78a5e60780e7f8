import Naome.QuestionSource
import Naome.ResearchSubmission

/-!
# Reservations for results

When the journal of research jobs keeps the room that it promised. Starting without jobs, no save
fails for want of room as long as every event finds what it adds at full width: a job that the
capacity check lets through, an outcome longer than its reservation, or a finished job that changes
again.
-/
namespace Naome.Jobs
open Outcome Effect Size

namespace Owner

variable (host : Host)

/-- Room for `bytes` more, if there are any. -/
def Spare (o : Owner) (bytes : ℕ) : Prop :=
  bytes = 0 ∨ o.full host + bytes + 256 ≤ host.activeJobBytes

instance (o : Owner) (bytes : ℕ) : Decidable (o.Spare host bytes) :=
  inferInstanceAs (Decidable (_ ∨ _))

/-- What an outcome of a job adds. -/
def outcomeBytes (o : Owner) (id : ℕ) (outcome : Completed) : ℕ :=
  o.touched host id + (o.journal.records.get? id).elim 0 (growth host outcome)

/-- What an event adds to the rows that may not be retired. -/
def added (o : Owner) : Event → ℕ
  | .submit input binding _ => o.submission host input binding
  | .acknowledge id => o.touched host id
  | .discard input binding => ((withdrawnJobs o.journal input binding).map (o.touched host)).sum
  | .reserve id _ => o.touched host id
  | .progress id _ => o.touched host id
  | .completed pick outcome =>
    (o.tasks[pick % o.tasks.length]?).elim 0 fun id => o.outcomeBytes host id outcome
  | .recover _ _ => 0
  | .program _ _ _ _ => 0
  | .tick => 0

variable {host} {env : Environment} {o : Owner}

theorem Room.spare {F : ℕ → Record → Prop} {bytes : ℕ} (h : Room host 0 F [] o)
    (hspare : o.Spare host bytes) : Room host bytes F [] o := by
  rcases hspare with rfl | hfits
  · exact h
  · exact ⟨by simpa using hfits, h.named, h.holds⟩

/-- Room for what is touched. -/
theorem Room.touching {ids : List ℕ} (h : Roomy host o)
    (hspare : o.Spare host ((ids.map (o.touched host)).sum)) : Room host 0 anyJob ids o := by
  refine ⟨?_, h.named, h.holds⟩
  rcases hspare with hzero | hfits
  · have hfits := h.fits
    rw [hzero]
    simpa using hfits
  · omega

/-- Room for the outcome of a job. -/
theorem Room.outcome {id : ℕ} {outcome : Completed} (h : Roomy host o)
    (hspare : o.Spare host (o.outcomeBytes host id outcome)) :
    Room host ((o.journal.records.get? id).elim 0 (growth host outcome))
      (Grows host outcome id ((o.journal.records.get? id).elim 0 (growth host outcome))) [id] o := by
  refine ⟨?_, h.named, fun k r hr hk => ?_⟩
  · have hfits := h.fits
    simp only [List.map_nil, List.sum_nil, List.map_cons, List.sum_cons] at hfits ⊢
    unfold outcomeBytes at hspare
    rcases hspare with hzero | hspare <;> omega
  · subst hk
    rw [hr]
    exact le_rfl

theorem after_then {α : Type} {m : OwnerM α}
    (h : after host (fun _ => Roomy host) (m.run o).1 (m.run o).2) (b : Bool) :
    after host (fun _ => Roomy host) ((do let _ ← m; return b : OwnerM Bool).run o).1
      ((do let _ ← m; return b : OwnerM Bool).run o).2 := by
  rw [run_bind]
  rcases hrun : m.run o with ⟨r, t⟩
  rw [hrun] at h
  cases r with
  | ok _ => exact h
  | error e => exact h

section Events

variable (hsizes : host.Serializes) (henv : env.Foreign)
include hsizes henv

theorem spec_completedEvent (pick : ℕ) (outcome : Completed) (h : Roomy host o)
    (hspare : o.Spare host (o.added host (.completed pick outcome))) :
    after host (fun _ => Roomy host) ((completedEvent env host pick outcome).run o).1
      ((completedEvent env host pick outcome).run o).2 := by
  unfold completedEvent
  rw [run_bind, run_state]
  dsimp only
  change o.Spare host ((o.tasks[pick % o.tasks.length]?).elim 0 fun id =>
    o.outcomeBytes host id outcome) at hspare
  cases htask : o.tasks[pick % o.tasks.length]? with
  | none => exact h
  | some id =>
    rw [htask] at hspare
    dsimp only [Option.elim] at hspare
    have hroom := Room.outcome h hspare
    exact spec_complete hsizes henv id _ outcome _ (hroom.frame rfl rfl rfl)

/-- An event that finds room leaves room. -/
theorem after_handle (event : Event) (h : Roomy host o) (hspare : o.Spare host (o.added host event)) :
    after host (fun _ => Roomy host) ((handle env host event).run o).1
      ((handle env host event).run o).2 := by
  cases event with
  | submit input binding reply =>
    exact after_then (spec_submit hsizes henv input binding reply _ o ⟨h.spare hspare, le_rfl⟩) true
  | recover after before =>
    refine after_then (Quiet.spec ?_ local_room o h) true
    exact quiet_ensureGeneration.bind fun _ => quiet_state.bind fun _ => quiet_liftError _
  | acknowledge id =>
    exact spec_acknowledge hsizes henv id o (h.touching (by simpa [added] using hspare))
  | discard input binding =>
    exact after_then (spec_discard hsizes henv input binding _ o ⟨h.touching hspare, rfl⟩) true
  | program id unit records reply =>
    refine after_then (m := programEvent id unit records reply) (spec_frame local_room ?_ ?_ o h) true
    · intro o
      split_ifs <;> rfl
    · intro o
      split_ifs <;> rfl
  | reserve id next =>
    exact spec_reserveEvent hsizes henv id next o (h.touching (by simpa [added] using hspare))
  | progress id checkpoint =>
    exact spec_progressEvent hsizes henv id checkpoint o (h.touching (by simpa [added] using hspare))
  | completed pick outcome =>
    exact after_then (spec_completedEvent hsizes henv pick outcome h hspare) true
  | tick => exact after_then (spec_reconcile hsizes henv o h) true

theorem after_iteration (event : Event) (h : Roomy host o)
    (hspare : o.Spare host (o.added host event)) :
    after host (fun _ => Roomy host) ((iteration env host event).run o).1
      ((iteration env host event).run o).2 := by
  have hhandled := after_handle hsizes henv event h hspare
  unfold iteration
  rw [run_bind]
  rcases hrun : (handle env host event).run o with ⟨r, o'⟩
  rw [hrun] at hhandled
  cases r with
  | error e => exact hhandled
  | ok goesOn =>
    exact spec_ite (fun _ => spec_bind (spec_persistPrograms hsizes henv) fun _ =>
      spec_schedule hsizes henv) (fun _ => spec_pure fun _ h => h) o' hhandled

omit hsizes henv in
theorem running_charge (id : ℕ) (R : Std.TreeSet ℕ) :
    Keeps (fun o => o.running = R) (charge env host id) := by
  unfold charge wallMs
  have hask : ∀ {α : Type} (answers : ℕ → α), Keeps (fun o : Owner => o.running = R) (ask answers) :=
    fun _ _ h => h
  have hlift : ∀ {α : Type} (x : Except String α),
      Keeps (fun o : Owner => o.running = R) (liftError x) := by
    intro α x
    cases x with
    | ok a => exact keeps_pure _ a
    | error e => exact keeps_throw _ _
  exact .bind (.bind (hask _) fun _ => hlift _) fun _ =>
    .bind (.bind (keeps_state _) fun _ => keeps_pure _ _) fun _ => .bind (keeps_require _ _ _) fun _ =>
    .bind (hask _) fun _ => .bind (keeps_orThrow _ _ _) fun _ => .bind (keeps_orThrow _ _ _) fun _ =>
    keeps_modify fun _ h => h

omit hsizes henv in
theorem state_of_ends {α : Type} {P R : Owner → Prop} {m : OwnerM α}
    (h : Spec P m (ends R fun _ => R)) (ho : P o) : R (m.run o).2 := by
  have hm := h o ho
  rcases hrun : m.run o with ⟨r, t⟩
  rw [hrun] at hm
  cases r with
  | ok a => exact hm
  | error e => exact hm.1

omit hsizes henv in
theorem spec_stopRunning {id : ℕ} {R : Std.TreeSet ℕ} (hid : R.contains id = true) :
    Spec (fun o => Roomy host o ∧ o.running = R) (stopRunning env host id)
      (after host fun _ o => Roomy host o ∧ o.running = R) := by
  rintro o ⟨hroom, hrunning⟩
  have htouch : Room host 0 anyJob [id] o := by
    apply hroom.touch
    intro r _
    unfold evictable finished
    rw [hrunning, hid]
    simp
  have hmem : id ∈ [id] := List.mem_singleton_self id
  have hcharged : Room host 0 anyJob [id] ((charge env host id).run o).2 :=
    state_of_ends (keeps_room_charge chargeable_anyJob hmem) htouch
  refine ⟨(hcharged.change hmem fun r _ => ?_).untouch, running_charge id R o hrunning⟩
  split_ifs with hactive
  · exact ⟨rfl, trivial, weight_ended id r rfl⟩
  · exact ⟨rfl, trivial, weight_active id hactive rfl⟩
  · exact ⟨rfl, trivial, le_rfl⟩

/-- The jobs in progress are suspended or held. -/
def stopping (env : Environment) (host : Host) (o : Owner) : Owner :=
  ((forEach (stopRunning env host) o.running.toList).run o).2

omit hsizes henv in
theorem roomy_stopping (h : Roomy host o) : Roomy host (o.stopping env host) := by
  have hall : Spec (fun s => Roomy host s ∧ s.running = o.running)
      (forEach (stopRunning env host) o.running.toList)
      (after host fun _ s => Roomy host s ∧ s.running = o.running) := by
    apply spec_forEach
    intro id hid
    apply spec_stopRunning
    exact Std.TreeSet.mem_iff_contains.mp (Std.TreeSet.mem_toList.mp hid)
  exact state_of_ends (spec_mono hall (fun _ h => h) fun _ _ h => h.1) ⟨h, rfl⟩

omit hsizes henv in
theorem spec_stopResult (id bytes : ℕ) {outcome : Completed} {output : Output}
    (hstate : outcome.state ≠ .inDoubt) (houtput : outcome.result = .ok output) :
    Spec (Room host bytes (Grows host outcome id bytes) [id]) (stopResult env host id output)
      (after host fun _ => Roomy host) := by
  unfold stopResult
  refine spec_getJournal fun j => ?_
  cases hr : j.records.get? id with
  | none => exact spec_pure fun _ h => h.1.roomy
  | some r =>
    dsimp only
    refine spec_mono (P := Room host bytes
      (fun k r' => Grows host outcome id bytes k r' ∧ IsRecord id r k r') [id]) ?_ ?_ fun _ _ h => h
    · refine spec_bind (spec_look (by simp)) fun _ =>
        spec_ite (fun hsuspended => ?_) fun _ => spec_pure fun _ h => h.roomy
      refine spec_bind (spec_attempt ((quiet_allowanceExpired id).keeps local_room) fun _ _ h => h)
        fun expired => ?_
      refine spec_mono (P := Room host bytes
        (fun k r' => Grows host outcome id bytes k r' ∧ IsRecord id r k r') [id]) ?_ (fun _ h => h.1)
        fun _ _ h => h
      refine spec_weaken (spec_updateRecord (by simp) (Nat.zero_le bytes) (G := anyJob) ?_
        fun _ _ _ _ => trivial) (fun _ h => h) (fun _ _ h => h.roomy) fun _ h => h
      rintro r' ⟨hgrows, hsame⟩
      cases hsame rfl
      have hbody : settledBody host r outcome = max 4 output.size + Size.optional text r.failure := by
        unfold settledBody
        rw [if_neg hstate, hsuspended, houtput]
        rfl
      refine ⟨rfl, trivial, weight_outcome hgrows rfl rfl rfl rfl rfl ?_ ?_⟩
      · rw [hbody]
        unfold Record.body
        apply Nat.add_le_add_right
        rcases expired with _ | _ | _
        · exact le_max_left 4 output.size
        · exact le_max_right 4 output.size
        · exact le_max_left 4 output.size
      · rcases expired with _ | _ | _ <;> exact Nat.zero_le _
    · rintro o ⟨hroom, hj⟩
      subst hj
      exact hroom.mono le_rfl fun k r' hr' hgrows => ⟨hgrows, fun hk => by
        subst hk
        rw [hr] at hr'
        exact (Option.some.inj hr').symm⟩

omit hsizes henv in
theorem spec_stopTask (id bytes : ℕ) (outcome : Completed) :
    Spec (Room host bytes (Grows host outcome id bytes) [id]) (stopTask env host id outcome)
      (after host fun _ => Roomy host) := by
  unfold stopTask
  refine spec_bind (spec_attempt (keeps_room_charge (chargeable_grows _ _ _) (by simp)) fun _ _ h => h)
    fun _ => spec_mono (P := Room host bytes (Grows host outcome id bytes) [id]) ?_ (fun _ h => h.1)
    fun _ _ h => h
  refine spec_ite (fun hstate => ?_) fun hstate => ?_
  · refine spec_weaken (spec_updateRecord (by simp) (Nat.zero_le bytes) (G := anyJob) ?_
      fun _ _ _ _ => trivial) (fun _ h => h) (fun _ _ h => h.roomy) fun _ h => h
    intro r hr
    refine ⟨rfl, trivial, weight_outcome hr rfl rfl rfl rfl rfl ?_ ?_⟩
    · unfold settledBody Record.body
      rw [if_pos hstate]
      exact le_rfl
    · rw [hstate]
      exact le_rfl
  · cases hresult : outcome.result with
    | ok output => exact spec_stopResult id bytes hstate hresult
    | error _ => exact spec_pure fun _ h => h.roomy

/-- The process that ends next while the owner stops, and the owner that handles its outcome. -/
def ending (env : Environment) (o : Owner) : Option ℕ :=
  o.tasks[env.nextTask o.questions % o.tasks.length]?

def ended (env : Environment) (o : Owner) : Owner := { o with
  questions := o.questions + 1 + 1
  tasks := o.tasks.eraseIdx (env.nextTask o.questions % o.tasks.length) }

/-- The outcomes that end while the owner stops find room, one after another. -/
def TasksSpare (env : Environment) (host : Host) : ℕ → Owner → Prop
  | 0, _ => True
  | n + 1, o => match o.ending env with
    | none => True
    | some id => o.Spare host (o.outcomeBytes host id (env.outcome (o.questions + 1))) ∧
      TasksSpare env host n
        ((stopTask env host id (env.outcome (o.questions + 1))).run (o.ended env)).2

instance decidableTasksSpare (env : Environment) (host : Host) :
    ∀ (n : ℕ) (o : Owner), Decidable (TasksSpare env host n o)
  | 0, _ => isTrue trivial
  | n + 1, o => match h : o.ending env with
    | none => isTrue (by simp [TasksSpare, h])
    | some id =>
      have := decidableTasksSpare env host n
        ((stopTask env host id (env.outcome (o.questions + 1))).run (o.ended env)).2
      decidable_of_iff (o.Spare host (o.outcomeBytes host id (env.outcome (o.questions + 1))) ∧
        TasksSpare env host n
          ((stopTask env host id (env.outcome (o.questions + 1))).run (o.ended env)).2)
        (by simp [TasksSpare, h])

omit hsizes henv in
theorem roomy_stopTasks (n : ℕ) (h : Roomy host o) (hspare : TasksSpare env host n o) :
    Roomy host ((stopTasks env host n).run o).2 := by
  induction n generalizing o with
  | zero => exact h
  | succ n ih =>
    unfold stopTasks
    simp only [run_bind, run_state, ask]
    unfold TasksSpare at hspare
    have hending : o.ending env = o.tasks[env.nextTask o.questions % o.tasks.length]? := rfl
    cases htask : o.tasks[env.nextTask o.questions % o.tasks.length]? with
    | none => exact h.frame rfl rfl rfl
    | some id =>
      rw [hending, htask] at hspare
      obtain ⟨houtcome, hrest⟩ := hspare
      simp only [run_bind, run_modify]
      have hroom : Room host _ _ [id] (o.ended env) := (Room.outcome h houtcome).frame rfl rfl rfl
      have hafter : Roomy host _ := state_of_ends (@spec_stopTask host env id _ _) hroom
      rcases hrun : (stopTask env host id (env.outcome (o.questions + 1))).run (o.ended env) with ⟨r, t⟩
      rw [hrun] at hafter hrest
      unfold ended at hrun
      rw [hrun]
      cases r with
      | error e => exact hafter
      | ok _ => exact ih hafter hrest

end Events

section Runs

variable (env : Environment) (host : Host)

/-- The owner at its last save, after its processes ended. -/
def drained (o : Owner) : Owner :=
  { ((stopTasks env host o.tasks.length).run
      { ((save env host).run (o.stopping env host)).2 with running := ∅ }).2 with waiters := ∅ }

def StopSpare (o : Owner) : Prop :=
  TasksSpare env host o.tasks.length { ((save env host).run (o.stopping env host)).2 with running := ∅ }

/-- Along a run, every event and every outcome after its end finds room for what it adds. -/
def Spared : Owner → List Event → Prop
  | o, [] => o.StopSpare env host
  | o, event :: events => o.Spare host (o.added host event) ∧
    match (iteration env host event).run o with
    | (.ok _, o') => Spared o' events
    | (.error _, o') => o'.StopSpare env host

instance (o : Owner) : Decidable (o.StopSpare env host) := decidableTasksSpare env host _ _

instance decidableSpared : ∀ (events : List Event) (o : Owner), Decidable (Spared env host o events)
  | [], o => inferInstanceAs (Decidable (o.StopSpare env host))
  | event :: events, o =>
    have : Decidable (match (iteration env host event).run o with
      | (.ok _, o') => Spared env host o' events
      | (.error _, o') => o'.StopSpare env host) :=
      match (iteration env host event).run o with
      | (.ok _, o') => decidableSpared events o'
      | (.error _, _) => inferInstance
    inferInstanceAs (Decidable (o.Spare host (o.added host event) ∧ _))

/-- Neither save of a stop fails for want of room. -/
def StopSaves (o : Owner) : Prop :=
  ((save env host).run (o.stopping env host)).1 ≠ .error capacityFailure ∧
    ((save env host).run (o.drained env host)).1 ≠ .error capacityFailure

/-- Along a run, the rows with the reservations of all active jobs fit, and no save fails for want
of room. -/
def SavesFit : Owner → List Event → Prop
  | o, [] => o.held host Record.jsonLen Account.jsonLen + 256 ≤ host.activeJobBytes ∧
    o.StopSaves env host
  | o, event :: events => o.held host Record.jsonLen Account.jsonLen + 256 ≤ host.activeJobBytes ∧
    ((iteration env host event).run o).1 ≠ .error capacityFailure ∧
    match (iteration env host event).run o with
    | (.ok _, o') => SavesFit o' events
    | (.error _, o') => o'.StopSaves env host

variable {env host}

theorem ne_capacityFailure {α : Type} {P : Owner → Prop} {m : OwnerM α} {Q : α → Owner → Prop}
    (h : Spec P m (after host Q)) {o : Owner} (ho : P o) : (m.run o).1 ≠ .error capacityFailure := by
  have hm := h o ho
  rcases hrun : m.run o with ⟨r, t⟩
  rw [hrun] at hm
  cases r with
  | ok a => simp
  | error e => exact fun heq => hm.2 (Except.error.inj heq)

theorem Room.held (h : Roomy host o) :
    o.held host Record.jsonLen Account.jsonLen + 256 ≤ host.activeJobBytes := by
  have hfits := h.fits
  have hfull : o.held host _ _ ≤ o.held host _ _ := held_mono Record.jsonLen_le Account.jsonLen_le
  unfold full at hfits
  omega

variable (hsizes : host.Serializes) (henv : env.Foreign)
include hsizes henv

theorem stopSaves (h : Roomy host o) (hspare : o.StopSpare env host) : o.StopSaves env host := by
  have hstopping : Roomy host (o.stopping env host) := roomy_stopping h
  have hsaved : Roomy host ((save env host).run (o.stopping env host)).2 :=
    state_of_ends (roomy_save hsizes henv) hstopping
  have hidle : Roomy host { ((save env host).run (o.stopping env host)).2 with running := ∅ } :=
    hsaved.stopped rfl fun id hid => by simp at hid
  have hdrained : Roomy host (o.drained env host) :=
    (roomy_stopTasks o.tasks.length hidle hspare).frame rfl rfl rfl
  exact ⟨ne_capacityFailure (roomy_save hsizes henv) hstopping,
    ne_capacityFailure (roomy_save hsizes henv) hdrained⟩

theorem Room.savesFit (h : Roomy host o) {events : List Event} (hspared : Spared env host o events) :
    SavesFit env host o events := by
  induction events generalizing o with
  | nil => exact ⟨h.held, stopSaves hsizes henv h hspared⟩
  | cons event events ih =>
    obtain ⟨hspare, hrest⟩ := hspared
    have hiteration := after_iteration hsizes henv event h hspare
    unfold SavesFit
    rcases hrun : (iteration env host event).run o with ⟨r, o'⟩
    rw [hrun] at hiteration hrest
    cases r with
    | ok _ => exact ⟨h.held, by simp, ih hiteration hrest⟩
    | error e =>
      exact ⟨h.held, fun heq => hiteration.2 (Except.error.inj heq),
        stopSaves hsizes henv hiteration.1 hrest⟩

/-- An admitted job has room for its result. From an owner without jobs, in every run whose events
and outcomes find room for what they add at full width, the rows and the reservations of all active
jobs fit after every event, and no save fails for want of room. -/
theorem saves_fit (hrecords : o.journal.records = .empty) (haccounts : o.journal.accounts = .empty)
    (hlimit : 4096 + 256 ≤ host.activeJobBytes) (events : List Event)
    (hspared : Spared env host o events) : SavesFit env host o events := by
  refine Room.savesFit hsizes henv ⟨?_, ?_, fun _ _ _ => trivial⟩ hspared
  · unfold full held
    rw [hrecords, haccounts]
    have hnone : total (∅ : Std.TreeMap ℕ Record) (heldRow host Record.fullLen o) = 0 := rfl
    have hnone' : total (∅ : DigestMap Account) (fun _ a => a.fullLen + 64 + 4) = 0 := rfl
    simp only [TrackedMap.empty, List.map_nil, List.sum_nil]
    rw [hnone, hnone']
    omega
  · intro id r hr
    rw [hrecords] at hr
    simp [TrackedMap.empty, TrackedMap.get?] at hr

end Runs

/-- The error that ends a run. -/
def failure (env : Environment) (host : Host) : Owner → List Event → Option Error
  | _, [] => none
  | o, event :: events => match (iteration env host event).run o with
    | (.ok _, o') => failure env host o' events
    | (.error e, _) => some e

theorem SavesFit.failure_ne {events : List Event} (h : SavesFit env host o events) :
    failure env host o events ≠ some capacityFailure := by
  induction events generalizing o with
  | nil => simp [failure]
  | cons event events ih =>
    unfold SavesFit at h
    unfold failure
    rcases hrun : (iteration env host event).run o with ⟨r, o'⟩
    rw [hrun] at h
    cases r with
    | ok _ => exact ih h.2.2
    | error e => exact fun heq => h.2.1 (by rw [Option.some.inj heq])

end Owner

namespace Crowded

/-- A digest in hexadecimal. -/
def zeros : String := "0000000000000000000000000000000000000000000000000000000000000000"

/-- The default limits but for those of a proof and its closure, and of active jobs. -/
def host (activeJobBytes : ℕ) : Host where
  activeJobBytes := activeJobBytes
  residentJobs := 71
  terminalJobPage := 32
  providerStreamBytes := 4 * 1024 * 1024
  workers := [1, 2, 2, 2]
  closureBytes := 2600
  proofBytes := 1024
  failureDetailBytes := 512
  compatibility := zeros
  developerTools := false
  accountKey _ := 0
  configuration _ := 0
  requestKey _ _ _ := 0
  requestLen := requestSize
  recordLen := Record.jsonLen
  accountLen := Account.jsonLen
  json _ := []
  compiles question := (CompiledQuestion.compile (fun _ => 0) question).isOk
  isIdentity value := decide (value.length = 64) &&
    value.toList.all fun c => decide ('0' ≤ c ∧ c ≤ '9' ∨ 'a' ≤ c ∧ c ≤ 'f')
  streamed _ := false
  representable _ := true

def input : Input := .solve "goal = all(x, eq(x, x))\n"

def binding : Binding := ⟨zeros, zeros, zeros, zeros⟩

/-- A proof text with 6700 empty helpers. -/
def manyHelpers : Output := .proof "" (List.replicate 6700 "")

def longProof : Completed := ⟨.complete, .ok manyHelpers⟩

def environment : Environment where
  wallMs _ := .ok 1700000000000
  elapsedMs _ := some 1
  readable _ := .ok ()
  commit _ := .committed
  active _ := ⟨32, 4, 8⟩
  closed _ _ := false
  diskSpace _ := .ok ()
  computation _ := true
  slots _ := 7
  slot _ := .ok true
  flushDue _ := false
  markerWritten _ := true
  nextTask _ := 0
  outcome _ := ⟨.cancelled, .error "research cancelled"⟩

def role : RoleSettings := ⟨⟨100000, 10⟩, .standard, .deterministicCheckpoint⟩

def owner : Owner where
  questions := 0
  rows := .fresh (.fresh 0 0)
  established := true
  granted := []
  uncertain := false
  journal := .fresh 0 0
  settings := ⟨role, role, role⟩
  waiters := ∅
  running := ∅
  programs := ∅
  tasks := []
  nextLane := 0
  recoverySkip := []

theorem serializes (n : ℕ) : (host n).Serializes := ⟨rfl, rfl, rfl⟩

theorem foreign : environment.Foreign :=
  ⟨fun _ => by simp [environment], fun _ => by simp [environment], fun _ => by simp [environment],
    fun _ => by simp [environment]⟩

end Crowded

namespace Owner

open Crowded in
theorem saves_fit_submission : SavesFit environment (host 100000) owner [.submit input binding 0] :=
  saves_fit (serializes _) foreign rfl rfl (by decide) _ (by decide +kernel)

open Crowded in
set_option maxRecDepth 20000 in
/-- The capacity check lets the only job in. Its proof text with many helpers is within all limits
of an output and fits the line of a provider, but is longer than the reservation; the save of its
completion ends the owner. -/
theorem helpers_overflow : (host 25700).Serializes ∧ environment.Foreign ∧
    owner.journal.records = .empty ∧ owner.journal.accounts = .empty ∧
    (host 25700).compiles input.question = true ∧ (host 25700).isIdentity zeros = true ∧
    manyHelpers.validateWithLimits input (host 25700).proofBytes 8192 (host 25700).closureBytes =
      .ok () ∧
    manyHelpers.size + 64 ≤ 8 * (host 25700).closureBytes ∧
    ¬ SavesFit environment (host 25700) owner
      [.submit input binding 0, .reserve 1 1, .progress 1 1, .completed 0 longProof] := by
  refine ⟨serializes _, foreign, rfl, rfl, by decide +kernel, by decide +kernel, by decide +kernel,
    by decide +kernel, fun h => h.failure_ne ?_⟩
  decide +kernel

end Owner

end Naome.Jobs
