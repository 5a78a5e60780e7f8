import Naome.ProviderProtocol
import Naome.UncertainEffects

/-!
# Sessions of a provider

The frames of a worker that keeps the protocol are in their place when the parent reads them: the
session they establish is the one the parent has, and the supervisor sends a result last.
-/
namespace Naome.Jobs.Process

section Orderly

variable {host : Host} {codec : Codec} {program : Worker} {record : Record} {s s' : System}

/-- The worker has sent frames in their place and goes on so; a result is its last frame. -/
structure Orderly (host : Host) (codec : Codec) (record : Record) (s : System) : Prop where
  conforms : ∃ c now, now ≤ s.clock ∧
    Session.acceptAll host codec record s.clock (.start record) s.emitted = some c ∧
    s.worker.Conforms host codec record c now
  result : ∀ f ∈ s.emitted.dropLast, f.isResult = false
  ended : (∃ f ∈ s.emitted, f.isResult = true) → s.worker = .exited
  waiting : s.supervisor.stage = .waiting → s.emitted = [] ∧ s.alive = false

theorem orderly_launched (launch : Launch) : Orderly host codec record (.launched record launch) :=
  ⟨⟨.start record, 0, le_rfl, rfl, trivial⟩, by simp [System.launched], by simp [System.launched],
    fun _ => ⟨rfl, rfl⟩⟩

/-- A step of another party. -/
theorem Orderly.frame (h : Orderly host codec record s) (hclock : s.clock ≤ s'.clock)
    (hemitted : s'.emitted = s.emitted) (hworker : s'.worker = s.worker)
    (hwaiting : s'.supervisor.stage = .waiting → s.supervisor.stage = .waiting)
    (halive : s'.alive = true → s.alive = true) : Orderly host codec record s' := by
  obtain ⟨c, now, hnow, haccept, hconforms⟩ := h.conforms
  refine ⟨⟨c, now, hnow.trans hclock, ?_, hworker ▸ hconforms⟩, ?_, ?_, ?_⟩
  · rw [hemitted]
    exact Session.acceptAll_mono hclock haccept
  · rw [hemitted]
    exact h.result
  · rw [hemitted, hworker]
    exact h.ended
  · intro hstage
    obtain ⟨hempty, hdead⟩ := h.waiting (hwaiting hstage)
    refine ⟨hemitted.trans hempty, ?_⟩
    by_contra hne
    rw [halive (by simpa using hne)] at hdead
    cases hdead

theorem Orderly.not_waiting (h : Orderly host codec record s) (halive : s.alive = true) :
    s.supervisor.stage ≠ .waiting := by
  intro hstage
  have := (h.waiting hstage).2
  rw [halive] at this
  cases this

/-- A step of the worker that sends nothing. -/
theorem Orderly.setWorker (h : Orderly host codec record s) {worker : Worker} {permits : List Permit}
    {executed : List ℕ} (halive : s.alive = true) (hne : s.worker ≠ .exited)
    (hconforms : ∀ c now, c.feedback.elapsedNanos ≤ s.clock → now ≤ s.clock →
      s.worker.Conforms host codec record c now →
      ∃ now', now' ≤ s.clock ∧ worker.Conforms host codec record c now') :
    Orderly host codec record { s with
      worker := worker, toWorker := permits, executed := executed } := by
  obtain ⟨c, now, hnow, haccept, hworker⟩ := h.conforms
  have helapsed : c.feedback.elapsedNanos ≤ s.clock :=
    Session.elapsed_of_acceptAll (Nat.zero_le _) haccept
  obtain ⟨now', hnow', hconforms⟩ := hconforms c now helapsed hnow hworker
  refine ⟨⟨c, now', hnow', haccept, hconforms⟩, h.result, ?_, ?_⟩
  · intro hresult
    exact absurd (h.ended hresult) hne
  · exact fun hstage => absurd hstage (h.not_waiting halive)

theorem Orderly.step (hprogram : program.Conforms host codec record (.start record) 0)
    (h : Orderly host codec record s) (hstep : Step host codec program s s') :
    Orderly host codec record s' := by
  cases hstep with
  | tick clock hclock => exact h.frame hclock rfl rfl id id
  | supervisorSpawns hstage hstart =>
    obtain ⟨hempty, -⟩ := h.waiting hstage
    refine ⟨⟨.start record, 0, Nat.zero_le _, ?_, hprogram⟩, h.result, ?_, by rintro ⟨⟩⟩
    · simp only [System.supervise, hempty]
      rfl
    · simp [System.supervise, hempty]
  | supervisorForwards hstage hqueue =>
    unfold System.forward
    dsimp only
    split_ifs
    · exact h.frame le_rfl rfl rfl id id
    · exact h.frame le_rfl rfl rfl id id
  | supervisorLeaves | supervisorDoubts | supervisorDelivers | supervisorExits =>
    exact h.frame le_rfl rfl rfl (by rintro ⟨⟩) id
  | supervisorConfirms => exact h.frame le_rfl rfl rfl (by rintro ⟨⟩) (by rintro ⟨⟩)
  | workerEmits halive hworker hline =>
    next f next =>
    obtain ⟨c, now, hnow, haccept, hconforms⟩ := h.conforms
    rw [hworker] at hconforms
    obtain ⟨⟨c', hc', hnext⟩, hresult, -⟩ := hconforms
    have hopen : ∀ g ∈ s.emitted, g.isResult = false := by
      intro g hg
      by_contra hne
      have := h.ended ⟨g, hg, by simpa using hne⟩
      rw [hworker] at this
      cases this
    refine ⟨⟨c', now, hnow, ?_, hnext⟩, ?_, ?_, ?_⟩
    · rw [Session.acceptAll_concat, haccept]
      exact Session.accept_mono hnow hc'
    · simpa using hopen
    · rintro ⟨g, hg, hisResult⟩
      rcases List.mem_append.mp hg with hg | hg
      · rw [hopen g hg] at hisResult
        cases hisResult
      · rw [List.mem_singleton.mp hg] at hisResult
        exact hresult hisResult
    · exact fun hstage => absurd hstage (h.not_waiting halive)
  | workerFails halive hworker error =>
    refine h.setWorker halive (by simp [hworker]) ?_
    intro c now _ hnow hconforms
    rw [hworker] at hconforms
    exact ⟨now, hnow, hconforms.2.2 error⟩
  | workerReceives halive hworker hpipe =>
    refine h.setWorker halive (by simp [hworker]) ?_
    intro c now _ hnow hconforms
    rw [hworker] at hconforms
    exact ⟨now, hnow, hconforms _⟩
  | workerLosesLifeline halive hworker =>
    refine h.setWorker halive (by simp [hworker]) ?_
    intro c now _ hnow hconforms
    rw [hworker] at hconforms
    exact ⟨now, hnow, hconforms _⟩
  | workerReads halive hworker reading hclock hpeak =>
    refine h.setWorker halive (by simp [hworker]) ?_
    intro c now helapsed hnow hconforms
    rw [hworker] at hconforms
    exact ⟨reading.nanos, hclock.le, hconforms reading hpeak (hclock ▸ helapsed)⟩
  | workerExecutes halive hworker =>
    refine h.setWorker halive (by simp [hworker]) ?_
    intro c now _ hnow hconforms
    rw [hworker] at hconforms
    exact ⟨now, hnow, hconforms⟩
  | workerExits => exact h.frame le_rfl rfl rfl id (by rintro ⟨⟩)
  | _ => exact h.frame le_rfl rfl rfl id id

theorem Runs.orderly (hprogram : program.Conforms host codec record (.start record) 0)
    {launch : Launch} (hrun : Runs host codec program (.launched record launch) s) :
    Orderly host codec record s := by
  induction hrun with
  | refl => exact orderly_launched launch
  | tail _ hstep ih => exact ih.step hprogram hstep

/-- The frames before the result. -/
theorem Orderly.forwarded_isPrefix (h : Orderly host codec record s) {passed : List Frame}
    (hpre : passed <+: s.emitted) : passed.filter (fun f => !f.isResult) <+: s.emitted ∧
      ∀ f ∈ passed, f.isResult = true → passed.filter (fun f => !f.isResult) ++ [f] = passed := by
  have hdropLast : ∀ f ∈ passed.dropLast, f.isResult = false := by
    obtain ⟨rest, hrest⟩ := hpre
    intro f hf
    apply h.result
    rw [← hrest]
    cases rest with
    | nil => rwa [List.append_nil]
    | cons g rest =>
      rw [List.dropLast_append_of_ne_nil (by simp)]
      exact List.mem_append_left _ (List.dropLast_subset _ hf)
  rcases List.eq_nil_or_concat passed with rfl | ⟨front, last, rfl⟩
  · simp
  · rw [List.concat_eq_append] at hpre hdropLast ⊢
    rw [List.dropLast_concat] at hdropLast
    have hfront : front.filter (fun f => !f.isResult) = front := by
      rw [List.filter_eq_self]
      intro f hf
      simp [hdropLast f hf]
    rw [List.filter_append, hfront]
    cases hlast : last.isResult with
    | true =>
      simp only [List.filter_cons, hlast, Bool.not_true, Bool.false_eq_true, if_false,
        List.filter_nil, List.append_nil]
      refine ⟨(List.prefix_append _ _).trans hpre, ?_⟩
      intro f hf hresult
      rcases List.mem_append.mp hf with hf | hf
      · rw [hdropLast f hf] at hresult
        cases hresult
      · rw [List.mem_singleton.mp hf]
    | false =>
      simp only [List.filter_cons, hlast, Bool.not_false, if_true, List.filter_nil]
      refine ⟨hpre, ?_⟩
      intro f hf hresult
      rcases List.mem_append.mp hf with hf | hf
      · rw [hdropLast f hf] at hresult
        cases hresult
      · rw [List.mem_singleton.mp hf, hlast] at hresult
        cases hresult

/-- Everything the supervisor sends is in its place. -/
theorem Orderly.accept_sent (h : Orderly host codec record s) (hwired : Wired host codec s)
    (hid : s.id = record.id) :
    ∃ c, Session.acceptAll host codec record s.clock (.start record) s.sent = some c := by
  obtain ⟨c, now, hnow, haccept, -⟩ := h.conforms
  obtain ⟨hpre, hlast⟩ := h.forwarded_isPrefix hwired.passed_isPrefix
  obtain ⟨d, hd⟩ := Session.acceptAll_of_isPrefix hpre haccept
  have hreceipt : Session.accept host codec record s.clock d (.cleanupComplete s.id) = some d :=
    if_pos hid
  obtain ⟨receipts, hsent, hreceipts⟩ := hwired.sent
  rw [hsent]
  generalize s.supervisor.stage = stage at hreceipts
  cases hreceipts with
  | waiting | running | finishing | silent =>
    rw [List.append_nil]
    exact ⟨d, hd⟩
  | cleaned | confirmed =>
    rw [Session.acceptAll_concat, hd]
    exact ⟨d, hreceipt⟩
  | doubted error =>
    rw [Session.acceptAll_concat, hd]
    exact ⟨d, if_pos hid⟩
  | delivered f hf hresult =>
    obtain ⟨e, he⟩ := Session.acceptAll_of_isPrefix hwired.passed_isPrefix haccept
    rw [← hlast f hf hresult, Session.acceptAll_concat, hd] at he
    rw [List.append_cons, Session.acceptAll_concat, Session.acceptAll_concat, hd]
    simp only [Option.bind_some, hreceipt]
    exact ⟨e, he⟩

/-- A result is sent last, after the receipt, by a supervisor that then succeeds. -/
theorem Wired.result_last (h : Wired host codec s) {frames : List Frame} {f : Frame}
    (hpre : frames ++ [f] <+: s.sent) (hresult : f.isResult = true) :
    .cleanupComplete s.id ∈ frames ∧ s.sent = frames ++ [f] ∧
      s.supervisor.stage = .exited true := by
  have hforwarded : f ∉ s.passed.filter fun f => !f.isResult := by
    intro hmem
    have := List.of_mem_filter hmem
    rw [hresult] at this
    cases this
  have hmem : f ∈ s.sent := hpre.subset (by simp)
  obtain ⟨receipts, hsent, hreceipts⟩ := h.sent
  rw [hsent] at hmem hpre
  have hmem := (List.mem_append.mp hmem).resolve_left hforwarded
  generalize hstage : s.supervisor.stage = stage at hreceipts
  cases hreceipts with
  | waiting | running | finishing | silent => cases hmem
  | cleaned | confirmed | doubted error =>
    rw [List.mem_singleton] at hmem
    rw [hmem] at hresult
    cases hresult
  | delivered g hg hresult' =>
    rw [List.append_cons (List.filter _ _)] at hpre hsent
    rcases List.prefix_concat_iff.mp hpre with heq | hpre
    · obtain ⟨rfl, -⟩ := List.append_inj' heq rfl
      exact ⟨by simp, hsent.trans heq.symm, rfl⟩
    · have hmem : f ∈ s.passed.filter (fun f => !f.isResult) ++ [Frame.cleanupComplete s.id] :=
        hpre.subset (by simp)
      rcases List.mem_append.mp hmem with hmem | hmem
      · exact absurd hmem hforwarded
      · rw [List.mem_singleton.mp hmem] at hresult
        cases hresult

end Orderly

namespace Parent

variable {host : Host} {codec : Codec} {p q : Parent}

def core (p : Parent) : Session := ⟨p.ready, p.feedback, p.checkpoint, p.outstanding⟩

/-- The session once the stage has been completed. -/
def session (p : Parent) : Session :=
  match p.stage with
  | .reserving next => { p.core with outstanding := some next }
  | .granting _ outstanding => { p.core with outstanding := outstanding }
  | .reporting _ =>
    { p.core with feedback := { p.feedback with unit := none }, outstanding := none }
  | _ => p.core

/-- Nothing is refused, and the session is this one unless the execution has ended. -/
structure Moves (p q : Parent) (c : Session) : Prop where
  refused : q.refused = p.refused
  session : q.stage.executing = true → q.session = c

variable {c : Session}

theorem moves_leave (result : Except String Output) : Moves p (p.leave result) c := ⟨rfl, by rintro ⟨⟩⟩

theorem moves_leaveWith (state : State) (error : String) : Moves p (p.leaveWith state error) c :=
  ⟨rfl, by rintro ⟨⟩⟩

theorem moves_self (hstage : p.stage = .reading) : Moves p p p.core := by
  refine ⟨rfl, fun _ => ?_⟩
  unfold session
  rw [hstage]

theorem moves_acceptIf (hstage : p.stage = .reading) {guard : Bool} (hguard : guard = true) :
    Moves p (p.acceptIf guard) p.core := by
  unfold acceptIf
  rw [if_pos hguard]
  exact moves_self hstage

theorem moves_acceptReserve {id next : ℕ} (hready : p.ready = true ∧ p.feedback.ready = true ∧
    p.outstanding = none ∧ id = p.record.id) (hnext : next = p.checkpoint + 1) :
    Moves p (p.acceptReserve id next) { p.core with outstanding := some next } := by
  unfold acceptReserve
  rw [if_pos hready]
  split_ifs
  · exact moves_leave _
  · exact ⟨rfl, fun _ => rfl⟩

theorem moves_acceptProgram {id unit : ℕ} {records : List Program.Command}
    (hguard : p.ready = true ∧ id = p.record.id ∧ p.outstanding = some unit ∧
      p.record.input.isSolve = true) : Moves p (p.acceptProgram host id unit records) p.core := by
  unfold acceptProgram
  rw [if_pos hguard]
  split
  · exact moves_leave _
  · exact ⟨rfl, fun _ => rfl⟩

theorem moves_acceptResult {id : ℕ} {output : Output} (hguard : p.ready = true ∧
    p.feedback.finished = true ∧ p.cleaned = true ∧ p.outstanding = none ∧ id = p.record.id ∧
      host.complete p.record p.checkpoint = true) :
    Moves p (p.acceptResult host codec id output) c := by
  unfold acceptResult
  rw [if_pos hguard]
  split
  · exact moves_leave _
  · split
    · split_ifs
      · exact moves_leave _
      · exact moves_leave _
    · exact moves_leave _

/-- A frame in its place is not refused and moves the session as it should. -/
theorem moves_accept {now elapsed : ℕ} {f : Frame} (hstage : p.stage = .reading)
    (h : Session.accept host codec p.record now p.core f = some c) (hle : now ≤ elapsed)
    (hcleaned : f.isResult = true → p.cleaned = true) : Moves p (p.accept host codec elapsed f) c := by
  have h := Session.accept_mono hle h
  cases f with
  | feedback id phase sample =>
    obtain ⟨hguard, h⟩ := Option.ite_none_right_eq_some.mp h
    have haccept : p.accept host codec elapsed (.feedback id phase sample) =
        p.acceptFeedback host elapsed phase sample := if_pos hguard
    rw [haccept, acceptFeedback]
    simp only [core] at h
    cases hfeedback : p.feedback.observe elapsed phase sample p.outstanding
        (host.complete p.record p.checkpoint) with
    | ok feedback =>
      rw [hfeedback] at h
      cases h
      refine ⟨rfl, fun _ => ?_⟩
      simp [session, hstage, core]
    | error _ =>
      rw [hfeedback] at h
      cases h
  | uncertain id error => cases h
  | ready id binding pid =>
    obtain ⟨hguard, hc⟩ := Option.ite_none_right_eq_some.mp h
    cases hc
    have haccept : p.accept host codec elapsed (.ready id binding pid) = { p with ready := true } :=
      if_pos hguard
    rw [haccept]
    exact ⟨rfl, fun _ => by simp [session, hstage, core]⟩
  | descendant id pid =>
    obtain ⟨⟨hready, hid, hdescendant⟩, hc⟩ := Option.ite_none_right_eq_some.mp h
    cases hc
    refine moves_acceptIf hstage ?_
    simp only [core] at hready
    simp [hready, hid, hdescendant]
  | cpuActive id next | cpuDone id next | resultReady id =>
    obtain ⟨⟨hready, hid, houtstanding⟩, hc⟩ := Option.ite_none_right_eq_some.mp h
    cases hc
    refine moves_acceptIf hstage ?_
    simp only [core] at hready houtstanding
    simp [hready, hid, houtstanding]
  | reserve id next =>
    obtain ⟨⟨hready, hfeedback, houtstanding, hid, hnext⟩, hc⟩ :=
      Option.ite_none_right_eq_some.mp h
    cases hc
    exact moves_acceptReserve ⟨hready, hfeedback, houtstanding, hid⟩ hnext
  | program id unit records =>
    obtain ⟨hguard, hc⟩ := Option.ite_none_right_eq_some.mp h
    cases hc
    exact moves_acceptProgram hguard
  | progress id next =>
    obtain ⟨hguard, hc⟩ := Option.ite_none_right_eq_some.mp h
    cases hc
    have haccept : p.accept host codec elapsed (.progress id next) =
        { p with checkpoint := next, stage := .reporting next } := if_pos hguard
    rw [haccept]
    exact ⟨rfl, fun _ => rfl⟩
  | result id output =>
    obtain ⟨⟨hready, hfinished, houtstanding, hid, hcomplete⟩, hc⟩ :=
      Option.ite_none_right_eq_some.mp h
    exact moves_acceptResult ⟨hready, hfinished, hcleaned rfl, houtstanding, hid, hcomplete⟩
  | failed id error =>
    obtain ⟨hguard, hc⟩ := Option.ite_none_right_eq_some.mp h
    have haccept : p.accept host codec elapsed (.failed id error) = p.leave (.error error) :=
      if_pos hguard
    rw [haccept]
    exact moves_leave _
  | cleanupComplete id =>
    obtain ⟨hguard, hc⟩ := Option.ite_none_right_eq_some.mp h
    cases hc
    have haccept : p.accept host codec elapsed (.cleanupComplete id) = { p with cleaned := true } :=
      if_pos hguard
    rw [haccept]
    exact ⟨rfl, fun _ => by simp [session, hstage, core]⟩
  | cleanupFailed id error =>
    obtain ⟨hguard, hc⟩ := Option.ite_none_right_eq_some.mp h
    have haccept : p.accept host codec elapsed (.cleanupFailed id error) = p.leaveWith .inDoubt
        ("provider group termination is unconfirmed: " ++ error) := if_pos hguard
    rw [haccept]
    exact moves_leaveWith _ _

theorem moves_answered {reply : Except String Unit} (h : p.answered reply = some q) :
    Moves p q p.session ∧ q.cleaned = p.cleaned := by
  unfold answered at h
  split at h
  · next next hstage =>
    cases h
    refine ⟨⟨rfl, fun _ => ?_⟩, rfl⟩
    simp [session, hstage, core]
  · next unit records hstage =>
    cases h
    refine ⟨⟨rfl, fun _ => ?_⟩, rfl⟩
    simp [session, hstage, core]
  · next next hstage =>
    cases h
    split
    · next feedback hfeedback =>
      refine ⟨⟨rfl, fun _ => ?_⟩, rfl⟩
      obtain ⟨-, -, hfeedback⟩ := Outcome.bind_eq_ok.mp hfeedback
      simp [session, hstage, core, ← Outcome.pure_eq_ok.mp hfeedback]
    · exact ⟨moves_leave _, rfl⟩
  all_goals first | (cases h; exact ⟨moves_leave _, rfl⟩) | cases h

/-- A step that reads nothing keeps the session. -/
theorem moves_of_step {event : Event} (h : p.step host codec event = some q)
    (hfill : ∀ buffer elapsed, event ≠ .fill buffer elapsed) :
    Moves p q p.session ∧ (p.cleaned = true → q.cleaned = true) := by
  cases event with
  | startWritten =>
    obtain ⟨hstage, rfl⟩ := step_startWritten h
    exact ⟨⟨rfl, fun _ => by simp [session, hstage, core]⟩, id⟩
  | grantWritten =>
    obtain ⟨next, outstanding, hstage, rfl⟩ := step_grantWritten h
    exact ⟨⟨rfl, fun _ => by simp [session, hstage, core]⟩, id⟩
  | exited success =>
    obtain ⟨completion, result, drainError, -, rfl⟩ := step_exited h
    unfold reap
    dsimp only
    split_ifs <;> exact ⟨⟨rfl, by rintro ⟨⟩⟩, fun hp => by simp [hp]⟩
  | fill buffer elapsed => exact absurd rfl (hfill buffer elapsed)
  | answered reply =>
    obtain ⟨hmoves, hcleaned⟩ := moves_answered h
    exact ⟨hmoves, fun hp => hcleaned.trans hp⟩
  | cancelled | expired =>
    simp only [step, Option.ite_none_right_eq_some, Option.some.injEq] at h
    obtain ⟨-, rfl⟩ := h
    exact ⟨moves_leaveWith _ _, id⟩
  | startFailed _ | readFailed _ | grantFailed _ | drainDeadline | waitFailed _ | reapDeadline =>
    unfold step at h
    split at h
    all_goals first | contradiction | skip
    all_goals cases h
    all_goals first
      | exact ⟨moves_leave _, id⟩
      | exact ⟨⟨rfl, by rintro ⟨⟩⟩, id⟩
      | skip
    all_goals
      next hstage =>
      simp only [drained, hstage]
      exact ⟨⟨rfl, by rintro ⟨⟩⟩, id⟩

theorem accept_cleaned {elapsed : ℕ} {f : Frame}
    (h : p.cleaned = true ∨ f = .cleanupComplete p.record.id) :
    (p.accept host codec elapsed f).cleaned = true := by
  cases f with
  | cleanupComplete id =>
    by_cases hid : id = p.record.id
    · simp only [accept, if_pos hid]
    · simp only [accept, if_neg hid]
      exact h.resolve_right fun heq => hid (Frame.cleanupComplete.inj heq)
  | _ =>
    have hcleaned : p.cleaned = true := h.resolve_right (by rintro ⟨⟩)
    simp only [accept, acceptIf, acceptFeedback, acceptReserve, acceptProgram, acceptResult]
    repeat' split
    all_goals exact hcleaned

theorem refused_drained {error : Option String} : (p.drained error).refused = p.refused := by
  unfold drained
  split <;> rfl

theorem refused_drain {f : Frame} (hprogram : f.isProgram = false) (hid : f.id = p.record.id) :
    (p.drain f).refused = p.refused := by
  cases f with
  | cleanupComplete id => simp only [drain, if_pos (show id = p.record.id from hid)]
  | cleanupFailed id error =>
    simp only [drain, if_pos (show id = p.record.id from hid), refused_drained]
  | program id unit records => cases hprogram
  | _ =>
    simp only [drain]
    rw [if_pos ⟨hprogram, hid⟩]

theorem drain_cleaned {f : Frame} (hfailed : ∀ error, f ≠ .cleanupFailed p.record.id error)
    (h : p.cleaned = true ∨ f = .cleanupComplete p.record.id) : (p.drain f).cleaned = true := by
  cases f with
  | cleanupComplete id =>
    by_cases hid : id = p.record.id
    · simp only [drain, if_pos hid]
    · simp only [drain, if_neg hid, cleaned_drained]
      exact h.resolve_right fun heq => hid (Frame.cleanupComplete.inj heq)
  | cleanupFailed id error =>
    by_cases hid : id = p.record.id
    · exact absurd (by rw [hid]) (hfailed error)
    · simp only [drain, if_neg hid, cleaned_drained]
      exact h.resolve_right (by rintro ⟨⟩)
  | _ =>
    have h := h.resolve_right (by rintro ⟨⟩)
    simp only [drain]
    split_ifs
    · exact h
    · rw [cleaned_drained]
      exact h

/-- What the frames read so far say of the parent: in the execution they were all in their place, and
a receipt among them was noted. -/
structure Noted (host : Host) (codec : Codec) (now : ℕ) (p : Parent) : Prop where
  refused : (∀ f ∈ p.drainFrames, f.isProgram = false) → p.refused = false
  session : p.stage.executing = true →
    Session.acceptAll host codec p.record now (.start p.record) p.frames = some p.session
  cleaned : (∀ error, .cleanupFailed p.record.id error ∉ p.read) →
    .cleanupComplete p.record.id ∈ p.read → p.cleaned = true

variable {now : ℕ}

theorem noted_launch (record : Record) (launch : Launch) :
    Noted host codec now (.launch record launch) := by
  cases launch <;> exact ⟨fun _ => rfl, fun _ => rfl, fun _ h => by cases h⟩

theorem Noted.mono {now' : ℕ} (h : Noted host codec now p) (hle : now ≤ now') :
    Noted host codec now' p :=
  ⟨h.refused, fun hexecuting => Session.acceptAll_mono hle (h.session hexecuting), h.cleaned⟩

/-- A step that is no round of reading. -/
theorem reads_nothing {event : Event} (h : p.step host codec event = some q)
    (hfill : ∀ buffer elapsed, event ≠ .fill buffer elapsed) :
    q.record = p.record ∧ q.frames = p.frames ∧ q.drainFrames = p.drainFrames ∧
      q.reader = p.reader := by
  by_cases hexternal : event.isExternal = true
  · have hsame := same_of_external hexternal h
    exact ⟨hsame.record, hsame.frames, hsame.drainFrames, hsame.reader⟩
  · cases event with
    | startWritten =>
      obtain ⟨-, rfl⟩ := step_startWritten h
      exact ⟨rfl, rfl, rfl, rfl⟩
    | grantWritten =>
      obtain ⟨_, _, -, rfl⟩ := step_grantWritten h
      exact ⟨rfl, rfl, rfl, rfl⟩
    | exited success =>
      obtain ⟨completion, result, drainError, -, rfl⟩ := step_exited h
      have hsame : Same p _ := same_reap completion result drainError success
      exact ⟨hsame.record, hsame.frames, hsame.drainFrames, hsame.reader⟩
    | fill buffer elapsed => exact absurd rfl (hfill buffer elapsed)
    | _ => exact absurd rfl hexternal

theorem reader_of_fill {buffer : List UInt8} {elapsed : ℕ}
    (h : p.step host codec (.fill buffer elapsed) = some q) :
    q.reader = (p.reader.fill host codec buffer).2.1 := by
  rcases step_fill h with ⟨-, rfl⟩ | ⟨-, rfl⟩
  · exact (same_readExecuting host codec _ elapsed _).reader
  · exact (same_readDraining codec _ _).reader

theorem Noted.step (h : Noted host codec now p) {event : Event}
    (hq : p.step host codec event = some q) (hfill : ∀ buffer elapsed, event ≠ .fill buffer elapsed) :
    Noted host codec now q := by
  obtain ⟨hmoves, hcleaned⟩ := moves_of_step hq hfill
  obtain ⟨hrecord, hframes, hdrain, -⟩ := reads_nothing hq hfill
  have hread : q.read = p.read := by
    unfold read
    rw [hframes, hdrain]
  refine ⟨?_, ?_, ?_⟩
  · rw [hdrain, hmoves.refused]
    exact h.refused
  · intro hexecuting
    rw [hrecord, hframes, hmoves.session hexecuting]
    exact h.session (executing_of_step hq hexecuting)
  · rw [hrecord, hread]
    exact fun hfailed hmem => hcleaned (h.cleaned hfailed hmem)

/-- A round of the execution that decodes what it reads, with every frame in its place. -/
theorem Noted.readExecuting (h : Noted host codec now p) (hstage : p.stage = .reading)
    {reader : FrameReader} {filled : Filled}
    (hdecodes : ∀ bytes, filled = .frame bytes → ∃ f, codec.fromSlice bytes = some f)
    (hdrain : p.drainFrames = [])
    (haccept : ∃ c, Session.acceptAll host codec p.record now (.start p.record)
      (p.frames ++ filledFrames codec filled) = some c)
    (hresult : ∀ f ∈ filledFrames codec filled, f.isResult = true → p.cleaned = true) :
    Noted host codec now ({ p with reader := reader }.readExecuting host codec now filled) := by
  have hexecuting : p.stage.executing = true := by rw [hstage]; rfl
  have hrefused : p.refused = false := h.refused (by simp [hdrain])
  have hsession := h.session hexecuting
  cases filled with
  | ended | failed _ => exact ⟨fun _ => hrefused, (by rintro ⟨⟩), h.cleaned⟩
  | more => exact ⟨fun _ => hrefused, h.session, h.cleaned⟩
  | frame bytes =>
    obtain ⟨f, hf⟩ := hdecodes bytes rfl
    simp only [filledFrames, hf, Option.toList_some] at haccept hresult
    simp only [Parent.readExecuting, hf]
    obtain ⟨c, hc⟩ := haccept
    have hcore : p.session = p.core := by simp [Parent.session, hstage]
    rw [Session.acceptAll_concat, hsession, hcore] at hc
    let p' : Parent := { p with reader := reader, frames := p.frames ++ [f] }
    have hmoves : Moves p' (p'.accept host codec now f) c :=
      moves_accept hstage hc le_rfl (hresult f List.mem_cons_self)
    have hsame : Same p' (p'.accept host codec now f) := same_accept now f
    refine ⟨fun _ => hmoves.refused.trans hrefused, ?_, ?_⟩
    · intro hq
      rw [hsame.record, hsame.frames, hmoves.session hq, Session.acceptAll_concat, hsession, hcore]
      exact hc
    · have hread : (p'.accept host codec now f).read = p.read ++ [f] := by
        unfold read
        rw [hsame.frames, hsame.drainFrames]
        simp [p', hdrain]
      rw [hsame.record, hread]
      intro hfailed hmem
      apply accept_cleaned
      rcases List.mem_append.mp hmem with hmem | hmem
      · refine .inl (h.cleaned ?_ hmem)
        exact fun error hp => hfailed error (List.mem_append_left _ hp)
      · exact .inr (List.mem_singleton.mp hmem).symm

/-- A round of the drain that decodes what it reads. -/
theorem Noted.readDraining (h : Noted host codec now p) {completion : Option State}
    {result : Except String Output} (hstage : p.stage = .draining completion result)
    {reader : FrameReader} {filled : Filled}
    (hdecodes : ∀ bytes, filled = .frame bytes → ∃ f, codec.fromSlice bytes = some f)
    (hid : ∀ f ∈ filledFrames codec filled, f.id = p.record.id) :
    Noted host codec now ({ p with reader := reader }.readDraining codec filled) := by
  cases filled with
  | ended | failed _ =>
    simp only [Parent.readDraining, drained, hstage]
    exact ⟨h.refused, (by rintro ⟨⟩), h.cleaned⟩
  | more =>
    exact ⟨h.refused, h.session, h.cleaned⟩
  | frame bytes =>
    obtain ⟨f, hf⟩ := hdecodes bytes rfl
    simp only [filledFrames, hf, Option.toList_some] at hid
    simp only [Parent.readDraining, hf]
    have hid : f.id = p.record.id := hid f List.mem_cons_self
    let p' : Parent := { p with reader := reader, drainFrames := p.drainFrames ++ [f] }
    have hsame : Same p' (p'.drain f) := same_drain f
    have hread : (p'.drain f).read = p.read ++ [f] := by
      unfold read
      rw [hsame.frames, hsame.drainFrames]
      simp [p']
    refine ⟨?_, ?_, ?_⟩
    · rw [hsame.drainFrames]
      intro hprogram
      have hrefused : p.refused = false :=
        h.refused fun g hg => hprogram g (List.mem_append_left _ hg)
      have hdrain : (p'.drain f).refused = p'.refused :=
        refused_drain (hprogram f (by simp [p'])) hid
      exact hdrain.trans hrefused
    · intro hexecuting
      rw [executing_drain (p := p') (by simp [p', hstage, Stage.executing])] at hexecuting
      cases hexecuting
    · rw [hsame.record, hread]
      intro hfailed hmem
      apply drain_cleaned
      · intro error heq
        exact hfailed error (by simp [heq, p'])
      · rcases List.mem_append.mp hmem with hmem | hmem
        · refine .inl (h.cleaned ?_ hmem)
          exact fun error hp => hfailed error (List.mem_append_left _ hp)
        · exact .inr (List.mem_singleton.mp hmem).symm

end Parent

section Runs

variable {host : Host} {codec : Codec} {program : Worker} {record : Record} {launch : Launch}
  {s s' : System}

theorem Upward.read_isPrefix {reader : FrameReader} {read sent : List Frame} {pipe : List UInt8}
    {exited : Prop} (h : Upward host codec reader read pipe sent exited) : read <+: sent := by
  rcases h with ⟨-, hpre⟩ | ⟨rest, fragment, hunread, -⟩
  · exact hpre
  · rw [hunread.sent]
    exact List.prefix_append _ _

/-- A line that is read is a frame. -/
theorem Upward.decodes (hc : codec.Lawful) {reader : FrameReader} {read sent : List Frame}
    {pipe : List UInt8} {exited : Prop} (h : Upward host codec reader read pipe sent exited) {n : ℕ}
    (hpos : 0 < n) (hle : n ≤ pipe.length) {bytes : List UInt8}
    (hfill : (reader.fill host codec (pipe.take n)).1 = .frame bytes) :
    ∃ f, codec.fromSlice bytes = some f := by
  rcases h with ⟨hexceeded, -⟩ | ⟨rest, fragment, hunread, -⟩
  · exact absurd hfill ((FrameReader.fill_of_exceeded codec hexceeded _).1 bytes)
  · have hfills := FrameReader.fills host codec hunread.partial_open hpos hle
    generalize reader.fill host codec (pipe.take n) = filled at hfill hfills
    cases hfills with
    | frame a consumed hnew hbytes htotal =>
      cases hfill
      obtain ⟨f, fs, -, hline, -⟩ := hunread.exists_front hc hnew hbytes
      exact ⟨f, by rw [← hline, hc.fromSlice_line]⟩
    | _ => cases hfill

/-- The receipt of a confirmed cleanup excludes a failed one. -/
theorem Wired.not_doubted (h : Wired host codec s) (hemitted : ∀ f ∈ s.emitted, f.isCleanup = false)
    (hconfirmed : .cleanupComplete s.id ∈ s.sent) (error : String) :
    .cleanupFailed s.id error ∉ s.sent :=
  fun hfailed => h.not_confirmed hemitted hfailed hconfirmed

/-- A round of reading whose frames come next in what was sent. -/
theorem Noted.fill (hwired : Wired host codec s) (horderly : Orderly host codec record s)
    (hrecord : s.parent.record = record) (hemitted : ∀ f ∈ s.emitted, f.isCleanup = false)
    (h : s.parent.Noted host codec s.clock) {buffer : List UInt8} {p : Parent}
    (hp : s.parent.step host codec (.fill buffer s.clock) = some p)
    (hdecodes : ∀ bytes, (s.parent.reader.fill host codec buffer).1 = .frame bytes →
      ∃ f, codec.fromSlice bytes = some f)
    (hpre : s.parent.read ++
      Parent.filledFrames codec (s.parent.reader.fill host codec buffer).1 <+: s.sent) :
    p.Noted host codec s.clock := by
  have hid : s.id = record.id := congrArg Record.id hrecord
  obtain ⟨c, hc⟩ := horderly.accept_sent hwired hid
  obtain ⟨d, hd⟩ := Session.acceptAll_of_isPrefix hpre hc
  rcases Parent.step_fill hp with ⟨hstage, rfl⟩ | ⟨⟨completion, result, hstage⟩, rfl⟩
  · have hexecuting : s.parent.stage.executing = true := by rw [hstage]; rfl
    have hdrain := hwired.executing hexecuting
    have hread : s.parent.read = s.parent.frames := by simp [Parent.read, hdrain]
    refine h.readExecuting hstage hdecodes hdrain ⟨d, ?_⟩ ?_
    · rw [hrecord, ← hread]
      exact hd
    · intro f hf hresult
      have hfilled : Parent.filledFrames codec (s.parent.reader.fill host codec buffer).1 = [f] := by
        generalize (s.parent.reader.fill host codec buffer).1 = filled at hf
        cases filled with
        | frame bytes =>
          simp only [Parent.filledFrames, Option.mem_toList] at hf ⊢
          rw [hf]
          rfl
        | _ => cases hf
      rw [hfilled] at hpre
      obtain ⟨hmem, hsent, -⟩ := hwired.result_last hpre hresult
      have hconfirmed : .cleanupComplete s.id ∈ s.sent := by
        rw [hsent]
        exact List.mem_append_left _ hmem
      refine h.cleaned ?_ hmem
      intro error hfailed
      refine hwired.not_doubted hemitted hconfirmed error ?_
      rw [hsent]
      exact List.mem_append_left _ hfailed
  · refine h.readDraining hstage hdecodes ?_
    intro f hf
    rw [hrecord]
    exact Session.id_of_acceptAll hd f (List.mem_append_right _ hf)

theorem Step.noted (hc : codec.Lawful) (hwired : Wired host codec s)
    (horderly : Orderly host codec record s) (hrecord : s.parent.record = record)
    (hemitted : ∀ f ∈ s.emitted, f.isCleanup = false)
    (h : s.parent.Noted host codec s.clock) (hstep : Step host codec program s s') :
    s'.parent.Noted host codec s'.clock := by
  cases hstep with
  | tick clock hclock => exact h.mono hclock
  | parent event hexternal hp =>
    refine h.step hp ?_
    rintro buffer elapsed rfl
    cases hexternal
  | parentStart hp | parentGrant _ hp | parentReaps _ hp => exact h.step hp (by rintro _ _ ⟨⟩)
  | parentEnded hpipe hexit hp =>
    have hfilled : ∀ bytes, (s.parent.reader.fill host codec []).1 ≠ .frame bytes := by
      intro bytes
      simp only [FrameReader.fill, ↓reduceIte]
      split <;> rintro ⟨⟩
    refine Noted.fill hwired horderly hrecord hemitted h hp ?_ ?_
    · exact fun bytes hframe => absurd hframe (hfilled bytes)
    · generalize (s.parent.reader.fill host codec []).1 = filled at hfilled
      cases filled with
      | frame bytes => exact absurd rfl (hfilled bytes)
      | _ => simpa [Parent.filledFrames] using hwired.read_isPrefix
  | parentFill n hpos hle hp =>
    refine Noted.fill hwired horderly hrecord hemitted h hp ?_ ?_
    · exact fun bytes hframe => hwired.upward.decodes hc hpos hle hframe
    · exact (hwired.upward.fill hc hpos hle).read_isPrefix
  | supervisorForwards hstage hqueue =>
    unfold System.forward
    dsimp only
    split_ifs
    · exact h
    · exact h
  | _ => exact h

theorem Runs.noted (hc : codec.Lawful) (hconforms : program.Conforms host codec record (.start record) 0)
    (hemits : program.Emits fun f => f.isCleanup = false)
    (hrun : Runs host codec program (.launched record launch) s) :
    s.parent.Noted host codec s.clock := by
  induction hrun with
  | refl => exact Parent.noted_launch record launch
  | tail hrun hstep ih =>
    exact hstep.noted hc (Runs.wired hc hrun) (Runs.orderly hconforms hrun) (Runs.parent hrun).1
      (Runs.emits hemits hrun).2 ih

end Runs

end Naome.Jobs.Process
