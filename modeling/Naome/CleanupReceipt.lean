import Naome.ProviderSession

/-!
# Recognised receipts

With no group among the frames of the drain, and with room for the receipt in the stream, the parent
reads the receipt of a confirmed cleanup, and the outcome of the attempt is what ended its execution.
-/
namespace Naome.Jobs.Process

section Runs

variable {host : Host} {codec : Codec} {program : Worker} {record : Record} {launch : Launch}
  {s s' : System}

theorem Step.sent_isPrefix (h : Step host codec program s s') : s.sent <+: s'.sent := by
  cases h with
  | supervisorForwards hstage hqueue =>
    unfold System.forward
    dsimp only
    split_ifs
    · exact List.prefix_refl _
    · exact List.prefix_append _ _
  | supervisorConfirms hstage => exact List.prefix_append _ _
  | supervisorDoubts hstage error => exact List.prefix_append _ _
  | supervisorDelivers hstage hresult => exact List.prefix_append _ _
  | _ => exact List.prefix_refl _

variable (codec) in
theorem charges_le_of_isPrefix {frames frames' : List Frame} (h : frames <+: frames') :
    charges codec frames ≤ charges codec frames' := by
  obtain ⟨rest, rfl⟩ := h
  rw [charges_append]
  exact Nat.le_add_right _ _

/-- A round of reading counts at most what was sent. -/
theorem Unread.total_fill (hc : codec.Lawful) {reader : FrameReader} {read sent rest : List Frame}
    {pipe fragment : List UInt8} (h : Unread codec reader read pipe sent rest fragment) {n : ℕ}
    (hpos : 0 < n) (hle : n ≤ pipe.length) :
    (reader.fill host codec (pipe.take n)).2.1.total ≤ charges codec sent := by
  have htotal : reader.total ≤ charges codec sent := by
    rw [h.total, h.sent, charges_append]
    exact Nat.le_add_right _ _
  have hfront : ∀ (a : List UInt8) (consumed : ℕ), newline ∉ a →
      a ++ newline :: pipe.drop consumed = reader.partialBytes ++ pipe →
      reader.total + codec.lineCharge (a ++ [newline]) ≤ charges codec sent := by
    intro a consumed hnew hbytes
    obtain ⟨f, fs, rfl, hline, -⟩ := h.exists_front hc hnew hbytes
    rw [h.total, h.sent, charges_append, ← hline]
    simp [charges]
  have hfills := FrameReader.fills host codec h.partial_open hpos hle
  generalize reader.fill host codec (pipe.take n) = filled at hfills
  cases hfills with
  | more | overlong => exact htotal
  | frame a consumed hnew hbytes => exact hfront a consumed hnew hbytes
  | exceeded a consumed hnew hbytes => exact hfront a consumed hnew hbytes

/-- What the parent has counted was sent, as long as that is within the limit of the stream. -/
theorem Runs.total_le (hc : codec.Lawful)
    (hrun : Runs host codec program (.launched record launch) s)
    (hcharges : charges codec s.sent ≤ host.providerStreamBytes) :
    s.parent.reader.total ≤ charges codec s.sent := by
  induction hrun with
  | refl => cases launch <;> exact Nat.zero_le _
  | @tail s₀ s hrun hstep ih =>
    have hsent := charges_le_of_isPrefix codec hstep.sent_isPrefix
    have ih := ih (hsent.trans hcharges)
    have hsame : s.parent.reader = s₀.parent.reader →
        s.parent.reader.total ≤ charges codec s.sent := by
      intro hreader
      rw [hreader]
      exact ih.trans hsent
    cases hstep with
    | parent event hexternal hp =>
      refine hsame (Parent.reads_nothing hp ?_).2.2.2
      rintro buffer elapsed rfl
      cases hexternal
    | parentStart hp | parentGrant _ hp | parentReaps _ hp =>
      exact hsame (Parent.reads_nothing hp (by rintro _ _ ⟨⟩)).2.2.2
    | parentEnded hpipe hexit hp =>
      refine hsame ((Parent.reader_of_fill hp).trans ?_)
      simp [FrameReader.fill]
    | parentFill n hpos hle hp =>
      simp only [Parent.reader_of_fill hp]
      rcases (Runs.wired hc hrun).upward with ⟨hexceeded, -⟩ | ⟨rest, fragment, hunread, -⟩
      · omega
      · exact hunread.total_fill hc hpos hle
    | supervisorForwards hstage hqueue =>
      apply hsame
      unfold System.forward
      dsimp only
      split_ifs
      · rfl
      · rfl
    | _ => exact hsame rfl

/-- Within the limit of the stream nothing is lost. -/
theorem Runs.unread (hc : codec.Lawful)
    (hrun : Runs host codec program (.launched record launch) s)
    (hcharges : charges codec s.sent ≤ host.providerStreamBytes) :
    ∃ rest fragment, Unread codec s.parent.reader s.parent.read s.toParent s.sent rest fragment ∧
      (fragment ≠ [] → s.supervisor.stage = .exited false) := by
  have htotal := Runs.total_le hc hrun hcharges
  rcases (Runs.wired hc hrun).upward with ⟨hexceeded, -⟩ | hunread
  · omega
  · exact hunread

/-- The lines of the worker fit in a frame. -/
theorem Runs.line_emitted (hrun : Runs host codec program (.launched record launch) s) :
    ∀ f ∈ s.emitted, (codec.line f).length ≤ host.maxFrameBytes := by
  induction hrun with
  | refl => rintro _ ⟨⟩
  | tail _ hstep ih =>
    cases hstep with
    | workerEmits halive hworker hline =>
      intro g hg
      rcases List.mem_append.mp hg with hg | hg
      · exact ih g hg
      · rw [List.mem_singleton.mp hg]
        exact hline
    | supervisorForwards hstage hqueue =>
      unfold System.forward
      dsimp only
      split_ifs
      · exact ih
      · exact ih
    | _ => exact ih

/-- So do the lines of the supervisor, unless it doubts its cleanup. -/
theorem Wired.line_sent (h : Wired host codec s)
    (hemitted : ∀ f ∈ s.emitted, (codec.line f).length ≤ host.maxFrameBytes)
    (hreceipt : (codec.line (.cleanupComplete s.id)).length ≤ host.maxFrameBytes)
    (hfailed : ∀ error, .cleanupFailed s.id error ∉ s.sent) :
    ∀ f ∈ s.sent, (codec.line f).length ≤ host.maxFrameBytes := by
  have hpassed : ∀ f ∈ s.passed, (codec.line f).length ≤ host.maxFrameBytes :=
    fun f hf => hemitted f (h.passed_isPrefix.subset hf)
  obtain ⟨receipts, hsent, hreceipts⟩ := h.sent
  rw [hsent] at hfailed ⊢
  intro f hf
  rcases List.mem_append.mp hf with hf | hf
  · exact hpassed f (List.mem_of_mem_filter hf)
  · generalize s.supervisor.stage = stage at hreceipts
    cases hreceipts with
    | waiting | running | finishing | silent => cases hf
    | cleaned | confirmed =>
      rw [List.mem_singleton.mp hf]
      exact hreceipt
    | doubted error => exact absurd (by simp) (hfailed error)
    | delivered g hg hresult =>
      rcases List.mem_cons.mp hf with rfl | hf
      · exact hreceipt
      · rw [List.mem_singleton.mp hf]
        exact hpassed g hg

/-- A round of reading fails only after the last frame. -/
theorem Unread.fill_failed (hc : codec.Lawful) {reader : FrameReader} {read sent rest : List Frame}
    {pipe fragment : List UInt8} (h : Unread codec reader read pipe sent rest fragment) {n : ℕ}
    (hpos : 0 < n) (hle : n ≤ pipe.length)
    (hcharges : charges codec sent ≤ host.providerStreamBytes)
    (hlines : ∀ f ∈ sent, (codec.line f).length ≤ host.maxFrameBytes) {error : String}
    (hfill : (reader.fill host codec (pipe.take n)).1 = .failed error) : rest = [] ∧ fragment ≠ [] := by
  have htotal : (reader.fill host codec (pipe.take n)).2.1.total ≤ charges codec sent :=
    h.total_fill hc hpos hle
  have hfills := FrameReader.fills host codec h.partial_open hpos hle
  generalize reader.fill host codec (pipe.take n) = filled at hfill hfills htotal
  cases hfills with
  | more | frame => cases hfill
  | exceeded a consumed hnew hbytes hexceeded =>
    simp only at htotal
    omega
  | overlong bytes tail hnew hbytes hlong =>
    have hstream := hbytes.trans h.bytes
    cases rest with
    | nil =>
      refine ⟨rfl, ?_⟩
      rintro rfl
      have hempty : (reader.partialBytes ++ pipe).length = 0 := by
        rw [h.bytes]
        rfl
      rw [List.length_append] at hempty
      omega
    | cons f fs =>
      -- the first frame is shorter than the bytes, which hold no newline but at their end
      have hline := hlines f (by rw [h.sent]; simp)
      have hpre : codec.line f <+: bytes := by
        refine List.prefix_of_prefix_length_le ?_ (List.prefix_append bytes tail) (by omega)
        rw [hstream, stream_cons, List.append_assoc]
        exact List.prefix_append _ _
      obtain ⟨more, rfl⟩ := hpre
      have hmore : more ≠ [] := by
        rintro rfl
        rw [List.append_nil] at hlong
        omega
      rw [List.dropLast_append_of_ne_nil hmore] at hnew
      exact absurd (List.mem_append_left _ (by simp [Codec.line])) hnew

end Runs

namespace Parent

/-- The disposition that is set aside when the execution ends. -/
def Event.completion : Event → State
  | .cancelled => .cancelled
  | .expired => .expired
  | _ => .inDoubt

/-- The state of an attempt that ended so, with this result of its execution. -/
def Event.verdict (event : Event) (result : Except String Output) : State :=
  match event with
  | .cancelled => .cancelled
  | .expired => .expired
  | _ => if result.toBool then .complete else .failed

variable {host : Host} {codec : Codec} {p q : Parent}

theorem stage_leave (hdisposition : p.disposition = some .inDoubt) (result : Except String Output) :
    (p.leave result).stage = .draining (some .inDoubt) result :=
  congrArg (Stage.draining · result) hdisposition

/-- Only a result ends the execution well. -/
theorem left_accept {elapsed : ℕ} {f : Frame} (hdisposition : p.disposition = some .inDoubt)
    (hexecuting : p.stage.executing = true)
    (h : (p.accept host codec elapsed f).stage.executing = false) :
    ∃ result, (p.accept host codec elapsed f).stage = .draining (some .inDoubt) result ∧
      (result.toBool = true → f.isResult = true) := by
  cases f with
  | result id output =>
    clear h
    simp only [accept, acceptResult]
    repeat' split
    all_goals exact ⟨_, stage_leave hdisposition _, fun _ => rfl⟩
  | _ =>
    revert h
    simp only [accept, acceptIf, acceptFeedback, acceptReserve, acceptProgram]
    repeat' split
    all_goals
      intro h
      first
      | exact ⟨_, stage_leave hdisposition _, by rintro ⟨⟩⟩
      | exact ⟨_, rfl, by rintro ⟨⟩⟩
      | (rw [hexecuting] at h; cases h)
      | cases h

/-- A step that ends the execution. -/
theorem left_of_step {event : Event} (hdisposition : p.disposition = some .inDoubt)
    (hexecuting : p.stage.executing = true) (h : p.step host codec event = some q)
    (hleft : q.stage.executing = false) :
    ∃ result, q.stage = .draining (some event.completion) result ∧
      (result.toBool = true → (∃ buffer elapsed, event = .fill buffer elapsed) ∧
        ∃ frames f, q.frames = frames ++ [f] ∧ f.isResult = true) := by
  cases event with
  | startWritten =>
    obtain ⟨hstage, rfl⟩ := step_startWritten h
    cases hleft
  | grantWritten =>
    obtain ⟨next, outstanding, hstage, rfl⟩ := step_grantWritten h
    cases hleft
  | exited success =>
    obtain ⟨completion, result, drainError, hstage, -⟩ := step_exited h
    rw [hstage] at hexecuting
    cases hexecuting
  | fill buffer elapsed =>
    rcases step_fill h with ⟨hstage, rfl⟩ | ⟨⟨completion, result, hstage⟩, -⟩
    · generalize (p.reader.fill host codec buffer).1 = filled at hleft ⊢
      generalize (p.reader.fill host codec buffer).2.1 = reader at hleft ⊢
      cases filled with
      | ended | failed _ => exact ⟨_, stage_leave hdisposition _, by rintro ⟨⟩⟩
      | more =>
        have hleft : p.stage.executing = false := hleft
        rw [hexecuting] at hleft
        cases hleft
      | frame bytes =>
        simp only [readExecuting] at hleft ⊢
        split at hleft
        · exact ⟨_, stage_leave hdisposition _, by rintro ⟨⟩⟩
        · next f hf =>
          let p' : Parent := { p with reader := reader, frames := p.frames ++ [f] }
          have hsame : Same p' (p'.accept host codec elapsed f) := same_accept elapsed f
          have haccept : ∃ result, (p'.accept host codec elapsed f).stage =
              .draining (some .inDoubt) result ∧ (result.toBool = true → f.isResult = true) :=
            left_accept hdisposition hexecuting hleft
          obtain ⟨result, hresult, hok⟩ := haccept
          exact ⟨result, hresult, fun htrue => ⟨⟨buffer, elapsed, rfl⟩, p.frames, f, hsame.frames,
            hok htrue⟩⟩
    · rw [hstage] at hexecuting
      cases hexecuting
  | answered reply =>
    have h : p.answered reply = some q := h
    unfold answered at h
    split at h
    · cases h
      cases hleft
    · cases h
      cases hleft
    · cases h
      split at hleft
      · cases hleft
      · exact ⟨_, stage_leave hdisposition _, by rintro ⟨⟩⟩
    all_goals cases h
    all_goals exact ⟨_, stage_leave hdisposition _, by rintro ⟨⟩⟩
  | cancelled | expired =>
    simp only [step, Option.ite_none_right_eq_some, Option.some.injEq] at h
    obtain ⟨-, rfl⟩ := h
    exact ⟨_, rfl, by rintro ⟨⟩⟩
  | startFailed _ | readFailed _ | grantFailed _ | drainDeadline | waitFailed _ | reapDeadline =>
    unfold step at h
    split at h
    all_goals first | contradiction | skip
    all_goals cases h
    all_goals first
      | exact ⟨_, stage_leave hdisposition _, by rintro ⟨⟩⟩
      | (next hstage => rw [hstage] at hexecuting; cases hexecuting)

theorem cutShort_accept (elapsed : ℕ) (f : Frame) :
    (p.accept host codec elapsed f).cutShort = p.cutShort := by
  cases f <;> simp only [accept, acceptIf, acceptFeedback, acceptReserve, acceptProgram,
    acceptResult] <;> repeat' split
  all_goals rfl

theorem cutShort_drained (error : Option String) : (p.drained error).cutShort = p.cutShort := by
  unfold drained
  split <;> rfl

theorem cutShort_drain (f : Frame) : (p.drain f).cutShort = p.cutShort := by
  cases f <;> simp only [drain] <;> split_ifs <;> first | rfl | exact cutShort_drained _

theorem cutShort_fill {buffer : List UInt8} {elapsed : ℕ}
    (h : p.step host codec (.fill buffer elapsed) = some q) : q.cutShort = p.cutShort := by
  rcases step_fill h with ⟨-, rfl⟩ | ⟨-, rfl⟩
  · generalize (p.reader.fill host codec buffer).1 = filled
    cases filled with
    | ended | failed _ | more => rfl
    | frame bytes =>
      simp only [readExecuting]
      split
      · rfl
      · exact cutShort_accept _ _
  · generalize (p.reader.fill host codec buffer).1 = filled
    cases filled with
    | more => rfl
    | ended | failed _ => exact cutShort_drained _
    | frame bytes =>
      simp only [readDraining]
      split
      · exact cutShort_drained _
      · exact cutShort_drain _

theorem cutShort_answered {reply : Except String Unit} (h : p.answered reply = some q) :
    q.cutShort = p.cutShort := by
  unfold answered at h
  split at h
  all_goals cases h
  all_goals first | rfl | (split <;> rfl)

theorem cutShort_step {event : Event} (h : p.step host codec event = some q) :
    q.cutShort = p.cutShort ∨ q.cutShort = true := by
  cases event with
  | startWritten =>
    obtain ⟨-, rfl⟩ := step_startWritten h
    exact .inl rfl
  | grantWritten =>
    obtain ⟨next, outstanding, -, rfl⟩ := step_grantWritten h
    exact .inl rfl
  | exited success =>
    obtain ⟨completion, result, drainError, -, rfl⟩ := step_exited h
    unfold reap
    dsimp only
    split_ifs <;> exact .inl rfl
  | fill buffer elapsed => exact .inl (cutShort_fill h)
  | answered reply => exact .inl (cutShort_answered h)
  | cancelled | expired =>
    simp only [step, Option.ite_none_right_eq_some, Option.some.injEq] at h
    obtain ⟨-, rfl⟩ := h
    exact .inl rfl
  | startFailed _ | readFailed _ | grantFailed _ | drainDeadline | waitFailed _ | reapDeadline =>
    unfold step at h
    split at h
    all_goals first | contradiction | skip
    all_goals cases h
    all_goals first | exact .inl rfl | exact .inr (cutShort_drained _) | exact .inr rfl

theorem executing_of_answered {reply : Except String Unit} (h : p.answered reply = some q) :
    p.stage.executing = true := by
  unfold answered at h
  generalize p.stage = stage at h
  cases stage with
  | starting | reading | draining | reaping | ended => cases h
  | reserving | offering | reporting => rfl
  | granting => rfl

/-- After the execution only a timeout or a failed call comes from outside. -/
theorem cutShort_of_external {event : Event} (hexecuting : p.stage.executing = false)
    (hexternal : event.isExternal = true) (h : p.step host codec event = some q) :
    q.cutShort = true := by
  cases event with
  | startWritten | fill _ _ | grantWritten | exited _ => cases hexternal
  | answered reply =>
    rw [executing_of_answered h] at hexecuting
    cases hexecuting
  | cancelled | expired =>
    simp only [step, hexecuting, Bool.false_eq_true, if_false] at h
    cases h
  | startFailed _ | readFailed _ | grantFailed _ | drainDeadline | waitFailed _ | reapDeadline =>
    unfold step at h
    split at h
    all_goals first | contradiction | skip
    all_goals cases h
    all_goals first
      | exact cutShort_drained _
      | rfl
      | (next hstage => rw [hstage] at hexecuting; cases hexecuting)

theorem drainFrames_isPrefix {event : Event} (h : p.step host codec event = some q) :
    p.drainFrames <+: q.drainFrames := by
  by_cases hfill : ∃ buffer elapsed, event = .fill buffer elapsed
  · obtain ⟨buffer, elapsed, rfl⟩ := hfill
    rcases step_fill h with ⟨-, rfl⟩ | ⟨-, rfl⟩
    · rw [(same_readExecuting host codec _ elapsed _).drainFrames]
    · rw [(same_readDraining codec _ _).drainFrames]
      exact List.prefix_append _ _
  · rw [(reads_nothing h fun buffer elapsed heq => hfill ⟨buffer, elapsed, heq⟩).2.2.1]

theorem stage_reap (completion : Option State) (result : Except String Output)
    (drainError : Option String) (success : Bool) :
    ∃ final, (p.reap completion result drainError success).stage = .ended final := by
  unfold reap
  dsimp only
  split_ifs <;> exact ⟨_, rfl⟩

/-- A clean attempt is settled by what ended its execution. -/
theorem verdict_reap (hcleaned : p.cleaned = true) (event : Event) {result : Except String Output}
    {drainError : Option String} {success : Bool}
    (hok : result.toBool = true → drainError = none ∧ success = true) {final : Except String Output}
    (hfinal : (p.reap (some event.completion) result drainError success).stage = .ended final) :
    (p.reap (some event.completion) result drainError success).disposition.getD
      (if final.toBool then .complete else .failed) = event.verdict result := by
  unfold reap at hfinal ⊢
  simp only [hcleaned, Bool.true_or, if_true, Stage.ended.injEq] at hfinal ⊢
  have hresult : final.toBool = result.toBool := by
    cases result with
    | error primary =>
      rw [← hfinal]
      cases drainError <;> rfl
    | ok output =>
      obtain ⟨rfl, rfl⟩ := hok rfl
      rw [← hfinal]
      rfl
  rw [hresult]
  cases event <;> rfl

theorem stage_drain {f : Frame} (hprogram : f.isProgram = false) (hid : f.id = p.record.id)
    (hfailed : ∀ error, f ≠ .cleanupFailed p.record.id error) : (p.drain f).stage = p.stage := by
  cases f with
  | cleanupComplete id => simp only [drain, if_pos (show id = p.record.id from hid)]
  | cleanupFailed id error =>
    have hid : id = p.record.id := hid
    exact absurd (by rw [hid]) (hfailed error)
  | program id unit records => cases hprogram
  | _ =>
    simp only [drain]
    rw [if_pos ⟨hprogram, hid⟩]

end Parent

section Conclusion

variable {host : Host} {codec : Codec} {program : Worker} {record : Record} {launch : Launch}
  {s s' : System} {event : Parent.Event} {result : Except String Output}

/-- No group was drained, what was sent is within the limit of the stream, the supervisor did not
doubt its cleanup, and the end of the attempt was not cut short. -/
structure Undisturbed (host : Host) (codec : Codec) (s : System) : Prop where
  drained : ∀ f ∈ s.parent.drainFrames, f.isProgram = false
  charges : charges codec s.sent ≤ host.providerStreamBytes
  certain : ∀ error, .cleanupFailed s.id error ∉ s.sent
  cutShort : s.parent.cutShort = false

theorem Undisturbed.of_step (h : Undisturbed host codec s') (hstep : Step host codec program s s') :
    Undisturbed host codec s := by
  have hsent := hstep.sent_isPrefix
  have hparent : s'.id = s.id ∧ s.parent.drainFrames <+: s'.parent.drainFrames ∧
      s.parent.cutShort = false := by
    rcases hstep.parent_cases with hsame | ⟨event, hevent⟩
    · refine ⟨congrArg (·.record.id) hsame, by rw [hsame], ?_⟩
      rw [← hsame]
      exact h.cutShort
    · refine ⟨congrArg Record.id (Parent.record_of_step hevent), Parent.drainFrames_isPrefix hevent, ?_⟩
      rcases Parent.cutShort_step hevent with hsame | htrue
      · exact hsame.symm.trans h.cutShort
      · rw [h.cutShort] at htrue
        cases htrue
  obtain ⟨hid, hdrain, hcutShort⟩ := hparent
  refine ⟨fun f hf => h.drained f (hdrain.subset hf), (charges_le_of_isPrefix codec hsent).trans h.charges,
    ?_, hcutShort⟩
  intro error hmem
  exact h.certain error (hid ▸ hsent.subset hmem)

/-- How an attempt goes on once this event has ended its execution with this result. -/
inductive Concludes (event : Parent.Event) (result : Except String Output) (s : System) : Prop
  | draining (hstage : s.parent.stage = .draining (some event.completion) result)
      (hok : result.toBool = true → s.supervisor.stage = .exited true ∧ s.toParent = [] ∧
        s.parent.reader.partialBytes = [])
  | reaping (drainError : Option String)
      (hstage : s.parent.stage = .reaping (some event.completion) result drainError)
      (hexit : ∃ success, s.supervisor.stage = .exited success) (hread : s.parent.read = s.sent)
      (hok : result.toBool = true → s.supervisor.stage = .exited true ∧ drainError = none)
  | ended (final : Except String Output) (hstage : s.parent.stage = .ended final)
      (hexit : ∃ success, s.supervisor.stage = .exited success)
      (hverdict : .cleanupComplete s.id ∈ s.sent → .cleanupComplete s.id ∈ s.parent.read ∧
        s.parent.disposition.getD (if final.toBool then .complete else .failed) =
          event.verdict result)

/-- A step of another party. -/
theorem Concludes.frame (h : Concludes event result s) (hparent : s'.parent = s.parent)
    (hexited : ∀ success, s.supervisor.stage = .exited success →
      s'.supervisor.stage = .exited success ∧ s'.sent = s.sent ∧ s'.toParent = s.toParent) :
    Concludes event result s' := by
  have hid : s'.id = s.id := congrArg (·.record.id) hparent
  cases h with
  | draining hstage hok =>
    refine .draining (hparent ▸ hstage) fun htrue => ?_
    obtain ⟨hexit, hpipe, hpending⟩ := hok htrue
    obtain ⟨hexit', -, hpipe'⟩ := hexited true hexit
    exact ⟨hexit', hpipe'.trans hpipe, hparent ▸ hpending⟩
  | reaping drainError hstage hexit hread hok =>
    obtain ⟨success, hexit⟩ := hexit
    obtain ⟨hexit', hsent, -⟩ := hexited success hexit
    refine .reaping drainError (hparent ▸ hstage) ⟨success, hexit'⟩ ?_ fun htrue => ?_
    · rw [hparent, hsent, hread]
    · exact ⟨(hexited true (hok htrue).1).1, (hok htrue).2⟩
  | ended final hstage hexit hverdict =>
    obtain ⟨success, hexit⟩ := hexit
    obtain ⟨hexit', hsent, -⟩ := hexited success hexit
    refine .ended final (hparent ▸ hstage) ⟨success, hexit'⟩ ?_
    rw [hid, hsent, hparent]
    exact hverdict

theorem Concludes.executing (h : Concludes event result s) : s.parent.stage.executing = false := by
  cases h with
  | draining hstage | reaping _ hstage | ended _ hstage => rw [hstage]; rfl

/-- A round of the drain. -/
theorem Concludes.fill (hc : codec.Lawful) {rest : List Frame} {fragment : List UInt8}
    (hunread : Unread codec s.parent.reader s.parent.read s.toParent s.sent rest fragment)
    (hfragment : fragment ≠ [] → s.supervisor.stage = .exited false)
    (hlines : ∀ f ∈ s.sent, (codec.line f).length ≤ host.maxFrameBytes)
    (hids : ∀ f ∈ s.sent, f.id = s.id) (hund : Undisturbed host codec s) {p : Parent} {n : ℕ}
    (hpos : 0 < n) (hle : n ≤ s.toParent.length)
    (hp : s.parent.step host codec (.fill (s.toParent.take n) s.clock) = some p)
    (hdrained : ∀ f ∈ p.drainFrames, f.isProgram = false) (h : Concludes event result s) :
    Concludes event result { s with
      parent := p
      toParent := s.toParent.drop (s.parent.reader.fill host codec (s.toParent.take n)).2.2 } := by
  rcases Parent.step_fill hp with ⟨hstage, -⟩ | ⟨⟨completion, result', hstage⟩, rfl⟩
  · have := h.executing
    rw [hstage] at this
    cases this
  · cases h with
    | reaping _ hstage' | ended _ hstage' =>
      rw [hstage] at hstage'
      cases hstage'
    | draining hstage' hok =>
      have herror : result.toBool ≠ true := by
        intro htrue
        obtain ⟨-, hpipe, -⟩ := hok htrue
        rw [hpipe] at hle
        simp only [List.length_nil] at hle
        omega
      have hfailed : ∀ error,
          (s.parent.reader.fill host codec (s.toParent.take n)).1 = .failed error →
          rest = [] ∧ fragment ≠ [] := fun error => hunread.fill_failed hc hpos hle hund.charges hlines
      have hfills := FrameReader.fills host codec hunread.partial_open hpos hle
      generalize s.parent.reader.fill host codec (s.toParent.take n) = filled at hfills hfailed hdrained ⊢
      have hreaping : ∀ (reader : FrameReader) (pipe : List UInt8) (error : String),
          rest = [] ∧ fragment ≠ [] → Concludes event result { s with
            parent := { s.parent with reader := reader }.drained (some error), toParent := pipe } := by
        rintro reader pipe error ⟨hrest, hne⟩
        have hsent := hunread.sent
        rw [hrest, List.append_nil] at hsent
        refine .reaping (some error) ?_ ⟨false, hfragment hne⟩ ?_ fun htrue => absurd htrue herror
        · simp [Parent.drained, hstage']
        · simp [Parent.drained, hstage', Parent.read, hsent]
      cases hfills with
      | more bytes consumed hnew hbytes =>
        exact .draining hstage' fun htrue => absurd htrue herror
      | overlong => exact hreaping _ _ _ (hfailed _ rfl)
      | exceeded => exact hreaping _ _ _ (hfailed _ rfl)
      | frame a consumed hnew hbytes htotal =>
        obtain ⟨f, fs, rfl, hline, -⟩ := hunread.exists_front hc hnew hbytes
        have hslice : codec.fromSlice (a ++ [newline]) = some f := by
          rw [← hline, hc.fromSlice_line]
        simp only [Parent.readDraining, hslice] at hdrained ⊢
        have hf : f ∈ s.sent := by
          rw [hunread.sent]
          simp
        let p' : Parent := { s.parent with
          reader := ⟨[], s.parent.reader.total + codec.lineCharge (a ++ [newline])⟩
          drainFrames := s.parent.drainFrames ++ [f] }
        have hdrain : (p'.drain f).drainFrames = s.parent.drainFrames ++ [f] :=
          (Parent.same_drain f).drainFrames
        have hprogram : f.isProgram = false := hdrained f (by
          rw [hdrain]
          simp)
        have hstage₂ : (p'.drain f).stage = s.parent.stage := by
          refine Parent.stage_drain hprogram (hids f hf) ?_
          intro error heq
          exact hund.certain error (heq ▸ hf)
        exact .draining (hstage₂.trans hstage') fun htrue => absurd htrue herror

/-- The drain ends with the stream. -/
theorem Concludes.end_of_stream {rest : List Frame} {fragment : List UInt8}
    (hunread : Unread codec s.parent.reader s.parent.read s.toParent s.sent rest fragment)
    {p : Parent} {success : Bool} (hpipe : s.toParent = [])
    (hexit : s.supervisor.stage = .exited success)
    (hp : s.parent.step host codec (.fill [] s.clock) = some p) (h : Concludes event result s) :
    Concludes event result { s with parent := p } := by
  rcases Parent.step_fill hp with ⟨hstage, -⟩ | ⟨⟨completion, result', hstage⟩, rfl⟩
  · have := h.executing
    rw [hstage] at this
    cases this
  · cases h with
    | reaping _ hstage' | ended _ hstage' =>
      rw [hstage] at hstage'
      cases hstage'
    | draining hstage' hok =>
      have hrest : rest = [] := by
        have hbytes := hunread.bytes
        rw [hpipe, List.append_nil] at hbytes
        cases rest with
        | nil => rfl
        | cons f fs =>
          refine absurd ?_ hunread.partial_open
          rw [hbytes]
          simp [Codec.line]
      have hsent := hunread.sent
      rw [hrest, List.append_nil] at hsent
      simp only [FrameReader.fill, if_true]
      split_ifs with hpending
      · refine .reaping none ?_ ⟨success, hexit⟩ ?_ fun htrue => ⟨(hok htrue).1, rfl⟩
        · simp [Parent.readDraining, Parent.drained, hstage']
        · simp [Parent.readDraining, Parent.drained, hstage', Parent.read, hsent]
      · refine .reaping (some "provider ended inside a frame") ?_ ⟨success, hexit⟩ ?_
          fun htrue => absurd (hok htrue).2.2 hpending
        · simp [Parent.readDraining, Parent.drained, hstage']
        · simp [Parent.readDraining, Parent.drained, hstage', Parent.read, hsent]

/-- The disposition that was set aside becomes the state of the attempt. -/
theorem Concludes.reap (hnoted : s.parent.Noted host codec s.clock) (hund : Undisturbed host codec s)
    {p : Parent} {success : Bool} (hexit : s.supervisor.stage = .exited success)
    (hp : s.parent.step host codec (.exited success) = some p) (h : Concludes event result s) :
    Concludes event result { s with parent := p } := by
  obtain ⟨completion, result', drainError, hstage, rfl⟩ := Parent.step_exited hp
  cases h with
  | draining hstage' | ended _ hstage' =>
    rw [hstage] at hstage'
    cases hstage'
  | reaping drainError' hstage' hexit' hread hok =>
    rw [hstage] at hstage'
    cases hstage'
    have hsame : Parent.Same s.parent
        (s.parent.reap (some event.completion) result drainError success) :=
      Parent.same_reap _ _ _ _
    have hread' : (s.parent.reap (some event.completion) result drainError success).read = s.sent := by
      rw [← hread]
      unfold Parent.read
      rw [hsame.frames, hsame.drainFrames]
    have hid : (s.parent.reap (some event.completion) result drainError success).record.id = s.id :=
      congrArg Record.id hsame.record
    obtain ⟨final, hfinal⟩ :=
      s.parent.stage_reap (some event.completion) result drainError success
    refine .ended final hfinal ⟨success, hexit⟩ ?_
    simp only [System.id, hid, hread']
    intro hreceipt
    have hcleaned : s.parent.cleaned = true := by
      refine hnoted.cleaned ?_ (by rw [hread]; exact hreceipt)
      rw [hread]
      exact hund.certain
    refine ⟨hreceipt, Parent.verdict_reap hcleaned event ?_ hfinal⟩
    intro htrue
    obtain ⟨hexited, hnone⟩ := hok htrue
    exact ⟨hnone, by simpa using hexit.symm.trans hexited⟩

theorem Concludes.step (hc : codec.Lawful)
    (hunread : ∃ rest fragment,
      Unread codec s.parent.reader s.parent.read s.toParent s.sent rest fragment ∧
        (fragment ≠ [] → s.supervisor.stage = .exited false))
    (hlines : ∀ f ∈ s.sent, (codec.line f).length ≤ host.maxFrameBytes)
    (hids : ∀ f ∈ s.sent, f.id = s.id) (hnoted : s.parent.Noted host codec s.clock)
    (hund : Undisturbed host codec s') (h : Concludes event result s)
    (hstep : Step host codec program s s') : Concludes event result s' := by
  have hbefore := hund.of_step hstep
  obtain ⟨rest, fragment, hunread, hfragment⟩ := hunread
  cases hstep with
  | parent event' hexternal hp =>
    have htrue := Parent.cutShort_of_external h.executing hexternal hp
    rw [hund.cutShort] at htrue
    cases htrue
  | parentStart hp =>
    have hexecuting := h.executing
    rw [(Parent.step_startWritten hp).1] at hexecuting
    cases hexecuting
  | parentGrant hstage hp =>
    have hexecuting := h.executing
    rw [hstage] at hexecuting
    cases hexecuting
  | parentFill n hpos hle hp =>
    exact h.fill hc hunread hfragment hlines hids hbefore hpos hle hp hund.drained
  | parentEnded hpipe hexit hp => exact h.end_of_stream hunread hpipe hexit hp
  | parentReaps hexit hp => exact h.reap hnoted hbefore hexit hp
  | supervisorSpawns hstage | supervisorGrants hstage | supervisorLeaves hstage
  | supervisorConfirms hstage | supervisorDoubts hstage | supervisorDelivers hstage =>
    refine h.frame rfl ?_
    intro success hexit
    rw [hexit] at hstage
    cases hstage
  | supervisorForwards hstage hqueue =>
    refine h.frame ?_ ?_
    · unfold System.forward
      dsimp only
      split_ifs
      · rfl
      · rfl
    · intro success hexit
      rw [hexit] at hstage
      cases hstage
  | supervisorExits hopen => exact h.frame rfl fun success hexit => absurd hexit (hopen success)
  | _ => exact h.frame rfl fun success hexit => ⟨hexit, rfl, rfl⟩

/-- A result that the execution has read was the last frame, and nothing is left to read. -/
theorem Wired.after_result (h : Wired host codec s) {rest : List Frame} {fragment : List UInt8}
    (hunread : Unread codec s.parent.reader s.parent.read s.toParent s.sent rest fragment)
    (hfragment : fragment ≠ [] → s.supervisor.stage = .exited false) {frames : List Frame} {f : Frame}
    (hread : s.parent.read = frames ++ [f]) (hresult : f.isResult = true) :
    s.supervisor.stage = .exited true ∧ s.toParent = [] ∧ s.parent.reader.partialBytes = [] := by
  have hpre := h.read_isPrefix
  rw [hread] at hpre
  obtain ⟨-, hsent, hexit⟩ := h.result_last hpre hresult
  have hrest : rest = [] := by
    have hsplit := hunread.sent
    rw [hsent, hread] at hsplit
    simpa using hsplit
  have hempty : fragment = [] := by
    by_contra hne
    have := hfragment hne
    rw [hexit] at this
    cases this
  have hbytes := hunread.bytes
  rw [hrest, hempty] at hbytes
  obtain ⟨hpending, hpipe⟩ := List.append_eq_nil_iff.mp hbytes
  exact ⟨hexit, hpipe, hpending⟩

/-- An event ended the execution, and the attempt has gone on from there. -/
def EndedBy (host : Host) (codec : Codec) (program : Worker) (record : Record) (launch : Launch)
    (event : Parent.Event) (result : Except String Output) (s : System) : Prop :=
  ∃ s₁ s₂, Runs host codec program (.launched record launch) s₁ ∧
    s₁.parent.stage.executing = true ∧ Step host codec program s₁ s₂ ∧
    s₁.parent.step host codec event = some s₂.parent ∧
    s₂.parent.stage = .draining (some event.completion) result ∧ Runs host codec program s₂ s

theorem concludes_of_left (hc : codec.Lawful)
    (hrun : Runs host codec program (.launched record launch) s) (hstep : Step host codec program s s')
    (hund : Undisturbed host codec s') (hexecuting : s.parent.stage.executing = true)
    (hleft : s'.parent.stage.executing = false) :
    ∃ event result, EndedBy host codec program record launch event result s' ∧
      Concludes event result s' := by
  have hrun' := hrun.tail hstep
  have hdisposition : s.parent.disposition = some .inDoubt := by
    rcases (Runs.parent hrun).2 with hcautious | hdecided
    · exact hcautious.undecided.1
    · obtain ⟨result, hended⟩ := hdecided.ended
      rw [hended] at hexecuting
      cases hexecuting
  rcases hstep.parent_cases with hsame | ⟨event, hevent⟩
  · rw [hsame, hexecuting] at hleft
    cases hleft
  · obtain ⟨result, hstage, hok⟩ := Parent.left_of_step hdisposition hexecuting hevent hleft
    refine ⟨event, result, ⟨s, s', hrun, hexecuting, hstep, hevent, hstage, .refl⟩,
      .draining hstage ?_⟩
    intro htrue
    obtain ⟨⟨buffer, elapsed, rfl⟩, frames, f, hframes, hresult⟩ := hok htrue
    have hdrain : s'.parent.drainFrames = [] := by
      rcases Parent.step_fill hevent with ⟨-, hq⟩ | ⟨⟨completion, _, hstage⟩, -⟩
      · rw [hq, (Parent.same_readExecuting host codec _ elapsed _).drainFrames]
        exact (Runs.wired hc hrun).executing hexecuting
      · rw [hstage] at hexecuting
        cases hexecuting
    obtain ⟨rest, fragment, hunread, hfragment⟩ := Runs.unread hc hrun' hund.charges
    have hread : s'.parent.read = frames ++ [f] := by
      rw [Parent.read, hdrain, List.append_nil, hframes]
    exact (Runs.wired hc hrun').after_result hunread hfragment hread hresult

/-- An undisturbed attempt goes on as what ended its execution says. -/
theorem Runs.concludes (hc : codec.Lawful)
    (hconforms : program.Conforms host codec record (.start record) 0)
    (hemits : program.Emits fun f => f.isCleanup = false)
    (hreceipt : (codec.line (.cleanupComplete record.id)).length ≤ host.maxFrameBytes)
    (hrun : Runs host codec program (.launched record launch) s) (hund : Undisturbed host codec s) :
    s.parent.stage.executing = true ∨ s.parent.startDelivered = false ∧
        (∃ final, s.parent.stage = .ended final) ∨
      ∃ event result, EndedBy host codec program record launch event result s ∧
        Concludes event result s := by
  induction hrun with
  | refl =>
    cases launch with
    | launched => exact .inl rfl
    | expired | refused _ | unrestored _ | unidentified _ => exact .inr (.inl ⟨rfl, _, rfl⟩)
  | @tail s s' hrun hstep ih =>
    have hbefore := hund.of_step hstep
    rcases ih hbefore with hexecuting | ⟨hstart, final, hended⟩ | ⟨event, result, hby, hconcludes⟩
    · cases hleft : s'.parent.stage.executing with
      | true => exact .inl rfl
      | false => exact .inr (.inr (concludes_of_left hc hrun hstep hund hexecuting hleft))
    · rcases hstep.parent_cases with hsame | ⟨event, hevent⟩
      · rw [hsame]
        exact .inr (.inl ⟨hstart, final, hended⟩)
      · rw [Parent.step_ended hended] at hevent
        cases hevent
    · obtain ⟨s₁, s₂, h₁, hexecuting, hstep₁, hevent, hstage, h₂⟩ := hby
      have hwired := Runs.wired hc hrun
      have hid : s.id = record.id := congrArg Record.id (Runs.parent hrun).1
      obtain ⟨c, haccept⟩ := (Runs.orderly hconforms hrun).accept_sent hwired hid
      refine .inr (.inr ⟨event, result,
        ⟨s₁, s₂, h₁, hexecuting, hstep₁, hevent, hstage, h₂.tail hstep⟩, ?_⟩)
      refine hconcludes.step hc (Runs.unread hc hrun hbefore.charges) ?_ ?_
        (Runs.noted hc hconforms hemits hrun) hund hstep
      · exact hwired.line_sent (Runs.line_emitted hrun) (hid ▸ hreceipt) hbefore.certain
      · intro f hf
        rw [hid]
        exact Session.id_of_acceptAll haccept f hf

/-- A worker that keeps the protocol has no frame refused, unless a group is read by the drain. If
moreover the stream has room for the receipt and the end is not cut short, the parent reads the
receipt of a confirmed cleanup, and what ended the execution is the outcome. -/
theorem receipt_recognised {σ : Type} {provider : Provider σ} {pid : ℕ} {state : σ}
    (hc : codec.Lawful) (hfollows : provider.Follows host record state)
    (hrun : Runs host codec (work host provider codec record pid state) (.launched record launch) s)
    (hdrained : ∀ f ∈ s.parent.drainFrames, f.isProgram = false) :
    s.parent.refused = false ∧
      ∀ outcome, s.parent.outcome = some outcome → .cleanupComplete record.id ∈ s.sent →
        s.parent.cutShort = false → charges codec s.sent ≤ host.providerStreamBytes →
        (codec.line (.cleanupComplete record.id)).length ≤ host.maxFrameBytes →
        .cleanupComplete record.id ∈ s.parent.read ∧
          ∃ event result, EndedBy host codec (work host provider codec record pid state) record launch
            event result s ∧ outcome.state = event.verdict result := by
  have hconforms : (work host provider codec record pid state).Conforms host codec record
      (.start record) 0 := conforms_work hfollows pid
  have hemits : (work host provider codec record pid state).Emits fun f => f.isCleanup = false :=
    isCleanup_work provider pid state
  have hnoted := Runs.noted hc hconforms hemits hrun
  have hwired := Runs.wired hc hrun
  have hid : s.id = record.id := congrArg Record.id (Runs.parent hrun).1
  refine ⟨hnoted.refused hdrained, ?_⟩
  intro outcome houtcome hsent hcutShort hcharges hline
  rw [← hid] at hsent ⊢
  have hund : Undisturbed host codec s :=
    ⟨hdrained, hcharges, hwired.not_doubted (Runs.emits hemits hrun).2 hsent, hcutShort⟩
  unfold Parent.outcome at houtcome
  split at houtcome
  · next final hstage =>
    cases houtcome
    rcases Runs.concludes hc hconforms hemits hline hrun hund with
      hexecuting | ⟨hstart, -⟩ | ⟨event, result, hby, hconcludes⟩
    · rw [hstage] at hexecuting
      cases hexecuting
    · rw [(hwired.unstarted hstart).2.1] at hsent
      cases hsent
    · cases hconcludes with
      | draining hstage' | reaping _ hstage' =>
        rw [hstage] at hstage'
        cases hstage'
      | ended final' hstage' _ hverdict =>
        rw [hstage] at hstage'
        cases hstage'
        obtain ⟨hread, hstate⟩ := hverdict hsent
        exact ⟨hread, event, result, hby, hstate⟩
  · cases houtcome

/-- The texts of an attempt that streams a group. -/
def groupTexts : List (Frame × List UInt8) := [
  (.ready 1 "0" 2, asciiBytes
    "\x7b\"event\":\"ready\",\"id\":1,\"binding\":\"0\",\"pid\":2\x7d"),
  (.feedback 1 .setup ⟨0, 0, none, none, ⟨0, 0⟩, true⟩, asciiBytes
      "\x7b\"event\":\"feedback\",\"id\":1,\"phase\":\x7b\"phase\":\"setup\"\x7d,\"sample\":\x7b" ++
    asciiBytes
      "\"elapsed_nanos\":0,\"blocked_nanos\":0,\"cpu_nanos\":null,\"peak_rss_bytes\":null," ++
    asciiBytes "\"check\":\x7b\"units\":0,\"nanos\":0\x7d,\"succeeded\":true\x7d\x7d"),
  (.reserve 1 1, asciiBytes "\x7b\"event\":\"reserve\",\"id\":1,\"next\":1\x7d"),
  (.program 1 1 [.seal 0], asciiBytes
    "\x7b\"event\":\"program\",\"id\":1,\"unit\":1,\"records\":[\x7b\"op\":\"seal\",\"proof\":0\x7d]\x7d"),
  (.cleanupComplete 1, asciiBytes "\x7b\"event\":\"cleanup_complete\",\"id\":1\x7d")]

set_option maxRecDepth 10000 in
theorem isTable_groupTexts : IsTable groupTexts 256 := by
  unfold groupTexts
  rw [asciiBytes_ofList, asciiBytes_ofList, asciiBytes_ofList, asciiBytes_ofList,
    asciiBytes_ofList, asciiBytes_ofList, asciiBytes_ofList]
  decide

/-- A provider of one unit that streams one group. -/
def groupProvider : Provider Unit where
  start s := .pure (.ok (), s)
  next _ checkpoint := .ok (if checkpoint = 0 then some 1 else none)
  execute s unit := .call (.program unit [.seal 0]) fun answer => .pure (answer.mapError .failed, s)
  result s := .pure (.ok (.program 1), s)

/-- A job of one streamed unit. -/
def groupRecord : Record := smallRecord (.solve "question") { MockWork.standard with programUnits := 1 }

theorem next_groupProvider {k n : ℕ} (h : groupProvider.next () k = .ok (some n)) :
    k = 0 ∧ n = 1 := by
  simp only [groupProvider, Except.ok.injEq, Option.ite_none_right_eq_some, Option.some.injEq] at h
  exact ⟨h.1, h.2.symm⟩

theorem follows_groupProvider : groupProvider.Follows smallHost groupRecord () := by
  refine ⟨fun _ checkpoint => checkpoint ≤ 1, ⟨?_, ?_, ?_, ?_, ?_⟩, ⟨by rintro _ ⟨⟩, fun _ => by decide⟩⟩
  · rintro _ _ _ _ ⟨⟩
  · intro s k hk hnext
    have hpos : k ≠ 0 := by
      rintro rfl
      cases hnext
    have hone : k = 1 := by omega
    rw [hone]
    decide
  · intro s k n hk hnext
    obtain ⟨rfl, rfl⟩ := next_groupProvider hnext
    decide
  · intro s k n hk hnext
    obtain ⟨rfl, rfl⟩ := next_groupProvider hnext
    refine ⟨⟨rfl, rfl⟩, ?_⟩
    intro answer
    cases answer with
    | error error => exact ⟨by rintro _ ⟨⟩, by rintro ⟨⟩⟩
    | ok => exact ⟨by rintro _ ⟨⟩, fun _ => le_rfl⟩
  · rintro _ _ _ _ _ ⟨⟩

/-- The worker is spawned and cancelled; the supervisor confirms its cleanup. -/
theorem cancelled_recognised :
    ∃ (codec : Codec) (s : System) (outcome : Completed), codec.Lawful ∧
      (∀ e ∈ groupTexts, codec.toVec e.1 = e.2) ∧
      Runs smallHost codec (work smallHost groupProvider codec groupRecord 2 ())
        (.launched groupRecord .launched) s ∧
      s.parent.outcome = some outcome ∧ s.parent.refused = false ∧
      .cleanupComplete 1 ∈ s.parent.read ∧ outcome.state = .cancelled ∧
      ∃ event result, outcome.state = Parent.Event.verdict event result := by
  obtain ⟨toVec, fromSlice, hc, htexts, hlength⟩ :=
    exists_codec_table isTable_groupTexts (fun _ => "0") 0
  let codec : Codec := ⟨toVec, fromSlice, fun _ => "0", 0⟩
  have hlawful : codec.Lawful := hc
  let receipt : Frame := .cleanupComplete 1
  have hreceipt : (codec.line receipt).length ≤ 256 := hlength _ (by simp [groupTexts, receipt])
  have hmax : 256 ≤ smallHost.maxFrameBytes := by decide
  have hstream : 256 ≤ smallHost.providerStreamBytes := by decide
  let program := work smallHost groupProvider codec groupRecord 2 ()
  let s₀ := System.spawned groupRecord program
  have hidle₀ : Idle s₀ 0 := idle_spawned groupRecord
  let s₁ : System := { s₀ with parent := s₀.parent.leaveWith .cancelled "research cancelled" }
  have h₁ : Step smallHost codec program s₀ s₁ := .parent .cancelled rfl rfl
  have hidle₁ : Idle s₁ 0 := ⟨⟨rfl, rfl, rfl, rfl⟩, rfl, rfl, le_rfl, le_rfl⟩
  have hid : .cleanupComplete s₁.id = receipt := rfl
  obtain ⟨s, h₂, hemitted, hsent, hdrained, hcutShort, hstage, hdisposition⟩ :=
    Runs.close smallHost program hlawful hidle₁ rfl (by rw [hid]; omega) (by rw [hid]; omega)
  have hrun : Runs smallHost codec program (.launched groupRecord .launched) s :=
    ((Runs.spawn groupRecord).tail h₁).trans h₂
  have houtcome : s.parent.outcome = some ⟨.cancelled, .error "research cancelled"⟩ := by
    unfold Parent.outcome
    rw [hstage, hdisposition]
    rfl
  have hsent : s.sent = [receipt] := hsent
  have hdrained : s.parent.drainFrames = [receipt] := hdrained
  obtain ⟨hrefused, hrecognised⟩ := receipt_recognised hlawful follows_groupProvider hrun
    (by simp [hdrained, receipt, Frame.isProgram])
  have hcharges : charges codec s.sent ≤ smallHost.providerStreamBytes := by
    have hcharge := codec.lineCharge_le (codec.line receipt)
    simp only [hsent, charges, List.map_cons, List.map_nil, List.sum_cons, List.sum_nil]
    omega
  have hmem : .cleanupComplete groupRecord.id ∈ s.sent := by
    rw [hsent]
    exact List.mem_cons_self
  obtain ⟨hread, event, result, -, hverdict⟩ :=
    hrecognised _ houtcome hmem hcutShort hcharges (hreceipt.trans hmax)
  exact ⟨codec, s, _, hlawful, htexts, hrun, houtcome, hrefused, hread, rfl, event, result, hverdict⟩

/-- The worker up to its first group. -/
theorem worker_group (toVec : Frame → List UInt8) (fromSlice : List UInt8 → Option Frame) :
    ∃ setup, work smallHost groupProvider ⟨toVec, fromSlice, fun _ => "0", 0⟩ groupRecord 2 () =
        .emit (.ready 1 "0" 2) setup ∧
      ∃ driving, setup (.ok ()) = .read (fun first => .read fun last =>
        .emit (.feedback 1 .setup (measurement first last true)) driving) ∧
      ∃ reserved, driving (.ok ()) = .emit (.reserve 1 1) reserved ∧
      ∃ received, reserved (.ok ()) = .receive received ∧
      ∃ measuring, received (some ⟨1, 1⟩) = .execute 1 (.read measuring) ∧
        ∀ reading, ∃ grouped, measuring reading = .emit (.program 1 1 [.seal 0]) grouped := by
  have hunits : u32Limit - 1 - groupRecord.checkpoint = (u32Limit - 2) + 1 := by decide
  refine ⟨_, rfl, ?_⟩
  simp only [drive, hunits]
  refine ⟨_, rfl, ?_⟩
  simp only [Except.map]
  unfold driveUnits
  refine ⟨_, rfl, ?_⟩
  refine ⟨_, rfl, ?_⟩
  refine ⟨_, rfl, ?_⟩
  exact fun reading => ⟨_, rfl⟩

/-- A group is on its way when the attempt is cancelled: the drain refuses it and never reads the
receipt. -/
theorem drained_group_inDoubt :
    ∃ (codec : Codec) (s : System) (outcome : Completed), codec.Lawful ∧
      (∀ e ∈ groupTexts, codec.toVec e.1 = e.2) ∧
      groupProvider.Follows smallHost groupRecord () ∧
      Runs smallHost codec (work smallHost groupProvider codec groupRecord 2 ())
        (.launched groupRecord .launched) s ∧
      s.parent.outcome = some outcome ∧ .cleanupComplete 1 ∈ s.sent ∧ s.parent.cutShort = false ∧
      charges codec s.sent ≤ smallHost.providerStreamBytes ∧
      s.parent.refused = true ∧ .cleanupComplete 1 ∉ s.parent.read ∧ outcome.state = .inDoubt := by
  obtain ⟨toVec, fromSlice, hc, htexts, hlength⟩ :=
    exists_codec_table isTable_groupTexts (fun _ => "0") 0
  let codec : Codec := ⟨toVec, fromSlice, fun _ => "0", 0⟩
  have hlawful : codec.Lawful := hc
  let ready : Frame := .ready 1 "0" 2
  let feedback : Frame := .feedback 1 .setup ⟨0, 0, none, none, ⟨0, 0⟩, true⟩
  let reserve : Frame := .reserve 1 1
  let group : Frame := .program 1 1 [.seal 0]
  let receipt : Frame := .cleanupComplete 1
  have hready : (codec.line ready).length ≤ 256 := hlength _ (by simp [groupTexts, ready])
  have hfeedback : (codec.line feedback).length ≤ 256 := hlength _ (by simp [groupTexts, feedback])
  have hreserve : (codec.line reserve).length ≤ 256 := hlength _ (by simp [groupTexts, reserve])
  have hgroup : (codec.line group).length ≤ 256 := hlength _ (by simp [groupTexts, group])
  have hreceipt : (codec.line receipt).length ≤ 256 := hlength _ (by simp [groupTexts, receipt])
  have hmax : 256 ≤ smallHost.maxFrameBytes := by decide
  have hstream : 5 * 256 ≤ smallHost.providerStreamBytes := by decide
  let program := work smallHost groupProvider codec groupRecord 2 ()
  let reading : Reading := ⟨0, none, none, ⟨0, 0⟩, 0⟩
  obtain ⟨setup, hsetup, driving, hdriving, reserved, hreserved, received, hreceived, measuring,
    hmeasuring, hgrouped⟩ := worker_group toVec fromSlice
  obtain ⟨grouped, hgrouped⟩ := hgrouped reading
  -- the worker is ready and has measured its setup
  let s₀ := System.spawned groupRecord program
  have hidle₀ : Idle s₀ 0 := idle_spawned groupRecord
  let s₁ := s₀.delivered smallHost codec ready setup
  obtain ⟨h₁, hidle₁⟩ : Runs smallHost codec program s₀ s₁ ∧ Idle s₁ (0 + (codec.line ready).length) :=
    Runs.deliver hlawful hidle₀ hsetup rfl rfl (by omega) (by omega)
  let s₂ : System := { s₁ with worker := .emit feedback driving }
  have h₂ : Runs smallHost codec program s₁ s₂ := by
    let halfway : Worker := .read fun last =>
      .emit (.feedback 1 .setup (measurement reading last true)) driving
    have hfirst : Step smallHost codec program s₁ _ :=
      .workerReads rfl hdriving reading rfl (by simp [reading])
    have hlast : Step smallHost codec program { s₁ with worker := halfway } _ :=
      .workerReads rfl rfl reading rfl (by simp [reading])
    exact (Relation.ReflTransGen.single hfirst).tail hlast
  have hidle₂ : Idle s₂ (0 + (codec.line ready).length) := hidle₁.setWorker _
  let s₃ := s₂.delivered smallHost codec feedback driving
  obtain ⟨h₃, hidle₃⟩ : Runs smallHost codec program s₂ s₃ ∧ Idle s₃ _ :=
    Runs.deliver hlawful hidle₂ rfl rfl rfl (by omega) (by omega)
  -- its unit is reserved and granted
  let s₄ := s₃.delivered smallHost codec reserve reserved
  obtain ⟨h₄, hidle₄⟩ : Runs smallHost codec program s₃ s₄ ∧ Idle s₄ _ :=
    Runs.deliver hlawful hidle₃ hreserved rfl rfl (by omega) (by omega)
  let p₅ : Parent := { s₄.parent with stage := .granting 1 (some 1) }
  let s₅ : System := { s₄ with parent := p₅ }
  have h₅ : Step smallHost codec program s₄ s₅ := .parent (.answered (.ok ())) rfl rfl
  have hidle₅ : Idle s₅ _ := ⟨⟨rfl, rfl, rfl, rfl⟩, rfl, rfl, hidle₄.supervisorTotal, hidle₄.readerTotal⟩
  have h₆ : Runs smallHost codec program s₅ _ := Runs.grant hidle₅ rfl rfl rfl hreceived
  let p₆ : Parent := { p₅ with outstanding := some 1, stage := .reading }
  let s₆ : System := { s₅ with parent := p₆, worker := received (some ⟨1, 1⟩) }
  -- the worker begins it and streams a group
  let s₇ : System := { s₆ with worker := .emit group grouped, executed := [1] }
  have h₇ : Runs smallHost codec program s₆ s₇ := by
    have hexecutes : Step smallHost codec program s₆ _ := .workerExecutes rfl hmeasuring
    have hreads : Step smallHost codec program { s₆ with worker := .read measuring, executed := [1] }
        _ := .workerReads rfl rfl reading rfl (by simp [reading])
    simp only [hgrouped] at hreads
    exact (Relation.ReflTransGen.single hexecutes).tail hreads
  have hidle₇ : Idle s₇ _ :=
    ⟨⟨rfl, rfl, rfl, rfl⟩, rfl, rfl, hidle₄.supervisorTotal, hidle₄.readerTotal⟩
  let s₈ := s₇.forwarded codec group grouped
  have h₈ : Runs smallHost codec program s₇ s₈ :=
    Runs.forward hlawful hidle₇ rfl rfl (by omega) (by omega)
  -- the attempt is cancelled and its drain refuses the group
  let p₉ : Parent := p₆.leaveWith .cancelled "research cancelled"
  let s₉ : System := { s₈ with parent := p₉ }
  have h₉ : Step smallHost codec program s₈ s₉ := .parent .cancelled rfl rfl
  have htotal : p₉.reader.total + codec.lineCharge (codec.line group) ≤
      smallHost.providerStreamBytes := by
    have hreader : p₉.reader.total ≤ _ := hidle₄.readerTotal
    have hcharge := codec.lineCharge_le (codec.line group)
    omega
  let p₁₀ : Parent := { p₉ with
    reader := p₉.reader.after codec group, drainFrames := [group] }.drain group
  let s₁₀ : System := { s₉ with parent := p₁₀, toParent := [] }
  have h₁₀ : Step smallHost codec program s₉ s₁₀ := by
    have hfill := fill_line hlawful (show p₉.reader.partialBytes = [] from rfl)
      (hgroup.trans hmax) htotal
    have hstep : p₉.step smallHost codec (.fill (codec.line group) s₉.clock) = some p₁₀ :=
      step_fill_draining hlawful rfl rfl (hgroup.trans hmax) htotal s₉.clock
    rw [← List.take_length (l := codec.line group)] at hstep
    have hreads : Step smallHost codec program s₉ _ :=
      .parentFill (codec.line group).length (by simp [Codec.line]) le_rfl hstep
    have hpipe : s₉.toParent = codec.line group := rfl
    have hreader : s₉.parent.reader = p₉.reader := rfl
    simpa [hpipe, hreader, hfill] using hreads
  -- the supervisor confirms its cleanup and is reaped
  let s₁₁ := { (s₁₀.supervise .finishing).supervise .cleaned with alive := false }.send codec receipt
  have h₁₁ : Runs smallHost codec program s₁₀ s₁₁ :=
    (Relation.ReflTransGen.single (.supervisorLeaves rfl)).tail (.supervisorConfirms rfl)
  let s₁₂ : System := { s₁₁.supervise (.exited false) with toParent := s₁₁.toParent ++ [] }
  have hopen : ∀ success, Supervision.cleaned ≠ .exited success := by rintro _ ⟨⟩
  have h₁₂ : Step smallHost codec program s₁₁ s₁₂ := .supervisorExits hopen [] (by rintro ⟨⟩)
  let error := "provider cleanup receipt is absent; recovery is uncertain"
  let s₁₃ : System := { s₁₂ with
    parent := { p₁₀ with disposition := some .inDoubt, stage := .ended (.error error) } }
  have h₁₃ : Step smallHost codec program s₁₂ s₁₃ := .parentReaps rfl rfl
  have hrun : Runs smallHost codec program (.launched groupRecord .launched) s₁₃ := by
    have hgranted := (((((Runs.spawn groupRecord).trans h₁).trans h₂).trans h₃).trans h₄).tail h₅
    have hcancelled := (((hgranted.trans h₆).trans h₇).trans h₈).tail h₉
    exact (((hcancelled.tail h₁₀).trans h₁₁).tail h₁₂).tail h₁₃
  have hcharges : charges codec s₁₃.sent ≤ smallHost.providerStreamBytes := by
    have hsent : s₁₃.sent = [ready, feedback, reserve, group, receipt] := rfl
    have hline := fun f => codec.lineCharge_le (codec.line f)
    have := hline ready
    have := hline feedback
    have := hline reserve
    have := hline group
    have := hline receipt
    simp only [hsent, charges, List.map_cons, List.map_nil, List.sum_cons, List.sum_nil]
    omega
  refine ⟨codec, s₁₃, ⟨.inDoubt, .error error⟩, hlawful, htexts, follows_groupProvider, hrun, rfl, ?_,
    rfl, hcharges, rfl, ?_, rfl⟩
  · exact List.mem_append_right _ List.mem_cons_self
  · have hread : s₁₃.parent.read = [ready, feedback, reserve, group] := rfl
    rw [hread]
    simp [ready, feedback, reserve, group]

end Conclusion

end Naome.Jobs.Process
