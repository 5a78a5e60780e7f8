import Naome.ProviderSystem

/-!
# The frames in the pipes

Every byte on its way belongs to a frame of the worker or to a receipt of the supervisor, in the
order they were written.
-/
namespace Naome.Jobs.Process

theorem lineEnd_of_notMem {bytes : List UInt8} (h : newline ∉ bytes) :
    lineEnd bytes = bytes.length := by
  unfold lineEnd
  rw [List.findIdx?_eq_none_iff.mpr]
  intro b hb
  simp only [decide_eq_false_iff_not]
  rintro rfl
  exact h hb

theorem lineEnd_append {a b : List UInt8} (h : newline ∉ a) :
    lineEnd (a ++ newline :: b) = a.length + 1 := by
  unfold lineEnd
  have hidx : (a ++ newline :: b).findIdx? (fun x => decide (x = newline)) = some a.length := by
    rw [List.findIdx?_append, List.findIdx?_eq_none_iff.mpr]
    · simp [List.findIdx?_cons]
    · intro x hx
      simp only [decide_eq_false_iff_not]
      rintro rfl
      exact h hx
  rw [hidx]

theorem exists_line {bytes : List UInt8} (h : newline ∈ bytes) :
    ∃ a b, newline ∉ a ∧ bytes = a ++ newline :: b := by
  obtain ⟨a, b, hbytes, ha⟩ := List.eq_append_cons_of_mem h
  exact ⟨a, b, ha, hbytes⟩

section Stream

variable (codec : Codec)

/-- The bytes of frames one after another. -/
def stream (frames : List Frame) : List UInt8 := frames.flatMap codec.line

@[simp] theorem stream_nil : stream codec [] = [] := rfl

@[simp] theorem stream_cons (f : Frame) (frames : List Frame) :
    stream codec (f :: frames) = codec.line f ++ stream codec frames := rfl

@[simp] theorem stream_append (frames frames' : List Frame) :
    stream codec (frames ++ frames') = stream codec frames ++ stream codec frames' :=
  List.flatMap_append

variable {codec}

/-- A line at the front of a stream is the first frame. -/
theorem exists_first_frame (hc : codec.Lawful) {a rest fragment : List UInt8} {frames : List Frame}
    (ha : newline ∉ a) (hfragment : newline ∉ fragment)
    (h : a ++ newline :: rest = stream codec frames ++ fragment) :
    ∃ f fs, frames = f :: fs ∧ codec.line f = a ++ [newline] ∧ rest = stream codec fs ++ fragment := by
  cases frames with
  | nil =>
    refine absurd ?_ hfragment
    simp only [stream_nil, List.nil_append] at h
    simp [← h]
  | cons f fs =>
    have hsplit : a ++ newline :: rest =
        codec.toVec f ++ newline :: (stream codec fs ++ fragment) := by
      simpa [Codec.line] using h
    have hlength : a.length = (codec.toVec f).length := by
      have hend := congrArg lineEnd hsplit
      rw [lineEnd_append ha, lineEnd_append (hc.newline_notMem f)] at hend
      omega
    obtain ⟨hline, hrest⟩ := List.append_inj hsplit hlength
    exact ⟨f, fs, rfl, by rw [Codec.line, hline], (List.cons.inj hrest).2⟩

end Stream

namespace FrameReader

variable {host : Host} {codec : Codec} {r : FrameReader}

variable (codec) in
/-- A reader beyond the limit of the stream returns no frame any more. -/
theorem fill_of_exceeded (h : host.providerStreamBytes < r.total) (buffer : List UInt8) :
    (∀ bytes, (r.fill host codec buffer).1 ≠ .frame bytes) ∧
      host.providerStreamBytes < (r.fill host codec buffer).2.1.total := by
  unfold fill
  dsimp only
  split_ifs with hend hpending hlong hline htotal
  · exact ⟨by rintro _ ⟨⟩, h⟩
  · exact ⟨by rintro _ ⟨⟩, h⟩
  · exact ⟨by rintro _ ⟨⟩, h⟩
  · exact ⟨by rintro _ ⟨⟩, Nat.lt_of_lt_of_le h (Nat.le_add_right _ _)⟩
  · exact absurd (Nat.lt_of_lt_of_le h (Nat.le_add_right _ _)) htotal
  · exact ⟨by rintro _ ⟨⟩, h⟩

/-- What one round does to a stream whose unread bytes are `pipe`. -/
inductive Fills (host : Host) (codec : Codec) (r : FrameReader) (pipe : List UInt8) :
    Filled × FrameReader × ℕ → Prop
  | more (bytes : List UInt8) (consumed : ℕ) (hnew : newline ∉ bytes)
      (hbytes : bytes ++ pipe.drop consumed = r.partialBytes ++ pipe) :
    Fills host codec r pipe (.more, ⟨bytes, r.total⟩, consumed)
  | frame (a : List UInt8) (consumed : ℕ) (hnew : newline ∉ a)
      (hbytes : a ++ newline :: pipe.drop consumed = r.partialBytes ++ pipe)
      (htotal : r.total + codec.lineCharge (a ++ [newline]) ≤ host.providerStreamBytes) :
    Fills host codec r pipe
      (.frame (a ++ [newline]), ⟨[], r.total + codec.lineCharge (a ++ [newline])⟩, consumed)
  | overlong (bytes rest : List UInt8) (hnew : newline ∉ bytes.dropLast)
      (hbytes : bytes ++ rest = r.partialBytes ++ pipe) (hlong : host.maxFrameBytes < bytes.length) :
    Fills host codec r pipe (.failed "provider frame capacity", r, 0)
  | exceeded (a : List UInt8) (consumed : ℕ) (hnew : newline ∉ a)
      (hbytes : a ++ newline :: pipe.drop consumed = r.partialBytes ++ pipe)
      (htotal : host.providerStreamBytes < r.total + codec.lineCharge (a ++ [newline])) :
    Fills host codec r pipe (.failed "provider stream capacity",
      ⟨a ++ [newline], r.total + codec.lineCharge (a ++ [newline])⟩, consumed)

variable (host codec) in
theorem fills (hpending : newline ∉ r.partialBytes) {pipe : List UInt8} {n : ℕ} (hpos : 0 < n)
    (hle : n ≤ pipe.length) : Fills host codec r pipe (r.fill host codec (pipe.take n)) := by
  have hbuffer : pipe.take n ≠ [] := by
    intro h
    have := congrArg List.length h
    simp only [List.length_take, List.length_nil] at this
    omega
  have hpipe := List.take_append_drop n pipe
  unfold fill
  rw [if_neg hbuffer]
  by_cases hnew : newline ∈ pipe.take n
  · obtain ⟨a, b, ha, hline⟩ := exists_line hnew
    have hlast : (r.partialBytes ++ (pipe.take n).take (lineEnd (pipe.take n))) =
        (r.partialBytes ++ a) ++ [newline] := by
      rw [hline, lineEnd_append ha]
      simp [List.take_append]
    have hend : lineEnd (pipe.take n) = a.length + 1 := by rw [hline, lineEnd_append ha]
    have hdrop : pipe.drop (lineEnd (pipe.take n)) = b ++ pipe.drop n := by
      rw [hend]
      conv_lhs => rw [← hpipe, hline]
      simp [List.drop_append]
    have hsplit : (r.partialBytes ++ a) ++ newline :: pipe.drop (lineEnd (pipe.take n)) =
        r.partialBytes ++ pipe := by
      rw [hdrop]
      conv_rhs => rw [← hpipe, hline]
      simp
    have hnotMem : newline ∉ r.partialBytes ++ a := by simp [hpending, ha]
    have hlength : r.partialBytes.length + lineEnd (pipe.take n) =
        (r.partialBytes ++ a ++ [newline]).length := by
      simp [hend]
    simp only [hlast, List.getLast?_append, List.getLast?_singleton, Option.some_or]
    split_ifs with hlong htotal
    · refine .overlong (r.partialBytes ++ a ++ [newline]) (pipe.drop (lineEnd (pipe.take n)))
        (by simpa using hnotMem) (by simpa using hsplit) (by omega)
    · exact .exceeded _ _ hnotMem hsplit htotal
    · exact .frame _ _ hnotMem hsplit (by omega)
  · have hend := lineEnd_of_notMem hnew
    have htake : (pipe.take n).take (lineEnd (pipe.take n)) = pipe.take n := by
      rw [hend, List.take_length]
    have hdrop : pipe.drop (lineEnd (pipe.take n)) = pipe.drop n := by
      rw [hend, List.length_take, Nat.min_eq_left hle]
    have hnotMem : newline ∉ r.partialBytes ++ pipe.take n := by simp [hpending, hnew]
    have hlast : (r.partialBytes ++ pipe.take n).getLast? ≠ some newline := by
      intro h
      exact hnotMem (List.mem_of_getLast? h)
    have hsplit : (r.partialBytes ++ pipe.take n) ++ pipe.drop n = r.partialBytes ++ pipe := by
      rw [List.append_assoc, hpipe]
    rw [htake, if_neg hlast]
    split_ifs with hlong
    · refine .overlong (r.partialBytes ++ pipe.take n) (pipe.drop n)
        (fun h => hnotMem (List.mem_of_mem_dropLast h)) hsplit ?_
      rw [hend] at hlong
      simpa using hlong
    · exact .more _ _ hnotMem (by rw [hdrop, hsplit])

end FrameReader

namespace Parent

variable {host : Host} {codec : Codec} {p q : Parent}

/-- All frames that were read. -/
def read (p : Parent) : List Frame := p.frames ++ p.drainFrames

/-- The record, the reader and the history of frames are the same. -/
structure Same (p q : Parent) : Prop where
  record : q.record = p.record
  reader : q.reader = p.reader
  frames : q.frames = p.frames
  drainFrames : q.drainFrames = p.drainFrames
  startDelivered : q.startDelivered = p.startDelivered

theorem same_leave (result : Except String Output) : Same p (p.leave result) :=
  ⟨rfl, rfl, rfl, rfl, rfl⟩

theorem same_leaveWith (state : State) (error : String) : Same p (p.leaveWith state error) :=
  ⟨rfl, rfl, rfl, rfl, rfl⟩

theorem same_drained (error : Option String) : Same p (p.drained error) := by
  unfold drained
  split <;> exact ⟨rfl, rfl, rfl, rfl, rfl⟩

theorem same_cutShort (error : Option String) :
    Same p ({ p with cutShort := true }.drained error) := by
  have h : Same { p with cutShort := true } ({ p with cutShort := true }.drained error) :=
    same_drained error
  exact ⟨h.record, h.reader, h.frames, h.drainFrames, h.startDelivered⟩

theorem same_accept (elapsed : ℕ) (f : Frame) : Same p (p.accept host codec elapsed f) := by
  cases f <;> simp only [accept, acceptIf, acceptFeedback, acceptReserve, acceptProgram,
    acceptResult] <;> repeat' split
  all_goals exact ⟨rfl, rfl, rfl, rfl, rfl⟩

theorem same_drain (f : Frame) : Same p (p.drain f) := by
  cases f <;> simp only [drain, drained] <;> repeat' split
  all_goals exact ⟨rfl, rfl, rfl, rfl, rfl⟩

theorem same_answered {reply : Except String Unit} (h : p.answered reply = some q) : Same p q := by
  unfold answered at h
  split at h
  all_goals cases h
  all_goals first | exact ⟨rfl, rfl, rfl, rfl, rfl⟩ | skip
  split <;> exact ⟨rfl, rfl, rfl, rfl, rfl⟩

theorem same_reap (completion : Option State) (result : Except String Output)
    (drainError : Option String) (success : Bool) :
    Same p (p.reap completion result drainError success) := by
  unfold reap
  dsimp only
  split_ifs <;> exact ⟨rfl, rfl, rfl, rfl, rfl⟩

theorem same_of_external {event : Event} (hexternal : event.isExternal = true)
    (h : p.step host codec event = some q) : Same p q := by
  cases event with
  | startWritten | fill _ _ | grantWritten | exited _ => cases hexternal
  | answered reply => exact same_answered h
  | cancelled | expired =>
    simp only [step, Option.ite_none_right_eq_some, Option.some.injEq] at h
    obtain ⟨-, rfl⟩ := h
    exact same_leaveWith _ _
  | startFailed _ | readFailed _ | grantFailed _ | drainDeadline | waitFailed _ | reapDeadline =>
    unfold step at h
    split at h
    all_goals first | cases h | skip
    all_goals first
      | exact same_leave _ | exact same_cutShort _ | exact ⟨rfl, rfl, rfl, rfl, rfl⟩ | contradiction

theorem step_startWritten (h : p.step host codec .startWritten = some q) :
    p.stage = .starting ∧ q = { p with startDelivered := true, stage := .reading } := by
  unfold step at h
  split at h
  all_goals first | contradiction | skip
  exact ⟨by assumption, (Option.some.inj h).symm⟩

theorem step_grantWritten (h : p.step host codec .grantWritten = some q) :
    ∃ next outstanding, p.stage = .granting next outstanding ∧
      q = { p with outstanding := outstanding, stage := .reading } := by
  unfold step at h
  split at h
  all_goals first | contradiction | skip
  exact ⟨_, _, by assumption, (Option.some.inj h).symm⟩

theorem step_exited {success : Bool} (h : p.step host codec (.exited success) = some q) :
    ∃ completion result drainError, p.stage = .reaping completion result drainError ∧
      q = p.reap completion result drainError success := by
  unfold step at h
  split at h
  all_goals first | contradiction | skip
  next heq hstage =>
    cases heq
    exact ⟨_, _, _, hstage, (Option.some.inj h).symm⟩

/-- One round of reading, in the execution or in the drain. -/
theorem step_fill {buffer : List UInt8} {elapsed : ℕ}
    (h : p.step host codec (.fill buffer elapsed) = some q) :
    (p.stage = .reading ∧ q = { p with reader := (p.reader.fill host codec buffer).2.1 }.readExecuting
        host codec elapsed (p.reader.fill host codec buffer).1) ∨
      (∃ completion result, p.stage = .draining completion result) ∧
        q = { p with reader := (p.reader.fill host codec buffer).2.1 }.readDraining codec
          (p.reader.fill host codec buffer).1 := by
  unfold step at h
  split at h
  all_goals first | contradiction | skip
  · next heq hstage =>
    cases heq
    exact .inl ⟨hstage, (Option.some.inj h).symm⟩
  · next heq hstage =>
    cases heq
    exact .inr ⟨⟨_, _, hstage⟩, (Option.some.inj h).symm⟩

/-- An execution that was left is not entered again. -/
theorem executing_drained {error : Option String} (h : p.stage.executing = false) :
    (p.drained error).stage.executing = false := by
  unfold drained
  split
  · rfl
  · exact h

theorem executing_drain {f : Frame} (h : p.stage.executing = false) :
    (p.drain f).stage.executing = false := by
  cases f <;> simp only [drain] <;> split_ifs <;> first | exact h | exact executing_drained h

theorem executing_readDraining {filled : Filled} (h : p.stage.executing = false) :
    (p.readDraining codec filled).stage.executing = false := by
  cases filled with
  | ended | failed _ => exact executing_drained h
  | more => exact h
  | frame bytes =>
    simp only [readDraining]
    split
    · exact executing_drained h
    · exact executing_drain h

theorem executing_of_step {event : Event} (h : p.step host codec event = some q)
    (hq : q.stage.executing = true) : p.stage.executing = true := by
  by_contra hp
  rw [Bool.not_eq_true] at hp
  refine absurd hq ?_
  rw [Bool.not_eq_true]
  cases event with
  | startWritten =>
    obtain ⟨hstage, -⟩ := step_startWritten h
    rw [hstage] at hp
    cases hp
  | grantWritten =>
    obtain ⟨next, outstanding, hstage, -⟩ := step_grantWritten h
    rw [hstage] at hp
    cases hp
  | exited success =>
    obtain ⟨completion, result, drainError, -, rfl⟩ := step_exited h
    unfold reap
    dsimp only
    split_ifs <;> rfl
  | fill buffer elapsed =>
    rcases step_fill h with ⟨hstage, -⟩ | ⟨-, rfl⟩
    · rw [hstage] at hp
      cases hp
    · exact executing_readDraining hp
  | answered reply =>
    simp only [step] at h
    unfold answered at h
    split at h
    all_goals first | contradiction | skip
    all_goals next hstage => rw [hstage] at hp; cases hp
  | cancelled | expired =>
    simp only [step, hp] at h
    cases h
  | startFailed _ | readFailed _ | grantFailed _ | drainDeadline | waitFailed _ | reapDeadline =>
    unfold step at h
    split at h
    all_goals first | contradiction | skip
    all_goals cases h
    all_goals first | rfl | exact executing_drained hp

/-- The frames one round of reading adds. -/
def filledFrames (codec : Codec) : Filled → List Frame
  | .frame bytes => (codec.fromSlice bytes).toList
  | _ => []

variable (host codec) in
theorem same_readExecuting (p : Parent) (elapsed : ℕ) (filled : Filled) :
    Same { p with frames := p.frames ++ filledFrames codec filled }
      (p.readExecuting host codec elapsed filled) := by
  cases filled with
  | ended | more | failed _ =>
    constructor <;> simp [readExecuting, filledFrames, leave]
  | frame bytes =>
    simp only [readExecuting, filledFrames]
    split
    · constructor <;> simp [leave, *]
    · next f hf =>
      rw [hf]
      exact same_accept elapsed f

variable (codec) in
theorem same_readDraining (p : Parent) (filled : Filled) :
    Same { p with drainFrames := p.drainFrames ++ filledFrames codec filled }
      (p.readDraining codec filled) := by
  cases filled with
  | more => constructor <;> simp [readDraining, filledFrames]
  | ended | failed _ =>
    simp only [readDraining, filledFrames, List.append_nil]
    exact same_drained _
  | frame bytes =>
    simp only [readDraining, filledFrames]
    split
    · next hnone =>
      rw [hnone, Option.toList_none, List.append_nil]
      obtain ⟨h₁, h₂, h₃, h₄, h₅⟩ := same_drained (p := { p with refused := true })
        (some "provider cleanup frame corruption")
      exact ⟨h₁, h₂, h₃, h₄, h₅⟩
    · next f hf =>
      rw [hf]
      exact same_drain f

end Parent

/-- The bytes frames are charged for. -/
def charges (codec : Codec) (frames : List Frame) : ℕ :=
  (frames.map fun f => codec.lineCharge (codec.line f)).sum

/-- What was sent is what the parent has read, followed by the frames in the pipe. Only an exit
leaves a part of a frame. -/
structure Unread (codec : Codec) (reader : FrameReader) (read : List Frame) (pipe : List UInt8)
    (sent : List Frame) (rest : List Frame) (fragment : List UInt8) : Prop where
  partial_open : newline ∉ reader.partialBytes
  fragment_open : newline ∉ fragment
  bytes : reader.partialBytes ++ pipe = stream codec rest ++ fragment
  sent : sent = read ++ rest
  total : reader.total = charges codec read

/-- A reader whose stream was too long has lost a frame. -/
def Upward (host : Host) (codec : Codec) (reader : FrameReader) (read : List Frame)
    (pipe : List UInt8) (sent : List Frame) (exited : Prop) : Prop :=
  (host.providerStreamBytes < reader.total ∧ read <+: sent) ∨
    ∃ rest fragment, Unread codec reader read pipe sent rest fragment ∧ (fragment ≠ [] → exited)

section Upward

variable {host : Host} {codec : Codec} {reader : FrameReader} {read sent : List Frame}
  {pipe : List UInt8} {exited : Prop}

theorem charges_append (frames frames' : List Frame) :
    charges codec (frames ++ frames') = charges codec frames + charges codec frames' := by
  simp [charges]

/-- The frame at the front of the stream. -/
theorem Unread.exists_front (hc : codec.Lawful) {rest : List Frame} {a tail fragment : List UInt8}
    (h : Unread codec reader read pipe sent rest fragment) (ha : newline ∉ a)
    (hbytes : a ++ newline :: tail = reader.partialBytes ++ pipe) :
    ∃ f fs, rest = f :: fs ∧ codec.line f = a ++ [newline] ∧ tail = stream codec fs ++ fragment :=
  exists_first_frame hc ha h.fragment_open (hbytes.trans h.bytes)

theorem Upward.fill (hc : codec.Lawful) (h : Upward host codec reader read pipe sent exited) {n : ℕ}
    (hpos : 0 < n) (hle : n ≤ pipe.length) :
    Upward host codec (reader.fill host codec (pipe.take n)).2.1
      (read ++ Parent.filledFrames codec (reader.fill host codec (pipe.take n)).1)
      (pipe.drop (reader.fill host codec (pipe.take n)).2.2) sent exited := by
  rcases h with ⟨hexceeded, hpre⟩ | ⟨rest, fragment, hunread, hexit⟩
  · obtain ⟨hnone, htotal⟩ := FrameReader.fill_of_exceeded codec hexceeded (pipe.take n)
    refine .inl ⟨htotal, ?_⟩
    have : Parent.filledFrames codec (reader.fill host codec (pipe.take n)).1 = [] := by
      unfold Parent.filledFrames
      split
      · next bytes hbytes => exact absurd hbytes (hnone bytes)
      · rfl
    rw [this, List.append_nil]
    exact hpre
  · have hfills := FrameReader.fills host codec hunread.partial_open hpos hle
    generalize reader.fill host codec (pipe.take n) = filled at hfills
    cases hfills with
    | more bytes consumed hnew hbytes =>
      refine .inr ⟨rest, fragment, ⟨hnew, hunread.fragment_open, ?_, ?_, ?_⟩, hexit⟩
      · exact hbytes.trans hunread.bytes
      · simpa [Parent.filledFrames] using hunread.sent
      · simpa [Parent.filledFrames] using hunread.total
    | frame a consumed hnew hbytes htotal =>
      obtain ⟨f, fs, rfl, hline, htail⟩ := hunread.exists_front hc hnew hbytes
      have hf : Parent.filledFrames codec (.frame (a ++ [newline])) = [f] := by
        simp [Parent.filledFrames, ← hline, hc.fromSlice_line]
      refine .inr ⟨fs, fragment, ⟨by simp, hunread.fragment_open, ?_, ?_, ?_⟩, hexit⟩
      · simpa using htail
      · rw [hf, hunread.sent]
        simp
      · rw [hf, charges_append, ← hunread.total, ← hline]
        simp [charges]
    | overlong bytes rest' hnew hbytes hlong =>
      refine .inr ⟨rest, fragment, ?_, hexit⟩
      simpa [Parent.filledFrames] using hunread
    | exceeded a consumed hnew hbytes htotal =>
      refine .inl ⟨htotal, ?_⟩
      rw [hunread.sent]
      simp [Parent.filledFrames]

theorem Upward.append (h : Upward host codec reader read pipe sent exited) (hopen : ¬ exited)
    (frames : List Frame) :
    Upward host codec reader read (pipe ++ stream codec frames) (sent ++ frames) exited := by
  rcases h with ⟨hexceeded, hpre⟩ | ⟨rest, fragment, hunread, hexit⟩
  · exact .inl ⟨hexceeded, hpre.trans (List.prefix_append _ _)⟩
  · have hfragment : fragment = [] := by
      by_contra hne
      exact hopen (hexit hne)
    subst hfragment
    refine .inr ⟨rest ++ frames, [], ⟨hunread.partial_open, by simp, ?_, ?_, hunread.total⟩, by simp⟩
    · have hbytes := hunread.bytes
      rw [List.append_nil] at hbytes
      rw [← List.append_assoc, hbytes, stream_append, List.append_nil]
    · rw [hunread.sent, List.append_assoc]

theorem Upward.mono {exited' : Prop} (h : Upward host codec reader read pipe sent exited)
    (himp : exited → exited') : Upward host codec reader read pipe sent exited' := by
  rcases h with h | ⟨rest, fragment, hunread, hexit⟩
  · exact .inl h
  · exact .inr ⟨rest, fragment, hunread, fun hne => himp (hexit hne)⟩

theorem Upward.exit (h : Upward host codec reader read pipe sent exited) (hopen : ¬ exited)
    {fragment : List UInt8} (hfragment : newline ∉ fragment) {exited' : Prop} (hexited : exited') :
    Upward host codec reader read (pipe ++ fragment) sent exited' := by
  rcases h with h | ⟨rest, fragment', hunread, hexit⟩
  · exact .inl h
  · have hnil : fragment' = [] := by
      by_contra hne
      exact hopen (hexit hne)
    subst hnil
    refine .inr ⟨rest, fragment, ⟨hunread.partial_open, hfragment, ?_, hunread.sent, hunread.total⟩,
      fun _ => hexited⟩
    have hbytes := hunread.bytes
    rw [List.append_nil] at hbytes
    rw [← List.append_assoc, hbytes]

end Upward

/-- The lines of the worker in the queue. -/
def queuedLines : List Message → List (List UInt8)
  | [] => []
  | .provider bytes :: queue => bytes :: queuedLines queue
  | _ :: queue => queuedLines queue

theorem queuedLines_append (queue queue' : List Message) :
    queuedLines (queue ++ queue') = queuedLines queue ++ queuedLines queue' := by
  induction queue with
  | nil => rfl
  | cons message queue ih => cases message <;> simp [queuedLines, ih]

/-- What the worker emitted is what the supervisor took, what is queued and what is in the pipe. -/
structure Pending (codec : Codec) (passed emitted : List Frame) (queue : List Message)
    (pipe : List UInt8) (alive : Bool) (queued pending : List Frame) (fragment : List UInt8) :
    Prop where
  emitted : emitted = passed ++ queued ++ pending
  queue : queuedLines queue = queued.map codec.line
  pipe : pipe = stream codec pending ++ fragment
  fragment_open : newline ∉ fragment
  fragment_dead : fragment ≠ [] → alive = false

def Downward (codec : Codec) (passed emitted : List Frame) (queue : List Message)
    (pipe : List UInt8) (alive : Bool) : Prop :=
  ∃ queued pending fragment, Pending codec passed emitted queue pipe alive queued pending fragment

section Downward

variable {codec : Codec} {passed emitted : List Frame} {queue : List Message} {pipe : List UInt8}
  {alive : Bool}

theorem Downward.enqueue (h : Downward codec passed emitted queue pipe alive) {message : Message}
    (hmessage : queuedLines [message] = []) :
    Downward codec passed emitted (queue ++ [message]) pipe alive := by
  obtain ⟨queued, pending, fragment, h⟩ := h
  refine ⟨queued, pending, fragment, h.emitted, ?_, h.pipe, h.fragment_open, h.fragment_dead⟩
  rw [queuedLines_append, hmessage, List.append_nil, h.queue]

theorem Downward.emit (h : Downward codec passed emitted queue pipe true) (f : Frame) :
    Downward codec passed (emitted ++ [f]) queue (pipe ++ codec.line f) true := by
  obtain ⟨queued, pending, fragment, h⟩ := h
  have hfragment : fragment = [] := by
    by_contra hne
    cases h.fragment_dead hne
  subst hfragment
  refine ⟨queued, pending ++ [f], [], ?_, h.queue, ?_, by simp, by simp⟩
  · rw [h.emitted, List.append_assoc]
  · rw [h.pipe]
    simp

theorem Downward.die (h : Downward codec passed emitted queue pipe true) {fragment : List UInt8}
    (hfragment : newline ∉ fragment) :
    Downward codec passed emitted queue (pipe ++ fragment) false := by
  obtain ⟨queued, pending, fragment', h⟩ := h
  have hnil : fragment' = [] := by
    by_contra hne
    cases h.fragment_dead hne
  subst hnil
  refine ⟨queued, pending, fragment, h.emitted, h.queue, ?_, hfragment, fun _ => rfl⟩
  rw [h.pipe, List.append_nil]

theorem Downward.kill (h : Downward codec passed emitted queue pipe alive) :
    Downward codec passed emitted queue pipe false := by
  obtain ⟨queued, pending, fragment, h⟩ := h
  exact ⟨queued, pending, fragment, h.emitted, h.queue, h.pipe, h.fragment_open, fun _ => rfl⟩

/-- A line that is read is the first pending frame. -/
theorem Downward.read (hc : codec.Lawful) (h : Downward codec passed emitted queue pipe alive)
    (hline : newline ∈ pipe) :
    Downward codec passed emitted (queue ++ [.provider (pipe.take (lineEnd pipe))])
      (pipe.drop (lineEnd pipe)) alive := by
  obtain ⟨queued, pending, fragment, h⟩ := h
  obtain ⟨a, b, ha, hpipe⟩ := exists_line hline
  obtain ⟨f, fs, rfl, hf, hb⟩ :=
    exists_first_frame hc ha h.fragment_open (hpipe.symm.trans h.pipe)
  have htake : pipe.take (lineEnd pipe) = codec.line f := by
    rw [hpipe, lineEnd_append ha, hf]
    simp [List.take_append]
  have hdrop : pipe.drop (lineEnd pipe) = b := by
    rw [hpipe, lineEnd_append ha]
    simp [List.drop_append]
  refine ⟨queued ++ [f], fs, fragment, ?_, ?_, ?_, h.fragment_open, h.fragment_dead⟩
  · rw [h.emitted]
    simp
  · rw [queuedLines_append, h.queue, htake]
    simp [queuedLines]
  · rw [hdrop, hb]

/-- The first line of the queue is the next frame the supervisor takes. -/
theorem Downward.take (hc : codec.Lawful) {bytes : List UInt8} {rest : List Message}
    (h : Downward codec passed emitted (.provider bytes :: rest) pipe alive) :
    ∃ f, bytes = codec.line f ∧ codec.fromSlice bytes = some f ∧
      Downward codec (passed ++ [f]) emitted rest pipe alive := by
  obtain ⟨queued, pending, fragment, h⟩ := h
  have hqueue := h.queue
  cases queued with
  | nil => cases hqueue
  | cons f queued =>
    obtain ⟨rfl, hrest⟩ := List.cons.inj hqueue
    refine ⟨f, rfl, hc.fromSlice_line f, queued, pending, fragment, ?_, hrest, h.pipe,
      h.fragment_open, h.fragment_dead⟩
    rw [h.emitted]
    simp

end Downward

/-- What the supervisor has written after the frames it forwarded. -/
inductive Receipts (id : ℕ) (passed : List Frame) : Supervision → List Frame → Prop
  | waiting : Receipts id passed .waiting []
  | running : Receipts id passed .running []
  | finishing : Receipts id passed .finishing []
  | cleaned : Receipts id passed .cleaned [.cleanupComplete id]
  | delivered (f : Frame) (h : f ∈ passed) (hresult : f.isResult = true) :
    Receipts id passed (.exited true) [.cleanupComplete id, f]
  | silent : Receipts id passed (.exited false) []
  | confirmed : Receipts id passed (.exited false) [.cleanupComplete id]
  | doubted (error : String) : Receipts id passed (.exited false) [.cleanupFailed id error]

/-- The streams of a system are in order. -/
structure Wired (host : Host) (codec : Codec) (s : System) : Prop where
  upward : Upward host codec s.parent.reader s.parent.read s.toParent s.sent
    (s.supervisor.stage = .exited false)
  downward : Downward codec s.passed s.emitted s.supervisor.queue s.fromWorker s.alive
  sent : ∃ receipts, s.sent = s.passed.filter (fun f => !f.isResult) ++ receipts ∧
    Receipts s.id s.passed s.supervisor.stage receipts
  result : ∀ bytes ∈ s.supervisor.result,
    ∃ f ∈ s.passed, f.isResult = true ∧ bytes = codec.line f
  unstarted : s.parent.startDelivered = false → s.emitted = [] ∧ s.sent = [] ∧ s.alive = false ∧
    (s.supervisor.stage = .waiting ∨ s.supervisor.stage = .exited false)
  waiting : s.supervisor.stage = .waiting → s.fromWorker = [] ∧ s.alive = false
  executing : s.parent.stage.executing = true → s.parent.drainFrames = []

section Wired

variable {host : Host} {codec : Codec} {program : Worker} {s s' : System}

theorem wired_launched (record : Record) (launch : Launch) :
    Wired host codec (.launched record launch) where
  upward := by
    refine .inr ⟨[], [], ⟨?_, ?_, ?_, ?_, ?_⟩, by simp⟩ <;>
      cases launch <;> simp [System.launched, Parent.launch, Parent.new, Parent.failed,
        FrameReader.new, Parent.read, charges]
  downward := ⟨[], [], [], by constructor <;> simp [System.launched, queuedLines]⟩
  sent := ⟨[], rfl, .waiting⟩
  result := by simp [System.launched]
  unstarted := fun _ => ⟨rfl, rfl, rfl, .inl rfl⟩
  waiting := fun _ => ⟨rfl, rfl⟩
  executing := by cases launch <;> simp [System.launched, Parent.launch, Parent.new, Parent.failed]

/-- A step of the parent that reads nothing. -/
theorem Wired.of_same (h : Wired host codec s) {p : Parent} {permits : List Permit}
    (hsame : Parent.Same s.parent p) (hexecuting : p.stage.executing = true →
      s.parent.stage.executing = true) :
    Wired host codec { s with parent := p, toSupervisor := permits } where
  upward := by
    have hread : p.read = s.parent.read := by
      unfold Parent.read
      rw [hsame.frames, hsame.drainFrames]
    simpa only [hsame.reader, hread] using h.upward
  downward := h.downward
  sent := by simpa only [System.id, hsame.record] using h.sent
  result := h.result
  unstarted := by
    intro hstart
    exact h.unstarted (hsame.startDelivered ▸ hstart)
  waiting := h.waiting
  executing := by
    intro hq
    rw [hsame.drainFrames]
    exact h.executing (hexecuting hq)

/-- A round of reading. -/
theorem Wired.fill (h : Wired host codec s) {p : Parent} {buffer : List UInt8} {elapsed : ℕ}
    {pipe : List UInt8} (hp : s.parent.step host codec (.fill buffer elapsed) = some p)
    (hupward : Upward host codec (s.parent.reader.fill host codec buffer).2.1
      (s.parent.read ++ Parent.filledFrames codec (s.parent.reader.fill host codec buffer).1) pipe
      s.sent (s.supervisor.stage = .exited false)) :
    Wired host codec { s with parent := p, toParent := pipe } := by
  have hfields : p.record = s.parent.record ∧ p.startDelivered = s.parent.startDelivered ∧
      p.reader = (s.parent.reader.fill host codec buffer).2.1 ∧
      p.read = s.parent.read ++
        Parent.filledFrames codec (s.parent.reader.fill host codec buffer).1 := by
    rcases Parent.step_fill hp with ⟨hstage, rfl⟩ | ⟨-, rfl⟩
    · have hsame := Parent.same_readExecuting host codec
        { s.parent with reader := (s.parent.reader.fill host codec buffer).2.1 } elapsed
        (s.parent.reader.fill host codec buffer).1
      have hdrain : s.parent.drainFrames = [] := h.executing (by rw [hstage]; rfl)
      refine ⟨hsame.record, hsame.startDelivered, hsame.reader, ?_⟩
      unfold Parent.read
      rw [hsame.frames, hsame.drainFrames]
      simp [hdrain]
    · have hsame := Parent.same_readDraining codec
        { s.parent with reader := (s.parent.reader.fill host codec buffer).2.1 }
        (s.parent.reader.fill host codec buffer).1
      refine ⟨hsame.record, hsame.startDelivered, hsame.reader, ?_⟩
      unfold Parent.read
      rw [hsame.frames, hsame.drainFrames]
      simp
  obtain ⟨hrecord, hstart, hreader, hread⟩ := hfields
  refine ⟨?_, h.downward, ?_, h.result, ?_, h.waiting, ?_⟩
  · simpa only [hreader, hread] using hupward
  · simpa only [System.id, hrecord] using h.sent
  · intro hfalse
    exact h.unstarted (hstart ▸ hfalse)
  · intro hq
    rcases Parent.step_fill hp with ⟨hstage, rfl⟩ | ⟨⟨completion, result, hstage⟩, rfl⟩
    · have hsame := Parent.same_readExecuting host codec
        { s.parent with reader := (s.parent.reader.fill host codec buffer).2.1 } elapsed
        (s.parent.reader.fill host codec buffer).1
      rw [hsame.drainFrames]
      exact h.executing (by rw [hstage]; rfl)
    · have hnot := Parent.executing_of_step hp hq
      rw [hstage] at hnot
      cases hnot

/-- A supervisor that is neither waiting nor gone has been started. -/
theorem Wired.startDelivered (h : Wired host codec s) (hwaiting : s.supervisor.stage ≠ .waiting)
    (hexited : s.supervisor.stage ≠ .exited false) : s.parent.startDelivered = true := by
  by_contra hstart
  rcases (h.unstarted (Bool.eq_false_of_not_eq_true hstart)).2.2.2 with hstage | hstage
  · exact hwaiting hstage
  · exact hexited hstage

theorem Wired.started_of_alive (h : Wired host codec s) (halive : s.alive = true) :
    s.parent.startDelivered = true := by
  by_contra hstart
  have := (h.unstarted (Bool.eq_false_of_not_eq_true hstart)).2.2.1
  rw [halive] at this
  cases this

theorem Wired.not_waiting_of_alive (h : Wired host codec s) (halive : s.alive = true) :
    s.supervisor.stage ≠ .waiting := by
  intro hstage
  have := (h.waiting hstage).2
  rw [halive] at this
  cases this

/-- A step that leaves the streams and the stages alone. -/
theorem Wired.frame (h : Wired host codec s) {worker : Worker} {permits permits' : List Permit}
    {clock : ℕ} {executed : List ℕ} : Wired host codec { s with
      worker := worker, toWorker := permits, toSupervisor := permits', clock := clock,
      executed := executed } :=
  ⟨h.upward, h.downward, h.sent, h.result, h.unstarted, h.waiting, h.executing⟩

theorem Wired.enqueue (h : Wired host codec s) {message : Message} {permits : List Permit}
    (hmessage : queuedLines [message] = []) :
    Wired host codec { s.enqueue message with toSupervisor := permits } :=
  ⟨h.upward, h.downward.enqueue hmessage, h.sent, h.result, h.unstarted, h.waiting, h.executing⟩

theorem Wired.forward (hc : codec.Lawful) (h : Wired host codec s) {bytes : List UInt8}
    {rest : List Message} (hstage : s.supervisor.stage = .running)
    (hqueue : s.supervisor.queue = .provider bytes :: rest) :
    Wired host codec (s.forward codec bytes rest) := by
  have hdownward := h.downward
  rw [hqueue] at hdownward
  obtain ⟨f, rfl, hslice, hdownward⟩ := hdownward.take hc
  obtain ⟨receipts, hsent, hreceipts⟩ := h.sent
  rw [hstage] at hreceipts
  cases hreceipts
  have hstart := h.startDelivered (by simp [hstage]) (by simp [hstage])
  unfold System.forward
  simp only [hslice, Option.toList_some, Option.any_some]
  split_ifs with hresult
  · refine ⟨h.upward, hdownward, ⟨[], ?_, ?_⟩, ?_, ?_, ?_, h.executing⟩
    · simpa [System.dequeue, hresult] using hsent
    · simpa [System.dequeue, hstage] using Receipts.running
    · simp [hresult]
    · simp [System.dequeue, hstart]
    · simp [System.dequeue, hstage]
  · refine ⟨?_, hdownward, ⟨[], ?_, ?_⟩, ?_, ?_, ?_, h.executing⟩
    · have := h.upward.append (by simp [hstage]) [f]
      simpa [System.dequeue] using this
    · rw [List.append_nil] at hsent
      simp [System.dequeue, hresult, hsent]
    · simpa [System.dequeue, hstage] using Receipts.running
    · intro bytes hbytes
      obtain ⟨g, hg, hres, hline⟩ := h.result bytes hbytes
      exact ⟨g, List.mem_append_left _ hg, hres, hline⟩
    · simp [System.dequeue, hstart]
    · simp [System.dequeue, hstage]

/-- The supervisor goes on, and may write a receipt. -/
theorem Wired.supervise (h : Wired host codec s) (stage : Supervision) (receipts : List Frame)
    (alive : Bool) (halive : alive = true → s.alive = true)
    (hopen : s.supervisor.stage ≠ .exited false) (hwaiting : s.supervisor.stage ≠ .waiting)
    (hstage : stage ≠ .waiting)
    (hreceipts : ∀ old, Receipts s.id s.passed s.supervisor.stage old →
      Receipts s.id s.passed stage (old ++ receipts)) :
    Wired host codec { s.supervise stage with
      alive := alive, toParent := s.toParent ++ stream codec receipts, sent := s.sent ++ receipts } where
  upward := (h.upward.append hopen receipts).mono fun hexited => absurd hexited hopen
  downward := by
    cases alive with
    | false => exact h.downward.kill
    | true => exact halive rfl ▸ h.downward
  sent := by
    obtain ⟨old, hsent, hold⟩ := h.sent
    exact ⟨old ++ receipts, by simp [hsent, System.supervise], hreceipts old hold⟩
  result := h.result
  unstarted := by
    intro hstart
    have := h.startDelivered hwaiting hopen
    simp_all [System.supervise]
  waiting := fun hfalse => absurd hfalse hstage
  executing := h.executing

theorem Wired.step (hc : codec.Lawful) (h : Wired host codec s)
    (hstep : Step host codec program s s') : Wired host codec s' := by
  cases hstep with
  | tick clock hclock => exact h.frame
  | parent event hexternal hp =>
    exact h.of_same (Parent.same_of_external hexternal hp) (Parent.executing_of_step hp)
  | parentStart hp =>
    have hexecuting := Parent.executing_of_step hp
    obtain ⟨hstage, rfl⟩ := Parent.step_startWritten hp
    exact ⟨h.upward, h.downward, h.sent, h.result, (by rintro ⟨⟩), h.waiting,
      fun hq => h.executing (hexecuting hq)⟩
  | parentFill n hpos hle hp => exact h.fill hp (h.upward.fill hc hpos hle)
  | parentEnded hpipe hexit hp =>
    refine h.fill hp ?_
    have hupward := h.upward
    simp only [FrameReader.fill, ↓reduceIte]
    split <;> simpa [Parent.filledFrames] using hupward
  | parentGrant hstage hp =>
    have hexecuting := Parent.executing_of_step hp
    obtain ⟨next, outstanding, -, rfl⟩ := Parent.step_grantWritten hp
    exact h.of_same ⟨rfl, rfl, rfl, rfl, rfl⟩ hexecuting
  | parentReaps hexit hp =>
    have hexecuting := Parent.executing_of_step hp
    obtain ⟨completion, result, drainError, -, rfl⟩ := Parent.step_exited hp
    exact h.of_same (Parent.same_reap _ _ _ _) hexecuting
  | supervisorSpawns hstage hstart =>
    obtain ⟨hpipe, halive⟩ := h.waiting hstage
    obtain ⟨receipts, hsent, hreceipts⟩ := h.sent
    rw [hstage] at hreceipts
    cases hreceipts
    refine ⟨?_, ?_, ⟨[], hsent, .running⟩, h.result, ?_, (by rintro ⟨⟩), h.executing⟩
    · exact h.upward.mono fun hexited => absurd (hstage.symm.trans hexited) (by rintro ⟨⟩)
    · obtain ⟨queued, pending, fragment, hpending⟩ := h.downward
      have hempty := hpending.pipe
      rw [hpipe] at hempty
      have hfragment : fragment = [] := (List.append_eq_nil_iff.mp hempty.symm).2
      exact ⟨queued, pending, fragment, hpending.emitted, hpending.queue, hpending.pipe,
        hpending.fragment_open, fun hne => absurd hfragment hne⟩
    · simp [System.supervise, hstart]
  | supervisorReadsParent hpipe => exact h.enqueue rfl
  | supervisorLosesParent hpipe hclosed => exact h.enqueue rfl
  | supervisorReadsWorker hline hlength htotal =>
    exact ⟨h.upward, h.downward.read hc hline, h.sent, h.result, h.unstarted,
      fun hstage => by simp [(h.waiting hstage).1] at hline, h.executing⟩
  | supervisorLosesWorker hend => exact h.enqueue rfl
  | supervisorGrants hstage hqueue =>
    refine ⟨h.upward, ?_, h.sent, h.result, h.unstarted, h.waiting, h.executing⟩
    obtain ⟨queued, pending, fragment, hpending⟩ := h.downward
    refine ⟨queued, pending, fragment, hpending.emitted, ?_, hpending.pipe, hpending.fragment_open,
      hpending.fragment_dead⟩
    have hlines := hpending.queue
    rw [hqueue] at hlines
    exact hlines
  | supervisorForwards hstage hqueue => exact h.forward hc hstage hqueue
  | supervisorLeaves hstage =>
    have hleft := h.supervise .finishing [] s.alive (fun halive => halive) (by simp [hstage])
      (by simp [hstage]) (by rintro ⟨⟩) (by intro old hold; rw [hstage] at hold; cases hold; exact .finishing)
    simpa [System.supervise] using hleft
  | supervisorConfirms hstage =>
    have hconfirmed := h.supervise .cleaned [.cleanupComplete s.id] false (by rintro ⟨⟩) (by simp [hstage])
      (by simp [hstage]) (by rintro ⟨⟩) (by intro old hold; rw [hstage] at hold; cases hold; exact .cleaned)
    simpa [System.supervise, System.send] using hconfirmed
  | supervisorDoubts hstage error =>
    have hdoubted := h.supervise (.exited false) [.cleanupFailed s.id error] s.alive
      (fun halive => halive) (by simp [hstage]) (by simp [hstage]) (by rintro ⟨⟩)
      (by intro old hold; rw [hstage] at hold; cases hold; exact .doubted error)
    simpa [System.supervise, System.send] using hdoubted
  | supervisorDelivers hstage hresult =>
    obtain ⟨f, hf, hisResult, rfl⟩ := h.result _ hresult
    have hdelivered := h.supervise (.exited true) [f] s.alive (fun halive => halive)
      (by simp [hstage]) (by simp [hstage]) (by rintro ⟨⟩)
      (by intro old hold; rw [hstage] at hold; cases hold; exact .delivered f hf hisResult)
    simpa [System.supervise, System.deliver, hc.fromSlice_line] using hdelivered
  | supervisorExits hopen fragment hfragment =>
    refine ⟨h.upward.exit (hopen false) hfragment rfl, h.downward, ?_, h.result, ?_, (by rintro ⟨⟩),
      h.executing⟩
    · obtain ⟨receipts, hsent, hreceipts⟩ := h.sent
      refine ⟨receipts, hsent, ?_⟩
      generalize hstage : s.supervisor.stage = stage at hreceipts
      cases hreceipts with
      | waiting | running | finishing | silent => exact .silent
      | cleaned | confirmed => exact .confirmed
      | delivered f hf hresult => exact absurd hstage (hopen true)
      | doubted error => exact .doubted error
    · intro hstart
      obtain ⟨hemitted, hsent, halive, -⟩ := h.unstarted hstart
      exact ⟨hemitted, hsent, halive, .inr rfl⟩
  | workerEmits halive hworker hline =>
    have hdownward := h.downward
    rw [halive] at hdownward
    refine ⟨h.upward, ?_, h.sent, h.result, ?_, ?_, h.executing⟩
    · simpa only [halive] using hdownward.emit _
    · intro hstart
      have := h.started_of_alive halive
      simp_all
    · exact fun hstage => absurd hstage (h.not_waiting_of_alive halive)
  | workerFails halive hworker error => exact h.frame
  | workerReceives halive hworker hpipe => exact h.frame
  | workerLosesLifeline halive hworker => exact h.frame
  | workerReads halive hworker reading hclock hpeak => exact h.frame
  | workerExecutes halive hworker => exact h.frame
  | workerExits halive fragment hfragment =>
    have hdownward := h.downward
    rw [halive] at hdownward
    refine ⟨h.upward, hdownward.die hfragment, h.sent, h.result, ?_, ?_, h.executing⟩
    · intro hstart
      have := h.started_of_alive halive
      simp_all
    · exact fun hstage => absurd hstage (h.not_waiting_of_alive halive)

theorem Wired.read_isPrefix (h : Wired host codec s) : s.parent.read <+: s.sent := by
  rcases h.upward with ⟨-, hpre⟩ | ⟨rest, fragment, hunread, -⟩
  · exact hpre
  · rw [hunread.sent]
    exact List.prefix_append _ _

theorem Wired.passed_isPrefix (h : Wired host codec s) : s.passed <+: s.emitted := by
  obtain ⟨queued, pending, fragment, hpending⟩ := h.downward
  rw [hpending.emitted, List.append_assoc]
  exact List.prefix_append _ _

theorem Runs.wired (hc : codec.Lawful) {record : Record} {launch : Launch}
    (hrun : Runs host codec program (.launched record launch) s) : Wired host codec s := by
  induction hrun with
  | refl => exact wired_launched record launch
  | tail _ hstep ih => exact ih.step hc hstep

end Wired

end Naome.Jobs.Process
