import Naome.ProviderAttempt

/-!
# The protocol of a provider

The frames that are in their place at each point of an attempt, as an automaton, and the calls of a
provider that keeps the protocol. Whatever it is answered, the worker of such a provider sends only
frames in their place.
-/
namespace Naome.Jobs.Process
open Outcome

namespace Attempt

/-- The phase is the next one to be reported. -/
@[reducible] def Awaits (a : Attempt) (phase : Phase) (outstanding : Option ℕ) (complete : Bool) :
    Prop :=
  match phase with
  | .setup => a.setup = none ∧ outstanding = none ∧ a.finalized = none
  | .unit unit =>
    a.setup = some true ∧ outstanding = some unit ∧ a.unit = none ∧ a.finalized = none
  | .finalization => a.setup = some true ∧ outstanding = none ∧ a.unit = none ∧
      a.finalized = none ∧ complete = true

/-- The attempt after the report of a phase. -/
def reported (a : Attempt) (phase : Phase) (sample : Sample) : Attempt :=
  let elapsedNanos := saturatingAdd a.elapsedNanos sample.elapsedNanos
  match phase with
  | .setup => { a with setup := some sample.succeeded, elapsedNanos := elapsedNanos }
  | .unit unit => { a with unit := some (unit, sample.succeeded), elapsedNanos := elapsedNanos }
  | .finalization => { a with finalized := some sample.succeeded, elapsedNanos := elapsedNanos }

variable {a b : Attempt} {elapsed : ℕ} {phase : Phase} {sample : Sample} {outstanding : Option ℕ}
  {complete : Bool}

@[simp] theorem elapsedNanos_reported : (a.reported phase sample).elapsedNanos =
    saturatingAdd a.elapsedNanos sample.elapsedNanos := by
  cases phase <;> rfl

theorem observe_eq_ok : a.observe elapsed phase sample outstanding complete = .ok b ↔
    sample.Validates elapsed ∧ saturatingAdd a.elapsedNanos sample.elapsedNanos ≤ elapsed ∧
      a.Awaits phase outstanding complete ∧ b = a.reported phase sample := by
  unfold observe
  rw [bind_eq_ok]
  simp only [require_eq_ok]
  cases phase with
  | setup | unit unit | finalization =>
    simp only [bind_eq_ok, require_eq_ok, pure_eq_ok, reported, Awaits]
    constructor
    · rintro ⟨-, ⟨hvalid, helapsed⟩, -, hawaits, rfl⟩
      exact ⟨hvalid, helapsed, hawaits, rfl⟩
    · rintro ⟨hvalid, helapsed, hawaits, rfl⟩
      exact ⟨(), ⟨hvalid, helapsed⟩, (), hawaits, rfl⟩

/-- A report that is in time stays so. -/
theorem observe_mono {elapsed' : ℕ} (hle : elapsed ≤ elapsed')
    (h : a.observe elapsed phase sample outstanding complete = .ok b) :
    a.observe elapsed' phase sample outstanding complete = .ok b := by
  obtain ⟨⟨hblocked, helapsed, hpeak, hcheck⟩, htotal, hawaits, rfl⟩ := observe_eq_ok.1 h
  exact observe_eq_ok.2
    ⟨⟨hblocked, helapsed.trans hle, hpeak, hcheck⟩, htotal.trans hle, hawaits, rfl⟩

end Attempt

/-- What the frames of an attempt have established. -/
structure Session where
  ready : Bool
  feedback : Attempt
  checkpoint : ℕ
  outstanding : Option ℕ

namespace Session

def start (record : Record) : Session := ⟨false, .new, record.checkpoint, none⟩

variable (host : Host) (codec : Codec) (record : Record)

/-- The session after a frame that is in its place at this age of the attempt. The receipts of the
supervisor always are. -/
def accept (now : ℕ) (c : Session) : Frame → Option Session
  | .ready id binding _ =>
    if c.ready = false ∧ id = record.id ∧ binding = codec.identity record then
      some { c with ready := true }
    else none
  | .descendant id _ =>
    if c.ready = true ∧ id = record.id ∧ record.settings.mock.descendant = true then some c else none
  | .cpuActive id next | .cpuDone id next =>
    if c.ready = true ∧ id = record.id ∧ c.outstanding = some next then some c else none
  | .resultReady id =>
    if c.ready = true ∧ id = record.id ∧ c.outstanding = none then some c else none
  | .feedback id phase sample =>
    if c.ready = true ∧ id = record.id then
      match c.feedback.observe now phase sample c.outstanding (host.complete record c.checkpoint) with
      | .ok feedback => some { c with feedback := feedback }
      | .error _ => none
    else none
  | .reserve id next =>
    if c.ready = true ∧ c.feedback.ready = true ∧ c.outstanding = none ∧ id = record.id ∧
        next = c.checkpoint + 1 then
      some { c with outstanding := some next }
    else none
  | .program id unit _ =>
    if c.ready = true ∧ id = record.id ∧ c.outstanding = some unit ∧ record.input.isSolve = true then
      some c
    else none
  | .progress id next =>
    if c.ready = true ∧ c.feedback.unitReady next = true ∧ c.outstanding = some next ∧
        id = record.id ∧ next = c.checkpoint + 1 then
      some { c with
        checkpoint := next, outstanding := none, feedback := { c.feedback with unit := none } }
    else none
  | .result id _ =>
    if c.ready = true ∧ c.feedback.finished = true ∧ c.outstanding = none ∧ id = record.id ∧
        host.complete record c.checkpoint = true then some c
    else none
  | .failed id _ => if c.ready = true ∧ id = record.id then some c else none
  | .cleanupComplete id | .cleanupFailed id _ => if id = record.id then some c else none
  | .uncertain _ _ => none

variable {host codec record} {c c' : Session} {now now' : ℕ} {f : Frame}

theorem accept_mono (hle : now ≤ now') (h : accept host codec record now c f = some c') :
    accept host codec record now' c f = some c' := by
  cases f with
  | feedback id phase sample =>
    simp only [accept] at h ⊢
    split_ifs at h ⊢
    split at h
    · next feedback hfeedback =>
      rw [Attempt.observe_mono hle hfeedback]
      exact h
    · cases h
  | _ => exact h

theorem id_of_accept (h : accept host codec record now c f = some c') : f.id = record.id := by
  cases f with
  | uncertain => cases h
  | _ =>
    simp only [accept] at h
    split_ifs at h with hguard
    simp only [Frame.id]
    tauto

/-- The reported phases take no longer than the attempt. -/
theorem elapsed_of_accept (hc : c.feedback.elapsedNanos ≤ now)
    (h : accept host codec record now c f = some c') : c'.feedback.elapsedNanos ≤ now := by
  cases f with
  | feedback id phase sample =>
    simp only [accept] at h
    split_ifs at h
    split at h
    · next feedback hfeedback =>
      cases h
      obtain ⟨-, helapsed, -, rfl⟩ := Attempt.observe_eq_ok.1 hfeedback
      simpa using helapsed
    · cases h
  | _ =>
    simp only [accept] at h
    first
    | split_ifs at h
      cases h
      exact hc
    | cases h

/-- The session after frames that are all in their place. -/
def acceptAll (host : Host) (codec : Codec) (record : Record) (now : ℕ) :
    Session → List Frame → Option Session :=
  List.foldlM (accept host codec record now)

theorem acceptAll_append {frames frames' : List Frame} :
    acceptAll host codec record now c (frames ++ frames') =
      (acceptAll host codec record now c frames).bind fun c =>
        acceptAll host codec record now c frames' :=
  List.foldlM_append

theorem acceptAll_concat {frames : List Frame} (f : Frame) :
    acceptAll host codec record now c (frames ++ [f]) =
      (acceptAll host codec record now c frames).bind fun c => accept host codec record now c f := by
  rw [acceptAll_append]
  congr 1
  funext c
  simp [acceptAll]

theorem acceptAll_mono (hle : now ≤ now') {frames : List Frame}
    (h : acceptAll host codec record now c frames = some c') :
    acceptAll host codec record now' c frames = some c' := by
  induction frames generalizing c with
  | nil => exact h
  | cons f frames ih =>
    obtain ⟨d, hd, hrest⟩ := Option.bind_eq_some_iff.mp h
    exact Option.bind_eq_some_iff.mpr ⟨d, accept_mono hle hd, ih hrest⟩

theorem acceptAll_of_isPrefix {frames frames' : List Frame} (hpre : frames <+: frames')
    (h : acceptAll host codec record now c frames' = some c') :
    ∃ d, acceptAll host codec record now c frames = some d := by
  obtain ⟨rest, rfl⟩ := hpre
  rw [acceptAll_append] at h
  obtain ⟨d, hd, -⟩ := Option.bind_eq_some_iff.mp h
  exact ⟨d, hd⟩

theorem id_of_acceptAll {frames : List Frame}
    (h : acceptAll host codec record now c frames = some c') : ∀ f ∈ frames, f.id = record.id := by
  induction frames generalizing c with
  | nil => rintro _ ⟨⟩
  | cons f frames ih =>
    obtain ⟨d, hd, hrest⟩ := Option.bind_eq_some_iff.mp h
    intro g hg
    rcases List.mem_cons.mp hg with rfl | hg
    · exact id_of_accept hd
    · exact ih hrest g hg

theorem elapsed_of_acceptAll {frames : List Frame} (hc : c.feedback.elapsedNanos ≤ now)
    (h : acceptAll host codec record now c frames = some c') :
    c'.feedback.elapsedNanos ≤ now := by
  induction frames generalizing c with
  | nil =>
    cases h
    exact hc
  | cons f frames ih =>
    obtain ⟨d, hd, hrest⟩ := Option.bind_eq_some_iff.mp h
    exact ih (elapsed_of_accept hc hd) hrest

end Session

section Conforms

variable (host : Host) (codec : Codec) (record : Record)

/-- Whatever it is answered, the worker sends frames in their place, and none after a result. Its
last reading of the clock was `now`. -/
def Worker.Conforms : Worker → Session → ℕ → Prop
  | .exited, _, _ => True
  | .emit f next, c, now =>
    (∃ c', Session.accept host codec record now c f = some c' ∧ (next (.ok ())).Conforms c' now) ∧
      (f.isResult = true → next (.ok ()) = .exited) ∧ ∀ error, (next (.error error)).Conforms c now
  | .receive next, c, now => ∀ permit, (next permit).Conforms c now
  | .read next, c, _ => ∀ reading : Reading, (∀ bytes ∈ reading.peakRssBytes, bytes ≤ isizeMax) →
      c.feedback.elapsedNanos ≤ reading.nanos → (next reading).Conforms c reading.nanos
  | .execute _ next, c, now => next.Conforms c now

end Conforms

/-- A computation makes only such calls and returns only such values. -/
def Talk.Keeps {α : Type} (P : Call → Prop) (Q : α → Prop) : Talk α → Prop
  | .pure a => Q a
  | .call c next => P c ∧ ∀ answer, (next answer).Keeps P Q
  | .read next => ∀ reading, (next reading).Keeps P Q

/-- The calls of a provider while this unit is outstanding. -/
def Call.Allowed (record : Record) (outstanding : Option ℕ) : Call → Prop
  | .program unit _ => outstanding = some unit ∧ record.input.isSolve = true
  | .probe (.descendant _) => record.settings.mock.descendant = true
  | .probe (.cpuActive unit) | .probe (.cpuDone unit) => outstanding = some unit
  | .probe .resultReady => outstanding = none
  | .reserve _ | .checkpoint _ | .observe _ _ => False

/-- The result reports no uncertainty. -/
def Certain {α : Type} (result : Except Failure α) : Prop := ∀ error, result ≠ .error (.uncertain error)

/-- The provider keeps the protocol where `I` holds of its state and checkpoint: it makes the calls
of its phase, counts its units one by one up to those of the contract and reports no uncertainty. -/
structure Provider.Keeps {σ : Type} (provider : Provider σ) (host : Host) (record : Record)
    (I : σ → ℕ → Prop) : Prop where
  certain : ∀ s k, I s k → Certain (provider.next s k)
  complete : ∀ s k, I s k → provider.next s k = .ok none → host.complete record k = true
  successor : ∀ s k n, I s k → provider.next s k = .ok (some n) → n = k + 1 ∧ n < u32Limit
  execute : ∀ s k n, I s k → provider.next s k = .ok (some n) →
    (provider.execute s n).Keeps (Call.Allowed record (some n)) fun (result, s') =>
      Certain result ∧ (result = .ok () → I s' n)
  result : ∀ s k, I s k → provider.next s k = .ok none →
    (provider.result s).Keeps (Call.Allowed record none) fun (result, _) => Certain result

/-- From this state on the provider keeps the protocol of the record. -/
def Provider.Follows {σ : Type} (provider : Provider σ) (host : Host) (record : Record) (s : σ) :
    Prop :=
  ∃ I, provider.Keeps host record I ∧
    (provider.start s).Keeps (Call.Allowed record none) fun (result, s') =>
      Certain result ∧ (result = .ok () → I s' record.checkpoint)

section Follows

variable {host : Host} {codec : Codec} {record : Record} {c c' : Session} {now : ℕ}

namespace WorkerControl

theorem conforms_grant {next : ℕ} {k : Except String Unit → Worker}
    (hk : ∀ answer, (k answer).Conforms host codec record c now) :
    (grant record.id next k).Conforms host codec record c now :=
  fun _ => hk _

theorem conforms_exchange {f : Frame} (hf : Session.accept host codec record now c f = some c')
    (hresult : f.isResult = false) {next : ℕ} {k : Except String Unit → Worker}
    (hk : (k (.ok ())).Conforms host codec record c' now)
    (herror : ∀ error, (k (.error error)).Conforms host codec record c now ∧
      (k (.error error)).Conforms host codec record c' now) :
    (exchange record.id f next k).Conforms host codec record c now := by
  refine ⟨⟨c', hf, ?_⟩, ?_, fun error => (herror error).1⟩
  · apply conforms_grant
    intro answer
    cases answer with
    | ok => exact hk
    | error error => exact (herror error).2
  · intro h
    rw [hresult] at h
    cases h

theorem conforms_perform {call : Call}
    (hf : Session.accept host codec record now c (call.frame record.id) = some c')
    {k : Except String Unit → Worker} (hk : (k (.ok ())).Conforms host codec record c' now)
    (herror : ∀ error, (k (.error error)).Conforms host codec record c now ∧
      (k (.error error)).Conforms host codec record c' now) :
    (perform host record.id call k).Conforms host codec record c now := by
  cases call with
  | program unit records =>
    simp only [perform]
    split
    · exact (herror _).1
    · exact conforms_exchange hf rfl hk herror
  | reserve next => exact conforms_exchange hf rfl hk herror
  | checkpoint checkpoint => exact conforms_exchange hf rfl hk herror
  | probe probe =>
    refine ⟨⟨c', hf, hk⟩, ?_, fun error => (herror error).1⟩
    cases probe <;> rintro ⟨⟩
  | observe phase sample => exact ⟨⟨c', hf, hk⟩, (by rintro ⟨⟩), fun error => (herror error).1⟩

/-- The frames of allowed calls leave the session as it is. -/
theorem accept_allowed (hready : c.ready = true) {call : Call}
    (h : call.Allowed record c.outstanding) :
    Session.accept host codec record now c (call.frame record.id) = some c := by
  cases call with
  | program unit records => exact if_pos ⟨hready, rfl, h.1, h.2⟩
  | probe probe => cases probe <;> exact if_pos ⟨hready, rfl, h⟩
  | _ => cases h

theorem conforms_run {α : Type} {talk : Talk α} {Q : α → Prop}
    (htalk : talk.Keeps (Call.Allowed record c.outstanding) Q) (hready : c.ready = true)
    {k : α → Worker} (hk : ∀ a now, Q a → (k a).Conforms host codec record c now) :
    (run host record.id talk k).Conforms host codec record c now := by
  induction talk generalizing now with
  | pure a => exact hk a now htalk
  | call call next ih =>
    exact conforms_perform (accept_allowed hready htalk.1) (ih _ (htalk.2 _))
      fun error => ⟨ih _ (htalk.2 _), ih _ (htalk.2 _)⟩
  | read next ih => exact fun reading _ _ => ih reading (htalk reading)

end WorkerControl

/-- A measurement between two readings is in order. -/
theorem validates_measurement {first last : Reading} (succeeded : Bool)
    (hpeak : ∀ bytes ∈ last.peakRssBytes, bytes ≤ isizeMax) :
    (measurement first last succeeded).Validates last.nanos := by
  refine ⟨min_le_right _ _, (min_le_left _ _).trans (Nat.sub_le _ _), ?_, ?_⟩
  · intro bytes hbytes
    obtain ⟨hmem, hpos⟩ := Option.mem_filter_iff.mp hbytes
    exact ⟨of_decide_eq_true hpos, hpeak bytes hmem⟩
  · by_cases hunits : last.check.units - first.check.units = 0
    · exact .inr (if_pos hunits)
    · exact .inl hunits

/-- The phases that were measured one after another took no longer than the attempt. -/
theorem elapsed_measurement {first last : Reading} {elapsed : ℕ} (succeeded : Bool)
    (hfirst : elapsed ≤ first.nanos) (hlast : elapsed ≤ last.nanos) :
    saturatingAdd elapsed (measurement first last succeeded).elapsedNanos ≤ last.nanos := by
  have hmeasured : (measurement first last succeeded).elapsedNanos ≤ last.nanos - first.nanos :=
    min_le_left _ _
  refine (min_le_left _ _).trans ?_
  omega

/-- A measured phase in its turn. -/
theorem conforms_measured {α σ : Type} {phase : Phase} {operation : Talk (Except Failure α × σ)}
    {Q : Except Failure α × σ → Prop} (hready : c.ready = true)
    (hawaits : c.feedback.Awaits phase c.outstanding (host.complete record c.checkpoint))
    (htalk : operation.Keeps (Call.Allowed record c.outstanding) Q)
    {k : Except Failure (α × σ) → Worker}
    (hfailed : ∀ error c now, c.ready = true →
      (k (.error (.failed error))).Conforms host codec record c now)
    (hk : ∀ result s sample now, Q (result, s) → sample.succeeded = result.toBool →
      (k (result.map fun a => (a, s))).Conforms host codec record
        { c with feedback := c.feedback.reported phase sample } now) :
    (measured host record.id phase operation k).Conforms host codec record c now := by
  intro first _ hfirst
  refine WorkerControl.conforms_run htalk hready ?_
  rintro ⟨result, s⟩ _ hQ last hpeak hlast
  let sample := measurement first last result.toBool
  have hobserve : c.feedback.observe last.nanos phase sample c.outstanding
      (host.complete record c.checkpoint) = .ok (c.feedback.reported phase sample) :=
    Attempt.observe_eq_ok.2 ⟨validates_measurement _ hpeak,
      elapsed_measurement _ hfirst hlast, hawaits, rfl⟩
  have haccept : Session.accept host codec record last.nanos c (.feedback record.id phase sample) =
      some { c with feedback := c.feedback.reported phase sample } := by
    simp [Session.accept, hready, hobserve]
  refine WorkerControl.conforms_perform haccept ?_ ?_
  · exact hk result s sample last.nanos hQ rfl
  · exact fun error => ⟨hfailed error c _ hready, hfailed error _ _ hready⟩

/-- The worker has reported its last frame. -/
def finish (record : Record) (outcome : Except Failure Output) : Worker :=
  .emit (finalFrame record.id outcome) fun _ => .exited

theorem conforms_finish_failed (error : String) (hready : c.ready = true) :
    (finish record (.error (.failed error))).Conforms host codec record c now :=
  ⟨⟨c, if_pos ⟨hready, rfl⟩, trivial⟩, (by rintro ⟨⟩), fun _ => trivial⟩

/-- A phase that failed ends the work. -/
theorem conforms_finish_error {failure : Failure} (hready : c.ready = true)
    (hcertain : ∀ error, failure ≠ .uncertain error) :
    (finish record (.error failure)).Conforms host codec record c now := by
  cases failure with
  | failed error => exact conforms_finish_failed error hready
  | uncertain error => exact absurd rfl (hcertain error)

theorem conforms_finish_ok (output : Output) (hready : c.ready = true)
    (hfinished : c.feedback.finished = true) (houtstanding : c.outstanding = none)
    (hcomplete : host.complete record c.checkpoint = true) :
    (finish record (.ok output)).Conforms host codec record c now :=
  ⟨⟨c, if_pos ⟨hready, hfinished, houtstanding, rfl, hcomplete⟩, trivial⟩, fun _ => rfl,
    fun _ => trivial⟩

/-- Between two units: ready, with the setup reported and nothing outstanding. -/
structure Between (c : Session) (checkpoint : ℕ) : Prop where
  ready : c.ready = true
  setup : c.feedback.setup = some true
  unit : c.feedback.unit = none
  finalized : c.feedback.finalized = none
  checkpoint : c.checkpoint = checkpoint
  outstanding : c.outstanding = none

theorem Certain.failed {α : Type} {result : Except Failure α} (h : Certain result)
    {failure : Failure} (hresult : result = .error failure) : ∀ error, failure ≠ .uncertain error := by
  intro error hfailure
  subst hfailure
  exact h error hresult

variable {σ : Type} {provider : Provider σ} {I : σ → ℕ → Prop}

theorem conforms_result (hkeeps : provider.Keeps host record I) {s : σ} {checkpoint : ℕ}
    (hI : I s checkpoint) (hnext : provider.next s checkpoint = .ok none)
    (hbetween : Between c checkpoint) :
    (measured host record.id .finalization (provider.result s) fun result =>
      finish record (result.map Prod.fst)).Conforms host codec record c now := by
  have hcomplete : host.complete record c.checkpoint = true := by
    rw [hbetween.checkpoint]
    exact hkeeps.complete s checkpoint hI hnext
  have htalk := hkeeps.result s checkpoint hI hnext
  rw [← hbetween.outstanding] at htalk
  have hawaits : c.feedback.Awaits .finalization c.outstanding (host.complete record c.checkpoint) :=
    ⟨hbetween.setup, hbetween.outstanding, hbetween.unit, hbetween.finalized, hcomplete⟩
  refine conforms_measured hbetween.ready hawaits htalk ?_ ?_
  · exact fun error c now hready => conforms_finish_failed error hready
  · intro result s' sample now hcertain hsucceeded
    cases result with
    | error failure => exact conforms_finish_error hbetween.ready (Certain.failed hcertain rfl)
    | ok output =>
      refine conforms_finish_ok output hbetween.ready ?_ hbetween.outstanding hcomplete
      simp [Attempt.finished, Attempt.reported, hsucceeded, Except.toBool]

theorem accept_reserve {checkpoint : ℕ} (hbetween : Between c checkpoint) :
    Session.accept host codec record now c (.reserve record.id (checkpoint + 1)) =
      some { c with outstanding := some (checkpoint + 1) } := by
  have hready : c.feedback.ready = true := by
    simp [Attempt.ready, hbetween.setup, hbetween.finalized]
  simp [Session.accept, hready, hbetween.ready, hbetween.outstanding, hbetween.checkpoint]

theorem accept_progress {checkpoint : ℕ} (hbetween : Between c checkpoint) {sample : Sample}
    (hsucceeded : sample.succeeded = true) :
    Session.accept host codec record now
        { c with
          outstanding := some (checkpoint + 1)
          feedback := c.feedback.reported (.unit (checkpoint + 1)) sample }
        (.progress record.id (checkpoint + 1)) =
      some { c with
        checkpoint := checkpoint + 1
        outstanding := none
        feedback := { c.feedback.reported (.unit (checkpoint + 1)) sample with unit := none } } := by
  simp [Session.accept, Attempt.unitReady, Attempt.reported, hbetween.ready, hbetween.checkpoint,
    hsucceeded]

theorem conforms_driveUnits (hkeeps : provider.Keeps host record I) {remaining : ℕ} {s : σ}
    {checkpoint : ℕ} (hremaining : u32Limit ≤ checkpoint + remaining + 1) (hI : I s checkpoint)
    (hbetween : Between c checkpoint) :
    (driveUnits host record.id provider (finish record) remaining s checkpoint).Conforms host codec
      record c now := by
  induction remaining generalizing s checkpoint c now with
  | zero =>
    unfold driveUnits
    split
    · next failure hnext =>
      exact conforms_finish_error hbetween.ready
        (Certain.failed (hkeeps.certain s checkpoint hI) hnext)
    · next hnext => exact conforms_result hkeeps hI hnext hbetween
    · next next hnext =>
      obtain ⟨rfl, hlt⟩ := hkeeps.successor s checkpoint next hI hnext
      omega
  | succ remaining ih =>
    unfold driveUnits
    split
    · next failure hnext =>
      exact conforms_finish_error hbetween.ready
        (Certain.failed (hkeeps.certain s checkpoint hI) hnext)
    · next hnext => exact conforms_result hkeeps hI hnext hbetween
    · next next hnext =>
      obtain ⟨rfl, hlt⟩ := hkeeps.successor s checkpoint next hI hnext
      simp only [if_true]
      refine WorkerControl.conforms_perform (accept_reserve hbetween) ?_ ?_
      · have hawaits : c.feedback.Awaits (.unit (checkpoint + 1)) (some (checkpoint + 1))
            (host.complete record c.checkpoint) :=
          ⟨hbetween.setup, rfl, hbetween.unit, hbetween.finalized⟩
        simp only [Worker.Conforms]
        refine conforms_measured (c := { c with outstanding := some (checkpoint + 1) })
          hbetween.ready hawaits (hkeeps.execute s checkpoint _ hI hnext) ?_ ?_
        · exact fun error c now hready => conforms_finish_failed error hready
        · rintro result s' sample now ⟨hcertain, hI'⟩ hsucceeded
          cases result with
          | error failure =>
            exact conforms_finish_error hbetween.ready (Certain.failed hcertain rfl)
          | ok =>
            refine WorkerControl.conforms_perform (accept_progress hbetween hsucceeded) ?_ ?_
            · exact ih (by omega) (hI' rfl) ⟨hbetween.ready, hbetween.setup, rfl,
                hbetween.finalized, rfl, rfl⟩
            · exact fun error => ⟨conforms_finish_failed error hbetween.ready,
                conforms_finish_failed error hbetween.ready⟩
      · exact fun error => ⟨conforms_finish_failed error hbetween.ready,
          conforms_finish_failed error hbetween.ready⟩

/-- The worker of a provider that follows the protocol conforms to it. -/
theorem conforms_work {s : σ} (hfollows : provider.Follows host record s) (pid : ℕ) :
    (work host provider codec record pid s).Conforms host codec record (.start record) 0 := by
  obtain ⟨I, hkeeps, hstart⟩ := hfollows
  refine ⟨⟨{ Session.start record with ready := true }, if_pos ⟨rfl, rfl, rfl⟩, ?_⟩, (by rintro ⟨⟩),
    fun _ => trivial⟩
  have hawaits : Attempt.new.Awaits .setup none (host.complete record record.checkpoint) :=
    ⟨rfl, rfl, rfl⟩
  refine conforms_measured (c := { Session.start record with ready := true }) rfl hawaits hstart ?_ ?_
  · exact fun error c now hready => conforms_finish_failed error hready
  · rintro result s' sample now ⟨hcertain, hI⟩ hsucceeded
    cases result with
    | error failure => exact conforms_finish_error rfl (Certain.failed hcertain rfl)
    | ok =>
      refine conforms_driveUnits hkeeps (by omega) (hI rfl) ⟨rfl, ?_, rfl, rfl, rfl, rfl⟩
      exact congrArg some hsucceeded

end Follows

end Naome.Jobs.Process
