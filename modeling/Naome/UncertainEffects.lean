import Naome.ResearchAllowance
import Naome.ProviderDelivery

/-!
# Uncertain effects of a provider

A job whose effects are in doubt is stored so and holds its account. The outcome of an attempt is in
doubt unless the parent read the receipt of a confirmed cleanup; that receipt also settles an
uncertainty the worker had reported.
-/
namespace Naome.Jobs
open Outcome Effect

section Owner

variable {host : Host} {env : Environment} {o : Owner}

namespace Owner

/-- The account of the key is held. -/
def HoldsAccount (accounts : TrackedMap Digest Account) (key : Digest) : Prop :=
  ∃ a, accounts.get? key = some a ∧ a.held.isSome = true

theorem run_rememberHold {r : Record} {a : Account}
    (ha : o.journal.accounts.get? (host.accountKey r.input) = some a) :
    ∃ accounts, (rememberHold host r).run o =
        (.ok (), o.setJournal { o.journal with accounts := accounts }) ∧
      HoldsAccount accounts (host.accountKey r.input) ∧
      (∀ key, (o.journal.accounts.get? key).isSome = true → (accounts.get? key).isSome = true) ∧
      ∀ key, HoldsAccount o.journal.accounts key → HoldsAccount accounts key := by
  have hrun : (rememberHold host r).run o =
      (if a.held = some (a.held.elim r.id fun old => min old r.id) then Pure.pure ()
      else modifyJournal fun j => j.updateAccount (host.accountKey r.input) fun a' =>
        { a' with held := some (a.held.elim r.id fun old => min old r.id) } : OwnerM Unit).run o := by
    unfold rememberHold
    rw [run_getJournal_bind]
    dsimp only
    rw [ha]
    rfl
  rw [hrun]
  by_cases hheld : a.held = some (a.held.elim r.id fun old => min old r.id)
  · refine ⟨o.journal.accounts, ?_, ⟨a, ha, by rw [hheld]; rfl⟩, fun _ h => h, fun _ h => h⟩
    rw [if_pos hheld]
    rfl
  · refine ⟨o.journal.accounts.update (host.accountKey r.input)
      fun a' => { a' with held := some (a.held.elim r.id fun old => min old r.id) }, ?_, ?_, ?_, ?_⟩
    · rw [if_neg hheld]
      rfl
    · refine ⟨{ a with held := some (a.held.elim r.id fun old => min old r.id) }, ?_, rfl⟩
      rw [TrackedMap.get?_update, if_pos rfl, ha]
      rfl
    · intro key hkey
      rw [TrackedMap.get?_update]
      split_ifs
      · rw [Option.isSome_map]
        exact hkey
      · exact hkey
    · intro key hkey
      obtain ⟨b, hb, hsome⟩ := hkey
      unfold HoldsAccount
      rw [TrackedMap.get?_update]
      split_ifs
      · exact ⟨_, by rw [hb]; rfl, rfl⟩
      · exact ⟨b, hb, hsome⟩

theorem run_forEach_rememberHold {rs : List Record}
    (h : ∀ r ∈ rs, (o.journal.accounts.get? (host.accountKey r.input)).isSome = true) :
    ∃ accounts, (forEach (rememberHold host) rs).run o =
        (.ok (), o.setJournal { o.journal with accounts := accounts }) ∧
      (∀ r ∈ rs, HoldsAccount accounts (host.accountKey r.input)) ∧
      ∀ key, HoldsAccount o.journal.accounts key → HoldsAccount accounts key := by
  induction rs generalizing o with
  | nil => exact ⟨o.journal.accounts, rfl, by simp, fun _ h => h⟩
  | cons r rs ih =>
    obtain ⟨a, ha⟩ := Option.isSome_iff_exists.mp (h r List.mem_cons_self)
    obtain ⟨accounts, hrun, hheld, hsome, hmono⟩ := run_rememberHold ha
    obtain ⟨accounts', hrun', hheld', hmono'⟩ :=
      ih (o := o.setJournal { o.journal with accounts := accounts })
        fun r' hr' => hsome _ (h r' (List.mem_cons_of_mem r hr'))
    refine ⟨accounts', ?_, ?_, fun key hkey => hmono' key (hmono key hkey)⟩
    · show (Effect.bind (rememberHold host r) fun _ => forEach (rememberHold host) rs).run o = _
      simp only [Effect.bind, hrun, hrun']
      rfl
    · intro r' hr'
      rcases List.mem_cons.mp hr' with rfl | hr'
      · exact hmono' _ hheld
      · exact hheld' r' hr'

/-- Holding the accounts of uncertain jobs changes nothing else. -/
theorem run_rememberHolds {accounts : DigestMap Account} (h : Backed host accounts o.journal) :
    ∃ accounts, (rememberHolds host).run o =
        (.ok (), o.setJournal { o.journal with accounts := accounts }) ∧
      ∀ id r, o.journal.records.get? id = some r → r.state = .inDoubt → r.input.isFind = false →
        HoldsAccount accounts (host.accountKey r.input) := by
  have hresident : ∀ r ∈ o.journal.records.values.filter
      fun r => decide (r.state = .inDoubt) && !r.input.isFind,
      (o.journal.accounts.get? (host.accountKey r.input)).isSome = true := by
    intro r hr
    obtain ⟨hmem, hcond⟩ := List.mem_filter.mp hr
    obtain ⟨id, hid⟩ := TrackedMap.mem_values.mp hmem
    obtain ⟨a, ha⟩ := h.resident id r hid (by simpa using (Bool.and_eq_true_iff.mp hcond).2)
    rw [ha]
    rfl
  obtain ⟨accounts, hrun, hheld, -⟩ := run_forEach_rememberHold hresident
  refine ⟨accounts, hrun, ?_⟩
  intro id r hid hstate hfind
  apply hheld
  rw [List.mem_filter]
  exact ⟨TrackedMap.mem_values.mpr ⟨id, hid⟩, by simp [hstate, hfind]⟩

/-- The job is in doubt and changed, over these rows. -/
structure Doubts (id : ℕ) (input : Input) (rows : Rows) (o : Owner) : Prop where
  record : ∃ r, o.journal.records.get? id = some r ∧ r.state = .inDoubt ∧ r.acknowledged = false ∧
    r.result = none ∧ r.input = input
  changed : o.journal.records.changed id = true
  rows : o.rows = rows

variable {id : ℕ} {input : Input} {rows : Rows}

theorem Doubts.congr (h : Doubts id input rows o) {o' : Owner}
    (hrecords : o'.journal.records = o.journal.records) (hrows : o'.rows = o.rows) :
    Doubts id input rows o' :=
  ⟨hrecords ▸ h.record, hrecords ▸ h.changed, hrows.trans h.rows⟩

theorem doubts_ask {α : Type} (answers : ℕ → α) : Keeps (Doubts id input rows) (ask answers) :=
  fun _ h => h.congr rfl rfl

theorem doubts_liftError {α : Type} (x : Except String α) :
    Keeps (Doubts id input rows) (liftError x) := by
  cases x with
  | ok a => exact keeps_pure _ a
  | error message => exact keeps_throw _ _

variable (host env) in
theorem doubts_charge (id' : ℕ) : Keeps (Doubts id input rows) (charge env host id') := by
  refine .bind (.bind (doubts_ask _) fun _ => doubts_liftError _) fun now => .bind keeps_getJournal
    fun j => .bind (keeps_require _ _ _) fun _ => .bind (doubts_ask _) fun answer =>
    .bind (keeps_orThrow _ _ _) fun elapsed => .bind (keeps_orThrow _ _ _) fun r => ?_
  intro o h
  obtain ⟨r', hr', hstate, hack, hresult, hinput⟩ := h.record
  refine ⟨?_, ?_, h.rows⟩
  · show ∃ r, (o.journal.records.update id' _).get? id = some r ∧ _
    rw [TrackedMap.get?_update]
    split_ifs
    · rw [hr', Option.map_some]
      exact ⟨_, rfl, hstate, hack, hresult, hinput⟩
    · exact ⟨r', hr', hstate, hack, hresult, hinput⟩
  · exact (TrackedMap.changed_update _ _ _ _).mpr (.inr h.changed)

/-- In doubt and held, in memory and in whatever was written. -/
structure Held (host : Host) (id : ℕ) (input : Input) (rows : Rows) (o : Owner) : Prop where
  record : ∃ r, o.journal.records.get? id = some r ∧ r.state = .inDoubt ∧ r.acknowledged = false ∧
    r.result = none ∧ r.input = input
  account : input.isFind = false → HoldsAccount o.journal.accounts (host.accountKey input)
  stored : o.rows = rows ∨ o.rows.records[id]? = o.journal.records.get? id ∧
    (input.isFind = false → o.rows.accounts[host.accountKey input]? =
      o.journal.accounts.get? (host.accountKey input))

/-- After the accounts were held, before anything is written. -/
theorem Doubts.rememberHolds {base : DigestMap Account} (h : Doubts id input rows o)
    (hsound : Sound host base o) :
    ∃ o', (rememberHolds host).run o = (.ok (), o') ∧ Doubts id input rows o' ∧
      Sound host base o' ∧
      (input.isFind = false → HoldsAccount o'.journal.accounts (host.accountKey input)) := by
  have hkeeps := keeps_rememberHolds o hsound
  obtain ⟨accounts, hrun, hheld⟩ := run_rememberHolds hsound.backed
  rw [hrun] at hkeeps
  refine ⟨_, hrun, h.congr rfl rfl, hkeeps, ?_⟩
  intro hfind
  obtain ⟨r, hr, hstate, -, -, rfl⟩ := h.record
  exact hheld id r hr hstate hfind

theorem Doubts.held (h : Doubts id input rows o)
    (hheld : input.isFind = false → HoldsAccount o.journal.accounts (host.accountKey input)) :
    Held host id input rows o :=
  ⟨h.record, hheld, .inl h.rows⟩

theorem records_written (j : Journal) (rows : Rows) (hchanged : j.records.changed id = true)
    {r : Record} (hr : j.records.get? id = some r) :
    (host.written j rows).records[id]? = some r := by
  show (j.records.writePuts rows.records)[id]? = some r
  rw [TrackedMap.getElem?_writePuts, if_pos hchanged, hr]
  rfl

theorem Doubts.diskSave {base : DigestMap Account} (h : Doubts id input rows o)
    (hsound : Sound host base o) : Held host id input rows ((diskSave env host).run o).2 := by
  obtain ⟨o', hrun, hdoubts, hsound', hheld⟩ := h.rememberHolds hsound
  obtain ⟨r, hr, hstate, hack, hresult, hinput⟩ := hdoubts.record
  have hstored : (host.written o'.journal o'.rows).records[id]? = o'.journal.records.get? id ∧
      (input.isFind = false → (host.written o'.journal o'.rows).accounts[host.accountKey input]? =
        o'.journal.accounts.get? (host.accountKey input)) := by
    refine ⟨by rw [records_written _ _ hdoubts.changed hr, hr], fun hfind => ?_⟩
    obtain ⟨a, ha, -⟩ := hheld hfind
    rw [getElem?_written hsound'.backed, ha]
    rfl
  obtain ⟨questions, uncertain, ⟨e, hnot⟩ | ⟨e, hlost⟩ | ⟨-, -, hdone⟩⟩ := diskSave_cases env host o
  · rw [hnot, hrun]
    exact ⟨hdoubts.record, hheld, .inl hdoubts.rows⟩
  · rw [hlost, hrun]
    exact ⟨hdoubts.record, hheld, .inr hstored⟩
  · rw [hdone, hrun]
    have hretained : input.isFind = false → (host.settled o'.journal).accounts.get?
        (host.accountKey input) = o'.journal.accounts.get? (host.accountKey input) := by
      intro hfind
      have hmem : host.accountKey input ∈ (o'.journal.records.values.filter
          fun r => !r.input.isFind).map fun r => host.accountKey r.input := by
        refine List.mem_map.mpr ⟨r, List.mem_filter.mpr ⟨TrackedMap.mem_values.mpr ⟨id, hr⟩, ?_⟩, ?_⟩
        · simp [hinput, hfind]
        · rw [hinput]
      simp only [Host.settled, TrackedMap.get?_evictExcept, TrackedMap.get?_clean]
      rw [if_pos (by simpa using hmem)]
    refine ⟨⟨r, hr, hstate, hack, hresult, hinput⟩, ?_, .inr ⟨hstored.1, ?_⟩⟩
    · intro hfind
      unfold HoldsAccount
      rw [hretained hfind]
      exact hheld hfind
    · intro hfind
      rw [hretained hfind]
      exact hstored.2 hfind

theorem Doubts.retainUncertainty {base : DigestMap Account} (h : Doubts id input rows o)
    (hsound : Sound host base o) :
    Held host id input rows ((retainUncertainty env host).run o).2 := by
  unfold Owner.retainUncertainty
  rw [run_modifyJournal_bind]
  have hsound₁ := keeps_observe
    (fun j => (j.records.values.map Record.accountedMs).foldl max j.observedMs) o hsound
  have h₁ : Doubts id input rows (o.setJournal { o.journal with
      observedMs := (o.journal.records.values.map Record.accountedMs).foldl max
        o.journal.observedMs }) := h.congr rfl rfl
  obtain ⟨o', hrun, hdoubts, hsound', hheld⟩ := h₁.rememberHolds hsound₁
  rw [run_bind, hrun]
  dsimp only
  rw [run_getJournal_bind, run_bind]
  cases host.validateDelta o'.journal with
  | error message => exact hdoubts.held hheld
  | ok u => exact hdoubts.diskSave hsound'

variable (host env) in
theorem run_completeInDoubt {r : Record} (hr : o.journal.records.get? id = some r)
    (outcome : Completed) : ∃ f : Record → Record,
      (∀ r, (f r).state = .inDoubt ∧ (f r).acknowledged = false ∧ (f r).result = none ∧
        (f r).input = r.input) ∧
      (completeInDoubt env host id outcome).run o =
        (.error (.invalid "provider cleanup or effects require reconciliation"),
          ((retainUncertainty env host).run
            ((finishRunning id).run ((charge env host id).run
              (o.setJournal (o.journal.updateRecord id f))).2).2).2) := by
  refine ⟨fun r => { r with
      state := .inDoubt, acknowledged := false, result := none
      failure := failureOf host outcome.result }, fun r => ⟨rfl, rfl, rfl, rfl⟩, ?_⟩
  unfold completeInDoubt
  rw [run_getJournal_bind, hr]
  rfl

theorem doubts_updateRecord {r : Record} (hr : o.journal.records.get? id = some r)
    {f : Record → Record} (hf : ∀ r, (f r).state = .inDoubt ∧ (f r).acknowledged = false ∧
      (f r).result = none ∧ (f r).input = r.input) :
    Doubts id r.input o.rows (o.setJournal (o.journal.updateRecord id f)) := by
  refine ⟨⟨f r, ?_, hf r⟩, ?_, rfl⟩
  · show (o.journal.records.update id f).get? id = _
    rw [TrackedMap.get?_update, if_pos rfl, hr]
    rfl
  · exact (TrackedMap.changed_update _ _ _ _).mpr (.inl ⟨rfl, by rw [hr]; rfl⟩)

/-- An outcome in doubt is stored so, holds its account and ends the owner. -/
theorem complete_inDoubt {base : DigestMap Account} (hsound : Sound host base o) {r : Record}
    (hr : o.journal.records.get? id = some r) {outcome : Completed}
    (hstate : outcome.state = .inDoubt) :
    (∃ e, ((complete env host id outcome).run o).1 = .error e) ∧
      Held host id r.input o.rows ((complete env host id outcome).run o).2 := by
  have hrun : (complete env host id outcome).run o = (completeInDoubt env host id outcome).run o := by
    unfold complete
    rw [if_pos hstate]
  obtain ⟨f, hf, hdoubt⟩ := run_completeInDoubt host env hr outcome
  have hdoubts := doubts_charge host env id _ (doubts_updateRecord hr hf)
  have hcharge : Keeps (Sound host base) (charge env host id) := keeps_charge id
  have hsound' := hcharge _ (keeps_updateRecord id (fun r => (hf r).2.2.2) o hsound)
  have hfinished : Doubts id r.input o.rows ((finishRunning id).run ((charge env host id).run
      (o.setJournal (o.journal.updateRecord id f))).2).2 := hdoubts.congr rfl rfl
  rw [hrun, hdoubt]
  exact ⟨⟨_, rfl⟩, hfinished.retainUncertainty (hsound'.frame rfl rfl rfl)⟩

end Owner

end Owner

end Naome.Jobs

namespace Naome.Jobs.Process

namespace Parent

variable {host : Host} {codec : Codec} {p q : Parent}

/-- Undecided: the attempt goes on, and its disposition is in doubt. -/
def Undecided (p : Parent) : Prop :=
  p.disposition = some .inDoubt ∧ ∀ result, p.stage ≠ .ended result

/-- Undecided, and clean only by a receipt. -/
structure Cautious (p : Parent) : Prop where
  undecided : p.Undecided
  cleaned : p.cleaned = true → .cleanupComplete p.record.id ∈ p.read

/-- Only a receipt, or a start that was never delivered, settles an attempt. -/
structure Decided (p : Parent) : Prop where
  ended : ∃ result, p.stage = .ended result
  settled : p.disposition = some .inDoubt ∨ p.startDelivered = false ∨
    .cleanupComplete p.record.id ∈ p.read

theorem undecided_leave (result : Except String Output) : (p.leave result).Undecided :=
  ⟨rfl, by rintro _ ⟨⟩⟩

theorem undecided_accept (h : p.Undecided) (hstage : p.stage = .reading) (elapsed : ℕ) (f : Frame) :
    (p.accept host codec elapsed f).Undecided := by
  have hsame : ∀ q : Parent, q.disposition = p.disposition → q.stage.executing = true →
      q.Undecided := by
    intro q hdisposition hexecuting
    refine ⟨hdisposition.trans h.1, fun result hended => ?_⟩
    rw [hended] at hexecuting
    cases hexecuting
  have hreading : p.stage.executing = true := by rw [hstage]; rfl
  cases f <;> simp only [accept, acceptIf, acceptFeedback, acceptReserve, acceptProgram,
    acceptResult] <;> repeat' split
  all_goals first
    | exact undecided_leave _
    | exact hsame _ rfl hreading
    | exact hsame _ rfl rfl

theorem cleaned_accept {elapsed : ℕ} {f : Frame}
    (h : (p.accept host codec elapsed f).cleaned = true) :
    p.cleaned = true ∨ f = .cleanupComplete p.record.id := by
  cases f with
  | cleanupComplete id =>
    by_cases hid : id = p.record.id
    · exact .inr (by rw [hid])
    · simp only [accept, if_neg hid] at h
      exact .inl h
  | _ =>
    left
    revert h
    simp only [accept, acceptIf, acceptFeedback, acceptReserve, acceptProgram, acceptResult]
    repeat' split
    all_goals exact fun h => h

theorem undecided_drained (h : p.Undecided) (error : Option String) : (p.drained error).Undecided := by
  unfold drained
  split
  · exact ⟨h.1, by rintro _ ⟨⟩⟩
  · exact h

theorem undecided_drain (h : p.Undecided) (f : Frame) : (p.drain f).Undecided := by
  cases f <;> simp only [drain] <;> split_ifs
  all_goals first | exact h | (apply undecided_drained; exact ⟨h.1, h.2⟩)

theorem cleaned_drained {error : Option String} : (p.drained error).cleaned = p.cleaned := by
  unfold drained
  split <;> rfl

theorem cleaned_drain {f : Frame} (h : (p.drain f).cleaned = true) :
    p.cleaned = true ∨ f = .cleanupComplete p.record.id := by
  cases f with
  | cleanupComplete id =>
    by_cases hid : id = p.record.id
    · exact .inr (by rw [hid])
    · simp only [drain, if_neg hid, cleaned_drained] at h
      exact .inl h
  | _ =>
    left
    revert h
    simp only [drain]
    split_ifs <;> simp [cleaned_drained]

theorem cautious_launch (record : Record) (launch : Launch) :
    (Parent.launch record launch).Cautious ∨ (Parent.launch record launch).Decided := by
  cases launch with
  | launched => exact .inl ⟨⟨rfl, by rintro _ ⟨⟩⟩, by rintro ⟨⟩⟩
  | expired | refused _ | unrestored _ | unidentified _ => exact .inr ⟨⟨_, rfl⟩, .inr (.inl rfl)⟩

/-- A step that may read more frames. -/
theorem Cautious.extend (h : p.Cautious) (hrecord : q.record = p.record) (hread : p.read ⊆ q.read)
    (hcleaned : q.cleaned = true → p.cleaned = true ∨ .cleanupComplete p.record.id ∈ q.read)
    (hundecided : q.Undecided) : q.Cautious := by
  refine ⟨hundecided, fun hq => ?_⟩
  rw [hrecord]
  rcases hcleaned hq with hp | hmem
  · exact hread (h.cleaned hp)
  · exact hmem

theorem Cautious.of_same (h : p.Cautious) (hsame : Same p q) (hcleaned : q.cleaned = p.cleaned)
    (hundecided : q.Undecided) : q.Cautious := by
  refine h.extend hsame.record ?_ (fun hq => .inl (hcleaned ▸ hq)) hundecided
  unfold read
  rw [hsame.frames, hsame.drainFrames]
  exact List.Subset.refl _

theorem Cautious.cutShort (h : p.Cautious) (error : Option String) :
    ({ p with cutShort := true }.drained error).Cautious := by
  have hundecided : { p with cutShort := true }.Undecided := h.undecided
  exact h.of_same (same_cutShort _) cleaned_drained (undecided_drained hundecided _)

theorem Cautious.answered (h : p.Cautious) {reply : Except String Unit}
    (hq : p.answered reply = some q) : q.Cautious := by
  have hfields : q.cleaned = p.cleaned ∧ q.Undecided := by
    have hopen := h.undecided
    unfold Parent.answered at hq
    split at hq
    all_goals cases hq
    all_goals first | exact ⟨rfl, hopen.1, by rintro _ ⟨⟩⟩ | exact ⟨rfl, undecided_leave _⟩ | skip
    split
    · exact ⟨rfl, hopen.1, by rintro _ ⟨⟩⟩
    · exact ⟨rfl, undecided_leave _⟩
  exact h.of_same (same_answered hq) hfields.1 hfields.2

theorem Cautious.reap (h : p.Cautious) (completion : Option State) (result : Except String Output)
    (drainError : Option String) (success : Bool) :
    (p.reap completion result drainError success).Decided := by
  unfold Parent.reap
  dsimp only
  by_cases hcleaned : (p.cleaned ||
      decide (p.startDelivered = false ∧ p.reader.total = 0 ∧ drainError = none)) = true
  · rw [if_pos hcleaned]
    refine ⟨⟨_, rfl⟩, .inr ?_⟩
    rcases Bool.or_eq_true_iff.mp hcleaned with hc | hstart
    · exact .inr (h.cleaned hc)
    · exact .inl (of_decide_eq_true hstart).1
  · rw [if_neg hcleaned]
    exact ⟨⟨_, rfl⟩, .inl rfl⟩

theorem Cautious.readExecuting (h : p.Cautious) (hstage : p.stage = .reading) {elapsed : ℕ}
    {filled : Filled} {reader : FrameReader} :
    ({ p with reader := reader }.readExecuting host codec elapsed filled).Cautious := by
  have hopen := h.undecided
  have hsame := same_readExecuting host codec { p with reader := reader } elapsed filled
  have hread : ({ p with reader := reader }.readExecuting host codec elapsed filled).read =
      p.frames ++ filledFrames codec filled ++ p.drainFrames := by
    unfold read
    rw [hsame.frames, hsame.drainFrames]
  refine h.extend hsame.record ?_ ?_ ?_
  · rw [hread]
    simp only [read]
    grind
  · rw [hread]
    cases filled with
    | ended | failed _ | more => exact .inl
    | frame bytes =>
      simp only [Parent.readExecuting, filledFrames]
      split
      · exact .inl
      · next f hf =>
        intro hq
        rw [hf]
        rcases cleaned_accept hq with hcleaned | hreceipt
        · exact .inl hcleaned
        · have hreceipt' : f = .cleanupComplete p.record.id := hreceipt
          simp [hreceipt']
  · cases filled with
    | ended | failed _ => exact undecided_leave _
    | more => exact hopen
    | frame bytes =>
      simp only [Parent.readExecuting]
      split
      · exact undecided_leave _
      · apply undecided_accept
        · exact hopen
        · exact hstage

theorem Cautious.readDraining (h : p.Cautious) {filled : Filled} {reader : FrameReader} :
    ({ p with reader := reader }.readDraining codec filled).Cautious := by
  have hopen := h.undecided
  have hsame := same_readDraining codec { p with reader := reader } filled
  have hread : ({ p with reader := reader }.readDraining codec filled).read =
      p.frames ++ (p.drainFrames ++ filledFrames codec filled) := by
    unfold read
    rw [hsame.frames, hsame.drainFrames]
  refine h.extend hsame.record ?_ ?_ ?_
  · rw [hread]
    simp only [read]
    grind
  · rw [hread]
    cases filled with
    | more => exact .inl
    | ended | failed _ =>
      simp only [Parent.readDraining, cleaned_drained]
      exact .inl
    | frame bytes =>
      simp only [Parent.readDraining, filledFrames]
      split
      · rw [cleaned_drained]
        exact .inl
      · next f hf =>
        intro hq
        rw [hf]
        rcases cleaned_drain hq with hcleaned | hreceipt
        · exact .inl hcleaned
        · have hreceipt' : f = .cleanupComplete p.record.id := hreceipt
          simp [hreceipt']
  · cases filled with
    | more => exact hopen
    | ended | failed _ =>
      apply undecided_drained
      exact hopen
    | frame bytes =>
      simp only [Parent.readDraining]
      split
      · apply undecided_drained
        exact hopen
      · apply undecided_drain
        exact hopen

theorem Cautious.step (h : p.Cautious) {event : Event} (hq : p.step host codec event = some q) :
    q.Cautious ∨ q.Decided := by
  have hopen := h.undecided
  cases event with
  | startWritten =>
    obtain ⟨hstage, rfl⟩ := step_startWritten hq
    exact .inl ⟨⟨hopen.1, by rintro _ ⟨⟩⟩, h.cleaned⟩
  | grantWritten =>
    obtain ⟨next, outstanding, hstage, rfl⟩ := step_grantWritten hq
    exact .inl ⟨⟨hopen.1, by rintro _ ⟨⟩⟩, h.cleaned⟩
  | exited success =>
    obtain ⟨completion, result, drainError, -, rfl⟩ := step_exited hq
    exact .inr (h.reap _ _ _ _)
  | fill buffer elapsed =>
    rcases step_fill hq with ⟨hstage, rfl⟩ | ⟨-, rfl⟩
    · exact .inl (h.readExecuting hstage)
    · exact .inl h.readDraining
  | answered reply => exact .inl (h.answered hq)
  | cancelled | expired =>
    simp only [Parent.step, Option.ite_none_right_eq_some, Option.some.injEq] at hq
    obtain ⟨-, rfl⟩ := hq
    exact .inl ⟨undecided_leave _, h.cleaned⟩
  | startFailed _ | readFailed _ | grantFailed _ | drainDeadline | waitFailed _ | reapDeadline =>
    unfold Parent.step at hq
    split at hq
    all_goals first | contradiction | skip
    all_goals cases hq
    all_goals first
      | exact .inl ⟨undecided_leave _, h.cleaned⟩
      | exact .inl (h.cutShort _)
      | exact .inr ⟨⟨_, rfl⟩, .inl rfl⟩
      | exact .inr ⟨⟨_, rfl⟩, .inl hopen.1⟩

/-- An attempt that has ended takes no step. -/
theorem step_ended {result : Except String Output} (h : p.stage = .ended result) (event : Event) :
    p.step host codec event = none := by
  cases event <;> simp [step, Parent.answered, h, Stage.executing]

theorem record_of_step {event : Event} (h : p.step host codec event = some q) :
    q.record = p.record := by
  by_cases hexternal : event.isExternal = true
  · exact (same_of_external hexternal h).record
  · cases event with
    | startWritten =>
      obtain ⟨-, rfl⟩ := step_startWritten h
      rfl
    | grantWritten =>
      obtain ⟨_, _, -, rfl⟩ := step_grantWritten h
      rfl
    | exited success =>
      obtain ⟨_, _, _, -, rfl⟩ := step_exited h
      exact (same_reap _ _ _ _).record
    | fill buffer elapsed =>
      rcases step_fill h with ⟨-, rfl⟩ | ⟨-, rfl⟩
      · exact (same_readExecuting host codec _ elapsed _).record
      · exact (same_readDraining codec _ _).record
    | _ => exact absurd rfl hexternal

end Parent

section Runs

variable {host : Host} {codec : Codec} {program : Worker} {s s' : System} {record : Record}
  {launch : Launch}

/-- A step moves the parent by one of its events, or not at all. -/
theorem Step.parent_cases (h : Step host codec program s s') : s'.parent = s.parent ∨
    ∃ event, s.parent.step host codec event = some s'.parent := by
  cases h with
  | parent event _ hp => exact .inr ⟨event, hp⟩
  | parentStart hp | parentGrant _ hp | parentReaps _ hp | parentEnded _ _ hp
  | parentFill _ _ _ hp => exact .inr ⟨_, hp⟩
  | supervisorForwards =>
    left
    simp only [System.forward]
    split_ifs <;> rfl
  | _ => exact .inl rfl

theorem Runs.parent (h : Runs host codec program (.launched record launch) s) :
    s.parent.record = record ∧ (s.parent.Cautious ∨ s.parent.Decided) := by
  induction h with
  | refl => exact ⟨by cases launch <;> rfl, Parent.cautious_launch record launch⟩
  | tail _ hstep ih =>
    obtain ⟨hrecord, hparent⟩ := ih
    rcases hstep.parent_cases with hsame | ⟨event, hevent⟩
    · rw [hsame]
      exact ⟨hrecord, hparent⟩
    · refine ⟨(Parent.record_of_step hevent).trans hrecord, ?_⟩
      rcases hparent with hcautious | hdecided
      · exact hcautious.step hevent
      · obtain ⟨result, hended⟩ := hdecided.ended
        rw [Parent.step_ended hended] at hevent
        cases hevent

theorem Runs.emits {P : Frame → Prop} (hprogram : program.Emits P)
    (h : Runs host codec program (.launched record launch) s) :
    s.worker.Emits P ∧ ∀ f ∈ s.emitted, P f := by
  induction h with
  | refl => exact ⟨trivial, by simp [System.launched]⟩
  | tail _ hstep ih =>
    obtain ⟨hworker, hemitted⟩ := ih
    cases hstep with
    | supervisorSpawns => exact ⟨hprogram, hemitted⟩
    | supervisorForwards =>
      simp only [System.forward]
      split_ifs <;> exact ⟨hworker, hemitted⟩
    | workerEmits _ hw =>
      rw [hw] at hworker
      refine ⟨hworker.2 _, ?_⟩
      intro f hf
      rcases List.mem_append.mp hf with hf | hf
      · exact hemitted f hf
      · rw [List.mem_singleton.mp hf]
        exact hworker.1
    | workerFails _ hw | workerReceives _ hw | workerLosesLifeline _ hw | workerReads _ hw
    | workerExecutes _ hw =>
      rw [hw] at hworker
      first | exact ⟨hworker.2 _, hemitted⟩ | exact ⟨hworker _, hemitted⟩ | exact ⟨hworker, hemitted⟩
    | _ => exact ⟨hworker, hemitted⟩

/-- A supervisor that doubts its cleanup confirms none. -/
theorem Wired.not_confirmed (h : Wired host codec s) (hemitted : ∀ f ∈ s.emitted, f.isCleanup = false)
    {error : String} (hfailed : .cleanupFailed s.id error ∈ s.sent) :
    .cleanupComplete s.id ∉ s.sent := by
  have hpassed : ∀ f : Frame, f.isCleanup = true → f ∉ s.passed := by
    intro f hf hmem
    rw [hemitted f (h.passed_isPrefix.subset hmem)] at hf
    cases hf
  have hforwarded : ∀ f : Frame, f.isCleanup = true → f ∉ s.passed.filter fun f => !f.isResult :=
    fun f hf hmem => hpassed f hf (List.mem_of_mem_filter hmem)
  obtain ⟨receipts, hsent, hreceipts⟩ := h.sent
  rw [hsent] at hfailed ⊢
  have hmem : .cleanupFailed s.id error ∈ receipts :=
    (List.mem_append.mp hfailed).resolve_left (hforwarded _ rfl)
  intro hconfirmed
  have hmem' : .cleanupComplete s.id ∈ receipts :=
    (List.mem_append.mp hconfirmed).resolve_left (hforwarded _ rfl)
  generalize s.supervisor.stage = stage at hreceipts
  cases hreceipts with
  | waiting | running | finishing | silent => cases hmem
  | cleaned | confirmed => simp at hmem
  | doubted error' => simp at hmem'
  | delivered f hf hresult =>
    simp only [List.mem_cons, reduceCtorEq, List.not_mem_nil, or_false, false_or] at hmem
    exact hpassed _ rfl (hmem ▸ hf)

/-- The effects of the attempt are uncertain: the worker or the supervisor reported so, or the
attempt was started and no receipt was read. -/
def Unsettled (s : System) : Prop :=
  (∃ error, .uncertain s.id error ∈ s.emitted) ∨ (∃ error, .cleanupFailed s.id error ∈ s.sent) ∨
    s.parent.startDelivered = true ∧ .cleanupComplete s.id ∉ s.parent.read

theorem isCleanup_work {σ : Type} (provider : Provider σ) (pid : ℕ) (state : σ) :
    (work host provider codec record pid state).Emits fun f => f.isCleanup = false := by
  have hcalls : ∀ call : Call, (call.frame record.id).isCleanup = false := by
    intro call
    cases call with
    | probe probe => cases probe <;> rfl
    | _ => rfl
  refine emits_work hcalls provider codec record pid state rfl rfl ?_
  rintro (failure | output)
  · cases failure <;> rfl
  · rfl

/-- Uncertain effects stay in doubt, unless the parent reads the receipt of a confirmed cleanup
after the worker has reported its uncertainty; and the owner stores a job in doubt and holds its
account. -/
theorem unsettled_inDoubt {σ : Type} {provider : Provider σ} {pid : ℕ} {state : σ}
    (hc : codec.Lawful)
    (hrun : Runs host codec (work host provider codec record pid state) (.launched record launch) s)
    {outcome : Completed} (hended : s.parent.outcome = some outcome) (hunsettled : Unsettled s)
    (hreceipt : (∃ error, .uncertain record.id error ∈ s.emitted) →
      .cleanupComplete record.id ∉ s.parent.read) :
    outcome.state = .inDoubt ∧
      ∀ (env : Environment) (steps : List Jobs.Step) (o : Owner) (tasks : List ℕ) (r : Record),
        run env host steps = .running o → o.journal.records.get? record.id = some r →
        (∃ e, ((Owner.complete env host record.id outcome).run { o with tasks := tasks }).1 =
          .error e) ∧
        Owner.Held host record.id r.input o.rows
          ((Owner.complete env host record.id outcome).run { o with tasks := tasks }).2 := by
  have hwired := Runs.wired hc hrun
  obtain ⟨hrecord, hparent⟩ := Runs.parent hrun
  obtain ⟨-, hemitted⟩ := Runs.emits (isCleanup_work provider pid state) hrun
  have hid : s.id = record.id := by rw [System.id, hrecord]
  have hstart : s.parent.startDelivered = true := by
    rcases hunsettled with ⟨error, hmem⟩ | ⟨error, hmem⟩ | ⟨hstart, -⟩
    · by_contra hfalse
      rw [(hwired.unstarted (by simpa using hfalse)).1] at hmem
      cases hmem
    · by_contra hfalse
      rw [(hwired.unstarted (by simpa using hfalse)).2.1] at hmem
      cases hmem
    · exact hstart
  have hunread : .cleanupComplete s.id ∉ s.parent.read := by
    rcases hunsettled with hreported | ⟨error, hmem⟩ | ⟨-, hunread⟩
    · rw [hid] at hreported ⊢
      exact hreceipt hreported
    · exact fun hread => hwired.not_confirmed hemitted hmem (hwired.read_isPrefix.subset hread)
    · exact hunread
  have hstate : outcome.state = .inDoubt := by
    unfold Parent.outcome at hended
    split at hended
    · next result hstage =>
      cases hended
      rcases hparent with hcautious | hdecided
      · exact absurd hstage (hcautious.undecided.2 result)
      · rcases hdecided.settled with hdoubt | hunstarted | hread
        · simp only [hdoubt, Option.getD_some]
        · rw [hstart] at hunstarted
          cases hunstarted
        · exact absurd hread hunread
    · cases hended
  refine ⟨hstate, ?_⟩
  intro env steps o tasks r hnode hr
  have hsound := sound_run env host [] steps
  rw [List.nil_append, hnode] at hsound
  exact Owner.complete_inDoubt (o := { o with tasks := tasks }) (hsound.frame rfl rfl rfl) hr hstate

/-- A clock that stands still and a disk that takes every row. -/
def smallEnvironment : Environment where
  wallMs _ := .ok 0
  elapsedMs _ := some 0
  readable _ := .ok ()
  commit _ := .committed
  active _ := ⟨4, 4, 4⟩
  closed _ _ := false
  diskSpace _ := .ok ()
  computation _ := true
  slots _ := 4
  slot _ := .ok true
  flushDue _ := false
  markerWritten _ := true
  nextTask _ := 0
  outcome _ := ⟨.cancelled, .error "research cancelled"⟩

/-- The job is submitted and started. -/
def submission : List Jobs.Step :=
  let r := smallRecord (.solve "question") .standard
  [.start ⟨r.settings, r.settings, r.settings⟩ 0, .event (.submit r.input r.binding 0)]

def journalOf : Node → Option Journal
  | .running o => some o.journal
  | .stopped _ => none

theorem running_of_journalOf {node : Node} {r : Option Record} {id : ℕ}
    (h : (journalOf node).map (fun j => j.records.get? id) = some r) :
    ∃ o, node = .running o ∧ o.journal.records.get? id = r := by
  cases node with
  | running o => exact ⟨o, rfl, Option.some.inj h⟩
  | stopped m => cases h

theorem journal_submission :
    (journalOf (run smallEnvironment smallHost submission)).map (fun j => j.records.get? 1) =
      some (some (smallRecord (.solve "question") .standard)) := by
  decide +kernel

/-- The supervisor exits without a word: the job is in doubt, and the owner that started it holds
its account. -/
theorem lostSupervisor_inDoubt :
    ∃ (codec : Codec) (provider : Provider Unit) (s : System) (outcome : Completed) (o : Owner),
      let record := smallRecord (.solve "question") .standard
      codec.Lawful ∧
      Runs smallHost codec (work smallHost provider codec record 2 ()) (.launched record .launched) s ∧
      Unsettled s ∧ s.parent.outcome = some outcome ∧ outcome.state = .inDoubt ∧
      run smallEnvironment smallHost submission = .running o ∧
      o.journal.records.get? 1 = some record ∧
      Owner.HoldsAccount ((Owner.complete smallEnvironment smallHost 1 outcome).run
        { o with tasks := [] }).2.journal.accounts (smallHost.accountKey record.input) := by
  have hempty : IsTable [] 0 := by decide
  obtain ⟨toVec, fromSlice, hc, -⟩ := exists_codec_table hempty (fun _ => "0") 0
  let codec : Codec := ⟨toVec, fromSlice, fun _ => "0", 0⟩
  let record := smallRecord (.solve "question") .standard
  let provider : Provider Unit := ⟨fun s => .pure (.ok (), s), fun _ _ => .ok none,
    fun s _ => .pure (.ok (), s), fun s => .pure (.ok .noCandidate, s)⟩
  let error := "provider cleanup receipt is absent; recovery is uncertain"
  let s : System := { System.launched record .launched with
    parent := { Parent.launch record .launched with
      startDelivered := true, stage := .ended (.error error) }
    supervisor := ⟨.exited false, [], 0, none⟩ }
  have hrun : Runs smallHost codec (work smallHost provider codec record 2 ())
      (.launched record .launched) s := by
    have hstart : Step smallHost codec (work smallHost provider codec record 2 ())
        (.launched record .launched) _ := .parentStart rfl
    have hexited := (Relation.ReflTransGen.single hstart).tail
      (.supervisorExits (by simp [System.launched]) [] (by simp))
    exact ((hexited.tail (.parentEnded rfl rfl rfl)).tail (.parentEnded rfl rfl rfl)).tail
      (.parentReaps rfl rfl)
  have hunsettled : Unsettled s := .inr (.inr ⟨rfl, List.not_mem_nil⟩)
  obtain ⟨hdoubt, hheld⟩ := unsettled_inDoubt hc hrun rfl hunsettled fun _ => List.not_mem_nil
  obtain ⟨o, hnode, hrecord⟩ := running_of_journalOf journal_submission
  exact ⟨codec, provider, s, ⟨.inDoubt, .error error⟩, o, hc, hrun, hunsettled, rfl, hdoubt, hnode,
    hrecord, (hheld smallEnvironment submission o [] record hnode hrecord).2.account rfl⟩

/-- The texts of an attempt whose provider cannot tell what it did. -/
def uncertainTexts : List (Frame × List UInt8) := [
  (.ready 1 "0" 2, asciiBytes
    "\x7b\"event\":\"ready\",\"id\":1,\"binding\":\"0\",\"pid\":2\x7d"),
  (.feedback 1 .setup ⟨0, 0, none, none, ⟨0, 0⟩, false⟩, asciiBytes
      "\x7b\"event\":\"feedback\",\"id\":1,\"phase\":\x7b\"phase\":\"setup\"\x7d,\"sample\":\x7b" ++
    asciiBytes
      "\"elapsed_nanos\":0,\"blocked_nanos\":0,\"cpu_nanos\":null,\"peak_rss_bytes\":null," ++
    asciiBytes "\"check\":\x7b\"units\":0,\"nanos\":0\x7d,\"succeeded\":false\x7d\x7d"),
  (.uncertain 1 "effect requires reconciliation", asciiBytes
    "\x7b\"event\":\"uncertain\",\"id\":1,\"error\":\"effect requires reconciliation\"\x7d"),
  (.cleanupComplete 1, asciiBytes "\x7b\"event\":\"cleanup_complete\",\"id\":1\x7d")]

set_option maxRecDepth 10000 in
theorem isTable_uncertainTexts : IsTable uncertainTexts 256 := by
  unfold uncertainTexts
  rw [asciiBytes_ofList, asciiBytes_ofList, asciiBytes_ofList, asciiBytes_ofList,
    asciiBytes_ofList, asciiBytes_ofList]
  decide

/-- How a worker goes on once its frame is answered. -/
def resumed (failed : String → Worker) (granted : Worker) : Except String Unit → Worker
  | .error e => failed e
  | .ok () => granted

/-- The receipt of a confirmed cleanup turns a reported uncertainty into a failure. -/
theorem receipt_settles_uncertain :
    ∃ (host : Host) (codec : Codec) (record : Record) (provider : Provider Unit) (s : System)
      (outcome : Completed), codec.Lawful ∧ (∀ e ∈ uncertainTexts, codec.toVec e.1 = e.2) ∧
      Runs host codec (work host provider codec record 2 ()) (.launched record .launched) s ∧
      Unsettled s ∧ s.parent.outcome = some outcome ∧ outcome.state = .failed := by
  obtain ⟨toVec, fromSlice, hc, htexts, hlength⟩ :=
    exists_codec_table isTable_uncertainTexts (fun _ => "0") 0
  let codec : Codec := ⟨toVec, fromSlice, fun _ => "0", 0⟩
  have hlawful : codec.Lawful := hc
  have hmax : 256 ≤ smallHost.maxFrameBytes := by decide
  let record := smallRecord (.solve "question") .standard
  let error := "effect requires reconciliation"
  let provider : Provider Unit := ⟨fun s => .pure (.error (.uncertain error), s),
    fun _ _ => .ok none, fun s _ => .pure (.ok (), s), fun s => .pure (.ok .noCandidate, s)⟩
  let ready : Frame := .ready 1 "0" 2
  let feedback : Frame := .feedback 1 .setup ⟨0, 0, none, none, ⟨0, 0⟩, false⟩
  let uncertain : Frame := .uncertain 1 error
  let receipt : Frame := .cleanupComplete 1
  have hready : (codec.line ready).length ≤ 256 := hlength _ (by simp [uncertainTexts, ready])
  have hfeedback : (codec.line feedback).length ≤ 256 :=
    hlength _ (by simp [uncertainTexts, feedback])
  have huncertain : (codec.line uncertain).length ≤ 256 :=
    hlength _ (by simp [uncertainTexts, uncertain, error])
  have hreceipt : (codec.line receipt).length ≤ 256 :=
    hlength _ (by simp [uncertainTexts, receipt])
  have hstream : 4 * 256 ≤ smallHost.providerStreamBytes := by decide
  let program := work smallHost provider codec record 2 ()
  let final := resumed (fun e => .emit (.failed 1 e) fun _ => .exited) (.emit uncertain fun _ => .exited)
  let setup := resumed (fun _ => .exited) (.read fun first => .read fun last =>
    .emit (.feedback 1 .setup (measurement first last false)) final)
  -- the worker is ready and reads its meter twice
  let s₀ := System.spawned record program
  have hidle₀ : Idle s₀ 0 := idle_spawned record
  let s₁ := s₀.delivered smallHost codec ready setup
  obtain ⟨h₁, hidle₁⟩ : Runs smallHost codec program s₀ s₁ ∧ Idle s₁ (0 + (codec.line ready).length) :=
    Runs.deliver hlawful hidle₀ rfl rfl rfl (by omega) (by omega)
  let reading : Reading := ⟨0, none, none, ⟨0, 0⟩, 0⟩
  let s₂ : System := { s₁ with worker := .emit feedback final }
  have h₂ : Runs smallHost codec program s₁ s₂ := by
    let measuring : Worker := .read fun last =>
      .emit (.feedback 1 .setup (measurement reading last false)) final
    have hfirst : Step smallHost codec program s₁ _ :=
      .workerReads rfl rfl reading rfl (by simp [reading])
    have hlast : Step smallHost codec program { s₁ with worker := measuring } _ :=
      .workerReads rfl rfl reading rfl (by simp [reading])
    exact (Relation.ReflTransGen.single hfirst).tail hlast
  have hidle₂ : Idle s₂ (0 + (codec.line ready).length) := hidle₁.setWorker _
  -- the parent leaves its execution in doubt and drains the receipt
  let s₃ := s₂.delivered smallHost codec feedback final
  obtain ⟨h₃, hidle₃⟩ : Runs smallHost codec program s₂ s₃ ∧ Idle s₃ _ :=
    Runs.deliver hlawful hidle₂ rfl rfl rfl (by omega) (by omega)
  let s₄ := s₃.delivered smallHost codec uncertain fun _ => .exited
  obtain ⟨h₄, hidle₄⟩ : Runs smallHost codec program s₃ s₄ ∧ Idle s₄ _ :=
    Runs.deliver hlawful hidle₃ rfl rfl rfl (by omega) (by omega)
  have hid : .cleanupComplete s₄.id = receipt := rfl
  obtain ⟨s, h₅, hemitted, -, -, -, hstage, hdisposition⟩ :=
    Runs.close smallHost program hlawful hidle₄ rfl (by rw [hid]; omega) (by rw [hid]; omega)
  have hrun : Runs smallHost codec program (.launched record .launched) s :=
    ((((Runs.spawn record).trans h₁).trans h₂).trans h₃).trans (h₄.trans h₅)
  refine ⟨smallHost, codec, record, provider, s, ⟨.failed, .error error⟩, hlawful, htexts, hrun,
    .inl ⟨error, ?_⟩, ?_, rfl⟩
  · have hid : s.id = 1 := congrArg Record.id (Runs.parent hrun).1
    rw [hemitted, hid]
    exact List.mem_append_right _ List.mem_cons_self
  · unfold Parent.outcome
    rw [hstage, hdisposition]
    rfl

end Runs

end Naome.Jobs.Process
