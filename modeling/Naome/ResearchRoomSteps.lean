import Naome.ResearchRoom
import Naome.ResearchFailures

/-!
# Room along the steps of the owner

What every command, event and regular step of the owner does to the room of its journal, and that no
save on the way fails for want of it.
-/
namespace Naome.Jobs
open Outcome Effect Size

/-- The error of a save that finds no room. -/
def capacityFailure : Error := .corrupt "research reserved result byte capacity"

/-- The environment fails for reasons of its own. -/
structure Environment.Foreign (env : Environment) : Prop where
  wallMs : ∀ n, env.wallMs n ≠ .error "research reserved result byte capacity"
  readable : ∀ n, env.readable n ≠ .error "research reserved result byte capacity"
  commit : ∀ n, env.commit n ≠ .refused capacityFailure
  diskSpace : ∀ n, env.diskSpace n ≠ .error capacityFailure

namespace Owner

variable {α β : Type} {host : Host} {env : Environment}

/-- A result with `Q`; a failure leaves `R`, and is not for want of room. -/
def ends (R : Owner → Prop) (Q : α → Owner → Prop) : Except Error α → Owner → Prop
  | .ok a, o => Q a o
  | .error e, o => R o ∧ e ≠ capacityFailure

variable (host) in
abbrev after (Q : α → Owner → Prop) : Except Error α → Owner → Prop := ends (Roomy host) Q

section Rules

variable {P P' R R' : Owner → Prop} {m : OwnerM α} {f : α → OwnerM β} {Q : α → Owner → Prop}
  {Q' : β → Owner → Prop}

theorem spec_bind (h : Spec P m (ends R Q)) (hf : ∀ a, Spec (Q a) (f a) (ends R Q')) :
    Spec P (m >>= f) (ends R Q') := by
  intro o ho
  have hfirst := h o ho
  rw [run_bind]
  rcases hm : m.run o with ⟨r, t⟩
  rw [hm] at hfirst
  cases r with
  | ok a => exact hf a t hfirst
  | error e => exact hfirst

theorem spec_weaken (h : Spec P m (ends R Q)) {S : α → Owner → Prop} (hP : ∀ o, P' o → P o)
    (hQ : ∀ a o, Q a o → S a o) (hR : ∀ o, R o → R' o) : Spec P' m (ends R' S) := by
  intro o ho
  have hm := h o (hP o ho)
  rcases hrun : m.run o with ⟨r, t⟩
  rw [hrun] at hm
  cases r with
  | ok a => exact hQ a t hm
  | error e => exact ⟨hR t hm.1, hm.2⟩

theorem spec_mono (h : Spec P m (ends R Q)) {S : α → Owner → Prop} (hP : ∀ o, P' o → P o)
    (hQ : ∀ a o, Q a o → S a o) : Spec P' m (ends R S) :=
  spec_weaken h hP hQ fun _ ho => ho

theorem spec_pure {a : α} (h : ∀ o, P o → Q a o) : Spec P (Pure.pure a : OwnerM α) (ends R Q) := h

theorem spec_modify {g : Owner → Owner} {Q : Unit → Owner → Prop} (h : ∀ o, P o → Q () (g o)) :
    Spec P (Effect.modify g : OwnerM Unit) (ends R Q) := h

theorem spec_modifyJournal {g : Journal → Journal} {Q : Unit → Owner → Prop}
    (h : ∀ o, P o → Q () (o.setJournal (g o.journal))) :
    Spec P (modifyJournal g) (ends R Q) := h

theorem spec_throw {e : Error} (he : e ≠ capacityFailure) (h : ∀ o, P o → R o) :
    Spec P (throw e : OwnerM α) (ends R Q) := fun o ho => ⟨h o ho, he⟩

theorem spec_state {f : Owner → OwnerM β}
    (h : ∀ s, Spec (fun o => P o ∧ o = s) (f s) (ends R Q')) :
    Spec P (state >>= f) (ends R Q') := fun o ho => h o o ⟨ho, rfl⟩

theorem spec_getJournal {f : Journal → OwnerM β}
    (h : ∀ j, Spec (fun o => P o ∧ o.journal = j) (f j) (ends R Q')) :
    Spec P (getJournal >>= f) (ends R Q') := fun o ho => h o.journal o ⟨ho, rfl⟩

/-- A journal that is read for what it decides, not for what it says. -/
theorem spec_readJournal {f : Journal → OwnerM β} (h : ∀ j, Spec P (f j) (ends R Q')) :
    Spec P (getJournal >>= f) (ends R Q') := fun o ho => h o.journal o ho

theorem spec_readState {f : Owner → OwnerM β} (h : ∀ s, Spec P (f s) (ends R Q')) :
    Spec P (state >>= f) (ends R Q') := fun o ho => h o o ho

theorem spec_require {p : Prop} [Decidable p] {e : Error} {f : Unit → OwnerM β}
    (he : e ≠ capacityFailure) (hroomy : ∀ o, P o → R o)
    (h : p → Spec P (f ()) (ends R Q')) : Spec P (require p e >>= f) (ends R Q') := by
  intro o ho
  rw [run_bind, run_require]
  split_ifs with hp
  · exact h hp o ho
  · exact ⟨hroomy o ho, he⟩

theorem spec_orThrow {x : Option α} {e : Error} (he : e ≠ capacityFailure)
    (hroomy : ∀ o, P o → R o) (h : ∀ a, x = some a → Spec P (f a) (ends R Q')) :
    Spec P (orThrow e x >>= f) (ends R Q') := by
  cases x with
  | none => exact fun o ho => ⟨hroomy o ho, he⟩
  | some a => exact h a rfl

theorem spec_ite {c : Prop} [Decidable c] {m' : OwnerM α} (h : c → Spec P m (ends R Q))
    (h' : ¬c → Spec P m' (ends R Q)) : Spec P (if c then m else m') (ends R Q) := by
  split_ifs with hc
  · exact h hc
  · exact h' hc

theorem spec_onlyIf {c : Bool} {m : OwnerM Unit} (h : Spec P m (ends R fun _ => P)) :
    Spec P (onlyIf c m) (ends R fun _ => P) :=
  spec_ite (fun _ => h) fun _ => spec_pure fun _ ho => ho

theorem spec_forEach {g : α → OwnerM Unit} {xs : List α}
    (h : ∀ x ∈ xs, Spec P (g x) (ends R fun _ => P)) :
    Spec P (forEach g xs) (ends R fun _ => P) := by
  induction xs with
  | nil => exact spec_pure fun _ ho => ho
  | cons x xs ih =>
    apply spec_bind (h x List.mem_cons_self)
    intro _
    exact ih fun y hy => h y (List.mem_cons_of_mem x hy)

/-- An error that is taken as a value. -/
theorem spec_attempt (h : Spec P m (ends R Q)) (hQ : ∀ a o, Q a o → R o) :
    Spec P m.attempt (ends R' fun r o => R o ∧ r ≠ .error capacityFailure) := by
  intro o ho
  have hm := h o ho
  show R (m.run o).2 ∧ (m.run o).1 ≠ .error capacityFailure
  rcases hrun : m.run o with ⟨r, t⟩
  rw [hrun] at hm
  cases r with
  | ok a => exact ⟨hQ a t hm, by simp⟩
  | error e => exact ⟨hm.1, fun heq => hm.2 (Except.error.inj heq)⟩

end Rules

/-- The journal and the processes stay, and a failure is not for want of room. -/
def Quiet (m : OwnerM α) : Prop := ∀ o, (m.run o).2.journal = o.journal ∧
  (m.run o).2.running = o.running ∧ (m.run o).1 ≠ .error capacityFailure

theorem Quiet.bind {m : OwnerM α} {f : α → OwnerM β} (h : Quiet m) (hf : ∀ a, Quiet (f a)) :
    Quiet (m >>= f) := by
  intro o
  have hm := h o
  rw [run_bind]
  rcases hrun : m.run o with ⟨r, t⟩
  rw [hrun] at hm
  cases r with
  | ok a =>
    obtain ⟨hjournal, hrunning, hfine⟩ := hf a t
    exact ⟨hjournal.trans hm.1, hrunning.trans hm.2.1, hfine⟩
  | error e => exact ⟨hm.1, hm.2.1, fun heq => hm.2.2 (by rw [Except.error.inj heq])⟩

theorem quiet_pure (a : α) : Quiet (Pure.pure a : OwnerM α) := fun _ => ⟨rfl, rfl, by simp [run_pure]⟩

theorem quiet_throw {e : Error} (he : e ≠ capacityFailure) : Quiet (throw e : OwnerM α) :=
  fun _ => ⟨rfl, rfl, fun heq => he (Except.error.inj heq)⟩

theorem quiet_ask (answers : ℕ → α) : Quiet (ask answers) := fun _ => ⟨rfl, rfl, by simp [ask]⟩

theorem quiet_state : Quiet (state : OwnerM Owner) := fun _ => ⟨rfl, rfl, by simp [run_state]⟩

theorem quiet_getJournal : Quiet getJournal := quiet_state.bind fun _ => quiet_pure _

theorem quiet_modify {g : Owner → Owner} (hjournal : ∀ o, (g o).journal = o.journal)
    (hrunning : ∀ o, (g o).running = o.running) : Quiet (Effect.modify g : OwnerM Unit) :=
  fun o => ⟨hjournal o, hrunning o, by simp [run_modify]⟩

theorem quiet_require (p : Prop) [Decidable p] {e : Error} (he : e ≠ capacityFailure) :
    Quiet (require p e : OwnerM Unit) := by
  unfold Effect.require
  split_ifs
  · exact quiet_pure _
  · exact quiet_throw he

theorem quiet_orThrow (x : Option α) {e : Error} (he : e ≠ capacityFailure) :
    Quiet (orThrow e x : OwnerM α) := by
  cases x with
  | none => exact quiet_throw he
  | some a => exact quiet_pure a

theorem Quiet.ite {c : Prop} [Decidable c] {m m' : OwnerM α} (h : Quiet m) (h' : Quiet m') :
    Quiet (if c then m else m') := by
  split_ifs
  · exact h
  · exact h'

theorem quiet_liftError (x : Except String α) : Quiet (liftError x) := by
  cases x with
  | ok a => exact quiet_pure a
  | error message => exact quiet_throw (by simp [capacityFailure])

theorem quiet_wallMs : Quiet (wallMs env) := (quiet_ask _).bind fun _ => quiet_liftError _

theorem quiet_ensureGeneration : Quiet (ensureGeneration env) :=
  quiet_state.bind fun _ => (quiet_require _ (by simp [capacityFailure])).bind fun _ =>
    (quiet_ask _).bind fun _ => quiet_liftError _

theorem quiet_account (key : Digest) : Quiet (account env host key) :=
  quiet_ensureGeneration.bind fun _ => quiet_state.bind fun _ => quiet_liftError _

theorem quiet_request (input : Input) (binding : Binding) (settings : RoleSettings) :
    Quiet (request env host input binding settings) := by
  unfold request
  refine quiet_ensureGeneration.bind fun _ => quiet_state.bind fun o => ?_
  split
  · exact quiet_pure _
  · exact (quiet_orThrow _ (by simp [capacityFailure])).bind fun _ =>
      (quiet_require _ (by simp [capacityFailure])).bind fun _ => quiet_pure _

theorem quiet_commit (henv : env.Foreign) (rows : Rows) : Quiet (commit env rows) := by
  unfold commit
  refine quiet_state.bind fun _ => (quiet_require _ (by simp [capacityFailure])).bind fun _ => ?_
  intro o
  have hanswer := henv.commit o.questions
  rw [run_bind]
  simp only [ask]
  cases hcommit : env.commit o.questions with
  | committed => exact ⟨rfl, rfl, by simp [run_modify]⟩
  | refused e =>
    rw [hcommit] at hanswer
    exact ⟨rfl, rfl, fun heq => hanswer (by rw [Except.error.inj heq])⟩
  | uncertain written => exact ⟨rfl, rfl, by simp [run_bind, run_modify, run_throw, capacityFailure]⟩

theorem quiet_abandoned (id : ℕ) : Quiet (abandoned env id) :=
  (quiet_ask _).bind fun _ => quiet_state.bind fun _ => quiet_pure _

theorem quiet_allowanceExpired (id : ℕ) : Quiet (allowanceExpired env host id) :=
  quiet_getJournal.bind fun _ => (quiet_orThrow _ (by simp [capacityFailure])).bind fun _ =>
    quiet_wallMs.bind fun _ => quiet_pure _

theorem quiet_deliver (id : ℕ) : Quiet (deliver id) :=
  quiet_getJournal.bind fun _ => (quiet_orThrow _ (by simp [capacityFailure])).bind fun _ =>
    .ite (quiet_modify (fun _ => rfl) fun _ => rfl) (quiet_pure _)

theorem quiet_joinWaiters (r : Record) (reply : Reply) : Quiet (joinWaiters env r reply) := by
  unfold joinWaiters
  refine (quiet_ask _).bind fun _ => (quiet_ask _).bind fun _ => quiet_state.bind fun _ => .ite ?_ ?_
  · exact quiet_modify (fun _ => rfl) fun _ => rfl
  · refine Quiet.bind (quiet_modify (fun _ => rfl) fun _ => rfl) fun _ => ?_
    exact .ite (quiet_deliver _) (quiet_pure _)

theorem quiet_diskAcknowledge (henv : env.Foreign) (id : ℕ) : Quiet (diskAcknowledge env host id) := by
  unfold diskAcknowledge
  refine quiet_ensureGeneration.bind fun _ => quiet_state.bind fun _ => ?_
  split
  · exact quiet_require _ (by simp [capacityFailure])
  · exact (quiet_require _ (by simp [capacityFailure])).bind fun _ => quiet_commit henv _

theorem quiet_askSpace (henv : env.Foreign) {m : OwnerM Unit} (hm : Quiet m) : Quiet (do
    match ← ask env.diskSpace with
    | .error error => Effect.throw error
    | .ok () => m : OwnerM Unit) := by
  intro o
  have hanswer := henv.diskSpace o.questions
  rw [run_bind]
  simp only [ask]
  cases hspace : env.diskSpace o.questions with
  | ok _ => exact hm { o with questions := o.questions + 1 }
  | error e =>
    rw [hspace] at hanswer
    exact ⟨rfl, rfl, fun heq => hanswer (by rw [Except.error.inj heq])⟩

theorem quiet_saveProgramGroup (henv : env.Foreign) (id unit : ℕ) (records : List Program.Command) :
    Quiet (saveProgramGroup env host id unit records) := by
  unfold saveProgramGroup
  refine (quiet_liftError _).bind fun _ => quiet_ensureGeneration.bind fun _ =>
    quiet_state.bind fun _ => (quiet_orThrow _ (by simp [capacityFailure])).bind fun _ =>
    (quiet_require _ (by simp [capacityFailure])).bind fun _ => ?_
  split
  · exact quiet_require _ (by simp [capacityFailure])
  · exact quiet_askSpace henv (quiet_state.bind fun _ => quiet_commit henv _)

theorem quiet_discardArchived (henv : env.Foreign) (input : Input) (binding : Binding) :
    Quiet (discardArchived env host input binding) := by
  unfold discardArchived
  refine quiet_state.bind fun _ => (quiet_request _ _ _).bind fun found => ?_
  split
  · exact quiet_pure _
  · exact .ite (quiet_diskAcknowledge henv _) (quiet_pure _)

theorem quiet_withdrawn (id : ℕ) : Quiet (withdrawn id) :=
  quiet_getJournal.bind fun _ => quiet_pure _

/-- A property of the journal and the processes that leaves room. -/
structure Local (host : Host) (P : Owner → Prop) : Prop where
  frame : ∀ o o', o'.journal = o.journal → o'.running = o.running → P o → P o'
  roomy : ∀ o, P o → Roomy host o

/-- Even a failure keeps such a property. -/
theorem Quiet.keeps {m : OwnerM α} (hm : Quiet m) {P : Owner → Prop} (hP : Local host P) :
    Spec P m (ends P fun _ => P) := by
  intro o ho
  obtain ⟨hjournal, hrunning, hfine⟩ := hm o
  have hafter := hP.frame o _ hjournal hrunning ho
  rcases hrun : m.run o with ⟨r, t⟩
  rw [hrun] at hafter hfine
  cases r with
  | ok a => exact hafter
  | error e => exact ⟨hafter, fun heq => hfine (by rw [heq])⟩

theorem Quiet.spec {m : OwnerM α} (hm : Quiet m) {P : Owner → Prop} (hP : Local host P) :
    Spec P m (after host fun _ => P) :=
  spec_weaken (hm.keeps hP) (fun _ h => h) (fun _ _ h => h) hP.roomy

variable {extra : ℕ} {F : ℕ → Record → Prop} {T : List ℕ}

theorem local_room : Local host (Room host extra F T) :=
  ⟨fun _ _ hjournal hrunning h =>
    h.frame (congrArg Journal.records hjournal) (congrArg Journal.accounts hjournal) hrunning,
    fun _ h => h.roomy⟩

theorem Local.and {P : Owner → Prop} (hP : Local host P) (p : Journal → Prop) :
    Local host fun o => P o ∧ p o.journal :=
  ⟨fun o o' hjournal hrunning h => ⟨hP.frame o o' hjournal hrunning h.1, by rw [hjournal]; exact h.2⟩,
    fun o h => hP.roomy o h.1⟩

theorem spec_frame {P : Owner → Prop} {g : Owner → Owner} (hP : Local host P)
    (hjournal : ∀ o, (g o).journal = o.journal) (hrunning : ∀ o, (g o).running = o.running) :
    Spec P (Effect.modify g : OwnerM Unit) (after host fun _ => P) :=
  (quiet_modify hjournal hrunning).spec hP

/-- The clock reads a number of 64 bits. -/
theorem spec_wallMs {P : Owner → Prop} (hP : Local host P) :
    Spec P (wallMs env) (ends P fun now o => P o ∧ now < u64Limit) := by
  intro o ho
  have hframe := hP.frame o { o with questions := o.questions + 1 } rfl rfl ho
  unfold wallMs
  rw [run_bind]
  simp only [ask]
  cases env.wallMs o.questions with
  | ok now => exact ⟨hframe, now.toNat_lt⟩
  | error e => exact ⟨hframe, by simp [capacityFailure]⟩

theorem spec_rememberHold {r : Record} (hr : r.id < u64Limit) :
    Spec (Room host extra F T) (rememberHold host r) (after host fun _ => Room host extra F T) := by
  unfold rememberHold
  refine spec_getJournal fun j => spec_orThrow (by simp [capacityFailure]) (fun o h => h.1.roomy)
    fun a ha => spec_ite (fun _ => spec_pure fun o h => h.1) fun _ => spec_modifyJournal fun o h => ?_
  apply h.1.updateAccount
  intro a' ha'
  rw [h.2, ha] at ha'
  cases ha'
  have hmin : a.held.elim r.id (fun old => min old r.id) < u64Limit := by
    cases a.held with
    | none => exact hr
    | some old => exact (min_le_right _ _).trans_lt hr
  have hwide := (decimal_le_wide _).trans_eq (wide_of_lt hmin)
  unfold Account.fullLen Account.sized
  dsimp only [heldSize]
  omega

theorem spec_rememberHolds :
    Spec (Room host extra F T) (rememberHolds host) (after host fun _ => Room host extra F T) := by
  unfold rememberHolds
  refine spec_getJournal fun j o h => ?_
  obtain ⟨hroom, rfl⟩ := h
  apply spec_forEach _ o hroom
  intro r hr
  obtain ⟨id, hid⟩ := TrackedMap.mem_values.mp (List.mem_filter.mp hr).1
  obtain ⟨hname, hlt⟩ := hroom.named id r hid
  exact spec_rememberHold (hname ▸ hlt)

/-- The other failures of a save, as storage corruption. -/
theorem spec_asCorrupt {P : Owner → Prop} {m : OwnerM α} {Q : α → Owner → Prop}
    (h : Spec P m (after host Q))
    (hm : ∀ o, P o → (m.run o).1 ≠ .error (.invalid "research reserved result byte capacity")) :
    Spec P (asCorrupt m) (after host Q) := by
  intro o ho
  have hafter := h o ho
  have hfine := hm o ho
  unfold asCorrupt mapError
  dsimp only
  rcases hrun : m.run o with ⟨r, t⟩
  rw [hrun] at hafter hfine
  cases r with
  | ok a => exact hafter
  | error e =>
    refine ⟨hafter.1, ?_⟩
    cases e with
    | invalid message =>
      intro heq
      cases heq
      exact hfine rfl
    | limit => simp [capacityFailure]
    | corrupt message => exact hafter.2
    | uncertain message => simp [capacityFailure]

theorem spec_readClock (henv : env.Foreign) :
    Spec (Room host extra F T) (asCorrupt (wallMs env)) (after host fun _ => Room host extra F T) := by
  apply spec_asCorrupt (quiet_wallMs.spec local_room)
  intro o _
  have hclock := henv.wallMs o.questions
  unfold wallMs
  rw [run_bind]
  simp only [ask]
  cases hwall : env.wallMs o.questions with
  | ok now => simp [Except.map, liftError, Effect.pure]
  | error e =>
    rw [hwall] at hclock
    simpa [Except.map, liftError, Effect.throw] using hclock

theorem spec_readable (henv : env.Foreign) :
    Spec (Room host extra F T) (asCorrupt (ensureGeneration env))
      (after host fun _ => Room host extra F T) := by
  apply spec_asCorrupt (quiet_ensureGeneration.spec local_room)
  intro o _
  have hread := henv.readable o.questions
  simp only [ensureGeneration, run_bind, run_state, run_require]
  split_ifs
  · simp only [ask]
    cases hreadable : env.readable o.questions with
    | ok _ => simp [liftError, Effect.pure]
    | error e =>
      rw [hreadable] at hread
      simpa [liftError, Effect.throw] using hread
  · simp

theorem roomy_diskSave (henv : env.Foreign) :
    Spec (Room host extra F T) (diskSave env host) (after host fun _ => Room host extra F []) := by
  unfold diskSave
  refine spec_bind spec_rememberHolds fun _ => spec_readState fun s => ?_
  refine spec_require (by simp [capacityFailure]) (fun o h => h.roomy) fun _ =>
    spec_bind (spec_readable henv) fun _ =>
    spec_bind ((quiet_commit henv _).spec local_room) fun _ => spec_modifyJournal fun o h => h.settled

theorem spec_compact :
    Spec (Room host extra F T) (compact env) (after host fun _ => Room host extra F T) := by
  unfold compact
  exact spec_bind ((quiet_ask _).spec local_room) fun active =>
    spec_modify fun o h => (kept_compacted active.terminalJobPage).room h

/-- The capacity check leaves room as it is, and tells whether the rows that stay fit. -/
theorem spec_compactBytes (hsizes : host.Serializes) (additional bytes : ℕ)
    (accounts : TrackedMap Digest Account) :
    Spec (fun o => Room host extra F T o ∧ o.held host Record.jsonLen Account.jsonLen = bytes ∧
        o.journal.accounts = accounts)
      (compactBytes env host additional)
      (after host fun fits o => Room host extra F T o ∧ o.journal.accounts = accounts ∧
        (fits = true ↔ bytes + additional + 256 ≤ host.activeJobBytes)) := by
  rintro o ⟨hroom, hbytes, haccounts⟩
  have hkept : Kept host { o with questions := o.questions + 1 } _ :=
    kept_compacted (env.active o.questions).terminalJobPage
  generalize hcompacted : Owner.compacted { o with questions := o.questions + 1 }
    (env.active o.questions).terminalJobPage = c at hkept
  have hstart : Room host extra F T { o with questions := o.questions + 1 } := hroom.frame rfl rfl rfl
  have hshrunk : Kept host c _ :=
    kept_shrink (reserved host c.journal + additional) c.journal.records.entries.size
  have hiff := shrink_iff hsizes additional (le_refl c.journal.records.entries.size)
  have hheld : c.held host Record.jsonLen Account.jsonLen = bytes := (hkept.held _ _).trans hbytes
  rw [hheld] at hiff
  have hrun : (compactBytes env host additional).run o =
      (.ok (shrink host (reserved host c.journal + additional) c.journal.records.entries.size c).1,
        (shrink host (reserved host c.journal + additional) c.journal.records.entries.size c).2) := by
    rw [← hcompacted]
    rfl
  rw [hrun]
  exact ⟨hshrunk.room (hkept.room hstart), hshrunk.accounts.trans (hkept.accounts.trans haccounts), hiff⟩

/-- The check of a save succeeds where there is room. -/
theorem spec_compactBytes_zero (hsizes : host.Serializes) :
    Spec (Room host extra F T) (compactBytes env host 0)
      (after host fun fits o => Room host extra F T o ∧ fits = true) := by
  intro o h
  have hcheck := @spec_compactBytes host env extra F T hsizes 0 _ _ o ⟨h, rfl, rfl⟩
  have hfull : o.held host _ _ ≤ o.held host _ _ := held_mono Record.jsonLen_le Account.jsonLen_le
  have hfits := h.fits
  unfold full at hfits
  rcases hrun : (compactBytes env host 0).run o with ⟨r, t⟩
  rw [hrun] at hcheck
  cases r with
  | ok fits => exact ⟨hcheck.1, hcheck.2.2.mpr (by omega)⟩
  | error e => exact hcheck

/-- A save that starts with room succeeds or fails for another reason. -/
theorem roomy_save (hsizes : host.Serializes) (henv : env.Foreign) :
    Spec (Room host extra F T) (save env host) (after host fun _ => Room host extra F []) := by
  unfold save
  refine spec_bind (spec_readClock henv) fun now => spec_readJournal fun j => ?_
  refine spec_require (by simp [capacityFailure]) (fun o h => h.roomy) fun _ =>
    spec_bind (spec_modifyJournal (Q := fun _ => Room host extra F T) fun o h => h.frame rfl rfl rfl)
      fun _ => spec_bind spec_rememberHolds fun _ =>
    spec_bind (spec_compactBytes_zero hsizes) fun fits => ?_
  intro o h
  obtain ⟨hroom, rfl⟩ := h
  rw [run_bind, run_require, if_pos rfl]
  revert o
  show Spec (Room host extra F T) _ (after host fun _ => Room host extra F [])
  refine spec_readJournal fun j => ?_
  refine spec_bind (spec_asCorrupt ((quiet_liftError _).spec local_room) ?_) fun _ => roomy_diskSave henv
  intro o _
  have hj := distinct_validateDelta host j
  cases hvalidated : host.validateDelta j with
  | ok _ => simp [liftError, Effect.pure]
  | error e =>
    rw [hvalidated] at hj
    simpa [liftError, Effect.throw, Distinct] using hj

theorem spec_retainUncertainty (henv : env.Foreign) :
    Spec (Room host extra F T) (retainUncertainty env host) (after host fun _ => Room host extra F []) := by
  unfold retainUncertainty
  refine spec_bind (spec_modifyJournal (Q := fun _ => Room host extra F T) fun o h => h.frame rfl rfl rfl)
    fun _ => spec_bind spec_rememberHolds fun _ => spec_readJournal fun j => ?_
  exact spec_bind ((quiet_liftError _).spec local_room) fun _ => roomy_diskSave henv

theorem spec_updateRecord {id : ℕ} (hid : id ∈ T) {f : Record → Record} {extra' : ℕ}
    {G : ℕ → Record → Prop} (hextra : extra' ≤ extra)
    (hf : ∀ r, F id r → (f r).id = r.id ∧ G id (f r) ∧
      host.weight Record.fullLen id (f r) + extra' ≤ host.weight Record.fullLen id r + extra)
    (hother : ∀ k r, k ≠ id → F k r → G k r) :
    Spec (Room host extra F T) (updateRecord id f) (after host fun _ => Room host extra' G T) :=
  spec_modifyJournal fun _ h => h.updateRecord hid hextra (fun r hr => hf r (h.holds id r hr)) hother

/-- A property of jobs that a charge does not change. -/
def Chargeable (F : ℕ → Record → Prop) : Prop := ∀ id r spent now, F id r →
  F id { r with spentMs := spent, accountedMs := now }

theorem weight_charged (id : ℕ) (r : Record) {spent now : ℕ} (hspent : spent < u64Limit)
    (hnow : now < u64Limit) : host.weight Record.fullLen id { r with spentMs := spent, accountedMs := now } ≤
      host.weight Record.fullLen id r :=
  weight_mono _ rfl (wide_le_of_lt hnow) (wide_le_of_lt hspent) le_rfl le_rfl

theorem Room.chargeTime {o : Owner} (h : Room host extra F T o) (hF : Chargeable F) {id now : ℕ}
    (hid : id ∈ T) (hnow : now < u64Limit) (key : Digest) (elapsed : ℕ) :
    Room host extra F T (o.setJournal (o.journal.chargeTime id key now elapsed)) := by
  have htotal : Room host extra F T (o.setJournal
      { o.journal with totalSpentMs := saturatingAdd o.journal.totalSpentMs elapsed }) :=
    h.frame rfl rfl rfl
  have hrecord := htotal.change hid
    (f := fun r => { r with spentMs := saturatingAdd r.spentMs elapsed, accountedMs := now })
    fun r hr => ⟨rfl, hF id r _ _ (h.holds id r hr),
      weight_charged id r (saturatingAdd_lt _ _) hnow⟩
  apply hrecord.updateAccount key
  intro a _
  have hspent : wide (saturatingAdd a.spentMs elapsed) ≤ wide a.spentMs :=
    wide_le_of_lt (saturatingAdd_lt _ _)
  unfold Account.fullLen Account.sized
  dsimp only
  omega

/-- A charge that fails has not changed the journal. -/
theorem keeps_room_charge (hF : Chargeable F) {id : ℕ} (hid : id ∈ T) :
    Spec (Room host extra F T) (charge env host id)
      (ends (Room host extra F T) fun _ => Room host extra F T) := by
  unfold charge
  refine spec_bind (spec_wallMs local_room) fun now o h => ?_
  obtain ⟨hroom, hnow⟩ := h
  revert o
  show Spec (Room host extra F T) _ (ends (Room host extra F T) fun _ => Room host extra F T)
  exact spec_readJournal fun j => spec_require (by simp [capacityFailure]) (fun o h => h) fun _ =>
    spec_bind ((quiet_ask _).keeps local_room) fun answer =>
    spec_orThrow (by simp [capacityFailure]) (fun o h => h) fun elapsed _ =>
    spec_orThrow (by simp [capacityFailure]) (fun o h => h) fun r _ =>
    spec_modifyJournal fun o h => h.chargeTime hF hid hnow _ _

theorem spec_charge (hF : Chargeable F) {id : ℕ} (hid : id ∈ T) :
    Spec (Room host extra F T) (charge env host id) (after host fun _ => Room host extra F T) :=
  spec_weaken (keeps_room_charge hF hid) (fun _ h => h) (fun _ _ h => h) fun _ h => h.roomy

theorem chargeable_anyJob : Chargeable anyJob := fun _ _ _ _ _ => trivial

/-- The jobs of a list are active. -/
def ActiveJobs (ids : List ℕ) (id : ℕ) (r : Record) : Prop := id ∈ ids → r.state.active = true

theorem chargeable_activeJobs (ids : List ℕ) : Chargeable (ActiveJobs ids) := fun _ _ _ _ h => h

/-- A reservation that the allowance permits stays within the work units. -/
theorem Room.reserveUnit {o : Owner} (h : Room host extra F T o) {id : ℕ} (hid : id ∈ T)
    {r : Record} {now : ℕ} (hr : o.journal.records.get? id = some r)
    (hcan : (r.allowance (host.original o.journal r) now).canReserve = true)
    (hF : F id { r with reservedUnits := r.reservedUnits + 1 }) :
    Room host extra F T (o.setJournal (o.journal.reserveUnit id (host.accountKey r.input))) := by
  have htotal : Room host extra F T (o.setJournal
      { o.journal with totalReservedUnits := saturatingAdd o.journal.totalReservedUnits 1 }) :=
    h.frame rfl rfl rfl
  have hown : r.reservedUnits < r.settings.limits.workUnits ∧
      ∀ a, host.original o.journal r = some a → a.reservedUnits < a.settings.limits.workUnits := by
    unfold Record.allowance at hcan
    have hatNow : ∀ l e s u, (Allowance.atNow l e s u now).canReserve = true → u < l.workUnits := by
      intro l e s u hu
      unfold Allowance.atNow Allowance.canReserve at hu
      simp only [Bool.and_eq_true, decide_eq_true_eq] at hu
      omega
    cases ha : host.original o.journal r with
    | none =>
      rw [ha] at hcan
      exact ⟨hatNow _ _ _ _ hcan, fun a hnone => by cases hnone⟩
    | some a =>
      rw [ha] at hcan
      obtain ⟨hrecord, haccount⟩ := Allowance.canReserve_intersect.mp hcan
      refine ⟨hatNow _ _ _ _ hrecord, fun a' ha' => ?_⟩
      cases ha'
      exact hatNow _ _ _ _ haccount
  have hweight : host.weight Record.fullLen id { r with reservedUnits := r.reservedUnits + 1 } ≤
      host.weight Record.fullLen id r := by
    refine weight_mono _ rfl le_rfl le_rfl ?_ le_rfl
    apply decimal_mono
    dsimp only
    omega
  have hrecord := htotal.change hid (f := fun r => { r with reservedUnits := r.reservedUnits + 1 })
    fun r' hr' => by
      cases hr.symm.trans hr'
      exact ⟨rfl, hF, hweight⟩
  apply hrecord.updateAccount
  intro a ha
  have hunits := hown.2 a ha
  have hwidth : decimal (max a.settings.limits.workUnits (a.reservedUnits + 1)) ≤
      decimal (max a.settings.limits.workUnits a.reservedUnits) := decimal_mono (by omega)
  unfold Account.fullLen Account.sized
  dsimp only
  omega

theorem four_le_size (o : Output) : 4 ≤ o.size := by
  cases o <;> simp [Output.size, object, names] <;> omega

theorem four_le_result (o : Option Output) : 4 ≤ Size.optional Output.size o := by
  cases o with
  | none => exact le_rfl
  | some output => exact four_le_size output

theorem weight_acknowledged (id : ℕ) (r : Record) (b : Bool) :
    host.weight Record.fullLen id { r with acknowledged := b } ≤ host.weight Record.fullLen id r :=
  weight_mono _ rfl le_rfl le_rfl le_rfl le_rfl

theorem weight_active (id : ℕ) {r : Record} {s : State} (h : r.state.active = true)
    (hs : s.active = true) :
    host.weight Record.fullLen id { r with state := s } ≤ host.weight Record.fullLen id r := by
  refine weight_mono _ rfl le_rfl le_rfl le_rfl ?_
  have hroom : host.room { r with state := s } = host.outputReservation r.input := if_pos hs
  have hroom' : host.room r = host.outputReservation r.input := if_pos h
  rw [hroom, hroom']
  exact le_rfl

/-- A job that ends gives its reservation back. -/
theorem weight_ended (id : ℕ) (r : Record) {s : State} (hs : s.active = false) :
    host.weight Record.fullLen id { r with state := s } ≤ host.weight Record.fullLen id r := by
  refine weight_mono _ rfl le_rfl le_rfl le_rfl ?_
  unfold Host.room
  rw [hs]
  exact Nat.add_le_add_left (Nat.zero_le _) _

theorem weight_cleared (id : ℕ) (r : Record) {s : State} (hs : s.active = false) :
    host.weight Record.fullLen id { r with state := s, result := none } ≤
      host.weight Record.fullLen id r := by
  refine weight_mono _ rfl le_rfl le_rfl le_rfl ?_
  have hresult := four_le_result r.result
  unfold Host.room Record.body
  rw [hs]
  have hnone : Size.optional Output.size none = 4 := rfl
  simp only [Bool.false_eq_true, if_false, hnone]
  omega

theorem weight_checkpoint (id : ℕ) {r : Record} {n : ℕ} (h : n ≤ r.reservedUnits) :
    host.weight Record.fullLen id { r with checkpoint := n } ≤ host.weight Record.fullLen id r := by
  refine weight_mono _ rfl le_rfl le_rfl ?_ le_rfl
  apply decimal_mono
  dsimp only
  omega

theorem spec_change {id : ℕ} (hid : id ∈ T) {f : Record → Record}
    (hf : ∀ r, F id r → (f r).id = r.id ∧ F id (f r) ∧
      host.weight Record.fullLen id (f r) ≤ host.weight Record.fullLen id r) :
    Spec (Room host extra F T) (updateRecord id f) (ends (Room host extra F T) fun _ => Room host extra F T) :=
  spec_modifyJournal fun _ h => h.change hid fun r hr => hf r (h.holds id r hr)

/-- A record that is only looked at counts as changed. -/
theorem spec_look {id : ℕ} (hid : id ∈ T) : Spec (Room host extra F T) (updateRecord id fun r => r)
    (after host fun _ => Room host extra F T) :=
  spec_weaken (spec_change hid fun _ hr => ⟨rfl, hr, le_rfl⟩) (fun _ h => h) (fun _ _ h => h)
    fun _ h => h.roomy

/-- A change that every job may make. -/
theorem spec_changeAny {id : ℕ} (hid : id ∈ T) {f : Record → Record} (hf : ∀ r, (f r).id = r.id ∧
      host.weight Record.fullLen id (f r) ≤ host.weight Record.fullLen id r) :
    Spec (Room host extra anyJob T) (updateRecord id f) (after host fun _ => Room host extra anyJob T) :=
  spec_weaken (spec_change hid fun r _ => ⟨(hf r).1, trivial, (hf r).2⟩) (fun _ h => h)
    (fun _ _ h => h) fun _ h => h.roomy

/-- The job is the one that was read. -/
def IsRecord (id : ℕ) (r : Record) (k : ℕ) (r' : Record) : Prop := k = id → r' = r

theorem Room.isRecord {o : Owner} (h : Room host extra F T o) {id : ℕ} {r : Record}
    (hr : o.journal.records.get? id = some r) : Room host extra (IsRecord id r) T o :=
  h.mono le_rfl fun k r' hr' _ hk => by
    subst hk
    rw [hr] at hr'
    exact (Option.some.inj hr').symm

section Events

variable (hsizes : host.Serializes) (henv : env.Foreign)
include hsizes henv

theorem roomy_reserve (id next : ℕ) : Spec (Room host 0 anyJob [id]) (reserve env host id next)
    (after host fun _ => Roomy host) := by
  unfold reserve
  refine spec_bind (spec_charge chargeable_anyJob (by simp)) fun _ =>
    spec_bind (quiet_wallMs.spec local_room) fun now => spec_bind (spec_look (by simp)) fun _ =>
    spec_getJournal fun j => spec_orThrow (by simp [capacityFailure]) (fun o h => h.1.roomy) fun r hr =>
    spec_require (by simp [capacityFailure]) (fun o h => h.1.roomy) fun _ => ?_
  refine spec_ite (fun hcan => ?_) fun _ => ?_
  · refine spec_bind (spec_modifyJournal (Q := fun _ => Room host 0 anyJob [id]) ?_) fun _ =>
      spec_bind (roomy_save hsizes henv) fun _ => spec_pure fun _ h => h
    rintro o ⟨hroom, hj⟩
    subst hj
    exact hroom.reserveUnit (by simp) hr hcan trivial
  · refine spec_bind (spec_mono (spec_changeAny (by simp) ?_) (fun o h => h.1) fun _ _ h => h) fun _ =>
      spec_bind (roomy_save hsizes henv) fun _ => spec_pure fun _ h => h
    intro r
    exact ⟨rfl, weight_cleared id r rfl⟩

theorem spec_reserveEvent (id next : ℕ) : Spec (Room host 0 anyJob [id]) (reserveEvent env host id next)
    (after host fun _ => Roomy host) := by
  unfold reserveEvent
  refine spec_bind ((quiet_withdrawn id).spec local_room) fun gone =>
    spec_ite (fun _ => spec_pure fun _ h => h.untouch) fun _ =>
    spec_bind (roomy_reserve hsizes henv id next) fun answer => ?_
  cases answer with
  | granted input now =>
    exact spec_bind (spec_frame (g := fun o =>
      { o with granted := ⟨input, now, o.rows.accounts[host.accountKey input]?⟩ :: o.granted })
      local_room (fun _ => rfl) fun _ => rfl) fun _ => spec_pure fun _ h => h
  | exhausted => exact spec_pure fun _ h => h

theorem spec_progress (id checkpoint : ℕ) : Spec (Room host 0 anyJob [id])
    (progress env host id checkpoint) (after host fun _ => Roomy host) := by
  unfold progress
  refine spec_bind (spec_charge chargeable_anyJob (by simp)) fun _ => spec_getJournal fun j =>
    spec_orThrow (by simp [capacityFailure]) (fun o h => h.1.roomy) fun r hr =>
    spec_mono (P := Room host 0 (IsRecord id r) [id]) ?_ ?_ fun _ _ h => h
  · refine spec_bind (spec_look (by simp)) fun _ =>
      spec_require (by simp [capacityFailure]) (fun o h => h.roomy) fun _ =>
      spec_require (by simp [capacityFailure]) (fun o h => h.roomy) fun hnext =>
      spec_bind (spec_updateRecord (by simp) le_rfl (G := anyJob) ?_ fun _ _ _ _ => trivial) fun _ =>
      spec_mono (roomy_save hsizes henv) (fun _ h => h) fun _ _ h => h
    intro r' hr'
    cases hr' rfl
    exact ⟨rfl, trivial, weight_checkpoint id hnext.2⟩
  · rintro o ⟨hroom, hj⟩
    subst hj
    exact hroom.isRecord hr

theorem spec_progressEvent (id checkpoint : ℕ) : Spec (Room host 0 anyJob [id])
    (progressEvent env host id checkpoint) (after host fun _ => Roomy host) := by
  unfold progressEvent
  exact spec_bind ((quiet_withdrawn id).spec local_room) fun gone =>
    spec_ite (fun _ => spec_pure fun _ h => h.untouch) fun _ =>
    spec_bind (spec_progress hsizes henv id checkpoint) fun _ => spec_pure fun _ h => h

theorem spec_persistProgram (id : ℕ) (pending : PendingProgram) :
    Spec (Roomy host) (persistProgram env host id pending) (after host fun _ => Roomy host) := by
  unfold persistProgram
  refine spec_getJournal fun j => spec_orThrow (by simp [capacityFailure]) (fun o h => h.1.roomy)
    fun r hr => spec_require (by simp [capacityFailure]) (fun o h => h.1.roomy) fun hrunning =>
    spec_mono (P := Room host 0 anyJob [id]) ?_ ?_ fun _ _ h => h
  · have hrest : Spec (Room host 0 anyJob [id]) (do
        charge env host id
        save env host
        saveProgramGroup env host id pending.unit pending.records : OwnerM Unit)
        (after host fun _ => Roomy host) :=
      spec_bind (spec_charge chargeable_anyJob (by simp)) fun _ =>
        spec_bind (roomy_save hsizes henv) fun _ => (quiet_saveProgramGroup henv _ _ _).spec local_room
    intro o ho
    have hspace := henv.diskSpace o.questions
    rw [run_bind]
    simp only [ask]
    cases hanswer : env.diskSpace o.questions with
    | ok _ => exact hrest _ (ho.frame rfl rfl rfl)
    | error e =>
      rw [hanswer] at hspace
      have hroom : Room host 0 anyJob [id] { o with questions := o.questions + 1 } :=
        ho.frame rfl rfl rfl
      exact ⟨hroom.roomy, fun heq => hspace (by rw [heq])⟩
  · rintro o ⟨hroom, hj⟩
    subst hj
    apply hroom.touch_active
    intro r' hr'
    rw [hr] at hr'
    cases hr'
    rw [hrunning.1]
    rfl

theorem spec_persistOne (id : ℕ) :
    Spec (Roomy host) (persistOne env host id) (after host fun _ => Roomy host) := by
  unfold persistOne
  refine spec_readState fun o => spec_orThrow (by simp [capacityFailure]) (fun o h => h.roomy)
    fun pending _ => spec_bind (spec_frame local_room (fun _ => rfl) fun _ => rfl) fun _ =>
    spec_bind ((quiet_ask _).spec local_room) fun closed =>
    spec_ite (fun _ => spec_pure fun _ h => h) fun _ =>
    spec_bind (spec_attempt (spec_persistProgram hsizes henv id pending) fun _ _ h => h) fun outcome => ?_
  rintro o ⟨hroom, hfine⟩
  cases outcome with
  | ok _ => exact hroom
  | error e =>
    refine spec_ite (P := Roomy host) (fun _ => ?_) (fun _ => spec_ite (fun _ => ?_) fun _ => ?_) o hroom
    · exact spec_frame local_room (fun _ => rfl) fun _ => rfl
    · exact spec_throw (fun heq => hfine (by rw [heq])) fun _ h => h.roomy
    · exact spec_pure fun _ h => h

theorem spec_persistPrograms :
    Spec (Roomy host) (persistPrograms env host) (after host fun _ => Roomy host) := by
  unfold persistPrograms
  exact spec_readState fun o => spec_forEach fun id _ => spec_persistOne hsizes henv id

theorem spec_acknowledge (id : ℕ) :
    Spec (Room host 0 anyJob [id]) (acknowledge env host id) (after host fun _ => Roomy host) := by
  unfold acknowledge
  refine spec_readJournal fun j => spec_ite (fun _ => spec_pure fun _ h => h.untouch) fun _ => ?_
  cases j.records.get? id with
  | none =>
    exact spec_bind ((quiet_diskAcknowledge henv id).spec local_room) fun _ =>
      spec_pure fun _ h => h.untouch
  | some r =>
    refine spec_bind (spec_look (by simp)) fun _ =>
      spec_require (by simp [capacityFailure]) (fun o h => h.roomy) fun _ =>
      spec_bind (spec_changeAny (by simp) ?_) fun _ => spec_bind spec_compact fun _ =>
      spec_bind (roomy_save hsizes henv) fun _ => spec_pure fun _ h => h
    intro r
    exact ⟨rfl, weight_acknowledged id r true⟩

omit hsizes henv in
theorem spec_discardOne {id : ℕ} (hid : id ∈ T) :
    Spec (Room host 0 anyJob T) (discardOne env id) (after host fun _ => Room host 0 anyJob T) := by
  unfold discardOne
  refine spec_bind ((quiet_ask _).spec local_room) fun gone =>
    spec_bind (spec_frame local_room ?_ ?_) fun _ => spec_readState fun o =>
    spec_ite (fun _ => ?_) fun _ => spec_pure fun _ h => h
  · intro o
    split <;> rfl
  · intro o
    split <;> rfl
  · refine spec_bind (spec_changeAny hid ?_) fun _ => spec_readState fun o =>
      spec_ite (fun _ => spec_pure fun _ h => h) fun _ => spec_changeAny hid ?_
    · intro r
      split_ifs
      · exact ⟨rfl, le_rfl⟩
      · exact ⟨rfl, weight_cleared id r rfl⟩
    · intro r
      exact ⟨rfl, weight_acknowledged id r true⟩

omit hsizes henv in
/-- The jobs that a withdrawal of an input touches. -/
def withdrawnJobs (j : Journal) (input : Input) (binding : Binding) : List ℕ :=
  (j.records.values.filter fun r => decide (r.input = input ∧ r.binding = binding ∧
    r.acknowledged = false ∧ r.state ≠ .inDoubt)).map Record.id

theorem spec_discard (input : Input) (binding : Binding) (ids : List ℕ) :
    Spec (fun o => Room host 0 anyJob ids o ∧ withdrawnJobs o.journal input binding = ids)
      (discard env host input binding) (after host fun _ => Roomy host) := by
  unfold discard
  refine spec_bind ((quiet_discardArchived henv input binding).spec
    (local_room.and fun j => withdrawnJobs j input binding = ids)) fun _ => spec_getJournal fun j => ?_
  rintro o ⟨⟨hroom, hids⟩, hj⟩
  subst hj
  have hids' : ((o.journal.records.values.filter fun r => decide (r.input = input ∧
      r.binding = binding ∧ r.acknowledged = false ∧ r.state ≠ .inDoubt)).map Record.id) = ids := hids
  rw [hids']
  exact spec_bind (spec_forEach fun id hid => spec_discardOne hid) (fun _ =>
    spec_bind spec_compact fun _ => roomy_save hsizes henv) o hroom

omit hsizes henv in
/-- The result and the failure text of a job after an outcome. -/
def settledBody (host : Host) (r : Record) (outcome : Completed) : ℕ :=
  if outcome.state = .inDoubt then 4 + Size.optional text (failureOf host outcome.result)
  else if r.state.terminal then r.body
  else match outcome.result with
    | .ok output => max 4 output.size + Size.optional text r.failure
    | .error error => Size.optional Output.size r.result + text (Host.failureDetail host error)

omit hsizes henv in
/-- What an outcome takes beyond the reservation of its job. -/
def growth (host : Host) (outcome : Completed) (r : Record) : ℕ :=
  settledBody host r outcome +
    (if outcome.state.active && !r.state.terminal then host.outputReservation r.input else 0) -
    (r.body + host.room r)

omit hsizes henv in
def Grows (host : Host) (outcome : Completed) (id bytes k : ℕ) (r : Record) : Prop :=
  k = id → growth host outcome r ≤ bytes

omit hsizes henv in
theorem chargeable_grows (outcome : Completed) (id bytes : ℕ) :
    Chargeable (Grows host outcome id bytes) := fun _ _ _ _ h => h

omit hsizes henv in
/-- Any change of state, result and failure text within the growth of the outcome. -/
theorem weight_outcome {id k bytes : ℕ} {r r' : Record} {outcome : Completed}
    (hgrows : Grows host outcome id bytes k r) (hk : k = id) (hfixed : r'.fixed wide = r.fixed wide)
    (haccounted : r'.accountedMs = r.accountedMs) (hspent : r'.spentMs = r.spentMs)
    (hunits : r'.unitWidth = r.unitWidth) (hbody : r'.body ≤ settledBody host r outcome)
    (hroom : host.room r' ≤
      if outcome.state.active && !r.state.terminal then host.outputReservation r.input else 0) :
    host.weight Record.fullLen k r' + 0 ≤ host.weight Record.fullLen k r + bytes := by
  have hbytes := hgrows hk
  unfold growth at hbytes
  refine weight_le _ hfixed (by rw [haccounted]) (by rw [hspent]) hunits.le ?_
  omega

omit hsizes henv in
theorem weight_settled {id k bytes : ℕ} {r : Record} {outcome : Completed}
    (hgrows : Grows host outcome id bytes k r) (hk : k = id) (hstate : outcome.state ≠ .inDoubt)
    (expired gone : Bool) :
    (acknowledgeAbandoned gone (settleRecord host r outcome expired)).id = r.id ∧
      host.weight Record.fullLen k (acknowledgeAbandoned gone (settleRecord host r outcome expired)) + 0 ≤
        host.weight Record.fullLen k r + bytes := by
  have hacknowledged : ∀ r' : Record, (acknowledgeAbandoned gone r').id = r'.id ∧
      host.weight Record.fullLen k (acknowledgeAbandoned gone r') ≤ host.weight Record.fullLen k r' := by
    intro r'
    unfold acknowledgeAbandoned
    split_ifs
    · exact ⟨rfl, weight_acknowledged k r' true⟩
    · exact ⟨rfl, le_rfl⟩
  obtain ⟨hid, hle⟩ := hacknowledged (settleRecord host r outcome expired)
  have hsettled : (settleRecord host r outcome expired).id = r.id ∧
      host.weight Record.fullLen k (settleRecord host r outcome expired) + 0 ≤
        host.weight Record.fullLen k r + bytes := by
    unfold settleRecord
    by_cases hterminal : r.state.terminal = true
    · rw [if_pos hterminal]
      exact ⟨rfl, Nat.le_add_right _ _⟩
    · rw [if_neg hterminal]
      have hbody : settledBody host r outcome = match outcome.result with
          | .ok output => max 4 output.size + Size.optional text r.failure
          | .error error => Size.optional Output.size r.result + text (Host.failureDetail host error) := by
        unfold settledBody
        rw [if_neg hstate, if_neg hterminal]
      have hroom : ∀ r' : Record, r'.input = r.input →
          r'.state = (if expired then .expired else outcome.state) → host.room r' ≤
            if outcome.state.active && !r.state.terminal then host.outputReservation r.input else 0 := by
        intro r' hinput hstate'
        unfold Host.room
        rw [hinput, hstate']
        cases expired <;> simp [hterminal, State.active]
      dsimp only
      cases houtcome : outcome.result with
      | ok output =>
        refine ⟨rfl, weight_outcome hgrows hk rfl rfl rfl rfl ?_ (hroom _ rfl rfl)⟩
        rw [hbody, houtcome]
        unfold Record.body
        apply Nat.add_le_add_right
        cases expired
        · exact le_max_right _ _
        · exact le_max_left _ _
      | error error =>
        refine ⟨rfl, weight_outcome hgrows hk rfl rfl rfl rfl ?_ (hroom _ rfl rfl)⟩
        rw [hbody, houtcome]
        exact le_rfl
  exact ⟨hid.trans hsettled.1, (Nat.add_le_add_right hle 0).trans hsettled.2⟩

omit hsizes henv in
theorem spec_finishRunning (id : ℕ) : Spec (Room host extra F T) (finishRunning id)
    (after host fun _ => Room host extra F []) := by
  apply spec_modify
  intro o h
  refine Room.stopped h ?_ fun k hk => ?_
  · rfl
  have hmem : (o.running.erase id).contains k = true := hk
  rw [Std.TreeSet.contains_erase, Bool.and_eq_true] at hmem
  exact hmem.2

omit hsizes in
theorem spec_completeInDoubt (id bytes : ℕ) {outcome : Completed} (hstate : outcome.state = .inDoubt) :
    Spec (Room host bytes (Grows host outcome id bytes) [id]) (completeInDoubt env host id outcome)
      (after host fun _ => Roomy host) := by
  unfold completeInDoubt
  refine spec_readJournal fun j => spec_orThrow (by simp [capacityFailure]) (fun o h => h.roomy)
    fun _ _ => spec_bind (spec_updateRecord (by simp) (Nat.zero_le bytes) (G := anyJob) ?_
      fun _ _ _ _ => trivial) fun _ =>
    spec_bind (spec_attempt (keeps_room_charge chargeable_anyJob (by simp)) fun _ _ h => h) fun _ =>
    spec_mono (P := Room host 0 anyJob [id]) ?_ (fun _ h => h.1) fun _ _ h => h
  · intro r hr
    refine ⟨rfl, trivial, weight_outcome hr rfl rfl rfl rfl rfl ?_ ?_⟩
    · unfold settledBody Record.body
      rw [if_pos hstate]
      exact le_rfl
    · rw [hstate]
      exact le_rfl
  · refine spec_bind (spec_finishRunning id) fun _ =>
      spec_bind (spec_attempt (spec_retainUncertainty henv) fun _ _ h => h.roomy) fun _ => ?_
    exact spec_throw (by simp [capacityFailure]) fun _ h => h.1

theorem spec_complete (id bytes : ℕ) (outcome : Completed) :
    Spec (Room host bytes (Grows host outcome id bytes) [id]) (complete env host id outcome)
      (after host fun _ => Roomy host) := by
  unfold complete
  refine spec_ite (spec_completeInDoubt henv id bytes) fun hstate => ?_
  refine spec_bind (spec_charge (chargeable_grows _ _ _) (by simp)) fun _ =>
    spec_bind ((quiet_allowanceExpired id).spec local_room) fun expired => spec_readJournal fun j =>
    spec_orThrow (by simp [capacityFailure]) (fun o h => h.roomy) fun r _ =>
    spec_bind ((quiet_abandoned id).spec local_room) fun gone =>
    spec_bind (spec_updateRecord (by simp) (Nat.zero_le bytes) (G := anyJob) ?_
      fun _ _ _ _ => trivial) fun _ => spec_bind (roomy_save hsizes henv) fun _ => ?_
  · intro r hr
    obtain ⟨hid, hle⟩ := weight_settled hr rfl hstate expired gone
    exact ⟨hid, trivial, hle⟩
  · refine spec_bind (spec_finishRunning id) fun _ =>
      spec_bind ((quiet_deliver id).spec local_room) fun _ => ?_
    exact (quiet_require _ (by simp [capacityFailure])).spec local_room

theorem spec_startJob {id : ℕ} {ids : List ℕ} (hid : id ∉ ids) (lane : ℕ) :
    Spec (Room host 0 (ActiveJobs (id :: ids)) []) (startJob env host id lane)
      (after host fun _ => Room host 0 (ActiveJobs ids) []) := by
  unfold startJob
  refine spec_mono (P := Room host 0 (ActiveJobs (id :: ids)) [id]) ?_ ?_ fun _ _ h => h
  · refine spec_bind (spec_charge (chargeable_activeJobs _) (by simp)) fun _ =>
      spec_bind (quiet_wallMs.spec local_room) fun now => spec_readJournal fun j =>
      spec_orThrow (by simp [capacityFailure]) (fun o h => h.roomy) fun r _ =>
      spec_ite (fun _ => ?_) fun _ => ?_
    · refine spec_bind (spec_updateRecord (by simp) le_rfl (G := ActiveJobs ids) ?_ ?_) fun _ =>
        spec_bind (roomy_save hsizes henv) fun _ => (quiet_deliver id).spec local_room
      · intro r hr
        exact ⟨rfl, fun hmem => absurd hmem hid, weight_ended id r rfl⟩
      · intro k r hk hr hmem
        exact hr (List.mem_cons_of_mem id hmem)
    · refine spec_bind (spec_weaken (spec_change (by simp) ?_) (fun _ h => h) (fun _ _ h => h)
        fun _ h => h.roomy) fun _ => spec_bind (roomy_save hsizes henv) fun _ => spec_modify ?_
      · intro r hr
        exact ⟨rfl, fun _ => rfl, weight_active id (hr List.mem_cons_self) rfl⟩
      · intro o h
        have hstarted : Room host 0 (ActiveJobs (id :: ids)) []
            { o with running := o.running.insert id, tasks := o.tasks ++ [id], nextLane := (lane + 1) % 4 } := by
          refine h.started rfl (fun r hr => h.holds id r hr List.mem_cons_self) fun k hk => ?_
          simp [Ne.symm hk]
        exact hstarted.mono le_rfl fun k r _ hk hmem => hk (List.mem_cons_of_mem id hmem)
  · intro o h
    apply h.touch_active
    intro r hr
    exact h.holds id r hr List.mem_cons_self

theorem spec_startJobs (lane : ℕ) {ids : List ℕ} (hnodup : ids.Nodup) :
    Spec (Room host 0 (ActiveJobs ids) []) (startJobs env host lane ids)
      (after host fun _ => Roomy host) := by
  induction ids with
  | nil => exact spec_pure fun _ h => h.roomy
  | cons id ids ih =>
    obtain ⟨hid, hrest⟩ := List.nodup_cons.mp hnodup
    unfold startJobs
    refine spec_bind ((quiet_ask _).spec local_room) fun room =>
      spec_ite (fun _ => ?_) fun _ => spec_pure fun _ h => h.roomy
    refine spec_bind ((quiet_ask _).spec local_room) fun slot =>
      spec_bind ((quiet_liftError _).spec local_room) fun free =>
      spec_bind (spec_ite (Q := fun _ => Room host 0 (ActiveJobs ids) [])
        (fun _ => spec_startJob hsizes henv hid lane) fun _ => spec_pure ?_) fun _ => ih hrest
    intro o h
    exact h.mono le_rfl fun k r _ hk hmem => hk (List.mem_cons_of_mem id hmem)

theorem spec_scheduleLane (lane : ℕ) :
    Spec (Roomy host) (scheduleLane env host lane) (after host fun _ => Roomy host) := by
  unfold scheduleLane
  refine spec_bind ((quiet_ask _).spec local_room) fun slots =>
    spec_bind ((quiet_ask _).spec local_room) fun gone => spec_state fun s => ?_
  rintro o ⟨hroom, hs⟩
  subst hs
  have hentries : o.journal.records.entries.toList.map Prod.fst = o.journal.records.entries.keys :=
    Std.TreeMap.map_fst_toList_eq_keys
  apply spec_startJobs hsizes henv lane
  · refine (List.take_sublist _ _).nodup ((List.filter_sublist.map Prod.fst).nodup ?_)
    rw [hentries]
    exact Std.TreeMap.nodup_keys
  · refine hroom.mono le_rfl fun id r hr _ hmem => ?_
    obtain ⟨⟨k, r'⟩, hready, rfl⟩ := List.mem_map.mp (List.mem_of_mem_take hmem)
    obtain ⟨hentry, hwaiting⟩ := List.mem_filter.mp hready
    have hsame : o.journal.records.get? k = some r' :=
      Std.TreeMap.mem_toList_iff_getElem?_eq_some.mp hentry
    rw [hr] at hsame
    cases hsame
    simp only [Bool.and_eq_true, decide_eq_true_eq] at hwaiting
    rcases hwaiting.1.2 with hstate | hstate <;> rw [hstate] <;> rfl

theorem spec_schedule : Spec (Roomy host) (schedule env host) (after host fun _ => Roomy host) := by
  unfold schedule
  exact spec_readState fun o => spec_forEach fun lane _ => spec_scheduleLane hsizes henv lane

omit hsizes henv in
theorem spec_cancelOrExpire {id : ℕ} {ids : List ℕ} (hid : id ∉ ids) (cancelled expired : Bool) :
    Spec (Room host 0 (ActiveJobs (id :: ids)) [id]) (cancelOrExpire id cancelled expired)
      (after host fun _ => Room host 0 (ActiveJobs ids) [id]) := by
  unfold cancelOrExpire
  refine spec_bind (spec_weaken (spec_updateRecord (by simp) le_rfl (G := ActiveJobs ids) ?_ ?_)
    (fun _ h => h) (fun _ _ h => h) fun _ h => h) fun _ => spec_readState fun o =>
    spec_ite (fun _ => spec_pure fun _ h => h) fun _ =>
    spec_bind (spec_onlyIf ?_) fun _ => (quiet_deliver id).spec local_room
  · intro r hr
    exact ⟨rfl, fun hmem => absurd hmem hid, weight_cleared id r (by cases expired <;> rfl)⟩
  · intro k r hk hr hmem
    exact hr (List.mem_cons_of_mem id hmem)
  · refine spec_weaken (spec_change (by simp) ?_) (fun _ h => h) (fun _ _ h => h) fun _ h => h.roomy
    intro r hr
    exact ⟨rfl, hr, weight_acknowledged id r true⟩

omit hsizes henv in
theorem spec_reconcileOne {id : ℕ} {ids : List ℕ} (hid : id ∉ ids) (now : ℕ) :
    Spec (Room host 0 (ActiveJobs (id :: ids)) []) (reconcileOne env host now id)
      (after host fun _ => Room host 0 (ActiveJobs ids) []) := by
  unfold reconcileOne
  have htail : ∀ o, Room host 0 (ActiveJobs (id :: ids)) [id] o → Room host 0 (ActiveJobs ids) [] o :=
    fun o h => (h.mono le_rfl fun k r _ hk hmem => hk (List.mem_cons_of_mem id hmem)).untouch
  refine spec_mono (P := Room host 0 (ActiveJobs (id :: ids)) [id]) ?_ ?_ fun _ _ h => h
  · refine spec_readState fun o =>
      spec_bind (spec_onlyIf (spec_charge (chargeable_activeJobs _) (by simp))) fun _ =>
      spec_bind ((quiet_abandoned id).spec local_room) fun gone => spec_readJournal fun j =>
      spec_orThrow (by simp [capacityFailure]) (fun o h => h.roomy) fun r _ =>
      spec_bind (spec_look (by simp)) fun _ => spec_ite (fun _ => ?_) fun _ => spec_pure htail
    exact spec_bind (spec_cancelOrExpire hid _ _) fun _ => spec_pure fun _ h => h.untouch
  · intro o h
    apply h.touch_active
    intro r hr
    exact h.holds id r hr List.mem_cons_self

omit hsizes henv in
theorem spec_reconcileAll (now : ℕ) {ids : List ℕ} (hnodup : ids.Nodup) :
    Spec (Room host 0 (ActiveJobs ids) []) (reconcileAll env host now ids)
      (after host fun _ => Roomy host) := by
  induction ids with
  | nil => exact spec_pure fun _ h => h.roomy
  | cons id ids ih =>
    obtain ⟨hid, hrest⟩ := List.nodup_cons.mp hnodup
    unfold reconcileAll
    exact spec_bind (spec_reconcileOne hid now) fun changed => spec_bind (ih hrest) fun rest =>
      spec_pure fun _ h => h

omit hsizes henv in
/-- Every job is filed under its own number. -/
theorem ids_eq_keys {o : Owner} (h : Room host extra F T o) (p : Record → Bool) :
    ((o.journal.records.values.filter p).map Record.id) =
      (o.journal.records.entries.toList.filter fun e => p e.2).map Prod.fst := by
  unfold TrackedMap.values
  rw [List.filter_map, List.map_map]
  apply List.map_congr_left
  intro e he
  exact (h.named e.1 e.2 (Std.TreeMap.mem_toList_iff_getElem?_eq_some.mp (List.mem_filter.mp he).1)).1

theorem spec_reconcile : Spec (Roomy host) (reconcile env host) (after host fun _ => Roomy host) := by
  unfold reconcile
  refine spec_bind (quiet_wallMs.spec local_room) fun now => spec_getJournal fun j =>
    spec_require (by simp [capacityFailure]) (fun o h => h.1.roomy) fun _ => ?_
  refine spec_bind (Q := fun _ => Roomy host) ?_ fun changed =>
    spec_bind ((quiet_ask _).spec local_room) fun due =>
    spec_ite (fun _ => roomy_save hsizes henv) fun _ => spec_pure fun _ h => h
  rintro o ⟨hroom, hj⟩
  subst hj
  rw [ids_eq_keys hroom]
  have hentries : o.journal.records.entries.toList.map Prod.fst = o.journal.records.entries.keys :=
    Std.TreeMap.map_fst_toList_eq_keys
  apply spec_reconcileAll now
  · refine (List.filter_sublist.map Prod.fst).nodup ?_
    rw [hentries]
    exact Std.TreeMap.nodup_keys
  · refine hroom.mono le_rfl fun id r hr _ hmem => ?_
    obtain ⟨⟨k, r'⟩, hentry, rfl⟩ := List.mem_map.mp hmem
    obtain ⟨hin, hactive⟩ := List.mem_filter.mp hentry
    have hsame : o.journal.records.get? k = some r' :=
      Std.TreeMap.mem_toList_iff_getElem?_eq_some.mp hin
    rw [hr] at hsame
    cases hsame
    exact hactive

end Events

end Owner

end Naome.Jobs
