import Naome.ResearchRoomSteps

/-!
# Room for a submission

What a new job and its obligation take, and that a submission which finds that much leaves room for
everything else. A submission that fails the capacity check of the journal takes nothing.
-/
namespace Naome.Jobs
open Outcome Effect Size

/-- The record of a new job; its number and its clock count at full width. -/
def Host.newRecord (host : Host) (input : Input) (binding : Binding) (a : Account) : Record where
  id := 0
  input := input
  binding := binding
  provider := defaultProvider
  configuration := host.configuration a.settings
  settings := a.settings
  createdMs := a.createdMs
  expiresMs := a.expiresMs
  accountedMs := 0
  spentMs := a.spentMs
  reservedUnits := a.reservedUnits
  checkpoint := 0
  state := .queued
  result := none
  acknowledged := false
  failure := none

namespace Owner

variable (host : Host)

/-- The account that a submission continues. -/
def accountOf (o : Owner) (input : Input) : Option Account :=
  if input.isFind then none
  else match o.journal.accounts.get? (host.accountKey input) with
    | some account => some account
    | none => o.rows.accounts[host.accountKey input]?

/-- That account, or the one it opens. -/
def openedAccount (o : Owner) (input : Input) : Account :=
  (o.accountOf host input).getD ⟨o.settings.forInput input, 0, 0, 0, 0, none⟩

/-- What a job takes, with the room for its result. -/
def recordCost (input : Input) (binding : Binding) (a : Account) : ℕ :=
  (host.newRecord input binding a).fullLen + 24 + host.outputReservation input

/-- What an account takes that is not in memory yet. -/
def accountCost (accounts : TrackedMap Digest Account) (input : Input) (a : Account) : ℕ :=
  if input.isFind || (accounts.get? (host.accountKey input)).isSome then 0 else a.fullLen + 64 + 4

/-- Whether the capacity check of a submission lets it through. -/
def passes (o : Owner) (input : Input) (binding : Binding) : Prop :=
  o.held host Record.jsonLen Account.jsonLen + (host.outputReservation input +
    host.requestLen input binding (o.openedAccount host input).settings + 4096) + 256 ≤
    host.activeJobBytes

instance (o : Owner) (input : Input) (binding : Binding) : Decidable (o.passes host input binding) :=
  inferInstanceAs (Decidable (_ ≤ _))

/-- What a submission takes. -/
def submission (o : Owner) (input : Input) (binding : Binding) : ℕ :=
  if o.passes host input binding then
    recordCost host input binding (o.openedAccount host input) +
      accountCost host o.journal.accounts input (o.openedAccount host input)
  else 0

variable {host} {env : Environment} {extra : ℕ} {F : ℕ → Record → Prop} {o : Owner}

theorem Room.insertRecord {r : Record} {nextId : ℕ} (hid : r.id = o.journal.nextId)
    (hlt : o.journal.nextId < u64Limit) (bytes : ℕ)
    (h : Room host (bytes + 20 + 4 + host.room r + extra) anyJob [] o) (hbytes : r.fullLen ≤ bytes) :
    Room host extra anyJob [] (o.setJournal { o.journal with
      nextId := nextId, records := o.journal.records.insert o.journal.nextId r }) := by
  generalize hjournal : ({ o.journal with
    nextId := nextId, records := o.journal.records.insert o.journal.nextId r } : Journal) = j'
  have hrecords : j'.records = o.journal.records.insert o.journal.nextId r := by rw [← hjournal]
  have haccounts : j'.accounts = o.journal.accounts := by rw [← hjournal]
  have hget (k : ℕ) : j'.records.get? k =
      if o.journal.nextId = k then some r else o.journal.records.get? k := by
    rw [hrecords, TrackedMap.get?_insert]
  have hself : ∀ v, heldRow host Record.fullLen (o.setJournal j') o.journal.nextId v =
      host.weight Record.fullLen o.journal.nextId v := by
    intro v
    have hchanged : j'.records.changed o.journal.nextId = true := by
      rw [hrecords, TrackedMap.changed_insert]
      exact .inl rfl
    unfold heldRow evictable setJournal
    simp [hchanged]
  have hother : ∀ a b, a ≠ o.journal.nextId →
      heldRow host Record.fullLen (o.setJournal j') a b = heldRow host Record.fullLen o a b := by
    intro a b ha
    have hchanged : j'.records.changed a = o.journal.records.changed a := by
      rw [Bool.eq_iff_iff, hrecords, TrackedMap.changed_insert]
      simp [Ne.symm ha]
    unfold heldRow evictable finished setJournal
    rw [hchanged]
  have hweight : host.weight Record.fullLen o.journal.nextId r ≤ bytes + 20 + 4 + host.room r := by
    have hkey := (decimal_le_wide o.journal.nextId).trans_eq (wide_of_lt hlt)
    unfold Host.weight
    omega
  have hrows : total j'.records.entries (heldRow host Record.fullLen (o.setJournal j')) ≤
      total o.journal.records.entries (heldRow host Record.fullLen o) +
        host.weight Record.fullLen o.journal.nextId r := by
    have hentries : j'.records.entries = o.journal.records.entries.insert o.journal.nextId r := by
      rw [hrecords]
      rfl
    rw [hentries]
    cases hold : o.journal.records.entries[o.journal.nextId]? with
    | some v =>
      have hreplaced := total_replace_of_ne hold hother r
      rw [hself] at hreplaced
      omega
    | none =>
      rw [total_insert_of_new hold, hself]
      apply Nat.add_le_add_right
      apply total_le
      intro k v hkv
      rw [hother k v]
      rintro rfl
      rw [hold] at hkv
      cases hkv
  constructor
  · have hfits := h.fits
    unfold full held at hfits ⊢
    simp only [List.map_nil, List.sum_nil] at hfits ⊢
    dsimp only [setJournal] at hrows ⊢
    rw [haccounts]
    omega
  · intro k r' hr'
    rw [setJournal, hget] at hr'
    split_ifs at hr' with hk
    · cases hr'
      rw [← hk]
      exact ⟨hid, hlt⟩
    · exact h.named k r' hr'
  · exact fun _ _ _ => trivial

theorem Room.insertAccount {key : Digest} {a : Account} {bytes : ℕ}
    (h : Room host (bytes + extra) F [] o)
    (hbytes : o.journal.accounts.get? key = some a ∨ a.fullLen + 64 + 4 ≤ bytes) :
    Room host extra F [] (o.setJournal { o.journal with
      accounts := o.journal.accounts.insert key a }) := by
  have haccounts : total (o.journal.accounts.entries.insert key a) (fun _ a => a.fullLen + 64 + 4) ≤
      total o.journal.accounts.entries (fun _ a => a.fullLen + 64 + 4) + bytes := by
    cases hold : o.journal.accounts.entries[key]? with
    | none =>
      rcases hbytes with hsame | hbytes
      · exact absurd (hold.symm.trans hsame) (by simp)
      · rw [total_insert_of_new hold]
        omega
    | some b =>
      have hreplaced := total_replace (f := fun _ (a : Account) => a.fullLen + 64 + 4) hold a
      rcases hbytes with hsame | hbytes
      · cases hold.symm.trans hsame
        omega
      · omega
  refine h.of_le (o.setJournal { o.journal with
      accounts := o.journal.accounts.insert key a }) ?_ fun _ _ hr => hr
  unfold full held
  have hrows : heldRow host Record.fullLen (o.setJournal { o.journal with
      accounts := o.journal.accounts.insert key a }) = heldRow host Record.fullLen o := rfl
  rw [hrows]
  dsimp only [setJournal, TrackedMap.insert]
  simp only [List.map_nil, List.sum_nil]
  omega

theorem fullLen_opened {settings : RoleSettings} {now expires : ℕ} (hnow : now < u64Limit)
    (hexpires : expires < u64Limit) : Account.fullLen ⟨settings, now, expires, 0, 0, none⟩ =
      Account.fullLen ⟨settings, 0, 0, 0, 0, none⟩ := by
  have hzero : wide 0 = 20 := wide_of_lt (by norm_num [u64Limit])
  unfold Account.fullLen Account.sized
  dsimp only
  rw [wide_of_lt hnow, wide_of_lt hexpires, hzero]

theorem recordCost_opened {settings : RoleSettings} {now expires : ℕ} (hnow : now < u64Limit)
    (hexpires : expires < u64Limit) (input : Input) (binding : Binding) :
    recordCost host input binding ⟨settings, now, expires, 0, 0, none⟩ =
      recordCost host input binding ⟨settings, 0, 0, 0, 0, none⟩ := by
  have hzero : wide 0 = 20 := wide_of_lt (by norm_num [u64Limit])
  unfold recordCost Record.fullLen Record.sized Record.fixed Host.newRecord
  dsimp only
  rw [wide_of_lt hnow, wide_of_lt hexpires, hzero]
  rfl

section Submit

variable (hsizes : host.Serializes) (henv : env.Foreign)
include hsizes henv

theorem roomy_createRecord (input : Input) (binding : Binding) (reply : Reply) {now : ℕ}
    (hnow : now < u64Limit) (original : Account) :
    Spec (Room host (recordCost host input binding original) anyJob [])
      (createRecord env host input binding reply now original) (after host fun _ => Roomy host) := by
  unfold createRecord
  refine spec_getJournal fun j => spec_orThrow (by simp [capacityFailure]) (fun o h => h.1.roomy)
    fun nextId hnext => spec_bind (Q := fun _ => Roomy host) (spec_modifyJournal ?_) fun _ =>
    spec_bind (spec_frame local_room (fun _ => rfl) fun _ => rfl) fun _ => roomy_save hsizes henv
  rintro o ⟨hroom, hj⟩
  subst hj
  have hlt : o.journal.nextId < u64Limit := by
    unfold checkedAdd at hnext
    split_ifs at hnext with hsum
    omega
  have hzero : wide 0 = 20 := wide_of_lt (by norm_num [u64Limit])
  refine Room.insertRecord rfl hlt (host.newRecord input binding original).fullLen ?_ ?_
  · refine hroom.mono ?_ fun _ _ _ h => h
    unfold recordCost Host.room
    simp [State.active]
  · unfold Record.fullLen Record.sized Record.fixed Host.newRecord
    dsimp only
    rw [wide_of_lt hlt, wide_of_lt hnow, hzero]
    exact le_rfl

/-- Room for a job and its account, with the accounts that the submission started from. -/
def Admitting (host : Host) (input : Input) (binding : Binding) (a : Account)
    (accounts : TrackedMap Digest Account) (o : Owner) : Prop :=
  Room host (accountCost host accounts input a + recordCost host input binding a) anyJob [] o ∧
    o.journal.accounts = accounts

omit hsizes henv in
theorem local_admitting {input : Input} {binding : Binding} {a : Account}
    {accounts : TrackedMap Digest Account} : Local host (Admitting host input binding a accounts) :=
  local_room.and fun j => j.accounts = accounts

theorem spec_admitFinding {input : Input} (cursor : ℕ) (binding : Binding) (reply : Reply) {now : ℕ}
    (hnow : now < u64Limit) (new : Account) :
    Spec (Room host (recordCost host input binding new) anyJob [])
      (admitFinding env host input cursor binding reply now new) (after host fun _ => Roomy host) := by
  unfold admitFinding
  exact spec_readJournal fun j => spec_ite (fun _ => spec_pure fun _ h => h.roomy) fun _ =>
    spec_orThrow (by simp [capacityFailure]) (fun o h => h.roomy) fun nextCursor _ =>
    spec_bind (Q := fun _ => Room host (recordCost host input binding new) anyJob [])
      (spec_modifyJournal fun o h => h.frame rfl rfl rfl) fun _ =>
    roomy_createRecord hsizes henv input binding reply hnow new

theorem spec_admitObligation {input : Input} (hfind : input.isFind = false) (binding : Binding)
    (reply : Reply) {now : ℕ} (hnow : now < u64Limit) {accounts : TrackedMap Digest Account}
    {original : Option Account} {new a : Account}
    (horiginal : ∀ b, original = some b → b = a ∧
      ∀ c, accounts.get? (host.accountKey input) = some c → c = a)
    (hnew : original = none → new.fullLen = a.fullLen ∧
      recordCost host input binding new = recordCost host input binding a ∧
      accounts.get? (host.accountKey input) = none) :
    Spec (Admitting host input binding a accounts)
      (admitObligation env host input binding reply now new original) (after host fun _ => Roomy host) := by
  have hopen : ∀ b : Account, recordCost host input binding b = recordCost host input binding a →
      (accounts.get? (host.accountKey input) = some b ∨
        b.fullLen + 64 + 4 ≤ accountCost host accounts input a) →
      Spec (Admitting host input binding a accounts) (do
        insertAccount (host.accountKey input) b
        createRecord env host input binding reply now b : OwnerM Unit)
        (after host fun _ => Roomy host) := by
    intro b hrecord haccount
    refine spec_bind (spec_modifyJournal ?_) fun _ => roomy_createRecord hsizes henv input binding reply hnow b
    rintro o ⟨hroom, haccounts⟩
    rw [hrecord]
    apply hroom.insertAccount
    rw [haccounts]
    exact haccount
  cases original with
  | some b =>
    obtain ⟨rfl, hsame⟩ := horiginal b rfl
    refine spec_ite (fun _ => spec_pure fun _ h => h.1.roomy) fun _ => hopen b rfl ?_
    cases hmemory : accounts.get? (host.accountKey input) with
    | some c => exact .inl (by rw [hsame c hmemory])
    | none =>
      right
      unfold accountCost
      rw [hfind, hmemory]
      exact le_rfl
  | none =>
    obtain ⟨haccount, hrecord, hmemory⟩ := hnew rfl
    refine hopen new hrecord (.inr ?_)
    unfold accountCost
    rw [hfind, hmemory, haccount]
    exact le_rfl

/-- The account of a submission, as the owner found it. -/
structure Found (host : Host) (accounts : TrackedMap Digest Account) (input : Input)
    (settings : RoleSettings) (original : Option Account) (a : Account) : Prop where
  continued : ∀ b, original = some b → b = a ∧ input.isFind = false ∧
    ∀ c, accounts.get? (host.accountKey input) = some c → c = a
  opened : original = none → a = ⟨settings, 0, 0, 0, 0, none⟩ ∧
    (input.isFind = false → accounts.get? (host.accountKey input) = none)

theorem spec_admitNew {input : Input} {binding : Binding} (reply : Reply)
    {accounts : TrackedMap Digest Account} {settings : RoleSettings} {original : Option Account}
    {a : Account} (hfound : Found host accounts input settings original a) :
    Spec (Admitting host input binding a accounts)
      (admitNew env host input binding reply settings original) (after host fun _ => Roomy host) := by
  unfold admitNew
  refine spec_bind (spec_weaken (spec_wallMs local_admitting) (fun _ h => h) (fun _ _ h => h)
    fun _ h => h.1.roomy) fun now o h => ?_
  obtain ⟨hadmitting, hnow⟩ := h
  revert o
  show Spec (Admitting host input binding a accounts) _ (after host fun _ => Roomy host)
  refine spec_readJournal fun j => spec_require (by simp [capacityFailure]) (fun o h => h.1.roomy)
    fun _ => spec_orThrow (by simp [capacityFailure]) (fun o h => h.1.roomy) fun expires hexpires => ?_
  have hexpires' : expires < u64Limit := by
    unfold checkedAdd at hexpires
    split_ifs at hexpires with hlt
    cases hexpires
    exact hlt
  have hobligation : input.isFind = false → Spec (Admitting host input binding a accounts)
      (admitObligation env host input binding reply now ⟨settings, now, expires, 0, 0, none⟩ original)
      (after host fun _ => Roomy host) := by
    intro hfind
    apply spec_admitObligation hsizes henv hfind binding reply hnow
    · intro b hb
      exact ⟨(hfound.continued b hb).1, (hfound.continued b hb).2.2⟩
    · intro hnone
      obtain ⟨rfl, hmemory⟩ := hfound.opened hnone
      exact ⟨fullLen_opened hnow hexpires', recordCost_opened hnow hexpires' input binding, hmemory hfind⟩
  cases input with
  | find cursor question =>
    refine spec_mono (spec_admitFinding hsizes henv cursor binding reply hnow _) (fun o h => ?_)
      fun _ _ h => h
    have hnone : original = none := by
      cases horiginal : original with
      | none => rfl
      | some b => exact absurd (hfound.continued b horiginal).2.1 (by simp [Input.isFind])
    obtain ⟨rfl, -⟩ := hfound.opened hnone
    rw [recordCost_opened hnow hexpires']
    exact h.1.mono (Nat.le_add_left _ _) fun _ _ _ h => h
  | solve question => exact hobligation rfl
  | select question purpose root => exact hobligation rfl

omit hsizes henv in
theorem held_frame {o o' : Owner} (hjournal : o'.journal = o.journal) (hrunning : o'.running = o.running)
    (size : Record → ℕ) (accountSize : Account → ℕ) :
    o'.held host size accountSize = o.held host size accountSize := by
  unfold held heldRow evictable finished
  rw [hjournal, hrunning]

/-- Room for `extra`, with the rows and the accounts that the submission started from. -/
def Submitting (host : Host) (extra bytes : ℕ) (accounts : TrackedMap Digest Account) (o : Owner) : Prop :=
  Room host extra anyJob [] o ∧ o.held host Record.jsonLen Account.jsonLen = bytes ∧
    o.journal.accounts = accounts

omit hsizes henv in
theorem local_submitting {bytes : ℕ} {accounts : TrackedMap Digest Account} :
    Local host (Submitting host extra bytes accounts) :=
  ⟨fun o o' hjournal hrunning h => ⟨local_room.frame o o' hjournal hrunning h.1,
    (held_frame hjournal hrunning _ _).trans h.2.1, by rw [hjournal]; exact h.2.2⟩, fun _ h => h.1.roomy⟩

theorem roomy_submitNew {input : Input} {binding : Binding} (reply : Reply) {bytes : ℕ}
    {accounts : TrackedMap Digest Account} {settings : RoleSettings} {original : Option Account}
    {a : Account} (hfound : Found host accounts input settings original a)
    (hextra : bytes + (host.outputReservation input + host.requestLen input binding settings + 4096) +
      256 ≤ host.activeJobBytes →
      accountCost host accounts input a + recordCost host input binding a ≤ extra) :
    Spec (Submitting host extra bytes accounts)
      (submitNew env host input binding reply settings original) (after host fun _ => Roomy host) := by
  unfold submitNew
  refine spec_bind ((quiet_ask _).spec local_submitting) fun space => ?_
  cases space with
  | error _ => exact spec_pure fun _ h => h.1.roomy
  | ok _ =>
    refine spec_bind (Q := fun _ => Submitting host extra bytes accounts) ?_ fun _ =>
      spec_bind (spec_compactBytes hsizes _ bytes accounts) fun fits => ?_
    · refine spec_bind ((quiet_ask _).spec local_submitting) fun active => spec_modify fun o h => ?_
      have hkept : Kept host o _ := kept_compacted active.terminalJobPage
      exact ⟨hkept.room h.1, (hkept.held _ _).trans h.2.1, hkept.accounts.trans h.2.2⟩
    · rintro o ⟨hroom, haccounts, hfits⟩
      have hchecked : Local host fun o => Room host extra anyJob [] o ∧ o.journal.accounts = accounts :=
        local_room.and fun j => j.accounts = accounts
      refine spec_bind ((quiet_ask _).spec hchecked) ?_ o ⟨hroom, haccounts⟩
      intro active
      refine spec_readJournal ?_
      intro j
      dsimp only
      refine spec_ite (fun hadmit => ?_) fun _ => spec_pure fun _ h => h.1.roomy
      rw [Bool.and_eq_true] at hadmit
      have hcost := hextra (hfits.mp hadmit.1)
      exact spec_mono (spec_admitNew hsizes henv reply hfound)
        (fun _ h => ⟨h.1.mono hcost fun _ _ _ h => h, h.2⟩) fun _ _ h => h

theorem roomy_submitArchived {input : Input} {binding : Binding} (reply : Reply) {bytes : ℕ}
    {accounts : TrackedMap Digest Account} {settings : RoleSettings} {original : Option Account}
    {a : Account} (hfound : Found host accounts input settings original a)
    (hextra : bytes + (host.outputReservation input + host.requestLen input binding settings + 4096) +
      256 ≤ host.activeJobBytes →
      accountCost host accounts input a + recordCost host input binding a ≤ extra) :
    Spec (Submitting host extra bytes accounts)
      (submitArchived env host input binding reply settings original) (after host fun _ => Roomy host) := by
  unfold submitArchived
  refine spec_bind ((quiet_request _ _ _).spec local_submitting) fun archived => ?_
  cases archived with
  | some r =>
    exact spec_mono ((quiet_require _ (by simp [capacityFailure])).spec local_submitting)
      (fun _ h => h) fun _ _ h => h.1.roomy
  | none => exact roomy_submitNew hsizes henv reply hfound hextra

omit hsizes henv in
theorem quiet_originalAccount (input : Input) : Quiet (originalAccount env host input) := by
  unfold originalAccount
  refine quiet_getJournal.bind fun j => .ite (quiet_pure _) ?_
  split
  · exact quiet_pure _
  · exact quiet_account _

omit hsizes henv in
/-- The account that a submission reads is the one in memory or the row. -/
theorem result_originalAccount {input : Input} {original : Option Account}
    (h : ((originalAccount env host input).run o).1 = .ok original) :
    original = o.accountOf host input ∧
      ((originalAccount env host input).run o).2.settings = o.settings := by
  unfold originalAccount getJournal at h ⊢
  unfold accountOf
  simp only [run_bind, run_state, run_pure] at h ⊢
  cases hfind : input.isFind with
  | true =>
    simp only [hfind, if_true, run_pure] at h ⊢
    exact ⟨(Except.ok.inj h).symm, trivial⟩
  | false =>
    simp only [hfind, Bool.false_eq_true, if_false] at h ⊢
    cases hmemory : o.journal.accounts.get? (host.accountKey input) with
    | some a =>
      simp only [hmemory, run_pure] at h ⊢
      exact ⟨(Except.ok.inj h).symm, trivial⟩
    | none =>
      simp only [hmemory] at h ⊢
      unfold account at h ⊢
      simp only [run_bind, run_state] at h ⊢
      obtain ⟨questions, hok | ⟨e, herror⟩⟩ := ensureGeneration_cases env o
      · simp only [hok] at h ⊢
        unfold Host.readAccount at h ⊢
        cases hrow : o.rows.accounts[host.accountKey input]? with
        | none =>
          simp only [hrow] at h ⊢
          exact ⟨(Except.ok.inj h).symm, rfl⟩
        | some a =>
          simp only [hrow] at h ⊢
          unfold Outcome.require at h ⊢
          split_ifs at h ⊢
          · exact ⟨(Except.ok.inj h).symm, rfl⟩
          · cases h
      · simp only [herror] at h
        cases h

omit hsizes henv in
theorem found_openedAccount (o : Owner) (input : Input) : Found host o.journal.accounts input
    ((o.accountOf host input).elim (o.settings.forInput input) Account.settings)
    (o.accountOf host input) (o.openedAccount host input) := by
  constructor
  · intro b hb
    refine ⟨by simp [openedAccount, hb], ?_, fun c hc => ?_⟩
    · cases hfind : input.isFind with
      | false => rfl
      | true => simp [accountOf, hfind] at hb
    · unfold accountOf at hb
      split_ifs at hb
      rw [hc] at hb
      simp only [Option.some.injEq] at hb
      subst hb
      unfold openedAccount accountOf
      simp_all
  · intro hnone
    refine ⟨by simp [openedAccount, hnone], fun hfind => ?_⟩
    cases hmemory : o.journal.accounts.get? (host.accountKey input) with
    | none => rfl
    | some c => simp [accountOf, hfind, hmemory] at hnone

/-- A submission that finds what it takes leaves room. -/
theorem spec_submit (input : Input) (binding : Binding) (reply : Reply) (extra : ℕ) :
    Spec (fun o => Room host extra anyJob [] o ∧ o.submission host input binding ≤ extra)
      (submit env host input binding reply) (after host fun _ => Roomy host) := by
  rintro o ⟨hroom, hextra⟩
  have hfound : Found host o.journal.accounts input _ _ _ := found_openedAccount o input
  generalize ho₁ : ({ o with questions := o.questions + 1 } : Owner) = o₁
  have hroom₁ : Room host extra anyJob [] o₁ := by
    rw [← ho₁]
    exact hroom.frame rfl rfl rfl
  unfold submit
  rw [run_bind]
  dsimp only [ask]
  rw [ho₁]
  split_ifs
  · exact hroom₁.roomy
  · have hquiet := @quiet_originalAccount host env input o₁
    rw [run_bind]
    rcases horiginal : (originalAccount env host input).run o₁ with ⟨r, o₂⟩
    rw [horiginal] at hquiet
    obtain ⟨hjournal, hrunning, hfine⟩ := hquiet
    have hroom₂ : Room host extra anyJob [] o₂ := local_room.frame o₁ o₂ hjournal hrunning hroom₁
    cases r with
    | error e => exact ⟨hroom₂.roomy, fun heq => hfine (by rw [heq])⟩
    | ok original =>
      obtain ⟨hresult, hsettings⟩ := @result_originalAccount host env o₁ input original (by rw [horiginal])
      rw [horiginal] at hsettings
      have hstart : o₁.journal = o.journal ∧ o₁.running = o.running ∧ o₁.settings = o.settings ∧
          o₁.accountOf host input = o.accountOf host input := by
        rw [← ho₁]
        exact ⟨rfl, rfl, rfl, rfl⟩
      have hsubmitting : Submitting host extra (o.held host Record.jsonLen Account.jsonLen)
          o.journal.accounts o₂ := by
        refine ⟨hroom₂, held_frame (hjournal.trans hstart.1) (hrunning.trans hstart.2.1) _ _, ?_⟩
        rw [show o₂.journal = o.journal from hjournal.trans hstart.1]
      have hsettings₂ : o₂.settings = o.settings := hsettings.trans hstart.2.2.1
      rw [hstart.2.2.2] at hresult
      subst hresult
      rw [← hsettings₂] at hfound
      have hopened : (o.openedAccount host input).settings =
          (o.accountOf host input).elim (o₂.settings.forInput input) Account.settings := by
        unfold openedAccount
        rw [hsettings₂]
        cases o.accountOf host input <;> rfl
      have hcost : o.held host Record.jsonLen Account.jsonLen + (host.outputReservation input +
          host.requestLen input binding ((o.accountOf host input).elim (o₂.settings.forInput input)
            Account.settings) + 4096) + 256 ≤ host.activeJobBytes →
          accountCost host o.journal.accounts input (o.openedAccount host input) +
            recordCost host input binding (o.openedAccount host input) ≤ extra := by
        intro hpasses
        rw [← hopened] at hpasses
        change o.passes host input binding at hpasses
        unfold submission at hextra
        rw [if_pos hpasses] at hextra
        omega
      dsimp only
      rw [run_bind, run_state]
      dsimp only
      split_ifs
      · exact hroom₂.roomy
      · split
        · exact spec_mono ((quiet_joinWaiters _ reply).spec local_submitting) (fun _ h => h)
            (fun _ _ h => h.1.roomy) o₂ hsubmitting
        · exact roomy_submitArchived hsizes henv reply hfound hcost o₂ hsubmitting

end Submit

end Owner

end Naome.Jobs
