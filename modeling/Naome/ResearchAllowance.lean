import Naome.ResearchService

/-!
# The allowance of an obligation

An account row is never removed, keeps its settings and times, and only grows. A reservation is
answered after its unit was committed to the account, so the units granted for an input never
exceed the work units its account was opened with.
-/
namespace Naome.Jobs
open Outcome Effect

/-- The later state of one account. -/
structure Account.Extends (a b : Account) : Prop where
  settings : b.settings = a.settings
  created : b.createdMs = a.createdMs
  expires : b.expiresMs = a.expiresMs
  spent : a.spentMs ≤ b.spentMs
  reserved : a.reservedUnits ≤ b.reservedUnits

structure Account.Bounded (a : Account) : Prop where
  spent : a.spentMs < u64Limit
  reserved : a.reservedUnits ≤ a.settings.limits.workUnits

namespace Account

theorem Extends.refl (a : Account) : a.Extends a := ⟨rfl, rfl, rfl, le_rfl, le_rfl⟩

theorem Extends.trans {a b c : Account} (h : a.Extends b) (h' : b.Extends c) : a.Extends c :=
  ⟨h'.settings.trans h.settings, h'.created.trans h.created, h'.expires.trans h.expires,
    h.spent.trans h'.spent, h.reserved.trans h'.reserved⟩

end Account

/-- A change that neither resets nor enlarges an account. -/
def Account.Forward (f : Account → Account) : Prop :=
  ∀ a : Account, a.Bounded → a.Extends (f a) ∧ (f a).Bounded

namespace Account

theorem forward_hold (held : Option ℕ) : Forward fun a => { a with held := held } :=
  fun _ h => ⟨⟨rfl, rfl, rfl, le_rfl, le_rfl⟩, ⟨h.spent, h.reserved⟩⟩

theorem forward_charge (elapsed : ℕ) :
    Forward fun a => { a with spentMs := saturatingAdd a.spentMs elapsed } :=
  fun _ h => ⟨⟨rfl, rfl, rfl, le_saturatingAdd h.spent elapsed, le_rfl⟩,
    ⟨saturatingAdd_lt _ _, h.reserved⟩⟩

end Account

variable {host : Host}

variable (host) in
/-- The accounts in memory continue their rows, and every resident obligation has its account. -/
structure Backed (rows : DigestMap Account) (j : Journal) : Prop where
  bounded : ∀ key a, j.accounts.get? key = some a → a.Bounded
  extends_row : ∀ key a d, j.accounts.get? key = some a → rows[key]? = some d → d.Extends a
  clean : ∀ key a, j.accounts.get? key = some a → j.accounts.changed key = false →
    rows[key]? = some a
  removed : ∀ key, key ∉ j.accounts.removed
  resident : ∀ id r, j.records.get? id = some r → r.input.isFind = false →
    ∃ a, j.accounts.get? (host.accountKey r.input) = some a

namespace Backed

variable {rows : DigestMap Account} {j j' : Journal}

/-- Only the accounts and the inputs of the resident records matter. -/
theorem congr (h : Backed host rows j) (haccounts : j'.accounts = j.accounts)
    (hrecords : ∀ id r', j'.records.get? id = some r' →
      ∃ id' r, j.records.get? id' = some r ∧ r.input = r'.input) : Backed host rows j' := by
  constructor
  · rw [haccounts]
    exact h.bounded
  · rw [haccounts]
    exact h.extends_row
  · rw [haccounts]
    exact h.clean
  · rw [haccounts]
    exact h.removed
  · intro id r' hr' hfind
    obtain ⟨id', r, hr, hinput⟩ := hrecords id r' hr'
    rw [haccounts, ← hinput]
    exact h.resident id' r hr (by rw [hinput]; exact hfind)

theorem updateRecord (h : Backed host rows j) (id : ℕ) {f : Record → Record}
    (hf : ∀ r, (f r).input = r.input) : Backed host rows (j.updateRecord id f) := by
  refine h.congr rfl ?_
  intro id' r' hr'
  simp only [Journal.updateRecord, TrackedMap.get?_update] at hr'
  split_ifs at hr' with heq
  · obtain ⟨r, hr, rfl⟩ := Option.map_eq_some_iff.mp hr'
    exact ⟨id', r, hr, (hf r).symm⟩
  · exact ⟨id', r', hr', rfl⟩

theorem retire (h : Backed host rows j) (id : ℕ) : Backed host rows (j.retire id) := by
  refine h.congr rfl ?_
  intro id' r' hr'
  simp only [Journal.retire, TrackedMap.get?_remove] at hr'
  split_ifs at hr' with heq
  exact ⟨id', r', hr', rfl⟩

theorem updateAccount (h : Backed host rows j) (key : Digest) {f : Account → Account}
    (hf : ∀ a, j.accounts.get? key = some a → a.Extends (f a) ∧ (f a).Bounded) :
    Backed host rows (j.updateAccount key f) := by
  have hget : ∀ key' a', (j.updateAccount key f).accounts.get? key' = some a' →
      (key = key' ∧ ∃ a, j.accounts.get? key = some a ∧ f a = a') ∨
        (key ≠ key' ∧ j.accounts.get? key' = some a') := by
    intro key' a' ha'
    simp only [Journal.updateAccount, TrackedMap.get?_update] at ha'
    split_ifs at ha' with heq
    · obtain ⟨a, ha, hfa⟩ := Option.map_eq_some_iff.mp ha'
      exact .inl ⟨heq, a, by rw [heq]; exact ha, hfa⟩
    · exact .inr ⟨heq, ha'⟩
  constructor
  · intro key' a' ha'
    rcases hget key' a' ha' with ⟨-, a, ha, rfl⟩ | ⟨-, ha⟩
    · exact (hf a ha).2
    · exact h.bounded key' a' ha
  · intro key' a' d ha' hd
    rcases hget key' a' ha' with ⟨rfl, a, ha, rfl⟩ | ⟨-, ha⟩
    · exact (h.extends_row key a d ha hd).trans (hf a ha).1
    · exact h.extends_row key' a' d ha hd
  · intro key' a' ha' hclean
    have hsame := (TrackedMap.changed_update j.accounts key key' f).not
    rw [Bool.not_eq_true] at hsame
    obtain hnot := hsame.mp hclean
    rcases hget key' a' ha' with ⟨rfl, a, ha, rfl⟩ | ⟨-, ha⟩
    · exact absurd (.inl ⟨rfl, by rw [ha]; rfl⟩) hnot
    · exact h.clean key' a' ha (by simpa using fun hc => hnot (.inr hc))
  · intro key'
    simp only [Journal.updateAccount, TrackedMap.removed_update]
    exact h.removed key'
  · intro id r hr hfind
    obtain ⟨a, ha⟩ := h.resident id r hr hfind
    by_cases heq : key = host.accountKey r.input
    · exact ⟨f a, by simp [Journal.updateAccount, TrackedMap.get?_update, heq, ha]⟩
    · exact ⟨a, by simp [Journal.updateAccount, TrackedMap.get?_update, heq, ha]⟩

theorem insertAccount (h : Backed host rows j) (key : Digest) {a : Account} (hbounded : a.Bounded)
    (hrow : ∀ d, rows[key]? = some d → d.Extends a) :
    Backed host rows { j with accounts := j.accounts.insert key a } := by
  have hget : ∀ key' a', (j.accounts.insert key a).get? key' = some a' →
      (key = key' ∧ a = a') ∨ (key ≠ key' ∧ j.accounts.get? key' = some a') := by
    intro key' a' ha'
    rw [TrackedMap.get?_insert] at ha'
    split_ifs at ha' with heq
    · exact .inl ⟨heq, Option.some.inj ha'⟩
    · exact .inr ⟨heq, ha'⟩
  constructor
  · intro key' a' ha'
    rcases hget key' a' ha' with ⟨-, rfl⟩ | ⟨-, ha⟩
    · exact hbounded
    · exact h.bounded key' a' ha
  · intro key' a' d ha' hd
    rcases hget key' a' ha' with ⟨rfl, rfl⟩ | ⟨-, ha⟩
    · exact hrow d hd
    · exact h.extends_row key' a' d ha hd
  · intro key' a' ha' hclean
    have hnot := (TrackedMap.changed_insert j.accounts key key' a).not.mp (by simp [hclean])
    rcases hget key' a' ha' with ⟨rfl, -⟩ | ⟨-, ha⟩
    · exact absurd (.inl rfl) hnot
    · exact h.clean key' a' ha (by simpa using fun hc => hnot (.inr hc))
  · intro key' hmem
    exact h.removed key' (Std.TreeSet.mem_erase.mp hmem).2
  · intro id r hr hfind
    obtain ⟨a', ha'⟩ := h.resident id r hr hfind
    by_cases heq : key = host.accountKey r.input
    · exact ⟨a, by simp [heq]⟩
    · exact ⟨a', by simp [heq, ha']⟩

theorem insertRecord (h : Backed host rows j) {id : ℕ} {r : Record}
    (haccounts : j'.accounts = j.accounts) (hrecords : j'.records = j.records.insert id r)
    (haccount : r.input.isFind = false →
      ∃ a, j.accounts.get? (host.accountKey r.input) = some a) : Backed host rows j' := by
  constructor
  · rw [haccounts]
    exact h.bounded
  · rw [haccounts]
    exact h.extends_row
  · rw [haccounts]
    exact h.clean
  · rw [haccounts]
    exact h.removed
  · intro id' r' hr' hfind
    rw [haccounts]
    rw [hrecords, TrackedMap.get?_insert] at hr'
    split_ifs at hr' with heq
    · cases hr'
      exact haccount hfind
    · exact h.resident id' r' hr' hfind

theorem chargeTime (h : Backed host rows j) (id : ℕ) (key : Digest) (now elapsed : ℕ) :
    Backed host rows (j.chargeTime id key now elapsed) := by
  have htotal : Backed host rows { j with totalSpentMs := saturatingAdd j.totalSpentMs elapsed } :=
    h.congr rfl fun id r hr => ⟨id, r, hr, rfl⟩
  apply (htotal.updateRecord id (by intro r; rfl)).updateAccount
  intro a ha
  exact Account.forward_charge elapsed a (h.bounded _ a ha)

theorem reserveUnit (h : Backed host rows j) (id : ℕ) {key : Digest}
    (hunits : ∀ a, j.accounts.get? key = some a → a.reservedUnits < a.settings.limits.workUnits) :
    Backed host rows (j.reserveUnit id key) := by
  have htotal : Backed host rows
      { j with totalReservedUnits := saturatingAdd j.totalReservedUnits 1 } :=
    h.congr rfl fun id r hr => ⟨id, r, hr, rfl⟩
  apply (htotal.updateRecord id (by intro r; rfl)).updateAccount
  intro a ha
  exact ⟨⟨rfl, rfl, rfl, le_rfl, Nat.le_succ _⟩, ⟨(h.bounded _ a ha).spent, hunits a ha⟩⟩

end Backed

/-- Every account row stays, and continues. -/
def Grows (rows rows' : DigestMap Account) : Prop :=
  ∀ (key : Digest) (d : Account), rows[key]? = some d → ∃ d', rows'[key]? = some d' ∧ d.Extends d'

theorem Grows.refl (rows : DigestMap Account) : Grows rows rows :=
  fun _ d h => ⟨d, h, .refl d⟩

theorem Grows.trans {rows rows' rows'' : DigestMap Account} (h : Grows rows rows')
    (h' : Grows rows' rows'') : Grows rows rows'' := by
  intro key d hd
  obtain ⟨d', hd', hext⟩ := h key d hd
  obtain ⟨d'', hd'', hext'⟩ := h' key d' hd'
  exact ⟨d'', hd'', hext.trans hext'⟩

section Written

variable {rows : Rows} {j : Journal}

theorem getElem?_written (h : Backed host rows.accounts j) (key : Digest) :
    (host.written j rows).accounts[key]? = (j.accounts.get? key).or rows.accounts[key]? := by
  have hnone : j.accounts.removed.toList = [] := by
    apply List.eq_nil_iff_forall_not_mem.mpr
    intro k hk
    exact h.removed k (Std.TreeSet.mem_toList.mp hk)
  show (j.accounts.writeAll rows.accounts)[key]? = _
  rw [TrackedMap.writeAll, hnone, List.foldl_nil, TrackedMap.getElem?_writePuts]
  split_ifs with hchanged
  · rfl
  · cases ha : j.accounts.get? key with
    | none => rfl
    | some a => exact h.clean key a ha (by simpa using hchanged)

theorem Backed.grows_written (h : Backed host rows.accounts j) :
    Grows rows.accounts (host.written j rows).accounts := by
  intro key d hd
  rw [getElem?_written h]
  cases ha : j.accounts.get? key with
  | none => exact ⟨d, hd, .refl d⟩
  | some a => exact ⟨a, rfl, h.extends_row key a d ha hd⟩

theorem Backed.written (h : Backed host rows.accounts j) :
    Backed host (host.written j rows).accounts j := by
  have hrow : ∀ key a, j.accounts.get? key = some a →
      (host.written j rows).accounts[key]? = some a := by
    intro key a ha
    rw [getElem?_written h, ha]
    rfl
  constructor
  · exact h.bounded
  · intro key a d ha hd
    rw [hrow key a ha] at hd
    cases hd
    exact .refl a
  · intro key a ha _
    exact hrow key a ha
  · exact h.removed
  · exact h.resident

theorem Backed.settled (h : Backed host rows.accounts j)
    (hrow : ∀ key a, j.accounts.get? key = some a → rows.accounts[key]? = some a) :
    Backed host rows.accounts (host.settled j) := by
  have hget : ∀ key a, (host.settled j).accounts.get? key = some a → j.accounts.get? key = some a := by
    intro key a ha
    simp only [Host.settled, TrackedMap.get?_evictExcept, TrackedMap.get?_clean] at ha
    split_ifs at ha
    exact ha
  constructor
  · intro key a ha
    exact h.bounded key a (hget key a ha)
  · intro key a d ha hd
    exact h.extends_row key a d (hget key a ha) hd
  · intro key a ha _
    exact hrow key a (hget key a ha)
  · intro key hmem
    exact absurd hmem (by simp [Host.settled, TrackedMap.evictExcept, TrackedMap.clean])
  · intro id r hr hfind
    obtain ⟨a, ha⟩ := h.resident id r hr hfind
    refine ⟨a, ?_⟩
    have hmem : host.accountKey r.input ∈ (j.records.values.filter fun r => !r.input.isFind).map
        fun r => host.accountKey r.input := by
      apply List.mem_map_of_mem
      rw [List.mem_filter]
      exact ⟨TrackedMap.mem_values.mpr ⟨id, hr⟩, by simp [hfind]⟩
    simp only [Host.settled, TrackedMap.get?_evictExcept, TrackedMap.get?_clean]
    rw [if_pos (by simpa using hmem)]
    exact ha

end Written

/-- The reservations answered for an input. -/
def grants (input : Input) (granted : List Grant) : ℕ :=
  granted.countP fun g => decide (g.input = input)

variable (host) in
/-- An answered reservation after the `earlier` ones: its unit was in the committed account, which
had time and units left, and the account goes on. -/
def Grant.Covered (accounts : DigestMap Account) (earlier : List Grant) (g : Grant) : Prop :=
  ∃ durable account, g.durable = some durable ∧
    accounts[host.accountKey g.input]? = some account ∧ durable.Extends account ∧
    grants g.input earlier + 1 ≤ durable.reservedUnits ∧
    durable.reservedUnits ≤ durable.settings.limits.workUnits ∧
    durable.spentMs < durable.settings.limits.horizonMs ∧ g.now < durable.expiresMs

variable (host) in
def Recorded (accounts : DigestMap Account) : List Grant → Prop
  | [] => True
  | g :: earlier => (g.input.isFind = false → g.Covered host accounts earlier) ∧
      Recorded accounts earlier

theorem Recorded.grows {accounts accounts' : DigestMap Account} (hgrows : Grows accounts accounts')
    {granted : List Grant} (h : Recorded host accounts granted) :
    Recorded host accounts' granted := by
  induction granted with
  | nil => trivial
  | cons g earlier ih =>
    refine ⟨fun hfind => ?_, ih h.2⟩
    obtain ⟨durable, account, hdurable, haccount, hextends, hrest⟩ := h.1 hfind
    obtain ⟨account', haccount', hextends'⟩ := hgrows _ _ haccount
    exact ⟨durable, account', hdurable, haccount', hextends.trans hextends', hrest⟩

/-- Every unit granted for an input is in the account row of the input. -/
theorem Recorded.grants_le {accounts : DigestMap Account} {granted : List Grant} {input : Input}
    (h : Recorded host accounts granted) (hfind : input.isFind = false) :
    grants input granted = 0 ∨ ∃ account, accounts[host.accountKey input]? = some account ∧
      grants input granted ≤ account.reservedUnits := by
  induction granted with
  | nil => exact .inl rfl
  | cons g earlier ih =>
    by_cases heq : g.input = input
    · subst heq
      obtain ⟨durable, account, -, haccount, hextends, hunits, -⟩ := h.1 hfind
      right
      refine ⟨account, haccount, le_trans ?_ hextends.reserved⟩
      simpa [grants, List.countP_cons] using hunits
    · have hsame : grants input (g :: earlier) = grants input earlier := by
        simp [grants, heq]
      rw [hsame]
      exact ih h.2

theorem Recorded.covered {accounts : DigestMap Account} {later earlier : List Grant} {g : Grant}
    (h : Recorded host accounts (later ++ g :: earlier)) (hfind : g.input.isFind = false) :
    g.Covered host accounts earlier := by
  induction later with
  | nil => exact h.1 hfind
  | cons g' later ih => exact ih h.2

variable (host) in
/-- What holds of the owner between any two of its operations; `base` are the account rows of an
earlier moment. -/
structure Sound (base : DigestMap Account) (o : Owner) : Prop where
  grows : Grows base o.rows.accounts
  bounded : ∀ (key : Digest) (d : Account), o.rows.accounts[key]? = some d → d.Bounded
  backed : Backed host o.rows.accounts o.journal
  recorded : Recorded host o.rows.accounts o.granted

section Owner

variable {base : DigestMap Account} {o : Owner} {env : Environment} {α : Type}

/-- Waiting clients, processes and the environment do not matter. -/
theorem Sound.frame (h : Sound host base o) {o' : Owner} (hrows : o'.rows = o.rows)
    (hjournal : o'.journal = o.journal) (hgranted : o'.granted = o.granted) :
    Sound host base o' := by
  constructor
  · rw [hrows]
    exact h.grows
  · rw [hrows]
    exact h.bounded
  · rw [hrows, hjournal]
    exact h.backed
  · rw [hrows, hgranted]
    exact h.recorded

theorem Sound.setJournal (h : Sound host base o) {j : Journal}
    (hbacked : Backed host o.rows.accounts j) : Sound host base (o.setJournal j) :=
  ⟨h.grows, h.bounded, hbacked, h.recorded⟩

/-- The rows of a save are in the place of the old ones. -/
theorem Sound.written (h : Sound host base o) :
    Sound host base { o with rows := host.written o.journal o.rows } := by
  have hgrows := h.backed.grows_written
  constructor
  · exact h.grows.trans hgrows
  · intro key d hd
    rw [getElem?_written h.backed] at hd
    cases ha : o.journal.accounts.get? key with
    | none =>
      rw [ha] at hd
      exact h.bounded key d hd
    | some a =>
      rw [ha] at hd
      cases Option.some.inj hd
      exact h.backed.bounded key d ha
  · exact h.backed.written
  · exact h.recorded.grows hgrows

namespace Owner

theorem keeps_frame {f : Owner → Owner} (hrows : ∀ o, (f o).rows = o.rows)
    (hjournal : ∀ o, (f o).journal = o.journal) (hgranted : ∀ o, (f o).granted = o.granted) :
    Keeps (Sound host base) (Effect.modify f : OwnerM Unit) :=
  fun o h => h.frame (hrows o) (hjournal o) (hgranted o)

theorem keeps_ask (answers : ℕ → α) : Keeps (Sound host base) (ask answers) :=
  fun _ h => h.frame rfl rfl rfl

theorem keeps_liftError (x : Except String α) : Keeps (Sound host base) (liftError x) := by
  cases x with
  | ok a => exact keeps_pure _ a
  | error message => exact keeps_throw _ _

theorem keeps_modifyJournal {f : Journal → Journal}
    (hf : ∀ o, Sound host base o → Backed host o.rows.accounts (f o.journal)) :
    Keeps (Sound host base) (modifyJournal f) :=
  fun o h => h.setJournal (hf o h)

theorem keeps_getJournal {I : Owner → Prop} : Keeps I getJournal :=
  (keeps_state _).bind fun _ => keeps_pure _ _

theorem keeps_wallMs : Keeps (Sound host base) (wallMs env) :=
  (keeps_ask _).bind fun _ => keeps_liftError _

theorem keeps_ensureGeneration : Keeps (Sound host base) (ensureGeneration env) :=
  .bind (keeps_state _) fun _ => .bind (keeps_require _ _ _) fun _ =>
    .bind (keeps_ask _) fun _ => keeps_liftError _

theorem keeps_account (key : Digest) : Keeps (Sound host base) (account env host key) :=
  .bind keeps_ensureGeneration fun _ => .bind (keeps_state _) fun _ => keeps_liftError _

theorem keeps_request (input : Input) (binding : Binding) (settings : RoleSettings) :
    Keeps (Sound host base) (request env host input binding settings) := by
  unfold request
  refine .bind keeps_ensureGeneration fun _ => .bind (keeps_state _) fun o => ?_
  split
  · exact keeps_pure _ _
  · exact .bind (keeps_orThrow _ _ _) fun _ => .bind (keeps_require _ _ _) fun _ => keeps_pure _ _

theorem keeps_rememberHold (r : Record) : Keeps (Sound host base) (rememberHold host r) := by
  unfold rememberHold
  refine .bind keeps_getJournal fun j => .bind (keeps_orThrow _ _ _) fun a => .ite ?_ ?_
  · exact keeps_pure _ _
  · apply keeps_modifyJournal
    intro o h
    apply h.backed.updateAccount
    intro a ha
    exact Account.forward_hold _ a (h.backed.bounded _ a ha)

theorem keeps_rememberHolds : Keeps (Sound host base) (rememberHolds host) :=
  .bind keeps_getJournal fun _ => keeps_forEach fun r _ => keeps_rememberHold r

theorem keeps_diskSave : Keeps (Sound host base) (diskSave env host) := by
  intro o h
  have hholds := keeps_rememberHolds o h
  obtain ⟨questions, uncertain, ⟨e, hnot⟩ | ⟨e, hlost⟩ | ⟨-, -, hdone⟩⟩ := diskSave_cases env host o
  · rw [hnot]
    exact hholds.frame rfl rfl rfl
  · rw [hlost]
    exact hholds.written.frame rfl rfl rfl
  · rw [hdone]
    refine (hholds.written.setJournal (hholds.written.backed.settled ?_)).frame rfl rfl rfl
    intro key a ha
    rw [getElem?_written hholds.backed, ha]
    rfl

theorem keeps_retired {ids : List ℕ} :
    ∀ o, Sound host base o → Sound host base (o.setJournal (ids.foldl Journal.retire o.journal)) := by
  intro o h
  apply h.setJournal
  induction ids generalizing o with
  | nil => exact h.backed
  | cons id ids ih => exact ih _ (h.setJournal (h.backed.retire id))

theorem keeps_compact : Keeps (Sound host base) (compact env) :=
  .bind (keeps_ask _) fun _ o h => keeps_retired o h

theorem sound_shrink (future : ℕ) {n : ℕ} (h : Sound host base o) :
    Sound host base (shrink host future n o).2 := by
  induction n generalizing o with
  | zero => exact h
  | succ n ih =>
    unfold Owner.shrink
    split_ifs
    · exact h
    · split
      · exact h
      · exact ih (h.setJournal (h.backed.retire _))

theorem keeps_compactBytes (additional : ℕ) :
    Keeps (Sound host base) (compactBytes env host additional) :=
  .bind keeps_compact fun _ => .bind (keeps_state _) fun _ _ h => sound_shrink _ h

theorem keeps_observe (f : Journal → ℕ) :
    Keeps (Sound host base) (modifyJournal fun j => { j with observedMs := f j }) := by
  apply keeps_modifyJournal
  intro o h
  exact h.backed.congr rfl fun id r hr => ⟨id, r, hr, rfl⟩

theorem keeps_save : Keeps (Sound host base) (save env host) :=
  .bind keeps_wallMs.mapError fun _ => .bind keeps_getJournal fun _ =>
    .bind (keeps_require _ _ _) fun _ => .bind (keeps_observe _) fun _ =>
    .bind keeps_rememberHolds fun _ => .bind (keeps_compactBytes 0) fun _ =>
    .bind (keeps_require _ _ _) fun _ => .bind keeps_getJournal fun _ =>
    .bind (keeps_liftError _).mapError fun _ => keeps_diskSave

theorem keeps_retainUncertainty : Keeps (Sound host base) (retainUncertainty env host) :=
  .bind (keeps_observe _) fun _ => .bind keeps_rememberHolds fun _ =>
    .bind keeps_getJournal fun _ => .bind (keeps_liftError _) fun _ => keeps_diskSave

/-- Rows of other kinds do not touch the accounts. -/
theorem sound_commit (h : Sound host base o) {rows : Rows} (hrows : rows.accounts = o.rows.accounts) :
    Sound host base ((commit env rows).run o).2 := by
  have hsame : Sound host base { o with rows := rows } := by
    constructor
    · rw [hrows]
      exact h.grows
    · rw [hrows]
      exact h.bounded
    · rw [hrows]
      exact h.backed
    · rw [hrows]
      exact h.recorded
  obtain ⟨questions, uncertain, hdone | ⟨e, hnot⟩ | ⟨e, hlost⟩⟩ := commit_cases env rows o
  · rw [hdone]
    exact hsame.frame rfl rfl rfl
  · rw [hnot]
    exact h.frame rfl rfl rfl
  · rw [hlost]
    exact hsame.frame rfl rfl rfl

theorem keeps_diskAcknowledge (id : ℕ) : Keeps (Sound host base) (diskAcknowledge env host id) := by
  unfold diskAcknowledge
  refine .bind keeps_ensureGeneration fun _ o h => ?_
  rw [run_bind, run_state]
  dsimp only
  cases o.rows.records[id]? with
  | none => exact keeps_require _ _ _ o h
  | some record =>
    rw [run_bind, run_require]
    by_cases hterminal : record.state.terminal = true
    · rw [if_pos hterminal]
      exact sound_commit h rfl
    · rw [if_neg hterminal]
      exact h

theorem keeps_saveProgramGroup (id unit : ℕ) (records : List Program.Command) :
    Keeps (Sound host base) (saveProgramGroup env host id unit records) := by
  unfold saveProgramGroup
  refine .bind (keeps_liftError _) fun _ => .bind keeps_ensureGeneration fun _ =>
    .bind (keeps_state _) fun o => .bind (keeps_orThrow _ _ _) fun r =>
    .bind (keeps_require _ _ _) fun _ => ?_
  split
  · exact keeps_require _ _ _
  · refine .bind (keeps_ask _) fun answer => ?_
    split
    · exact keeps_throw _ _
    · exact keeps_state_bind fun o h => sound_commit h rfl

theorem keeps_updateRecord (id : ℕ) {f : Record → Record} (hf : ∀ r, (f r).input = r.input) :
    Keeps (Sound host base) (updateRecord id f) :=
  keeps_modifyJournal fun _ h => h.backed.updateRecord id hf

theorem keeps_charge (id : ℕ) : Keeps (Sound host base) (charge env host id) := by
  unfold charge
  refine .bind keeps_wallMs fun now => .bind keeps_getJournal fun j =>
    .bind (keeps_require _ _ _) fun _ => .bind (keeps_ask _) fun answer =>
    .bind (keeps_orThrow _ _ _) fun elapsed => .bind (keeps_orThrow _ _ _) fun r => ?_
  exact keeps_modifyJournal fun o h => h.backed.chargeTime id _ now elapsed

theorem keeps_allowanceExpired (id : ℕ) : Keeps (Sound host base) (allowanceExpired env host id) :=
  .bind keeps_getJournal fun _ => .bind (keeps_orThrow _ _ _) fun _ =>
    .bind keeps_wallMs fun _ => keeps_pure _ _

theorem keeps_deliver (id : ℕ) : Keeps (Sound host base) (deliver id) :=
  .bind keeps_getJournal fun _ => .bind (keeps_orThrow _ _ _) fun _ =>
    .ite (keeps_frame (fun _ => rfl) (fun _ => rfl) fun _ => rfl) (keeps_pure _ _)

theorem keeps_abandoned (id : ℕ) : Keeps (Sound host base) (abandoned env id) :=
  .bind (keeps_ask _) fun _ => .bind (keeps_state _) fun _ => keeps_pure _ _

theorem keeps_joinWaiters (r : Record) (reply : Reply) :
    Keeps (Sound host base) (joinWaiters env r reply) :=
  .bind (keeps_ask _) fun _ => .bind (keeps_ask _) fun _ => .bind (keeps_state _) fun _ =>
    .ite (keeps_frame (fun _ => rfl) (fun _ => rfl) fun _ => rfl)
      (.bind (keeps_frame (fun _ => rfl) (fun _ => rfl) fun _ => rfl) fun _ =>
        .ite (keeps_deliver _) (keeps_pure _ _))

section Reads

variable {rows : Rows}

theorem reads_modify {f : Owner → Owner} (hf : ∀ o, (f o).rows = o.rows) :
    Keeps (fun o => o.rows = rows) (Effect.modify f : OwnerM Unit) :=
  fun o h => (hf o).trans h

theorem reads_ask (answers : ℕ → α) : Keeps (fun o => o.rows = rows) (ask answers) := fun _ h => h

theorem reads_liftError (x : Except String α) : Keeps (fun o => o.rows = rows) (liftError x) := by
  cases x with
  | ok a => exact keeps_pure _ a
  | error message => exact keeps_throw _ _

theorem reads_wallMs : Keeps (fun o => o.rows = rows) (wallMs env) :=
  .bind (reads_ask _) fun _ => reads_liftError _

theorem reads_ensureGeneration : Keeps (fun o => o.rows = rows) (ensureGeneration env) :=
  .bind (keeps_state _) fun _ => .bind (keeps_require _ _ _) fun _ =>
    .bind (reads_ask _) fun _ => reads_liftError _

theorem reads_request (input : Input) (binding : Binding) (settings : RoleSettings) :
    Keeps (fun o => o.rows = rows) (request env host input binding settings) := by
  unfold request
  refine .bind reads_ensureGeneration fun _ => .bind (keeps_state _) fun o => ?_
  split
  · exact keeps_pure _ _
  · exact .bind (keeps_orThrow _ _ _) fun _ => .bind (keeps_require _ _ _) fun _ => keeps_pure _ _

theorem reads_compact : Keeps (fun o => o.rows = rows) (compact env) :=
  .bind (reads_ask _) fun _ => reads_modify fun _ => rfl

theorem rows_shrink (future n : ℕ) (o : Owner) : (shrink host future n o).2.rows = o.rows := by
  induction n generalizing o with
  | zero => rfl
  | succ n ih =>
    unfold shrink
    split_ifs
    · rfl
    · split
      · rfl
      · exact ih _

theorem reads_compactBytes (additional : ℕ) :
    Keeps (fun o => o.rows = rows) (compactBytes env host additional) :=
  .bind reads_compact fun _ => .bind (keeps_state _) fun _ _ h => (rows_shrink _ _ _).trans h

end Reads

variable (host) in
/-- An account that continues the row of an input, or a missing account without a row. -/
structure Original (rows : Rows) (input : Input) (original : Option Account) : Prop where
  bounded : ∀ a ∈ original, a.Bounded
  extends_row : ∀ d, rows.accounts[host.accountKey input]? = some d → ∃ a ∈ original, d.Extends a

variable (host base) in
/-- A sound owner that has the account of an input in memory. -/
def Funded (input : Input) (o : Owner) : Prop :=
  Sound host base o ∧ (input.isFind = false →
    ∃ a, o.journal.accounts.get? (host.accountKey input) = some a)

theorem spec_createRecord (input : Input) (binding : Binding) (reply : Reply) (now : ℕ)
    (original : Account) :
    Spec (Funded host base input) (createRecord env host input binding reply now original)
      fun _ => Sound host base := by
  unfold createRecord
  refine .bind keeps_getJournal (fun _ _ => And.left) fun j =>
    .bind (keeps_orThrow _ _ _) (fun _ _ => And.left) fun nextId s hs => ?_
  rw [run_modifyJournal_bind]
  have hinserted : Backed host s.rows.accounts { s.journal with
      nextId := nextId
      records := s.journal.records.insert s.journal.nextId ⟨j.nextId, input, binding, defaultProvider,
        host.configuration original.settings, original.settings, original.createdMs,
        original.expiresMs, now, original.spentMs, original.reservedUnits, 0, .queued, none, false,
        none⟩ } := hs.1.backed.insertRecord rfl rfl hs.2
  refine (Keeps.bind (keeps_frame ?_ ?_ ?_) fun _ => keeps_save) _ (hs.1.setJournal hinserted) <;>
    exact fun _ => rfl

theorem keeps_admitFinding {input : Input} (hfind : input.isFind = true) (cursor : ℕ)
    (binding : Binding) (reply : Reply) (now : ℕ) (new : Account) :
    Keeps (Sound host base) (admitFinding env host input cursor binding reply now new) := by
  unfold admitFinding
  refine .bind keeps_getJournal fun j => .ite (keeps_pure _ _) ?_
  refine .bind (keeps_orThrow _ _ _) fun nextCursor o h => ?_
  rw [run_modifyJournal_bind]
  apply spec_createRecord
  refine ⟨h.setJournal ?_, fun hnot => by simp [hfind] at hnot⟩
  exact h.backed.congr rfl fun id r hr => ⟨id, r, hr, rfl⟩

theorem sound_admitObligation (h : Sound host base o) {input : Input} {original : Option Account}
    (horiginal : Original host o.rows input original) (binding : Binding) (reply : Reply) (now : ℕ)
    {new : Account} (hnew : new.Bounded) :
    Sound host base ((admitObligation env host input binding reply now new original).run o).2 := by
  have hcontinue : ∀ {a : Account}, a.Bounded →
      (∀ d, o.rows.accounts[host.accountKey input]? = some d → d.Extends a) → ∀ a', Sound host base
        ((do
          insertAccount (host.accountKey input) a
          createRecord env host input binding reply now a' : OwnerM Unit).run o).2 := by
    intro a hbounded hrow a'
    apply spec_createRecord
    exact ⟨h.setJournal (h.backed.insertAccount _ hbounded hrow),
      fun _ => ⟨a, by simp [Owner.setJournal]⟩⟩
  cases original with
  | some account =>
    dsimp only [admitObligation]
    split_ifs
    · exact h
    · apply hcontinue (horiginal.bounded account rfl)
      intro d hd
      obtain ⟨a, ha, hextends⟩ := horiginal.extends_row d hd
      cases ha
      exact hextends
  | none =>
    apply hcontinue hnew
    intro d hd
    obtain ⟨a, ha, -⟩ := horiginal.extends_row d hd
    cases ha

theorem spec_admit {rows : Rows} {input : Input} {original : Option Account}
    (horiginal : input.isFind = false → Original host rows input original) (binding : Binding)
    (reply : Reply) (settings : RoleSettings) :
    Spec (fun o => Sound host base o ∧ o.rows = rows)
      (admitNew env host input binding reply settings original) fun _ => Sound host base := by
  unfold admitNew
  refine .bind (keeps_wallMs.and reads_wallMs) (fun _ _ => And.left) fun now =>
    .bind keeps_getJournal (fun _ _ => And.left) fun j =>
    .bind (keeps_require _ _ _) (fun _ _ => And.left) fun _ =>
    .bind (keeps_orThrow _ _ _) (fun _ _ => And.left) fun expires o hs => ?_
  obtain ⟨h, rfl⟩ := hs
  have hnew : Account.Bounded ⟨settings, now, expires, 0, 0, none⟩ :=
    ⟨Nat.two_pow_pos 64, Nat.zero_le _⟩
  cases input with
  | find cursor question => exact keeps_admitFinding rfl cursor binding reply now _ o h
  | solve question => exact sound_admitObligation h (horiginal rfl) binding reply now hnew
  | select question purpose root =>
    exact sound_admitObligation h (horiginal rfl) binding reply now hnew

theorem spec_submitNew {rows : Rows} {input : Input} {original : Option Account}
    (horiginal : input.isFind = false → Original host rows input original) (binding : Binding)
    (reply : Reply) (settings : RoleSettings) :
    Spec (fun o => Sound host base o ∧ o.rows = rows)
      (submitNew env host input binding reply settings original) fun _ => Sound host base := by
  unfold submitNew
  refine .bind ((keeps_ask _).and (reads_ask _)) (fun _ _ => And.left) fun answer => ?_
  split
  · exact fun o h => h.1
  · refine .bind (keeps_compact.and reads_compact) (fun _ _ => And.left) fun _ =>
      .bind ((keeps_compactBytes _).and (reads_compactBytes _)) (fun _ _ => And.left) fun fits =>
      .bind ((keeps_ask _).and (reads_ask _)) (fun _ _ => And.left) fun active =>
      .bind keeps_getJournal (fun _ _ => And.left) fun j => ?_
    dsimp only
    split_ifs
    · exact spec_admit horiginal binding reply settings
    · exact fun o h => h.1

theorem spec_submitArchived {rows : Rows} {input : Input} {original : Option Account}
    (horiginal : input.isFind = false → Original host rows input original) (binding : Binding)
    (reply : Reply) (settings : RoleSettings) :
    Spec (fun o => Sound host base o ∧ o.rows = rows)
      (submitArchived env host input binding reply settings original) fun _ => Sound host base := by
  unfold submitArchived
  refine .bind ((keeps_request _ _ _).and (reads_request _ _ _)) (fun _ _ => And.left) fun found => ?_
  split
  · exact fun o h => keeps_require _ _ _ o h.1
  · exact spec_submitNew horiginal binding reply settings

/-- The account that a submission continues is the one in memory or the row. -/
theorem original_originalAccount (h : Sound host base o) {input : Input} {original : Option Account}
    {o' : Owner} (hrun : (originalAccount env host input).run o = (.ok original, o'))
    (hfind : input.isFind = false) : Original host o'.rows input original := by
  unfold originalAccount getJournal at hrun
  simp only [run_bind, run_state, run_pure, hfind, Bool.false_eq_true, if_false] at hrun
  cases hmemory : o.journal.accounts.get? (host.accountKey input) with
  | some a =>
    rw [hmemory] at hrun
    cases hrun
    constructor
    · intro a' ha'
      cases ha'
      exact h.backed.bounded _ a hmemory
    · intro d hd
      exact ⟨a, rfl, h.backed.extends_row _ a d hmemory hd⟩
  | none =>
    rw [hmemory] at hrun
    simp only [account, run_bind, run_state] at hrun
    obtain ⟨questions, hok | ⟨e, herror⟩⟩ := ensureGeneration_cases env o
    · rw [hok] at hrun
      have hread : ∀ original', host.readAccount o.rows (host.accountKey input) = .ok original' →
          original' = o.rows.accounts[host.accountKey input]? := by
        intro original' hread
        unfold Host.readAccount at hread
        split at hread
        case h_1 hrow =>
          cases hread
          exact hrow.symm
        case h_2 d hrow =>
          obtain ⟨_, -, hpure⟩ := bind_eq_ok.mp hread
          rw [hrow]
          exact (pure_eq_ok.mp hpure).symm
      cases hresult : host.readAccount o.rows (host.accountKey input) with
      | error message =>
        simp only [hresult, liftError, run_throw] at hrun
        cases hrun
      | ok original' =>
        simp only [hresult, liftError] at hrun
        cases hrun
        have hrow := hread original hresult
        constructor
        · intro a ha
          rw [hrow] at ha
          exact h.bounded _ a ha
        · intro d hd
          exact ⟨d, by rw [hrow]; exact hd, .refl d⟩
    · rw [herror] at hrun
      cases hrun

theorem keeps_originalAccount (input : Input) :
    Keeps (Sound host base) (originalAccount env host input) := by
  unfold originalAccount
  refine .bind keeps_getJournal fun j => .ite (keeps_pure _ _) ?_
  split
  · exact keeps_pure _ _
  · exact keeps_account _

theorem keeps_submit (input : Input) (binding : Binding) (reply : Reply) :
    Keeps (Sound host base) (submit env host input binding reply) := by
  unfold submit
  refine .bind (keeps_ask _) fun closed => .ite (keeps_pure _ _) fun o h => ?_
  rw [run_bind]
  have hkept : Sound host base ((originalAccount env host input).run o).2 :=
    keeps_originalAccount input o h
  rcases hrun : (originalAccount env host input).run o with ⟨r, o'⟩
  rw [hrun] at hkept
  cases r with
  | error e => exact hkept
  | ok original =>
    have horiginal := original_originalAccount h hrun
    dsimp only
    rw [run_bind, run_state]
    dsimp only
    split_ifs
    · exact hkept
    · split
      · exact keeps_joinWaiters _ _ o' hkept
      · exact spec_submitArchived horiginal binding reply _ o' ⟨hkept, rfl⟩

theorem keeps_acknowledge (id : ℕ) : Keeps (Sound host base) (acknowledge env host id) := by
  unfold acknowledge
  refine .bind keeps_getJournal fun j => .ite (keeps_pure _ _) ?_
  split
  · exact .bind (keeps_diskAcknowledge id) fun _ => keeps_pure _ _
  · exact .bind (keeps_updateRecord id fun _ => rfl) fun _ => .bind (keeps_require _ _ _) fun _ =>
      .bind (keeps_updateRecord id fun _ => rfl) fun _ => .bind keeps_compact fun _ =>
      .bind keeps_save fun _ => keeps_pure _ _

theorem keeps_discardOne (id : ℕ) : Keeps (Sound host base) (discardOne env id) := by
  unfold discardOne
  refine .bind (keeps_ask _) fun gone => .bind ?_ fun _ => .bind (keeps_state _) fun o => .ite ?_ ?_
  · intro o h
    rw [run_modify]
    split
    · exact h.frame rfl rfl rfl
    · exact h
  · refine .bind (keeps_updateRecord id fun r => ?_) fun _ =>
      .ite (keeps_pure _ _) (keeps_updateRecord id fun _ => rfl)
    split_ifs <;> rfl
  · exact keeps_pure _ _

theorem keeps_discardArchived (input : Input) (binding : Binding) :
    Keeps (Sound host base) (discardArchived env host input binding) := by
  unfold discardArchived
  refine .bind (keeps_state _) fun o => .bind (keeps_request _ _ _) fun found => ?_
  split
  · exact keeps_pure _ _
  · exact .ite (keeps_diskAcknowledge _) (keeps_pure _ _)

theorem keeps_discard (input : Input) (binding : Binding) :
    Keeps (Sound host base) (discard env host input binding) :=
  .bind (keeps_discardArchived input binding) fun _ => .bind keeps_getJournal fun _ =>
    .bind (keeps_forEach fun id _ => keeps_discardOne id) fun _ => .bind keeps_compact fun _ =>
    keeps_save

theorem keeps_withdrawn (id : ℕ) : Keeps (Sound host base) (withdrawn id) :=
  .bind keeps_getJournal fun _ => keeps_pure _ _

theorem keeps_progress (id checkpoint : ℕ) :
    Keeps (Sound host base) (progress env host id checkpoint) :=
  .bind (keeps_charge id) fun _ => .bind keeps_getJournal fun _ => .bind (keeps_orThrow _ _ _) fun _ =>
    .bind (keeps_updateRecord id fun _ => rfl) fun _ => .bind (keeps_require _ _ _) fun _ =>
    .bind (keeps_require _ _ _) fun _ => .bind (keeps_updateRecord id fun _ => rfl) fun _ => keeps_save

theorem keeps_progressEvent (id checkpoint : ℕ) :
    Keeps (Sound host base) (progressEvent env host id checkpoint) :=
  .bind (keeps_withdrawn id) fun _ => .ite (keeps_pure _ _)
    (.bind (keeps_progress id checkpoint) fun _ => keeps_pure _ _)

theorem keeps_programEvent (id unit : ℕ) (records : List Program.Command) (reply : Reply) :
    Keeps (Sound host base) (programEvent id unit records reply) := by
  intro o h
  unfold programEvent
  rw [run_modify]
  split_ifs
  · exact h
  · exact h.frame rfl rfl rfl

theorem keeps_persistProgram (id : ℕ) (pending : PendingProgram) :
    Keeps (Sound host base) (persistProgram env host id pending) := by
  unfold persistProgram
  refine .bind keeps_getJournal fun j => .bind (keeps_orThrow _ _ _) fun r =>
    .bind (keeps_require _ _ _) fun _ => .bind (keeps_ask _) fun answer => ?_
  split
  · exact keeps_throw _ _
  · exact .bind (keeps_charge id) fun _ => .bind keeps_save fun _ => keeps_saveProgramGroup _ _ _

theorem keeps_persistOne (id : ℕ) : Keeps (Sound host base) (persistOne env host id) := by
  unfold persistOne
  refine .bind (keeps_state _) fun o => .bind (keeps_orThrow _ _ _) fun pending =>
    .bind (keeps_frame (fun _ => rfl) (fun _ => rfl) fun _ => rfl) fun _ =>
    .bind (keeps_ask _) fun closed => .ite (keeps_pure _ _) ?_
  refine .bind (keeps_persistProgram id pending).attempt fun result => ?_
  split
  · exact keeps_pure _ _
  · exact .ite (keeps_frame (fun _ => rfl) (fun _ => rfl) fun _ => rfl)
      (.ite (keeps_throw _ _) (keeps_pure _ _))

theorem keeps_persistPrograms : Keeps (Sound host base) (persistPrograms env host) :=
  .bind (keeps_state _) fun _ => keeps_forEach fun id _ => keeps_persistOne id

theorem keeps_finishRunning (id : ℕ) : Keeps (Sound host base) (finishRunning id) :=
  keeps_frame (fun _ => rfl) (fun _ => rfl) fun _ => rfl

theorem keeps_completeInDoubt (id : ℕ) (outcome : Completed) :
    Keeps (Sound host base) (completeInDoubt env host id outcome) :=
  .bind keeps_getJournal fun _ => .bind (keeps_orThrow _ _ _) fun _ =>
    .bind (keeps_updateRecord id fun _ => rfl) fun _ => .bind (keeps_charge id).attempt fun _ =>
    .bind (keeps_finishRunning id) fun _ => .bind keeps_retainUncertainty.attempt fun _ =>
    keeps_throw _ _

theorem input_settleRecord (r : Record) (outcome : Completed) (expired : Bool) :
    (settleRecord host r outcome expired).input = r.input := by
  unfold settleRecord
  cases outcome.result <;> split_ifs <;> rfl

theorem input_acknowledgeAbandoned (gone : Bool) (r : Record) :
    (acknowledgeAbandoned gone r).input = r.input := by
  unfold acknowledgeAbandoned
  split_ifs <;> rfl

theorem keeps_complete (id : ℕ) (outcome : Completed) :
    Keeps (Sound host base) (complete env host id outcome) := by
  unfold complete
  refine .ite (keeps_completeInDoubt id outcome) ?_
  refine .bind (keeps_charge id) fun _ => .bind (keeps_allowanceExpired id) fun expired =>
    .bind keeps_getJournal fun j => .bind (keeps_orThrow _ _ _) fun r =>
    .bind (keeps_abandoned id) fun gone => .bind (keeps_updateRecord id fun r => ?_) fun _ =>
    .bind keeps_save fun _ => .bind (keeps_finishRunning id) fun _ => .bind (keeps_deliver id) fun _ =>
    keeps_require _ _ _
  exact (input_acknowledgeAbandoned _ _).trans (input_settleRecord r outcome expired)

theorem keeps_startJob (id lane : ℕ) : Keeps (Sound host base) (startJob env host id lane) := by
  unfold startJob
  refine .bind (keeps_charge id) fun _ => .bind keeps_wallMs fun now => .bind keeps_getJournal fun j =>
    .bind (keeps_orThrow _ _ _) fun r => .ite ?_ ?_
  · exact .bind (keeps_updateRecord id fun _ => rfl) fun _ => .bind keeps_save fun _ => keeps_deliver id
  · exact .bind (keeps_updateRecord id fun _ => rfl) fun _ => .bind keeps_save fun _ =>
      keeps_frame (fun _ => rfl) (fun _ => rfl) fun _ => rfl

theorem keeps_startJobs (lane : ℕ) (ids : List ℕ) :
    Keeps (Sound host base) (startJobs env host lane ids) := by
  induction ids with
  | nil => exact keeps_pure _ _
  | cons id ids ih =>
    exact .bind (keeps_ask _) fun _ => .ite (.bind (keeps_ask _) fun _ =>
      .bind (keeps_liftError _) fun _ => .bind ((keeps_startJob id lane).onlyIf _) fun _ => ih)
      (keeps_pure _ _)

theorem keeps_schedule : Keeps (Sound host base) (schedule env host) :=
  .bind (keeps_state _) fun _ => keeps_forEach fun lane _ =>
    .bind (keeps_ask _) fun _ => .bind (keeps_ask _) fun _ => .bind (keeps_state _) fun _ =>
    keeps_startJobs lane _

theorem keeps_cancelOrExpire (id : ℕ) (cancelled expired : Bool) :
    Keeps (Sound host base) (cancelOrExpire id cancelled expired) :=
  .bind (keeps_updateRecord id fun _ => rfl) fun _ => .bind (keeps_state _) fun _ =>
    .ite (keeps_pure _ _) (.bind (.onlyIf (keeps_updateRecord id (by intro r; rfl)) _) fun _ =>
      keeps_deliver id)

theorem keeps_reconcileOne (now id : ℕ) : Keeps (Sound host base) (reconcileOne env host now id) :=
  .bind (keeps_state _) fun _ => .bind ((keeps_charge id).onlyIf _) fun _ =>
    .bind (keeps_abandoned id) fun _ => .bind keeps_getJournal fun _ =>
    .bind (keeps_orThrow _ _ _) fun _ => .bind (keeps_updateRecord id fun _ => rfl) fun _ =>
    .ite (.bind (keeps_cancelOrExpire id _ _) fun _ => keeps_pure _ _) (keeps_pure _ _)

theorem keeps_reconcileAll (now : ℕ) (ids : List ℕ) :
    Keeps (Sound host base) (reconcileAll env host now ids) := by
  induction ids with
  | nil => exact keeps_pure _ _
  | cons id ids ih =>
    exact .bind (keeps_reconcileOne now id) fun _ => .bind ih fun _ => keeps_pure _ _

theorem keeps_reconcile : Keeps (Sound host base) (reconcile env host) :=
  .bind keeps_wallMs fun _ => .bind keeps_getJournal fun _ => .bind (keeps_require _ _ _) fun _ =>
    .bind (keeps_reconcileAll _ _) fun _ => .bind (keeps_ask _) fun _ =>
    .ite keeps_save (keeps_pure _ _)

theorem keeps_stopRunning (id : ℕ) : Keeps (Sound host base) (stopRunning env host id) := by
  refine .bind (keeps_charge id).attempt fun _ => keeps_updateRecord id fun r => ?_
  split_ifs <;> rfl

theorem keeps_stopResult (id : ℕ) (output : Output) :
    Keeps (Sound host base) (stopResult env host id output) := by
  unfold stopResult
  refine .bind keeps_getJournal fun j => ?_
  split
  · exact keeps_pure _ _
  · exact .bind (keeps_updateRecord id fun _ => rfl) fun _ =>
      .ite (.bind (keeps_allowanceExpired id).attempt fun _ => keeps_updateRecord id fun _ => rfl)
        (keeps_pure _ _)

theorem keeps_stopTask (id : ℕ) (outcome : Completed) :
    Keeps (Sound host base) (stopTask env host id outcome) := by
  unfold stopTask
  refine .bind (keeps_charge id).attempt fun _ => .ite (keeps_updateRecord id fun _ => rfl) ?_
  split
  · exact keeps_stopResult id _
  · exact keeps_pure _ _

theorem keeps_stopTasks (n : ℕ) : Keeps (Sound host base) (stopTasks env host n) := by
  induction n with
  | zero => exact keeps_pure _ _
  | succ n ih =>
    refine .bind (keeps_state _) fun o => .bind (keeps_ask _) fun pick =>
      .bind (keeps_ask _) fun outcome => ?_
    split
    · exact keeps_pure _ _
    · exact .bind (keeps_frame (fun _ => rfl) (fun _ => rfl) fun _ => rfl) fun _ =>
        .bind (keeps_stopTask _ outcome) fun _ => ih

theorem keeps_stopAll : Keeps (Sound host base) (stopAll env host) := by
  unfold stopAll
  refine .bind (keeps_state _) fun o => .bind (keeps_forEach fun id _ => keeps_stopRunning id) fun _ =>
    .bind keeps_save.attempt fun _ =>
    .bind (keeps_frame (fun _ => rfl) (fun _ => rfl) fun _ => rfl) fun _ =>
    .bind (keeps_stopTasks _) fun _ =>
    .bind (keeps_frame (fun _ => rfl) (fun _ => rfl) fun _ => rfl) fun _ =>
    .bind keeps_save.attempt fun result => ?_
  split
  · exact keeps_pure _ _
  · exact .bind keeps_getJournal fun _ => .ite keeps_retainUncertainty (keeps_pure _ _)

/-- The account in memory is `a` up to a hold, after the `granted` reservations. -/
def Holding (key : Digest) (a : Account) (granted : List Grant) (o : Owner) : Prop :=
  (∃ held, o.journal.accounts.get? key = some { a with held := held }) ∧ o.granted = granted

section Holding

variable {key : Digest} {a : Account} {granted : List Grant}

theorem holds_frame {f : Owner → Owner} (haccounts : ∀ o, (f o).journal.accounts = o.journal.accounts)
    (hgranted : ∀ o, (f o).granted = o.granted) :
    Keeps (Holding key a granted) (Effect.modify f : OwnerM Unit) := by
  rintro o ⟨hmemory, hgrants⟩
  exact ⟨by rw [run_modify, haccounts]; exact hmemory, (hgranted o).trans hgrants⟩

theorem holds_ask (answers : ℕ → α) : Keeps (Holding key a granted) (ask answers) := fun _ h => h

theorem holds_liftError (x : Except String α) : Keeps (Holding key a granted) (liftError x) := by
  cases x with
  | ok a => exact keeps_pure _ a
  | error message => exact keeps_throw _ _

theorem holds_wallMs : Keeps (Holding key a granted) (wallMs env) :=
  .bind (holds_ask _) fun _ => holds_liftError _

theorem holds_rememberHold (r : Record) : Keeps (Holding key a granted) (rememberHold host r) := by
  unfold rememberHold
  refine .bind keeps_getJournal fun j => .bind (keeps_orThrow _ _ _) fun account => .ite (keeps_pure _ _) ?_
  rintro o ⟨⟨held, hmemory⟩, hgrants⟩
  refine ⟨?_, hgrants⟩
  simp only [modifyJournal, run_modify, Owner.setJournal, Journal.updateAccount, TrackedMap.get?_update]
  split_ifs
  · rw [hmemory]
    exact ⟨_, rfl⟩
  · exact ⟨held, hmemory⟩

theorem holds_rememberHolds : Keeps (Holding key a granted) (rememberHolds host) :=
  .bind keeps_getJournal fun _ => keeps_forEach fun r _ => holds_rememberHold r

theorem accounts_retire (ids : List ℕ) (j : Journal) :
    (ids.foldl Journal.retire j).accounts = j.accounts := by
  induction ids generalizing j with
  | nil => rfl
  | cons id ids ih => exact ih _

theorem holds_compact : Keeps (Holding key a granted) (compact env) :=
  .bind (holds_ask _) fun _ => holds_frame (fun _ => accounts_retire _ _) fun _ => rfl

theorem Holding.shrink (future n : ℕ) (h : Holding key a granted o) :
    Holding key a granted (shrink host future n o).2 := by
  induction n generalizing o with
  | zero => exact h
  | succ n ih =>
    unfold Owner.shrink
    split_ifs
    · exact h
    · split
      · exact h
      · exact ih ⟨h.1, h.2⟩

theorem holds_compactBytes (additional : ℕ) :
    Keeps (Holding key a granted) (compactBytes env host additional) :=
  .bind holds_compact fun _ => .bind (keeps_state _) fun _ _ h => h.shrink _ _

variable (host) in
/-- The unit is in the committed account once the outcome is a success. -/
def Committed (base : DigestMap Account) (key : Digest) (a : Account) (granted : List Grant)
    (r : Except Error Unit) (o : Owner) : Prop :=
  Sound host base o ∧ o.granted = granted ∧
    (r = .ok () → ∃ held, o.rows.accounts[key]? = some { a with held := held })

theorem spec_diskSave : Spec (fun o => Sound host base o ∧ Holding key a granted o)
    (diskSave env host) (Committed host base key a granted) := by
  rintro o ⟨h, hholding⟩
  have hkept : Sound host base ((diskSave env host).run o).2 := keeps_diskSave o h
  have hsound := keeps_rememberHolds o h
  have hafter : Holding key a granted ((rememberHolds host).run o).2 := holds_rememberHolds o hholding
  obtain ⟨⟨held, hmemory⟩, hgrants⟩ := hafter
  obtain ⟨questions, uncertain, ⟨e, hnot⟩ | ⟨e, hlost⟩ | ⟨-, -, hdone⟩⟩ := diskSave_cases env host o
  · rw [hnot] at hkept ⊢
    exact ⟨hkept, hgrants, fun hok => by cases hok⟩
  · rw [hlost] at hkept ⊢
    exact ⟨hkept, hgrants, fun hok => by cases hok⟩
  · rw [hdone] at hkept ⊢
    refine ⟨hkept, hgrants, fun _ => ⟨held, ?_⟩⟩
    rw [getElem?_written hsound.backed, hmemory]
    rfl

theorem spec_save : Spec (fun o => Sound host base o ∧ Holding key a granted o)
    (save env host) (Committed host base key a granted) := by
  have herror : ∀ (e : Error) (o : Owner), Sound host base o ∧ Holding key a granted o →
      Committed host base key a granted (.error e) o :=
    fun e o h => ⟨h.1, h.2.2, fun hok => by cases hok⟩
  exact .bind (keeps_wallMs.mapError.and holds_wallMs.mapError) herror fun _ =>
    .bind keeps_getJournal herror fun _ => .bind (keeps_require _ _ _) herror fun _ =>
    .bind ((keeps_observe _).and (holds_frame (fun _ => rfl) fun _ => rfl)) herror fun _ =>
    .bind (keeps_rememberHolds.and holds_rememberHolds) herror fun _ =>
    .bind ((keeps_compactBytes 0).and (holds_compactBytes 0)) herror fun _ =>
    .bind (keeps_require _ _ _) herror fun _ => .bind keeps_getJournal herror fun _ =>
    .bind ((keeps_liftError _).mapError.and (holds_liftError _).mapError) herror fun _ =>
    spec_diskSave

end Holding

/-- The units granted so far are in the account in memory. -/
theorem grants_le_memory (h : Sound host base o) {input : Input} {a : Account}
    (hfind : input.isFind = false)
    (ha : o.journal.accounts.get? (host.accountKey input) = some a) :
    grants input o.granted ≤ a.reservedUnits := by
  rcases h.recorded.grants_le hfind with hzero | ⟨d, hd, hunits⟩
  · rw [hzero]
    exact Nat.zero_le _
  · exact hunits.trans (h.backed.extends_row _ a d ha hd).reserved

variable (host) in
/-- The committed account that covers one more reservation for an input. -/
def Reserved (input : Input) (now : ℕ) (o : Owner) : Prop :=
  ∃ a, o.rows.accounts[host.accountKey input]? = some a ∧
    grants input o.granted + 1 ≤ a.reservedUnits ∧
    a.reservedUnits ≤ a.settings.limits.workUnits ∧
    a.spentMs < a.settings.limits.horizonMs ∧ now < a.expiresMs

theorem sound_reserveUnit (h : Sound host base o) (id : ℕ) {r : Record} {now : ℕ}
    (hcan : (r.allowance (host.original o.journal r) now).canReserve = true) :
    Sound host base (o.setJournal (o.journal.reserveUnit id (host.accountKey r.input))) := by
  apply h.setJournal
  apply h.backed.reserveUnit
  intro a ha
  rw [Host.original, ha] at hcan
  exact (Record.canReserve_account hcan).2.2

/-- A reservation that is granted was saved with its unit. -/
theorem save_reserveUnit (h : Sound host base o) {id : ℕ} {r : Record} {now : ℕ}
    (hr : o.journal.records.get? id = some r)
    (hcan : (r.allowance (host.original o.journal r) now).canReserve = true)
    (hfind : r.input.isFind = false) {o' : Owner}
    (hsave : (save env host).run (o.setJournal
      (o.journal.reserveUnit id (host.accountKey r.input))) = (.ok (), o')) :
    Reserved host r.input now o' := by
  obtain ⟨a, ha⟩ := h.backed.resident id r hr hfind
  have hsound := sound_reserveUnit h id hcan
  rw [Host.original, ha] at hcan
  obtain ⟨hnow, hspent, hunits⟩ := Record.canReserve_account hcan
  have hholding : Holding (host.accountKey r.input) { a with reservedUnits := a.reservedUnits + 1 }
      o.granted (o.setJournal (o.journal.reserveUnit id (host.accountKey r.input))) := by
    refine ⟨⟨a.held, ?_⟩, rfl⟩
    simp only [Owner.setJournal, Journal.reserveUnit, Journal.updateAccount, Journal.updateRecord,
      TrackedMap.get?_update, if_true, ha]
    rfl
  have hcommitted : Committed host base _ _ _ ((save env host).run _).1 ((save env host).run _).2 :=
    spec_save _ ⟨hsound, hholding⟩
  rw [hsave] at hcommitted
  obtain ⟨-, hgranted, hrow⟩ := hcommitted
  obtain ⟨held, hrow⟩ := hrow rfl
  refine ⟨_, hrow, ?_, hunits, hspent, hnow⟩
  rw [hgranted]
  exact Nat.succ_le_succ (grants_le_memory h hfind ha)

variable (host base) in
/-- What is known when a reservation is answered. -/
def Answered (result : Except Error Reservation) (o : Owner) : Prop :=
  Sound host base o ∧ ∀ input now, result = .ok (.granted input now) → input.isFind = false →
    Reserved host input now o

theorem spec_reserve (id next : ℕ) :
    Spec (Sound host base) (reserve env host id next) (Answered host base) := by
  unfold reserve
  have herror : ∀ (e : Error) (o : Owner), Sound host base o → Answered host base (.error e) o :=
    fun e o h => ⟨h, fun _ _ hok => by cases hok⟩
  refine .bind (keeps_charge id) herror fun _ => .bind keeps_wallMs herror fun now =>
    .bind (keeps_updateRecord id fun _ => rfl) herror fun _ o h => ?_
  rw [run_getJournal_bind, run_bind]
  cases hr : o.journal.records.get? id with
  | none => exact herror _ o h
  | some r =>
    dsimp only [orThrow, Effect.pure]
    rw [run_bind, run_require]
    by_cases hlifecycle : r.state = .running ∧ next = r.checkpoint + 1
    · rw [if_pos hlifecycle]
      dsimp only
      split_ifs with hcan
      · rw [run_modifyJournal_bind, run_bind]
        have hsound : Sound host base ((save env host).run (o.setJournal
            (o.journal.reserveUnit id (host.accountKey r.input)))).2 :=
          keeps_save _ (sound_reserveUnit h id hcan)
        rcases hsave : (save env host).run (o.setJournal
          (o.journal.reserveUnit id (host.accountKey r.input))) with ⟨result, o'⟩
        rw [hsave] at hsound
        cases result with
        | error e => exact herror e o' hsound
        | ok _ =>
          refine ⟨hsound, fun input now' hgranted hfind => ?_⟩
          cases hgranted
          exact save_reserveUnit h hr hcan hfind hsave
      · have hexhausted : Spec (Sound host base) (do
            updateRecord id fun r => { r with state := .expired, result := none }
            save env host
            return .exhausted : OwnerM Reservation) (Answered host base) :=
          .bind (keeps_updateRecord id fun _ => rfl) herror fun _ => .bind keeps_save herror
            fun _ o h => ⟨h, fun _ _ hok => by cases hok⟩
        exact hexhausted o h
    · rw [if_neg hlifecycle]
      exact herror _ o h

theorem sound_recordGrant (h : Sound host base o) {input : Input} {now : ℕ}
    (hreserved : input.isFind = false → Reserved host input now o) :
    Sound host base ((recordGrant host input now).run o).2 := by
  refine ⟨h.grows, h.bounded, h.backed, fun hfind => ?_, h.recorded⟩
  obtain ⟨a, ha, hunits, hrest⟩ := hreserved hfind
  exact ⟨a, a, ha, ha, .refl a, hunits, hrest⟩

theorem keeps_reserveEvent (id next : ℕ) :
    Keeps (Sound host base) (reserveEvent env host id next) := by
  unfold reserveEvent
  refine .bind (keeps_withdrawn id) fun gone => .ite (keeps_pure _ _) fun o h => ?_
  have hspec : Answered host base ((reserve env host id next).run o).1
      ((reserve env host id next).run o).2 := spec_reserve id next o h
  rw [run_bind]
  rcases hrun : (reserve env host id next).run o with ⟨result, o'⟩
  rw [hrun] at hspec
  cases result with
  | error e => exact hspec.1
  | ok reservation =>
    cases reservation with
    | granted input now => exact sound_recordGrant hspec.1 (hspec.2 input now rfl)
    | exhausted => exact hspec.1

theorem keeps_completedEvent (pick : ℕ) (outcome : Completed) :
    Keeps (Sound host base) (completedEvent env host pick outcome) := by
  unfold completedEvent
  refine .bind (keeps_state _) fun o => ?_
  split
  · exact keeps_pure _ _
  · exact .bind (keeps_frame (fun _ => rfl) (fun _ => rfl) fun _ => rfl) fun _ =>
      keeps_complete _ outcome

theorem keeps_handle (event : Event) : Keeps (Sound host base) (handle env host event) := by
  cases event with
  | submit input binding reply =>
    exact .bind (keeps_submit input binding reply) fun _ => keeps_pure _ _
  | recover after before =>
    exact .bind (.bind keeps_ensureGeneration fun _ => .bind (keeps_state _) fun _ =>
      keeps_liftError _) fun _ => keeps_pure _ _
  | acknowledge id => exact keeps_acknowledge id
  | discard input binding => exact .bind (keeps_discard input binding) fun _ => keeps_pure _ _
  | program id unit records reply =>
    exact .bind (keeps_programEvent id unit records reply) fun _ => keeps_pure _ _
  | reserve id next => exact keeps_reserveEvent id next
  | progress id checkpoint => exact keeps_progressEvent id checkpoint
  | completed pick outcome => exact .bind (keeps_completedEvent pick outcome) fun _ => keeps_pure _ _
  | tick => exact .bind keeps_reconcile fun _ => keeps_pure _ _

theorem keeps_iteration (event : Event) : Keeps (Sound host base) (iteration env host event) :=
  .bind (keeps_handle event) fun _ =>
    .ite (.bind keeps_persistPrograms fun _ => keeps_schedule) (keeps_pure _ _)

end Owner

end Owner

section Open

variable {rows : Rows} {j : Journal}

/-- Accounts in memory that are exactly their rows. -/
structure Loaded (rows : Rows) (j : Journal) : Prop where
  row : ∀ (key : Digest) (a : Account), j.accounts.get? key = some a → rows.accounts[key]? = some a
  removed : ∀ key, key ∉ j.accounts.removed

theorem loaded_fromHeader (rows : Rows) : Loaded rows (.fromHeader rows.header) := by
  constructor
  · intro key a ha
    simp [Journal.fromHeader, TrackedMap.empty, TrackedMap.get?] at ha
  · intro key hmem
    simp [Journal.fromHeader, TrackedMap.empty] at hmem

theorem accounts_scanResident {s s' : Scan} {r : Record} (h : host.scanResident s r = .ok s') :
    s'.journal.accounts = s.journal.accounts := by
  unfold Host.scanResident at h
  by_cases hterminal : r.state.terminal = true
  · simp only [if_pos hterminal] at h
    cases h
    rfl
  · simp only [if_neg hterminal, bind_eq_ok, pure_eq_ok] at h
    obtain ⟨_, -, rfl⟩ := h
    rfl

theorem accounts_scanRecord {s s' : Scan} {e : ℕ × Record} (h : host.scanRecord rows s e = .ok s') :
    s'.journal.accounts = s.journal.accounts := by
  simp only [Host.scanRecord, bind_eq_ok] at h
  obtain ⟨_, -, _, -, _, -, _, -, h⟩ := h
  by_cases hresident : e.2.id ∈ rows.header.residentRecords
  · rw [if_pos hresident] at h
    exact (accounts_scanResident h).trans rfl
  · rw [if_neg hresident] at h
    cases h
    rfl

theorem accounts_retainTerminal {s s' : Journal × ℕ} {e : ℕ × ℕ}
    (h : host.retainTerminal rows s e = .ok s') : s'.1.accounts = s.1.accounts := by
  unfold Host.retainTerminal at h
  split_ifs at h
  all_goals
    obtain ⟨_, -, h⟩ := bind_eq_ok.mp h
    cases h
    rfl

theorem Loaded.scanAccount {needed : List Digest} {j' : Journal} {e : Digest × Account}
    (h : Loaded rows j) (he : e ∈ rows.accounts.toList)
    (hscan : host.scanAccount rows needed j e = .ok j') : Loaded rows j' := by
  simp only [Host.scanAccount, bind_eq_ok, pure_eq_ok] at hscan
  obtain ⟨_, -, _, -, _, -, rfl⟩ := hscan
  split_ifs
  · constructor
    · intro key a ha
      rw [TrackedMap.get?_insert] at ha
      split_ifs at ha with heq
      · cases ha
        rw [← heq]
        exact Std.TreeMap.mem_toList_iff_getElem?_eq_some.mp he
      · exact h.row key a ha
    · intro key hmem
      exact h.removed key (Std.TreeSet.mem_erase.mp hmem).2
  · exact h

/-- The accounts of a loaded journal are their rows. -/
theorem loaded_load (h : host.load rows = .ok j) : Loaded rows j := by
  simp only [Host.load, bind_eq_ok, pure_eq_ok] at h
  obtain ⟨_, -, _, -, s, hscan, _, -, _, -, _, -, retained, hretained, j', hj', _, -, rfl⟩ := h
  have hrecords : s.journal.accounts = (Journal.fromHeader rows.header).accounts :=
    foldlM_invariant (I := fun s : Scan => s.journal.accounts = _)
      (fun s e s' _ hs he => (accounts_scanRecord he).trans hs) rfl hscan
  have hterminal : retained.1.accounts = s.journal.accounts :=
    foldlM_invariant (I := fun s' : Journal × ℕ => s'.1.accounts = s.journal.accounts)
      (fun s e s' _ hs he => (accounts_retainTerminal he).trans hs) rfl hretained
  have hstart : Loaded rows retained.1 := by
    constructor
    · rw [hterminal, hrecords]
      exact (loaded_fromHeader rows).row
    · rw [hterminal, hrecords]
      exact (loaded_fromHeader rows).removed
  exact foldlM_invariant (fun j e j' he hj hscan => hj.scanAccount he hscan) hstart hj'

/-- A validated journal has the account of every resident obligation. -/
theorem account_of_validate (h : host.validate j = .ok ()) {id : ℕ} {r : Record}
    (hr : j.records.get? id = some r) (hfind : r.input.isFind = false) :
    ∃ a, j.accounts.get? (host.accountKey r.input) = some a := by
  simp only [Host.validate, Host.validateChanges, Bool.true_or, if_true, bind_eq_ok] at h
  obtain ⟨_, -, _, -, _, -, _, hrecords, -⟩ := h
  have hrecord := forM_eq_ok.mp hrecords (id, r) (Std.TreeMap.mem_toList_iff_getElem?_eq_some.mpr hr)
  simp only [Host.validateRecord, bind_eq_ok] at hrecord
  obtain ⟨_, -, _, -, _, -, _, -, _, -, _, -, _, -, _, -, _, hobligation, -⟩ := hrecord
  unfold validateObligation at hobligation
  rw [if_neg (by simp [hfind])] at hobligation
  split at hobligation
  · cases hobligation
  case h_2 a ha => exact ⟨a, ha⟩

theorem Backed.recover (h : Backed host rows.accounts j) {now id : ℕ} {j' : Journal}
    (hrecover : host.recover now j id = .ok j') : Backed host rows.accounts j' := by
  unfold Host.recover at hrecover
  split at hrecover
  · cases hrecover
    exact h
  case h_2 r hr =>
    split_ifs at hrecover
    · obtain ⟨_, -, hrecover⟩ := bind_eq_ok.mp hrecover
      cases hrecover
      have htotal : Backed host rows.accounts
          { j with totalSpentMs := saturatingAdd j.totalSpentMs (now - r.accountedMs) } :=
        h.congr rfl fun id r hr => ⟨id, r, hr, rfl⟩
      apply Backed.updateRecord
      · apply htotal.updateAccount
        intro a ha
        exact Account.forward_charge _ a (h.bounded _ a ha)
      · intro r
        rfl
    · cases hrecover
      exact h

theorem backed_reopened (hrows : ∀ (key : Digest) (d : Account), rows.accounts[key]? = some d → d.Bounded)
    {now : ℕ} (h : host.reopened rows now = .ok j) : Backed host rows.accounts j := by
  simp only [Host.reopened, bind_eq_ok, pure_eq_ok] at h
  obtain ⟨loaded, hload, _, hvalid, _, -, recovered, hrecover, rfl⟩ := h
  have hloaded := loaded_load hload
  have hstart : Backed host rows.accounts loaded := by
    constructor
    · intro key a ha
      exact hrows key a (hloaded.row key a ha)
    · intro key a d ha hd
      rw [hloaded.row key a ha] at hd
      cases hd
      exact .refl a
    · intro key a ha _
      exact hloaded.row key a ha
    · exact hloaded.removed
    · intro id r hr hfind
      exact account_of_validate hvalid hr hfind
  have hrecovered : Backed host rows.accounts recovered :=
    foldlM_invariant (fun j id j' _ hj hid => hj.recover hid) hstart hrecover
  exact hrecovered.congr rfl fun id r hr => ⟨id, r, hr, rfl⟩

namespace Owner

variable {base : DigestMap Account} {env : Environment}

theorem keeps_writeMarker : Keeps (Sound host base) (writeMarker env) :=
  .bind (keeps_state _) fun _ => .ite (keeps_pure _ _) (.bind (keeps_ask _) fun _ =>
    .bind (keeps_require _ _ _) fun _ => keeps_frame (fun _ => rfl) (fun _ => rfl) fun _ => rfl)

theorem keeps_saveOpened : Keeps (Sound host base) (saveOpened env host) :=
  .bind keeps_rememberHolds fun _ => .bind keeps_diskSave fun _ => .bind keeps_writeMarker fun _ =>
    keeps_frame (fun _ => rfl) (fun _ => rfl) fun _ => rfl

/-- Opening saves a journal whose accounts continue the rows. -/
theorem keeps_openDisk : Keeps (Sound host base) (openDisk env host) := by
  unfold openDisk
  refine .bind keeps_ensureGeneration fun _ => .bind keeps_wallMs fun now =>
    keeps_state_bind fun o h => ?_
  rw [run_bind]
  cases hopen : host.reopened o.rows now with
  | error message => exact h
  | ok j =>
    dsimp only [liftError, Effect.pure]
    rw [run_modifyJournal_bind]
    exact keeps_saveOpened _ (h.setJournal (backed_reopened h.bounded hopen))

end Owner

end Open

def Machine.accounts (m : Machine) : DigestMap Account := (m.rows.map Rows.accounts).getD ∅

variable (host) in
/-- What holds of a node after any step; `base` are the account rows of an earlier moment. -/
structure Machine.Sound (base : DigestMap Account) (m : Machine) : Prop where
  grows : Grows base m.accounts
  bounded : ∀ (key : Digest) (d : Account), m.accounts[key]? = some d → d.Bounded
  recorded : Recorded host m.accounts m.granted

variable (host) in
def Node.Sound (base : DigestMap Account) : Node → Prop
  | .stopped m => m.Sound host base
  | .running o => Jobs.Sound host base o

section Run

variable {base : DigestMap Account} {env : Environment}

theorem Sound.machine {o : Owner} (h : Sound host base o) : o.machine.Sound host base :=
  ⟨h.grows, h.bounded, h.recorded⟩

theorem Node.Sound.machine {node : Node} (h : node.Sound host base) :
    node.machine.Sound host base := by
  cases node with
  | stopped m => exact h
  | running o => exact Jobs.Sound.machine h

/-- Fresh rows have no accounts. -/
theorem Machine.accounts_boot (m : Machine) (settings : Settings) :
    (m.boot settings).rows.accounts = m.accounts := by
  unfold Machine.boot Machine.accounts
  cases m.rows with
  | none => rfl
  | some rows => rfl

/-- The rows of a booted owner are those of the machine. -/
theorem Machine.Sound.boot {m : Machine} (h : m.Sound host base) (settings : Settings) :
    Jobs.Sound host base (m.boot settings) := by
  have hrows := m.accounts_boot settings
  constructor
  · rw [hrows]
    exact h.grows
  · rw [hrows]
    exact h.bounded
  · constructor
    · intro key a ha
      simp [Machine.boot, Journal.fresh, TrackedMap.empty, TrackedMap.get?] at ha
    · intro key a d ha
      simp [Machine.boot, Journal.fresh, TrackedMap.empty, TrackedMap.get?] at ha
    · intro key a ha
      simp [Machine.boot, Journal.fresh, TrackedMap.empty, TrackedMap.get?] at ha
    · intro key hmem
      simp [Machine.boot, Journal.fresh, TrackedMap.empty] at hmem
    · intro id r hr
      simp [Machine.boot, Journal.fresh, TrackedMap.empty, TrackedMap.get?] at hr
  · rw [hrows]
    exact h.recorded

theorem Machine.Sound.open {m : Machine} (h : m.Sound host base) (settings : Settings) :
    (m.open env host settings).Sound host base := by
  have hafter : Jobs.Sound host base ((Owner.openDisk env host).run (m.boot settings)).2 :=
    Owner.keeps_openDisk _ (h.boot settings)
  unfold Machine.open
  rcases hrun : (Owner.openDisk env host).run (m.boot settings) with ⟨result, o⟩
  rw [hrun] at hafter
  cases result with
  | ok _ => exact hafter
  | error e => exact Jobs.Sound.machine hafter

theorem Machine.Sound.asked {m : Machine} (h : m.Sound host base) (questions : ℕ) :
    Machine.Sound host base { m with questions := questions } :=
  ⟨h.grows, h.bounded, h.recorded⟩

theorem Machine.Sound.created {m : Machine} (h : m.Sound host base) (hnone : m.rows = none)
    (j : Journal) : Machine.Sound host base { m with rows := some (.fresh j) } := by
  have haccounts : Machine.accounts { m with rows := some (.fresh j) } = m.accounts := by
    unfold Machine.accounts
    rw [hnone]
    rfl
  exact ⟨by rw [haccounts]; exact h.grows, by rw [haccounts]; exact h.bounded,
    by rw [haccounts]; exact h.recorded⟩

theorem Machine.Sound.create {m : Machine} (h : m.Sound host base) (hnone : m.rows = none)
    (settings : Settings) (cursor : ℕ) : (m.create env host settings cursor).Sound host base := by
  have hcreated := fun j => (h.asked (m.questions + 2)).created hnone j
  unfold Machine.create
  dsimp only
  split_ifs
  · exact h
  · split
    · exact h.asked _
    · split
      · exact Machine.Sound.open (hcreated _) settings
      · exact hcreated _
      · exact h.asked _

theorem Machine.Sound.start {m : Machine} (h : m.Sound host base) (settings : Settings)
    (cursor : ℕ) : (m.start env host settings cursor).Sound host base := by
  unfold Machine.start
  dsimp only
  split
  · exact h.asked _
  · split
    · exact Machine.Sound.open (h.asked _) settings
    · next hnone =>
      apply Machine.Sound.create (h.asked _)
      exact hnone

theorem Node.Sound.step {node : Node} (h : node.Sound host base) (s : Step) :
    (step env host node s).Sound host base := by
  cases node with
  | stopped m =>
    cases s with
    | start settings cursor => exact Machine.Sound.start h settings cursor
    | event event => exact h
    | halt => exact h
    | crash => exact h
  | running o =>
    have hstop : ∀ {o : Owner}, Jobs.Sound host base o → (o.stop env host).Sound host base :=
      fun h => Jobs.Sound.machine (Owner.keeps_stopAll _ h)
    cases s with
    | start settings cursor => exact h
    | event event =>
      have hafter : Jobs.Sound host base ((Owner.iteration env host event).run o).2 :=
        Owner.keeps_iteration event o h
      dsimp only [Jobs.step]
      rcases hrun : (Owner.iteration env host event).run o with ⟨result, o'⟩
      rw [hrun] at hafter
      cases result with
      | ok _ => exact hafter
      | error e => exact hstop hafter
    | halt => exact hstop h
    | crash => exact Jobs.Sound.machine h

theorem Node.Sound.steps {node : Node} (h : node.Sound host base) (steps : List Step) :
    (steps.foldl (Jobs.step env host) node).Sound host base := by
  induction steps generalizing node with
  | nil => exact h
  | cons s steps ih => exact ih (h.step s)

/-- A later moment of a run is sound for the account rows of an earlier one. -/
theorem sound_run (env : Environment) (host : Host) (earlier later : List Step) :
    (run env host (earlier ++ later)).Sound host (run env host earlier).machine.accounts := by
  have hstart : (Node.stopped ⟨0, none, false, []⟩).Sound host ∅ := by
    refine ⟨.refl _, ?_, trivial⟩
    intro key d hd
    simp [Machine.accounts] at hd
  have hearlier : (run env host earlier).Sound host ∅ := Node.Sound.steps hstart earlier
  have hrebased : (run env host earlier).Sound host (run env host earlier).machine.accounts := by
    have hmachine := hearlier.machine
    cases hnode : run env host earlier with
    | stopped m =>
      rw [hnode] at hmachine
      exact ⟨.refl _, hmachine.bounded, hmachine.recorded⟩
    | running o =>
      rw [hnode] at hearlier
      exact ⟨.refl _, hearlier.bounded, hearlier.backed, hearlier.recorded⟩
  unfold run
  rw [List.foldl_append]
  exact Node.Sound.steps hrebased later

/-- The original allowance of an obligation bounds every run. Between any two moments its account
row stays, with the settings and times it was opened with, and only grows; the units granted for an
input are in the row and within its work units; and each of them was committed before it was
answered, before the account expired and before the charged time reached the horizon. -/
theorem allowance_kept (env : Environment) (host : Host) (earlier later : List Step) :
    let first := (run env host earlier).machine
    let last := (run env host (earlier ++ later)).machine
    (∀ (key : Digest) (a : Account), first.accounts[key]? = some a →
      ∃ a', last.accounts[key]? = some a' ∧ a.Extends a') ∧
    (∀ input : Input, input.isFind = false → grants input last.granted = 0 ∨
      ∃ a, last.accounts[host.accountKey input]? = some a ∧
        grants input last.granted ≤ a.reservedUnits ∧
        a.reservedUnits ≤ a.settings.limits.workUnits) ∧
    ∀ after g before, last.granted = after ++ g :: before → g.input.isFind = false →
      g.Covered host last.accounts before := by
  have hsound := (sound_run env host earlier later).machine
  refine ⟨hsound.grows, fun input hfind => ?_, fun after g before hgranted hfind => ?_⟩
  · rcases hsound.recorded.grants_le hfind with hzero | ⟨a, ha, hunits⟩
    · exact .inl hzero
    · exact .inr ⟨a, ha, hunits, (hsound.bounded _ a ha).reserved⟩
  · have hrecorded := hsound.recorded
    rw [hgranted] at hrecorded
    exact hrecorded.covered hfind

end Run

end Naome.Jobs
