import Naome.ResearchCapacity

/-!
# Room for results

How the steps of the owner keep room for what its jobs may still write. Rows count at full width:
then charges, reservations of units and changes of state cost nothing, and only a new job, a result
longer than its reservation, or a retirable row that changes again takes room.
-/
namespace Naome.Jobs
open Outcome Effect Size

variable (host : Host)

namespace Owner

/-- The rows that may not be retired, at full width. -/
def full (o : Owner) : ℕ := o.held host Record.fullLen Account.fullLen

/-- What counts again when a job that could be retired changes. -/
def touched (o : Owner) (id : ℕ) : ℕ :=
  match o.journal.records.get? id with
  | some r => if o.evictable id r then host.weight Record.fullLen id r else 0
  | none => 0

/-- Room for `extra` bytes and for touching the jobs `T`. Every job has the property `F`. -/
structure Room (extra : ℕ) (F : ℕ → Record → Prop) (T : List ℕ) (o : Owner) : Prop where
  fits : o.full host + (T.map (o.touched host)).sum + extra + 256 ≤ host.activeJobBytes
  named : ∀ id r, o.journal.records.get? id = some r → r.id = id ∧ id < u64Limit
  holds : ∀ id r, o.journal.records.get? id = some r → F id r

def anyJob (_ : ℕ) (_ : Record) : Prop := True

/-- Room for nothing more. -/
abbrev Roomy (o : Owner) : Prop := Room host 0 anyJob [] o

variable {host} {o o' : Owner} {extra : ℕ} {F : ℕ → Record → Prop} {T : List ℕ}

theorem Room.of_le (h : Room host extra F T o) (o' : Owner) {extra' : ℕ} {T' : List ℕ}
    (hfull : o'.full host + (T'.map (o'.touched host)).sum + extra' ≤
      o.full host + (T.map (o.touched host)).sum + extra)
    (hrecords : ∀ id r, o'.journal.records.get? id = some r → o.journal.records.get? id = some r) :
    Room host extra' F T' o' :=
  ⟨by have := h.fits; omega, fun id r hr => h.named id r (hrecords id r hr),
    fun id r hr => h.holds id r (hrecords id r hr)⟩

theorem Room.roomy (h : Room host extra F T o) : Roomy host o :=
  ⟨by have := h.fits; simp; omega, h.named, fun _ _ _ => trivial⟩

theorem Room.mono (h : Room host extra F T o) {G : ℕ → Record → Prop} {extra' : ℕ}
    (hle : extra' ≤ extra) (hF : ∀ id r, o.journal.records.get? id = some r → F id r → G id r) :
    Room host extra' G T o :=
  ⟨by have := h.fits; omega, h.named, fun id r hr => hF id r hr (h.holds id r hr)⟩

/-- The jobs, the accounts and the processes decide about room. -/
theorem Room.frame (h : Room host extra F T o) (hrecords : o'.journal.records = o.journal.records)
    (haccounts : o'.journal.accounts = o.journal.accounts) (hrunning : o'.running = o.running) :
    Room host extra F T o' := by
  have hevictable : o'.evictable = o.evictable := by
    funext id r
    unfold evictable finished
    rw [hrecords, hrunning]
  have htouched : o'.touched host = o.touched host := by
    funext id
    unfold touched
    rw [hrecords, hevictable]
  apply h.of_le o'
  · unfold full held heldRow
    rw [htouched, hrecords, haccounts, hevictable]
  · rw [hrecords]
    exact fun _ _ => id

theorem touched_of_not {id : ℕ} (h : ∀ r, o.journal.records.get? id = some r → o.evictable id r = false) :
    o.touched host id = 0 := by
  unfold touched
  split
  · rename_i r hr
    rw [h r hr]
    rfl
  · rfl

/-- A job that may not be retired can be touched. -/
theorem Room.touch (h : Room host extra F T o) {id : ℕ}
    (hid : ∀ r, o.journal.records.get? id = some r → o.evictable id r = false) :
    Room host extra F (id :: T) o := by
  refine h.of_le o ?_ fun _ _ hr => hr
  rw [List.map_cons, List.sum_cons, touched_of_not hid, Nat.zero_add]

theorem Room.touch_active (h : Room host extra F T o) {id : ℕ}
    (hid : ∀ r, o.journal.records.get? id = some r → r.state.active = true) :
    Room host extra F (id :: T) o :=
  h.touch fun r hr => evictable_of_active (hid r hr)

theorem Room.untouch (h : Room host extra F T o) : Room host extra F [] o :=
  h.of_le o (by simp) fun _ _ => id

theorem sum_map_add_le {ids : List ℕ} {id : ℕ} {f g : ℕ → ℕ} (hmem : id ∈ ids) (hzero : g id = 0)
    (hle : ∀ k, g k ≤ f k) : (ids.map g).sum + f id ≤ (ids.map f).sum := by
  induction ids with
  | nil => cases hmem
  | cons k ks ih =>
    simp only [List.map_cons, List.sum_cons]
    have hk := hle k
    rcases List.mem_cons.mp hmem with rfl | hin
    · have hrest : (ks.map g).sum ≤ (ks.map f).sum := List.sum_le_sum fun a _ => hle a
      omega
    · have := ih hin
      omega

/-- A job that may be touched changes within its bytes and what is left. -/
theorem Room.updateRecord (h : Room host extra F T o) {id : ℕ} (hid : id ∈ T) {f : Record → Record}
    {extra' : ℕ} {G : ℕ → Record → Prop} (hextra : extra' ≤ extra)
    (hf : ∀ r, o.journal.records.get? id = some r → (f r).id = r.id ∧ G id (f r) ∧
      host.weight Record.fullLen id (f r) + extra' ≤ host.weight Record.fullLen id r + extra)
    (hother : ∀ k r, k ≠ id → F k r → G k r) :
    Room host extra' G T (o.setJournal (o.journal.updateRecord id f)) := by
  have hget (k : ℕ) : (o.journal.updateRecord id f).records.get? k =
      if id = k then (o.journal.records.get? k).map f else o.journal.records.get? k :=
    TrackedMap.get?_update ..
  have hchanged (k : ℕ) : (o.journal.updateRecord id f).records.changed k = true ↔
      (id = k ∧ (o.journal.records.get? id).isSome) ∨ o.journal.records.changed k = true :=
    TrackedMap.changed_update ..
  have hself : (o.setJournal (o.journal.updateRecord id f)).touched host id = 0 := by
    apply touched_of_not
    intro r' hr'
    have hsome : (o.journal.records.get? id).isSome := by
      have := hget id
      rw [if_pos rfl] at this
      rw [setJournal, this, Option.map_eq_some_iff] at hr'
      obtain ⟨r, hr, -⟩ := hr'
      rw [hr]
      rfl
    unfold evictable setJournal
    rw [(hchanged id).mpr (.inl ⟨rfl, hsome⟩)]
    simp
  have htouched (k : ℕ) : (o.setJournal (o.journal.updateRecord id f)).touched host k ≤
      o.touched host k := by
    by_cases hk : id = k
    · rw [← hk, hself]
      exact Nat.zero_le _
    · have hsame : (o.journal.updateRecord id f).records.changed k = o.journal.records.changed k := by
        rw [Bool.eq_iff_iff, hchanged]
        simp [hk]
      unfold touched evictable finished setJournal
      rw [hget, if_neg hk, hsame]
  have hsum := sum_map_add_le hid hself htouched
  constructor
  · have hfits := h.fits
    cases hr : o.journal.records.get? id with
    | none =>
      have hunchanged : o.journal.updateRecord id f = o.journal := by
        have hr' : o.journal.records.entries[id]? = none := hr
        unfold Journal.updateRecord TrackedMap.update
        simp only [hr']
      rw [hunchanged]
      show o.full host + (T.map (o.touched host)).sum + extra' + 256 ≤ host.activeJobBytes
      omega
    | some r =>
      have hheld := @held_update host o Record.fullLen Account.fullLen id r f hr
      have hweight := (hf r hr).2.2
      have hrow : heldRow host Record.fullLen o id r + o.touched host id =
          host.weight Record.fullLen id r := by
        unfold heldRow touched
        simp only [hr]
        split_ifs <;> omega
      unfold full at hfits ⊢
      omega
  · intro k r' hr'
    rw [setJournal, hget] at hr'
    split_ifs at hr' with hk
    · obtain ⟨r, hr, rfl⟩ := Option.map_eq_some_iff.mp hr'
      rw [(hf r (hk ▸ hr)).1]
      exact h.named k r hr
    · exact h.named k r' hr'
  · intro k r' hr'
    rw [setJournal, hget] at hr'
    split_ifs at hr' with hk
    · obtain ⟨r, hr, rfl⟩ := Option.map_eq_some_iff.mp hr'
      subst hk
      exact (hf r hr).2.1
    · exact hother k r' (Ne.symm hk) (h.holds k r' hr')

/-- Only the accounts change, and no account gets wider. -/
theorem Room.updateAccount (h : Room host extra F T o) (key : Digest) {f : Account → Account}
    (hf : ∀ a, o.journal.accounts.get? key = some a → (f a).fullLen ≤ a.fullLen) :
    Room host extra F T (o.setJournal (o.journal.updateAccount key f)) := by
  have haccounts : total (o.journal.updateAccount key f).accounts.entries
      (fun _ a => a.fullLen + 64 + 4) ≤ total o.journal.accounts.entries fun _ a => a.fullLen + 64 + 4 := by
    unfold Journal.updateAccount TrackedMap.update
    cases ha : o.journal.accounts.entries[key]? with
    | none => exact le_rfl
    | some a =>
      have hreplaced := total_replace (f := fun _ (a : Account) => a.fullLen + 64 + 4) ha (f a)
      have hle := hf a ha
      dsimp only at hreplaced ⊢
      omega
  refine h.of_le (o.setJournal (o.journal.updateAccount key f)) ?_ fun _ _ h => h
  have htouched : (o.setJournal (o.journal.updateAccount key f)).touched host = o.touched host := rfl
  rw [htouched]
  unfold full held
  have hrows : heldRow host Record.fullLen (o.setJournal (o.journal.updateAccount key f)) =
      heldRow host Record.fullLen o := rfl
  rw [hrows]
  have hrecords : (o.setJournal (o.journal.updateAccount key f)).journal.records =
      o.journal.records := rfl
  rw [hrecords]
  dsimp only [setJournal] at haccounts ⊢
  omega

/-- Numbers, states and flags of a job that change within its full width. -/
theorem weight_le (id : ℕ) {r r' : Record} (hfixed : r'.fixed wide = r.fixed wide)
    (haccounted : wide r'.accountedMs ≤ wide r.accountedMs) (hspent : wide r'.spentMs ≤ wide r.spentMs)
    (hunits : r'.unitWidth ≤ r.unitWidth) {extra extra' : ℕ}
    (hbody : r'.body + host.room r' + extra' ≤ r.body + host.room r + extra) :
    host.weight Record.fullLen id r' + extra' ≤ host.weight Record.fullLen id r + extra := by
  unfold Host.weight Record.fullLen Record.sized
  dsimp only
  omega

theorem weight_mono (id : ℕ) {r r' : Record} (hfixed : r'.fixed wide = r.fixed wide)
    (haccounted : wide r'.accountedMs ≤ wide r.accountedMs) (hspent : wide r'.spentMs ≤ wide r.spentMs)
    (hunits : r'.unitWidth ≤ r.unitWidth) (hbody : r'.body + host.room r' ≤ r.body + host.room r) :
    host.weight Record.fullLen id r' ≤ host.weight Record.fullLen id r := by
  have hle := weight_le id hfixed haccounted hspent hunits (Nat.add_le_add_right hbody 0)
  exact Nat.le_of_add_le_add_right hle

/-- A job that may be touched changes within its bytes. -/
theorem Room.change (h : Room host extra F T o) {id : ℕ} (hid : id ∈ T) {f : Record → Record}
    (hf : ∀ r, o.journal.records.get? id = some r → (f r).id = r.id ∧ F id (f r) ∧
      host.weight Record.fullLen id (f r) ≤ host.weight Record.fullLen id r) :
    Room host extra F T (o.setJournal (o.journal.updateRecord id f)) :=
  h.updateRecord hid le_rfl (fun r hr => ⟨(hf r hr).1, (hf r hr).2.1,
    Nat.add_le_add_right (hf r hr).2.2 extra⟩) fun _ _ _ hk => hk

theorem wide_le_of_lt {m n : ℕ} (h : m < u64Limit) : wide m ≤ wide n := by
  rw [wide_of_lt h]
  exact le_max_left _ _

variable (host) in
/-- Jobs that could be retired have left memory. -/
structure Kept (o o' : Owner) : Prop where
  room : ∀ {extra F T}, Room host extra F T o → Room host extra F T o'
  held : ∀ size accountSize, o'.held host size accountSize = o.held host size accountSize
  accounts : o'.journal.accounts = o.journal.accounts

theorem evictable_retire {id k : ℕ} (hk : k ≠ id) :
    (o.setJournal (o.journal.retire id)).evictable k = o.evictable k := by
  funext r
  unfold evictable finished setJournal Journal.retire TrackedMap.remove
  dsimp only
  split_ifs
  · have hne : (compare id k != Ordering.eq) = true := by simp [Ne.symm hk]
    unfold TrackedMap.changed
    simp [hne]
  · rfl

theorem kept_retire {id : ℕ}
    (hid : ∀ r, o.journal.records.get? id = some r → o.evictable id r = true) :
    Kept host o (o.setJournal (o.journal.retire id)) := by
  have hget (k : ℕ) : (o.journal.retire id).records.get? k =
      if id = k then none else o.journal.records.get? k := TrackedMap.get?_remove ..
  have hheld : ∀ size accountSize, (o.setJournal (o.journal.retire id)).held host size accountSize =
      o.held host size accountSize := by
    intro size accountSize
    cases hr : o.journal.records.get? id with
    | some r => exact held_retire hr (hid r hr)
    | none =>
      have hrecords : (o.journal.retire id).records = o.journal.records := by
        unfold Journal.retire TrackedMap.remove
        dsimp only
        rw [if_neg]
        rw [Std.TreeMap.contains_eq_isSome_getElem?]
        have hr' : o.journal.records.entries[id]? = none := hr
        simp [hr']
      unfold held heldRow evictable finished setJournal
      rw [hrecords]
      rfl
  refine ⟨fun {extra F T} h => ?_, hheld, rfl⟩
  refine h.of_le _ ?_ ?_
  · have htouched : ∀ k, (o.setJournal (o.journal.retire id)).touched host k ≤ o.touched host k := by
      intro k
      by_cases hk : id = k
      · unfold touched setJournal
        rw [hget, if_pos hk]
        exact Nat.zero_le _
      · have hsame := evictable_retire (o := o) (Ne.symm hk)
        unfold touched
        rw [hsame]
        unfold setJournal
        rw [hget, if_neg hk]
    have hsum := List.sum_le_sum (l := T) fun k _ => htouched k
    unfold full
    rw [hheld]
    exact Nat.add_le_add_right (Nat.add_le_add_left hsum _) _
  · intro k r hr
    rw [setJournal, hget] at hr
    split_ifs at hr
    exact hr

theorem Kept.refl (o : Owner) : Kept host o o := ⟨fun h => h, fun _ _ => rfl, rfl⟩

theorem Kept.trans {o'' : Owner} (h : Kept host o o') (h' : Kept host o' o'') :
    Kept host o o'' :=
  ⟨fun hroom => h'.room (h.room hroom), fun size accountSize =>
    (h'.held size accountSize).trans (h.held size accountSize), h'.accounts.trans h.accounts⟩

theorem kept_retires {ids : List ℕ}
    (hids : ∀ id ∈ ids, ∀ r, o.journal.records.get? id = some r → o.evictable id r = true) :
    Kept host o (o.setJournal (ids.foldl Journal.retire o.journal)) := by
  induction ids generalizing o with
  | nil => exact .refl o
  | cons id ids ih =>
    apply (kept_retire (hids id List.mem_cons_self)).trans
    apply ih (o := o.setJournal (o.journal.retire id))
    intro k hk r hr
    have hget : (o.journal.retire id).records.get? k =
      if id = k then none else o.journal.records.get? k := TrackedMap.get?_remove ..
    rw [setJournal, hget] at hr
    split_ifs at hr with hne
    rw [evictable_retire (Ne.symm hne)]
    exact hids k (List.mem_cons_of_mem id hk) r hr

theorem kept_compacted (page : ℕ) : Kept host o (o.compacted page) := by
  apply kept_retires
  intro id hid r hr
  obtain ⟨hterminal, hclean⟩ := List.mem_filter.mp (List.mem_of_mem_take hid)
  obtain ⟨⟨k, r'⟩, hmem, rfl⟩ := List.mem_map.mp hterminal
  obtain ⟨hentry, hfinished⟩ := List.mem_filter.mp hmem
  have hsome : o.journal.records.get? k = some r' := Std.TreeMap.mem_toList_iff_getElem?_eq_some.mp hentry
  rw [hsome] at hr
  cases hr
  unfold evictable
  rw [hfinished, hclean]
  rfl

theorem kept_shrink (future n : ℕ) : Kept host o (shrink host future n o).2 := by
  induction n generalizing o with
  | zero => exact .refl o
  | succ n ih =>
    unfold shrink
    split_ifs
    · exact .refl o
    · split
      · exact .refl o
      · rename_i id hid
        obtain ⟨r, hr, hevictable⟩ := evictable_of_oldest hid
        refine (kept_retire fun r' hr' => ?_).trans ih
        rw [hr] at hr'
        cases hr'
        exact hevictable

/-- After a save every finished job can be retired. -/
theorem Room.settled (h : Room host extra F T o) :
    Room host extra F [] (o.setJournal (host.settled o.journal)) := by
  refine h.of_le _ ?_ fun _ _ hr => hr
  have hrows : total o.journal.records.entries
      (heldRow host Record.fullLen (o.setJournal (host.settled o.journal))) ≤
      total o.journal.records.entries (heldRow host Record.fullLen o) := by
    apply total_le
    intro id r _
    have hclean : (o.setJournal (host.settled o.journal)).evictable id r = o.finished (id, r) := by
      unfold evictable setJournal Host.settled
      dsimp only
      rw [TrackedMap.changed_clean, Bool.not_false, Bool.and_true]
      rfl
    unfold heldRow
    rw [hclean]
    unfold evictable
    cases o.finished (id, r) <;> simp
  have haccounts := total_filter_le (t := o.journal.accounts.entries)
    (f := fun _ a => Account.fullLen a + 64 + 4) fun key _ =>
      decide (key ∈ (o.journal.records.values.filter fun r => !r.input.isFind).map fun r =>
        host.accountKey r.input)
  unfold full held
  simp only [List.map_nil, List.sum_nil]
  unfold setJournal Host.settled TrackedMap.evictExcept TrackedMap.clean at *
  dsimp only at *
  omega

/-- With fewer processes more jobs can be retired. -/
theorem Room.stopped (h : Room host extra F T o) (hjournal : o'.journal = o.journal)
    (hrunning : ∀ id, o'.running.contains id = true → o.running.contains id = true) :
    Room host extra F [] o' := by
  refine h.of_le _ ?_ ?_
  · have hrows : total o.journal.records.entries (heldRow host Record.fullLen o') ≤
        total o.journal.records.entries (heldRow host Record.fullLen o) := by
      apply total_le
      intro id r _
      have hid := hrunning id
      unfold heldRow evictable finished
      rw [hjournal]
      dsimp only
      cases h' : o'.running.contains id
      · cases o.running.contains id <;>
          cases (r.state.terminal || decide (r.state = State.inDoubt)) <;>
          cases o.journal.records.changed id <;> simp
      · rw [hid h']
    unfold full held
    rw [hjournal]
    simp only [List.map_nil, List.sum_nil]
    omega
  · rw [hjournal]
    exact fun _ _ hr => hr

/-- An active job that gets a process could not be retired before either. -/
theorem Room.started (h : Room host extra F [] o) {id : ℕ} (hjournal : o'.journal = o.journal)
    (hid : ∀ r, o.journal.records.get? id = some r → r.state.active = true)
    (hrunning : ∀ k, k ≠ id → o'.running.contains k = o.running.contains k) :
    Room host extra F [] o' := by
  refine h.of_le _ ?_ ?_
  · have hrows : total o.journal.records.entries (heldRow host Record.fullLen o') =
        total o.journal.records.entries (heldRow host Record.fullLen o) := by
      apply total_congr
      intro k r hr
      unfold heldRow
      by_cases hk : k = id
      · subst hk
        rw [evictable_of_active (hid r hr), evictable_of_active (hid r hr)]
      · unfold evictable finished
        rw [hjournal, hrunning k hk]
    unfold full held
    rw [hjournal]
    simp only [List.map_nil, List.sum_nil]
    omega
  · rw [hjournal]
    exact fun _ _ hr => hr

end Owner

end Naome.Jobs
