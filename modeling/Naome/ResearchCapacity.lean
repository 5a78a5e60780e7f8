import Naome.ResearchSizes

/-!
# What the capacity check of a save leaves

A save retires finished jobs until the journal and the reservations fit. It succeeds exactly when
the rows that it may not retire fit.
-/
namespace Naome.Jobs

section Maps

variable {K V : Type} [Ord K] [Std.TransOrd K] [Std.LawfulEqOrd K]

def total (t : Std.TreeMap K V) (f : K → V → ℕ) : ℕ := (t.toList.map fun e => f e.1 e.2).sum

variable {t : Std.TreeMap K V} {f g : K → V → ℕ} {k : K} {v : V}

theorem total_le (h : ∀ k v, t[k]? = some v → f k v ≤ g k v) : total t f ≤ total t g := by
  apply List.sum_le_sum
  intro e he
  exact h _ _ (Std.TreeMap.mem_toList_iff_getElem?_eq_some.mp he)

theorem total_congr (h : ∀ k v, t[k]? = some v → f k v = g k v) : total t f = total t g :=
  le_antisymm (total_le fun k v hkv => (h k v hkv).le) (total_le fun k v hkv => (h k v hkv).ge)

theorem total_insert_of_new (h : t[k]? = none) : total (t.insert k v) f = total t f + f k v := by
  classical
  let _ : BEq K := instBEqOfDecidableEq
  have hperm := Std.TreeMap.toList_insert_perm (t := t) (k := k) (v := v)
  have hfilter : t.toList.filter (fun e => decide ¬(k == e.1) = true) = t.toList := by
    apply List.filter_eq_self.mpr
    intro e he
    have hsome := Std.TreeMap.mem_toList_iff_getElem?_eq_some.mp he
    have hne : k ≠ e.1 := by
      intro heq
      rw [← heq, h] at hsome
      cases hsome
    simpa using hne
  rw [hfilter] at hperm
  unfold total
  rw [(hperm.map _).sum_eq, List.map_cons, List.sum_cons, Nat.add_comm]

theorem total_equiv {t' : Std.TreeMap K V} (h : ∀ k : K, t[k]? = t'[k]?) :
    total t f = total t' f := by
  unfold total
  rw [(Std.TreeMap.Equiv.of_forall_constGet?_eq h).toList_eq]

/-- The entries other than `k`, and `k` itself. -/
theorem total_erase (h : t[k]? = some v) : total (t.erase k) f + f k v = total t f := by
  rw [← total_insert_of_new (t := t.erase k) (by simp)]
  apply total_equiv
  intro a
  rw [Std.TreeMap.getElem?_insert, Std.TreeMap.getElem?_erase]
  by_cases ha : compare k a = .eq
  · rw [if_pos ha]
    cases Std.LawfulEqOrd.eq_of_compare ha
    exact h.symm
  · rw [if_neg ha, if_neg ha]

theorem total_replace (h : t[k]? = some v) (w : V) :
    total (t.insert k w) f + f k v = total t f + f k w := by
  have hback : total (t.insert k w) f = total ((t.erase k).insert k w) f := by
    apply total_equiv
    intro a
    simp only [Std.TreeMap.getElem?_insert, Std.TreeMap.getElem?_erase]
    split_ifs <;> rfl
  rw [hback, total_insert_of_new (by simp), ← total_erase (f := f) h]
  omega

/-- A measure that differs at `k` only. -/
theorem total_erase_of_ne (h : t[k]? = some v) (hother : ∀ a b, a ≠ k → g a b = f a b) :
    total (t.erase k) g + f k v = total t f := by
  rw [← total_erase h]
  congr 1
  apply total_congr
  intro a b hab
  apply hother
  rintro rfl
  simp at hab

theorem total_replace_of_ne (h : t[k]? = some v) (hother : ∀ a b, a ≠ k → g a b = f a b) (w : V) :
    total (t.insert k w) g + f k v = total t f + g k w := by
  have herase := total_erase_of_ne h hother
  have hself := total_erase (f := g) h
  have hreplaced := total_replace (f := g) h w
  omega

omit [Std.TransOrd K] [Std.LawfulEqOrd K] in
theorem total_add : total t f + total t g = total t fun k v => f k v + g k v :=
  (List.sum_map_add ..).symm

omit [Std.TransOrd K] [Std.LawfulEqOrd K] in
theorem total_filter_le (p : K → V → Bool) : total (t.filter p) f ≤ total t f := by
  unfold total
  rw [Std.TreeMap.toList_filter]
  exact (List.filter_sublist.map _).sum_le_sum fun _ _ => Nat.zero_le _

end Maps

open Size

variable (host : Host)

/-- The result bytes reserved for a job. -/
def Host.room (r : Record) : ℕ := if r.state.active then host.outputReservation r.input else 0

/-- The bytes of a job in memory, with what is reserved for its result. -/
@[irreducible] def Host.weight (size : Record → ℕ) (id : ℕ) (r : Record) : ℕ :=
  size r + decimal id + 4 + host.room r

namespace Owner

/-- A finished job whose row is up to date. -/
def evictable (o : Owner) (id : ℕ) (r : Record) : Bool :=
  o.finished (id, r) && !o.journal.records.changed id

def heldRow (size : Record → ℕ) (o : Owner) (id : ℕ) (r : Record) : ℕ :=
  if o.evictable id r then 0 else host.weight size id r

/-- The bytes of the rows that a save may not retire, with the reservations. -/
def held (size : Record → ℕ) (accountSize : Account → ℕ) (o : Owner) : ℕ :=
  total o.journal.records.entries (heldRow host size o) +
    total o.journal.accounts.entries (fun _ a => accountSize a + 64 + 4) + 4096

variable {host} {o : Owner} {size : Record → ℕ} {accountSize : Account → ℕ}

theorem room_of_evictable {id : ℕ} {r : Record} (h : o.evictable id r = true) : host.room r = 0 := by
  unfold evictable finished at h
  unfold Host.room
  rw [if_neg]
  cases hstate : r.state <;> simp [hstate, State.terminal, State.active] at h ⊢

theorem evictable_of_active {id : ℕ} {r : Record} (h : r.state.active = true) :
    o.evictable id r = false := by
  unfold evictable finished
  cases hstate : r.state <;> simp [hstate, State.terminal, State.active] at h ⊢

/-- Wider rows only take more. -/
theorem held_mono {size' : Record → ℕ} {accountSize' : Account → ℕ} (hsize : ∀ r, size r ≤ size' r)
    (haccount : ∀ a, accountSize a ≤ accountSize' a) :
    o.held host size accountSize ≤ o.held host size' accountSize' := by
  unfold held heldRow Host.weight
  gcongr
  · apply total_le
    intro id r _
    have := hsize r
    split_ifs <;> omega
  · apply total_le
    intro key a _
    have := haccount a
    omega

/-- A job in memory that changes counts from then on, whether it could be retired before or not. -/
theorem held_update {id : ℕ} {r : Record} (f : Record → Record)
    (hr : o.journal.records.get? id = some r) :
    (o.setJournal (o.journal.updateRecord id f)).held host size accountSize + heldRow host size o id r =
      o.held host size accountSize + host.weight size id (f r) := by
  have hr' : o.journal.records.entries[id]? = some r := hr
  have hrecords : (o.journal.updateRecord id f).records =
      ⟨o.journal.records.entries.insert id (f r), o.journal.records.dirty.insert id,
        o.journal.records.removed⟩ := by
    unfold Journal.updateRecord TrackedMap.update
    simp only [hr']
  have hself : heldRow host size (o.setJournal (o.journal.updateRecord id f)) id (f r) =
      host.weight size id (f r) := by
    unfold heldRow evictable setJournal TrackedMap.changed
    simp [hrecords]
  have hother : ∀ a b, a ≠ id →
      heldRow host size (o.setJournal (o.journal.updateRecord id f)) a b = heldRow host size o a b := by
    intro a b ha
    unfold heldRow evictable finished setJournal TrackedMap.changed
    simp [hrecords, Ne.symm ha]
  have hreplaced := total_replace_of_ne hr' hother (f r)
  rw [hself] at hreplaced
  have hentries : (o.setJournal (o.journal.updateRecord id f)).journal.records.entries =
      o.journal.records.entries.insert id (f r) := congrArg TrackedMap.entries hrecords
  unfold held
  rw [hentries]
  have haccounts : (o.setJournal (o.journal.updateRecord id f)).journal.accounts =
      o.journal.accounts := rfl
  rw [haccounts]
  omega

theorem entries_retire {id : ℕ} {r : Record} {j : Journal} (hr : j.records.get? id = some r) :
    (j.retire id).records = ⟨j.records.entries.erase id, j.records.dirty.erase id,
      j.records.removed.insert id⟩ := by
  have hr' : j.records.entries[id]? = some r := hr
  unfold Journal.retire TrackedMap.remove
  rw [if_pos]
  rw [Std.TreeMap.contains_eq_isSome_getElem?, hr']
  rfl

/-- What may be retired does not count, so that retiring it changes nothing. -/
theorem held_retire {id : ℕ} {r : Record} (hr : o.journal.records.get? id = some r)
    (hevictable : o.evictable id r = true) :
    (o.setJournal (o.journal.retire id)).held host size accountSize =
      o.held host size accountSize := by
  have hr' : o.journal.records.entries[id]? = some r := hr
  have hrecords := entries_retire hr
  have hother : ∀ a b, a ≠ id →
      heldRow host size (o.setJournal (o.journal.retire id)) a b = heldRow host size o a b := by
    intro a b ha
    unfold heldRow evictable finished setJournal TrackedMap.changed
    simp [hrecords, Ne.symm ha]
  have herased := total_erase_of_ne hr' hother
  have hnone : heldRow host size o id r = 0 := if_pos hevictable
  have hentries : (o.setJournal (o.journal.retire id)).journal.records.entries =
      o.journal.records.entries.erase id := congrArg TrackedMap.entries hrecords
  unfold held
  rw [hentries]
  have haccounts : (o.setJournal (o.journal.retire id)).journal.accounts = o.journal.accounts := rfl
  rw [haccounts]
  omega

/-- The reservations of the active jobs. -/
def reserved (host : Host) (j : Journal) : ℕ :=
  ((j.records.values.filter fun r => r.state.active).map fun r => host.outputReservation r.input).sum

theorem sum_filter_map {α : Type} (xs : List α) (p : α → Bool) (f : α → ℕ) :
    ((xs.filter p).map f).sum = (xs.map fun x => if p x then f x else 0).sum := by
  induction xs with
  | nil => rfl
  | cons x xs ih =>
    rw [List.filter_cons]
    split_ifs with hp <;> simp [ih, hp]

theorem reserved_eq (j : Journal) :
    reserved host j = total j.records.entries fun _ r => host.room r := by
  unfold reserved TrackedMap.values total Host.room
  rw [sum_filter_map, List.map_map]
  rfl

/-- Everything in memory. -/
theorem encoded_add_reserved (hsizes : host.Serializes) (j : Journal) :
    host.encodedActiveLen j + reserved host j = total j.records.entries (host.weight Record.jsonLen) +
      total j.accounts.entries (fun _ a => a.jsonLen + 64 + 4) + 4096 := by
  have hweights := total_add (t := j.records.entries)
    (f := fun id r => r.jsonLen + decimal id + 4) (g := fun _ r => host.room r)
  rw [reserved_eq]
  unfold Host.encodedActiveLen TrackedMap.values
  rw [hsizes.recordLen, hsizes.accountLen, List.map_map]
  unfold Host.weight
  rw [← hweights]
  unfold total decimal
  simp only [Function.comp_def]
  omega

theorem held_le (hsizes : host.Serializes) : o.held host Record.jsonLen Account.jsonLen ≤
    host.encodedActiveLen o.journal + reserved host o.journal := by
  rw [encoded_add_reserved hsizes]
  unfold held
  gcongr
  apply total_le
  intro id r _
  unfold heldRow
  split_ifs <;> omega

theorem held_of_oldest_none (hsizes : host.Serializes) (h : o.oldest = none) :
    o.held host Record.jsonLen Account.jsonLen =
      host.encodedActiveLen o.journal + reserved host o.journal := by
  rw [encoded_add_reserved hsizes]
  unfold held
  congr 2
  apply total_congr
  intro id r hr
  unfold oldest at h
  rw [Option.map_eq_none_iff, List.find?_eq_none] at h
  have hnot := h (id, r) (Std.TreeMap.mem_toList_iff_getElem?_eq_some.mpr hr)
  exact if_neg hnot

theorem evictable_of_oldest {id : ℕ} (h : o.oldest = some id) :
    ∃ r, o.journal.records.get? id = some r ∧ o.evictable id r = true := by
  unfold oldest at h
  obtain ⟨⟨k, r⟩, hfind, rfl⟩ := Option.map_eq_some_iff.mp h
  have hholds := List.find?_some hfind
  exact ⟨r, Std.TreeMap.mem_toList_iff_getElem?_eq_some.mp (List.mem_of_find?_eq_some hfind), hholds⟩

theorem reserved_retire {id : ℕ} {r : Record} (hr : o.journal.records.get? id = some r)
    (hevictable : o.evictable id r = true) :
    reserved host (o.journal.retire id) = reserved host o.journal := by
  have herased := total_erase (f := fun _ r => host.room r) hr
  rw [reserved_eq, reserved_eq, entries_retire hr, ← herased, room_of_evictable hevictable]
  rfl

theorem size_retire {id : ℕ} {r : Record} {j : Journal} (hr : j.records.get? id = some r) :
    (j.retire id).records.entries.size + 1 = j.records.entries.size := by
  have hr' : j.records.entries[id]? = some r := hr
  have hmem : j.records.entries.contains id = true := by
    rw [Std.TreeMap.contains_eq_isSome_getElem?, hr']
    rfl
  have hpos : 0 < j.records.entries.size := by
    rw [← Std.TreeMap.length_toList]
    exact List.length_pos_of_mem (Std.TreeMap.mem_toList_iff_getElem?_eq_some.mpr hr')
  rw [entries_retire hr, Std.TreeMap.size_erase, if_pos hmem]
  omega

/-- The check succeeds exactly when the rows that may not be retired fit. -/
theorem shrink_iff (hsizes : host.Serializes) (additional : ℕ) {n : ℕ}
    (hn : o.journal.records.entries.size ≤ n) :
    (shrink host (reserved host o.journal + additional) n o).1 = true ↔
      o.held host Record.jsonLen Account.jsonLen + additional + 256 ≤ host.activeJobBytes := by
  induction n generalizing o with
  | zero =>
    have hnone : o.oldest = none := by
      cases holdest : o.oldest with
      | none => rfl
      | some id =>
        obtain ⟨r, hr, -⟩ := evictable_of_oldest holdest
        have := size_retire hr
        omega
    rw [held_of_oldest_none hsizes hnone]
    unfold shrink
    rw [decide_eq_true_iff]
    omega
  | succ n ih =>
    unfold shrink
    have hle := held_le (o := o) hsizes
    split_ifs with hfits
    · simp only [true_iff]
      omega
    · cases holdest : o.oldest with
      | none =>
        rw [held_of_oldest_none hsizes holdest]
        simp only [Bool.false_eq_true, false_iff]
        omega
      | some id =>
        obtain ⟨r, hr, hevictable⟩ := evictable_of_oldest holdest
        have hsize : (o.journal.retire id).records.entries.size + 1 =
            o.journal.records.entries.size := size_retire hr
        have hnext : (o.setJournal (o.journal.retire id)).journal.records.entries.size ≤ n :=
          Nat.le_of_succ_le_succ (hsize.trans_le hn)
        have hsame := ih hnext
        rw [held_retire hr hevictable] at hsame
        rw [← @reserved_retire host o id r hr hevictable]
        exact hsame

end Owner

end Naome.Jobs
