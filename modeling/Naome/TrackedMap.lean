import Mathlib

/-!
# Maps that know what changed

A bounded map in memory whose mutations name the rows that a save has to write.
-/
namespace Naome

/-- `dirty` are the keys whose rows are out of date, `removed` those whose rows have to go. -/
structure TrackedMap (K V : Type) [Ord K] where
  entries : Std.TreeMap K V
  dirty : Std.TreeSet K
  removed : Std.TreeSet K

namespace TrackedMap

variable {K V : Type} [Ord K]

def empty : TrackedMap K V := ⟨∅, ∅, ∅⟩

def get? (t : TrackedMap K V) (k : K) : Option V := t.entries[k]?

def insert (t : TrackedMap K V) (k : K) (v : V) : TrackedMap K V :=
  ⟨t.entries.insert k v, t.dirty.insert k, t.removed.erase k⟩

/-- `get_mut` followed by the change `f` of the value: a key that is present counts as changed. -/
def update (t : TrackedMap K V) (k : K) (f : V → V) : TrackedMap K V :=
  match t.entries[k]? with
  | some v => ⟨t.entries.insert k (f v), t.dirty.insert k, t.removed⟩
  | none => t

def remove (t : TrackedMap K V) (k : K) : TrackedMap K V :=
  if t.entries.contains k then ⟨t.entries.erase k, t.dirty.erase k, t.removed.insert k⟩ else t

/-- `values_mut`: every key counts as changed. -/
def touchAll (t : TrackedMap K V) : TrackedMap K V :=
  ⟨t.entries, t.dirty.insertMany t.entries.keys, t.removed⟩

def changed (t : TrackedMap K V) (k : K) : Bool := t.dirty.contains k

def clean (t : TrackedMap K V) : TrackedMap K V := ⟨t.entries, ∅, ∅⟩

/-- Eviction is not durable deletion: the rows stay. -/
def evictExcept (t : TrackedMap K V) (retained : K → Bool) : TrackedMap K V :=
  ⟨t.entries.filter fun k _ => retained k, t.dirty, t.removed⟩

def values (t : TrackedMap K V) : List V := t.entries.toList.map Prod.snd

/-- The rows to write. -/
def puts (t : TrackedMap K V) : List (K × V) := t.entries.toList.filter fun e => t.changed e.1

/-- The table after the rows of a save were written. -/
def writePuts (t : TrackedMap K V) (rows : Std.TreeMap K V) : Std.TreeMap K V :=
  rows.insertMany t.puts

def writeAll (t : TrackedMap K V) (rows : Std.TreeMap K V) : Std.TreeMap K V :=
  t.removed.toList.foldl Std.TreeMap.erase (t.writePuts rows)

@[simp] theorem get?_touchAll (t : TrackedMap K V) (a : K) : t.touchAll.get? a = t.get? a := rfl

@[simp] theorem get?_clean (t : TrackedMap K V) (a : K) : t.clean.get? a = t.get? a := rfl

@[simp] theorem removed_update (t : TrackedMap K V) (k : K) (f : V → V) :
    (t.update k f).removed = t.removed := by
  unfold update
  split <;> rfl

@[simp] theorem changed_clean (t : TrackedMap K V) (a : K) : t.clean.changed a = false := by
  simp [clean, changed]

section Lawful

variable [Std.TransOrd K] [Std.LawfulEqOrd K]

@[simp] theorem changed_insert (t : TrackedMap K V) (k a : K) (v : V) :
    (t.insert k v).changed a = true ↔ k = a ∨ t.changed a = true := by
  simp [changed, insert]

theorem changed_update (t : TrackedMap K V) (k a : K) (f : V → V) :
    (t.update k f).changed a = true ↔ (k = a ∧ (t.get? k).isSome) ∨ t.changed a = true := by
  unfold update get? changed
  split
  case h_1 v hv => simp [hv]
  case h_2 hnone => simp [hnone]

theorem get?_evictExcept (t : TrackedMap K V) (retained : K → Bool) (a : K) :
    (t.evictExcept retained).get? a = if retained a then t.get? a else none := by
  unfold evictExcept get?
  rw [Std.TreeMap.getElem?_filter']
  cases t.entries[a]? with
  | none => simp
  | some v => simp [Option.filter]

theorem mem_puts (t : TrackedMap K V) {e : K × V} :
    e ∈ t.puts ↔ t.get? e.1 = some e.2 ∧ t.changed e.1 = true := by
  unfold puts get?
  rw [List.mem_filter, Std.TreeMap.mem_toList_iff_getElem?_eq_some]

theorem mem_values {t : TrackedMap K V} {v : V} : v ∈ t.values ↔ ∃ k, t.get? k = some v := by
  unfold values get?
  rw [List.mem_map]
  constructor
  · rintro ⟨e, he, hv⟩
    exact ⟨e.1, by rw [← hv]; exact Std.TreeMap.mem_toList_iff_getElem?_eq_some.mp he⟩
  · rintro ⟨k, hk⟩
    exact ⟨(k, v), Std.TreeMap.mem_toList_iff_getElem?_eq_some.mpr hk, rfl⟩

variable [DecidableEq K]

@[simp] theorem get?_insert (t : TrackedMap K V) (k a : K) (v : V) :
    (t.insert k v).get? a = if k = a then some v else t.get? a := by
  simp only [get?, insert, Std.TreeMap.getElem?_insert, Std.LawfulEqCmp.compare_eq_iff_eq]

theorem get?_update (t : TrackedMap K V) (k a : K) (f : V → V) :
    (t.update k f).get? a = if k = a then (t.get? a).map f else t.get? a := by
  unfold update get?
  split
  case h_1 v hv =>
    simp only [Std.TreeMap.getElem?_insert, Std.LawfulEqCmp.compare_eq_iff_eq]
    split_ifs with h
    · rw [← h, hv]
      rfl
    · rfl
  case h_2 hnone =>
    split_ifs with h
    · rw [← h, hnone]
      rfl
    · rfl

theorem get?_remove (t : TrackedMap K V) (k a : K) :
    (t.remove k).get? a = if k = a then none else t.get? a := by
  unfold remove get?
  split_ifs with hmem h h
  · simp [h]
  · rw [Std.TreeMap.getElem?_erase, if_neg (by simpa using h)]
  · rw [← h]
    exact Std.TreeMap.getElem?_eq_none (by simpa using hmem)
  · rfl

/-- A save writes the changed entries and leaves the other rows. -/
theorem getElem?_writePuts (t : TrackedMap K V) (rows : Std.TreeMap K V) (a : K) :
    (t.writePuts rows)[a]? = if t.changed a then (t.get? a).or rows[a]? else rows[a]? := by
  have hdistinct : t.puts.Pairwise fun e e' => ¬ compare e.1 e'.1 = .eq :=
    Std.TreeMap.distinct_keys_toList.sublist List.filter_sublist
  have hother : (∀ v, (a, v) ∉ t.puts) → (t.writePuts rows)[a]? = rows[a]? := by
    intro hnot
    apply Std.TreeMap.getElem?_insertMany_list_of_contains_eq_false
    rw [List.contains_eq_mem, decide_eq_false_iff_not, List.mem_map]
    rintro ⟨e, he, ha⟩
    exact hnot e.2 (by rw [← ha]; exact he)
  cases hv : t.get? a with
  | none =>
    have hsame := hother fun v he => by
      have hsome := ((mem_puts t).mp he).1
      rw [hv] at hsome
      cases hsome
    rw [hsame]
    split_ifs <;> rfl
  | some v =>
    cases hc : t.changed a with
    | false =>
      simp only [Bool.false_eq_true, if_false]
      exact hother fun w he => by simpa [hc] using ((mem_puts t).mp he).2
    | true =>
      simp only [if_true, Option.some_or]
      exact Std.TreeMap.getElem?_insertMany_list_of_mem Std.ReflCmp.compare_self hdistinct
        ((mem_puts t).mpr ⟨hv, hc⟩)

end Lawful

end TrackedMap

end Naome
