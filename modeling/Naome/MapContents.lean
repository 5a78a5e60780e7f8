import Naome.AuthenticatedMap

/-!
# What the handle of a map stands for

A handle over untrusted storage stands for one finite map of records, and a finite map has
one handle. The fingerprint of a handle is that of its ascending keys.
-/
namespace Naome.DiskMap
open Fingerprint

/-- The handle stands for the associations `f`, whose nodes are in the log. -/
def Represents (sha256 : List UInt8 → Digest) (log : WriteLog) (m : DiskMap)
    (f : Digest → Option (List UInt8)) : Prop :=
  ∃ t, Holds sha256 log m.root t ∧ ∀ k, findIn k t = f k

variable {sha256 : List UInt8 → Digest} {log log' : WriteLog} {m m' : DiskMap}
  {f : Digest → Option (List UInt8)}

theorem Represents.mono (h : Represents sha256 log m f) (hlog : log ⊆ log') :
    Represents sha256 log' m f := by
  obtain ⟨t, ht, hf⟩ := h
  exact ⟨t, ht.mono hlog, hf⟩

theorem represents_empty (log : WriteLog) : Represents sha256 log {} fun _ => none :=
  ⟨none, holds_none log, fun _ => rfl⟩

theorem isSome_findIn {t : ValueTree} (hwf : t.WellFormed) (k : Digest) :
    (findIn k (some t)).isSome = true ↔ k ∈ t.keys := by
  change (t.find k).isSome = true ↔ _
  rw [← not_iff_not, Bool.not_eq_true, Option.isSome_eq_false_iff, Option.isNone_iff_eq_none]
  exact PatriciaTree.find_eq_none hwf

/-- Two handles of the same associations are the same root. -/
theorem Represents.eq (h : Represents sha256 log m f) (h' : Represents sha256 log' m' f) :
    m = m' := by
  obtain ⟨t, ht, hf⟩ := h
  obtain ⟨t', ht', hf'⟩ := h'
  have hroots : t = t' := by
    cases t with
    | none =>
      cases t' with
      | none => rfl
      | some t' =>
        have hmin := (isSome_findIn (ht'.stored t' rfl).wellFormed _).mpr t'.minKey_mem
        rw [hf', ← hf] at hmin
        cases hmin
    | some t =>
      have hwf := (ht.stored t rfl).wellFormed
      cases t' with
      | none =>
        have hmin := (isSome_findIn hwf _).mpr t.minKey_mem
        rw [hf, ← hf'] at hmin
        cases hmin
      | some t' =>
        have hwf' := (ht'.stored t' rfl).wellFormed
        refine congrArg some (PatriciaTree.eq_of_entries hwf hwf' ?_)
        rintro ⟨k, v⟩
        rw [← PatriciaTree.find_eq_some hwf, ← PatriciaTree.find_eq_some hwf']
        exact Iff.of_eq (congrArg (· = some v) ((hf k).trans (hf' k).symm))
  subst hroots
  cases m
  cases m'
  exact congrArg DiskMap.mk (ht.root_eq.trans ht'.root_eq.symm)

theorem isSome_assign (f : Digest → Option (List UInt8)) (key : Digest) (value : List UInt8)
    (replace : Bool) : (assign f key value replace key).isSome = true := by
  unfold assign
  split_ifs with h
  · exact h.2
  · rw [Function.update_self]
    rfl

/-- The handle of a map with an association has a root. -/
theorem Represents.exists_root (h : Represents sha256 log m f) {key : Digest}
    (hkey : (f key).isSome = true) : ∃ root, m = ⟨some root⟩ := by
  obtain ⟨t, ht, hf⟩ := h
  cases t with
  | none =>
    rw [← hf] at hkey
    cases hkey
  | some t =>
    refine ⟨(treeChild sha256 t).root, ?_⟩
    cases m
    exact congrArg DiskMap.mk ht.root_eq

theorem finish_fingerprintFrom (sha256 : List UInt8 → Digest) {keys : List Digest}
    {previous current : Digest} {pending : List (ℕ × Digest)} {s : SetFingerprint}
    (h : keys.foldlM (SetFingerprint.push sha256) ⟨some previous, pending, current⟩ = .ok s) :
    s.finish sha256 = fingerprintFrom sha256 previous pending current keys := by
  induction keys generalizing previous current pending with
  | nil =>
    cases h
    rfl
  | cons key keys ih =>
    rw [List.foldlM_cons] at h
    unfold SetFingerprint.push at h
    simp only at h
    split at h
    · cases h
    · exact ih h

/-- Streaming the keys and hashing the list of the keys is the same. -/
theorem finish_ofKeys (sha256 : List UInt8 → Digest) {keys : List Digest} {s : SetFingerprint}
    (h : keys.foldlM (SetFingerprint.push sha256) {} = .ok s) :
    keys ≠ [] → s.finish sha256 = ofKeys sha256 keys := by
  intro hne
  cases keys with
  | nil => exact absurd rfl hne
  | cons key keys =>
    rw [List.foldlM_cons] at h
    exact finish_fingerprintFrom sha256 h

theorem Represents.fingerprint (h : Represents sha256 log m f) {keys : List Digest}
    (hsorted : keys.Pairwise (· < ·)) (hkeys : ∀ k, k ∈ keys ↔ (f k).isSome = true) :
    m.fingerprint = ofKeys sha256 keys := by
  obtain ⟨t, ht, hf⟩ := h
  unfold DiskMap.fingerprint
  rw [ht.root_eq]
  cases t with
  | none =>
    have hnil : keys = [] := by
      refine List.eq_nil_iff_forall_not_mem.mpr fun k hk => ?_
      rw [hkeys, ← hf k] at hk
      cases hk
    rw [hnil]
    rfl
  | some t =>
    have hwf := (ht.stored t rfl).wellFormed
    have hmem : ∀ k, k ∈ t.keys ↔ k ∈ keys := by
      intro k
      rw [hkeys, ← hf k, isSome_findIn hwf]
    obtain ⟨s, hs, _, hhash⟩ := SetFingerprint.finish_eq_hash sha256 hsorted
    have hne : keys ≠ [] := List.ne_nil_of_mem ((hmem _).mp t.minKey_mem)
    rw [← finish_ofKeys sha256 hs hne, hhash t hwf hmem]
    simp only [Option.map_some, Option.getD_some]
    exact fingerprint_treeChild sha256 t

section Access

variable {σ : Type} {S : ContextStorage σ} {I : World σ → Prop} {Safe : WriteLog → Prop}
  {w : World σ} (hA : Authentic S (storageAddress sha256) I Safe)

include hA

theorem Represents.ensures_get (hw : I w) (h : Represents sha256 w.written m f) (key : Digest) :
    Ensures S I Safe (get sha256 m key) w fun v _ => v = f key := by
  obtain ⟨t, ht, hf⟩ := h
  apply (DiskMap.ensures_get hA hw ht).mono
  intro v _ hv
  rw [hv, hf]

theorem Represents.ensures_containsKey (hw : I w) (h : Represents sha256 w.written m f)
    (key : Digest) :
    Ensures S I Safe (containsKey sha256 m key) w fun v _ => v = (f key).isSome := by
  unfold containsKey
  apply Ensures.bind hA hw (h.ensures_get hA hw key)
  intro v _ _ _ hv
  rw [hv]
  exact Ensures.pure rfl

/-- A write changes one association, or fails and leaves the handle as it was. -/
theorem Represents.ensures_writeValue (hw : I w) (h : Represents sha256 w.written m f)
    {key : Digest} {value : List UInt8} (replace : Bool) (hvalue : value.length ≤ maxValueBytes) :
    Ensures S I Safe (writeValue sha256 m key value replace) w fun r w' =>
      (∃ added, r.1 = .ok added ∧
        Represents sha256 w'.written r.2 (assign f key value replace)) ∨
      (∃ e, r.1 = .error e) ∧ r.2 = m ∧ ¬ Reliable S I Safe := by
  obtain ⟨t, ht, hf⟩ := h
  intro hsafe
  obtain ⟨r, m', w', hrun⟩ := run_writeValue_ok S m key value replace w
  rw [hrun] at hsafe ⊢
  refine Or.inl ⟨_, rfl, ?_⟩
  rcases writeValue_spec hA hw ht hrun hsafe with ⟨added, hr, _, hholds⟩ | ⟨herror, hm, hfault⟩
  · refine Or.inl ⟨added, hr, _, hholds, ?_⟩
    intro k
    rw [findIn_writeTree ht]
    exact congrFun (congrArg (fun g => assign g key value replace) (funext hf)) k
  · exact Or.inr ⟨herror, hm, hfault hvalue⟩

end Access
end Naome.DiskMap
