import Naome.Formula

/-!
# Numbering of free variables

Identities and normal forms rename free variables `0, 1, ...` in the order in which a
traversal meets them.
-/
namespace Naome
open LocallyNameless FirstOccurrence

/-- Free variables renumbered `0, 1, ...` by first occurrence. The source stops when the
32-bit counter would overflow, which the byte limits of its callers exclude. -/
structure VariableNumbering where
  identifiers : Std.TreeMap FreeVariable FreeVariable
  nextIdentifier : ℕ

namespace VariableNumbering

def empty : VariableNumbering := ⟨∅, 0⟩

def visit (v : FreeVariable) (s : VariableNumbering) : FreeVariable × VariableNumbering :=
  match s.identifiers[v]? with
  | some w => (w, s)
  | none =>
    let w : FreeVariable := ⟨UInt32.ofNat s.nextIdentifier⟩
    (w, ⟨s.identifiers.insert v w, s.nextIdentifier + 1⟩)

/-- The number of a name among the names seen so far. -/
def name (seen : List FreeVariable) (v : FreeVariable) : FreeVariable :=
  ⟨UInt32.ofNat (seen.idxOf v)⟩

/-- The numbering after the names `seen`, in order of first occurrence. -/
def Represents (seen : List FreeVariable) (s : VariableNumbering) : Prop :=
  seen.Nodup ∧ s.nextIdentifier = seen.length ∧
    ∀ v, s.identifiers[v]? = if v ∈ seen then some (name seen v) else none

theorem represents_empty : Represents [] empty := by
  refine ⟨List.nodup_nil, rfl, ?_⟩
  intro v
  simp [empty]

theorem name_stable {seen later : List FreeVariable} {v : FreeVariable} (h : seen <+: later)
    (hv : v ∈ seen) : name later v = name seen v := by
  rw [name, name, idxOf_of_isPrefix h hv]

theorem represents_visit {seen : List FreeVariable} {s : VariableNumbering} (v : FreeVariable)
    (h : Represents seen s) :
    Represents (see seen v) (s.visit v).2 ∧ (s.visit v).1 = name (see seen v) v := by
  obtain ⟨hn, hl, hi⟩ := h
  by_cases hv : v ∈ seen
  · have hsv : s.visit v = (name seen v, s) := by simp [visit, hi, hv]
    rw [hsv, see, if_pos hv]
    exact ⟨⟨hn, hl, hi⟩, rfl⟩
  · have hname : name (seen ++ [v]) v = ⟨UInt32.ofNat s.nextIdentifier⟩ := by
      rw [name, List.idxOf_append_of_notMem hv, hl]
      simp
    have hsv : s.visit v = (name (seen ++ [v]) v,
        ⟨s.identifiers.insert v (name (seen ++ [v]) v), s.nextIdentifier + 1⟩) := by
      simp [visit, hi, hv, hname]
    rw [hsv, see, if_neg hv]
    refine ⟨⟨?_, by simp [hl], ?_⟩, rfl⟩
    · have := nodup_see hn v
      rwa [see, if_neg hv] at this
    · intro w
      simp only [Std.TreeMap.getElem?_insert, Std.LawfulEqOrd.compare_eq_iff_eq, hi]
      by_cases hw : v = w
      · subst hw
        simp
      · have hw' : w ≠ v := fun h => hw h.symm
        by_cases hws : w ∈ seen
        · simp [hw, hws, name_stable (List.prefix_append seen [v]) hws]
        · simp [hw, hw', hws]

theorem numbers_visit : Numbers visit name Represents :=
  ⟨fun _ _ v h => represents_visit v h, fun _ _ _ h hv => name_stable h hv⟩

/-- The names of a traversal stay apart: there are no more names than identifiers. -/
theorem name_injOn {seen : List FreeVariable} (hn : seen.Nodup) {v w : FreeVariable}
    (hv : v ∈ seen) (hw : w ∈ seen) (h : name seen v = name seen w) : v = w := by
  have hlt : seen.length ≤ 2 ^ 32 := by
    have hm : (seen.map fun v => v.identifier.toFin).Nodup :=
      hn.map fun a b h => FreeVariable.identifier_injective (UInt32.toFin_inj.mp h)
    have := hm.length_le_card
    simpa [UInt32.size] using this
  have hv' := List.idxOf_lt_length_iff.mpr hv
  have hw' := List.idxOf_lt_length_iff.mpr hw
  simp only [name, FreeVariable.mk.injEq] at h
  have hi : seen.idxOf v = seen.idxOf w := by
    have := congrArg UInt32.toNat h
    rwa [UInt32.toNat_ofNat_of_lt' (by simp [UInt32.size]; omega),
      UInt32.toNat_ofNat_of_lt' (by simp [UInt32.size]; omega)] at this
  exact (List.idxOf_inj hv).mp hi

end VariableNumbering

/-- How an encoder writes free variables: under their own identifiers or renumbered. -/
inductive FreeVariableEncoding
  | preserve
  | normalize (numbering : VariableNumbering)

def FreeVariableEncoding.identifier (v : FreeVariable) :
    FreeVariableEncoding → FreeVariable × FreeVariableEncoding
  | .preserve => (v, .preserve)
  | .normalize numbering =>
    ((numbering.visit v).1, .normalize (numbering.visit v).2)

end Naome
