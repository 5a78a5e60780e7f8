import Mathlib

/-!
# Numbering names by first occurrence

A traversal visits names and numbers each new one by the count of names seen before.
The names seen so far are kept as a list in order of first occurrence.
-/
namespace Naome.FirstOccurrence

variable {V W : Type} [DecidableEq V] [DecidableEq W]

def see (seen : List V) (v : V) : List V := if v ∈ seen then seen else seen ++ [v]

def seeAll (seen vs : List V) : List V := vs.foldl see seen

@[simp] theorem seeAll_nil (seen : List V) : seeAll seen [] = seen := rfl

@[simp] theorem seeAll_cons (seen : List V) (v : V) (vs : List V) :
    seeAll seen (v :: vs) = seeAll (see seen v) vs := rfl

theorem seeAll_append (seen vs ws : List V) :
    seeAll seen (vs ++ ws) = seeAll (seeAll seen vs) ws := List.foldl_append

theorem mem_see {seen : List V} {v w : V} : w ∈ see seen v ↔ w ∈ seen ∨ w = v := by
  unfold see
  split_ifs with h
  · constructor
    · exact Or.inl
    · rintro (h' | rfl) <;> assumption
  · simp

theorem mem_seeAll {seen vs : List V} {w : V} : w ∈ seeAll seen vs ↔ w ∈ seen ∨ w ∈ vs := by
  induction vs generalizing seen with
  | nil => simp
  | cons v vs ih => rw [seeAll_cons, ih, mem_see, List.mem_cons]; tauto

theorem nodup_see {seen : List V} (h : seen.Nodup) (v : V) : (see seen v).Nodup := by
  unfold see
  split_ifs with hv
  · exact h
  · refine List.nodup_append.mpr ⟨h, List.nodup_singleton v, ?_⟩
    intro a ha b hb hab
    rw [List.mem_singleton] at hb
    exact hv (hb ▸ hab ▸ ha)

theorem nodup_seeAll {seen : List V} (h : seen.Nodup) (vs : List V) : (seeAll seen vs).Nodup := by
  induction vs generalizing seen with
  | nil => exact h
  | cons v vs ih => exact ih (nodup_see h v)

theorem isPrefix_see (seen : List V) (v : V) : seen <+: see seen v := by
  unfold see
  split_ifs
  · exact List.prefix_rfl
  · exact List.prefix_append _ _

theorem isPrefix_seeAll (seen vs : List V) : seen <+: seeAll seen vs := by
  induction vs generalizing seen with
  | nil => exact List.prefix_rfl
  | cons v vs ih => exact (isPrefix_see seen v).trans (ih _)

/-- The number of a name never changes once the name was seen. -/
theorem idxOf_of_isPrefix {seen later : List V} (h : seen <+: later) {v : V} (hv : v ∈ seen) :
    later.idxOf v = seen.idxOf v := by
  obtain ⟨tail, rfl⟩ := h
  exact List.idxOf_append_of_mem hv

theorem seeAll_of_subset {seen vs : List V} (h : ∀ v ∈ vs, v ∈ seen) : seeAll seen vs = seen := by
  induction vs with
  | nil => rfl
  | cons v vs ih =>
    rw [seeAll_cons, see, if_pos (h v (by simp))]
    exact ih fun w hw => h w (by simp [hw])

/-- Numbering commutes with a renaming that keeps the visited names apart. -/
theorem seeAll_map {g : V → W} {seen vs : List V}
    (hg : ∀ a ∈ seen ++ vs, ∀ b ∈ seen ++ vs, g a = g b → a = b) :
    seeAll (seen.map g) (vs.map g) = (seeAll seen vs).map g := by
  induction vs generalizing seen with
  | nil => rfl
  | cons v vs ih =>
    have hs : see (seen.map g) (g v) = (see seen v).map g := by
      unfold see
      by_cases hv : v ∈ seen
      · rw [if_pos hv, if_pos (List.mem_map_of_mem hv)]
      · have : g v ∉ seen.map g := by
          intro hm
          obtain ⟨w, hw, hwv⟩ := List.mem_map.mp hm
          exact hv (hg w (by simp [hw]) v (by simp) hwv ▸ hw)
        rw [if_neg hv, if_neg this, List.map_append, List.map_singleton]
    rw [List.map_cons, seeAll_cons, seeAll_cons, hs]
    apply ih
    intro a ha b hb
    simp only [List.mem_append, mem_see, List.mem_cons] at ha hb hg
    exact hg a (by tauto) b (by tauto)

theorem idxOf_map {g : V → W} {seen : List V} {v : V}
    (hg : ∀ a ∈ seen, g a = g v → a = v) (hv : v ∈ seen) :
    (seen.map g).idxOf (g v) = seen.idxOf v := by
  induction seen with
  | nil => simp at hv
  | cons a seen ih =>
    by_cases ha : a = v
    · subst ha
      simp
    · have hga : g a ≠ g v := fun h => ha (hg a (by simp) h)
      rw [List.map_cons, List.idxOf_cons_ne _ hga, List.idxOf_cons_ne _ ha,
        ih (fun b hb => hg b (by simp [hb])) (by simpa [Ne.symm ha] using hv)]

end Naome.FirstOccurrence
