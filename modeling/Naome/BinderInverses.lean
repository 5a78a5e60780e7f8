import Naome.LocallyNameless

/-!
# Opening undoes binding

Binding turns a free name into references to a new binder and opening turns these references back
into a name. On trees without dangling indices the two are inverse, and binding one name after
another is the same as binding them at once.
-/
namespace Naome.LocallyNameless

variable {V D : Type}

/-- Names that have no binding index stay as they are. -/
theorem Variable.bind_of_none {f : V → Option ℕ} {d : ℕ} {x : Variable V}
    (h : ∀ v ∈ x.occurrences, f v = none) : x.bind f d = x := by
  cases x with
  | bound i => rfl
  | free v =>
    have hv := h v (List.mem_singleton.mpr rfl)
    simp only [Variable.bind, hv]

theorem Variable.openAt_of_scoped {d : ℕ} {name : V} {x : Variable V} (h : x.Scoped d) :
    x.openAt d name = x := by
  cases x with
  | bound i =>
    simp only [Variable.Scoped] at h
    have hne : i ≠ d := by omega
    have hle : ¬ d < i := by omega
    simp only [Variable.openAt, if_neg hne, if_neg hle]
  | free v => rfl

theorem Variable.bind_openAt {f : V → Option ℕ} {d : ℕ} {name : V} {x : Variable V}
    (hname : f name = some 0) (hf : ∀ v ∈ x.occurrences, f v = none) (h : x.Scoped (d + 1)) :
    (x.openAt d name).bind f d = x := by
  cases x with
  | bound i =>
    simp only [Variable.Scoped] at h
    simp only [Variable.openAt]
    split_ifs with heq hlt
    · simp only [Variable.bind, hname, Nat.zero_add, heq]
    · omega
    · rfl
  | free v => exact Variable.bind_of_none hf

theorem Variable.openAt_bind {f : V → Option ℕ} {g : V → V} {d : ℕ} {name : V} {x : Variable V}
    (hbound : ∀ v i, f v = some i → i = 0 ∧ g v = name) (hfree : ∀ v, f v = none → g v = v)
    (h : x.Scoped d) : (x.bind f d).openAt d name = x.map g := by
  cases x with
  | bound i => exact Variable.openAt_of_scoped h
  | free v =>
    cases hv : f v with
    | none => simp only [Variable.bind, Variable.openAt, Variable.map, hv, hfree v hv]
    | some i =>
      obtain ⟨rfl, hg⟩ := hbound v i hv
      simp only [Variable.bind, Variable.openAt, Variable.map, hv, hg, Nat.zero_add, if_true]

theorem Variable.bind_bind {f g h : V → Option ℕ} {k d : ℕ} {x : Variable V}
    (hf : ∀ v i, f v = some i → h v = some i)
    (hg : ∀ v, f v = none → h v = (g v).map (· + k)) :
    (x.bind f d).bind g (k + d) = x.bind h d := by
  cases x with
  | bound i => rfl
  | free v =>
    cases hv : f v with
    | some i => simp only [Variable.bind, hv, hf v i hv]
    | none =>
      have hh := hg v hv
      cases hgv : g v with
      | none =>
        rw [hgv] at hh
        simp only [Variable.bind, hv, hgv, hh, Option.map_none]
      | some i =>
        rw [hgv] at hh
        simp only [Variable.bind, hv, hgv, hh, Option.map_some, Nat.add_assoc]

namespace Node

theorem bindFree_of_none {f : V → Option ℕ} {d : ℕ} {n : Node V D}
    (h : ∀ v ∈ n.occurrences, f v = none) : n.bindFree f d = n := by
  induction n generalizing d with
  | equal l r | member l r =>
    simp only [occurrences, List.mem_append] at h
    simp only [bindFree, Variable.bind_of_none fun v hv => h v (.inl hv),
      Variable.bind_of_none fun v hv => h v (.inr hv)]
  | not n ih | forAll n ih => simp only [bindFree, ih h]
  | implies a b iha ihb =>
    simp only [occurrences, List.mem_append] at h
    simp only [bindFree, iha fun v hv => h v (.inl hv), ihb fun v hv => h v (.inr hv)]
  | definedRelation s xs =>
    simp only [bindFree, definedRelation.injEq, true_and]
    conv_rhs => rw [← List.map_id xs]
    apply List.map_congr_left
    intro x hx
    exact Variable.bind_of_none fun v hv => h v (List.mem_flatMap.mpr ⟨x, hx, hv⟩)

/-- Opening leaves a tree alone that does not refer to the binder. -/
theorem openBinder_of_scoped {d : ℕ} {name : V} {n : Node V D} (h : n.Scoped d) :
    n.openBinder name d = n := by
  induction n generalizing d with
  | equal l r | member l r =>
    simp only [openBinder, Variable.openAt_of_scoped h.1, Variable.openAt_of_scoped h.2]
  | not n ih => simp only [openBinder, ih (d := d) h]
  | implies a b iha ihb => simp only [openBinder, iha h.1, ihb h.2]
  | forAll n ih => simp only [openBinder, ih (d := d + 1) h]
  | definedRelation s xs =>
    simp only [openBinder, definedRelation.injEq, true_and]
    conv_rhs => rw [← List.map_id xs]
    apply List.map_congr_left
    intro x hx
    exact Variable.openAt_of_scoped (h x hx)

/-- Binding the name of an opened tree gives the tree back. -/
theorem bindFree_openBinder {f : V → Option ℕ} {d : ℕ} {name : V} {n : Node V D}
    (hname : f name = some 0) (hf : ∀ v ∈ n.occurrences, f v = none) (h : n.Scoped (d + 1)) :
    (n.openBinder name d).bindFree f d = n := by
  induction n generalizing d with
  | equal l r | member l r =>
    simp only [occurrences, List.mem_append] at hf
    simp only [openBinder, bindFree, Variable.bind_openAt hname (fun v hv => hf v (.inl hv)) h.1,
      Variable.bind_openAt hname (fun v hv => hf v (.inr hv)) h.2]
  | not n ih => simp only [openBinder, bindFree, ih hf (d := d) h]
  | implies a b iha ihb =>
    simp only [occurrences, List.mem_append] at hf
    simp only [openBinder, bindFree, iha (fun v hv => hf v (.inl hv)) h.1,
      ihb (fun v hv => hf v (.inr hv)) h.2]
  | forAll n ih => simp only [openBinder, bindFree, ih hf (d := d + 1) h]
  | definedRelation s xs =>
    simp only [openBinder, bindFree, definedRelation.injEq, true_and, List.map_map]
    conv_rhs => rw [← List.map_id xs]
    apply List.map_congr_left
    intro x hx
    exact Variable.bind_openAt hname (fun v hv => hf v (List.mem_flatMap.mpr ⟨x, hx, hv⟩)) (h x hx)

/-- Opening a bound tree renames the bound name. -/
theorem openBinder_bindFree {f : V → Option ℕ} {g : V → V} {d : ℕ} {name : V} {n : Node V D}
    (hbound : ∀ v i, f v = some i → i = 0 ∧ g v = name) (hfree : ∀ v, f v = none → g v = v)
    (h : n.Scoped d) : (n.bindFree f d).openBinder name d = n.mapFree g := by
  induction n generalizing d with
  | equal l r | member l r =>
    simp only [bindFree, openBinder, mapFree, Variable.openAt_bind hbound hfree h.1,
      Variable.openAt_bind hbound hfree h.2]
  | not n ih => simp only [bindFree, openBinder, mapFree, ih (d := d) h]
  | implies a b iha ihb => simp only [bindFree, openBinder, mapFree, iha h.1, ihb h.2]
  | forAll n ih => simp only [bindFree, openBinder, mapFree, ih (d := d + 1) h]
  | definedRelation s xs =>
    simp only [bindFree, openBinder, mapFree, definedRelation.injEq, true_and, List.map_map]
    apply List.map_congr_left
    intro x hx
    exact Variable.openAt_bind hbound hfree (h x hx)

/-- Two bindings in a row are one: the first counts its own binders, the second the `k` binders
between them. -/
theorem bindFree_bindFree {f g h : V → Option ℕ} {k : ℕ}
    (hf : ∀ v i, f v = some i → h v = some i)
    (hg : ∀ v, f v = none → h v = (g v).map (· + k)) (d : ℕ) (n : Node V D) :
    (n.bindFree f d).bindFree g (k + d) = n.bindFree h d := by
  induction n generalizing d with
  | equal l r | member l r => simp only [bindFree, Variable.bind_bind hf hg]
  | not n ih => simp only [bindFree, ih]
  | implies a b iha ihb => simp only [bindFree, iha, ihb]
  | forAll n ih => simp only [bindFree, Nat.add_assoc, ih]
  | definedRelation s xs =>
    simp only [bindFree, definedRelation.injEq, true_and, List.map_map]
    apply List.map_congr_left
    intro x _
    exact Variable.bind_bind hf hg

end Node
end Naome.LocallyNameless
