import Naome.BinderInverses
import Naome.SchemaMeaning

/-!
# Binders of formulas

`forAll`, `forAllMany` and `openOuterUniversal` compute indices in three ways. The equations between
them hold exactly, and each result has the free variables that its binders leave.
-/
namespace Naome
open LocallyNameless

namespace Formula

variable {f g : Formula} {v w : FreeVariable}

theorem bindOne_self (v : FreeVariable) : bindOne v v = some 0 := if_pos rfl

theorem bindOne_of_ne (h : w ≠ v) : bindOne v w = none := if_neg h

theorem bindOne_substitution {i : ℕ} {u : FreeVariable} (h : bindOne v u = some i) :
    i = 0 ∧ substitution v w u = w := by
  unfold bindOne at h
  split_ifs at h with hu
  cases h
  exact ⟨rfl, if_pos hu⟩

theorem substitution_of_bindOne {u : FreeVariable} (h : bindOne v u = none) :
    substitution v w u = u := by
  unfold bindOne at h
  split_ifs at h with hu
  exact if_neg hu

theorem openOuterUniversal_eq_some (h : f.openOuterUniversal v = some g) :
    v ∉ f.freeVariables ∧ ∃ n : PrimitiveNode, f.node = .forAll n ∧ g.node = n.openBinder v 0 := by
  unfold openOuterUniversal at h
  split_ifs at h with hv
  refine ⟨hv, ?_⟩
  obtain ⟨n, hn⟩ := f
  cases n with
  | forAll n =>
    cases h
    exact ⟨n, rfl, rfl⟩
  | definedRelation s => exact s.elim
  | _ => cases h

theorem openOuterUniversal_isSome (hf : ∃ n : PrimitiveNode, f.node = .forAll n)
    (hv : v ∉ f.freeVariables) : ∃ g, f.openOuterUniversal v = some g := by
  obtain ⟨n, hn⟩ := f
  obtain ⟨body, rfl⟩ := hf
  exact ⟨_, if_neg hv⟩

/-- Closing an opened formula gives the formula back. -/
theorem forAll_of_openOuterUniversal (h : f.openOuterUniversal v = some g) : forAll v g = f := by
  obtain ⟨hv, n, hf, hg⟩ := openOuterUniversal_eq_some h
  have hscoped : n.Scoped (0 + 1) := by
    have hwell := f.wellScoped
    rw [hf] at hwell
    exact hwell
  have hbody : g.node.bindFree (bindOne v) 0 = n := by
    rw [hg]
    refine Node.bindFree_openBinder (bindOne_self v) ?_ hscoped
    intro u hu
    refine bindOne_of_ne ?_
    rintro rfl
    rw [mem_freeVariables, hf] at hv
    exact hv hu
  apply node_injective
  rw [hf, ← hbody]
  rfl

/-- Opening a closed formula renames the variable. -/
theorem openOuterUniversal_forAll (hw : w ∉ (forAll v f).freeVariables) :
    (forAll v f).openOuterUniversal w = some (f.substituteFree v w) := by
  obtain ⟨g, hg⟩ := openOuterUniversal_isSome ⟨_, rfl⟩ hw
  rw [hg]
  obtain ⟨-, n, hn, hnode⟩ := openOuterUniversal_eq_some hg
  cases hn
  congr 1
  apply node_injective
  rw [hnode, substituteFree_eq_map, mapFreeVariables]
  exact Node.openBinder_bindFree (fun _ _ => bindOne_substitution)
    (fun _ => substitution_of_bindOne) f.wellScoped

theorem wrapForAll_succ (k : ℕ) (n : PrimitiveNode) :
    wrapForAll (k + 1) n = .forAll (wrapForAll k n) := by
  induction k generalizing n with
  | zero => rfl
  | succ k ih => exact ih (.forAll n)

theorem bindFree_wrapForAll (i : FreeVariable → Option ℕ) (k d : ℕ) (n : PrimitiveNode) :
    (wrapForAll k n).bindFree i d = wrapForAll k (n.bindFree i (k + d)) := by
  induction k generalizing n with
  | zero => rw [wrapForAll, wrapForAll, Nat.zero_add]
  | succ k ih =>
    rw [wrapForAll, ih, wrapForAll, Node.bindFree]
    congr 3
    omega

theorem binderIndices_cons {vars : List FreeVariable} (h : (v :: vars).Nodup) :
    (∀ u i, binderIndices vars u = some i → binderIndices (v :: vars) u = some i) ∧
      ∀ u, binderIndices vars u = none →
        binderIndices (v :: vars) u = (bindOne v u).map (· + vars.length) := by
  obtain ⟨hv, hvars⟩ := List.nodup_cons.mp h
  have hin : ∀ u ∈ vars, binderIndices (v :: vars) u = binderIndices vars u := by
    intro u hu
    obtain ⟨j, hj, rfl⟩ := List.mem_iff_getElem.mp hu
    have hcons := binderIndices_getElem h (i := j + 1) (by simpa using hj)
    rw [List.getElem_cons_succ] at hcons
    rw [hcons, binderIndices_getElem hvars hj, List.length_cons]
    congr 1
    omega
  constructor
  · intro u i hu
    have hmem : u ∈ vars := by
      by_contra hnot
      rw [binderIndices_of_notMem hnot] at hu
      cases hu
    rw [hin u hmem, hu]
  · intro u hu
    have hnot : u ∉ vars := by
      intro hmem
      obtain ⟨j, hj, rfl⟩ := List.mem_iff_getElem.mp hmem
      rw [binderIndices_getElem hvars hj] at hu
      cases hu
    by_cases huv : u = v
    · subst huv
      have hhead := binderIndices_getElem h (i := 0) (by simp)
      rw [List.getElem_cons_zero] at hhead
      simp [hhead, bindOne_self]
    · rw [bindOne_of_ne huv, Option.map_none]
      exact binderIndices_of_notMem (by simp [huv, hnot])

theorem forAllMany_cons {vars : List FreeVariable} (h : (v :: vars).Nodup) (f : Formula) :
    forAllMany (v :: vars) f = forAll v (forAllMany vars f) := by
  obtain ⟨hbound, hfree⟩ := binderIndices_cons h
  have hnode : (f.node.bindFree (binderIndices vars) 0).bindFree (bindOne v) vars.length =
      f.node.bindFree (binderIndices (v :: vars)) 0 := Node.bindFree_bindFree hbound hfree 0 f.node
  apply node_injective
  simp only [forAllMany, forAll, List.length_cons, wrapForAll_succ, bindFree_wrapForAll]
  rw [Nat.add_zero, hnode]

theorem forAllMany_eq_foldr {vars : List FreeVariable} (h : vars.Nodup) (f : Formula) :
    forAllMany vars f = vars.foldr forAll f := by
  induction vars with
  | nil =>
    apply node_injective
    exact Node.bindFree_of_none fun _ _ => rfl
  | cons v vars ih => rw [forAllMany_cons h, ih (List.nodup_cons.mp h).2, List.foldr_cons]

theorem mem_freeVariables_substituteFree {u : FreeVariable} :
    u ∈ (f.substituteFree v w).freeVariables ↔
      u ∈ f.freeVariables ∧ u ≠ v ∨ u = w ∧ v ∈ f.freeVariables := by
  rw [substituteFree_eq_map]
  simp only [mem_freeVariables, mapFreeVariables, Node.occurrences_mapFree, List.mem_map]
  constructor
  · rintro ⟨t, ht, rfl⟩
    unfold substitution
    split_ifs with htv
    · exact .inr ⟨rfl, htv ▸ ht⟩
    · exact .inl ⟨ht, htv⟩
  · rintro (⟨hu, hne⟩ | ⟨rfl, hv⟩)
    · exact ⟨u, hu, if_neg hne⟩
    · exact ⟨v, hv, if_pos rfl⟩

theorem mem_freeVariables_forAllMany_iff {vars : List FreeVariable} (h : vars.Nodup)
    {u : FreeVariable} :
    u ∈ (forAllMany vars f).freeVariables ↔ u ∈ f.freeVariables ∧ u ∉ vars := by
  rw [forAllMany_eq_foldr h]
  clear h
  induction vars with
  | nil => simp
  | cons v vars ih =>
    rw [List.foldr_cons, mem_freeVariables_forAll, ih, List.mem_cons, not_or]
    tauto

/-- The variable of an opening occurs in the result unless the binder was vacuous. -/
theorem mem_freeVariables_openOuterUniversal (h : f.openOuterUniversal v = some g)
    {u : FreeVariable} :
    u ∈ g.freeVariables ↔ u ∈ f.freeVariables ∨ u = v ∧ ∀ body, f ≠ vacuousForAll body := by
  have hclosed := forAll_of_openOuterUniversal h
  obtain ⟨hv, n, hf, hg⟩ := openOuterUniversal_eq_some h
  have hoccurs : v ∈ g.freeVariables ↔ ∀ body, f ≠ vacuousForAll body := by
    constructor
    · rintro hmem body rfl
      cases hf
      rw [mem_freeVariables, hg, Node.openBinder_of_scoped body.wellScoped] at hmem
      exact hv (mem_freeVariables.mpr hmem)
    · intro hvacuous
      by_contra hmem
      refine hvacuous g ?_
      rw [← hclosed]
      apply node_injective
      have hsame : g.node.bindFree (bindOne v) 0 = g.node := by
        refine Node.bindFree_of_none fun u hu => bindOne_of_ne ?_
        rintro rfl
        exact hmem (mem_freeVariables.mpr hu)
      change Node.forAll (g.node.bindFree (bindOne v) 0) = Node.forAll g.node
      rw [hsame]
  rw [← hclosed, mem_freeVariables_forAll, hclosed, ← hoccurs]
  by_cases huv : u = v
  · simp [huv]
  · simp [huv]

/-- Opening and closing are inverse and capture nothing. A universal formula opened with a variable
that is not free closes to itself; a closed formula opened with a variable that is not free is the
body with the variable replaced; distinct variables are bound together as they are bound one after
another, from the last to the first. Results are well scoped and have the expected free
variables. -/
theorem binders_exact :
    (∀ (f : Formula) (v : FreeVariable), (∃ n : PrimitiveNode, f.node = .forAll n) →
      v ∉ f.freeVariables →
      ∃ g, f.openOuterUniversal v = some g ∧ forAll v g = f ∧ g.node.Scoped 0 ∧
        ∀ u, u ∈ g.freeVariables ↔ u ∈ f.freeVariables ∨ u = v ∧ ∀ body, f ≠ vacuousForAll body) ∧
    (∀ (f : Formula) (v w : FreeVariable), w ∉ (forAll v f).freeVariables →
      (forAll v f).openOuterUniversal w = some (f.substituteFree v w)) ∧
    (∀ (vars : List FreeVariable) (f : Formula), vars.Nodup →
      forAllMany vars f = vars.foldr forAll f ∧ (forAllMany vars f).node.Scoped 0 ∧
      ∀ u, u ∈ (forAllMany vars f).freeVariables ↔ u ∈ f.freeVariables ∧ u ∉ vars) ∧
    (∀ (f : Formula) (v : FreeVariable), (forAll v f).node.Scoped 0 ∧
      ∀ u, u ∈ (forAll v f).freeVariables ↔ u ∈ f.freeVariables ∧ u ≠ v) ∧
    ∀ (f : Formula) (v w : FreeVariable), (f.substituteFree v w).node.Scoped 0 ∧
      ∀ u, u ∈ (f.substituteFree v w).freeVariables ↔
        u ∈ f.freeVariables ∧ u ≠ v ∨ u = w ∧ v ∈ f.freeVariables := by
  refine ⟨?_, ?_, ?_, ?_, ?_⟩
  · intro f v hf hv
    obtain ⟨g, hg⟩ := openOuterUniversal_isSome hf hv
    exact ⟨g, hg, forAll_of_openOuterUniversal hg, g.wellScoped,
      fun _ => mem_freeVariables_openOuterUniversal hg⟩
  · intro f v w hw
    exact openOuterUniversal_forAll hw
  · intro vars f hvars
    exact ⟨forAllMany_eq_foldr hvars f, (forAllMany vars f).wellScoped,
      fun _ => mem_freeVariables_forAllMany_iff hvars⟩
  · intro f v
    exact ⟨(forAll v f).wellScoped, fun _ => mem_freeVariables_forAll⟩
  · intro f v w
    exact ⟨(f.substituteFree v w).wellScoped, fun _ => mem_freeVariables_substituteFree⟩

/-- `∀x. x = y` opened with `z`, and bound again. -/
theorem binders_exact_equal :
    let f := equal ⟨0⟩ ⟨1⟩
    (forAll ⟨0⟩ f).openOuterUniversal ⟨2⟩ = some (equal ⟨2⟩ ⟨1⟩) ∧
      forAllMany [⟨0⟩, ⟨1⟩] f = forAll ⟨0⟩ (forAll ⟨1⟩ f) := by
  intro f
  have hw : (⟨2⟩ : FreeVariable) ∉ (forAll ⟨0⟩ f).freeVariables := by
    rw [mem_freeVariables_forAll, mem_freeVariables]
    decide
  obtain ⟨-, hopen, hmany, -⟩ := binders_exact
  exact ⟨hopen f ⟨0⟩ ⟨2⟩ hw, (hmany [⟨0⟩, ⟨1⟩] f (by decide)).1⟩

end Formula
end Naome
