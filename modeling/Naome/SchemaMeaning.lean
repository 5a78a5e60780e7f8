import Naome.Zfc

/-!
# What the schema instances say

The parameters of an instance are bound together, by index arithmetic over the whole list. A
structure satisfies an instance exactly when it has the sets that Separation or Replacement asks
for, whatever the values of the parameters and of the source.
-/
namespace Naome
open LocallyNameless Outcome

namespace Formula

theorem foldl_insertBinder_of_notMem {total : ℕ} {ps : List (FreeVariable × ℕ)}
    {binders : FreeVariable → Option ℕ} {v : FreeVariable} (h : v ∉ ps.map Prod.fst) :
    ps.foldl (insertBinder total) binders v = binders v := by
  induction ps generalizing binders with
  | nil => rfl
  | cons p ps ih =>
    rw [List.map_cons, List.mem_cons, not_or] at h
    rw [List.foldl_cons, ih h.2, insertBinder, Function.update_of_ne h.1]

theorem foldl_insertBinder_of_mem {total : ℕ} {ps : List (FreeVariable × ℕ)}
    {binders : FreeVariable → Option ℕ} (hps : (ps.map Prod.fst).Nodup) {v : FreeVariable} {i : ℕ}
    (h : (v, i) ∈ ps) : ps.foldl (insertBinder total) binders v = some (total - i - 1) := by
  induction ps generalizing binders with
  | nil => cases h
  | cons p ps ih =>
    rw [List.map_cons, List.nodup_cons] at hps
    rw [List.foldl_cons]
    rcases List.mem_cons.mp h with heq | hmem
    · subst heq
      rw [foldl_insertBinder_of_notMem hps.1, insertBinder, Function.update_self]
    · exact ih hps.2 hmem

theorem binderIndices_of_notMem {vars : List FreeVariable} {v : FreeVariable} (h : v ∉ vars) :
    binderIndices vars v = none := by
  apply foldl_insertBinder_of_notMem
  rwa [List.zipIdx_map_fst]

theorem binderIndices_getElem {vars : List FreeVariable} (hvars : vars.Nodup) {i : ℕ}
    (h : i < vars.length) : binderIndices vars vars[i] = some (vars.length - i - 1) := by
  apply foldl_insertBinder_of_mem
  · rwa [List.zipIdx_map_fst]
  · rw [List.mem_zipIdx_iff_getElem?, List.getElem?_eq_getElem h]

variable {M : Type*} {E : M → M → Prop} {ρ : FreeVariable → M}

/-- Nameless binders range over the first values of the environment. -/
theorem holds_wrapForAll {R : Empty → List M → Prop} (k : ℕ) (n : PrimitiveNode) (env : ℕ → M) :
    (wrapForAll k n).Holds E R ρ env ↔
      ∀ env' : ℕ → M, (∀ i, env' (i + k) = env i) → n.Holds E R ρ env' := by
  induction k generalizing n with
  | zero =>
    constructor
    · intro h env' henv
      have heq : env' = env := funext henv
      rw [heq]
      exact h
    · intro h
      exact h env fun _ => rfl
  | succ k ih =>
    rw [wrapForAll, ih]
    constructor
    · intro h env' henv
      have heq : push (env' 0) (fun i => env' (i + 1)) = env' := by
        funext i
        cases i <;> rfl
      rw [← heq]
      exact h (fun i => env' (i + 1)) (fun i => henv i) (env' 0)
    · intro h env' henv a
      exact h (push a env') fun i => henv i

/-- A list of distinct variables is bound at once: the body holds under every assignment that
differs on the listed variables only. -/
theorem holds_forAllMany {vars : List FreeVariable} (hvars : vars.Nodup) {body : Formula} :
    (forAllMany vars body).Holds E ρ ↔
      ∀ σ : FreeVariable → M, (∀ v, v ∉ vars → σ v = ρ v) → body.Holds E σ := by
  unfold forAllMany
  rw [Holds, holds_wrapForAll]
  simp only [Node.holds_bindFree, holds_of_env]
  constructor
  · intro h σ hσ
    let env : ℕ → M := fun j =>
      if hj : j < vars.length then σ (vars[vars.length - j - 1]) else ρ ⟨0⟩
    have hbody := h env (fun i => by simp [env])
    refine (holds_congr fun v _ => ?_).mp hbody
    unfold bindValue
    by_cases hv : v ∈ vars
    · obtain ⟨i, hi, rfl⟩ := List.getElem_of_mem hv
      rw [binderIndices_getElem hvars hi]
      have hj : vars.length - i - 1 < vars.length := by omega
      have hback : vars.length - (vars.length - i - 1) - 1 = i := by omega
      simp only [env, Nat.add_zero, dif_pos hj, hback]
    · rw [binderIndices_of_notMem hv, hσ v hv]
  · intro h env henv
    apply h
    intro v hv
    unfold bindValue
    rw [binderIndices_of_notMem hv]

theorem mem_freeVariables_forAllMany {vars : List FreeVariable} (hvars : vars.Nodup) {body : Formula}
    {v : FreeVariable} (h : v ∈ (forAllMany vars body).freeVariables) :
    v ∈ body.freeVariables ∧ v ∉ vars := by
  have hwrap : ∀ (k : ℕ) (n : PrimitiveNode), (wrapForAll k n).occurrences = n.occurrences := by
    intro k
    induction k with
    | zero => exact fun _ => rfl
    | succ k ih => exact fun n => (ih (.forAll n)).trans rfl
  rw [mem_freeVariables, forAllMany, hwrap, Node.mem_occurrences_bindFree] at h
  refine ⟨mem_freeVariables.mpr h.1, fun hv => ?_⟩
  obtain ⟨i, hi, rfl⟩ := List.getElem_of_mem hv
  rw [binderIndices_getElem hvars hi] at h
  simp at h

theorem freeVariables_negate {f : Formula} {v : FreeVariable} :
    v ∈ f.negate.freeVariables ↔ v ∈ f.freeVariables := by
  simp only [mem_freeVariables, negate, Node.occurrences]

theorem freeVariables_implies {f g : Formula} {v : FreeVariable} :
    v ∈ (implies f g).freeVariables ↔ v ∈ f.freeVariables ∨ v ∈ g.freeVariables := by
  simp only [mem_freeVariables, implies, Node.occurrences, List.mem_append]

theorem freeVariables_member {a b v : FreeVariable} :
    v ∈ (member a b).freeVariables ↔ v = a ∨ v = b := by
  simp [mem_freeVariables, member, Node.occurrences, Variable.occurrences]

theorem freeVariables_equal {a b v : FreeVariable} :
    v ∈ (equal a b).freeVariables ↔ v = a ∨ v = b := by
  simp [mem_freeVariables, equal, Node.occurrences, Variable.occurrences]

theorem freeVariables_substituteFree {source target : FreeVariable} {f : Formula} {v : FreeVariable}
    (h : v ∈ (f.substituteFree source target).freeVariables) :
    v = target ∨ v ∈ f.freeVariables := by
  rw [substituteFree_eq_map, mem_freeVariables, mapFreeVariables, Node.occurrences_mapFree,
    List.mem_map] at h
  obtain ⟨w, hw, rfl⟩ := h
  unfold substitution
  split_ifs with heq
  · exact .inl rfl
  · exact .inr (mem_freeVariables.mpr hw)

end Formula

section Meaning

variable {M : Type*} (E : M → M → Prop)

/-- The predicate of an instance at an element and a source. -/
def Separation.Selects (s : Separation) (values : FreeVariable → M) (source x : M) : Prop :=
  s.predicate.Holds E (Function.update (Function.update values s.source source) s.element x)

/-- Every source has a subset of the selected elements. -/
def Separation.Meaning (s : Separation) : Prop :=
  ∀ (values : FreeVariable → M) (source : M), ∃ result, ∀ x,
    E x result ↔ E x source ∧ s.Selects E values source x

/-- The predicate of an instance at an input, an output and a source. -/
def Replacement.Relates (r : Replacement) (values : FreeVariable → M) (source x y : M) : Prop :=
  r.predicate.Holds E (Function.update (Function.update (Function.update values r.source source)
    r.input x) r.output y)

/-- A source on which the predicate is a function has an image. -/
def Replacement.Meaning (r : Replacement) : Prop :=
  ∀ (values : FreeVariable → M) (source : M),
    (∀ x, E x source → ∃! y, r.Relates E values source x y) →
      ∃ result, ∀ y, E y result ↔ ∃ x, E x source ∧ r.Relates E values source x y

end Meaning

section Instances

open Formula Expression

variable {M : Type*} {E : M → M → Prop}

/-- Closing the parameters of a body without other free variables. -/
theorem models_closeParameters {parameters : List FreeVariable} (h : parameters.Nodup)
    {body : Formula} :
    (Zfc.closeParameters parameters body).Models E ↔ body.Models E := by
  unfold Models Zfc.closeParameters Zfc.closeForAll
  simp only [holds_forAllMany h]
  constructor
  · intro hclosed ρ
    exact hclosed ρ ρ fun _ _ => rfl
  · intro hbody _ σ _
    exact hbody σ

theorem isClosed_closeParameters {parameters : List FreeVariable} (h : parameters.Nodup)
    {body : Formula} (hbody : ∀ v ∈ body.freeVariables, v ∈ parameters) :
    (Zfc.closeParameters parameters body).isClosed = true := by
  rw [isClosed_iff_freeVariables]
  intro v hv
  obtain ⟨hfree, hnot⟩ := mem_freeVariables_forAllMany h hv
  exact hnot (hbody v hfree)

theorem separation_closed {s : Separation}
    (h : Zfc.SchemaConditions s.predicate [s.element, s.source, s.result] [s.element, s.source]
      [s.result] s.parameters) :
    ∀ v ∈ (Construction.separation s.predicate s.element s.source s.result).evaluate.freeVariables,
      v ∈ s.parameters := by
  intro v hv
  simp only [Construction.separation, Expression.existsOne, Expression.biconditional,
    Expression.conjunction, evaluate, mem_freeVariables_forAll, freeVariables_negate,
    freeVariables_implies, freeVariables_member] at hv
  have hdeclared := h.declared v
  simp only [List.mem_cons, List.not_mem_nil, or_false] at hdeclared
  tauto

theorem replacement_closed {r : Replacement}
    (h : Zfc.SchemaConditions r.predicate
      [r.input, r.output, r.uniquenessWitness, r.source, r.result] [r.input, r.output, r.source]
      [r.uniquenessWitness, r.result] r.parameters) :
    ∀ v ∈ (Construction.replacement r.predicate r.input r.output r.uniquenessWitness r.source
      r.result).evaluate.freeVariables, v ∈ r.parameters := by
  intro v hv
  have hsubstituted := @freeVariables_substituteFree r.output r.uniquenessWitness r.predicate v
  simp only [Construction.replacement, Expression.existsOne, Expression.biconditional,
    Expression.conjunction, evaluate, mem_freeVariables_forAll, freeVariables_negate,
    freeVariables_implies, freeVariables_member, freeVariables_equal] at hv
  have hdeclared := h.declared v
  simp only [List.mem_cons, List.not_mem_nil, or_false] at hdeclared
  tauto

theorem separation_holds {s : Separation}
    (h : Zfc.SchemaConditions s.predicate [s.element, s.source, s.result] [s.element, s.source]
      [s.result] s.parameters) (values : FreeVariable → M) :
    (Construction.separation s.predicate s.element s.source s.result).evaluate.Holds E values ↔
      ∀ source, ∃ result, ∀ x, E x result ↔ E x source ∧ s.Selects E values source x := by
  have hroles := h.roles_nodup
  simp only [List.nodup_cons, List.mem_cons, List.not_mem_nil, or_false, not_or,
    List.nodup_nil, and_true, not_false_eq_true] at hroles
  obtain ⟨⟨hes, her⟩, hsr⟩ := hroles
  have hformula : (Construction.separation s.predicate s.element s.source s.result).evaluate =
      Formula.forAll s.source (Formula.existsOne s.result (Formula.forAll s.element
        (Formula.biconditional (Formula.member s.element s.result)
          (Formula.conjunction (Formula.member s.element s.source) s.predicate)))) := rfl
  -- the result role is not free in the predicate
  have hpredicate : ∀ source result x, s.predicate.Holds E (Function.update (Function.update
      (Function.update values s.source source) s.result result) s.element x) ↔
        s.Selects E values source x := by
    intro source result x
    apply holds_congr
    intro v hv
    have hne : v ≠ s.result := by simpa using h.not_forbidden v hv
    by_cases he : v = s.element
    · subst he
      simp
    · rw [Function.update_of_ne he, Function.update_of_ne hne, Function.update_of_ne he]
  simp only [hformula, holds_forAll, holds_existsOne, holds_biconditional, holds_conjunction,
    holds_member, hpredicate, Function.update_self, Function.update_of_ne (Ne.symm hes),
    Function.update_of_ne (Ne.symm her), Function.update_of_ne hsr]

/-- Uniqueness of the output, as the instance says it with a second variable. -/
theorem replacement_unique {r : Replacement}
    (h : Zfc.SchemaConditions r.predicate
      [r.input, r.output, r.uniquenessWitness, r.source, r.result] [r.input, r.output, r.source]
      [r.uniquenessWitness, r.result] r.parameters) (σ : FreeVariable → M) :
    (Formula.existsOne r.output (Formula.conjunction r.predicate (Formula.forAll r.uniquenessWitness
      (Formula.implies (r.predicate.substituteFree r.output r.uniquenessWitness)
        (Formula.equal r.uniquenessWitness r.output))))).Holds E σ ↔
      ∃! y, r.predicate.Holds E (Function.update σ r.output y) := by
  have hwo : r.uniquenessWitness ≠ r.output := by
    have hroles := h.roles_nodup
    simp only [List.nodup_cons, List.mem_cons, not_or] at hroles
    exact Ne.symm hroles.2.1.1
  have hpredicate : ∀ y w, r.predicate.Holds E (Function.update (Function.update
      (Function.update σ r.output y) r.uniquenessWitness w) r.output w) ↔
        r.predicate.Holds E (Function.update σ r.output w) := by
    intro y w
    apply holds_congr
    intro v hv
    have hne : v ≠ r.uniquenessWitness := fun heq => h.not_forbidden v hv (by simp [heq])
    by_cases ho : v = r.output
    · subst ho
      simp
    · rw [Function.update_of_ne ho, Function.update_of_ne hne, Function.update_of_ne ho,
        Function.update_of_ne ho]
  simp only [holds_existsOne, holds_conjunction, holds_forAll, holds_implies, holds_substituteFree,
    holds_equal, Function.update_self, Function.update_of_ne hwo.symm, hpredicate, ExistsUnique]

theorem replacement_holds {r : Replacement}
    (h : Zfc.SchemaConditions r.predicate
      [r.input, r.output, r.uniquenessWitness, r.source, r.result] [r.input, r.output, r.source]
      [r.uniquenessWitness, r.result] r.parameters) (values : FreeVariable → M) :
    (Construction.replacement r.predicate r.input r.output r.uniquenessWitness r.source
      r.result).evaluate.Holds E values ↔
      ∀ source, (∀ x, E x source → ∃! y, r.Relates E values source x y) →
        ∃ result, ∀ y, E y result ↔ ∃ x, E x source ∧ r.Relates E values source x y := by
  have hroles := h.roles_nodup
  simp only [List.nodup_cons, List.mem_cons, List.not_mem_nil, or_false, not_or,
    List.nodup_nil, and_true, not_false_eq_true] at hroles
  obtain ⟨⟨hio, -, his, hir⟩, ⟨-, hos, hor⟩, -, hsr⟩ := hroles
  have hformula : (Construction.replacement r.predicate r.input r.output r.uniquenessWitness
      r.source r.result).evaluate = Formula.forAll r.source (Formula.implies
        (Formula.forAll r.input (Formula.implies (Formula.member r.input r.source)
          (Formula.existsOne r.output (Formula.conjunction r.predicate
            (Formula.forAll r.uniquenessWitness (Formula.implies
              (r.predicate.substituteFree r.output r.uniquenessWitness)
              (Formula.equal r.uniquenessWitness r.output)))))))
        (Formula.existsOne r.result (Formula.forAll r.output (Formula.biconditional
          (Formula.member r.output r.result) (Formula.existsOne r.input
            (Formula.conjunction (Formula.member r.input r.source) r.predicate)))))) := rfl
  -- in the image the output is bound outside the input, and the result is not free
  have hpredicate : ∀ source result y x, r.predicate.Holds E (Function.update (Function.update
      (Function.update (Function.update values r.source source) r.result result) r.output y)
        r.input x) ↔ r.Relates E values source x y := by
    intro source result y x
    apply holds_congr
    intro v hv
    have hne : v ≠ r.result := fun heq => h.not_forbidden v hv (by simp [heq])
    rw [Function.update_comm hio]
    by_cases hi : v = r.input
    · subst hi
      rw [Function.update_self, Function.update_self]
    · rw [Function.update_of_ne hi, Function.update_of_ne hi]
      by_cases ho : v = r.output
      · subst ho
        rw [Function.update_self, Function.update_self]
      · rw [Function.update_of_ne ho, Function.update_of_ne hne, Function.update_of_ne ho]
  simp only [hformula, holds_forAll, holds_implies, replacement_unique h, holds_existsOne,
    holds_biconditional, holds_conjunction, holds_member, hpredicate, Function.update_self,
    Function.update_of_ne (Ne.symm his), Function.update_of_ne (Ne.symm hos),
    Function.update_of_ne (Ne.symm hor), Function.update_of_ne hsr, Replacement.Relates]

/-- A schema instance is refused exactly when one of its side conditions fails. -/
theorem not_schemaConditions {predicate : Formula}
    {roles allowed forbidden parameters : List FreeVariable} :
    ¬ Zfc.SchemaConditions predicate roles allowed forbidden parameters ↔
      ¬ roles.Nodup ∨ ¬ parameters.Nodup ∨ (∃ p ∈ parameters, p ∈ roles) ∨
        ∃ v ∈ predicate.freeVariables, v ∈ forbidden ∨ (v ∉ allowed ∧ v ∉ parameters) := by
  constructor
  · intro h
    by_contra hnone
    push Not at hnone
    obtain ⟨hroles, hparameters, hfresh, hpredicate⟩ := hnone
    refine h ⟨hroles, hparameters, hfresh, fun v hv => (hpredicate v hv).1, fun v hv => ?_⟩
    by_cases hallowed : v ∈ allowed
    · exact .inl hallowed
    · exact .inr ((hpredicate v hv).2 hallowed)
  · intro hsome h
    rcases hsome with hroles | hparameters | ⟨p, hp, hrole⟩ | ⟨v, hv, hforbidden | ⟨hnot, hnot'⟩⟩
    · exact hroles h.roles_nodup
    · exact hparameters h.parameters_nodup
    · exact h.parameters_fresh p hp hrole
    · exact h.not_forbidden v hv hforbidden
    · exact (h.declared v hv).elim hnot hnot'

theorem exists_error_iff {x : Except SchemaError Formula} :
    (∃ e, x = .error e) ↔ ¬ ∃ f, x = .ok f := by
  cases x <;> simp

/-- Schema instances mean what they should: an instance is closed and true in a structure exactly
when the structure has the asked sets, and an instance is refused exactly when roles or parameters
coincide or the predicate has a free variable it may not have. -/
theorem schema_instances_mean (E : M → M → Prop) :
    (∀ s : Separation,
      (∀ f, s.formula = .ok f → f.isClosed = true ∧ (f.Models E ↔ s.Meaning E)) ∧
      ((∃ e, s.formula = .error e) ↔
        ¬ [s.element, s.source, s.result].Nodup ∨ ¬ s.parameters.Nodup ∨
        (∃ p ∈ s.parameters, p ∈ [s.element, s.source, s.result]) ∨
        ∃ v ∈ s.predicate.freeVariables, v ∈ [s.result] ∨
          (v ∉ [s.element, s.source] ∧ v ∉ s.parameters))) ∧
    ∀ r : Replacement,
      (∀ f, r.formula = .ok f → f.isClosed = true ∧ (f.Models E ↔ r.Meaning E)) ∧
      ((∃ e, r.formula = .error e) ↔
        ¬ [r.input, r.output, r.uniquenessWitness, r.source, r.result].Nodup ∨
        ¬ r.parameters.Nodup ∨
        (∃ p ∈ r.parameters, p ∈ [r.input, r.output, r.uniquenessWitness, r.source, r.result]) ∨
        ∃ v ∈ r.predicate.freeVariables, v ∈ [r.uniquenessWitness, r.result] ∨
          (v ∉ [r.input, r.output, r.source] ∧ v ∉ r.parameters)) := by
  constructor
  · intro s
    constructor
    · intro f hf
      obtain ⟨h, rfl⟩ := Separation.formula_eq_ok.mp hf
      refine ⟨isClosed_closeParameters h.parameters_nodup (separation_closed h), ?_⟩
      rw [models_closeParameters h.parameters_nodup]
      exact forall_congr' fun values => separation_holds h values
    · rw [exists_error_iff, ← not_schemaConditions]
      simp only [Separation.formula_eq_ok, exists_and_left, exists_eq, and_true]
  · intro r
    constructor
    · intro f hf
      obtain ⟨h, rfl⟩ := Replacement.formula_eq_ok.mp hf
      refine ⟨isClosed_closeParameters h.parameters_nodup (replacement_closed h), ?_⟩
      rw [models_closeParameters h.parameters_nodup]
      exact forall_congr' fun values => replacement_holds h values
    · rw [exists_error_iff, ← not_schemaConditions]
      simp only [Replacement.formula_eq_ok, exists_and_left, exists_eq, and_true]

end Instances

end Naome
