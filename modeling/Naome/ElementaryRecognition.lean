import Naome.ElementaryPlan
import Naome.PlanDerivation
import Naome.QuestionFeatures

/-!
# Recognized schemas

What the recognizer of elementary theorems returns is a step that concludes the formula, and every
instance of a schema is recognized. Instances stay instances when their variables are renamed.
-/
namespace Naome.Question.Elementary
open LocallyNameless Effect Formula

theorem freshFrom_eq_some {vars : Std.TreeSet FreeVariable} {start n : ℕ} {v : FreeVariable}
    (h : freshFrom vars start n = some v) : v ∉ vars := by
  induction n generalizing start with
  | zero => cases h
  | succ n ih =>
    unfold freshFrom at h
    split_ifs at h with hmem
    · exact ih h
    · cases h
      exact fun hv => hmem (Std.TreeSet.mem_iff_contains.mp hv)

theorem freshFrom_eq_none {vars : Std.TreeSet FreeVariable} {start n : ℕ}
    (h : freshFrom vars start n = none) :
    ∀ i ∈ List.range' start n, (⟨.ofNat i⟩ : FreeVariable) ∈ vars := by
  induction n generalizing start with
  | zero => simp
  | succ n ih =>
    unfold freshFrom at h
    split_ifs at h with hmem
    intro i hi
    rcases List.mem_cons.mp (List.range'_succ ▸ hi) with rfl | hi
    · exact Std.TreeSet.mem_iff_contains.mpr hmem
    · exact ih h i hi

/-- Fewer variables than identifiers leave one unused. -/
theorem exists_fresh {f : Formula} {start : ℕ} (h : f.node.occurrences.length + start < 2 ^ 32) :
    ∃ v, fresh f start = some v ∧ v ∉ f.freeVariables := by
  cases hfresh : fresh f start with
  | some v => exact ⟨v, rfl, freshFrom_eq_some hfresh⟩
  | none =>
    exfalso
    have hmem := freshFrom_eq_none hfresh
    let identifiers : List FreeVariable :=
      (List.range' start (2 ^ 32 - start)).map fun i => ⟨.ofNat i⟩
    have hnodup : identifiers.Nodup := by
      refine List.Nodup.map_on ?_ List.nodup_range'
      intro i hi j hj heq
      have hi := (List.mem_range'_1.mp hi).2
      have hj := (List.mem_range'_1.mp hj).2
      have hnat := congrArg (fun v : FreeVariable => v.identifier.toNat) heq
      simp only [UInt32.toNat_ofNat'] at hnat
      omega
    have hsubset : identifiers ⊆ f.node.occurrences := by
      intro v hv
      obtain ⟨i, hi, rfl⟩ := List.mem_map.mp hv
      exact mem_freeVariables.mp (hmem i hi)
    have hle := (hnodup.subperm hsubset).length_le
    simp only [identifiers, List.length_map, List.length_range'] at hle
    omega

variable {ctx : ContextView} {f left right body : Formula} {step : ProofStep} {v : FreeVariable}

/-- The step refers to no earlier one and concludes the formula. -/
def DerivesAlone (ctx : ContextView) (step : ProofStep) (f : Formula) : Prop :=
  step.references = [] ∧ Checker.deriveAxiom ctx 0 step = .ok f

theorem negated_eq_some {a b : Formula} : a.negated = some b ↔ a = b.negate := by
  obtain ⟨n, hn⟩ := a
  constructor
  · intro h
    cases n <;> simp only [negated, reduceCtorEq, Option.some.injEq] at h
    subst h
    rfl
  · intro h
    cases h
    rfl

theorem equalityVariables_eq_some {a : Formula} {v w : FreeVariable} :
    a.equalityVariables = some (v, w) ↔ a = equal v w := by
  obtain ⟨n, hn⟩ := a
  constructor
  · intro h
    unfold equalityVariables at h
    split at h
    · cases h
      simp_all [equal]
    · cases h
  · intro h
    cases h
    rfl

theorem matchSimplification_yields (h : matchSimplification left right = some step) :
    DerivesAlone ctx step (left.implies right) := by
  unfold matchSimplification at h
  simp only [Option.bind_eq_bind, Option.bind_eq_some_iff, Prod.exists, implicationParts_eq_some,
    Option.ite_none_right_eq_some, Option.some.injEq] at h
  obtain ⟨second, _, rfl, rfl, rfl⟩ := h
  exact ⟨rfl, rfl⟩

theorem matchFrege_yields (h : matchFrege left right = some step) :
    DerivesAlone ctx step (left.implies right) := by
  unfold matchFrege at h
  simp only [Option.bind_eq_bind, Option.bind_eq_some_iff, Prod.exists, implicationParts_eq_some,
    Option.ite_none_right_eq_some, Option.some.injEq] at h
  obtain ⟨a, _, rfl, b, c, rfl, _, _, rfl, ⟨rfl, rfl⟩, rfl⟩ := h
  exact ⟨rfl, rfl⟩

theorem matchContraposition_yields (h : matchContraposition left right = some step) :
    DerivesAlone ctx step (left.implies right) := by
  unfold matchContraposition at h
  simp only [Option.bind_eq_bind, Option.bind_eq_some_iff, Prod.exists, implicationParts_eq_some,
    Option.ite_none_right_eq_some, Option.some.injEq, negated_eq_some] at h
  obtain ⟨_, _, rfl, a, b, rfl, ⟨rfl, rfl⟩, rfl⟩ := h
  exact ⟨rfl, rfl⟩

theorem matchSubstitution_yields (h : matchSubstitution left right = some step) :
    DerivesAlone ctx step (left.implies right) := by
  unfold matchSubstitution at h
  simp only [Option.bind_eq_bind, Option.bind_eq_some_iff, Prod.exists, implicationParts_eq_some,
    Option.ite_none_right_eq_some, Option.some.injEq, equalityVariables_eq_some] at h
  obtain ⟨source, target, rfl, body, _, rfl, rfl, rfl⟩ := h
  exact ⟨rfl, rfl⟩

theorem matchPropositional_yields (h : matchPropositional left right = some step) :
    DerivesAlone ctx step (left.implies right) := by
  unfold matchPropositional at h
  simp only [Option.orElse_eq_orElse, Option.orElse_eq_or, Option.or_eq_some_iff] at h
  rcases h with h | ⟨-, h | ⟨-, h | ⟨-, h⟩⟩⟩
  · exact matchSimplification_yields h
  · exact matchFrege_yields h
  · exact matchContraposition_yields h
  · exact matchSubstitution_yields h

/-- A binder without occurrences. -/
theorem forAll_of_notMem (hv : v ∉ f.freeVariables) : forAll v f = f.vacuousForAll := by
  apply Formula.ext
  change Node.forAll _ = Node.forAll _
  rw [Node.bindFree_of_none]
  intro u hu
  refine bindOne_of_ne ?_
  rintro rfl
  exact hv (mem_freeVariables.mpr hu)

theorem matchVacuous_yields (hv : v ∉ right.freeVariables) (hv' : v ∉ left.freeVariables)
    (h : matchVacuous left right v = some step) : DerivesAlone ctx step (left.implies right) := by
  unfold matchVacuous at h
  simp only [Option.bind_eq_bind, Option.bind_eq_some_iff, Option.ite_none_right_eq_some,
    Option.some.injEq] at h
  obtain ⟨_, hopen, rfl, rfl⟩ := h
  have hright := forAll_of_openOuterUniversal hopen
  rw [forAll_of_notMem hv'] at hright
  subst hright
  exact ⟨rfl, rfl⟩

theorem matchDistribution_yields (h : matchDistribution f v body = some step) :
    DerivesAlone ctx step f := by
  unfold matchDistribution at h
  simp only [Option.bind_eq_bind, Option.bind_eq_some_iff, Prod.exists, implicationParts_eq_some,
    Option.ite_none_right_eq_some, Option.some.injEq] at h
  obtain ⟨_, _, rfl, rfl, rfl⟩ := h
  exact ⟨rfl, rfl⟩

/-- `A → A` and the instances of the eight logical axiom schemas. -/
inductive Recognizable : Formula → Prop
  | identity (a : Formula) : Recognizable (a.implies a)
  | simplification (a b : Formula) : Recognizable (Logic.simplification a b)
  | frege (a b c : Formula) : Recognizable (Logic.frege a b c)
  | contraposition (a b : Formula) : Recognizable (Logic.classicalContraposition a b)
  | distribution (v : FreeVariable) (a b : Formula) :
    Recognizable (Logic.universalDistribution v a b)
  | vacuous (a : Formula) : Recognizable (Logic.vacuousUniversal a)
  | instantiation (v w : FreeVariable) (a : Formula) :
    Recognizable (Logic.universalInstantiation v w a)
  | reflexivity (v : FreeVariable) : Recognizable (Logic.equalityReflexivity v)
  | substitution (v w : FreeVariable) (a : Formula) :
    Recognizable (Logic.equalitySubstitution v w a)

theorem Recognizable.rename {g : FreeVariable → FreeVariable} (hg : Function.Injective g)
    (h : Recognizable f) : Recognizable (f.mapFreeVariables g) := by
  cases h with
  | identity a => exact .identity (a.mapFreeVariables g)
  | simplification a b => exact .simplification (a.mapFreeVariables g) (b.mapFreeVariables g)
  | frege a b c => exact .frege (a.mapFreeVariables g) (b.mapFreeVariables g) (c.mapFreeVariables g)
  | contraposition a b => exact .contraposition (a.mapFreeVariables g) (b.mapFreeVariables g)
  | distribution v a b =>
    have hmap : (Logic.universalDistribution v a b).mapFreeVariables g =
        Logic.universalDistribution (g v) (a.mapFreeVariables g) (b.mapFreeVariables g) := by
      change implies ((forAll v (a.implies b)).mapFreeVariables g)
        (implies ((forAll v a).mapFreeVariables g) ((forAll v b).mapFreeVariables g)) = _
      simp only [mapFreeVariables_forAll hg]
      rfl
    rw [hmap]
    exact .distribution _ _ _
  | vacuous a => exact .vacuous (a.mapFreeVariables g)
  | instantiation v w a =>
    have hmap : (Logic.universalInstantiation v w a).mapFreeVariables g =
        Logic.universalInstantiation (g v) (g w) (a.mapFreeVariables g) := by
      change implies ((forAll v a).mapFreeVariables g)
        ((a.substituteFree v w).mapFreeVariables g) = _
      rw [mapFreeVariables_forAll hg, mapFreeVariables_substituteFree hg]
      rfl
    rw [hmap]
    exact .instantiation _ _ _
  | reflexivity v => exact .reflexivity (g v)
  | substitution v w a =>
    have hmap : (Logic.equalitySubstitution v w a).mapFreeVariables g =
        Logic.equalitySubstitution (g v) (g w) (a.mapFreeVariables g) := by
      change implies ((equal v w).mapFreeVariables g)
        (implies (a.mapFreeVariables g) ((a.substituteFree v w).mapFreeVariables g)) = _
      rw [mapFreeVariables_substituteFree hg]
      rfl
    rw [hmap]
    exact .substitution _ _ _

theorem mapFreeVariables_congr {g g' : FreeVariable → FreeVariable}
    (h : ∀ u ∈ f.node.occurrences, g u = g' u) : f.mapFreeVariables g = f.mapFreeVariables g' :=
  Formula.ext (Node.mapFree_congr h)

/-- A binder that is opened with a variable that does not occur. -/
theorem substituteFree_eq_swap {w : FreeVariable} (hw : w ∉ (forAll v f).freeVariables) :
    f.substituteFree v w = f.mapFreeVariables (Equiv.swap v w) := by
  rw [substituteFree_eq_map]
  apply mapFreeVariables_congr
  intro u hu
  unfold substitution
  split_ifs with huv
  · rw [huv, Equiv.swap_apply_left]
  · have huw : u ≠ w := by
      rintro rfl
      exact hw (mem_freeVariables_forAll.mpr ⟨mem_freeVariables.mpr hu, huv⟩)
    rw [Equiv.swap_apply_of_ne_of_ne huv huw]

theorem substituteFree_substituteFree {w u : FreeVariable} (hw : w ∉ (forAll v f).freeVariables) :
    (f.substituteFree v w).substituteFree w u = f.substituteFree v u := by
  simp only [substituteFree_eq_map]
  apply Formula.ext
  refine (Node.mapFree_mapFree _ _ f.node).trans (Node.mapFree_congr ?_)
  intro x hx
  simp only [Function.comp_apply, substitution]
  by_cases hxv : x = v
  · simp [hxv]
  · have hxw : x ≠ w := by
      rintro rfl
      exact hw (mem_freeVariables_forAll.mpr ⟨mem_freeVariables.mpr hx, hxv⟩)
    simp [hxv, hxw]

theorem substituteFree_of_notMem {w : FreeVariable} (hv : v ∉ f.freeVariables) :
    f.substituteFree v w = f := by
  rw [substituteFree_eq_map]
  refine (mapFreeVariables_congr fun u hu => if_neg ?_).trans
    (Formula.ext (Node.mapFree_id f.node))
  rintro rfl
  exact hv (mem_freeVariables.mpr hu)

theorem notMem_implies {a b : Formula} (h : v ∉ (a.implies b).freeVariables) :
    v ∉ a.freeVariables ∧ v ∉ b.freeVariables := by
  simp only [mem_freeVariables, implies, Node.occurrences, List.mem_append, not_or] at h ⊢
  exact h

theorem openOuterUniversal_vacuous (hv : v ∉ f.freeVariables) :
    f.vacuousForAll.openOuterUniversal v = some f := by
  rw [← forAll_of_notMem hv, openOuterUniversal_forAll fun h => hv (mem_freeVariables_forAll.mp h).1,
    substituteFree, if_pos rfl]

theorem settles_canonicalLength (f : Formula) :
    (canonicalLength f).Settles Work.amounts Work.limit f.WithinLimits f.canonicalBytes.length := by
  apply Settles.bind (a := f.canonicalBytes)
  · refine Draft.settles_ofExcept (fun bytes hbytes => ?_) (fun stop hstop => ?_) fun hfits => ?_
    · exact (encodeCanonical_eq_ok.mp (Outcome.mapError_eq_ok.mp hbytes)).2
    · cases hencoded : f.encodeCanonical with
      | ok bytes =>
        rw [hencoded] at hstop
        cases hstop
      | error e =>
        rw [hencoded] at hstop
        cases hstop
        rfl
    · exact Outcome.mapError_eq_ok.mpr (encodeCanonical_eq_ok.mpr ⟨hfits, rfl⟩)
  · exact settles_pure _ _ _

theorem settles_matchInstantiation (length : ℕ) (right : Formula) (v : FreeVariable)
    (body : Formula) (candidates : List FreeVariable) (fits : Prop) :
    ∃ r, (matchInstantiation length right v body candidates).Settles Work.amounts Work.limit fits r ∧
      (∀ step ∈ r, DerivesAlone ctx step ((forAll v body).implies right)) ∧
      ∀ w ∈ candidates, body.substituteFree v w = right → r.isSome = true := by
  induction candidates with
  | nil => exact ⟨none, settles_pure _ _ _, by simp, by simp⟩
  | cons w rest ih =>
    obtain ⟨r, hr, hyields, hfinds⟩ := ih
    by_cases hw : body.substituteFree v w = right
    · refine ⟨some (.universalInstantiation v w (.primitive body)), ?_, ?_, fun _ _ _ => rfl⟩
      · unfold matchInstantiation
        apply Settles.bind (Work.settles_formula _ _ _)
        rw [if_pos hw]
        exact settles_pure _ _ _
      · intro step hstep
        cases hstep
        subst hw
        exact ⟨rfl, rfl⟩
    · refine ⟨r, ?_, hyields, fun u hu hbody => ?_⟩
      · unfold matchInstantiation
        apply Settles.bind (Work.settles_formula _ _ _)
        rw [if_neg hw]
        exact hr
      · rcases List.mem_cons.mp hu with rfl | hu
        · exact absurd hbody hw
        · exact hfinds u hu hbody

/-- Some candidate gives the instance of a binder back. -/
theorem exists_replacement {w u : FreeVariable} {a : Formula}
    (hv : v ∉ ((forAll u a).implies (a.substituteFree u w)).freeVariables) :
    ∃ r ∈ (((forAll u a).implies (a.substituteFree u w)).freeVariables.insert v).toList,
      (a.substituteFree u v).substituteFree v r = a.substituteFree u w := by
  have hleft := (notMem_implies hv).1
  by_cases hu : u ∈ a.freeVariables
  · refine ⟨w, ?_, substituteFree_substituteFree hleft⟩
    apply Std.TreeSet.mem_toList.mpr
    apply Std.TreeSet.mem_insert.mpr
    right
    exact freeVariables_implies.mpr (.inr (mem_freeVariables_substituteFree.mpr (.inr ⟨rfl, hu⟩)))
  · refine ⟨v, ?_, ?_⟩
    · exact Std.TreeSet.mem_toList.mpr (Std.TreeSet.mem_insert.mpr (.inl Std.ReflCmp.compare_self))
    · rw [substituteFree_substituteFree hleft, substituteFree_of_notMem hu, substituteFree_of_notMem hu]

theorem settles_matchOpened (hw : (left.implies right).WithinLimits)
    (hv : v ∉ (left.implies right).freeVariables) (fits : Prop) :
    ∃ r, (matchOpened (left.implies right) left right v).Settles Work.amounts Work.limit fits r ∧
      (∀ step ∈ r, DerivesAlone ctx step (left.implies right)) ∧
      ((∃ u w a, left = forAll u a ∧ right = a.substituteFree u w) ∨
        (∃ u a b, left = forAll u (a.implies b) ∧ right = (forAll u a).implies (forAll u b)) →
          r.isSome = true) := by
  have hleft := (notMem_implies hv).1
  unfold matchOpened
  cases hopen : left.openOuterUniversal v with
  | none =>
    refine ⟨none, settles_pure _ _ _, by simp, ?_⟩
    have hforAll : ∀ u a, left ≠ forAll u a := by
      rintro u a rfl
      rw [openOuterUniversal_forAll hleft] at hopen
      cases hopen
    rintro (⟨u, _, a, hforall, -⟩ | ⟨u, a, b, hforall, -⟩)
    · exact absurd hforall (hforAll u a)
    · exact absurd hforall (hforAll u (a.implies b))
  | some body =>
    have hbody : forAll v body = left := forAll_of_openOuterUniversal hopen
    obtain ⟨r, hr, hyields, hfinds⟩ := @settles_matchInstantiation ctx
      (left.implies right).canonicalBytes.length right v body
      ((left.implies right).freeVariables.insert v).toList fits
    rw [hbody] at hyields
    have hlength := (settles_canonicalLength (left.implies right)).mono fun _ : fits => hw
    cases r with
    | some step =>
      refine ⟨some step, ?_, hyields, fun _ => rfl⟩
      exact Settles.bind hlength (Settles.bind hr (settles_pure _ _ _))
    | none =>
      refine ⟨matchDistribution (left.implies right) v body, ?_, ?_, ?_⟩
      · exact Settles.bind hlength (Settles.bind hr (settles_pure _ _ _))
      · exact fun step hstep => matchDistribution_yields hstep
      · rintro (⟨u, w, a, rfl, rfl⟩ | ⟨u, a, b, rfl, rfl⟩)
        · obtain ⟨replacement, hmem, hreplace⟩ := exists_replacement hv
          rw [openOuterUniversal_forAll hleft] at hopen
          cases hopen
          cases hfinds replacement hmem hreplace
        · rw [openOuterUniversal_forAll hleft] at hopen
          obtain ⟨hv₁, hv₂⟩ := notMem_implies (notMem_implies hv).2
          have ha := forAll_of_openOuterUniversal (openOuterUniversal_forAll hv₁)
          have hb := forAll_of_openOuterUniversal (openOuterUniversal_forAll hv₂)
          have hparts : body = (a.substituteFree u v).implies (b.substituteFree u v) := by
            rw [← Option.some.inj hopen]
            simp only [substituteFree_eq_map]
            rfl
          have hformula : Logic.universalDistribution v (a.substituteFree u v)
              (b.substituteFree u v) =
              (forAll u (a.implies b)).implies ((forAll u a).implies (forAll u b)) := by
            change implies (forAll v ((a.substituteFree u v).implies (b.substituteFree u v)))
              (implies (forAll v (a.substituteFree u v)) (forAll v (b.substituteFree u v))) = _
            rw [← hparts, hbody, ha, hb]
          unfold matchDistribution
          rw [hparts]
          simp [hformula]

theorem implies_inj {a b a' b' : Formula} : a.implies b = a'.implies b' ↔ a = a' ∧ b = b' := by
  rw [← implicationParts_eq_some, implicationParts_implies, Option.some.injEq, Prod.mk.injEq]

theorem matchPropositional_isSome
    (h : (matchSimplification left right).isSome = true ∨ (matchFrege left right).isSome = true ∨
      (matchContraposition left right).isSome = true ∨
      (matchSubstitution left right).isSome = true) :
    (matchPropositional left right).isSome = true := by
  unfold matchPropositional
  simpa [Option.isSome_or] using h

/-- An instance other than `A → A` has the form that one of the recognizers looks for. -/
theorem form_of_recognizable (h : Recognizable (left.implies right)) (hne : left ≠ right) :
    (matchPropositional left right).isSome = true ∨ right = left.vacuousForAll ∨
      (∃ u w a, left = forAll u a ∧ right = a.substituteFree u w) ∨
        ∃ u a b, left = forAll u (a.implies b) ∧ right = (forAll u a).implies (forAll u b) := by
  generalize hf : left.implies right = f at h
  cases h with
  | identity a =>
    obtain ⟨rfl, rfl⟩ := implies_inj.1 hf
    exact absurd rfl hne
  | simplification a b =>
    have hform : left.implies right = a.implies (b.implies a) := hf
    obtain ⟨rfl, rfl⟩ := implies_inj.1 hform
    refine .inl (matchPropositional_isSome (.inl ?_))
    simp [matchSimplification]
  | frege a b c =>
    have hform : left.implies right =
      (a.implies (b.implies c)).implies ((a.implies b).implies (a.implies c)) := hf
    obtain ⟨rfl, rfl⟩ := implies_inj.1 hform
    refine .inl (matchPropositional_isSome (.inr (.inl ?_)))
    simp [matchFrege]
  | contraposition a b =>
    have hform : left.implies right = (b.negate.implies a.negate).implies (a.implies b) := hf
    obtain ⟨rfl, rfl⟩ := implies_inj.1 hform
    refine .inl (matchPropositional_isSome (.inr (.inr (.inl ?_))))
    simp [matchContraposition, negated_eq_some]
  | distribution u a b =>
    have hform : left.implies right =
      (forAll u (a.implies b)).implies ((forAll u a).implies (forAll u b)) := hf
    obtain ⟨rfl, rfl⟩ := implies_inj.1 hform
    exact .inr (.inr (.inr ⟨u, a, b, rfl, rfl⟩))
  | vacuous a =>
    have hform : left.implies right = a.implies a.vacuousForAll := hf
    obtain ⟨rfl, rfl⟩ := implies_inj.1 hform
    exact .inr (.inl rfl)
  | instantiation u w a =>
    have hform : left.implies right = (forAll u a).implies (a.substituteFree u w) := hf
    obtain ⟨rfl, rfl⟩ := implies_inj.1 hform
    exact .inr (.inr (.inl ⟨u, w, a, rfl, rfl⟩))
  | reflexivity u =>
    have hparts := congrArg implicationParts hf
    cases hparts
  | substitution u w a =>
    have hform : left.implies right = (equal u w).implies (a.implies (a.substituteFree u w)) := hf
    obtain ⟨rfl, rfl⟩ := implies_inj.1 hform
    refine .inl (matchPropositional_isSome (.inr (.inr (.inr ?_))))
    have hvariables : (equal u w).equalityVariables = some (u, w) := rfl
    simp [matchSubstitution, hvariables]

theorem exists_fresh_of_withinLimits {start : ℕ} (hw : f.WithinLimits) (hstart : start ≤ 32) :
    ∃ v, fresh f start = some v ∧ v ∉ f.freeVariables := by
  apply exists_fresh
  have hlength := length_canonicalBytes_le hw
  have hoccurrences := (ProofFormula.primitive f).four_mul_length_occurrences_le
  change 4 * f.node.embed.occurrences.length ≤ f.canonicalBytes.length at hoccurrences
  rw [Node.occurrences_embed] at hoccurrences
  unfold formulaMaxBytes at hlength
  omega

theorem settles_axiomInstance (hw : (left.implies right).WithinLimits) (fits : Prop) :
    ∃ r, (axiomInstance (left.implies right)).Settles Work.amounts Work.limit fits r ∧
      (∀ step ∈ r, DerivesAlone ctx step (left.implies right)) ∧
      (Recognizable (left.implies right) → left ≠ right → r.isSome = true) := by
  unfold axiomInstance
  rw [implicationParts_implies]
  dsimp only
  cases hpropositional : matchPropositional left right with
  | some step =>
    refine ⟨some step, settles_pure _ _ _, fun step' hstep => ?_, fun _ _ => rfl⟩
    cases hstep
    exact matchPropositional_yields hpropositional
  | none =>
    obtain ⟨v, hfresh, hv⟩ := exists_fresh_of_withinLimits hw (Nat.zero_le 32)
    obtain ⟨hleft, hright⟩ := notMem_implies hv
    have hthrow : (orThrow .panic (fresh (left.implies right) 0) : WorkM FreeVariable).Settles
      Work.amounts Work.limit fits v := settles_orThrow hfresh
    cases hvacuous : matchVacuous left right v with
    | some step =>
      refine ⟨some step, Settles.bind hthrow ?_, fun step' hstep => ?_, fun _ _ => rfl⟩
      · rw [hvacuous]
        exact settles_pure _ _ _
      · cases hstep
        exact matchVacuous_yields hright hleft hvacuous
    | none =>
      obtain ⟨r, hr, hyields, hfinds⟩ := @settles_matchOpened ctx left right v hw hv fits
      refine ⟨r, Settles.bind hthrow ?_, hyields, fun hrecognizable hne => ?_⟩
      · rw [hvacuous]
        exact hr
      · rcases form_of_recognizable hrecognizable hne with hform | rfl | hform
        · rw [hpropositional] at hform
          cases hform
        · unfold matchVacuous at hvacuous
          rw [openOuterUniversal_vacuous hleft] at hvacuous
          simp at hvacuous
        · exact hfinds hform

end Naome.Question.Elementary
