import Naome.ElementaryRecognition

/-!
# Elementary proofs

A plan for an elementary theorem derives it, and finishing it gives a certificate for every closed
theorem. `A → A`, the instances of the logical axiom schemas and their universal closures up to 32
binders get a plan unless a limit is exhausted.
-/
namespace Naome.Question.Elementary
open LocallyNameless Effect Formula Checker

variable {sizes : MemorySizes} {ctx : ContextView} {f : Formula}

theorem not_forAll_of_recognizable (h : Recognizable f) (v : FreeVariable) :
    f.openOuterUniversal v = none := by
  cases hopen : f.openOuterUniversal v with
  | none => rfl
  | some g =>
    obtain ⟨-, n, hn, -⟩ := openOuterUniversal_eq_some hopen
    cases h <;> cases hn

theorem mapFreeVariables_foldr_forAll {g : FreeVariable → FreeVariable}
    (hg : Function.Injective g) (binders : List FreeVariable) (f : Formula) :
    (binders.foldr forAll f).mapFreeVariables g =
      (binders.map g).foldr forAll (f.mapFreeVariables g) := by
  induction binders with
  | nil => rfl
  | cons v binders ih => rw [List.foldr_cons, mapFreeVariables_forAll hg, ih, List.map_cons,
      List.foldr_cons]

theorem withinLimits_of_forAll {v : FreeVariable} (h : (forAll v f).WithinLimits) :
    f.WithinLimits := by
  obtain ⟨hnodes, hdepth⟩ := h
  simp only [forAll, Node.nodeCount, Node.depth, Node.nodeCount_bindFree, Node.depth_bindFree]
    at hnodes hdepth
  exact ⟨by omega, by omega⟩

theorem settles_openUniversals (length : ℕ) (fits : Prop) (identifiers : List ℕ)
    (vars : List FreeVariable) (hidentifiers : ∀ i ∈ identifiers, i ≤ 32) (hw : f.WithinLimits) :
    ∃ opened current, (openUniversals length identifiers vars f).Settles Work.amounts Work.limit
        fits (vars ++ opened, current) ∧
      current.WithinLimits ∧ opened.foldr forAll current = f ∧
      ∀ (binders : List FreeVariable) (g : Formula), binders.length ≤ identifiers.length → Recognizable g →
        f = binders.foldr forAll g → Recognizable current := by
  induction identifiers generalizing f vars with
  | nil =>
    refine ⟨[], f, ?_, hw, rfl, ?_⟩
    · rw [List.append_nil]
      exact settles_pure _ _ _
    · intro binders g hlength hg hf
      rw [List.eq_nil_of_length_eq_zero (Nat.le_zero.mp hlength)] at hf
      exact hf ▸ hg
  | cons i rest ih =>
    obtain ⟨v, hfresh, hv⟩ := exists_fresh_of_withinLimits hw (hidentifiers i List.mem_cons_self)
    have hthrow : (orThrow .panic (fresh f i) : WorkM FreeVariable).Settles
      Work.amounts Work.limit fits v := settles_orThrow hfresh
    cases hopen : f.openOuterUniversal v with
    | none =>
      refine ⟨[], f, ?_, hw, rfl, ?_⟩
      · unfold openUniversals
        refine Settles.bind (Work.settles_formula _ _ _) (Settles.bind hthrow ?_)
        rw [hopen, List.append_nil]
        exact settles_pure _ _ _
      · intro binders g _ hg hf
        cases binders with
        | nil => exact hf ▸ hg
        | cons b binders =>
          subst hf
          rw [List.foldr_cons, openOuterUniversal_forAll hv] at hopen
          cases hopen
    | some body =>
      have hforAll := forAll_of_openOuterUniversal hopen
      obtain ⟨opened, current, hsettles, hcurrent, hclosed, hrecognizable⟩ := @ih body
        (vars ++ [v]) (fun j hj => hidentifiers j (List.mem_cons_of_mem i hj))
        (withinLimits_of_forAll (hforAll ▸ hw))
      refine ⟨v :: opened, current, ?_, hcurrent, ?_, ?_⟩
      · unfold openUniversals
        refine Settles.bind (Work.settles_formula _ _ _) (Settles.bind hthrow ?_)
        rw [hopen, List.append_cons vars v opened]
        exact hsettles
      · rw [List.foldr_cons, hclosed, hforAll]
      · intro binders g hlength hg hf
        cases binders with
        | nil =>
          rw [hf, List.foldr_nil, not_forAll_of_recognizable hg] at hopen
          cases hopen
        | cons b binders =>
          subst hf
          rw [List.foldr_cons, openOuterUniversal_forAll hv, substituteFree_eq_swap hv,
            mapFreeVariables_foldr_forAll (Equiv.injective _)] at hopen
          refine hrecognizable (binders.map (Equiv.swap b v)) _ ?_
            (hg.rename (Equiv.swap b v).injective) (Option.some.inj hopen).symm
          rw [List.length_map]
          exact Nat.le_of_succ_le_succ hlength

theorem exists_axiomRoot {step : ProofStep} (h : DerivesAlone ctx step f) :
    ∃ d : Draft ctx, Draft.Builds (Plan.new.axiomStep sizes step f.canonicalBytes.length) d
      (d.plan, 0) ∧ d.formulas = [f] := by
  refine ⟨(Draft.new ctx).axiomStep step f (.leaf h.2) h.1, ?_, rfl⟩
  exact Draft.builds_axiomStep (d := Draft.new ctx) (.leaf h.2) h.1

theorem exists_identity (a : Formula) :
    ∃ d : Draft ctx, Draft.Builds (identity sizes Plan.new a) d (d.plan, 4) ∧
      d.formulas.length = 5 ∧ d.formulas.getLast? = some (a.implies a) := by
  let s := a.implies a
  let d₁ : Draft ctx := (Draft.new ctx).axiomStep
    (.simplification (.primitive a) (.primitive s)) (Logic.simplification a s) (.leaf rfl) rfl
  let d₂ : Draft ctx := d₁.axiomStep
    (.simplification (.primitive a) (.primitive a)) (Logic.simplification a a) (.leaf rfl) rfl
  let d₃ : Draft ctx := d₂.axiomStep
    (.frege (.primitive a) (.primitive s) (.primitive a)) (Logic.frege a s a) (.leaf rfl) rfl
  let d₄ : Draft ctx := d₃.modusPonens 0 2 (Logic.simplification a s)
    ((Logic.simplification a a).implies s) rfl rfl
  let d₅ : Draft ctx := d₄.modusPonens 1 3 (Logic.simplification a a) s rfl rfl
  have h₄₅ : d₄.Extends d₅ := Draft.extends_modusPonens _ _
  have h₃₅ : d₃.Extends d₅ := (Draft.extends_modusPonens _ _).trans h₄₅
  have h₂₅ : d₂.Extends d₅ := (Draft.extends_axiomStep _ _).trans h₃₅
  have h₁₅ : d₁.Extends d₅ := (Draft.extends_axiomStep _ _).trans h₂₅
  have hlength : ∀ g ∈ d₅.formulas, (canonicalLength g).Settles Work.amounts Work.limit
      d₅.Admissible g.canonicalBytes.length := fun g hg =>
    (settles_canonicalLength g).mono fun h => h.formulas_le g hg
  have hformulas : d₅.formulas = [Logic.simplification a s, Logic.simplification a a,
    Logic.frege a s a, (Logic.simplification a a).implies s, s] := rfl
  refine ⟨d₅, ?_, rfl, rfl⟩
  unfold identity
  refine Settles.bind (hlength s (by simp [hformulas])) ?_
  refine Settles.bind (hlength (Logic.simplification a s) (by simp [hformulas])) ?_
  refine Settles.bind ((Draft.builds_axiomStep (d := Draft.new ctx) _ _).mono h₁₅.admissible) ?_
  refine Settles.bind (hlength (Logic.simplification a a) (by simp [hformulas])) ?_
  refine Settles.bind ((Draft.builds_axiomStep (d := d₁) _ _).mono h₂₅.admissible) ?_
  refine Settles.bind (hlength (Logic.frege a s a) (by simp [hformulas])) ?_
  refine Settles.bind ((Draft.builds_axiomStep (d := d₂) _ _).mono h₃₅.admissible) ?_
  refine Settles.bind (hlength ((Logic.simplification a a).implies s) (by simp [hformulas])) ?_
  refine Settles.bind ((Draft.builds_modusPonens (d := d₃) _ _).mono h₄₅.admissible) ?_
  exact Draft.builds_modusPonens (d := d₄) _ _

theorem exists_generalizeAll (binders : List FreeVariable) (d : Draft ctx) {root : ℕ}
    {g : Formula} (hroot : root + 1 = d.formulas.length) (hlast : d.formulas.getLast? = some g) :
    ∃ (d' : Draft ctx) (root' : ℕ),
      Draft.Builds (generalizeAll sizes binders (d.plan, root)) d' (d'.plan, root') ∧
      d.Extends d' ∧
      d'.formulas.getLast? = some (binders.foldl (fun f v => forAll v f) g) := by
  induction binders generalizing d root g with
  | nil => exact ⟨d, root, settles_pure _ _ _, .refl d, hlast⟩
  | cons v binders ih =>
    have hget : d.formulas[root]? = some g := by
      rw [List.getLast?_eq_getElem?, ← hroot] at hlast
      exact hlast
    obtain ⟨d', root', hbuilds, hextends, hlast'⟩ := @ih (d.generalize root v g hget)
      d.formulas.length (forAll v g) (by simp [Draft.generalize])
      (by simp [Draft.generalize])
    refine ⟨d', root', ?_, (Draft.extends_generalize hget).trans hextends, hlast'⟩
    unfold generalizeAll
    exact Settles.bind ((Draft.builds_generalize hget).mono hextends.admissible) hbuilds

/-- A draft that ends with a formula, and the position of this formula. -/
def Root (f : Formula) (p : Draft ctx × ℕ) : Prop :=
  p.2 + 1 = p.1.formulas.length ∧ p.1.formulas.getLast? = some f

theorem settles_planRoot (hw : f.WithinLimits) :
    ∃ r : Option (Draft ctx × ℕ), (planRoot sizes f f.canonicalBytes.length).Settles Work.amounts
        Work.limit (∀ p ∈ r, p.1.Admissible) (r.map fun p => (p.1.plan, p.2)) ∧
      (∀ p ∈ r, Root f p) ∧ (Recognizable f → r.isSome = true) := by
  unfold planRoot
  cases hequal : f.equalityVariables.filter fun p => p.1 = p.2 with
  | some p =>
    obtain ⟨v, w⟩ := p
    obtain ⟨hvariables, hvw⟩ := Option.filter_eq_some_iff.mp hequal
    obtain rfl : v = w := by simpa using hvw
    obtain rfl := equalityVariables_eq_some.1 hvariables
    obtain ⟨d, hbuilds, hformulas⟩ := @exists_axiomRoot sizes ctx (equal v v)
      (.equalityReflexivity v) ⟨rfl, rfl⟩
    refine ⟨some (d, 0), Settles.bind (hbuilds.mono fun h => h _ rfl) (settles_pure _ _ _), ?_,
      fun _ => rfl⟩
    rintro _ ⟨⟩
    exact ⟨by simp [hformulas], by simp [hformulas]⟩
  | none =>
    cases himplication : f.implicationParts.filter fun p => p.1 = p.2 with
    | some p =>
      obtain ⟨a, b⟩ := p
      obtain ⟨hparts, hab⟩ := Option.filter_eq_some_iff.mp himplication
      obtain rfl : a = b := by simpa using hab
      obtain rfl := implicationParts_eq_some.mp hparts
      obtain ⟨d, hbuilds, hlength, hlast⟩ := @exists_identity sizes ctx a
      refine ⟨some (d, 4), Settles.bind (hbuilds.mono fun h => h _ rfl) (settles_pure _ _ _), ?_,
        fun _ => rfl⟩
      rintro _ ⟨⟩
      exact ⟨hlength.symm, hlast⟩
    | none =>
      cases hparts : f.implicationParts with
      | none =>
        refine ⟨none, Settles.bind (a := none) ?_ (settles_pure _ _ _), by simp, fun h => ?_⟩
        · unfold axiomInstance
          rw [hparts]
          exact settles_pure _ _ _
        · cases h with
          | reflexivity v =>
            have hvariables : (Logic.equalityReflexivity v).equalityVariables = some (v, v) := rfl
            rw [hvariables] at hequal
            simp at hequal
          | _ => cases hparts
      | some p =>
        obtain ⟨left, right⟩ := p
        obtain rfl := implicationParts_eq_some.mp hparts
        have hne : left ≠ right := by
          rintro rfl
          simp at himplication
        obtain ⟨r, hr, hyields, hfinds⟩ := @settles_axiomInstance ctx left right hw
          True
        cases r with
        | none =>
          exact ⟨none, Settles.bind (hr.mono fun _ => trivial) (settles_pure _ _ _), by simp,
            fun h => hfinds h hne⟩
        | some step =>
          obtain ⟨d, hbuilds, hformulas⟩ := @exists_axiomRoot sizes ctx _ step (hyields step rfl)
          refine ⟨some (d, 0), Settles.bind (hr.mono fun _ => trivial)
            (Settles.bind (hbuilds.mono fun h => h _ rfl) (settles_pure _ _ _)), ?_, fun _ => rfl⟩
          rintro _ ⟨⟩
          exact ⟨by simp [hformulas], by simp [hformulas]⟩

theorem settles_matchFixed (length : ℕ) (target : Formula) (fits : Prop) (l : List ZfcAxiom) :
    (matchFixed length target l).Settles Work.amounts Work.limit fits
      (l.find? fun fixed => fixed.formula = target) := by
  induction l with
  | nil => exact settles_pure _ _ _
  | cons fixed rest ih =>
    unfold matchFixed
    apply Settles.bind (Work.settles_formula _ _ _)
    by_cases hfixed : fixed.formula = target
    · rw [if_pos hfixed, List.find?_cons_of_pos (by simpa using hfixed)]
      exact settles_pure _ _ _
    · rw [if_neg hfixed, List.find?_cons_of_neg (by simpa using hfixed)]
      exact ih

theorem run_canonicalLength (hf : ¬ f.WithinLimits) (w : Work) :
    (canonicalLength f).run w = (.error Work.limit, w) := by
  unfold canonicalLength
  cases hencoded : f.encodeCanonical with
  | ok bytes => exact absurd (encodeCanonical_eq_ok.mp hencoded).1 hf
  | error e => rfl

/-- The recognizer has one result apart from exhausted limits: no plan, or the plan of a draft of
the theorem. -/
theorem settles_plan (target : Formula) :
    ∃ r : Option (Draft ctx), (plan sizes target).Settles Work.amounts Work.limit
        (target.WithinLimits ∧ ∀ d ∈ r, d.Admissible) (r.map Draft.plan) ∧
      (∀ d ∈ r, d.formulas.getLast? = some target) ∧
      ∀ (binders : List FreeVariable) (f : Formula), binders.length ≤ 32 → Recognizable f →
        target = binders.foldr forAll f → target.WithinLimits → r.isSome = true := by
  by_cases hw : target.WithinLimits
  · have hlength : ∀ fits : Prop, (canonicalLength target).Settles Work.amounts Work.limit fits
        target.canonicalBytes.length := fun _ => (settles_canonicalLength target).mono fun _ => hw
    have hcharge := fun fits : Prop =>
      Work.settles_formula fits target.canonicalBytes.length 64
    have hfixed := fun fits : Prop =>
      settles_matchFixed target.canonicalBytes.length target fits fixedAxioms
    cases hfind : fixedAxioms.find? fun fixed => fixed.formula = target with
    | some fixed =>
      rw [hfind] at hfixed
      have htarget : fixed.formula = target := by simpa using List.find?_some hfind
      obtain ⟨d, hbuilds, hformulas⟩ := @exists_axiomRoot sizes ctx target
        (.zfcAxiom fixed) ⟨rfl, congrArg Except.ok htarget⟩
      refine ⟨some d, ?_, ?_, fun _ _ _ _ _ _ => rfl⟩
      · refine Settles.bind (hlength _) (Settles.bind (hcharge _) (Settles.bind (hfixed _) ?_))
        exact Settles.bind (hbuilds.mono fun h => h.2 _ rfl) (settles_pure _ _ _)
      · rintro _ ⟨⟩
        simp [hformulas]
    | none =>
      rw [hfind] at hfixed
      obtain ⟨opened, current, hopen, hcurrent, hclosed, hopened⟩ := settles_openUniversals
        target.canonicalBytes.length True (List.range Instantiation.maxInstantiations) []
        (fun i hi => (List.mem_range.mp hi).le) hw
      have hopen := fun fits : Prop => hopen.mono fun _ : fits => trivial
      have hcurrentLength := fun fits : Prop =>
        (settles_canonicalLength current).mono fun _ : fits => hcurrent
      obtain ⟨r, hroot, hroots, hfinds⟩ :=
        @settles_planRoot sizes ctx current hcurrent
      cases r with
      | none =>
        refine ⟨none, ?_, by simp, fun binders f hlt hf heq _ => ?_⟩
        · refine Settles.bind (hlength _) (Settles.bind (hcharge _) (Settles.bind (hfixed _)
            (Settles.bind (hopen _) (Settles.bind (hcurrentLength _) ?_))))
          exact Settles.bind (hroot.mono fun _ => by simp) (settles_pure _ _ _)
        · have hlt : binders.length ≤ (List.range Instantiation.maxInstantiations).length := by
            rw [List.length_range]
            exact hlt
          exact hfinds (hopened binders f hlt hf heq)
      | some p =>
        obtain ⟨d, root⟩ := p
        obtain ⟨hposition, hlast⟩ := hroots _ rfl
        obtain ⟨d', root', hbuilds, hextends, hlast'⟩ :=
          @exists_generalizeAll sizes ctx opened.reverse d _ _ hposition hlast
        refine ⟨some d', ?_, ?_, fun _ _ _ _ _ _ => rfl⟩
        · refine Settles.bind (hlength _) (Settles.bind (hcharge _) (Settles.bind (hfixed _)
            (Settles.bind (hopen _) (Settles.bind (hcurrentLength _) ?_))))
          refine Settles.bind (hroot.mono fun h p hp => ?_) ?_
          · cases hp
            exact hextends.admissible (h.2 _ rfl)
          · exact Settles.bind (hbuilds.mono fun h => h.2 _ rfl) (settles_pure _ _ _)
        · rintro _ ⟨⟩
          rw [hlast', List.foldl_reverse, hclosed]
  · refine ⟨none, ⟨fun w => .inr ?_, fun h => absurd h.1 hw⟩, by simp, fun _ _ _ _ _ h =>
      absurd h hw⟩
    unfold plan
    rw [run_bind, run_canonicalLength hw]

/-- Elementary recognition builds real proofs. A plan evaluates to formulas of the planned lengths
and concludes the theorem; finishing it gives a certificate for a closed theorem unless a limit is
exhausted. `A → A`, the instances of the eight schemas and their closures up to 32 binders are
recognized unless a limit is exhausted. -/
theorem elementary_proofs (sizes : MemorySizes) (sha256 : List UInt8 → Digest) (ctx : ContextView)
    (target : Formula) :
    (∀ w w' p, (plan sizes target).run w = (.ok (some p), w') →
      (∃ formulas, Evaluates ctx p.proofSteps formulas ∧ formulas.getLast? = some target ∧
        p.steps.map PlannedStep.length = formulas.map fun f => f.canonicalBytes.length) ∧
      (target.isClosed = true → Certifying sha256 ctx target (p.finish sizes sha256 ctx target))) ∧
    ∀ (binders : List FreeVariable) (f : Formula), binders.length ≤ 32 → Recognizable f →
      target = binders.foldr forAll f → target.WithinLimits →
      ∃ d : Draft ctx, d.formulas.getLast? = some target ∧
        (plan sizes target).Settles Work.amounts Work.limit d.Admissible (some d.plan) := by
  obtain ⟨r, hr, hlast, hfinds⟩ := @settles_plan sizes ctx target
  constructor
  · intro w w' p hrun
    cases r with
    | none => cases hr.eq_of_run hrun
    | some d =>
      cases hr.eq_of_run hrun
      refine ⟨⟨d.formulas, d.derives.evaluates, hlast d rfl, d.derives.lengths⟩, fun hclosed => ?_⟩
      exact Draft.finish_certifies sizes sha256 (hlast d rfl) hclosed
  · intro binders f hlength hf heq hw
    cases r with
    | none => cases hfinds binders f hlength hf heq hw
    | some d =>
      refine ⟨d, hlast d rfl, hr.mono fun h => ⟨hw, ?_⟩⟩
      rintro _ ⟨⟩
      exact h

theorem elementary_proofs_closure : ∃ d : Draft (.empty 0),
    d.formulas.getLast? = some (forAll ⟨0⟩ (equal ⟨0⟩ ⟨0⟩)) ∧
    (plan ⟨64, 72⟩ (forAll ⟨0⟩ (equal ⟨0⟩ ⟨0⟩))).Settles Work.amounts Work.limit d.Admissible
      (some d.plan) :=
  (elementary_proofs ⟨64, 72⟩ (fun _ => 0) (.empty 0) _).2 [⟨0⟩] (equal ⟨0⟩ ⟨0⟩) (by decide)
    (.reflexivity ⟨0⟩) rfl ⟨by decide, by decide⟩

/-- An open theorem has a plan that is refused at its end, and without a budget nothing is
recognized. -/
theorem open_reflexivity_refused :
    (∃ (w w' : Work) (p : Plan), (plan ⟨64, 72⟩ (equal ⟨0⟩ ⟨0⟩)).run w = (.ok (some p), w') ∧
      ((p.finish ⟨64, 72⟩ (fun _ => 0) (.empty 0) (equal ⟨0⟩ ⟨0⟩)).run w').1 =
        .error Work.invalid) ∧
    ((plan ⟨64, 72⟩ ((equal ⟨0⟩ ⟨0⟩).implies (equal ⟨0⟩ ⟨0⟩))).run ⟨0, 0, 0, 0⟩).1 =
      .error Work.limit := by
  refine ⟨?_, rfl⟩
  have hrefused : ((((plan ⟨64, 72⟩ (equal ⟨0⟩ ⟨0⟩)).run ⟨1000, 1000000, 10, 1000⟩).1.toOption.bind
      id).any fun p => decide (((p.finish ⟨64, 72⟩ (fun _ => 0) (.empty 0) (equal ⟨0⟩ ⟨0⟩)).run
        ((plan ⟨64, 72⟩ (equal ⟨0⟩ ⟨0⟩)).run ⟨1000, 1000000, 10, 1000⟩).2).1 =
          .error Work.invalid)) = true := by decide +kernel
  generalize hrun : (plan ⟨64, 72⟩ (equal ⟨0⟩ ⟨0⟩)).run ⟨1000, 1000000, 10, 1000⟩ = result
    at hrefused
  obtain ⟨_ | _ | p, w'⟩ := result
  · cases hrefused
  · cases hrefused
  · exact ⟨_, w', p, hrun, of_decide_eq_true hrefused⟩

end Naome.Question.Elementary
