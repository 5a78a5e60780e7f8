import Naome.Checker

/-!
# Soundness of the checker

Every retained result is true under every assignment in every structure that satisfies the
axioms and the cited conclusions. This is an invariant of the checking loop.
-/
namespace Naome.Checker
open Outcome

variable {M : Type*} {E : M → M → Prop} {ctx : ContextView} {sha256 : List UInt8 → Digest}

/-- The conclusions that the context returns for cited proofs are true. -/
def CitationsModel (ctx : ContextView) (E : M → M → Prop) : Prop :=
  ∀ id f, ctx.Cites id f → f.Models E

/-- Every retained result is true. -/
def ResultsModel (E : M → M → Prop) (results : List (Option CheckedStep)) : Prop :=
  ∀ r, some r ∈ results → r.formula.Models E

theorem ResultsModel.set_none {results : List (Option CheckedStep)} (h : ResultsModel E results)
    (i : ℕ) : ResultsModel E (results.set i none) := by
  intro r hr
  rcases List.mem_or_eq_of_mem_set hr with hr | hr
  · exact h r hr
  · cases hr

theorem ResultsModel.release {results : List (Option CheckedStep)} (h : ResultsModel E results)
    (uses : List (Option ℕ)) (position : ℕ) (references : List ℕ) :
    ResultsModel E (release uses position results references) := by
  induction references generalizing results with
  | nil => exact h
  | cons r references ih =>
    rw [Checker.release, List.foldl_cons]
    split_ifs
    · exact ih (h.set_none r)
    · exact ih h

theorem ResultsModel.result {results : List (Option CheckedStep)} (h : ResultsModel E results)
    {reference : ℕ} {r : CheckedStep} (hr : result results reference = .ok r) :
    r.formula.Models E := by
  rw [Checker.result, orError_eq_ok, Option.bind_eq_some_iff] at hr
  obtain ⟨o, ho, hor⟩ := hr
  have hmem := List.mem_of_getElem? ho
  exact h r (hor ▸ hmem)

/-- Axioms are true whatever formulas their definitions expand to. -/
theorem deriveAxiom_models (hE : ZfcModel E) {position : ℕ} {step : ProofStep} {f : Formula}
    (h : deriveAxiom ctx position step = .ok f) : f.Models E := by
  cases step with
  | simplification a c =>
    simp only [deriveAxiom, bind_eq_ok, pure_eq_ok] at h
    obtain ⟨a', -, c', -, rfl⟩ := h
    exact Logic.simplification_models a' c'
  | frege a b c =>
    simp only [deriveAxiom, bind_eq_ok, pure_eq_ok] at h
    obtain ⟨a', -, b', -, c', -, rfl⟩ := h
    exact Logic.frege_models a' b' c'
  | classicalContraposition a c =>
    simp only [deriveAxiom, bind_eq_ok, pure_eq_ok] at h
    obtain ⟨a', -, c', -, rfl⟩ := h
    exact Logic.classicalContraposition_models a' c'
  | universalDistribution v a c =>
    simp only [deriveAxiom, bind_eq_ok, pure_eq_ok] at h
    obtain ⟨a', -, c', -, rfl⟩ := h
    exact Logic.universalDistribution_models v a' c'
  | vacuousUniversal a =>
    simp only [deriveAxiom, bind_eq_ok, pure_eq_ok] at h
    obtain ⟨a', -, rfl⟩ := h
    exact Logic.vacuousUniversal_models a'
  | universalInstantiation v r b =>
    simp only [deriveAxiom, bind_eq_ok, pure_eq_ok] at h
    obtain ⟨b', -, rfl⟩ := h
    exact Logic.universalInstantiation_models v r b'
  | equalityReflexivity v =>
    cases h
    exact Logic.equalityReflexivity_models v
  | equalitySubstitution a b f =>
    simp only [deriveAxiom, bind_eq_ok, pure_eq_ok] at h
    obtain ⟨f', -, rfl⟩ := h
    exact Logic.equalitySubstitution_models a b f'
  | zfcAxiom a =>
    cases h
    exact hE.axioms a
  | separation s =>
    simp only [deriveAxiom, bind_eq_ok, mapError_eq_ok] at h
    obtain ⟨-, -, s', -, hs⟩ := h
    exact hE.separation s' f hs
  | replacement r =>
    simp only [deriveAxiom, bind_eq_ok, mapError_eq_ok] at h
    obtain ⟨-, -, r', -, hr⟩ := h
    exact hE.replacement r' f hr
  | proofReference d | modusPonens i j | generalization i v => cases h

theorem deriveStep_models (hE : ZfcModel E) (hctx : CitationsModel ctx E) {position work work' : ℕ}
    {step : ProofStep} {results results' : List (Option CheckedStep)} {uses : List (Option ℕ)}
    {derived : DerivedStep} (hresults : ResultsModel E results)
    (h : deriveStep ctx position step results uses work = .ok (derived, results', work')) :
    derived.formula.Models E ∧ ResultsModel E results' := by
  cases step with
  | proofReference id =>
    simp only [deriveStep, bind_eq_ok, mapError_eq_ok, orError_eq_ok, pure_eq_ok] at h
    obtain ⟨_, hheader, header, rfl, _, -, _, hformula, f, rfl, h⟩ := h
    cases h
    exact ⟨hctx id f ⟨header, hheader, hformula⟩, hresults⟩
  | modusPonens i j =>
    simp only [deriveStep, bind_eq_ok, mapError_eq_ok, pure_eq_ok] at h
    obtain ⟨a, ha, b, hb, _, -, f, hf, h⟩ := h
    cases h
    exact ⟨Logic.modusPonens_models hf (hresults.result ha) (hresults.result hb), hresults⟩
  | generalization i v =>
    simp only [deriveStep, bind_eq_ok, pure_eq_ok] at h
    obtain ⟨a, ha, _, -, h⟩ := h
    cases h
    refine ⟨Logic.generalization_models v (hresults.result ha), ?_⟩
    split_ifs
    · exact hresults.set_none i
    · exact hresults
  | _ =>
    simp only [deriveStep, bind_eq_ok, pure_eq_ok] at h
    obtain ⟨f, hf, h⟩ := h
    cases h
    exact ⟨deriveAxiom_models hE hf, hresults⟩

/-- One turn of the loop keeps every retained result true. -/
theorem checkStep_models (hE : ZfcModel E) (hctx : CitationsModel ctx E) {mode : IdentityMode}
    {steps : List ProofStep} {s s' : CheckState} {p : ProofStep × ℕ}
    (hs : ResultsModel E s.results) (h : checkStep sha256 ctx mode steps s p = .ok s') :
    ResultsModel E s'.results := by
  simp only [checkStep, bind_eq_ok, Prod.exists, pure_eq_ok] at h
  obtain ⟨derived, results, work, hderive, _, -, length, _, -, _, -, rfl⟩ := h
  obtain ⟨hformula, hresults⟩ := deriveStep_models hE hctx hs hderive
  intro r hr
  rw [List.mem_append, List.mem_singleton] at hr
  rcases hr with hr | hr
  · exact hresults.release _ _ _ r hr
  · split_ifs at hr
    cases hr
    exact hformula

/-- A true conclusion comes out of every accepted certificate. -/
theorem checkSteps_sound (hE : ZfcModel E) (hctx : CitationsModel ctx E)
    {certificate : ProofCertificate} {mode : IdentityMode} {outcome : CheckOutcome}
    (h : checkSteps sha256 certificate ctx mode = .ok outcome) :
    outcome.conclusion.Models E := by
  simp only [checkSteps, bind_eq_ok, require_eq_ok, exists_const, orError_eq_ok, pure_eq_ok] at h
  obtain ⟨-, s, hloop, checked, hlast, _, -, -, _, -, rfl⟩ := h
  have hresults : ResultsModel E s.results := by
    refine foldlM_invariant (I := fun s => ResultsModel E s.results) ?_ ?_ hloop
    · exact fun s p s' _ hs hstep => checkStep_models hE hctx hs hstep
    · intro r hr
      cases hr
  rw [Option.bind_eq_some_iff] at hlast
  obtain ⟨o, ho, hor⟩ := hlast
  exact hresults checked (hor ▸ List.mem_of_getLast? ho)

/-- An accepted normal form and the outcome of its checking loop. -/
theorem exists_outcome {normalForm : ProofNormalForm} {checked : CheckedProof}
    (h : checkNormalFormWithState sha256 normalForm ctx = .ok checked) :
    ∃ outcome, checkSteps sha256 normalForm.certificate ctx .derive = .ok outcome ∧
      checked.normalForm = normalForm ∧ checked.conclusion = outcome.conclusion ∧
      outcome.derivationId = some checked.derivationId ∧
      checked.statementId = statementId sha256 outcome.canonical ∧
      checked.canonicalConclusionLength = outcome.canonical.length ∧
      ∃ bytes, normalForm.canonicalBytes = .ok bytes := by
  unfold checkNormalFormWithState at h
  split at h
  · cases h
  · rename_i conclusion canonical derivationId hquery
    obtain ⟨outcome, houtcome, hquery⟩ := bind_eq_ok.mp hquery
    cases pure_eq_ok.mp hquery
    simp only [bind_eq_ok, pure_eq_ok, orError_eq_ok, mapError_eq_ok] at h
    obtain ⟨_, hid, _, -, bytes, hbytes, _, -, rfl⟩ := h
    exact ⟨outcome, houtcome, rfl, rfl, hid, rfl, rfl, bytes, hbytes⟩

/-- Certificate soundness: the conclusion of an accepted certificate is closed, and true in
every structure that satisfies the axioms, the admitted schema instances and the cited
conclusions. -/
theorem checkedProof_sound.{u} (sha256 : List UInt8 → Digest) (ctx : ContextView)
    (checked : CheckedProof)
    (h : (∃ certificate, normalizeAndCheckWithState sha256 certificate ctx = .ok checked) ∨
      ∃ normalForm, checkNormalFormWithState sha256 normalForm ctx = .ok checked) :
    checked.conclusion.isClosed = true ∧
      ∀ (M : Type u) (E : M → M → Prop), ZfcModel E →
        (∀ id f, ctx.Cites id f → f.Models E) → checked.conclusion.Models E := by
  obtain ⟨normalForm, hnormal⟩ : ∃ normalForm,
      checkNormalFormWithState sha256 normalForm ctx = .ok checked := by
    rcases h with ⟨certificate, h⟩ | h
    · simp only [normalizeAndCheckWithState, bind_eq_ok] at h
      obtain ⟨normalForm, -, h⟩ := h
      exact ⟨normalForm, h⟩
    · exact h
  obtain ⟨outcome, houtcome, -, hconclusion, -, -⟩ := exists_outcome hnormal
  rw [hconclusion]
  exact ⟨checkSteps_closed houtcome, fun M E hE hctx => checkSteps_sound hE hctx houtcome⟩

/-- The certificate of `∀ x, x = x` is accepted without context, so the formula is true in
every structure that satisfies the axioms. -/
theorem checkedProof_sound_reflexivity :
    ∃ checked, normalizeAndCheckWithState (fun _ => 0)
        ⟨[.equalityReflexivity ⟨7⟩, .generalization 0 ⟨7⟩]⟩ (.empty 0) = .ok checked ∧
      checked.conclusion = Formula.forAll ⟨0⟩ (Formula.equal ⟨0⟩ ⟨0⟩) ∧
      checked.conclusion.isClosed = true ∧
      ∀ (M : Type) (E : M → M → Prop), ZfcModel E → checked.conclusion.Models E := by
  have hcheck : normalizeAndCheckWithState (fun _ => 0)
      ⟨[.equalityReflexivity ⟨7⟩, .generalization 0 ⟨7⟩]⟩ (.empty 0) = .ok _ := rfl
  refine ⟨_, hcheck, rfl, ?_⟩
  have h := checkedProof_sound.{0} (fun _ => 0) (.empty 0) _ (.inl ⟨_, hcheck⟩)
  refine ⟨h.1, fun M E hE => h.2 M E hE ?_⟩
  rintro id f ⟨header, hheader, -⟩
  cases hheader

end Naome.Checker
