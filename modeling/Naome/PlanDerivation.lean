import Naome.CertificateReservation
import Naome.RefusedChecks

/-!
# Plans that derive formulas

A plan whose steps conclude formulas of the planned lengths is finished with a certificate for its
last formula, or a limit is exhausted. The operations that extend such a plan only fail for lack of
budget.
-/
namespace Naome.Question
open LocallyNameless Outcome Effect Checker

variable {sizes : MemorySizes} {sha256 : List UInt8 → Digest} {ctx : ContextView}

/-- A witness for a formula: the checker accepts its certificate, with this conclusion. -/
def DeductionWitness.Certifies (sha256 : List UInt8 → Digest) (ctx : ContextView) (target : Formula)
    (witness : DeductionWitness) : Prop :=
  ∃ checked, checkNormalFormWithState sha256 checked.normalForm ctx = .ok checked ∧
    checked.conclusion = target ∧ checked.proofId = witness.proof ∧
    checked.normalForm.canonicalBytes = .ok witness.certificate

/-- Every run ends with a witness for the target or with an exhausted limit. -/
def Certifying (sha256 : List UInt8 → Digest) (ctx : ContextView) (target : Formula)
    (m : WorkM DeductionWitness) : Prop :=
  ∀ w, (m.run w).1 = .error Work.limit ∨
    ∃ witness, (m.run w).1 = .ok witness ∧ witness.Certifies sha256 ctx target

theorem constructionFailure_of_exhausts {p : Prop} {stop : Stop ProofCertificateError}
    (h : ProofCodec.Exhausts p stop) : stop.map constructionFailure = Work.limit := by
  cases h <;> rfl

theorem checkerFailure_of_refused {p : Prop} {stop : Stop CheckErrorKind} (h : Refused p stop) :
    stop.map checkerFailure = Work.limit := by
  cases h <;> rfl

/-- An accepted certificate is handed out with its proof identity and bytes. -/
theorem checkReserved_of_checked {c : ProofCertificate} {target : Formula} {checked : CheckedProof}
    (hnew : ProofCertificate.new c.steps = .ok c)
    (hok : normalizeAndCheckWithState sha256 c ctx = .ok checked)
    (hconclusion : checked.conclusion = target) (hv : checked.normalForm.certificate.Valid)
    (hcheck : checkNormalFormWithState sha256 checked.normalForm ctx = .ok checked) :
    ∃ witness, Deduction.checkReserved sha256 ctx c.steps target = .ok witness ∧
      witness.Certifies sha256 ctx target := by
  have hbytes : checked.normalForm.canonicalBytes =
      .ok checked.normalForm.certificate.canonicalBytes :=
    ProofCertificate.toCanonicalBytes_eq_ok.mpr ⟨hv.encodable, rfl⟩
  let cited := Std.TreeSet.ofList
    (checked.normalForm.certificate.steps.filterMap ProofStep.citedProof)
  refine ⟨⟨checked.proofId, cited.toList, checked.normalForm.certificate.canonicalBytes⟩, ?_,
    checked, hcheck, hconclusion, rfl, hbytes⟩
  refine bind_eq_ok.mpr ⟨c, mapError_eq_ok.mpr hnew, ?_⟩
  refine bind_eq_ok.mpr ⟨checked, mapError_eq_ok.mpr hok, ?_⟩
  refine bind_eq_ok.mpr ⟨(), require_eq_ok.mpr hconclusion, ?_⟩
  rw [hbytes]
  rfl

/-- Steps that conclude the target are certified, or a limit is exhausted. -/
theorem checkReserved_of_sound (sha256 : List UInt8 → Digest) {steps : List ProofStep}
    {target : Formula} {tooLarge : Prop} (hne : steps ≠ [])
    (hearlier : ProofCodec.Earlier 0 steps) (hsound : Sound ctx steps tooLarge)
    (hcloses : Closes ctx steps target) :
    Deduction.checkReserved sha256 ctx steps target = .error Work.limit ∨
      ∃ witness, Deduction.checkReserved sha256 ctx steps target = .ok witness ∧
        witness.Certifies sha256 ctx target := by
  cases hnew : ProofCertificate.new steps with
  | error stop =>
    left
    have hlimit : stop.map constructionFailure = Work.limit := by
      rcases ProofCertificate.new_eq_error hne hearlier hnew with ⟨-, rfl⟩ | hexhausts
      · rfl
      · exact constructionFailure_of_exhausts hexhausts
    rw [Deduction.checkReserved, hnew, ← hlimit]
    rfl
  | ok c =>
    obtain ⟨hv, rfl⟩ := ProofCertificate.new_eq_ok.mp hnew
    obtain ⟨hlimited, haccepted⟩ := normalizeAndCheck_of_sound sha256 hv hsound hcloses
    cases hcheck : normalizeAndCheckWithState sha256 c ctx with
    | error stop =>
      left
      have hlimit := checkerFailure_of_refused (hlimited stop hcheck)
      refine bind_eq_error.mpr (.inr ⟨c, mapError_eq_ok.mpr hnew, bind_eq_error.mpr (.inl ?_)⟩)
      rw [hcheck, ← hlimit]
      rfl
    | ok checked =>
      right
      obtain ⟨hconclusion, hnv, hok⟩ := haccepted checked hcheck
      exact checkReserved_of_checked hnew hcheck hconclusion hnv hok

/-- The steps of a plan conclude these formulas, and its totals are exact. -/
structure Plan.Derives (ctx : ContextView) (plan : Plan) (formulas : List Formula) : Prop where
  evaluates : Evaluates ctx plan.proofSteps formulas
  lengths : plan.steps.map PlannedStep.length = formulas.map fun f => f.canonicalBytes.length
  encoded_eq : plan.encodedBytes = (ProofCodec.stepsBytes plan.proofSteps).length
  work_eq : plan.checkerWork = totalWork plan.lengths plan.proofSteps

theorem Plan.Derives.entry {plan : Plan} {formulas : List Formula} (h : plan.Derives ctx formulas)
    {i : ℕ} {a : Formula} (ha : formulas[i]? = some a) :
    ∃ entry, plan.steps[i]? = some entry ∧ entry.length = a.canonicalBytes.length := by
  have hget := congrArg (fun lengths => lengths[i]?) h.lengths
  simp only [List.getElem?_map, ha, Option.map_some, Option.map_eq_some_iff] at hget
  exact hget

theorem Plan.Derives.length_eq {plan : Plan} {formulas : List Formula}
    (h : plan.Derives ctx formulas) : formulas.length = plan.steps.length := by
  rw [h.evaluates.length_eq, plan.length_proofSteps]

/-- One more step that follows from the formulas so far. -/
theorem Plan.Derives.pushed {plan : Plan} {formulas : List Formula} {step : ProofStep}
    {f : Formula} {encoded work : ℕ} (h : plan.Derives ctx formulas) (inputs : List Formula)
    (hinputs : List.Forall₂ (fun r a => formulas[r]? = some a) step.references inputs)
    (hf : Infers ctx step inputs f) (hencoded : encoded = step.bytes.length)
    (hwork : work = (inputs.map fun a => a.canonicalBytes.length).sum + f.canonicalBytes.length) :
    (plan.pushed step f.canonicalBytes.length encoded work).Derives ctx (formulas ++ [f]) := by
  have hlen := plan.length_proofSteps
  have hlt := h.evaluates.references_lt hinputs
  constructor
  · rw [Plan.proofSteps_pushed]
    exact h.evaluates.snoc hinputs hf
  · rw [Plan.pushed, List.map_append, h.lengths, List.map_append]
    rfl
  · rw [Plan.proofSteps_pushed, length_stepsBytes_snoc, ← h.encoded_eq, ← hencoded]
    rfl
  · have hold : ∀ p < plan.proofSteps.length,
        (plan.pushed step f.canonicalBytes.length encoded work).lengths p = plan.lengths p :=
      fun p hp => Plan.lengths_pushed_lt (hlen ▸ hp)
    have hlengths : step.references.map plan.lengths =
        inputs.map fun a => a.canonicalBytes.length := by
      rw [← List.forall₂_eq_eq_eq, List.forall₂_map_left_iff, List.forall₂_map_right_iff]
      refine hinputs.imp fun r a ha => ?_
      obtain ⟨entry, hentry, hlength⟩ := h.entry ha
      rw [Plan.lengths_eq hentry, hlength]
    rw [Plan.proofSteps_pushed, totalWork_snoc h.evaluates.earlier hold, ← h.work_eq, plannedWork,
      List.map_congr_left fun r hr => hold r (hlt r hr), hlengths, hlen, Plan.lengths_pushed_last,
      ← hwork]
    rfl

/-- A plan with the formulas that its steps conclude. -/
structure Draft (ctx : ContextView) where
  plan : Plan
  formulas : List Formula
  derives : plan.Derives ctx formulas

namespace Draft

def new (ctx : ContextView) : Draft ctx where
  plan := Plan.new
  formulas := []
  derives := ⟨.nil, rfl, rfl, rfl⟩

variable (d : Draft ctx)

/-- The draft with an axiom. -/
def axiomStep (step : ProofStep) (f : Formula) (hf : Concludes ctx step [] f)
    (hr : step.references = []) : Draft ctx where
  plan := d.plan.pushed step f.canonicalBytes.length step.bytes.length f.canonicalBytes.length
  formulas := d.formulas ++ [f]
  derives := d.derives.pushed [] (by rw [hr]; exact .nil) (.derived hf) rfl (by simp)

/-- The draft with the conclusion of a premise and an implication. -/
def modusPonens (i j : ℕ) (a f : Formula) (hi : d.formulas[i]? = some a)
    (hj : d.formulas[j]? = some (a.implies f)) : Draft ctx where
  plan := d.plan.pushed (.modusPonens i j) f.canonicalBytes.length 9
    (a.canonicalBytes.length + (a.implies f).canonicalBytes.length + f.canonicalBytes.length)
  formulas := d.formulas ++ [f]
  derives := d.derives.pushed [a, a.implies f] (.cons hi (.cons hj .nil))
    (.derived (concludes_modusPonens.2 ⟨a, rfl⟩))
    (by simp [ProofStep.bytes, ProofStep.fields, StepField.bytes]) (by simp)

/-- The draft with the generalization of a formula. -/
def generalize (i : ℕ) (v : FreeVariable) (a : Formula) (hi : d.formulas[i]? = some a) :
    Draft ctx where
  plan := d.plan.pushed (.generalization i v) (Formula.forAll v a).canonicalBytes.length 9
    (a.canonicalBytes.length + (Formula.forAll v a).canonicalBytes.length)
  formulas := d.formulas ++ [Formula.forAll v a]
  derives := d.derives.pushed [a] (.cons hi .nil)
    (.derived (concludes_generalization.2 ⟨a, rfl, rfl⟩))
    (by simp [ProofStep.bytes, ProofStep.fields, StepField.bytes]) (by simp)

/-- The plan and its formulas stay within the fixed limits. -/
structure Admissible : Prop where
  length_le : d.plan.steps.length ≤ certificateMaxSteps
  bytes_le : d.plan.encodedBytes ≤ certificateMaxBytes
  work_le : d.plan.checkerWork ≤ checkerMaxFormulaWorkBytes
  writable : ∀ step ∈ d.plan.proofSteps, step.Writable
  nodes_le : (d.plan.proofSteps.map ProofStep.nodes).sum ≤ certificateMaxFormulaNodes
  formulas_le : ∀ f ∈ d.formulas, f.WithinLimits

/-- The second draft goes on where the first one ends. -/
structure Extends (d d' : Draft ctx) : Prop where
  steps : d.plan.proofSteps <+: d'.plan.proofSteps
  formulas : d.formulas <+: d'.formulas
  bytes : d.plan.encodedBytes ≤ d'.plan.encodedBytes
  work : d.plan.checkerWork ≤ d'.plan.checkerWork

theorem Extends.refl (d : Draft ctx) : d.Extends d :=
  ⟨List.prefix_rfl, List.prefix_rfl, le_rfl, le_rfl⟩

variable {d} {d' d'' : Draft ctx}

theorem Extends.trans (h : d.Extends d') (h' : d'.Extends d'') : d.Extends d'' :=
  ⟨h.steps.trans h'.steps, h.formulas.trans h'.formulas, h.bytes.trans h'.bytes,
    h.work.trans h'.work⟩

/-- A draft is within the limits when one that goes on from it is. -/
theorem Extends.admissible (h : d.Extends d') (hd' : d'.Admissible) : d.Admissible where
  length_le := by
    rw [← d.plan.length_proofSteps]
    have hle := h.steps.length_le
    rw [d'.plan.length_proofSteps] at hle
    exact hle.trans hd'.length_le
  bytes_le := h.bytes.trans hd'.bytes_le
  work_le := h.work.trans hd'.work_le
  writable := fun step hstep => hd'.writable step (h.steps.subset hstep)
  nodes_le := by
    obtain ⟨more, hmore⟩ := h.steps
    have hle := hd'.nodes_le
    rw [← hmore, List.map_append, List.sum_append] at hle
    omega
  formulas_le := fun f hf => hd'.formulas_le f (h.formulas.subset hf)

theorem extends_axiomStep {step : ProofStep} {f : Formula} (hf : Concludes ctx step [] f)
    (hr : step.references = []) : d.Extends (d.axiomStep step f hf hr) :=
  ⟨⟨_, (Plan.proofSteps_pushed ..).symm⟩, List.prefix_append _ _, Nat.le_add_right _ _,
    Nat.le_add_right _ _⟩

theorem extends_modusPonens {i j : ℕ} {a f : Formula} (hi : d.formulas[i]? = some a)
    (hj : d.formulas[j]? = some (a.implies f)) : d.Extends (d.modusPonens i j a f hi hj) :=
  ⟨⟨_, (Plan.proofSteps_pushed ..).symm⟩, List.prefix_append _ _, Nat.le_add_right _ _,
    Nat.le_add_right _ _⟩

theorem extends_generalize {i : ℕ} {v : FreeVariable} {a : Formula}
    (hi : d.formulas[i]? = some a) : d.Extends (d.generalize i v a hi) :=
  ⟨⟨_, (Plan.proofSteps_pushed ..).symm⟩, List.prefix_append _ _, Nat.le_add_right _ _,
    Nat.le_add_right _ _⟩

theorem settles_ofExcept {α : Type} {x : Except (Stop Failure) α} {a : α} {fits : Prop}
    (hok : ∀ b, x = .ok b → b = a) (herror : ∀ stop, x = .error stop → stop = Work.limit)
    (hfits : fits → x = .ok a) :
    (WorkM.ofExcept x).Settles Work.amounts Work.limit fits a := by
  constructor
  · intro w
    cases hx : x with
    | ok b => exact .inl (congrArg Except.ok (hok b hx))
    | error stop => exact .inr (congrArg Except.error (herror stop hx))
  · intro h
    rw [hfits h]
    exact affords_pure a

theorem settles_stepEncodedLength (step : ProofStep) :
    (WorkM.ofExcept ((ProofCodec.stepEncodedLength step).mapError
      (Stop.map fun _ => .limit))).Settles Work.amounts Work.limit (step.Writable ∧
        step.nodes ≤ certificateMaxFormulaNodes ∧ step.bytes.length ≤ certificateMaxBytes)
      step.bytes.length := by
  apply settles_ofExcept
  · intro n hn
    exact (ProofCodec.stepEncodedLength_eq_ok.mp (mapError_eq_ok.mp hn)).2.2.2
  · intro stop hstop
    cases hencoded : ProofCodec.stepEncodedLength step with
    | ok n =>
      rw [hencoded] at hstop
      cases hstop
    | error stop' =>
      rw [hencoded] at hstop
      cases hstop
      have hnext : ProofCodec.encodeNext ⟨[], certificateMaxFormulaNodes⟩ step = .error stop' := by
        rcases bind_eq_error.mp hencoded with herror | ⟨s, hs, herror⟩
        · exact bind_eq_error.mpr (.inl herror)
        · rcases bind_eq_error.mp herror with herror | ⟨_, -, herror⟩
          · exact bind_eq_error.mpr (.inr ⟨s, hs, bind_eq_error.mpr (.inl herror)⟩)
          · cases herror
      cases ProofCodec.encodeNext_exhausts hnext <;> rfl
  · rintro ⟨hwritable, hnodes, hbytes⟩
    exact mapError_eq_ok.mpr (ProofCodec.stepEncodedLength_eq_ok.mpr ⟨hwritable, hnodes, hbytes, rfl⟩)

/-- What a computation on plans builds: the draft, unless a limit is exhausted. -/
abbrev Builds {α : Type} (m : WorkM α) (d : Draft ctx) (a : α) : Prop :=
  m.Settles Work.amounts Work.limit d.Admissible a

theorem settles_push (plan : Plan) (step : ProofStep) (length encoded work : ℕ) :
    (plan.push sizes step length encoded work).Settles Work.amounts Work.limit
      (plan.steps.length + 1 ≤ certificateMaxSteps ∧
        plan.encodedBytes + encoded ≤ certificateMaxBytes ∧
        plan.checkerWork + work ≤ checkerMaxFormulaWorkBytes)
      (plan.pushed step length encoded work, plan.steps.length) := by
  apply Settles.bind
  · exact (Work.settles_certificateLimits _ _).mono fun h => ⟨by omega, h.1, h.2.1⟩
  apply Settles.bind
  · exact (settles_require _).mono fun h => h.2.2
  apply Settles.bind
  · exact Work.settles_charge _ _
  apply Settles.bind
  · refine (settles_require _).mono fun h => ?_
    have hle := h.1
    unfold certificateMaxSteps at hle
    omega
  exact settles_pure _ _ _

theorem Admissible.push {plan : Plan} {step : ProofStep} {length encoded work : ℕ}
    (h : d.Admissible) (hplan : d.plan = plan.pushed step length encoded work) :
    plan.steps.length + 1 ≤ certificateMaxSteps ∧
      plan.encodedBytes + encoded ≤ certificateMaxBytes ∧
      plan.checkerWork + work ≤ checkerMaxFormulaWorkBytes := by
  have hlength := h.length_le
  have hbytes := h.bytes_le
  have hwork := h.work_le
  rw [hplan] at hlength hbytes hwork
  rw [Plan.pushed, List.length_append, List.length_singleton] at hlength
  exact ⟨hlength, hbytes, hwork⟩

/-- The step that was added last is one that the encoder accepts. -/
theorem Admissible.step {steps : List ProofStep} {step : ProofStep} (h : d.Admissible)
    (hsteps : d.plan.proofSteps = steps ++ [step]) :
    step.Writable ∧ step.nodes ≤ certificateMaxFormulaNodes ∧
      step.bytes.length ≤ certificateMaxBytes := by
  have hnodes := h.nodes_le
  have hbytes := h.bytes_le
  rw [d.derives.encoded_eq, hsteps, length_stepsBytes_snoc] at hbytes
  rw [hsteps, List.map_append, List.sum_append, List.map_singleton, List.sum_singleton] at hnodes
  refine ⟨h.writable step ?_, by omega, by omega⟩
  rw [hsteps]
  exact List.mem_append_right _ (List.mem_singleton_self step)

theorem builds_axiomStep {step : ProofStep} {f : Formula} (hf : Concludes ctx step [] f)
    (hr : step.references = []) : Builds (d.plan.axiomStep sizes step f.canonicalBytes.length)
      (d.axiomStep step f hf hr) ((d.axiomStep step f hf hr).plan, d.formulas.length) := by
  apply Settles.bind (settles_of_holds hr)
  apply Settles.bind (Work.settles_formula _ _ _)
  apply Settles.bind (a := step.bytes.length)
  · exact (settles_stepEncodedLength step).mono fun h => h.step (Plan.proofSteps_pushed ..)
  rw [d.derives.length_eq]
  exact (settles_push _ _ _ _ _).mono fun h => h.push rfl

theorem settles_lengthAt {i : ℕ} {a : Formula} (fits : Prop) (hi : d.formulas[i]? = some a) :
    (d.plan.lengthAt i).Settles Work.amounts Work.limit fits a.canonicalBytes.length := by
  obtain ⟨entry, hentry, hlength⟩ := d.derives.entry hi
  refine settles_orThrow ?_
  rw [hentry, Option.map_some, hlength]

theorem builds_modusPonens {i j : ℕ} {a f : Formula} (hi : d.formulas[i]? = some a)
    (hj : d.formulas[j]? = some (a.implies f)) :
    Builds (d.plan.modusPonens sizes i j f.canonicalBytes.length) (d.modusPonens i j a f hi hj)
      ((d.modusPonens i j a f hi hj).plan, d.formulas.length) := by
  apply Settles.bind (settles_lengthAt _ hi)
  apply Settles.bind (settles_lengthAt _ hj)
  rw [d.derives.length_eq]
  exact (settles_push _ _ _ _ _).mono fun h => h.push rfl

theorem builds_generalize {i : ℕ} {v : FreeVariable} {a : Formula}
    (hi : d.formulas[i]? = some a) :
    Builds (d.plan.generalize sizes i v) (d.generalize i v a hi)
      ((d.generalize i v a hi).plan, d.formulas.length) := by
  apply Settles.bind (settles_lengthAt _ hi)
  rw [d.derives.length_eq]
  have hplan : (d.generalize i v a hi).plan =
      d.plan.pushed (.generalization i v) (a.canonicalBytes.length + 1) 9
        (a.canonicalBytes.length + (a.canonicalBytes.length + 1)) := by
    rw [← Formula.length_forAll a v]
    rfl
  rw [hplan]
  exact (settles_push _ _ _ _ _).mono fun h => h.push hplan

theorem formula_of_unfolds {p : ℕ} {c : Derivation} (hc : Unfolds d.plan.proofSteps p c) :
    ∃ f, d.formulas[p]? = some f ∧ Proves ctx c f := by
  have hlt := hc.lt_length
  rw [← d.derives.evaluates.length_eq] at hlt
  exact ⟨_, List.getElem?_eq_getElem hlt,
    d.derives.evaluates.proves hc (List.getElem?_eq_getElem hlt)⟩

theorem sound (d : Draft ctx) :
    Sound ctx d.plan.proofSteps (∃ f ∈ d.formulas, ¬ f.WithinLimits) := by
  intro p c hc
  obtain ⟨f, hget, hf⟩ := formula_of_unfolds hc
  exact ⟨f, hf, fun hlarge => ⟨f, List.mem_of_getElem? hget, hlarge⟩⟩

theorem closes {target : Formula} (hlast : d.formulas.getLast? = some target)
    (hclosed : target.isClosed = true) : Closes ctx d.plan.proofSteps target := by
  refine ⟨hclosed, fun c hc => d.derives.evaluates.proves hc ?_⟩
  rwa [List.getLast?_eq_getElem?, d.derives.evaluates.length_eq] at hlast

theorem finalWork_eq {target : Formula} (hlast : d.formulas.getLast? = some target) :
    d.plan.finalWork = .ok (d.plan.checkerWork + target.canonicalBytes.length) := by
  rw [List.getLast?_eq_getElem?] at hlast
  obtain ⟨entry, hentry, hlength⟩ := d.derives.entry hlast
  rw [d.derives.length_eq, ← List.getLast?_eq_getElem?] at hentry
  rw [Plan.finalWork, hentry, ← hlength]
  rfl

section

variable (sizes : MemorySizes) (sha256 : List UInt8 → Digest) {target : Formula}
  (hlast : d.formulas.getLast? = some target)

include hlast

theorem settles_finish (witness : DeductionWitness) (fits : Prop)
    (hok : ∀ b, Deduction.checkReserved sha256 ctx d.plan.proofSteps target = .ok b → b = witness)
    (herror : ∀ stop, Deduction.checkReserved sha256 ctx d.plan.proofSteps target = .error stop →
      stop = Work.limit)
    (hfits : fits → Deduction.checkReserved sha256 ctx d.plan.proofSteps target = .ok witness)
    (hadmissible : fits → d.Admissible)
    (hwork : fits → d.plan.checkerWork + target.canonicalBytes.length ≤ checkerMaxFormulaWorkBytes) :
    (d.plan.finish sizes sha256 ctx target).Settles Work.amounts Work.limit fits witness := by
  have hne : d.plan.steps.length ≠ 0 := by
    rw [← d.derives.length_eq]
    intro hzero
    rw [List.eq_nil_of_length_eq_zero hzero] at hlast
    cases hlast
  apply Settles.bind
  · rw [finalWork_eq hlast]
    exact settles_pure _ _ _
  apply Settles.bind
  · refine (Work.settles_reserveCertificate _ _ _ _ _).mono fun h => ⟨⟨hne, ?_, ?_⟩, hwork h⟩
    · exact (hadmissible h).length_le
    · exact (hadmissible h).bytes_le
  exact settles_ofExcept hok herror hfits

/-- Finishing a draft of the target gives a certificate for it, unless a limit is exhausted. -/
theorem finish_certifies (hclosed : target.isClosed = true) :
    Certifying sha256 ctx target (d.plan.finish sizes sha256 ctx target) := by
  have hne : d.plan.proofSteps ≠ [] := by
    intro hnil
    have hlen := d.derives.evaluates.length_eq
    rw [hnil] at hlen
    rw [List.eq_nil_of_length_eq_zero hlen] at hlast
    cases hlast
  have hreserved := checkReserved_of_sound sha256 hne d.derives.evaluates.earlier
    d.sound (closes hlast hclosed)
  intro w
  rcases hreserved with herror | ⟨witness, hok, hcertifies⟩
  · left
    have hsettles := settles_finish sizes sha256 hlast ⟨0, [], []⟩ False
      (by simp [herror]) (by simp [herror]) False.elim False.elim False.elim
    rcases hsettles.outcome w with hrun | hrun
    · exfalso
      cases hw : (d.plan.finish sizes sha256 ctx target).run w with
      | mk r w' =>
        rw [hw] at hrun
        cases hrun
        obtain ⟨_, _, -, hw⟩ := run_bind_eq_ok.mp hw
        obtain ⟨_, _, -, hw⟩ := run_bind_eq_ok.mp hw
        have hreserved := (run_ofExcept_eq_ok.mp hw).1
        rw [Plan.proofSteps] at herror
        rw [herror] at hreserved
        cases hreserved
    · exact hrun
  · have hsettles := settles_finish sizes sha256 hlast witness False
      (by simp [hok]) (by simp [hok]) False.elim False.elim False.elim
    rcases hsettles.outcome w with hrun | hrun
    · exact .inr ⟨witness, hrun, hcertifies⟩
    · exact .inl hrun

end

end Draft

end Naome.Question
