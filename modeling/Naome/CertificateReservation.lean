import Naome.PlanAccounts

/-!
# Reservations are upper bounds

What is reserved for a certificate before it is built bounds its bytes and every charge of its
check, for plans of any shape and for lists of steps that were only measured.
-/
namespace Naome.Question
open LocallyNameless Outcome Effect Checker

variable {sizes : MemorySizes} {sha256 : List UInt8 → Digest} {ctx : ContextView} {w w' : Work}

/-- The lengths of a program cover what its steps yield. -/
def Program.Covered (sha256 : List UInt8 → Digest) (ctx : ContextView) (program : Program) : Prop :=
  ∀ (p : ℕ) (entry : PlannedStep) (d : Derivation) (e : Entry), program.steps[p]? = some entry →
    Unfolds (program.steps.map PlannedStep.step) p d → Yields sha256 ctx d e →
    e.canonicalLength ≤ entry.length

/-- The plans that the operations build when the lengths they are given are true. -/
inductive Plan.Built (sizes : MemorySizes) (sha256 : List UInt8 → Digest) (ctx : ContextView) :
    Plan → Prop
  | new : Built sizes sha256 ctx Plan.new
  | reference {plan plan' : Plan} {id : ProofId} {index : ℕ} {w w' : Work}
    (h : Built sizes sha256 ctx plan)
    (hrun : (plan.reference sizes ctx id).run w = (.ok (plan', index), w')) :
    Built sizes sha256 ctx plan'
  | modusPonens {plan plan' : Plan} {premise implication length index : ℕ} {w w' : Work}
    (h : Built sizes sha256 ctx plan)
    (hlength : CoversStep sha256 ctx plan.proofSteps (.modusPonens premise implication) length)
    (hrun : (plan.modusPonens sizes premise implication length).run w = (.ok (plan', index), w')) :
    Built sizes sha256 ctx plan'
  | axiomStep {plan plan' : Plan} {step : ProofStep} {length index : ℕ} {w w' : Work}
    (h : Built sizes sha256 ctx plan)
    (hlength : CoversStep sha256 ctx plan.proofSteps step length)
    (hrun : (plan.axiomStep sizes step length).run w = (.ok (plan', index), w')) :
    Built sizes sha256 ctx plan'
  | generalize {plan plan' : Plan} {premise index : ℕ} {v : FreeVariable} {w w' : Work}
    (h : Built sizes sha256 ctx plan)
    (hrun : (plan.generalize sizes premise v).run w = (.ok (plan', index), w')) :
    Built sizes sha256 ctx plan'
  | append {plan plan' : Plan} {program : Program} {index : ℕ} {w w' : Work}
    (h : Built sizes sha256 ctx plan) (hprogram : program.Covered sha256 ctx)
    (hrun : (plan.append sizes ctx program).run w = (.ok (plan', index), w')) :
    Built sizes sha256 ctx plan'

namespace Plan

/-- The steps of a program that were appended so far, and where each of them went. -/
structure Appends (sha256 : List UInt8 → Digest) (ctx : ContextView) (done : List ProofStep)
    (s : Plan × List ℕ) : Prop where
  accounted : s.1.Accounted sha256 ctx
  length_eq : s.2.length = done.length
  earlier : ProofCodec.Earlier 0 done
  unfolds : ∀ (k i : ℕ) d, s.2[k]? = some i → Unfolds done k d → Unfolds s.1.proofSteps i d

/-- A step that stands in the plan where its derivation is that of the program. -/
theorem Appends.snoc {done : List ProofStep} {s : Plan × List ℕ} {plan' : Plan} {position : ℕ}
    {step : ProofStep} (h : Appends sha256 ctx done s) (haccounted : plan'.Accounted sha256 ctx)
    (hbegins : s.1.proofSteps <+: plan'.proofSteps) (hr : ∀ r ∈ step.references, r < done.length)
    (hlast : ∀ d, Unfolds (done ++ [step]) done.length d → Unfolds plan'.proofSteps position d) :
    Appends sha256 ctx (done ++ [step]) (plan', s.2 ++ [position]) := by
  refine ⟨haccounted, by simp [h.length_eq], earlier_snoc h.earlier hr, ?_⟩
  intro k i d hk hd
  rcases Nat.lt_or_ge k done.length with hlt | hge
  · rw [List.getElem?_append_left (by rwa [h.length_eq])] at hk
    exact (h.unfolds k i d hk (unfolds_of_append h.earlier hd hlt)).of_isPrefix hbegins
  · have hlen := hd.lt_length
    rw [List.length_append, List.length_singleton] at hlen
    obtain rfl : k = done.length := by omega
    rw [← h.length_eq, List.getElem?_concat_length] at hk
    cases hk
    exact hlast d hd

/-- The derivation of a new modus ponens, in the program and in the plan. -/
theorem Appends.unfolds_modusPonens {done : List ProofStep} {s : Plan × List ℕ}
    (h : Appends sha256 ctx done s) {p q i j : ℕ} (hp : s.2[p]? = some i) (hq : s.2[q]? = some j)
    {d : Derivation} (hd : Unfolds (done ++ [.modusPonens p q]) done.length d) :
    Unfolds (s.1.proofSteps ++ [.modusPonens i j]) s.1.proofSteps.length d := by
  have hlt : ∀ {k m : ℕ}, s.2[k]? = some m → k < done.length := fun hk => by
    rw [← h.length_eq]
    exact (List.getElem?_eq_some_iff.mp hk).1
  cases hd with
  | leaf hstep hr =>
    rw [getElem?_snoc_self] at hstep
    cases hstep
    cases hr
  | generalization hstep =>
    rw [getElem?_snoc_self] at hstep
    cases hstep
  | modusPonens hstep ha hb =>
    rw [getElem?_snoc_self] at hstep
    cases hstep
    have ha := h.unfolds _ _ _ hp (unfolds_of_append h.earlier ha (hlt hp))
    have hb := h.unfolds _ _ _ hq (unfolds_of_append h.earlier hb (hlt hq))
    have hbegins := List.prefix_append s.1.proofSteps [ProofStep.modusPonens i j]
    exact .modusPonens getElem?_snoc_self (ha.of_isPrefix hbegins) (hb.of_isPrefix hbegins)

theorem Appends.unfolds_generalization {done : List ProofStep} {s : Plan × List ℕ}
    (h : Appends sha256 ctx done s) {p i : ℕ} {v : FreeVariable} (hp : s.2[p]? = some i)
    {d : Derivation} (hd : Unfolds (done ++ [.generalization p v]) done.length d) :
    Unfolds (s.1.proofSteps ++ [.generalization i v]) s.1.proofSteps.length d := by
  have hlt : p < done.length := by
    rw [← h.length_eq]
    exact (List.getElem?_eq_some_iff.mp hp).1
  cases hd with
  | leaf hstep hr =>
    rw [getElem?_snoc_self] at hstep
    cases hstep
    cases hr
  | modusPonens hstep =>
    rw [getElem?_snoc_self] at hstep
    cases hstep
  | generalization hstep ha =>
    rw [getElem?_snoc_self] at hstep
    cases hstep
    have ha := h.unfolds _ _ _ hp (unfolds_of_append h.earlier ha hlt)
    have hbegins := List.prefix_append s.1.proofSteps [ProofStep.generalization i v]
    exact .generalization getElem?_snoc_self (ha.of_isPrefix hbegins)

theorem unfolds_leaf_snoc {done steps : List ProofStep} {step : ProofStep} (hr : step.references = [])
    {i : ℕ} (hi : steps[i]? = some step) {d : Derivation}
    (hd : Unfolds (done ++ [step]) done.length d) : Unfolds steps i d := by
  cases hd.unique (.leaf getElem?_snoc_self hr)
  exact .leaf hi hr

/-- A step covers in the plan what it covers in the program, where its derivation is the same. -/
theorem coversStep_of_program {program : Program} (hprogram : program.Covered sha256 ctx)
    {done steps : List ProofStep} {step step' : ProofStep} {entry : PlannedStep}
    (hbegins : done ++ [step] <+: program.steps.map PlannedStep.step)
    (hearlier : ProofCodec.Earlier 0 (done ++ [step]))
    (hentry : program.steps[done.length]? = some entry)
    (hsame : ∀ d, Unfolds (done ++ [step]) done.length d → Unfolds (steps ++ [step']) steps.length d)
    (hcited : ∀ id, step' ≠ .proofReference id) :
    CoversStep sha256 ctx steps step' entry.length := by
  constructor
  · intro d e hd he
    obtain ⟨d', hd'⟩ := Unfolds.exists_of_earlier hearlier (p := done.length) (by simp)
    cases (hsame d' hd').unique hd
    exact hprogram _ entry d e hentry (hd'.of_isPrefix hbegins) he
  · intro id header hid
    exact absurd hid (hcited id)

/-- One appended step. -/
theorem Appends.step (hctx : ctx.MeasuresConclusions) {program : Program}
    (hprogram : program.Covered sha256 ctx) {done : List ProofStep} {s s' : Plan × List ℕ}
    {entry : PlannedStep} (h : Appends sha256 ctx done s)
    (hbegins : done ++ [entry.step] <+: program.steps.map PlannedStep.step)
    (hentry : program.steps[done.length]? = some entry)
    (hrun : (appendStep sizes ctx s entry).run w = (.ok s', w')) :
    Appends sha256 ctx (done ++ [entry.step]) s' := by
  have hlt : ∀ {k i : ℕ}, s.2[k]? = some i → k < done.length := fun hk => by
    rw [← h.length_eq]
    exact (List.getElem?_eq_some_iff.mp hk).1
  obtain ⟨⟨plan', position⟩, w₁, hop, hrun⟩ := run_bind_eq_ok.mp hrun
  obtain ⟨_, w₂, -, hrun⟩ := run_bind_eq_ok.mp hrun
  obtain ⟨_, w₃, -, hrun⟩ := run_bind_eq_ok.mp hrun
  obtain ⟨hrun, -⟩ := run_pure_eq_ok.mp hrun
  subst hrun
  obtain ⟨step, length⟩ := entry
  have hleaf : step.references = [] → (∀ id, step ≠ .proofReference id) →
      (do Work.formula length 8
          s.1.axiomStep sizes step length : WorkM (Plan × ℕ)).run w = (.ok (plan', position), w₁) →
      Appends sha256 ctx (done ++ [step]) (plan', s.2 ++ [position]) := by
    intro hr hcited hop
    obtain ⟨_, w₄, -, hop⟩ := run_bind_eq_ok.mp hop
    have hearlier : ProofCodec.Earlier 0 (done ++ [step]) := earlier_snoc h.earlier (by simp [hr])
    have hsame : ∀ d, Unfolds (done ++ [step]) done.length d →
        Unfolds (s.1.proofSteps ++ [step]) s.1.proofSteps.length d :=
      fun d hd => unfolds_leaf_snoc hr getElem?_snoc_self hd
    obtain ⟨haccounted, hsteps, rfl, -⟩ := h.accounted.axiomStep
      (coversStep_of_program hprogram hbegins hearlier hentry hsame hcited) hop
    refine h.snoc haccounted (hsteps ▸ List.prefix_append _ _) (by simp [hr]) ?_
    rwa [hsteps]
  cases step with
  | proofReference id =>
    obtain ⟨haccounted, hbegins', hget⟩ := h.accounted.reference hop
    exact h.snoc haccounted hbegins' (by simp [references_proofReference])
      fun d hd => unfolds_leaf_snoc rfl hget hd
  | modusPonens p q =>
    obtain ⟨i, w₄, hp, hop⟩ := run_bind_eq_ok.mp hop
    obtain ⟨hp, -⟩ := run_orThrow_eq_ok.mp hp
    obtain ⟨j, w₅, hq, hop⟩ := run_bind_eq_ok.mp hop
    obtain ⟨hq, -⟩ := run_orThrow_eq_ok.mp hq
    have hr : ∀ r ∈ (ProofStep.modusPonens p q).references, r < done.length := by
      rw [references_modusPonens]
      simp [hlt hp, hlt hq]
    obtain ⟨haccounted, hsteps, rfl⟩ := h.accounted.modusPonens
      (coversStep_of_program hprogram hbegins (earlier_snoc h.earlier hr) hentry
        (fun d hd => h.unfolds_modusPonens hp hq hd) (by simp)) hop
    refine h.snoc haccounted (hsteps ▸ List.prefix_append _ _) hr ?_
    rw [hsteps]
    exact fun d hd => h.unfolds_modusPonens hp hq hd
  | generalization p v =>
    obtain ⟨i, w₄, hp, hop⟩ := run_bind_eq_ok.mp hop
    obtain ⟨hp, -⟩ := run_orThrow_eq_ok.mp hp
    have hr : ∀ r ∈ (ProofStep.generalization p v).references, r < done.length := by
      rw [references_generalization]
      simp [hlt hp]
    obtain ⟨haccounted, hsteps, rfl⟩ := h.accounted.generalize hctx hop
    refine h.snoc haccounted (hsteps ▸ List.prefix_append _ _) hr ?_
    rw [hsteps]
    exact fun d hd => h.unfolds_generalization hp hd
  | _ => exact hleaf rfl (by simp) hop

/-- All steps of a program, from any beginning of it on. -/
theorem Appends.steps (hctx : ctx.MeasuresConclusions) {program : Program}
    (hprogram : program.Covered sha256 ctx) {done rest : List PlannedStep} {s s' : Plan × List ℕ}
    (hall : done ++ rest = program.steps)
    (h : Appends sha256 ctx (done.map PlannedStep.step) s)
    (hrun : (rest.foldlM (appendStep sizes ctx) s).run w = (.ok s', w')) :
    Appends sha256 ctx (program.steps.map PlannedStep.step) s' := by
  induction rest generalizing done s w with
  | nil =>
    obtain ⟨hrun, -⟩ := run_pure_eq_ok.mp hrun
    subst hrun
    rw [← hall, List.append_nil]
    exact h
  | cons entry rest ih =>
    rw [List.foldlM_cons] at hrun
    obtain ⟨t, w₁, hstep, hrun⟩ := run_bind_eq_ok.mp hrun
    have hall' : done ++ [entry] ++ rest = program.steps := by
      rw [← hall, List.append_assoc, List.singleton_append]
    refine ih hall' ?_ hrun
    have hmap : (done ++ [entry]).map PlannedStep.step =
        done.map PlannedStep.step ++ [entry.step] := by
      rw [List.map_append, List.map_singleton]
    rw [hmap]
    refine h.step hctx hprogram ?_ ?_ hstep
    · rw [← hall', ← hmap]
      exact (List.prefix_append (done ++ [entry]) rest).map _
    · rw [List.length_map, ← hall, List.getElem?_append_right le_rfl, Nat.sub_self]
      rfl

/-- Every plan built with true lengths keeps exact accounts. -/
theorem Built.accounted (hctx : ctx.MeasuresConclusions) {plan : Plan}
    (h : plan.Built sizes sha256 ctx) : plan.Accounted sha256 ctx := by
  induction h with
  | new => exact accounted_new
  | reference _ hrun ih => exact (ih.reference hrun).1
  | modusPonens _ hlength hrun ih => exact (ih.modusPonens hlength hrun).1
  | axiomStep _ hlength hrun ih => exact (ih.axiomStep hlength hrun).1
  | generalize _ hrun ih => exact (ih.generalize hctx hrun).1
  | @append plan _ _ _ _ _ _ hprogram hrun ih =>
    obtain ⟨_, w₁, -, hrun⟩ := run_bind_eq_ok.mp hrun
    obtain ⟨⟨plan', remapped⟩, w₂, hsteps, hrun⟩ := run_bind_eq_ok.mp hrun
    obtain ⟨_, w₃, -, hrun⟩ := run_bind_eq_ok.mp hrun
    obtain ⟨hrun, -⟩ := run_pure_eq_ok.mp hrun
    cases hrun
    have hstart : Appends sha256 ctx ([].map PlannedStep.step) (plan, []) := by
      refine ⟨ih, rfl, ?_, ?_⟩
      · intro p hp
        cases hp
      · intro k i d hk
        cases hk
    exact (hstart.steps hctx hprogram (List.nil_append _) hsteps).accounted

end Plan

namespace Deduction

def Measure.length (s : Measure) (p : ℕ) : ℕ := s.lengths[p]?.getD 0

/-- The measure of the steps that were looked at. -/
structure Measured (sha256 : List UInt8 → Digest) (ctx : ContextView) (done : List ProofStep)
    (s : Measure) : Prop extends Totals sha256 ctx done s.length s.encoded s.formulaWork where
  length_eq : s.lengths.length = done.length

theorem length_of_getElem? {s : Measure} {p n : ℕ} (h : s.lengths[p]? = some n) : s.length p = n := by
  rw [Measure.length, h]
  rfl

/-- The bounds of one step are exact for its bytes and cover its length and its work. -/
theorem Measured.boundStep (hctx : ctx.MeasuresConclusions) {done : List ProofStep} {s : Measure}
    {step : ProofStep} {maxReference length bytes cost nodes : ℕ} (h : Measured sha256 ctx done s)
    (hrun : (boundStep ctx maxReference s step).run w = (.ok (length, bytes, cost, nodes), w')) :
    bytes = step.bytes.length ∧ (∀ r ∈ step.references, r < done.length) ∧
      cost = (step.references.map s.length).sum + length ∧
      CoversStep sha256 ctx done step length := by
  have hlt : ∀ {p n : ℕ}, s.lengths[p]? = some n → p < done.length := fun hp => by
    rw [← h.length_eq]
    exact (List.getElem?_eq_some_iff.mp hp).1
  cases step with
  | proofReference id =>
    obtain ⟨header, w₁, hheader, hrun⟩ := run_bind_eq_ok.mp hrun
    have hheader := citedHeader_eq_ok.1 (run_ofExcept_eq_ok.1 hheader).1
    obtain ⟨hrun, -⟩ := run_pure_eq_ok.mp hrun
    cases hrun
    refine ⟨?_, ?_, ?_, covers_proofReference hheader⟩
    · simp [ProofStep.bytes, ProofStep.fields, StepField.bytes]
    · simp [Plan.references_proofReference]
    · simp [Plan.references_proofReference]
  | universalInstantiation v r body =>
    obtain ⟨_, w₁, -, hrun⟩ := run_bind_eq_ok.mp hrun
    obtain ⟨body', w₂, hbody, hrun⟩ := run_bind_eq_ok.mp hrun
    cases body with
    | defined f hf => exact (run_throw_eq_ok.mp hbody).elim
    | primitive f =>
      obtain ⟨rfl, -⟩ := run_pure_eq_ok.mp hbody
      obtain ⟨⟨encoded, used⟩, w₃, hencoded, hrun⟩ := run_bind_eq_ok.mp hrun
      obtain ⟨-, -, -, rfl⟩ := Formula.encodeCanonicalWithNodeLimit_eq_ok.mp
        (mapError_eq_ok.mp (run_ofExcept_eq_ok.1 hencoded).1)
      obtain ⟨_, w₄, -, hrun⟩ := run_bind_eq_ok.mp hrun
      obtain ⟨hrun, -⟩ := run_pure_eq_ok.mp hrun
      cases hrun
      have hr : (ProofStep.universalInstantiation v r (.primitive f)).references = [] := rfl
      refine ⟨?_, by simp [hr], by simp [hr], covers_universalInstantiation v r f⟩
      have hbytes : (ProofFormula.primitive f).canonicalBytes = f.canonicalBytes := rfl
      simp [ProofStep.bytes, ProofStep.fields, StepField.bytes, hbytes]
      omega
  | modusPonens p q =>
    obtain ⟨n, w₁, hp, hrun⟩ := run_bind_eq_ok.mp hrun
    obtain ⟨hp, -⟩ := run_orThrow_eq_ok.mp hp
    obtain ⟨m, w₂, hq, hrun⟩ := run_bind_eq_ok.mp hrun
    obtain ⟨hq, -⟩ := run_orThrow_eq_ok.mp hq
    obtain ⟨hrun, -⟩ := run_pure_eq_ok.mp hrun
    cases hrun
    refine ⟨?_, ?_, ?_, ?_⟩
    · simp [ProofStep.bytes, ProofStep.fields, StepField.bytes]
    · simp [Plan.references_modusPonens, hlt hp, hlt hq]
    · rw [Plan.references_modusPonens]
      simp only [List.map_cons, List.map_nil, List.sum_cons, List.sum_nil, length_of_getElem? hp,
        length_of_getElem? hq]
      omega
    · rw [← length_of_getElem? hq]
      exact covers_modusPonens hctx h.earlier h.measures (hlt hq)
  | generalization p v =>
    obtain ⟨n, w₁, hp, hrun⟩ := run_bind_eq_ok.mp hrun
    obtain ⟨hp, -⟩ := run_orThrow_eq_ok.mp hp
    obtain ⟨hrun, -⟩ := run_pure_eq_ok.mp hrun
    cases hrun
    refine ⟨?_, ?_, ?_, ?_⟩
    · simp [ProofStep.bytes, ProofStep.fields, StepField.bytes]
    · simp [Plan.references_generalization, hlt hp]
    · simp [Plan.references_generalization, length_of_getElem? hp]
    · rw [← length_of_getElem? hp]
      exact covers_generalization hctx h.earlier h.measures v (hlt hp)
  | _ => exact (run_throw_eq_ok.mp hrun).elim

theorem Measured.step (hctx : ctx.MeasuresConclusions) {done : List ProofStep} {s s' : Measure}
    {step : ProofStep} {maxReference : ℕ} (h : Measured sha256 ctx done s)
    (hrun : (measureStep ctx maxReference s step).run w = (.ok s', w')) :
    Measured sha256 ctx (done ++ [step]) s' := by
  obtain ⟨⟨length, bytes, cost, nodes⟩, w₁, hbound, hrun⟩ := run_bind_eq_ok.mp hrun
  obtain ⟨hrun, -⟩ := run_pure_eq_ok.mp hrun
  subst hrun
  obtain ⟨hbytes, hr, rfl, hcovers⟩ := h.boundStep hctx hbound
  constructor
  · refine h.toTotals.snoc ?_ ?_ hbytes hr hcovers
    · intro p hp
      rw [Measure.length, Measure.length, List.getElem?_append_left (by rwa [h.length_eq])]
    · rw [Measure.length, ← h.length_eq, List.getElem?_concat_length]
      rfl
  · simp [h.length_eq]

theorem Measured.steps (hctx : ctx.MeasuresConclusions) {done rest : List ProofStep}
    {s s' : Measure} {maxReference : ℕ} (h : Measured sha256 ctx done s)
    (hrun : (rest.foldlM (measureStep ctx maxReference) s).run w = (.ok s', w')) :
    Measured sha256 ctx (done ++ rest) s' := by
  induction rest generalizing done s w with
  | nil =>
    obtain ⟨hrun, -⟩ := run_pure_eq_ok.mp hrun
    subst hrun
    rwa [List.append_nil]
  | cons step rest ih =>
    rw [List.foldlM_cons] at hrun
    obtain ⟨t, w₁, hstep, hrun⟩ := run_bind_eq_ok.mp hrun
    rw [← List.singleton_append, ← List.append_assoc]
    exact ih (h.step hctx hstep) hrun

/-- The measure of a list: totals that cover it, and the length of the target. -/
theorem measureSteps_ok (sha256 : List UInt8 → Digest) (hctx : ctx.MeasuresConclusions) {steps : List ProofStep} {target : Formula}
    {measure : Measure} {references : ℕ}
    (hrun : (measureSteps ctx steps target).run w = (.ok (measure, references), w')) :
    ∃ work, Totals sha256 ctx steps measure.length measure.encoded work ∧
      measure.formulaWork = work + target.canonicalBytes.length := by
  obtain ⟨_, w₁, -, hrun⟩ := run_bind_eq_ok.mp hrun
  obtain ⟨_, w₂, -, hrun⟩ := run_bind_eq_ok.mp hrun
  obtain ⟨⟨maxReference, count⟩, w₃, -, hrun⟩ := run_bind_eq_ok.mp hrun
  obtain ⟨s, w₄, hsteps, hrun⟩ := run_bind_eq_ok.mp hrun
  obtain ⟨bytes, w₅, hbytes, hrun⟩ := run_bind_eq_ok.mp hrun
  obtain ⟨-, rfl⟩ := Formula.encodeCanonical_eq_ok.mp
    (mapError_eq_ok.mp (run_ofExcept_eq_ok.1 hbytes).1)
  obtain ⟨hrun, -⟩ := run_pure_eq_ok.mp hrun
  cases hrun
  have hstart : Measured sha256 ctx [] ⟨[], 4, 0, 0⟩ := ⟨totals_nil _, rfl⟩
  exact ⟨s.formulaWork, (hstart.steps hctx hsteps).toTotals, rfl⟩

end Deduction

/-- The reserved bytes and the reserved work are enough for the steps, as far as they conclude what
is expected. -/
structure Reserves (sha256 : List UInt8 → Digest) (ctx : ContextView) (steps : List ProofStep)
    (encoded work : ℕ) (expected : Formula → Prop) : Prop where
  bytes : ∀ c n, ProofCertificate.new steps = .ok c → c.intoUncheckedNormalForm = .ok n →
    c.canonicalBytes.length ≤ encoded ∧ n.certificate.canonicalBytes.length ≤ encoded
  work : ∀ c n outcome, ProofCertificate.new steps = .ok c → c.intoUncheckedNormalForm = .ok n →
    checkSteps sha256 n.certificate ctx .derive = .ok outcome → expected outcome.conclusion →
    outcome.chargedWork ≤ work

/-- No limit that was reserved is met again: neither when the certificate is constructed, nor, as
far as the steps derive what is expected, when it is checked. -/
structure Suffices (sha256 : List UInt8 → Digest) (ctx : ContextView) (steps : List ProofStep)
    (expected : Formula → Prop) : Prop where
  construction : ∀ actual maximum,
    ProofCertificate.new steps ≠ .error (.error (.tooManySteps actual maximum)) ∧
      ProofCertificate.new steps ≠ .error (.error (.inputTooLong actual maximum))
  check : ∀ c step actual maximum, ProofCertificate.new steps = .ok c →
    normalizeAndCheckWithState sha256 c ctx =
      .error (.error (.formulaWorkLimitExceeded step actual maximum)) →
    ∃ d x, Unfolds steps (steps.length - 1) d ∧ Yields sha256 ctx d x ∧ ¬ expected x.formula

section

variable {steps : List ProofStep} {length : ℕ → ℕ} {encoded base closing : ℕ}
  {expected : Formula → Prop}

theorem exists_rootDerivation {c : ProofCertificate} (hv : c.Valid) :
    ∃ d, Unfolds c.steps (c.steps.length - 1) d := by
  have hpos := List.length_pos_of_ne_nil hv.nonempty
  exact Unfolds.exists_of_earlier hv.earlier (by omega)

/-- Totals with the length of the conclusion reserve enough. -/
theorem totals_reserve (h : Totals sha256 ctx steps length encoded base)
    (hclosing : ∀ d x, Unfolds steps (steps.length - 1) d → Yields sha256 ctx d x →
      expected x.formula → x.canonicalLength ≤ closing) :
    Reserves sha256 ctx steps encoded (base + closing) expected := by
  constructor
  · intro c n hnew hn
    obtain ⟨hv, rfl⟩ := ProofCertificate.new_eq_ok.mp hnew
    obtain ⟨d, hd⟩ := exists_rootDerivation hv
    obtain ⟨n', hn', -, hbytes, -⟩ := NormalForm.normalForm_work hv h.measures hd
    rw [hn] at hn'
    cases hn'
    rw [h.encoded_eq]
    exact ⟨le_rfl, hbytes⟩
  · intro c n outcome hnew hn hcheck hexpected
    obtain ⟨hv, rfl⟩ := ProofCertificate.new_eq_ok.mp hnew
    obtain ⟨d, hd⟩ := exists_rootDerivation hv
    obtain ⟨n', hn', -, -, hcharged, -⟩ := NormalForm.normalForm_work hv h.measures hd
    rw [hn] at hn'
    cases hn'
    obtain ⟨x, hx, hformula, hle⟩ := hcharged outcome hcheck
    have hlast := hclosing d x hd hx (by rwa [hformula])
    rw [h.work_eq]
    omega

/-- Totals within the fixed limits suffice. -/
theorem totals_suffice (h : Totals sha256 ctx steps length encoded base)
    (hclosing : ∀ d x, Unfolds steps (steps.length - 1) d → Yields sha256 ctx d x →
      expected x.formula → x.canonicalLength ≤ closing)
    (hfits : Work.FitsCertificate steps.length encoded)
    (hwork : base + closing ≤ checkerMaxFormulaWorkBytes) :
    Suffices sha256 ctx steps expected := by
  have hne : steps ≠ [] := List.length_pos_iff.mp (Nat.pos_of_ne_zero hfits.nonempty)
  have hbytes := hfits.bytes_le
  rw [h.encoded_eq] at hbytes
  constructor
  · intro actual maximum
    constructor
    · intro herror
      rcases ProofCertificate.new_eq_error hne h.earlier herror with ⟨hlt, -⟩ | hexhausts
      · exact absurd hfits.steps_le (Nat.not_le_of_lt hlt)
      · cases hexhausts
    · intro herror
      rcases ProofCertificate.new_eq_error hne h.earlier herror with ⟨-, heq⟩ | hexhausts
      · cases heq
      · cases hexhausts with
        | inputTooLong hlt => omega
  · intro c step actual maximum hnew herror
    obtain ⟨hv, rfl⟩ := ProofCertificate.new_eq_ok.mp hnew
    obtain ⟨d, hd⟩ := exists_rootDerivation hv
    obtain ⟨-, -, -, -, -, hexceeds⟩ := NormalForm.normalForm_work hv h.measures hd
    rw [h.work_eq] at hwork
    rcases hexceeds _ _ _ herror with hlt | ⟨x, hx, hlt⟩
    · omega
    · refine ⟨d, x, hd, hx, fun hexpected => ?_⟩
      have hlast := hclosing d x hd hx hexpected
      omega

end

/-- Reservations are upper bounds, for every plan that was built with true lengths and for every
list of steps that was measured: the reserved bytes and work are at least those of the certificate
and of the check of its normal form, and once they were reserved neither the construction nor the
check meets the reserved limits. For a measured list this is about the target it is measured for;
only a list that derives another formula can still run out of work. -/
theorem reservations_are_bounds (sizes : MemorySizes) (sha256 : List UInt8 → Digest)
    (ctx : ContextView) (hctx : ctx.MeasuresConclusions) :
    (∀ plan checkerWork, Plan.Built sizes sha256 ctx plan → plan.finalWork = .ok checkerWork →
      Reserves sha256 ctx plan.proofSteps plan.encodedBytes checkerWork (fun _ => True) ∧
      ∀ w w', (Work.reserveCertificate sizes plan.steps.length plan.encodedBytes checkerWork
          plan.references.size).run w = (.ok (), w') →
        Suffices sha256 ctx plan.proofSteps (fun _ => True)) ∧
    ∀ steps target measure references w w',
      (Deduction.measureSteps ctx steps target).run w = (.ok (measure, references), w') →
      Reserves sha256 ctx steps measure.encoded measure.formulaWork (fun f => f = target) ∧
      ∀ v v', (Work.reserveCertificate sizes steps.length measure.encoded measure.formulaWork
          references).run v = (.ok (), v') →
        Suffices sha256 ctx steps (fun f => f = target) := by
  constructor
  · intro plan checkerWork hbuilt hfinal
    have haccounted := hbuilt.accounted hctx
    obtain ⟨last, hlast, hwork⟩ := bind_eq_ok.mp hfinal
    cases pure_eq_ok.mp hwork
    have hlast := orError_eq_ok.mp hlast
    have hclosing : ∀ d x, Unfolds plan.proofSteps (plan.proofSteps.length - 1) d →
        Yields sha256 ctx d x → True → x.canonicalLength ≤ last.length := by
      intro d x hd hx _
      have hle := haccounted.measures.yields _ d x hd hx
      rw [plan.length_proofSteps] at hle
      rw [List.getLast?_eq_getElem?] at hlast
      rwa [Plan.lengths_eq hlast] at hle
    refine ⟨totals_reserve haccounted.toTotals hclosing, fun w w' hreserve => ?_⟩
    obtain ⟨hfits, hle⟩ := Work.fits_of_reserveCertificate hreserve
    exact totals_suffice haccounted.toTotals hclosing (by rwa [plan.length_proofSteps]) hle
  · intro steps target measure references w w' hmeasure
    obtain ⟨work, htotals, hwork⟩ := Deduction.measureSteps_ok sha256 hctx hmeasure
    have hclosing : ∀ d x, Unfolds steps (steps.length - 1) d → Yields sha256 ctx d x →
        x.formula = target → x.canonicalLength ≤ target.canonicalBytes.length := by
      intro d x hd hx htarget
      rw [hx.length_eq hctx, htarget]
    rw [hwork]
    refine ⟨totals_reserve htotals hclosing, fun v v' hreserve => ?_⟩
    obtain ⟨hfits, hle⟩ := Work.fits_of_reserveCertificate hreserve
    exact totals_suffice htotals hclosing hfits hle

namespace Cited

/-- `∀ x, x = x`. -/
def identity : Formula := .forAll ⟨0⟩ (.equal ⟨0⟩ ⟨0⟩)

def header : ProofHeader := ⟨7, 6, 12⟩

/-- A context with one proof, the proof 5. -/
def context : ContextView := { ContextView.empty 0 with
  proofHeader id := .ok (if id = 5 then some header else none)
  proofFormula h maximum :=
    .ok (if h = header ∧ 12 ≤ maximum then some identity else none)
  closed h maximum f hf := by
    split_ifs at hf
    · cases hf
      rfl
    · cases hf }

theorem measuresConclusions : context.MeasuresConclusions := by
  intro id h f hheader hformula
  have hfound : (if id = 5 then some header else none) = some h := Except.ok.inj hheader
  split_ifs at hfound with hid
  cases hfound
  have hread : (if header = header ∧ 12 ≤ header.length then some identity else none) = some f :=
    Except.ok.inj hformula
  rw [if_pos ⟨rfl, by decide⟩] at hread
  cases hread
  decide

def steps : List ProofStep := [.proofReference 5, .generalization 0 ⟨0⟩]

/-- The target the steps derive, the universal closure of the proof. -/
def target : Formula := .forAll ⟨0⟩ identity

def start : Work := ⟨1000, 1000000, 1000, 10000⟩

/-- The plan that cites the proof and generalizes it once more. -/
def planned : WorkM (Plan × ℕ) := do
  let (plan, cited) ← Plan.new.reference ⟨0, 0⟩ context 5
  plan.generalize ⟨0, 0⟩ cited ⟨0⟩

theorem planned_run : ((planned.run start).1.toOption.map fun r =>
    (r.1.proofSteps, r.1.encodedBytes, r.1.finalWork.toOption, r.1.references.size)) =
      some (steps, 46, some 50, 1) := by
  decide +kernel

theorem measured_run : (((Deduction.measureSteps context steps target).run start).1.toOption.map
    fun r => (r.1.encoded, r.1.formulaWork, r.2)) = some (46, 50, 1) := by
  decide +kernel

theorem reserved_run :
    ((Work.reserveCertificate ⟨0, 0⟩ 2 46 50 1).run start).1.toOption.isSome = true := by
  decide +kernel

theorem run_of_toOption {α : Type} {m : WorkM α} {w : Work} {a : α}
    (h : (m.run w).1.toOption = some a) : ∃ w', m.run w = (.ok a, w') :=
  ⟨(m.run w).2, Prod.ext (toOption_eq_some.1 h) rfl⟩

end Cited

open Cited in
/-- The plan that cites a proof and generalizes it, and its list of steps, each with what is
reserved for it. -/
theorem reservations_are_bounds_cited : ∃ plan, Plan.Built ⟨0, 0⟩ (fun _ => 0) context plan ∧
    plan.proofSteps = [.proofReference 5, .generalization 0 ⟨0⟩] ∧
    Reserves (fun _ => 0) context plan.proofSteps 46 50 (fun _ => True) ∧
    Suffices (fun _ => 0) context plan.proofSteps (fun _ => True) ∧
    Reserves (fun _ => 0) context steps 46 50 (fun f => f = target) ∧
    Suffices (fun _ => 0) context steps (fun f => f = target) := by
  obtain ⟨hplans, hlists⟩ := reservations_are_bounds ⟨0, 0⟩ (fun _ => 0) context measuresConclusions
  obtain ⟨_, hreserve⟩ := Option.isSome_iff_exists.1 reserved_run
  obtain ⟨w', hreserve⟩ := run_of_toOption hreserve
  obtain ⟨⟨plan, index⟩, hplanned, hfacts⟩ := Option.map_eq_some_iff.1 planned_run
  obtain ⟨w, hplanned⟩ := run_of_toOption hplanned
  simp only [Prod.mk.injEq] at hfacts
  obtain ⟨hsteps, hbytes, hwork, hreferences⟩ := hfacts
  obtain ⟨⟨cited, position⟩, w₁, hcited, hgeneralized⟩ := run_bind_eq_ok.1 hplanned
  have hbuilt : Plan.Built ⟨0, 0⟩ (fun _ => 0) context plan :=
    .generalize (.reference .new hcited) hgeneralized
  obtain ⟨hbounds, hsuffices⟩ := hplans plan 50 hbuilt (toOption_eq_some.1 hwork)
  rw [hbytes] at hbounds
  rw [← plan.length_proofSteps, hsteps, hbytes, hreferences] at hsuffices
  obtain ⟨⟨measure, references⟩, hmeasured, hfacts⟩ := Option.map_eq_some_iff.1 measured_run
  obtain ⟨w₂, hmeasured⟩ := run_of_toOption hmeasured
  simp only [Prod.mk.injEq] at hfacts
  obtain ⟨hencoded, hformula, rfl⟩ := hfacts
  have hmeasure := hlists steps target measure 1 start w₂ hmeasured
  rw [hencoded, hformula] at hmeasure
  refine ⟨plan, hbuilt, hsteps, hbounds, ?_, hmeasure.1, hmeasure.2 start w' hreserve⟩
  rw [hsteps]
  exact hsuffices start w' hreserve

end Naome.Question
