import Naome.CertificateErrors
import Naome.CheckingWork
import Naome.DeductionPlan
import Naome.FormulaLength

/-!
# The accounts of a plan

A plan that was built with true lengths knows the exact bytes of its certificate, and the work it
adds up bounds every charge of the checker.
-/
namespace Naome
open LocallyNameless Outcome Checker

/-- The header of a cited proof names the length of its conclusion. -/
def ContextView.MeasuresConclusions (ctx : ContextView) : Prop :=
  ∀ id header f, ctx.proofHeader id = .ok (some header) →
    ctx.proofFormula header header.length = .ok (some f) → header.length = f.canonicalBytes.length

namespace Checker

variable {sha256 : List UInt8 → Digest} {ctx : ContextView}

theorem Produces.length_eq (hctx : ctx.MeasuresConclusions) {step : ProofStep} {inputs : List Entry}
    {e : Entry} (h : Produces sha256 ctx step inputs e) :
    e.canonicalLength = e.formula.canonicalBytes.length := by
  cases h with
  | cited hheader hformula => exact hctx _ _ _ hheader hformula
  | derived _ _ => rfl

theorem Yields.length_eq (hctx : ctx.MeasuresConclusions) {d : Derivation} {e : Entry}
    (h : Yields sha256 ctx d e) : e.canonicalLength = e.formula.canonicalBytes.length := by
  cases h with
  | leaf h => exact h.length_eq hctx
  | modusPonens _ _ h => exact h.length_eq hctx
  | generalization _ h => exact h.length_eq hctx

theorem plannedWork_congr {length length' : ℕ → ℕ} {step : ProofStep} {p : ℕ}
    (hr : ∀ r ∈ step.references, length r = length' r) (hp : length p = length' p) :
    plannedWork length step p = plannedWork length' step p := by
  rw [plannedWork, plannedWork, List.map_congr_left hr, hp]

theorem totalWork_eq_sum (length : ℕ → ℕ) (steps : List ProofStep) :
    totalWork length steps = (steps.zipIdx.map fun q => plannedWork length q.1 q.2).sum := by
  rw [← Fin.sum_univ_fun_getElem steps.zipIdx fun q => plannedWork length q.1 q.2, totalWork]
  refine Fintype.sum_equiv (finCongr List.length_zipIdx.symm) _ _ fun p => ?_
  simp

theorem totalWork_snoc {length length' : ℕ → ℕ} {steps : List ProofStep} {step : ProofStep}
    (hearlier : ProofCodec.Earlier 0 steps) (h : ∀ p < steps.length, length' p = length p) :
    totalWork length' (steps ++ [step]) =
      totalWork length steps + plannedWork length' step steps.length := by
  rw [totalWork_eq_sum, totalWork_eq_sum, List.zipIdx_append, List.map_append, List.sum_append]
  congr 1
  · congr 1
    refine List.map_congr_left fun q hq => ?_
    have hlt : q.2 < steps.length := by
      have := List.snd_lt_of_mem_zipIdx hq
      omega
    refine plannedWork_congr (fun r hr => h r ?_) (h q.2 hlt)
    exact (hearlier q hq r hr).trans hlt
  · simp

theorem earlier_snoc {steps : List ProofStep} {step : ProofStep}
    (hearlier : ProofCodec.Earlier 0 steps) (hr : ∀ r ∈ step.references, r < steps.length) :
    ProofCodec.Earlier 0 (steps ++ [step]) := by
  intro q hq
  rw [List.zipIdx_append] at hq
  rcases List.mem_append.mp hq with hq | hq
  · exact hearlier q hq
  · simp only [List.zipIdx_singleton, List.mem_singleton] at hq
    subst hq
    simpa using hr

/-- Where the references are earlier, more steps do not change a derivation. -/
theorem unfolds_of_append {steps more : List ProofStep} (hearlier : ProofCodec.Earlier 0 steps)
    {p : ℕ} {d : Derivation} (h : Unfolds (steps ++ more) p d) (hp : p < steps.length) :
    Unfolds steps p d := by
  obtain ⟨d', hd'⟩ := Unfolds.exists_of_earlier hearlier hp
  cases (hd'.of_isPrefix (List.prefix_append steps more)).unique h
  exact hd'

/-- A length that covers what a step after `steps` can cost. -/
structure CoversStep (sha256 : List UInt8 → Digest) (ctx : ContextView) (steps : List ProofStep)
    (step : ProofStep) (length : ℕ) : Prop where
  yields : ∀ d e, Unfolds (steps ++ [step]) steps.length d → Yields sha256 ctx d e →
    e.canonicalLength ≤ length
  header : ∀ id header, step = .proofReference id → ctx.proofHeader id = .ok (some header) →
    header.length ≤ length

theorem Measures.snoc {steps : List ProofStep} {step : ProofStep} {length length' : ℕ → ℕ}
    (hm : Measures sha256 ctx steps length) (hearlier : ProofCodec.Earlier 0 steps)
    (h : ∀ p < steps.length, length' p = length p)
    (hstep : CoversStep sha256 ctx steps step (length' steps.length)) :
    Measures sha256 ctx (steps ++ [step]) length' := by
  have hcases : ∀ {p : ℕ} {s : ProofStep}, (steps ++ [step])[p]? = some s →
      p < steps.length ∨ p = steps.length ∧ s = step := by
    intro p s hs
    rcases Nat.lt_or_ge p steps.length with hlt | hge
    · exact .inl hlt
    · have hlen := (List.getElem?_eq_some_iff.mp hs).1
      rw [List.length_append, List.length_singleton] at hlen
      obtain rfl : p = steps.length := by omega
      rw [List.getElem?_concat_length] at hs
      exact .inr ⟨rfl, (Option.some.inj hs).symm⟩
  constructor
  · intro p d e hd he
    rcases hcases (List.getElem?_eq_getElem hd.lt_length) with hlt | ⟨rfl, -⟩
    · rw [h p hlt]
      exact hm.yields p d e (unfolds_of_append hearlier hd hlt) he
    · exact hstep.yields d e hd he
  · intro p id header hp hheader
    rcases hcases hp with hlt | ⟨rfl, hs⟩
    · rw [h p hlt]
      rw [List.getElem?_append_left hlt] at hp
      exact hm.header p id header hp hheader
    · exact hstep.header id header hs.symm hheader

theorem length_stepsBytes_snoc (steps : List ProofStep) (step : ProofStep) :
    (ProofCodec.stepsBytes (steps ++ [step])).length = (ProofCodec.stepsBytes steps).length + step.bytes.length := by
  simp only [ProofCodec.stepsBytes, List.length_append, ByteCursor.length_u32Bytes, List.flatMap_append,
    List.flatMap_singleton]
  omega

theorem getElem?_snoc_self {steps : List ProofStep} {step : ProofStep} :
    (steps ++ [step])[steps.length]? = some step := List.getElem?_concat_length

/-- A citation is covered by the length in its header. -/
theorem covers_proofReference {steps : List ProofStep} {id : ProofId} {header : ProofHeader}
    (hheader : ctx.proofHeader id = .ok (some header)) :
    CoversStep sha256 ctx steps (.proofReference id) header.length := by
  constructor
  · intro d e hd he
    cases hd.unique (.leaf getElem?_snoc_self rfl)
    cases he with
    | leaf hproduces =>
      obtain ⟨-, header', f, hheader', -, rfl⟩ := produces_cited.mp hproduces
      rw [hheader] at hheader'
      cases hheader'
      exact le_rfl
  · intro id' header' hid hheader'
    cases hid
    rw [hheader] at hheader'
    cases hheader'
    exact le_rfl

section

variable {steps : List ProofStep} {length : ℕ → ℕ} (hctx : ctx.MeasuresConclusions)
  (hearlier : ProofCodec.Earlier 0 steps) (hm : Measures sha256 ctx steps length)

include hctx hearlier hm

/-- A generalization is one byte longer than its premise. -/
theorem covers_generalization {premise : ℕ} (v : FreeVariable) (hlt : premise < steps.length) :
    CoversStep sha256 ctx steps (.generalization premise v) (length premise + 1) := by
  constructor
  · intro d e hd he
    cases hd with
    | leaf hp hr =>
      rw [getElem?_snoc_self] at hp
      cases hp
      cases hr
    | modusPonens hp =>
      rw [getElem?_snoc_self] at hp
      cases hp
    | generalization hp ha =>
      rw [getElem?_snoc_self] at hp
      cases hp
      cases he with
      | @generalization _ _ x _ hx hproduces =>
        have hle := hm.yields premise _ x (unfolds_of_append hearlier ha hlt) hx
        rw [hx.length_eq hctx] at hle
        obtain ⟨f, hf, -, rfl⟩ := (produces_derived (by simp)).mp hproduces
        cases hf with
        | generalization =>
          have hone : (Logic.generalization v x.formula).canonicalBytes.length =
            x.formula.canonicalBytes.length + 1 := Formula.length_forAll _ _
          change (Logic.generalization v x.formula).canonicalBytes.length ≤ length premise + 1
          omega
  · intro id header hid
    cases hid

/-- What modus ponens concludes is shorter than the implication. -/
theorem covers_modusPonens {premise implication : ℕ} (hlt : implication < steps.length) :
    CoversStep sha256 ctx steps (.modusPonens premise implication) (length implication) := by
  constructor
  · intro d e hd he
    cases hd with
    | leaf hp hr =>
      rw [getElem?_snoc_self] at hp
      cases hp
      cases hr
    | generalization hp =>
      rw [getElem?_snoc_self] at hp
      cases hp
    | modusPonens hp ha hb =>
      rw [getElem?_snoc_self] at hp
      cases hp
      cases he with
      | @modusPonens _ _ x y _ hx hy hproduces =>
        have hle := hm.yields implication _ y (unfolds_of_append hearlier hb hlt) hy
        rw [hy.length_eq hctx] at hle
        obtain ⟨f, hf, -, rfl⟩ := (produces_derived (by simp)).mp hproduces
        have hmp : Concludes ctx (.modusPonens 0 0) [x.formula, y.formula] f := hf
        cases hmp with
        | modusPonens hmp =>
          have himplies := congrArg (fun g => g.canonicalBytes.length) (Logic.modusPonens_eq_ok.mp hmp)
          simp only [Formula.length_implies] at himplies
          change f.canonicalBytes.length ≤ length implication
          omega
  · intro id header hid
    cases hid

end

/-- An instantiation holds its body twice and two more nodes. -/
theorem covers_universalInstantiation {steps : List ProofStep} (v r : FreeVariable) (body : Formula) :
    CoversStep sha256 ctx steps (.universalInstantiation v r (.primitive body))
      (body.canonicalBytes.length * 2 + 2) := by
  constructor
  · intro d e hd he
    cases hd.unique (.leaf getElem?_snoc_self rfl)
    cases he with
    | leaf hproduces =>
      obtain ⟨f, hf, -, rfl⟩ := (produces_derived (by simp)).mp hproduces
      have hleaf := concludes_leaf.mp hf
      cases hleaf
      have hshape : Logic.universalInstantiation v r body =
        (Formula.forAll v body).implies (body.substituteFree v r) := rfl
      have hlength := congrArg (fun g => g.canonicalBytes.length) hshape
      simp only [Formula.length_implies, Formula.length_forAll, Formula.length_substituteFree]
        at hlength
      change (Logic.universalInstantiation v r body).canonicalBytes.length ≤ _
      omega
  · intro id header hid
    cases hid

/-- Totals that are exact for the bytes of the steps and cover the work of checking them. -/
structure Totals (sha256 : List UInt8 → Digest) (ctx : ContextView) (steps : List ProofStep)
    (length : ℕ → ℕ) (encoded work : ℕ) : Prop where
  encoded_eq : encoded = (ProofCodec.stepsBytes steps).length
  work_eq : work = totalWork length steps
  earlier : ProofCodec.Earlier 0 steps
  measures : Measures sha256 ctx steps length

theorem totals_nil (length : ℕ → ℕ) : Totals sha256 ctx [] length 4 0 where
  encoded_eq := rfl
  work_eq := rfl
  earlier := by
    intro p hp
    cases hp
  measures := by
    constructor
    · intro p d e hd
      cases hd.lt_length
    · intro p id header hp
      cases hp

/-- One more step keeps the totals when its bytes are exact and its length is covered. -/
theorem Totals.snoc {steps : List ProofStep} {step : ProofStep} {length length' : ℕ → ℕ}
    {encoded work bytes own : ℕ} (h : Totals sha256 ctx steps length encoded work)
    (hold : ∀ p < steps.length, length' p = length p) (hown : length' steps.length = own)
    (hbytes : bytes = step.bytes.length) (hr : ∀ r ∈ step.references, r < steps.length)
    (hcovers : CoversStep sha256 ctx steps step own) :
    Totals sha256 ctx (steps ++ [step]) length' (encoded + bytes)
      (work + ((step.references.map length).sum + own)) := by
  refine ⟨?_, ?_, earlier_snoc h.earlier hr, h.measures.snoc h.earlier hold (by rwa [hown])⟩
  · rw [length_stepsBytes_snoc, ← h.encoded_eq, hbytes]
  · rw [totalWork_snoc h.earlier hold, ← h.work_eq, plannedWork, hown,
      List.map_congr_left fun r hmem => hold r (hr r hmem)]

end Checker

namespace ProofCodec

theorem stepEncodedLength_eq_ok {step : ProofStep} {n : ℕ} :
    stepEncodedLength step = .ok n ↔ step.Writable ∧ step.nodes ≤ certificateMaxFormulaNodes ∧
      step.bytes.length ≤ certificateMaxBytes ∧ n = step.bytes.length := by
  have hnext : stepEncodedLength step =
      (encodeNext ⟨[], certificateMaxFormulaNodes⟩ step).map fun s => s.output.length := by
    simp only [stepEncodedLength, encodeNext, map_bind]
    rfl
  rw [hnext, map_eq_ok]
  constructor
  · rintro ⟨s, hs, hn⟩
    obtain ⟨hw, ⟨hout, hnodes⟩, hle⟩ := encodeNext_eq_ok.mp hs
    simp only [List.length_nil, Nat.zero_add, List.nil_append] at hle hout hnodes
    subst hn
    exact ⟨hw, by omega, hle, by rw [hout]⟩
  · rintro ⟨hw, hnodes, hle, hn⟩
    refine ⟨⟨step.bytes, certificateMaxFormulaNodes - step.nodes⟩, encodeNext_eq_ok.mpr ?_, hn.symm⟩
    exact ⟨hw, ⟨rfl, Nat.sub_add_cancel hnodes⟩, by simpa using hle⟩

end ProofCodec

namespace Question
open Effect

theorem run_ofExcept_eq_ok {α : Type} {x : Except (Stop Failure) α} {a : α} {w w' : Work} :
    (WorkM.ofExcept x).run w = (.ok a, w') ↔ x = .ok a ∧ w = w' := by
  rw [WorkM.ofExcept, Prod.mk.injEq]

theorem citedHeader_eq_ok {ctx : ContextView} {id : ProofId} {header : ProofHeader} :
    citedHeader ctx id = .ok header ↔ ctx.proofHeader id = .ok (some header) := by
  simp only [citedHeader, bind_eq_ok, mapError_eq_ok, orError_eq_ok]
  constructor
  · rintro ⟨_, h, hsome⟩
    rw [h, hsome]
  · intro h
    exact ⟨_, h, rfl⟩

namespace Plan

variable {sizes : MemorySizes} {sha256 : List UInt8 → Digest} {ctx : ContextView} {plan plan' : Plan}
  {w w' : Work} {step : ProofStep} {length encoded work index : ℕ}

def proofSteps (plan : Plan) : List ProofStep := plan.steps.map PlannedStep.step

/-- The planned length at a position. -/
def lengths (plan : Plan) (p : ℕ) : ℕ := (plan.steps[p]?.map PlannedStep.length).getD 0

theorem length_proofSteps (plan : Plan) : plan.proofSteps.length = plan.steps.length :=
  List.length_map _

theorem lengths_eq {p : ℕ} {entry : PlannedStep} (h : plan.steps[p]? = some entry) :
    plan.lengths p = entry.length := by
  rw [lengths, h]
  rfl

theorem run_lengthAt_eq_ok {p n : ℕ} :
    (plan.lengthAt p).run w = (.ok n, w') ↔
      (∃ entry, plan.steps[p]? = some entry ∧ entry.length = n) ∧ w = w' := by
  rw [lengthAt, run_orThrow_eq_ok, Option.map_eq_some_iff]

/-- The plan with one more step. -/
def pushed (plan : Plan) (step : ProofStep) (length encoded work : ℕ) : Plan :=
  ⟨plan.steps ++ [⟨step, length⟩], plan.encodedBytes + encoded, plan.checkerWork + work,
    plan.references⟩

theorem push_ok (h : (plan.push sizes step length encoded work).run w = (.ok (plan', index), w')) :
    plan' = plan.pushed step length encoded work ∧ index = plan.steps.length := by
  obtain ⟨_, _, -, h⟩ := run_bind_eq_ok.mp h
  obtain ⟨_, _, -, h⟩ := run_bind_eq_ok.mp h
  obtain ⟨_, _, -, h⟩ := run_bind_eq_ok.mp h
  obtain ⟨_, _, -, h⟩ := run_bind_eq_ok.mp h
  obtain ⟨h, -⟩ := run_pure_eq_ok.mp h
  cases h
  exact ⟨rfl, rfl⟩

@[simp] theorem proofSteps_pushed (plan : Plan) (step : ProofStep) (length encoded work : ℕ) :
    (plan.pushed step length encoded work).proofSteps = plan.proofSteps ++ [step] := by
  simp [proofSteps, pushed]

theorem lengths_pushed_lt {p : ℕ} (hp : p < plan.steps.length) :
    (plan.pushed step length encoded work).lengths p = plan.lengths p := by
  rw [lengths, lengths, pushed, List.getElem?_append_left hp]

theorem lengths_pushed_last :
    (plan.pushed step length encoded work).lengths plan.steps.length = length := by
  rw [lengths, pushed, List.getElem?_concat_length]
  rfl

/-- The totals of a plan are those of its steps. -/
structure Accounted (sha256 : List UInt8 → Digest) (ctx : ContextView) (plan : Plan) : Prop extends
    Totals sha256 ctx plan.proofSteps plan.lengths plan.encodedBytes plan.checkerWork where
  references : ∀ (id : ProofId) (i : ℕ), plan.references[id]? = some i →
    plan.proofSteps[i]? = some (.proofReference id)

theorem accounted_new : Accounted sha256 ctx new := by
  refine ⟨totals_nil _, ?_⟩
  intro id i h
  simp [new] at h

/-- One more step keeps the accounts when its bytes are exact and its lengths are covered. -/
theorem Accounted.pushed (h : Accounted sha256 ctx plan) (hencoded : encoded = step.bytes.length)
    (hr : ∀ r ∈ step.references, r < plan.steps.length)
    (hwork : work = (step.references.map plan.lengths).sum + length)
    (hcovers : CoversStep sha256 ctx plan.proofSteps step length) :
    Accounted sha256 ctx (plan.pushed step length encoded work) := by
  have hlen := plan.length_proofSteps
  have hold : ∀ p < plan.proofSteps.length,
      (plan.pushed step length encoded work).lengths p = plan.lengths p :=
    fun p hp => lengths_pushed_lt (hlen ▸ hp)
  have hlast : (plan.pushed step length encoded work).lengths plan.proofSteps.length = length := by
    rw [hlen]
    exact lengths_pushed_last
  constructor
  · have htotals := h.toTotals.snoc hold hlast hencoded (by rwa [hlen]) hcovers
    rw [← hwork] at htotals
    rw [proofSteps_pushed]
    exact htotals
  · intro id i hi
    have hget := h.references id i hi
    rw [proofSteps_pushed, List.getElem?_append_left (List.getElem?_eq_some_iff.mp hget).1, hget]

theorem Accounted.insertReference (h : Accounted sha256 ctx plan) {id : ProofId} {i : ℕ}
    (hi : plan.proofSteps[i]? = some (.proofReference id)) :
    Accounted sha256 ctx { plan with references := plan.references.insert id i } := by
  refine ⟨h.toTotals, fun id' i' hi' => ?_⟩
  change (plan.references.insert id i)[id']? = some i' at hi'
  rw [Std.TreeMap.getElem?_insert] at hi'
  split_ifs at hi' with heq
  · cases hi'
    rw [← Std.LawfulEqOrd.eq_of_compare heq]
    exact hi
  · exact h.references id' i' hi'

theorem references_proofReference (id : ProofId) : (ProofStep.proofReference id).references = [] := rfl

theorem references_modusPonens (i j : ℕ) : (ProofStep.modusPonens i j).references = [i, j] := rfl

theorem references_generalization (i : ℕ) (v : FreeVariable) :
    (ProofStep.generalization i v).references = [i] := rfl

/-- A citation stands in the plan with the length of its header. -/
theorem Accounted.reference (h : Accounted sha256 ctx plan) {id : ProofId}
    (hrun : (plan.reference sizes ctx id).run w = (.ok (plan', index), w')) :
    Accounted sha256 ctx plan' ∧ plan.proofSteps <+: plan'.proofSteps ∧
      plan'.proofSteps[index]? = some (.proofReference id) := by
  obtain ⟨_, w₁, -, hrun⟩ := run_bind_eq_ok.mp hrun
  cases hfound : plan.references[id]? with
  | some i =>
    rw [hfound] at hrun
    obtain ⟨hrun, -⟩ := run_pure_eq_ok.mp hrun
    cases hrun
    exact ⟨h, List.prefix_rfl, h.references id _ hfound⟩
  | none =>
    rw [hfound] at hrun
    obtain ⟨_, w₂, -, hrun⟩ := run_bind_eq_ok.mp hrun
    obtain ⟨header, w₃, hheader, hrun⟩ := run_bind_eq_ok.mp hrun
    have hheader := citedHeader_eq_ok.1 (run_ofExcept_eq_ok.1 hheader).1
    obtain ⟨⟨pushed, i⟩, w₄, hpush, hrun⟩ := run_bind_eq_ok.mp hrun
    obtain ⟨rfl, rfl⟩ := push_ok hpush
    obtain ⟨hrun, -⟩ := run_pure_eq_ok.mp hrun
    cases hrun
    have hnext : Accounted sha256 ctx
        (plan.pushed (.proofReference id) header.length 33 header.length) := by
      refine h.pushed ?_ ?_ ?_ (covers_proofReference hheader)
      · simp [ProofStep.bytes, ProofStep.fields, StepField.bytes]
      · simp [references_proofReference]
      · simp [references_proofReference]
    have hget : (plan.pushed (.proofReference id) header.length 33 header.length).proofSteps[
        plan.steps.length]? = some (.proofReference id) := by
      rw [proofSteps_pushed, ← plan.length_proofSteps, List.getElem?_concat_length]
    refine ⟨hnext.insertReference hget, ?_, hget⟩
    exact ⟨[.proofReference id], (proofSteps_pushed plan _ header.length 33 header.length).symm⟩

/-- Modus ponens with a length that covers its conclusion. -/
theorem Accounted.modusPonens (h : Accounted sha256 ctx plan) {premise implication : ℕ}
    (hcovers : CoversStep sha256 ctx plan.proofSteps (.modusPonens premise implication) length)
    (hrun : (plan.modusPonens sizes premise implication length).run w = (.ok (plan', index), w')) :
    Accounted sha256 ctx plan' ∧
      plan'.proofSteps = plan.proofSteps ++ [.modusPonens premise implication] ∧
      index = plan.proofSteps.length := by
  obtain ⟨n, w₁, hpremise, hrun⟩ := run_bind_eq_ok.mp hrun
  obtain ⟨⟨first, hfirst, rfl⟩, -⟩ := run_lengthAt_eq_ok.1 hpremise
  obtain ⟨m, w₂, himplication, hrun⟩ := run_bind_eq_ok.mp hrun
  obtain ⟨⟨second, hsecond, rfl⟩, -⟩ := run_lengthAt_eq_ok.1 himplication
  obtain ⟨rfl, rfl⟩ := push_ok hrun
  refine ⟨h.pushed ?_ ?_ ?_ hcovers, proofSteps_pushed _ _ _ _ _, plan.length_proofSteps.symm⟩
  · simp [ProofStep.bytes, ProofStep.fields, StepField.bytes]
  · intro r hr
    rw [references_modusPonens, List.mem_cons, List.mem_singleton] at hr
    rcases hr with rfl | rfl
    · exact (List.getElem?_eq_some_iff.mp hfirst).1
    · exact (List.getElem?_eq_some_iff.mp hsecond).1
  · rw [references_modusPonens]
    simp only [List.map_cons, List.map_nil, List.sum_cons, List.sum_nil, lengths_eq hfirst,
      lengths_eq hsecond]
    omega

/-- A step without references and with a length that covers its formula. -/
theorem Accounted.axiomStep (h : Accounted sha256 ctx plan)
    (hcovers : CoversStep sha256 ctx plan.proofSteps step length)
    (hrun : (plan.axiomStep sizes step length).run w = (.ok (plan', index), w')) :
    Accounted sha256 ctx plan' ∧ plan'.proofSteps = plan.proofSteps ++ [step] ∧
      index = plan.proofSteps.length ∧ step.references = [] := by
  obtain ⟨_, w₁, hleaf, hrun⟩ := run_bind_eq_ok.mp hrun
  have hleaf := (run_require_eq_ok.mp hleaf).1
  obtain ⟨_, w₂, -, hrun⟩ := run_bind_eq_ok.mp hrun
  obtain ⟨n, w₃, hencoded, hrun⟩ := run_bind_eq_ok.mp hrun
  obtain ⟨-, -, -, rfl⟩ := ProofCodec.stepEncodedLength_eq_ok.1
    (mapError_eq_ok.mp (run_ofExcept_eq_ok.1 hencoded).1)
  obtain ⟨rfl, rfl⟩ := push_ok hrun
  refine ⟨h.pushed rfl ?_ ?_ hcovers, proofSteps_pushed _ _ _ _ _, plan.length_proofSteps.symm, hleaf⟩
  · simp [hleaf]
  · simp [hleaf]

/-- A generalization is one byte longer than its premise. -/
theorem Accounted.generalize (hctx : ctx.MeasuresConclusions) (h : Accounted sha256 ctx plan)
    {premise : ℕ} {v : FreeVariable}
    (hrun : (plan.generalize sizes premise v).run w = (.ok (plan', index), w')) :
    Accounted sha256 ctx plan' ∧ plan'.proofSteps = plan.proofSteps ++ [.generalization premise v] ∧
      index = plan.proofSteps.length := by
  obtain ⟨n, w₁, hpremise, hrun⟩ := run_bind_eq_ok.mp hrun
  obtain ⟨⟨entry, hentry, rfl⟩, -⟩ := run_lengthAt_eq_ok.1 hpremise
  obtain ⟨rfl, rfl⟩ := push_ok hrun
  have hlt := (List.getElem?_eq_some_iff.mp hentry).1
  refine ⟨h.pushed ?_ ?_ ?_ ?_, proofSteps_pushed _ _ _ _ _, plan.length_proofSteps.symm⟩
  · simp [ProofStep.bytes, ProofStep.fields, StepField.bytes]
  · simpa [references_generalization] using hlt
  · rw [references_generalization]
    simp only [List.map_cons, List.map_nil, List.sum_cons, List.sum_nil, lengths_eq hentry]
    omega
  · rw [← plan.length_proofSteps] at hlt
    rw [← lengths_eq hentry]
    exact covers_generalization hctx h.earlier h.measures v hlt

end Plan
end Question
end Naome
