import Naome.ProofCodec

/-!
# Specification of the certificate codec

Constructor, encoder and decoder agree on one pure byte string for each certificate and
on the limits under which it is accepted.
-/
namespace Naome
open LocallyNameless Outcome ByteCursor

theorem ProofFormula.WithinLimits.length_le {p : ProofFormula} (h : p.WithinLimits) :
    p.canonicalBytes.length ≤ formulaMaxBytes := by
  cases p with
  | primitive f =>
    exact FormulaCodec.length_nodeBytes_le _ (PrimitiveNode.symbols_eq_nil _) h.1
  | defined f hf => exact DefinedFormula.WithinLimits.length_le h

@[simp] theorem length_framed (bytes : List UInt8) : (framed bytes).length = 4 + bytes.length := by
  simp [framed]

namespace ProofCodec

theorem ensureWithinByteLimit_eq_ok {actual : ℕ} {a : Unit} :
    ensureWithinByteLimit actual = .ok a ↔ actual ≤ certificateMaxBytes := require_eq_ok

/-- What writing `bytes` with `nodes` formula nodes does to the sink. -/
def Wrote (s s' : Sink) (bytes : List UInt8) (nodes : ℕ) : Prop :=
  s'.output = s.output ++ bytes ∧ s'.remainingFormulaNodes + nodes = s.remainingFormulaNodes

theorem Wrote.trans {s s' s'' : Sink} {bs bs' : List UInt8} {k k' : ℕ} (h : Wrote s s' bs k)
    (h' : Wrote s' s'' bs' k') : Wrote s s'' (bs ++ bs') (k + k') := by
  obtain ⟨ho, hn⟩ := h
  obtain ⟨ho', hn'⟩ := h'
  exact ⟨by rw [ho', ho, List.append_assoc], by omega⟩

theorem wrote_extend (s : Sink) (bytes : List UInt8) : Wrote s (s.extend bytes) bytes 0 := ⟨rfl, rfl⟩

theorem writeFormula_eq_ok {f : ProofFormula} {s s' : Sink} :
    writeFormula f s = .ok s' ↔ f.WithinLimits ∧
      s.output.length + (framed f.canonicalBytes).length ≤ certificateMaxBytes ∧
      Wrote s s' (framed f.canonicalBytes) f.nodeCount := by
  simp only [writeFormula, bind_eq_ok, Prod.exists, mapError_eq_ok, require_eq_ok, exists_const,
    ProofFormula.encodeCanonicalWithNodeLimit_eq_ok, ensureWithinByteLimit_eq_ok, pure_eq_ok,
    length_framed]
  constructor
  · rintro ⟨_, _, ⟨hw, hn, rfl, rfl⟩, -, -, hl, rfl⟩
    exact ⟨hw, hl, rfl, Nat.sub_add_cancel hn⟩
  · rintro ⟨hw, hl, ho, hn⟩
    have hlen := hw.length_le
    unfold formulaMaxBytes at hlen
    refine ⟨_, _, ⟨hw, by omega, rfl, rfl⟩, by omega, by omega, hl, ?_⟩
    exact Sink.ext ho.symm (by simp only; omega)

theorem length_flatMap_u32Bytes (vs : List FreeVariable) :
    (vs.flatMap fun v => u32Bytes v.identifier.toNat).length = vs.length * 4 := by
  simp [List.length_flatMap]

theorem writeField_sound {s s' : Sink} {f : StepField} (h : writeField s f = .ok s') :
    f.Writable ∧ Wrote s s' f.bytes f.nodes := by
  cases f with
  | formula f =>
    obtain ⟨hw, -, hs⟩ := writeFormula_eq_ok.1 h
    exact ⟨hw, hs⟩
  | freeVariables vs =>
    simp only [writeField, writeVariables, bind_eq_ok, ensureWithinByteLimit_eq_ok, require_eq_ok,
      exists_const, pure_eq_ok] at h
    obtain ⟨-, -, rfl⟩ := h
    exact ⟨trivial, wrote_extend s _⟩
  | freeVariable v | zfcAxiom a | proofId d | reference k =>
    cases h
    exact ⟨trivial, wrote_extend s _⟩

theorem writeField_complete {s : Sink} {f : StepField} (hw : f.Writable)
    (hn : f.nodes ≤ s.remainingFormulaNodes)
    (hl : s.output.length + f.bytes.length ≤ certificateMaxBytes) :
    ∃ s', writeField s f = .ok s' := by
  cases f with
  | formula f =>
    refine ⟨⟨s.output ++ framed f.canonicalBytes, s.remainingFormulaNodes - f.nodeCount⟩, ?_⟩
    exact writeFormula_eq_ok.2 ⟨hw, hl, rfl, Nat.sub_add_cancel hn⟩
  | freeVariables vs =>
    simp only [StepField.bytes, List.length_append, length_u32Bytes, length_flatMap_u32Bytes,
      certificateMaxBytes] at hl
    refine ⟨_, bind_eq_ok.mpr ⟨(), ensureWithinByteLimit_eq_ok.2 ?_,
      bind_eq_ok.mpr ⟨(), require_eq_ok.mpr ?_, rfl⟩⟩⟩
    · unfold certificateMaxBytes
      omega
    · omega
  | freeVariable v | zfcAxiom a | proofId d | reference k => exact ⟨_, rfl⟩

theorem writeFields_sound {fields : List StepField} {s s' : Sink}
    (h : fields.foldlM writeField s = .ok s') :
    (∀ f ∈ fields, f.Writable) ∧
      Wrote s s' (fields.flatMap StepField.bytes) (fields.map StepField.nodes).sum := by
  induction fields generalizing s with
  | nil =>
    cases h
    exact ⟨by simp, by simp [Wrote]⟩
  | cons f fields ih =>
    obtain ⟨t, hf, h⟩ := foldlM_cons_eq_ok.mp h
    obtain ⟨hw, ht⟩ := writeField_sound hf
    obtain ⟨hws, hs⟩ := ih h
    exact ⟨List.forall_mem_cons.mpr ⟨hw, hws⟩, by simpa using ht.trans hs⟩

theorem writeFields_complete {fields : List StepField} {s : Sink}
    (hw : ∀ f ∈ fields, f.Writable)
    (hn : (fields.map StepField.nodes).sum ≤ s.remainingFormulaNodes)
    (hl : s.output.length + (fields.flatMap StepField.bytes).length ≤ certificateMaxBytes) :
    ∃ s', fields.foldlM writeField s = .ok s' := by
  induction fields generalizing s with
  | nil => exact ⟨s, rfl⟩
  | cons f fields ih =>
    simp only [List.map_cons, List.sum_cons, List.flatMap_cons, List.length_append] at hn hl
    obtain ⟨t, hf⟩ := writeField_complete (hw f (by simp)) (s := s) (by omega) (by omega)
    obtain ⟨-, ho, hr⟩ := writeField_sound hf
    obtain ⟨s', hs⟩ := ih (s := t) (fun g hg => hw g (by simp [hg])) (by omega)
      (by rw [ho, List.length_append]; omega)
    exact ⟨s', foldlM_cons_eq_ok.mpr ⟨t, hf, hs⟩⟩

theorem encodeStepWithFormulaBudget_sound {step : ProofStep} {s s' : Sink}
    (h : encodeStepWithFormulaBudget step s = .ok s') :
    step.Writable ∧ Wrote s s' step.bytes step.nodes := by
  obtain ⟨hw, hs⟩ := writeFields_sound h
  refine ⟨hw, ?_⟩
  have := (wrote_extend s [step.canonicalTag]).trans hs
  rwa [Nat.zero_add] at this

theorem encodeStepWithFormulaBudget_complete {step : ProofStep} {s : Sink} (hw : step.Writable)
    (hn : step.nodes ≤ s.remainingFormulaNodes)
    (hl : s.output.length + step.bytes.length ≤ certificateMaxBytes) :
    ∃ s', encodeStepWithFormulaBudget step s = .ok s' := by
  refine writeFields_complete hw hn ?_
  simp only [ProofStep.bytes, List.length_cons, Sink.extend, List.length_append,
    List.length_nil] at hl ⊢
  omega

/-- A step alone is encoded exactly when its own limits hold. -/
theorem encodeStep_eq_ok_of {step : ProofStep} (hw : step.Writable)
    (hn : step.nodes ≤ certificateMaxFormulaNodes)
    (hl : step.bytes.length ≤ certificateMaxBytes) : encodeStep step = .ok step.bytes := by
  obtain ⟨s, hs⟩ := encodeStepWithFormulaBudget_complete
    (s := ⟨[], certificateMaxFormulaNodes⟩) hw hn (by simpa using hl)
  obtain ⟨-, ho, -⟩ := encodeStepWithFormulaBudget_sound hs
  rw [encodeStep, hs]
  simpa [Except.map] using ho

/-- The loop body of the certificate encoder. -/
def encodeNext (s : Sink) (step : ProofStep) : CodecM Sink := do
  let s ← encodeStepWithFormulaBudget step s
  ensureWithinByteLimit s.output.length
  return s

theorem encodeNext_eq_ok {s s' : Sink} {step : ProofStep} :
    encodeNext s step = .ok s' ↔
      step.Writable ∧ Wrote s s' step.bytes step.nodes ∧
        s.output.length + step.bytes.length ≤ certificateMaxBytes := by
  simp only [encodeNext, bind_eq_ok, ensureWithinByteLimit_eq_ok, exists_const, pure_eq_ok]
  constructor
  · rintro ⟨t, ht, hl, rfl⟩
    obtain ⟨hw, hs⟩ := encodeStepWithFormulaBudget_sound ht
    refine ⟨hw, hs, ?_⟩
    rwa [hs.1, List.length_append] at hl
  · rintro ⟨hw, hs, hl⟩
    obtain ⟨ho, hn⟩ := hs
    obtain ⟨t, ht⟩ := encodeStepWithFormulaBudget_complete hw (s := s) (by omega) hl
    obtain ⟨-, hto, htn⟩ := encodeStepWithFormulaBudget_sound ht
    obtain rfl : t = s' := Sink.ext (hto.trans ho.symm) (by omega)
    exact ⟨t, ht, by rwa [hto, List.length_append], rfl⟩

theorem foldlM_encodeNext_eq_ok {steps : List ProofStep} {s s' : Sink}
    (hs : s.output.length ≤ certificateMaxBytes) :
    steps.foldlM encodeNext s = .ok s' ↔
      (∀ step ∈ steps, step.Writable) ∧
        Wrote s s' (steps.flatMap ProofStep.bytes) (steps.map ProofStep.nodes).sum ∧
        s.output.length + (steps.flatMap ProofStep.bytes).length ≤ certificateMaxBytes := by
  induction steps generalizing s with
  | nil =>
    constructor
    · intro h
      cases h
      exact ⟨by simp, by simp [Wrote], by simpa using hs⟩
    · rintro ⟨-, ⟨ho, hn⟩, -⟩
      obtain rfl : s = s' := Sink.ext (by simpa using ho.symm) (by simpa using hn.symm)
      rfl
  | cons step steps ih =>
    rw [foldlM_cons_eq_ok]
    constructor
    · rintro ⟨t, ht, h⟩
      obtain ⟨hw, hst, hl⟩ := encodeNext_eq_ok.1 ht
      have hto := congrArg List.length hst.1
      rw [List.length_append] at hto
      obtain ⟨hws, hts, hls⟩ := (ih (by omega)).mp h
      refine ⟨List.forall_mem_cons.mpr ⟨hw, hws⟩, by simpa using hst.trans hts, ?_⟩
      rw [List.flatMap_cons, List.length_append]
      omega
    · rintro ⟨hw, ⟨ho, hn⟩, hl⟩
      obtain ⟨hw, hws⟩ := List.forall_mem_cons.mp hw
      simp only [List.flatMap_cons, List.length_append, List.map_cons, List.sum_cons] at ho hn hl
      let t : Sink := ⟨s.output ++ step.bytes, s.remainingFormulaNodes - step.nodes⟩
      have hst : Wrote s t step.bytes step.nodes := ⟨rfl, Nat.sub_add_cancel (by omega)⟩
      have hlen : t.output.length = s.output.length + step.bytes.length := by simp [t]
      refine ⟨t, encodeNext_eq_ok.2 ⟨hw, hst, by omega⟩, (ih (by omega)).mpr
        ⟨hws, ⟨by simp [t, ho], ?_⟩, by omega⟩⟩
      simp only [t]
      omega

/-- The bytes of a list of steps. -/
def stepsBytes (steps : List ProofStep) : List UInt8 :=
  u32Bytes steps.length ++ steps.flatMap ProofStep.bytes

/-- Steps that the encoder accepts. -/
structure Encodable (steps : List ProofStep) : Prop where
  length_lt : steps.length < 2 ^ 32
  writable : ∀ step ∈ steps, step.Writable
  nodes_le : (steps.map ProofStep.nodes).sum ≤ certificateMaxFormulaNodes
  bytes_le : (stepsBytes steps).length ≤ certificateMaxBytes

theorem encodeStepsInto_eq_ok {steps : List ProofStep} {s : Sink} :
    encodeStepsInto steps = .ok s ↔ Encodable steps ∧ s.output = stepsBytes steps ∧
      s.remainingFormulaNodes + (steps.map ProofStep.nodes).sum = certificateMaxFormulaNodes := by
  have hstart : (u32Bytes steps.length).length ≤ certificateMaxBytes := by
    rw [length_u32Bytes]
    decide
  have hunfold : encodeStepsInto steps = .ok s ↔ steps.length < 2 ^ 32 ∧
      steps.foldlM encodeNext ⟨u32Bytes steps.length, certificateMaxFormulaNodes⟩ = .ok s := by
    simp only [encodeStepsInto, bind_eq_ok, require_eq_ok, exists_const]
    rfl
  rw [hunfold, foldlM_encodeNext_eq_ok hstart]
  constructor
  · rintro ⟨hlt, hw, ⟨ho, hn⟩, hl⟩
    refine ⟨⟨hlt, hw, ?_, by simpa [stepsBytes] using hl⟩, ho, hn⟩
    simp only at hn
    omega
  · rintro ⟨he, ho, hn⟩
    exact ⟨he.length_lt, he.writable, ⟨ho, hn⟩, by simpa [stepsBytes] using he.bytes_le⟩

theorem encodeSteps_eq_ok {steps : List ProofStep} {bytes : List UInt8} :
    encodeSteps steps = .ok bytes ↔ Encodable steps ∧ bytes = stepsBytes steps := by
  simp only [encodeSteps, map_eq_ok, encodeStepsInto_eq_ok]
  constructor
  · rintro ⟨s, ⟨he, ho, -⟩, rfl⟩
    exact ⟨he, ho⟩
  · rintro ⟨he, rfl⟩
    exact ⟨⟨_, _⟩, ⟨he, rfl, Nat.sub_add_cancel he.nodes_le⟩, rfl⟩

theorem validateStepsEncoding_eq_ok {steps : List ProofStep} {a : Unit} :
    validateStepsEncoding steps = .ok a ↔ Encodable steps := by
  simp only [validateStepsEncoding, map_eq_ok, encodeStepsInto_eq_ok]
  constructor
  · rintro ⟨s, ⟨he, -⟩, -⟩
    exact he
  · intro he
    exact ⟨⟨_, _⟩, ⟨he, rfl, Nat.sub_add_cancel he.nodes_le⟩, trivial⟩

end ProofCodec
end Naome
