import Naome.ProofDecode

/-!
# Errors of the certificate constructor

Steps with earlier references are refused for one reason only: a limit is exhausted. Each byte
limit that is reported really is exceeded by the bytes of the steps.
-/
namespace Naome
open LocallyNameless Outcome ByteCursor

namespace ProofCodec

/-- An exhausted limit of the encoder; `tooLong` is what an exceeded byte limit shows. -/
inductive Exhausts (tooLong : Prop) : Stop ProofCertificateError → Prop
  | inputTooLong {actual maximum : ℕ} (h : tooLong) :
    Exhausts tooLong (.error (.inputTooLong actual maximum))
  | formulaNodes {maximum : ℕ} : Exhausts tooLong (.error (.formulaNodeLimitExceeded maximum))
  | formula {reason : FormulaCodecError} : Exhausts tooLong (.error (.formula reason))
  | definedFormula {reason : DefinedFormulaCodecError} :
    Exhausts tooLong (.error (.definedFormula reason))

theorem Exhausts.mono {p q : Prop} {stop : Stop ProofCertificateError} (h : Exhausts p stop)
    (himp : p → q) : Exhausts q stop := by
  cases h with
  | inputTooLong h => exact .inputTooLong (himp h)
  | formulaNodes => exact .formulaNodes
  | formula => exact .formula
  | definedFormula => exact .definedFormula

theorem exhausts_mapProofFormulaError (p : Prop) (e : ProofFormulaCodecError) :
    Exhausts p (.error (mapProofFormulaError e)) := by
  unfold mapProofFormulaError
  split
  · exact .formulaNodes
  · exact .formula
  · exact .formulaNodes
  · exact .definedFormula

theorem exhausts_ensure {actual : ℕ} {stop : Stop ProofCertificateError}
    (h : ensureWithinByteLimit actual = .error stop) :
    Exhausts (certificateMaxBytes < actual) stop := by
  obtain ⟨hlt, rfl⟩ := require_eq_error.mp h
  exact .inputTooLong (Nat.lt_of_not_le hlt)

theorem writeFormula_exhausts {f : ProofFormula} {s : Sink} {stop : Stop ProofCertificateError}
    (h : writeFormula f s = .error stop) :
    Exhausts (certificateMaxBytes < s.output.length + (framed f.canonicalBytes).length) stop := by
  rcases bind_eq_error.mp h with h | ⟨⟨bytes, used⟩, hencode, h⟩
  · cases hencode : f.encodeCanonicalWithNodeLimit s.remainingFormulaNodes with
    | ok r =>
      rw [hencode] at h
      cases h
    | error e =>
      rw [hencode] at h
      cases h
      exact exhausts_mapProofFormulaError _ e
  obtain ⟨hw, hn, rfl, rfl⟩ :=
    ProofFormula.encodeCanonicalWithNodeLimit_eq_ok.mp (mapError_eq_ok.mp hencode)
  have hlen := hw.length_le
  unfold formulaMaxBytes at hlen
  rcases bind_eq_error.mp h with h | ⟨_, -, h⟩
  · exact absurd hn (require_eq_error.mp h).1
  rcases bind_eq_error.mp h with h | ⟨_, -, h⟩
  · have hlong := (require_eq_error.mp h).1
    omega
  rcases bind_eq_error.mp h with h | ⟨_, -, h⟩
  · rw [length_framed]
    exact exhausts_ensure h
  · cases h

theorem writeField_exhausts {s : Sink} {f : StepField} {stop : Stop ProofCertificateError}
    (h : writeField s f = .error stop) :
    Exhausts (certificateMaxBytes < s.output.length + f.bytes.length) stop := by
  cases f with
  | formula f => exact writeFormula_exhausts h
  | freeVariables vs =>
    have hbytes : (StepField.freeVariables vs).bytes.length = vs.length * 4 + 4 := by
      rw [StepField.bytes, List.length_append, length_u32Bytes, length_flatMap_u32Bytes, Nat.add_comm]
    rw [hbytes]
    rcases bind_eq_error.mp h with h | ⟨_, hle, h⟩
    · exact exhausts_ensure h
    have hle := ensureWithinByteLimit_eq_ok.1 hle
    unfold certificateMaxBytes at hle
    rcases bind_eq_error.mp h with h | ⟨_, -, h⟩
    · have hlong := (require_eq_error.mp h).1
      omega
    · cases h
  | freeVariable v | zfcAxiom a | proofId d | reference k => cases h

theorem writeFields_exhausts {fields : List StepField} {s : Sink}
    {stop : Stop ProofCertificateError} (h : fields.foldlM writeField s = .error stop) :
    Exhausts (certificateMaxBytes <
      s.output.length + (fields.flatMap StepField.bytes).length) stop := by
  induction fields generalizing s with
  | nil => cases h
  | cons f fields ih =>
    rw [List.flatMap_cons, List.length_append]
    rw [List.foldlM_cons] at h
    rcases bind_eq_error.mp h with h | ⟨t, ht, h⟩
    · exact (writeField_exhausts h).mono fun hlt => by omega
    · have hlen := congrArg List.length (writeField_sound ht).2.1
      rw [List.length_append] at hlen
      exact (ih h).mono fun hlt => by omega

theorem encodeNext_exhausts {s : Sink} {step : ProofStep} {stop : Stop ProofCertificateError}
    (h : encodeNext s step = .error stop) :
    Exhausts (certificateMaxBytes < s.output.length + step.bytes.length) stop := by
  rcases bind_eq_error.mp h with h | ⟨t, ht, h⟩
  · refine (writeFields_exhausts h).mono fun hlt => ?_
    simp only [Sink.extend, List.length_append, List.length_singleton] at hlt
    rw [ProofStep.bytes, List.length_cons]
    omega
  · have hlen := congrArg List.length (encodeStepWithFormulaBudget_sound ht).2.1
    rw [List.length_append] at hlen
    rcases bind_eq_error.mp h with h | ⟨_, -, h⟩
    · exact hlen ▸ exhausts_ensure h
    · cases h

theorem foldlM_encodeNext_exhausts {steps : List ProofStep} {s : Sink}
    {stop : Stop ProofCertificateError} (h : steps.foldlM encodeNext s = .error stop) :
    Exhausts (certificateMaxBytes <
      s.output.length + (steps.flatMap ProofStep.bytes).length) stop := by
  induction steps generalizing s with
  | nil => cases h
  | cons step steps ih =>
    rw [List.flatMap_cons, List.length_append]
    rw [List.foldlM_cons] at h
    rcases bind_eq_error.mp h with h | ⟨t, ht, h⟩
    · exact (encodeNext_exhausts h).mono fun hlt => by omega
    · have hlen := congrArg List.length (encodeNext_eq_ok.1 ht).2.1.1
      rw [List.length_append] at hlen
      exact (ih h).mono fun hlt => by omega

end ProofCodec

namespace ProofCertificate
open ProofCodec

/-- A certificate with earlier references is refused only for an exhausted limit. -/
theorem new_eq_error {steps : List ProofStep} {stop : Stop ProofCertificateError}
    (hne : steps ≠ []) (hearlier : Earlier 0 steps) (h : new steps = .error stop) :
    (certificateMaxSteps < steps.length ∧
        stop = .error (.tooManySteps steps.length certificateMaxSteps)) ∨
      Exhausts (certificateMaxBytes < (stepsBytes steps).length) stop := by
  rcases bind_eq_error.mp h with h | ⟨_, hvalid, h⟩
  · left
    rcases bind_eq_error.mp h with h | ⟨_, -, h⟩
    · exact absurd hne (require_eq_error.mp h).1
    rcases bind_eq_error.mp h with h | ⟨_, -, h⟩
    · obtain ⟨hlt, rfl⟩ := require_eq_error.mp h
      exact ⟨Nat.lt_of_not_le hlt, rfl⟩
    · have hok : (steps.zipIdx.forM fun p => validateStepReferences p.2 p.1) = .ok () :=
        forM_eq_ok.mpr fun p hp => validateStepReferences_eq_ok.2 (hearlier p hp)
      rw [hok] at h
      cases h
  · right
    have hle := (validateSteps_eq_ok.1 hvalid).2.1
    unfold certificateMaxSteps at hle
    rcases bind_eq_error.mp h with h | ⟨_, -, h⟩
    · cases hinto : encodeStepsInto steps with
      | ok s =>
        rw [validateStepsEncoding, hinto] at h
        cases h
      | error stop' =>
        rw [validateStepsEncoding, hinto] at h
        cases h
        rcases bind_eq_error.mp hinto with hinto | ⟨_, -, hinto⟩
        · have hlong := (require_eq_error.mp hinto).1
          omega
        · have hstop : steps.foldlM encodeNext ⟨u32Bytes steps.length, certificateMaxFormulaNodes⟩ =
              .error stop := hinto
          refine (foldlM_encodeNext_exhausts hstop).mono fun hlt => ?_
          rwa [stepsBytes, List.length_append]
    · cases h

end ProofCertificate
end Naome
