import Naome.CertificateErrors

/-!
# Exhausted node limits

The encoder of formulas reports its node limit only for trees with more nodes than are left, and the
certificate constructor only for steps with more nodes than a certificate may have.
-/
namespace Naome
open LocallyNameless Outcome FormulaCodec ByteCursor

section

variable {D : Type} {fmt : NodeFormat D} {n : Node FreeVariable D} {s : Encoder} {depth m : ℕ}

theorem leaveNode_ne_nodeLimit : leaveNode fmt s ≠ .error (.nodeLimitExceeded m) := by
  intro h
  unfold leaveNode at h
  split at h
  · cases h
  · split_ifs at h
    cases h

theorem enterNode_nodeLimit {maximumDepth : ℕ} {nodes : NodeBudget}
    (h : enterNode maximumDepth depth nodes = .error (.nodeLimitExceeded m)) :
    nodes.used = nodes.maximum := by
  simp only [enterNode, bind_eq_error, require_eq_error, reduceCtorEq, and_false, false_or] at h
  obtain ⟨-, -, h⟩ := h
  unfold NodeBudget.charge at h
  split_ifs at h with hfull
  exact hfull

theorem spent_of_enterNode {maximumDepth : ℕ} {nodes nodes' : NodeBudget}
    (h : enterNode maximumDepth depth nodes = .ok nodes') : nodes.Spent nodes' 1 := by
  simp only [enterNode, bind_eq_ok] at h
  obtain ⟨-, -, h⟩ := h
  exact NodeBudget.charge_eq_ok.mp h

/-- The encoder runs out of nodes only where the tree has more of them. -/
theorem encodeNode_nodeLimit (h : encodeNode fmt depth n s = .error (.nodeLimitExceeded m)) :
    s.nodes.maximum < s.nodes.used + n.nodeCount := by
  induction n generalizing depth s with
  | equal l r | member l r =>
    rw [encodeNode, bind_eq_error] at h
    rcases h with h | ⟨_, _, h⟩
    · have hfull := enterNode_nodeLimit h
      rw [Node.nodeCount]
      omega
    · exact absurd h leaveNode_ne_nodeLimit
  | not n ih | forAll n ih =>
    rw [encodeNode, bind_eq_error] at h
    rw [Node.nodeCount]
    rcases h with h | ⟨nodes, henter, h⟩
    · have hfull := enterNode_nodeLimit h
      omega
    · obtain ⟨hmaximum, hused⟩ := spent_of_enterNode henter
      rw [bind_eq_error] at h
      rcases h with h | ⟨_, _, h⟩
      · have hlt := ih h
        simp only [Encoder.push] at hlt
        omega
      · exact absurd h leaveNode_ne_nodeLimit
  | implies a b iha ihb =>
    rw [encodeNode, bind_eq_error] at h
    rw [Node.nodeCount]
    rcases h with h | ⟨nodes, henter, h⟩
    · have hfull := enterNode_nodeLimit h
      omega
    · obtain ⟨hmaximum, hused⟩ := spent_of_enterNode henter
      rw [bind_eq_error] at h
      rcases h with h | ⟨s', hs', h⟩
      · have hlt := iha h
        simp only [Encoder.push] at hlt
        omega
      · obtain ⟨hmaximum', hused'⟩ := (encodeNode_eq_ok.mp hs').spent
        simp only [Encoder.push] at hmaximum' hused'
        rw [bind_eq_error] at h
        rcases h with h | ⟨_, _, h⟩
        · have hlt := ihb h
          omega
        · exact absurd h leaveNode_ne_nodeLimit
  | definedRelation symbol xs =>
    rw [encodeNode, bind_eq_error] at h
    rcases h with h | ⟨_, _, h⟩
    · have hfull := enterNode_nodeLimit h
      rw [Node.nodeCount]
      omega
    · simp only [bind_eq_error, require_eq_error, reduceCtorEq, and_false, false_or] at h
      obtain ⟨_, _, _, _, h⟩ := h
      exact absurd h leaveNode_ne_nodeLimit

theorem encodeTree_nodeLimit {encoding : FreeVariableEncoding} {maximumNodes : ℕ}
    (h : encodeTree fmt encoding maximumNodes n = .error (.nodeLimitExceeded m)) :
    min maximumNodes formulaMaxNodes < n.nodeCount := by
  rw [encodeTree, bind_eq_error] at h
  rcases h with h | ⟨_, _, h⟩
  · have hlt := encodeNode_nodeLimit h
    simpa [NodeBudget.new] using hlt
  · cases h

end

namespace ProofCodec

/-- A formula that does not fit the nodes that are left. -/
theorem writeFormula_nodeLimit {f : ProofFormula} {s : Sink} {m : ℕ}
    (h : writeFormula f s = .error (.error (.formulaNodeLimitExceeded m))) :
    min s.remainingFormulaNodes formulaMaxNodes < f.nodeCount := by
  simp only [writeFormula, bind_eq_error, require_eq_error, reduceCtorEq, and_false, false_or,
    ensureWithinByteLimit, Stop.error.injEq] at h
  rcases h with h | ⟨_, _, _, _, _, _, _, _, h⟩
  · cases f with
    | primitive f =>
      cases hencode : f.encodeCanonicalWithNodeLimit s.remainingFormulaNodes with
      | ok r =>
        simp only [ProofFormula.encodeCanonicalWithNodeLimit, hencode] at h
        cases h
      | error e =>
        simp only [ProofFormula.encodeCanonicalWithNodeLimit, hencode, Except.mapError,
          Except.error.injEq, Stop.error.injEq] at h
        cases e with
        | nodeLimitExceeded m' =>
          have hlt := encodeTree_nodeLimit hencode
          rwa [ProofFormula.nodeCount, ProofFormula.node, Node.nodeCount_embed]
        | _ => cases h
    | defined f hf =>
      cases hencode : f.encodeCanonicalWithNodeLimit s.remainingFormulaNodes with
      | ok r =>
        simp only [ProofFormula.encodeCanonicalWithNodeLimit, hencode] at h
        cases h
      | error e =>
        simp only [ProofFormula.encodeCanonicalWithNodeLimit, hencode, Except.mapError,
          Except.error.injEq, Stop.error.injEq] at h
        cases e with
        | primitive e => cases h
        | codec e =>
          cases e with
          | nodeLimitExceeded m' =>
            rw [DefinedFormula.encodeCanonicalWithNodeLimit,
              DefinedFormula.encodeCanonicalWithLimits] at hencode
            cases htree : encodeTree (definedFormat true formulaMaxDepth) .preserve
                s.remainingFormulaNodes f.node with
            | ok r =>
              rw [htree] at hencode
              cases hencode
            | error e =>
              rw [htree] at hencode
              cases hencode
              exact encodeTree_nodeLimit htree
          | _ => cases h
  · cases h

theorem writeFields_nodeLimit {fields : List StepField} {s : Sink} {m : ℕ}
    (hs : s.remainingFormulaNodes ≤ formulaMaxNodes)
    (h : fields.foldlM writeField s = .error (.error (.formulaNodeLimitExceeded m))) :
    s.remainingFormulaNodes < (fields.map StepField.nodes).sum := by
  induction fields generalizing s with
  | nil => cases h
  | cons f fields ih =>
    rw [List.map_cons, List.sum_cons]
    rw [List.foldlM_cons] at h
    rcases bind_eq_error.mp h with h | ⟨t, ht, h⟩
    · cases f with
      | formula f =>
        have hlt := writeFormula_nodeLimit h
        rw [StepField.nodes]
        omega
      | freeVariables vs =>
        simp only [writeField, writeVariables, bind_eq_error, require_eq_error, reduceCtorEq,
          and_false, false_or, ensureWithinByteLimit, Stop.error.injEq] at h
        obtain ⟨_, _, _, _, h⟩ := h
        cases h
      | freeVariable v | zfcAxiom a | proofId d | reference k => cases h
    · obtain ⟨-, -, hnodes⟩ := writeField_sound ht
      have hlt := ih (by omega) h
      omega

theorem encodeNext_nodeLimit {step : ProofStep} {s : Sink} {m : ℕ}
    (hs : s.remainingFormulaNodes ≤ formulaMaxNodes)
    (h : encodeNext s step = .error (.error (.formulaNodeLimitExceeded m))) :
    s.remainingFormulaNodes < step.nodes := by
  rcases bind_eq_error.mp h with h | ⟨t, -, h⟩
  · have hfields : step.fields.foldlM writeField (s.extend [step.canonicalTag]) =
        .error (.error (.formulaNodeLimitExceeded m)) := h
    exact writeFields_nodeLimit (s := s.extend [step.canonicalTag]) hs hfields
  · simp only [bind_eq_error, ensureWithinByteLimit, require_eq_error, Stop.error.injEq,
      reduceCtorEq, and_false, false_or] at h
    obtain ⟨_, _, h⟩ := h
    cases h

theorem foldlM_encodeNext_nodeLimit {steps : List ProofStep} {s : Sink} {m : ℕ}
    (hs : s.remainingFormulaNodes ≤ formulaMaxNodes)
    (h : steps.foldlM encodeNext s = .error (.error (.formulaNodeLimitExceeded m))) :
    s.remainingFormulaNodes < (steps.map ProofStep.nodes).sum := by
  induction steps generalizing s with
  | nil => cases h
  | cons step steps ih =>
    rw [List.map_cons, List.sum_cons]
    rw [List.foldlM_cons] at h
    rcases bind_eq_error.mp h with h | ⟨t, ht, h⟩
    · have hlt := encodeNext_nodeLimit hs h
      omega
    · obtain ⟨-, ⟨-, hnodes⟩, -⟩ := encodeNext_eq_ok.1 ht
      have hlt := ih (by omega) h
      omega

end ProofCodec

theorem forM_ne_error {ε α : Type} {f : α → Except ε Unit} {e : ε} {xs : List α}
    (hf : ∀ x, f x ≠ .error e) : xs.forM f ≠ .error e := by
  induction xs with
  | nil =>
    intro h
    cases h
  | cons x xs ih =>
    intro h
    rw [List.forM] at h
    rcases bind_eq_error.mp h with h | ⟨_, -, h⟩
    · exact hf x h
    · exact ih h

namespace ProofCertificate
open ProofCodec

/-- The constructor reports its node limit only for steps that pass it. -/
theorem new_nodeLimit {steps : List ProofStep} {m : ℕ}
    (h : new steps = .error (.error (.formulaNodeLimitExceeded m))) :
    certificateMaxFormulaNodes < (steps.map ProofStep.nodes).sum := by
  rcases bind_eq_error.mp h with h | ⟨_, -, h⟩
  · simp only [validateSteps, bind_eq_error, require_eq_error, Stop.error.injEq, reduceCtorEq,
      and_false, false_or] at h
    obtain ⟨_, -, _, -, h⟩ := h
    refine absurd h (forM_ne_error fun row => forM_ne_error fun reference hone => ?_)
    simp only [validateReference, require_eq_error, Stop.error.injEq, reduceCtorEq,
      and_false] at hone
  rcases bind_eq_error.mp h with h | ⟨_, -, h⟩
  · cases hinto : encodeStepsInto steps with
    | ok s =>
      rw [validateStepsEncoding, hinto] at h
      cases h
    | error stop =>
      rw [validateStepsEncoding, hinto] at h
      cases h
      rcases bind_eq_error.mp hinto with hinto | ⟨_, -, hinto⟩
      · simp only [require_eq_error, reduceCtorEq, and_false] at hinto
      · have hstop : steps.foldlM encodeNext ⟨u32Bytes steps.length, certificateMaxFormulaNodes⟩ =
            .error (.error (.formulaNodeLimitExceeded m)) := hinto
        exact foldlM_encodeNext_nodeLimit le_rfl hstop
  · cases h

end ProofCertificate
end Naome
