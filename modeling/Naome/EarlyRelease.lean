import Naome.CheckDiagnostics

/-!
# Early release of results

The loop that forgets each result at its last use follows the loop that keeps them all: it never
reads a forgotten result, and both end alike. Only the evidence of an error that is found after the
release of a step's own inputs can be shorter, and it then says so.
-/
namespace Naome.Checker
open LocallyNameless Outcome ProofCodec

variable {sha256 : List UInt8 → Digest} {certificate : ProofCertificate} {ctx : ContextView}
  {mode : IdentityMode}

/-- The kinds that are found after the inputs of the step were released. -/
def AfterRelease : CheckErrorKind → Prop
  | .derivedFormula _ _ => True
  | .formulaWorkLimitExceeded _ _ _ => True
  | .openConclusion _ => True
  | _ => False

/-- A computation without violated assertions whose errors have a property. -/
def Reports {α : Type} (P : CheckErrorKind → Prop) (x : CheckM α) : Prop :=
  ∀ stop, x = .error stop → ∃ kind, stop = .error kind ∧ P kind

section

variable {α β : Type} {P : CheckErrorKind → Prop}

theorem reports_ok (a : α) : Reports P (.ok a) := by
  intro stop h
  cases h

theorem reports_error {kind : CheckErrorKind} (h : P kind) :
    Reports P (.error (.error kind) : CheckM α) := by
  intro stop hstop
  cases hstop
  exact ⟨kind, rfl, h⟩

theorem Reports.bind {x : CheckM α} {f : α → CheckM β} (hx : Reports P x)
    (hf : ∀ a, x = .ok a → Reports P (f a)) : Reports P (x >>= f) := by
  intro stop h
  rcases bind_eq_error.mp h with h | ⟨a, ha, h⟩
  · exact hx stop h
  · exact hf a ha stop h

theorem reports_mapError {ε : Type} {x : Except ε α} {f : ε → Stop CheckErrorKind}
    (hf : ∀ e, ∃ kind, f e = .error kind ∧ P kind) : Reports P (x.mapError f) := by
  intro stop h
  cases x with
  | ok a => cases h
  | error e =>
    cases h
    exact hf e

theorem reports_orError {kind : CheckErrorKind} (o : Option α) (h : P kind) :
    Reports P (orError (.error kind) o) := by
  cases o with
  | none => exact reports_error h
  | some a => exact reports_ok a

theorem reports_require {p : Prop} [Decidable p] {kind : CheckErrorKind} (h : P kind) :
    Reports P (require p (.error kind)) := by
  unfold require
  split_ifs
  · exact reports_ok ()
  · exact reports_error h

theorem reports_chargeFormulaWork {position amount remaining : ℕ}
    (h : ∀ actual maximum, P (.formulaWorkLimitExceeded position actual maximum)) :
    Reports P (chargeFormulaWork position amount remaining) := by
  unfold chargeFormulaWork
  split_ifs
  · exact reports_error (h _ _)
  · exact reports_ok _

end

section

variable {position : ℕ}

/-- The errors of one step. -/
abbrev AtStep (position : ℕ) (kind : CheckErrorKind) : Prop := kind.step = position

theorem reports_primitiveFormula (f : ProofFormula) :
    Reports (AtStep position) (primitiveFormula ctx position f) := by
  cases f with
  | primitive f => exact reports_ok f
  | defined f h =>
    refine reports_mapError fun e => ?_
    cases e <;> exact ⟨_, rfl, rfl⟩

theorem reports_deriveAxiom {step : ProofStep} (hr : step.references = [])
    (hcited : ∀ id, step ≠ .proofReference id) :
    Reports (AtStep position) (deriveAxiom ctx position step) := by
  cases step with
  | proofReference id => exact absurd rfl (hcited id)
  | modusPonens i j => cases hr
  | generalization i v => cases hr
  | equalityReflexivity v | zfcAxiom fixed => exact reports_ok _
  | simplification a b | classicalContraposition a b | universalDistribution v a b =>
    exact (reports_primitiveFormula a).bind fun _ _ =>
      (reports_primitiveFormula b).bind fun _ _ => reports_ok _
  | frege a b c =>
    exact (reports_primitiveFormula a).bind fun _ _ => (reports_primitiveFormula b).bind fun _ _ =>
      (reports_primitiveFormula c).bind fun _ _ => reports_ok _
  | vacuousUniversal a | universalInstantiation v r a | equalitySubstitution v r a =>
    exact (reports_primitiveFormula a).bind fun _ _ => reports_ok _
  | separation s | replacement s =>
    apply Reports.bind
    · exact reports_require rfl
    intro _ _
    apply Reports.bind
    · exact (reports_primitiveFormula s.predicate).bind fun _ _ => reports_ok _
    intro _ _
    exact reports_mapError fun _ => ⟨_, rfl, rfl⟩

/-- A step without what it leaves of the table. -/
def deriveOnly (ctx : ContextView) (position : ℕ) (step : ProofStep)
    (results : List (Option CheckedStep)) (remainingWork : ℕ) : CheckM (DerivedStep × ℕ) :=
  (deriveStep ctx position step results [] remainingWork).map fun q => (q.1, q.2.2)

theorem deriveStep_eq_deriveOnly (step : ProofStep) (results : List (Option CheckedStep))
    (uses : List (Option ℕ)) (work : ℕ) :
    deriveStep ctx position step results uses work =
      (deriveOnly ctx position step results work).map fun q =>
        (q.1, movedResults uses position results step, q.2) := by
  cases step with
  | proofReference id =>
    simp only [deriveOnly, deriveStep, map_bind]
    rfl
  | modusPonens i j =>
    simp only [deriveOnly, deriveStep, map_bind]
    rfl
  | generalization i v =>
    simp only [deriveOnly, deriveStep, map_bind]
    rfl
  | _ =>
    simp only [deriveOnly, deriveStep, map_bind]
    rfl

/-- A step reads the table at its references only. -/
theorem deriveOnly_congr {step : ProofStep} {results results' : List (Option CheckedStep)}
    (h : ∀ r ∈ step.references, results[r]? = results'[r]?) (work : ℕ) :
    deriveOnly ctx position step results work = deriveOnly ctx position step results' work := by
  cases step with
  | modusPonens i j =>
    have hi : results[i]? = results'[i]? := h i List.mem_cons_self
    have hj : results[j]? = results'[j]? := h j (List.mem_cons_of_mem _ List.mem_cons_self)
    simp only [deriveOnly, deriveStep, result, hi, hj, map_bind]
    rfl
  | generalization i v =>
    have hi : results[i]? = results'[i]? := h i List.mem_cons_self
    simp only [deriveOnly, deriveStep, result, hi, map_bind]
    rfl
  | _ =>
    simp only [deriveOnly, deriveStep, map_bind]
    rfl

theorem reports_map {α β : Type} {P : CheckErrorKind → Prop} {x : CheckM α} (f : α → β)
    (h : Reports P x) : Reports P (x.map f) := by
  intro stop hstop
  cases x with
  | ok a => cases hstop
  | error stop' =>
    cases hstop
    exact h _ rfl

/-- No reference of a step is missing as long as the table has them. -/
theorem reports_deriveOnly {step : ProofStep} {results : List (Option CheckedStep)} {work : ℕ}
    (h : ∀ r ∈ step.references, ∃ c, results[r]? = some (some c)) :
    Reports (AtStep position) (deriveOnly ctx position step results work) := by
  have hresult : ∀ r ∈ step.references, Reports (AtStep position) (result results r) := by
    intro r hr
    obtain ⟨c, hc⟩ := h r hr
    rw [result, hc]
    exact reports_ok c
  refine reports_map _ ?_
  cases step with
  | proofReference id =>
    apply Reports.bind
    · exact reports_mapError fun _ => ⟨_, rfl, rfl⟩
    intro _ _
    apply Reports.bind
    · exact reports_orError _ rfl
    intro _ _
    apply Reports.bind
    · exact reports_chargeFormulaWork fun _ _ => rfl
    intro _ _
    apply Reports.bind
    · exact reports_mapError fun _ => ⟨_, rfl, rfl⟩
    intro _ _
    apply Reports.bind
    · exact reports_orError _ rfl
    exact fun _ _ => reports_ok _
  | modusPonens i j =>
    refine (hresult i List.mem_cons_self).bind fun _ _ => ?_
    refine (hresult j (List.mem_cons_of_mem _ List.mem_cons_self)).bind fun _ _ => ?_
    refine (reports_chargeFormulaWork fun _ _ => rfl).bind fun _ _ => ?_
    apply Reports.bind
    · exact reports_mapError fun _ => ⟨_, rfl, rfl⟩
    exact fun _ _ => reports_ok _
  | generalization i v =>
    refine (hresult i List.mem_cons_self).bind fun _ _ => ?_
    exact (reports_chargeFormulaWork fun _ _ => rfl).bind fun _ _ => reports_ok _
  | _ => exact (reports_deriveAxiom rfl (by simp)).bind fun _ _ => reports_ok _

/-- A cited formula is charged before it is read and has its own identity. -/
theorem deriveOnly_precharged {step : ProofStep} {results : List (Option CheckedStep)}
    {work work' : ℕ} {derived : DerivedStep}
    (h : deriveOnly ctx position step results work = .ok (derived, work')) :
    derived.prechargedLength = none ↔ derived.referencedDerivationId = none := by
  obtain ⟨q, hq, heq⟩ := map_eq_ok.mp h
  cases heq
  cases step with
  | proofReference id =>
    simp only [deriveStep, bind_eq_ok, pure_eq_ok] at hq
    obtain ⟨_, -, _, -, _, -, _, -, _, -, rfl⟩ := hq
    simp
  | modusPonens i j =>
    simp only [deriveStep, bind_eq_ok, pure_eq_ok] at hq
    obtain ⟨_, -, _, -, _, -, _, -, rfl⟩ := hq
    simp
  | generalization i v =>
    simp only [deriveStep, bind_eq_ok, pure_eq_ok] at hq
    obtain ⟨_, -, _, -, rfl⟩ := hq
    simp
  | _ =>
    simp only [deriveStep, bind_eq_ok, pure_eq_ok] at hq
    obtain ⟨_, -, rfl⟩ := hq
    simp

/-- The errors of one step that are found after its inputs were released. -/
abbrev LateAt (position : ℕ) (kind : CheckErrorKind) : Prop :=
  kind.step = position ∧ AfterRelease kind

theorem reports_encodeResult {finalStep : ℕ} {derived : DerivedStep} :
    Reports (LateAt position) (encodeResult mode position finalStep derived) := by
  unfold encodeResult
  split_ifs
  · exact reports_mapError fun _ => ⟨_, rfl, rfl, trivial⟩
  · exact reports_ok none

theorem isSome_of_encodeResult {finalStep : ℕ} {derived : DerivedStep}
    {canonical : Option (List UInt8)}
    (h : encodeResult mode position finalStep derived = .ok canonical)
    (hneeded : derived.prechargedLength = none ∨ position = finalStep) :
    ∃ bytes, canonical = some bytes := by
  have hif : derived.prechargedLength.isNone ∨ position = finalStep := by
    rcases hneeded with hneeded | hneeded
    · exact .inl (by rw [hneeded]; rfl)
    · exact .inr hneeded
  rw [encodeResult, if_pos hif, mapError_eq_ok, map_eq_ok] at h
  obtain ⟨bytes, -, rfl⟩ := h
  exact ⟨bytes, rfl⟩

theorem reports_chargeResult {derived : DerivedStep} {canonical : Option (List UInt8)} {work : ℕ}
    (h : derived.prechargedLength = none → ∃ bytes, canonical = some bytes) :
    Reports (LateAt position) (chargeResult position derived canonical work) := by
  unfold chargeResult
  split
  · exact reports_ok _
  · next hnone =>
    obtain ⟨bytes, rfl⟩ := h hnone
    exact (reports_ok bytes).bind fun _ _ =>
      (reports_chargeFormulaWork fun _ _ => ⟨rfl, trivial⟩).bind fun _ _ => reports_ok _

/-- The identities of earlier steps are never released. -/
theorem exists_recordDerivation {step : ProofStep} {derived : DerivedStep}
    {canonical : Option (List UInt8)} {ids : List DerivationId}
    (hcanonical : derived.referencedDerivationId = none → ∃ bytes, canonical = some bytes)
    (hids : mode = .derive → ∀ r ∈ step.references, r < ids.length) :
    ∃ ids', recordDerivation sha256 mode step derived canonical ids = .ok ids' ∧
      (mode = .derive → ids'.length = ids.length + 1) := by
  cases mode with
  | omitDerivation => exact ⟨ids, rfl, by simp⟩
  | derive =>
    cases hreferenced : derived.referencedDerivationId with
    | some id => exact ⟨ids ++ [id], by simp [recordDerivation, hreferenced], by simp⟩
    | none =>
      obtain ⟨bytes, rfl⟩ := hcanonical hreferenced
      have hinputs : ∃ inputs, derivationInputs step ids = .ok inputs := by
        have hreferences := hids rfl
        unfold derivationInputs
        generalize step.references = references at hreferences
        induction references with
        | nil => exact ⟨[], rfl⟩
        | cons r references ih =>
          obtain ⟨inputs, hinputs⟩ := ih fun q hq => hreferences q (List.mem_cons_of_mem r hq)
          obtain ⟨id, hid⟩ : ∃ id, ids[r]? = some id :=
            ⟨_, List.getElem?_eq_getElem (hreferences r List.mem_cons_self)⟩
          refine ⟨id :: inputs, ?_⟩
          rw [List.mapM_cons, hinputs, hid]
          rfl
      obtain ⟨inputs, hinputs⟩ := hinputs
      refine ⟨ids ++ [derivationId sha256 step bytes inputs], ?_, by simp⟩
      simp only [recordDerivation, hreferenced, orError, ok_bind, hinputs]
      rfl

end

/-- Every result of the first table is in the second. -/
def Weaker (results results' : List (Option CheckedStep)) : Prop :=
  ∀ (r : ℕ) (c : CheckedStep), results[r]? = some (some c) → results'[r]? = some (some c)

/-- An operand whose formula is no longer in the table. -/
def Operand.released (o : Operand) : Operand := { o with formula := none }

/-- An operand is the antecedent of another one, an implication. -/
structure Operand.ComputedFrom (o implication : Operand) : Prop where
  role : implication.role = .implication
  eq_antecedent : ∃ antecedent consequent,
    implication.formula.bind Formula.implicationParts = some (antecedent, consequent) ∧
      o = { role := .antecedent, formula := some antecedent }

/-- The operands of two reports: the first lists the operands of the second, some inputs without
their formula and then without what is computed from them. -/
structure OperandsAlike (operands operands' : List Operand) : Prop where
  listed : ∀ o ∈ operands, o ∈ operands' ∨
    o.reference.isSome = true ∧ ∃ o' ∈ operands', o = o'.released
  kept : ∀ o' ∈ operands', o' ∈ operands ∨
    (o'.reference.isSome = true ∧ o'.released ∈ operands) ∨
    ∃ i ∈ operands', i.reference.isSome = true ∧ i.released ∈ operands ∧ o'.ComputedFrom i

/-- What two reports of one failure share. -/
structure Alike (e e' : CheckError) : Prop where
  kind : e.kind = e'.kind
  comparison : e.comparison = e'.comparison
  step : e.diagnostic.step = e'.diagnostic.step
  checkedBefore : e.diagnostic.checkedBefore = e'.diagnostic.checkedBefore
  operands : OperandsAlike e.diagnostic.operands e'.diagnostic.operands
  difference : e.diagnostic.difference = e'.diagnostic.difference ∨ e.diagnostic.difference = none
  of_complete : e.diagnostic.operandsComplete = true → e = e'
  of_early : ¬AfterRelease e.kind → e = e'

theorem OperandsAlike.refl (operands : List Operand) : OperandsAlike operands operands :=
  ⟨fun _ h => .inl h, fun _ h => .inl h⟩

/-- Lists of operands are compared part by part. -/
theorem OperandsAlike.append {operands operands' more more' : List Operand}
    (h : OperandsAlike operands operands') (hmore : OperandsAlike more more') :
    OperandsAlike (operands ++ more) (operands' ++ more') := by
  constructor
  · intro o ho
    rcases List.mem_append.mp ho with ho | ho
    · refine (h.listed o ho).imp (List.mem_append_left _) ?_
      rintro ⟨href, o', ho', heq⟩
      exact ⟨href, o', List.mem_append_left _ ho', heq⟩
    · refine (hmore.listed o ho).imp (List.mem_append_right _) ?_
      rintro ⟨href, o', ho', heq⟩
      exact ⟨href, o', List.mem_append_right _ ho', heq⟩
  · intro o ho
    rcases List.mem_append.mp ho with ho | ho
    · refine (h.kept o ho).imp (List.mem_append_left _) (Or.imp ?_ ?_)
      · exact And.imp_right (List.mem_append_left _)
      · rintro ⟨i, hi, href, hreleased, hcomputed⟩
        exact ⟨i, List.mem_append_left _ hi, href, List.mem_append_left _ hreleased, hcomputed⟩
    · refine (hmore.kept o ho).imp (List.mem_append_right _) (Or.imp ?_ ?_)
      · exact And.imp_right (List.mem_append_right _)
      · rintro ⟨i, hi, href, hreleased, hcomputed⟩
        exact ⟨i, List.mem_append_right _ hi, href, List.mem_append_right _ hreleased, hcomputed⟩

theorem Alike.refl (e : CheckError) : Alike e e :=
  ⟨rfl, rfl, rfl, rfl, .refl _, .inl rfl, fun _ => rfl, fun _ => rfl⟩

/-- Ends of the two loops that count as the same. -/
def StopsAlike (stop stop' : Stop CheckError) : Prop :=
  ∃ e e', stop = .error e ∧ stop' = .error e' ∧ Alike e e'

section

variable {results results' : List (Option CheckedStep)} {step : ProofStep} {position : ℕ}

theorem Weaker.retainedFormula (h : Weaker results results') {r : ℕ} {f : Formula}
    (hf : retainedFormula results r = some f) : retainedFormula results' r = some f := by
  simp only [Checker.retainedFormula, Option.map_eq_some_iff, Option.bind_eq_some_iff, id] at hf ⊢
  obtain ⟨c, ⟨_, hc, rfl⟩, hformula⟩ := hf
  exact ⟨c, ⟨_, h r c hc, rfl⟩, hformula⟩

/-- The evidence reads the table at the references of the step. -/
theorem evidence_congr (h : ∀ r ∈ step.references, retainedFormula results r =
      retainedFormula results' r) :
    resultOperands results step = resultOperands results' step ∧
      premiseDifference results step = premiseDifference results' step := by
  cases step with
  | modusPonens i j =>
    have hi := h i List.mem_cons_self
    have hj := h j (List.mem_cons_of_mem _ List.mem_cons_self)
    simp only [resultOperands, premiseDifference, hi, hj, and_self]
  | generalization i v =>
    have hi := h i List.mem_cons_self
    simp only [resultOperands, premiseDifference, hi, and_self]
  | _ => exact ⟨rfl, rfl⟩

/-- A complete list of operands has every reference of the step. -/
theorem retainedFormula_of_complete
    (h : (resultOperands results step).all (·.formula.isSome) = true) :
    ∀ r ∈ step.references, ∃ f, retainedFormula results r = some f := by
  rw [List.all_eq_true] at h
  simp only [Option.isSome_iff_exists] at h
  cases step with
  | modusPonens i j =>
    intro r hr
    have hreferences : (ProofStep.modusPonens i j).references = [i, j] := rfl
    rw [hreferences, List.mem_cons, List.mem_singleton] at hr
    rcases hr with rfl | rfl
    · exact h _ (List.mem_append_left _ List.mem_cons_self)
    · exact h _ (List.mem_append_left _ (List.mem_cons_of_mem _ List.mem_cons_self))
  | generalization i v =>
    intro r hr
    have hreferences : (ProofStep.generalization i v).references = [i] := rfl
    rw [hreferences, List.mem_singleton] at hr
    subst hr
    exact h _ List.mem_cons_self
  | _ =>
    intro r hr
    cases hr

/-- A retained formula of the weaker table is the one of the other, or it was released. -/
theorem Weaker.retainedFormula_cases (h : Weaker results results') (r : ℕ) :
    Checker.retainedFormula results r = Checker.retainedFormula results' r ∨
      Checker.retainedFormula results r = none := by
  cases hf : Checker.retainedFormula results r with
  | none => exact .inr rfl
  | some f => exact .inl (h.retainedFormula hf).symm

/-- The operand of one reference of a step. -/
def referenceOperand (role : OperandRole) (reference : ℕ) (formula : Option Formula) : Operand :=
  { role, reference := some reference, proved := some true, formula }

/-- The operand that is computed from an implication. -/
def antecedentOperands (implication : Option Formula) : List Operand :=
  match implication.bind Formula.implicationParts with
  | some (antecedent, _) => [{ role := .antecedent, formula := some antecedent }]
  | none => []

theorem released_alike (role : OperandRole) (r : ℕ) (formula : Option Formula) :
    OperandsAlike [referenceOperand role r none] [referenceOperand role r formula] := by
  constructor
  · intro o ho
    rw [List.mem_singleton.mp ho]
    exact .inr ⟨rfl, _, List.mem_cons_self, rfl⟩
  · intro o ho
    rw [List.mem_singleton.mp ho]
    exact .inr (.inl ⟨rfl, List.mem_cons_self⟩)

theorem released_implication_alike (r : ℕ) (formula : Option Formula) :
    OperandsAlike [referenceOperand .implication r none]
      (referenceOperand .implication r formula :: antecedentOperands formula) := by
  constructor
  · intro o ho
    rw [List.mem_singleton.mp ho]
    exact .inr ⟨rfl, _, List.mem_cons_self, rfl⟩
  · intro o ho
    rcases List.mem_cons.mp ho with rfl | ho
    · exact .inr (.inl ⟨rfl, List.mem_cons_self⟩)
    · refine .inr (.inr ⟨_, List.mem_cons_self, rfl, List.mem_cons_self, rfl, ?_⟩)
      unfold antecedentOperands at ho
      split at ho
      · next antecedent consequent hparts =>
        exact ⟨antecedent, consequent, hparts, List.mem_singleton.mp ho⟩
      · cases ho

/-- The inputs of a step in the weaker table stand for those in the other. -/
theorem Weaker.resultOperands (h : Weaker results results') (step : ProofStep) :
    OperandsAlike (resultOperands results step) (Checker.resultOperands results' step) := by
  have hpremise : ∀ r, OperandsAlike
      [referenceOperand .premise r (Checker.retainedFormula results r)]
      [referenceOperand .premise r (Checker.retainedFormula results' r)] := by
    intro r
    rcases h.retainedFormula_cases r with heq | hnone
    · rw [heq]
      exact .refl _
    · rw [hnone]
      exact released_alike .premise r _
  cases step with
  | modusPonens i j =>
    have himplication : OperandsAlike
        (referenceOperand .implication j (Checker.retainedFormula results j) ::
          antecedentOperands (Checker.retainedFormula results j))
        (referenceOperand .implication j (Checker.retainedFormula results' j) ::
          antecedentOperands (Checker.retainedFormula results' j)) := by
      rcases h.retainedFormula_cases j with heq | hnone
      · rw [heq]
        exact .refl _
      · rw [hnone]
        exact released_implication_alike j _
    exact (hpremise i).append himplication
  | generalization i v => exact hpremise i
  | _ => exact .refl []

/-- A difference of the weaker table is the one of the other. -/
theorem Weaker.premiseDifference (h : Weaker results results') (step : ProofStep) :
    premiseDifference results step = Checker.premiseDifference results' step ∨
      Checker.premiseDifference results step = none := by
  cases step with
  | modusPonens i j =>
    rcases h.retainedFormula_cases j with hj | hj
    · rcases h.retainedFormula_cases i with hi | hi
      · exact .inl (by simp only [Checker.premiseDifference, hi, hj])
      · right
        simp only [Checker.premiseDifference, hi]
        cases (Checker.retainedFormula results j).bind Formula.implicationParts <;> rfl
    · right
      simp only [Checker.premiseDifference, hj]
      rfl
  | _ => exact .inl rfl

/-- Reports of one computation over two tables, before anything is released. -/
theorem report_early {α : Type} {x : CheckM α} (hstep : certificate.steps[position]? = some step)
    (hx : Reports (AtStep position) x)
    (h : ∀ r ∈ step.references, results[r]? = results'[r]?) :
    Related StopsAlike (fun a b => a = b ∧ x = .ok a) (report certificate ctx results none x)
      (report certificate ctx results' none x) := by
  cases x with
  | ok a => exact .ok ⟨rfl, rfl⟩
  | error stop =>
    obtain ⟨kind, rfl, hkind⟩ := hx stop rfl
    have hretained : ∀ r ∈ step.references, retainedFormula results r =
        retainedFormula results' r := by
      intro r hr
      simp only [retainedFormula, h r hr]
    obtain ⟨hoperands, hdifference⟩ := evidence_congr hretained
    have hcomparison : failedComparison results step kind = failedComparison results' step kind := by
      cases kind <;> first | rfl | exact hdifference
    have hsame : certificateError certificate ctx results none kind =
        certificateError certificate ctx results' none kind := by
      simp only [certificateError, hkind, hstep, Option.map_some, hoperands, hdifference,
        hcomparison]
    obtain ⟨e, he⟩ : ∃ e, certificateError certificate ctx results' none kind = some e := by
      simp only [certificateError, hkind, hstep, Option.map_some]
      exact ⟨_, rfl⟩
    simp only [report, hsame, he]
    exact .error ⟨e, e, rfl, rfl, .refl e⟩

/-- Reports of one computation after the weaker table was released. -/
theorem report_late {α : Type} {x : CheckM α} (derived : Option Formula)
    (hstep : certificate.steps[position]? = some step) (hx : Reports (LateAt position) x)
    (h : Weaker results results') :
    Related StopsAlike (fun a b => a = b ∧ x = .ok a) (report certificate ctx results derived x)
      (report certificate ctx results' derived x) := by
  cases x with
  | ok a => exact .ok ⟨rfl, rfl⟩
  | error stop =>
    obtain ⟨kind, rfl, hkind, hlate⟩ := hx stop rfl
    have hcomparison : ∀ table, failedComparison table step kind = none := by
      intro table
      cases kind <;> first | rfl | exact hlate.elim
    simp only [report, certificateError, hkind, hstep, Option.map_some]
    refine .error ⟨_, _, rfl, rfl, rfl, ?_, rfl, rfl, ?_, h.premiseDifference step, ?_,
      fun hearly => absurd hlate hearly⟩
    · exact (hcomparison results).trans (hcomparison results').symm
    · exact ((h.resultOperands step).append (.refl _)).append (.refl _)
    · intro hcomplete
      simp only [Bool.and_eq_true] at hcomplete
      have hformulas := retainedFormula_of_complete hcomplete.1.1
      obtain ⟨hoperands, hdifference⟩ := evidence_congr fun r hr => by
        obtain ⟨f, hf⟩ := hformulas r hr
        exact hf.trans (h.retainedFormula hf).symm
      simp only [hoperands, hdifference, hcomparison]

end

/-- The state of the releasing loop beside that of the keeping one. -/
structure Follows (mode : IdentityMode) (steps : List ProofStep) (position : ℕ)
    (s k : CheckState) : Prop where
  length_results : s.results.length = position
  length_kept : k.results.length = position
  kept : ∀ r < position, ∃ c, k.results[r]? = some (some c)
  weaker : Weaker s.results k.results
  retained : ∀ r < position, r = steps.length - 1 ∨ UsedFrom (lastUses steps) r position →
    s.results[r]? = k.results[r]?
  derivationIds : s.derivationIds = k.derivationIds
  length_ids : mode = .derive → s.derivationIds.length = position
  work : s.remainingWork = k.remainingWork
  conclusion : s.canonicalConclusion = k.canonicalConclusion
  concluded : position = steps.length → steps ≠ [] → ∃ bytes, s.canonicalConclusion = some bytes

theorem follows_start (mode : IdentityMode) (steps : List ProofStep) :
    Follows mode steps 0 ⟨[], [], checkerMaxFormulaWorkBytes, none⟩
      ⟨[], [], checkerMaxFormulaWorkBytes, none⟩ where
  length_results := rfl
  length_kept := rfl
  kept r hr := absurd hr (Nat.not_lt_zero r)
  weaker _ _ h := h
  retained r hr := absurd hr (Nat.not_lt_zero r)
  derivationIds := rfl
  length_ids _ := rfl
  work := rfl
  conclusion := rfl
  concluded h hne := absurd (List.length_eq_zero_iff.mp h.symm) hne

theorem report_map {α β : Type} (results : List (Option CheckedStep)) (derived : Option Formula)
    (f : α → β) (x : CheckM α) : report certificate ctx results derived (x.map f) =
      (report certificate ctx results derived x).map f := by
  cases x with
  | ok a => rfl
  | error stop =>
    cases stop with
    | panic => rfl
    | error kind =>
      simp only [Except.map, report]
      cases certificateError certificate ctx results derived kind <;> rfl

theorem weaker_release (lastUses : List (Option ℕ)) (position : ℕ)
    (results : List (Option CheckedStep)) (references : List ℕ) :
    Weaker (release lastUses position results references) results := by
  induction references generalizing results with
  | nil => exact fun r c h => h
  | cons q references ih =>
    intro r c h
    rw [release, List.foldl_cons] at h
    have hset := ih _ r c h
    split_ifs at hset with hq
    · rw [List.getElem?_set] at hset
      split_ifs at hset
      · cases hset
      · exact hset
    · exact hset

/-- The keeping loop releases nothing. -/
theorem release_nil (position : ℕ) (results : List (Option CheckedStep)) (references : List ℕ) :
    release [] position results references = results := by
  induction references with
  | nil => rfl
  | cons q references ih => exact ih

/-- The tables after one turn. -/
theorem Follows.tables {steps : List ProofStep} {position : ℕ} {s k : CheckState}
    (h : Follows mode steps position s k) (references : List ℕ) (checked : CheckedStep)
    (hlt : position < steps.length) :
    let results := release (lastUses steps) position s.results references ++
      [if (releasing steps).retain position then some checked else none]
    results.length = position + 1 ∧
    (∀ r < position + 1, ∃ c, (k.results ++ [some checked])[r]? = some (some c)) ∧
    Weaker results (k.results ++ [some checked]) ∧
    ∀ r < position + 1, r = steps.length - 1 ∨ UsedFrom (lastUses steps) r (position + 1) →
      results[r]? = (k.results ++ [some checked])[r]? := by
  have hlength : (release (lastUses steps) position s.results references).length = position :=
    (length_release _ _ _ _).trans h.length_results
  have hkept := h.length_kept
  refine ⟨by simp [hlength], ?_, ?_, ?_⟩
  · intro r hr
    rcases Nat.lt_or_eq_of_le (Nat.le_of_lt_succ hr) with hr | rfl
    · rw [List.getElem?_append_left (by omega)]
      exact h.kept r hr
    · refine ⟨checked, ?_⟩
      rw [← hkept, List.getElem?_concat_length]
  · intro r c hc
    rcases Nat.lt_or_ge r position with hr | hr
    · rw [List.getElem?_append_left (by omega)] at hc ⊢
      exact h.weaker r c (weaker_release _ _ _ _ r c hc)
    · have hr' : r = position := by
        have := (List.getElem?_eq_some_iff.mp hc).1
        simp only [List.length_append, List.length_singleton, hlength] at this
        omega
      subst hr'
      rw [List.getElem?_append_right (by omega), hlength, Nat.sub_self] at hc
      rw [List.getElem?_append_right (by omega), hkept, Nat.sub_self]
      split_ifs at hc
      · exact hc
      · cases hc
  · intro r hr hused
    rcases Nat.lt_or_eq_of_le (Nat.le_of_lt_succ hr) with hr | rfl
    · rw [List.getElem?_append_left (by omega), List.getElem?_append_left (by omega)]
      rcases hused with hfinal | ⟨q, hq, hle⟩
      · omega
      · have hne : (lastUses steps)[r]? ≠ some (some position) := by
          rw [hq]
          intro heq
          cases heq
          omega
        rw [getElem?_release _ hne]
        exact h.retained r hr (.inr ⟨q, hq, by omega⟩)
    · have hretain : (releasing steps).retain r = true := by
        simp only [releasing, decide_eq_true_eq]
        rcases hused with hfinal | ⟨q, hq, -⟩
        · exact .inl hfinal
        · right
          rw [hq]
          exact Option.some_ne_none q
      rw [if_pos hretain, List.getElem?_append_right (by omega),
        List.getElem?_append_right (by omega), hlength, hkept]

/-- One turn of both loops. -/
theorem Follows.step {position : ℕ} {s k : CheckState} {step : ProofStep}
    (h : Follows mode certificate.steps position s k)
    (hstep : certificate.steps[position]? = some step)
    (hearlier : ∀ r ∈ step.references, r < position) :
    Related StopsAlike (Follows mode certificate.steps (position + 1))
      (reportStep sha256 certificate ctx mode (releasing certificate.steps) s (step, position))
      (reportStep sha256 certificate ctx mode keeping k (step, position)) := by
  have hlt : position < certificate.steps.length := (List.getElem?_eq_some_iff.mp hstep).1
  have hagree : ∀ r ∈ step.references, s.results[r]? = k.results[r]? := by
    intro r hr
    have hr' := hearlier r hr
    exact h.retained r hr' (.inr (usedFrom_lastUses hstep hr (hr'.trans hlt)))
  have hpresent : ∀ r ∈ step.references, ∃ c, k.results[r]? = some (some c) :=
    fun r hr => h.kept r (hearlier r hr)
  have hkept : ∀ results, release keeping.lastUses position
      (movedResults keeping.lastUses position results step) step.references = results := by
    intro results
    rw [release_movedResults]
    exact release_nil position results _
  have hreleased : ∀ results, release (releasing certificate.steps).lastUses position
      (movedResults (releasing certificate.steps).lastUses position results step) step.references =
        release (lastUses certificate.steps) position results step.references :=
    fun results => release_movedResults _ _ _ _
  have hweaker : Weaker (release (lastUses certificate.steps) position s.results step.references)
      k.results := fun r c hc => h.weaker r c (weaker_release _ _ _ _ r c hc)
  simp only [reportStep, deriveStep_eq_deriveOnly, report_map, bind_map, hkept, hreleased]
  rw [deriveOnly_congr hagree, h.work]
  refine (report_early hstep (reports_deriveOnly hpresent) hagree).bind ?_
  rintro ⟨derived, work⟩ _ ⟨rfl, hderived⟩
  refine (report_late _ hstep reports_encodeResult hweaker).bind ?_
  rintro canonical _ ⟨rfl, hcanonical⟩
  have hcharged : derived.prechargedLength = none → ∃ bytes, canonical = some bytes :=
    fun hnone => isSome_of_encodeResult hcanonical (.inl hnone)
  refine (report_late _ hstep (reports_chargeResult hcharged) hweaker).bind ?_
  rintro ⟨canonicalLength, rest⟩ _ ⟨rfl, -⟩
  have hids : mode = .derive → ∀ r ∈ step.references, r < s.derivationIds.length := by
    intro hmode r hr
    rw [h.length_ids hmode]
    exact hearlier r hr
  obtain ⟨ids, hrecord, hlength⟩ := @exists_recordDerivation sha256 mode step derived canonical _
    (fun hnone => hcharged ((deriveOnly_precharged hderived).mpr hnone)) hids
  rw [← h.derivationIds, hrecord]
  obtain ⟨htable, hkeeps, hweaker', hretained⟩ :=
    h.tables step.references ⟨derived.formula, canonicalLength⟩ hlt
  refine .pure ⟨htable, by simp [h.length_kept], hkeeps, hweaker', hretained, rfl, ?_, rfl, ?_, ?_⟩
  · intro hmode
    rw [hlength hmode, h.length_ids hmode]
  · simp only [h.conclusion]
  · intro hlast _
    have hfinal : position = certificate.steps.length - 1 := by omega
    rw [if_pos hfinal]
    exact isSome_of_encodeResult hcanonical (.inr hfinal)

theorem weaker_dropLast {results results' : List (Option CheckedStep)}
    (hlength : results.length = results'.length) (h : Weaker results results') :
    Weaker results.dropLast results'.dropLast := by
  intro r c hc
  rw [List.getElem?_dropLast] at hc ⊢
  rw [← hlength]
  split_ifs at hc ⊢ with hr
  exact h r c hc

/-- The closing checks of both loops. -/
theorem Follows.conclude {s k : CheckState} (hne : certificate.steps ≠ [])
    (h : Follows mode certificate.steps certificate.steps.length s k) :
    Related StopsAlike (fun a b => a = b) (reportConclusion certificate ctx mode s)
      (reportConclusion certificate ctx mode k) := by
  have hpos : 0 < certificate.steps.length := List.length_pos_iff.mpr hne
  have hfinal : certificate.steps.length - 1 < certificate.steps.length := by omega
  obtain ⟨step, hstep⟩ : ∃ step, certificate.steps[certificate.steps.length - 1]? = some step :=
    ⟨_, List.getElem?_eq_getElem hfinal⟩
  obtain ⟨checked, hchecked⟩ := h.kept _ hfinal
  have hlast : s.results.getLast?.bind id = some checked := by
    rw [List.getLast?_eq_getElem?, h.length_results, h.retained _ hfinal (.inl rfl), hchecked]
    rfl
  have hlast' : k.results.getLast?.bind id = some checked := by
    rw [List.getLast?_eq_getElem?, h.length_kept, hchecked]
    rfl
  have hweaker := weaker_dropLast (h.length_results.trans h.length_kept.symm) h.weaker
  obtain ⟨bytes, hbytes⟩ := h.concluded rfl hne
  have hbytes' : k.canonicalConclusion = some bytes := h.conclusion ▸ hbytes
  simp only [reportConclusion, hlast, hlast', hbytes, hbytes', orError, ok_bind, h.work,
    h.derivationIds]
  refine (report_late _ hstep (reports_chargeFormulaWork fun _ _ => ⟨rfl, trivial⟩) hweaker).bind ?_
  rintro rest _ ⟨rfl, -⟩
  refine Related.bind (report_late _ hstep ?_ hweaker) ?_
  · exact reports_require ⟨rfl, trivial⟩
  intro _ _ _
  exact .pure rfl

/-- Both loops end alike, and neither violates an assertion. -/
theorem checkReporting_related (hvalid : certificate.Valid) :
    Related StopsAlike (fun a b => a = b)
      (checkReporting sha256 certificate ctx mode (releasing certificate.steps))
      (checkReporting sha256 certificate ctx mode keeping) := by
  have hrun : Related StopsAlike
      (Follows mode certificate.steps (0 + certificate.steps.length))
      (certificate.steps.zipIdx.foldlM (reportStep sha256 certificate ctx mode
        (releasing certificate.steps)) ⟨[], [], checkerMaxFormulaWorkBytes, none⟩)
      (certificate.steps.zipIdx.foldlM (reportStep sha256 certificate ctx mode keeping)
        ⟨[], [], checkerMaxFormulaWorkBytes, none⟩) := by
    refine .foldlM (follows_start mode certificate.steps) ?_
    intro step position s k hmem hfollows
    exact hfollows.step (List.mk_mem_zipIdx_iff_getElem?.mp hmem) (hvalid.earlier (step, position) hmem)
  rw [Nat.zero_add] at hrun
  simp only [checkReporting, require, if_pos hvalid.nonempty, ok_bind]
  exact hrun.bind fun s k h => h.conclude hvalid.nonempty

/-- An error without its evidence. -/
def Erases (stop : Stop CheckError) (stop' : Stop CheckErrorKind) : Prop :=
  stop.map CheckError.kind = stop'

theorem report_erases {α : Type} {P : CheckErrorKind → Prop} {position : ℕ} {x : CheckM α}
    (results : List (Option CheckedStep)) (derived : Option Formula)
    (hlt : position < certificate.steps.length) (hx : Reports P x)
    (hP : ∀ kind, P kind → kind.step = position) :
    Related Erases (fun a b => a = b ∧ x = .ok a) (report certificate ctx results derived x) x := by
  cases x with
  | ok a => exact .ok ⟨rfl, rfl⟩
  | error stop =>
    obtain ⟨kind, rfl, hkind⟩ := hx stop rfl
    have hstep := List.getElem?_eq_getElem hlt
    simp only [report, certificateError, hP kind hkind, hstep, Option.map_some]
    exact .error rfl

/-- One turn with evidence is one turn. -/
theorem Follows.erase {position : ℕ} {s k : CheckState} {step : ProofStep}
    (h : Follows mode certificate.steps position s k)
    (hstep : certificate.steps[position]? = some step)
    (hearlier : ∀ r ∈ step.references, r < position) :
    Related Erases (fun a b => a = b)
      (reportStep sha256 certificate ctx mode (releasing certificate.steps) s (step, position))
      (checkStep sha256 ctx mode certificate.steps s (step, position)) := by
  have hlt : position < certificate.steps.length := (List.getElem?_eq_some_iff.mp hstep).1
  have hpresent : ∀ r ∈ step.references, ∃ c, s.results[r]? = some (some c) := by
    intro r hr
    have hr' := hearlier r hr
    rw [h.retained r hr' (.inr (usedFrom_lastUses hstep hr (hr'.trans hlt)))]
    exact h.kept r hr'
  simp only [reportStep, checkStep, deriveStep_eq_deriveOnly, report_map, bind_map]
  refine (report_erases _ _ hlt (reports_deriveOnly hpresent) fun _ h => h).bind ?_
  rintro ⟨derived, work⟩ _ ⟨rfl, hderived⟩
  refine (report_erases _ _ hlt reports_encodeResult fun _ h => h.1).bind ?_
  rintro canonical _ ⟨rfl, hcanonical⟩
  have hcharged : derived.prechargedLength = none → ∃ bytes, canonical = some bytes :=
    fun hnone => isSome_of_encodeResult hcanonical (.inl hnone)
  refine (report_erases _ _ hlt (reports_chargeResult hcharged) fun _ h => h.1).bind ?_
  rintro ⟨canonicalLength, rest⟩ _ ⟨rfl, -⟩
  have hids : mode = .derive → ∀ r ∈ step.references, r < s.derivationIds.length := by
    intro hmode r hr
    rw [h.length_ids hmode]
    exact hearlier r hr
  obtain ⟨ids, hrecord, -⟩ := @exists_recordDerivation sha256 mode step derived canonical _
    (fun hnone => hcharged ((deriveOnly_precharged hderived).mpr hnone)) hids
  rw [hrecord]
  refine .pure ?_
  simp only [releasing, decide_eq_true_eq]

/-- Without its evidence the releasing loop is the checker. -/
theorem checkReporting_erases (hvalid : certificate.Valid) :
    Related Erases (fun a b => a = b)
      (checkReporting sha256 certificate ctx mode (releasing certificate.steps))
      (checkSteps sha256 certificate ctx mode) := by
  have hpos : 0 < certificate.steps.length := List.length_pos_iff.mpr hvalid.nonempty
  have hfinal : certificate.steps.length - 1 < certificate.steps.length := by omega
  have hrun : Related Erases
      (fun s t => s = t ∧ ∃ k, Follows mode certificate.steps (0 + certificate.steps.length) s k)
      (certificate.steps.zipIdx.foldlM (reportStep sha256 certificate ctx mode
        (releasing certificate.steps)) ⟨[], [], checkerMaxFormulaWorkBytes, none⟩)
      (certificate.steps.zipIdx.foldlM (checkStep sha256 ctx mode certificate.steps)
        ⟨[], [], checkerMaxFormulaWorkBytes, none⟩) := by
    refine .foldlM (R := fun n s t => s = t ∧ ∃ k, Follows mode certificate.steps n s k)
      ⟨rfl, _, follows_start mode certificate.steps⟩ ?_
    rintro step position s _ hmem ⟨rfl, k, hfollows⟩
    have hget := List.mk_mem_zipIdx_iff_getElem?.mp hmem
    have hearlier := hvalid.earlier (step, position) hmem
    refine (hfollows.erase hget hearlier).and_left fun s' hs' => ?_
    obtain ⟨k', -, hnext⟩ := (hfollows.step hget hearlier).exists_of_ok hs'
    exact ⟨k', hnext⟩
  rw [Nat.zero_add] at hrun
  simp only [checkReporting, checkSteps, require, if_pos hvalid.nonempty, ok_bind]
  refine hrun.bind ?_
  rintro s _ ⟨rfl, k, h⟩
  obtain ⟨checked, hchecked⟩ := h.kept _ hfinal
  have hlast : s.results.getLast?.bind id = some checked := by
    rw [List.getLast?_eq_getElem?, h.length_results, h.retained _ hfinal (.inl rfl), hchecked]
    rfl
  obtain ⟨bytes, hbytes⟩ := h.concluded rfl hvalid.nonempty
  simp only [reportConclusion, hlast, hbytes, orError, ok_bind]
  refine (report_erases _ _ hfinal (reports_chargeFormulaWork fun _ _ => rfl) fun _ h => h).bind ?_
  rintro rest _ ⟨rfl, -⟩
  refine Related.bind (report_erases _ _ hfinal ?_ fun _ h => h) ?_
  · exact reports_require rfl
  intro _ _ _
  exact .pure rfl

/-- Early release changes no outcome: both loops accept with the same conclusion, bytes and
identity, or fail with errors that agree except for inputs that were already released. -/
theorem release_keeps_outcome (hvalid : certificate.Valid) :
    (∀ outcome, checkReporting sha256 certificate ctx mode (releasing certificate.steps) =
        .ok outcome ↔ checkReporting sha256 certificate ctx mode keeping = .ok outcome) ∧
    checkReporting sha256 certificate ctx mode (releasing certificate.steps) ≠ .error .panic ∧
    checkReporting sha256 certificate ctx mode keeping ≠ .error .panic ∧
    (∀ e, checkReporting sha256 certificate ctx mode (releasing certificate.steps) =
        .error (.error e) →
      ∃ e', checkReporting sha256 certificate ctx mode keeping = .error (.error e') ∧ Alike e e') ∧
    (checkReporting sha256 certificate ctx mode (releasing certificate.steps)).mapError
      (Stop.map CheckError.kind) = checkSteps sha256 certificate ctx mode := by
  have hrelated := @checkReporting_related sha256 certificate ctx mode hvalid
  have herases := @checkReporting_erases sha256 certificate ctx mode hvalid
  refine ⟨fun outcome => ⟨?_, ?_⟩, ?_, ?_, ?_, ?_⟩
  · intro hok
    obtain ⟨outcome', hok', rfl⟩ := hrelated.exists_of_ok hok
    exact hok'
  · intro hok
    obtain ⟨outcome', hok', rfl⟩ := hrelated.symm.exists_of_ok hok
    exact hok'
  · intro hpanic
    obtain ⟨_, -, e, e', he, -⟩ := hrelated.exists_of_error hpanic
    cases he
  · intro hpanic
    obtain ⟨_, -, e, e', -, he', -⟩ := hrelated.symm.exists_of_error hpanic
    cases he'
  · intro e herror
    obtain ⟨_, hkept, _, e', he, rfl, halike⟩ := hrelated.exists_of_error herror
    cases he
    exact ⟨e', hkept, halike⟩
  · revert herases
    generalize checkReporting sha256 certificate ctx mode (releasing certificate.steps) = x
    generalize checkSteps sha256 certificate ctx mode = y
    intro herases
    cases herases with
    | ok heq => rw [heq]; rfl
    | error he => exact congrArg Except.error he

/-- An equation of the first variable, generalized over a variable. -/
def generalizedEquation (v : FreeVariable) : ProofCertificate :=
  ⟨[.equalityReflexivity ⟨0⟩, .generalization 0 v]⟩

theorem generalizedEquation_valid (v : FreeVariable) : (generalizedEquation v).Valid := by
  have hnew : ProofCertificate.new (generalizedEquation v).steps = .ok (generalizedEquation v) := rfl
  exact (ProofCertificate.new_eq_ok.mp hnew).1

/-- The report of an open conclusion has lost the premise when results are released. -/
theorem generalizedEquation_open :
    ∃ e e',
      checkReporting (fun _ => 0) (generalizedEquation ⟨1⟩) (.empty 0) .omitDerivation
        (releasing (generalizedEquation ⟨1⟩).steps) = .error (.error e) ∧
      checkReporting (fun _ => 0) (generalizedEquation ⟨1⟩) (.empty 0) .omitDerivation keeping =
        .error (.error e') ∧
      e.kind = .openConclusion 1 ∧ e.diagnostic.operandsComplete = false ∧
      e'.diagnostic.operandsComplete = true ∧ e ≠ e' := by
  refine ⟨_, _, rfl, rfl, rfl, rfl, rfl, ?_⟩
  intro h
  cases congrArg (fun e => e.diagnostic.operandsComplete) h

theorem generalizedEquation_closed :
    ∃ outcome,
      checkReporting (fun _ => 0) (generalizedEquation ⟨0⟩) (.empty 0) .derive
        (releasing (generalizedEquation ⟨0⟩).steps) = .ok outcome ∧
      checkReporting (fun _ => 0) (generalizedEquation ⟨0⟩) (.empty 0) .derive keeping =
        .ok outcome := by
  exact ⟨_, rfl, (release_keeps_outcome (generalizedEquation_valid ⟨0⟩)).1 _ |>.mp rfl⟩

end Naome.Checker
