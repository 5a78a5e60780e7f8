import Naome.RuleRenaming

/-!
# Specification of the checking loop

A trace lists, for every step, the formula it reconstructs, the length and the work charged
for it and its derivation identity. The loop accepts a certificate exactly when it has a
trace within the work limit that ends in a closed formula; releasing results after their
last use never matters.
-/
namespace Naome.Checker
open LocallyNameless Outcome

variable {sha256 : List UInt8 → Digest} {ctx : ContextView}

/-- The reconstruction of one step. -/
@[ext]
structure Entry where
  formula : Formula
  canonicalLength : ℕ
  work : ℕ
  derivationId : DerivationId

/-- The formula that a step with the given inputs concludes. -/
inductive Concludes (ctx : ContextView) : ProofStep → List Formula → Formula → Prop
  | leaf {step : ProofStep} {f : Formula} (h : deriveAxiom ctx 0 step = .ok f) :
    Concludes ctx step [] f
  | modusPonens {i j : ℕ} {a b f : Formula} (h : Logic.modusPonens a b = .ok f) :
    Concludes ctx (.modusPonens i j) [a, b] f
  | generalization {i : ℕ} {v : FreeVariable} {a : Formula} :
    Concludes ctx (.generalization i v) [a] (Logic.generalization v a)

/-- The entry of a concluded formula. -/
def derivedEntry (sha256 : List UInt8 → Digest) (step : ProofStep) (inputs : List Entry)
    (f : Formula) : Entry where
  formula := f
  canonicalLength := f.canonicalBytes.length
  work := (inputs.map Entry.canonicalLength).sum + f.canonicalBytes.length
  derivationId := derivationId sha256 step f.normalizedBytes (inputs.map Entry.derivationId)

/-- The entry of a cited proof. -/
def citedEntry (header : ProofHeader) (f : Formula) : Entry :=
  ⟨f, header.length, header.length, header.derivation⟩

/-- The entry of a step whose references have the entries `inputs`. -/
inductive Produces (sha256 : List UInt8 → Digest) (ctx : ContextView) :
    ProofStep → List Entry → Entry → Prop
  | cited {id : ProofId} {header : ProofHeader} {f : Formula}
    (hheader : ctx.proofHeader id = .ok (some header))
    (hformula : ctx.proofFormula header header.length = .ok (some f)) :
    Produces sha256 ctx (.proofReference id) [] (citedEntry header f)
  | derived {step : ProofStep} {inputs : List Entry} {f : Formula}
    (h : Concludes ctx step (inputs.map Entry.formula) f) (hw : f.WithinLimits) :
    Produces sha256 ctx step inputs (derivedEntry sha256 step inputs f)

/-- The entries of the references of a step, in order. -/
def Inputs (entries : List Entry) (step : ProofStep) (inputs : List Entry) : Prop :=
  List.Forall₂ (fun r e => entries[r]? = some e) step.references inputs

theorem inputs_modusPonens {entries inputs : List Entry} {i j : ℕ} :
    Inputs entries (.modusPonens i j) inputs ↔
      ∃ a b, entries[i]? = some a ∧ entries[j]? = some b ∧ inputs = [a, b] := by
  have hr : (ProofStep.modusPonens i j).references = [i, j] := rfl
  simp only [Inputs, hr, List.forall₂_cons_left_iff, List.forall₂_nil_left_iff]
  constructor
  · rintro ⟨a, _, ha, ⟨b, _, hb, rfl, rfl⟩, rfl⟩
    exact ⟨a, b, ha, hb, rfl⟩
  · rintro ⟨a, b, ha, hb, rfl⟩
    exact ⟨a, _, ha, ⟨b, _, hb, rfl, rfl⟩, rfl⟩

theorem inputs_generalization {entries inputs : List Entry} {i : ℕ} {v : FreeVariable} :
    Inputs entries (.generalization i v) inputs ↔ ∃ a, entries[i]? = some a ∧ inputs = [a] := by
  have hr : (ProofStep.generalization i v).references = [i] := rfl
  simp only [Inputs, hr, List.forall₂_cons_left_iff, List.forall₂_nil_left_iff]
  constructor
  · rintro ⟨a, _, ha, rfl, rfl⟩
    exact ⟨a, ha, rfl⟩
  · rintro ⟨a, ha, rfl⟩
    exact ⟨a, _, ha, rfl, rfl⟩

theorem inputs_of_references_nil {entries inputs : List Entry} {step : ProofStep}
    (hr : step.references = []) : Inputs entries step inputs ↔ inputs = [] := by
  rw [Inputs, hr, List.forall₂_nil_left_iff]

theorem Inputs.unique {entries inputs inputs' : List Entry} {step : ProofStep}
    (h : Inputs entries step inputs) (h' : Inputs entries step inputs') : inputs = inputs' :=
  Relator.RightUnique.forall₂ (fun _ _ _ ha hb => Option.some.inj (ha.symm.trans hb)) h h'

theorem chargeFormulaWork_eq_ok {position amount remaining rest : ℕ} :
    chargeFormulaWork position amount remaining = .ok rest ↔
      amount ≤ remaining ∧ rest = remaining - amount := by
  unfold chargeFormulaWork
  split_ifs with h
  · simp only [false_iff, not_and]
    omega
  · simp only [Except.ok.injEq, eq_comm (b := rest)]
    exact ⟨fun hr => ⟨Nat.le_of_not_lt h, hr⟩, fun hr => hr.2⟩

/-- The bytes by which a mode knows a formula. -/
def resultBytes : IdentityMode → Formula → List UInt8
  | .omitDerivation, f => f.canonicalBytes
  | .derive, f => f.normalizedBytes

@[simp] theorem length_resultBytes (mode : IdentityMode) (f : Formula) :
    (resultBytes mode f).length = f.canonicalBytes.length := by
  cases mode with
  | omitDerivation => rfl
  | derive => exact f.length_normalizedBytes

theorem canonicalResult_eq_ok {mode : IdentityMode} {f : Formula} {bytes : List UInt8} :
    canonicalResult mode f = .ok bytes ↔ f.WithinLimits ∧ bytes = resultBytes mode f := by
  cases mode with
  | omitDerivation => exact Formula.encodeCanonical_eq_ok
  | derive => exact Formula.encodeFreeVariableNormalized_eq_ok

/-- Positions of steps appear only in errors. -/
theorem deriveAxiom_position {position position' : ℕ} {step : ProofStep} {f : Formula}
    (h : deriveAxiom ctx position step = .ok f) : deriveAxiom ctx position' step = .ok f := by
  have hid := deriveAxiom_rename Function.injective_id position' h
  rw [ProofStep.mapFreeVariables_id] at hid
  rw [hid]
  exact congrArg Except.ok (Formula.ext f.node.mapFree_id)

/-- The results with one more entry, after the releases of its step. -/
def nextResults (steps : List ProofStep) (results : List (Option CheckedStep)) (step : ProofStep)
    (position : ℕ) (e : Entry) : List (Option CheckedStep) :=
  release (lastUses steps) position results step.references ++
    [if position = steps.length - 1 ∨ (lastUses steps)[position]?.bind id ≠ none then
      some ⟨e.formula, e.canonicalLength⟩ else none]

/-- The derivation identities with one more entry. -/
def nextIds (mode : IdentityMode) (ids : List DerivationId) (id : DerivationId) :
    List DerivationId :=
  match mode with
  | .omitDerivation => ids
  | .derive => ids ++ [id]

/-- The state after a turn that produced `e`. -/
def nextState (mode : IdentityMode) (steps : List ProofStep) (s : CheckState) (step : ProofStep)
    (position : ℕ) (e : Entry) : CheckState where
  results := nextResults steps s.results step position e
  derivationIds := nextIds mode s.derivationIds e.derivationId
  remainingWork := s.remainingWork - e.work
  canonicalConclusion := if position = steps.length - 1 then some (resultBytes mode e.formula)
    else s.canonicalConclusion

/-- The state still holds what the step refers to. -/
structure Available (mode : IdentityMode) (entries : List Entry) (s : CheckState)
    (step : ProofStep) : Prop where
  result : ∀ r ∈ step.references, ∃ e, entries[r]? = some e ∧
    Checker.result s.results r = .ok ⟨e.formula, e.canonicalLength⟩
  derivationIds : mode = .derive → s.derivationIds = entries.map Entry.derivationId

theorem Available.result_eq {mode : IdentityMode} {entries : List Entry} {s : CheckState}
    {step : ProofStep} (h : Available mode entries s step) (r : ℕ) (e : Entry)
    (hr : r ∈ step.references) (he : entries[r]? = some e) :
    Checker.result s.results r = .ok ⟨e.formula, e.canonicalLength⟩ := by
  obtain ⟨e', he', hresult⟩ := h.result r hr
  rw [he] at he'
  cases he'
  exact hresult

theorem derivationInputs_eq_ok {entries inputs : List Entry} {step : ProofStep}
    (h : Inputs entries step inputs) :
    derivationInputs step (entries.map Entry.derivationId) =
      .ok (inputs.map Entry.derivationId) := by
  rw [derivationInputs, mapM_eq_ok, List.forall₂_map_right_iff]
  refine h.imp fun r e hr => ?_
  rw [List.getElem?_map, hr]
  rfl

theorem exists_inputs {mode : IdentityMode} {entries : List Entry} {s : CheckState}
    {step : ProofStep} (h : Available mode entries s step) : ∃ inputs, Inputs entries step inputs := by
  have hresult := h.result
  unfold Inputs
  generalize step.references = references at hresult
  induction references with
  | nil => exact ⟨[], .nil⟩
  | cons r references ih =>
    obtain ⟨e, he, -⟩ := hresult r List.mem_cons_self
    obtain ⟨inputs, hinputs⟩ := ih fun q hq => hresult q (List.mem_cons_of_mem r hq)
    exact ⟨e :: inputs, .cons he hinputs⟩

theorem encodeResult_eq_ok {mode : IdentityMode} {position finalStep : ℕ} {f : Formula}
    {canonical : Option (List UInt8)} :
    encodeResult mode position finalStep ⟨f, none, none⟩ = .ok canonical ↔
      f.WithinLimits ∧ canonical = some (resultBytes mode f) := by
  simp only [encodeResult, Option.isNone_none, true_or, if_true, mapError_eq_ok, map_eq_ok,
    canonicalResult_eq_ok]
  constructor
  · rintro ⟨_, ⟨hw, rfl⟩, rfl⟩
    exact ⟨hw, rfl⟩
  · rintro ⟨hw, rfl⟩
    exact ⟨_, ⟨hw, rfl⟩, rfl⟩

theorem chargeResult_eq_ok {mode : IdentityMode} {position work : ℕ} {f : Formula} {q : ℕ × ℕ} :
    chargeResult position ⟨f, none, none⟩ (some (resultBytes mode f)) work = .ok q ↔
      f.canonicalBytes.length ≤ work ∧
        q = (f.canonicalBytes.length, work - f.canonicalBytes.length) := by
  simp only [chargeResult, orError, ok_bind, bind_eq_ok, chargeFormulaWork_eq_ok,
    length_resultBytes, pure_eq_ok]
  constructor
  · rintro ⟨_, ⟨hle, rfl⟩, rfl⟩
    exact ⟨hle, rfl⟩
  · rintro ⟨hle, rfl⟩
    exact ⟨_, ⟨hle, rfl⟩, rfl⟩

theorem recordDerivation_eq_ok {mode : IdentityMode} {entries inputs : List Entry}
    {step : ProofStep} {ids : List DerivationId} {f : Formula}
    (hids : mode = .derive → ids = entries.map Entry.derivationId)
    (hinputs : Inputs entries step inputs) :
    recordDerivation sha256 mode step ⟨f, none, none⟩ (some (resultBytes mode f)) ids =
      .ok (nextIds mode ids (derivedEntry sha256 step inputs f).derivationId) := by
  cases mode with
  | omitDerivation => rfl
  | derive =>
    simp only [recordDerivation, orError, ok_bind]
    rw [hids rfl, derivationInputs_eq_ok hinputs]
    rfl

/-- The results without the premise that a generalization moves out of the table. -/
def movedResults (lastUses : List (Option ℕ)) (position : ℕ) (results : List (Option CheckedStep)) :
    ProofStep → List (Option CheckedStep)
  | .generalization premise _ =>
    if lastUses[premise]? = some (some position) then results.set premise none else results
  | _ => results

theorem release_movedResults (lastUses : List (Option ℕ)) (position : ℕ)
    (results : List (Option CheckedStep)) (step : ProofStep) :
    release lastUses position (movedResults lastUses position results step) step.references =
      release lastUses position results step.references := by
  cases step with
  | generalization premise v =>
    simp only [movedResults, release, ProofStep.references, ProofStep.localReferences,
      Option.toList_some, Option.toList_none, List.append_nil, List.foldl_cons, List.foldl_nil]
    split_ifs with h
    · rw [List.set_set]
    · rfl
  | _ => rfl

theorem concludes_leaf {step : ProofStep} {f : Formula} :
    Concludes ctx step [] f ↔ deriveAxiom ctx 0 step = .ok f := by
  constructor
  · intro h
    cases h with
    | leaf h => exact h
  · exact .leaf

/-- The rule of a step that cites no proof. -/
theorem deriveStep_eq_ok {mode : IdentityMode} {entries inputs : List Entry} {s : CheckState}
    {step : ProofStep} {position : ℕ} {uses : List (Option ℕ)}
    (hstep : ∀ id, step ≠ .proofReference id) (h : Available mode entries s step)
    (hinputs : Inputs entries step inputs) {q : DerivedStep × List (Option CheckedStep) × ℕ} :
    deriveStep ctx position step s.results uses s.remainingWork = .ok q ↔
      ∃ f, Concludes ctx step (inputs.map Entry.formula) f ∧
        (inputs.map Entry.canonicalLength).sum ≤ s.remainingWork ∧
        q = (⟨f, none, none⟩, movedResults uses position s.results step,
          s.remainingWork - (inputs.map Entry.canonicalLength).sum) := by
  have hresult := h.result_eq
  have hleaf (hr : step.references = []) : (do
        let formula ← deriveAxiom ctx position step
        return ((⟨formula, none, none⟩ : DerivedStep), s.results, s.remainingWork)) = .ok q ↔
      ∃ f, Concludes ctx step (inputs.map Entry.formula) f ∧
        (inputs.map Entry.canonicalLength).sum ≤ s.remainingWork ∧
        q = (⟨f, none, none⟩, s.results,
          s.remainingWork - (inputs.map Entry.canonicalLength).sum) := by
    cases (inputs_of_references_nil hr).mp hinputs
    simp only [List.map_nil, List.sum_nil, Nat.zero_le, true_and, Nat.sub_zero, concludes_leaf,
      bind_eq_ok, pure_eq_ok, eq_comm (b := q)]
    exact exists_congr fun f => and_congr_left fun _ => ⟨deriveAxiom_position, deriveAxiom_position⟩
  cases step with
  | proofReference id => exact absurd rfl (hstep id)
  | modusPonens i j =>
    obtain ⟨a, b, ha, hb, rfl⟩ := inputs_modusPonens.1 hinputs
    have hra := hresult i a List.mem_cons_self ha
    have hrb := hresult j b (List.mem_cons_of_mem _ List.mem_cons_self) hb
    clear hleaf hresult hinputs
    simp only [deriveStep, hra, hrb, ok_bind, bind_eq_ok, chargeFormulaWork_eq_ok, mapError_eq_ok,
      pure_eq_ok, List.map_cons, List.map_nil, List.sum_cons, List.sum_nil, Nat.add_zero,
      movedResults]
    constructor
    · rintro ⟨_, ⟨hle, rfl⟩, f, hf, rfl⟩
      exact ⟨f, .modusPonens hf, hle, rfl⟩
    · rintro ⟨f, hf, hle, rfl⟩
      cases hf with
      | modusPonens hf => exact ⟨_, ⟨hle, rfl⟩, f, hf, rfl⟩
  | generalization i v =>
    obtain ⟨a, ha, rfl⟩ := inputs_generalization.1 hinputs
    have hra := hresult i a List.mem_cons_self ha
    clear hleaf hresult hinputs
    simp only [deriveStep, hra, ok_bind, bind_eq_ok, chargeFormulaWork_eq_ok, pure_eq_ok,
      List.map_cons, List.map_nil, List.sum_cons, List.sum_nil, Nat.add_zero, movedResults]
    constructor
    · rintro ⟨_, ⟨hle, rfl⟩, rfl⟩
      exact ⟨_, .generalization, hle, rfl⟩
    · rintro ⟨f, hf, hle, rfl⟩
      cases hf with
      | generalization => exact ⟨_, ⟨hle, rfl⟩, rfl⟩
  | _ => exact hleaf rfl

theorem produces_derived {step : ProofStep} {inputs : List Entry} {e : Entry}
    (hstep : ∀ id, step ≠ .proofReference id) : Produces sha256 ctx step inputs e ↔
      ∃ f, Concludes ctx step (inputs.map Entry.formula) f ∧ f.WithinLimits ∧
        e = derivedEntry sha256 step inputs f := by
  constructor
  · intro h
    cases h with
    | cited => exact absurd rfl (hstep _)
    | derived h hw => exact ⟨_, h, hw, rfl⟩
  · rintro ⟨f, hf, hw, rfl⟩
    exact .derived hf hw

theorem produces_cited {id : ProofId} {inputs : List Entry} {e : Entry} :
    Produces sha256 ctx (.proofReference id) inputs e ↔ inputs = [] ∧
      ∃ header f, ctx.proofHeader id = .ok (some header) ∧
        ctx.proofFormula header header.length = .ok (some f) ∧ e = citedEntry header f := by
  constructor
  · intro h
    cases h with
    | cited hheader hformula => exact ⟨rfl, _, _, hheader, hformula, rfl⟩
    | derived h hw =>
      generalize inputs.map Entry.formula = formulas at h
      cases h with
      | leaf h => cases h
  · rintro ⟨rfl, header, f, hheader, hformula, rfl⟩
    exact .cited hheader hformula

/-- A turn on a step that cites no proof. -/
theorem checkStep_derived {mode : IdentityMode} {entries : List Entry} {steps : List ProofStep}
    {s s' : CheckState} {step : ProofStep} {position : ℕ}
    (hstep : ∀ id, step ≠ .proofReference id) (h : Available mode entries s step) :
    checkStep sha256 ctx mode steps s (step, position) = .ok s' ↔
      ∃ inputs e, Inputs entries step inputs ∧ Produces sha256 ctx step inputs e ∧
        (position = steps.length - 1 → e.formula.WithinLimits) ∧ e.work ≤ s.remainingWork ∧
        s' = nextState mode steps s step position e := by
  obtain ⟨inputs, hinputs⟩ := exists_inputs h
  have hnext : ∀ f, nextState mode steps s step position (derivedEntry sha256 step inputs f) = {
      results := release (lastUses steps) position
          (movedResults (lastUses steps) position s.results step) step.references ++
        [if position = steps.length - 1 ∨ (lastUses steps)[position]?.bind id ≠ none then
          some ⟨f, f.canonicalBytes.length⟩ else none]
      derivationIds :=
        nextIds mode s.derivationIds (derivedEntry sha256 step inputs f).derivationId
      remainingWork := s.remainingWork - (inputs.map Entry.canonicalLength).sum -
        f.canonicalBytes.length
      canonicalConclusion := if position = steps.length - 1 then some (resultBytes mode f)
        else s.canonicalConclusion } := by
    intro f
    rw [release_movedResults, Nat.sub_sub]
    rfl
  constructor
  · intro hs
    obtain ⟨q, hq, hs⟩ := bind_eq_ok.mp hs
    obtain ⟨f, hf, hle, rfl⟩ := (deriveStep_eq_ok hstep h hinputs).mp hq
    obtain ⟨canonical, hc, hs⟩ := bind_eq_ok.mp hs
    obtain ⟨hw, rfl⟩ := encodeResult_eq_ok.1 hc
    obtain ⟨q, hq, hs⟩ := bind_eq_ok.mp hs
    obtain ⟨hle', rfl⟩ := chargeResult_eq_ok.1 hq
    obtain ⟨ids, hi, hs⟩ := bind_eq_ok.mp hs
    rw [recordDerivation_eq_ok h.derivationIds hinputs] at hi
    cases hi
    refine ⟨inputs, _, hinputs, .derived hf hw, fun _ => hw, ?_, ?_⟩
    · show (inputs.map Entry.canonicalLength).sum + f.canonicalBytes.length ≤ s.remainingWork
      omega
    · rw [hnext f]
      exact (pure_eq_ok.mp hs).symm
  · rintro ⟨inputs', e, hinputs', he, -, hwork, rfl⟩
    cases hinputs'.unique hinputs
    obtain ⟨f, hf, hw, rfl⟩ := (produces_derived hstep).mp he
    replace hwork : (inputs.map Entry.canonicalLength).sum + f.canonicalBytes.length ≤
      s.remainingWork := hwork
    have hle : (inputs.map Entry.canonicalLength).sum ≤ s.remainingWork := by omega
    have hle' : f.canonicalBytes.length ≤
      s.remainingWork - (inputs.map Entry.canonicalLength).sum := by omega
    refine bind_eq_ok.mpr ⟨_, (deriveStep_eq_ok hstep h hinputs).mpr ⟨f, hf, hle, rfl⟩, ?_⟩
    refine bind_eq_ok.mpr ⟨_, encodeResult_eq_ok.2 ⟨hw, rfl⟩, ?_⟩
    refine bind_eq_ok.mpr ⟨_, chargeResult_eq_ok.2 ⟨hle', rfl⟩, ?_⟩
    refine bind_eq_ok.mpr ⟨_, recordDerivation_eq_ok h.derivationIds hinputs, ?_⟩
    rw [hnext f]
    rfl

/-- A turn on a step that cites a proof. -/
theorem checkStep_cited {mode : IdentityMode} {steps : List ProofStep} {s s' : CheckState}
    {proofId : ProofId} {position : ℕ} :
    checkStep sha256 ctx mode steps s (.proofReference proofId, position) = .ok s' ↔
      ∃ e, Produces sha256 ctx (.proofReference proofId) [] e ∧
        (position = steps.length - 1 → e.formula.WithinLimits) ∧ e.work ≤ s.remainingWork ∧
        s' = nextState mode steps s (.proofReference proofId) position e := by
  have hencode : ∀ (header : ProofHeader) (f : Formula) canonical,
      encodeResult mode position (steps.length - 1)
        ⟨f, some header.length, some header.derivation⟩ = .ok canonical ↔
      (position = steps.length - 1 → f.WithinLimits) ∧
        canonical = if position = steps.length - 1 then some (resultBytes mode f) else none := by
    intro header f canonical
    by_cases hp : position = steps.length - 1
    · simp only [encodeResult, hp, or_true, if_true, mapError_eq_ok, map_eq_ok,
        canonicalResult_eq_ok, forall_true_left]
      constructor
      · rintro ⟨_, ⟨hw, rfl⟩, rfl⟩
        exact ⟨hw, rfl⟩
      · rintro ⟨hw, rfl⟩
        exact ⟨_, ⟨hw, rfl⟩, rfl⟩
    · simp [encodeResult, hp, eq_comm]
  have hrecord : ∀ (header : ProofHeader) (f : Formula) canonical,
      recordDerivation sha256 mode (.proofReference proofId)
        ⟨f, some header.length, some header.derivation⟩ canonical s.derivationIds =
      .ok (nextIds mode s.derivationIds header.derivation) := by
    intro header f canonical
    cases mode with
    | omitDerivation => rfl
    | derive => rfl
  have hnested : ∀ (x y : Option (List UInt8)), (if position = steps.length - 1 then
      (if position = steps.length - 1 then x else none) else y) =
      if position = steps.length - 1 then x else y := by
    intro x y
    split_ifs with hp
    · rfl
    · rfl
  have hnext : ∀ (header : ProofHeader) (f : Formula),
      nextState mode steps s (.proofReference proofId) position (citedEntry header f) = {
      results := s.results ++
        [if position = steps.length - 1 ∨ (lastUses steps)[position]?.bind id ≠ none then
          some ⟨f, header.length⟩ else none]
      derivationIds := nextIds mode s.derivationIds header.derivation
      remainingWork := s.remainingWork - header.length
      canonicalConclusion := if position = steps.length - 1 then some (resultBytes mode f)
        else s.canonicalConclusion } := fun _ _ => rfl
  constructor
  · intro hs
    obtain ⟨q, hq, hs⟩ := bind_eq_ok.mp hs
    obtain ⟨found, hheader, hq₁⟩ := bind_eq_ok.mp hq
    obtain ⟨header, hsome, hq₂⟩ := bind_eq_ok.mp hq₁
    cases orError_eq_ok.mp hsome
    obtain ⟨work, hwork, hq₃⟩ := bind_eq_ok.mp hq₂
    obtain ⟨hle, rfl⟩ := chargeFormulaWork_eq_ok.1 hwork
    obtain ⟨found, hformula, hq₄⟩ := bind_eq_ok.mp hq₃
    obtain ⟨f, hsome', hq₅⟩ := bind_eq_ok.mp hq₄
    cases orError_eq_ok.mp hsome'
    cases pure_eq_ok.mp hq₅
    obtain ⟨canonical, hc, hs⟩ := bind_eq_ok.mp hs
    obtain ⟨hw, rfl⟩ := (hencode header f canonical).mp hc
    obtain ⟨q', hq', hs⟩ := bind_eq_ok.mp hs
    cases hq'
    obtain ⟨ids, hi, hs⟩ := bind_eq_ok.mp hs
    rw [hrecord] at hi
    cases hi
    refine ⟨_, .cited (mapError_eq_ok.mp hheader) (mapError_eq_ok.mp hformula), hw, hle, ?_⟩
    rw [hnext, ← pure_eq_ok.mp hs, hnested]
    rfl
  · rintro ⟨e, he, hw, hwork, rfl⟩
    obtain ⟨-, header, f, hheader, hformula, rfl⟩ := produces_cited.1 he
    refine bind_eq_ok.mpr ⟨(⟨f, some header.length, some header.derivation⟩, s.results,
      s.remainingWork - header.length), ?_, ?_⟩
    · refine bind_eq_ok.mpr ⟨_, mapError_eq_ok.mpr hheader, bind_eq_ok.mpr ⟨header, rfl, ?_⟩⟩
      refine bind_eq_ok.mpr ⟨_, chargeFormulaWork_eq_ok.2 ⟨hwork, rfl⟩, ?_⟩
      refine bind_eq_ok.mpr ⟨_, mapError_eq_ok.mpr hformula, bind_eq_ok.mpr ⟨f, rfl, rfl⟩⟩
    · refine bind_eq_ok.mpr ⟨_, (hencode header f _).mpr ⟨hw, rfl⟩, ?_⟩
      refine bind_eq_ok.mpr ⟨_, rfl, bind_eq_ok.mpr ⟨_, hrecord _ _ _, ?_⟩⟩
      rw [hnext, ← hnested (some (resultBytes mode f)) s.canonicalConclusion]
      rfl

theorem checkStep_eq_ok {mode : IdentityMode} {entries : List Entry} {steps : List ProofStep}
    {s s' : CheckState} {step : ProofStep} {position : ℕ} (h : Available mode entries s step) :
    checkStep sha256 ctx mode steps s (step, position) = .ok s' ↔
      ∃ inputs e, Inputs entries step inputs ∧ Produces sha256 ctx step inputs e ∧
        (position = steps.length - 1 → e.formula.WithinLimits) ∧ e.work ≤ s.remainingWork ∧
        s' = nextState mode steps s step position e := by
  by_cases hstep : ∃ proofId, step = .proofReference proofId
  · obtain ⟨proofId, rfl⟩ := hstep
    rw [checkStep_cited]
    constructor
    · rintro ⟨e, he, hrest⟩
      exact ⟨[], e, (inputs_of_references_nil rfl).mpr rfl, he, hrest⟩
    · rintro ⟨inputs, e, hinputs, he, hrest⟩
      cases (inputs_of_references_nil rfl).mp hinputs
      exact ⟨e, he, hrest⟩
  · exact checkStep_derived (fun id hid => hstep ⟨id, hid⟩) h

theorem getElem?_release {lastUses : List (Option ℕ)} {position r : ℕ}
    {results : List (Option CheckedStep)} (references : List ℕ)
    (hr : lastUses[r]? ≠ some (some position)) :
    (release lastUses position results references)[r]? = results[r]? := by
  induction references generalizing results with
  | nil => rfl
  | cons q references ih =>
    rw [release, List.foldl_cons]
    refine Eq.trans ih ?_
    split_ifs with hq
    · have hne : q ≠ r := by
        rintro rfl
        exact hr hq
      exact List.getElem?_set_ne hne
    · rfl

@[simp] theorem length_release (lastUses : List (Option ℕ)) (position : ℕ)
    (results : List (Option CheckedStep)) (references : List ℕ) :
    (release lastUses position results references).length = results.length := by
  induction references generalizing results with
  | nil => rfl
  | cons q references ih =>
    rw [release, List.foldl_cons]
    refine Eq.trans (ih _) ?_
    split_ifs with hq
    · exact List.length_set
    · rfl

/-- The use recorded for `r` is not before `position`. -/
def UsedFrom (uses : List (Option ℕ)) (r position : ℕ) : Prop :=
  ∃ q, uses[r]? = some (some q) ∧ position ≤ q

theorem usedFrom_set {uses : List (Option ℕ)} {r position q k : ℕ} (hk : position ≤ k)
    (h : UsedFrom uses r position) : UsedFrom (uses.set q (some k)) r position := by
  obtain ⟨p, hp, hle⟩ := h
  have hlt : r < uses.length := (List.getElem?_eq_some_iff.mp hp).1
  by_cases hq : q = r
  · subst hq
    exact ⟨k, List.getElem?_set_self hlt, hk⟩
  · exact ⟨p, (List.getElem?_set_ne hq).trans hp, hle⟩

theorem usedFrom_foldl_set {uses : List (Option ℕ)} {r position k : ℕ} (references : List ℕ)
    (hk : position ≤ k) (h : UsedFrom uses r position) :
    UsedFrom (references.foldl (fun uses r => uses.set r (some k)) uses) r position := by
  induction references generalizing uses with
  | nil => exact h
  | cons q references ih => exact ih (usedFrom_set hk h)

theorem usedFrom_of_mem {uses : List (Option ℕ)} {r k : ℕ} {references : List ℕ}
    (hr : r ∈ references) (hlt : r < uses.length) :
    UsedFrom (references.foldl (fun uses r => uses.set r (some k)) uses) r k := by
  induction references generalizing uses with
  | nil => cases hr
  | cons q references ih =>
    rcases List.mem_cons.mp hr with rfl | hr
    · exact usedFrom_foldl_set references le_rfl ⟨k, List.getElem?_set_self hlt, le_rfl⟩
    · exact ih hr (by rwa [List.length_set])

theorem length_foldl_set (uses : List (Option ℕ)) (k : ℕ) (references : List ℕ) :
    (references.foldl (fun uses r => uses.set r (some k)) uses).length = uses.length := by
  induction references generalizing uses with
  | nil => rfl
  | cons q references ih => exact (ih _).trans List.length_set

theorem usedFrom_foldl_of_le {uses : List (Option ℕ)} {n k r : ℕ} (steps : List ProofStep)
    (hn : k ≤ n) (h : UsedFrom uses r k) :
    UsedFrom ((steps.zipIdx n).foldl
      (fun uses p => p.1.references.foldl (fun uses r => uses.set r (some p.2)) uses) uses) r k := by
  induction steps generalizing n uses with
  | nil => exact h
  | cons s steps ih =>
    rw [List.zipIdx_cons, List.foldl_cons]
    exact ih (Nat.le_succ_of_le hn) (usedFrom_foldl_set _ hn h)

theorem usedFrom_foldl {steps : List ProofStep} {uses : List (Option ℕ)} {n k r : ℕ}
    {step : ProofStep} (hstep : (step, k) ∈ steps.zipIdx n) (hr : r ∈ step.references)
    (hlt : r < uses.length) :
    UsedFrom ((steps.zipIdx n).foldl
      (fun uses p => p.1.references.foldl (fun uses r => uses.set r (some p.2)) uses) uses) r k := by
  induction steps generalizing n uses with
  | nil => cases hstep
  | cons s steps ih =>
    rw [List.zipIdx_cons, List.foldl_cons]
    rw [List.zipIdx_cons] at hstep
    rcases List.mem_cons.mp hstep with heq | hmem
    · cases heq
      exact usedFrom_foldl_of_le steps (Nat.le_succ k) (usedFrom_of_mem hr hlt)
    · exact ih hmem (by rwa [length_foldl_set])

/-- A step is not released before a step that refers to it. -/
theorem usedFrom_lastUses {steps : List ProofStep} {k r : ℕ} {step : ProofStep}
    (hstep : steps[k]? = some step) (hr : r ∈ step.references) (hlt : r < steps.length) :
    UsedFrom (lastUses steps) r k :=
  usedFrom_foldl (List.mk_mem_zipIdx_iff_getElem?.mpr hstep) hr (by rwa [List.length_replicate])

/-- The entries `more` of the steps that follow those with the given entries. -/
inductive Continues (sha256 : List UInt8 → Digest) (ctx : ContextView) :
    List Entry → List ProofStep → List Entry → Prop
  | nil {entries : List Entry} : Continues sha256 ctx entries [] []
  | cons {entries inputs more : List Entry} {step : ProofStep} {steps : List ProofStep} {e : Entry}
    (hinputs : Inputs entries step inputs) (he : Produces sha256 ctx step inputs e)
    (hmore : Continues sha256 ctx (entries ++ [e]) steps more) :
    Continues sha256 ctx entries (step :: steps) (e :: more)

/-- The state of the loop when `entries` have been reconstructed. -/
structure Agrees (mode : IdentityMode) (steps : List ProofStep) (entries : List Entry)
    (s : CheckState) : Prop where
  length_results : s.results.length = entries.length
  retained : ∀ (r : ℕ) (e : Entry), entries[r]? = some e →
    r = steps.length - 1 ∨ UsedFrom (lastUses steps) r entries.length →
    s.results[r]? = some (some ⟨e.formula, e.canonicalLength⟩)
  derivationIds : mode = .derive → s.derivationIds = entries.map Entry.derivationId
  work : s.remainingWork + (entries.map Entry.work).sum = checkerMaxFormulaWorkBytes
  conclusion : ∀ e, entries[steps.length - 1]? = some e →
    s.canonicalConclusion = some (resultBytes mode e.formula)

theorem Agrees.available {mode : IdentityMode} {steps : List ProofStep} {entries : List Entry}
    {s : CheckState} {step : ProofStep} (h : Agrees mode steps entries s)
    (hstep : steps[entries.length]? = some step) (hr : ∀ r ∈ step.references, r < entries.length) :
    Available mode entries s step where
  result r hmem := by
    have hlt := hr r hmem
    have hget : entries[r]? = some entries[r] := List.getElem?_eq_getElem hlt
    have hlen : entries.length < steps.length := (List.getElem?_eq_some_iff.mp hstep).1
    have hused := usedFrom_lastUses hstep hmem (by omega)
    refine ⟨_, hget, ?_⟩
    rw [result, h.retained r _ hget (.inr hused)]
    rfl
  derivationIds := h.derivationIds

theorem Agrees.next {mode : IdentityMode} {steps : List ProofStep} {entries : List Entry}
    {s : CheckState} {step : ProofStep} {e : Entry} (h : Agrees mode steps entries s)
    (hlt : entries.length < steps.length) (hwork : e.work ≤ s.remainingWork) :
    Agrees mode steps (entries ++ [e]) (nextState mode steps s step entries.length e) where
  length_results := by
    simp [nextState, nextResults, h.length_results]
  retained r e' hr hkeep := by
    have hlen : (release (lastUses steps) entries.length s.results step.references).length =
      entries.length := (length_release _ _ _ _).trans h.length_results
    simp only [nextState, nextResults]
    rcases Nat.lt_or_ge r entries.length with hlt' | hge
    · rw [List.getElem?_append_left hlt'] at hr
      rw [List.getElem?_append_left (by omega)]
      rcases hkeep with hfinal | ⟨q, hq, hle⟩
      · omega
      · rw [List.length_append, List.length_singleton] at hle
        have hne : (lastUses steps)[r]? ≠ some (some entries.length) := by
          rw [hq]
          intro heq
          cases heq
          omega
        rw [getElem?_release _ hne]
        exact h.retained r e' hr (.inr ⟨q, hq, by omega⟩)
    · have hlt'' := (List.getElem?_eq_some_iff.mp hr).1
      rw [List.length_append, List.length_singleton] at hlt''
      obtain rfl : r = entries.length := by omega
      rw [List.getElem?_concat_length] at hr
      cases hr
      rw [List.getElem?_append_right (by omega), hlen, Nat.sub_self]
      have hretain : entries.length = steps.length - 1 ∨
          (lastUses steps)[entries.length]?.bind id ≠ none := by
        rcases hkeep with hfinal | ⟨q, hq, -⟩
        · exact .inl hfinal
        · right
          rw [hq]
          exact Option.some_ne_none q
      rw [if_pos hretain]
      rfl
  derivationIds hmode := by
    subst hmode
    simp [nextState, nextIds, h.derivationIds rfl]
  work := by
    have := h.work
    simp only [nextState, List.map_append, List.sum_append, List.map_cons, List.map_nil,
      List.sum_cons, List.sum_nil]
    omega
  conclusion e' he' := by
    by_cases hp : entries.length = steps.length - 1
    · rw [← hp, List.getElem?_concat_length] at he'
      cases he'
      exact if_pos hp
    · have hge : entries.length < steps.length - 1 := by omega
      rw [List.getElem?_eq_none (by simp; omega)] at he'
      cases he'

theorem agrees_start (mode : IdentityMode) (steps : List ProofStep) :
    Agrees mode steps [] ⟨[], [], checkerMaxFormulaWorkBytes, none⟩ where
  length_results := rfl
  retained r e hr := by cases hr
  derivationIds _ := rfl
  work := rfl
  conclusion e he := by cases he

section

variable {mode : IdentityMode} {steps rest : List ProofStep} {entries : List Entry} {s t : CheckState}

/-- The step at which the loop stands. -/
theorem getElem?_of_drop {step : ProofStep} (h : steps.drop entries.length = step :: rest) :
    steps[entries.length]? = some step := by
  rw [← List.head?_drop, h]
  rfl

theorem drop_snoc {step : ProofStep} (h : steps.drop entries.length = step :: rest) (e : Entry) :
    steps.drop (entries ++ [e]).length = rest := by
  rw [List.length_append, List.length_singleton, ← List.drop_drop, h]
  rfl

theorem take_snoc {step : ProofStep} (h : steps.drop entries.length = step :: rest) (e : Entry) :
    steps.take (entries ++ [e]).length = steps.take entries.length ++ [step] := by
  rw [List.length_append, List.length_singleton, List.take_add_one, getElem?_of_drop h]
  rfl

/-- What a completed loop reconstructed. -/
theorem continues_of_foldlM (hsteps : steps.drop entries.length = rest)
    (he : ProofCodec.Earlier entries.length rest) (h : Agrees mode steps entries s)
    (hs : (rest.zipIdx entries.length).foldlM (checkStep sha256 ctx mode steps) s = .ok t) :
    ∃ more, Continues sha256 ctx entries rest more ∧ Agrees mode steps (entries ++ more) t ∧
      ∀ e, more.getLast? = some e → e.formula.WithinLimits := by
  induction rest generalizing entries s with
  | nil =>
    cases hs
    exact ⟨[], .nil, by rwa [List.append_nil], fun e he => by cases he⟩
  | cons step rest ih =>
    rw [List.zipIdx_cons] at hs
    obtain ⟨m, hm, hs⟩ := foldlM_cons_eq_ok.mp hs
    obtain ⟨hr, he⟩ := ProofCodec.earlier_cons.mp he
    have hget := getElem?_of_drop hsteps
    obtain ⟨inputs, e, hinputs, hproduces, hfinal, hwork, rfl⟩ :=
      (checkStep_eq_ok (h.available hget hr)).mp hm
    have hlt : entries.length < steps.length := (List.getElem?_eq_some_iff.mp hget).1
    have hdrop := drop_snoc hsteps e
    obtain ⟨more, hmore, hagrees, hlast⟩ := ih hdrop
      (by rwa [List.length_append]) (h.next hlt hwork) (by rwa [List.length_append])
    refine ⟨e :: more, .cons hinputs hproduces hmore, ?_, ?_⟩
    · rwa [List.append_assoc] at hagrees
    · intro e' he'
      cases more with
      | nil =>
        cases he'
        cases hmore
        have hlen : steps.length - (entries.length + 1) = 0 := by
          rw [List.length_append, List.length_singleton] at hdrop
          rw [← List.length_drop, hdrop]
          rfl
        exact hfinal (by omega)
      | cons e₁ more => exact hlast e' (by rwa [List.getLast?_cons_cons] at he')

/-- A reconstruction within the work limit is what the loop does. -/
theorem exists_foldlM (hsteps : steps.drop entries.length = rest)
    (he : ProofCodec.Earlier entries.length rest) (h : Agrees mode steps entries s)
    {more : List Entry} (hmore : Continues sha256 ctx entries rest more)
    (hlast : ∀ e, more.getLast? = some e → e.formula.WithinLimits)
    (hwork : ((entries ++ more).map Entry.work).sum ≤ checkerMaxFormulaWorkBytes) :
    ∃ t, (rest.zipIdx entries.length).foldlM (checkStep sha256 ctx mode steps) s = .ok t ∧
      Agrees mode steps (entries ++ more) t := by
  induction hmore generalizing s with
  | nil => exact ⟨s, rfl, by rwa [List.append_nil]⟩
  | @cons entries inputs more step rest e hinputs hproduces hmore ih =>
    obtain ⟨hr, he⟩ := ProofCodec.earlier_cons.mp he
    have hget := getElem?_of_drop hsteps
    have hlt : entries.length < steps.length := (List.getElem?_eq_some_iff.mp hget).1
    have hdrop := drop_snoc hsteps e
    have hle : e.work ≤ s.remainingWork := by
      have := h.work
      simp only [List.map_append, List.map_cons, List.sum_append, List.sum_cons] at hwork
      omega
    have hfinal : entries.length = steps.length - 1 → e.formula.WithinLimits := by
      intro hp
      have hnil : rest = [] := by
        rw [← hdrop, List.drop_eq_nil_iff, List.length_append, List.length_singleton]
        omega
      subst hnil
      cases hmore
      exact hlast e rfl
    obtain ⟨t, ht, hagrees⟩ := ih hdrop (by rwa [List.length_append]) (h.next hlt hle)
      (fun e' he' => hlast e' (by
        cases more with
        | nil => cases he'
        | cons e₁ more => rwa [List.getLast?_cons_cons]))
      (by rwa [List.append_assoc])
    refine ⟨t, ?_, by rwa [List.append_assoc] at hagrees⟩
    rw [List.zipIdx_cons, foldlM_cons_eq_ok]
    exact ⟨_, (checkStep_eq_ok (h.available hget hr)).mpr
      ⟨inputs, e, hinputs, hproduces, hfinal, hle, rfl⟩, by rwa [List.length_append] at ht⟩

end

theorem Continues.length_eq {entries more : List Entry} {steps : List ProofStep}
    (h : Continues sha256 ctx entries steps more) : more.length = steps.length := by
  induction h with
  | nil => rfl
  | cons _ _ _ ih => rw [List.length_cons, List.length_cons, ih]

/-- What the closing checks read from the state. -/
theorem Agrees.final {mode : IdentityMode} {steps : List ProofStep} {entries : List Entry}
    {s : CheckState} {e : Entry} (h : Agrees mode steps entries s)
    (hlen : entries.length = steps.length) (he : entries.getLast? = some e) :
    s.results.getLast?.bind id = some ⟨e.formula, e.canonicalLength⟩ ∧
      s.canonicalConclusion = some (resultBytes mode e.formula) ∧
      (mode = .derive → s.derivationIds.getLast? = some e.derivationId) := by
  have hget : entries[steps.length - 1]? = some e := by
    rwa [List.getLast?_eq_getElem?, hlen] at he
  refine ⟨?_, h.conclusion e hget, ?_⟩
  · rw [List.getLast?_eq_getElem?, h.length_results, hlen, h.retained _ e hget (.inl rfl)]
    rfl
  · intro hmode
    rw [h.derivationIds hmode, List.getLast?_map, he]
    rfl

/-- What the loop over a valid certificate leaves for its last turn. -/
theorem exists_last_of_foldlM {mode : IdentityMode} {c : ProofCertificate} (hv : c.Valid)
    {t : CheckState} (ht : c.steps.zipIdx.foldlM (checkStep sha256 ctx mode c.steps)
      ⟨[], [], checkerMaxFormulaWorkBytes, none⟩ = .ok t) :
    ∃ entries e, Continues sha256 ctx [] c.steps entries ∧ Agrees mode c.steps entries t ∧
      entries.length = c.steps.length ∧ entries.getLast? = some e ∧ e.formula.WithinLimits := by
  have hdrop : c.steps.drop ([] : List Entry).length = c.steps := rfl
  obtain ⟨entries, hentries, hagrees, hlast⟩ :=
    continues_of_foldlM hdrop hv.earlier (agrees_start mode c.steps) ht
  rw [List.nil_append] at hagrees
  have hlen := hentries.length_eq
  have hne : entries ≠ [] := by
    rintro rfl
    exact hv.nonempty (List.eq_nil_of_length_eq_zero hlen.symm)
  have he := List.getLast?_eq_some_getLast hne
  exact ⟨entries, _, hentries, hagrees, hlen, he, hlast _ he⟩

/-- The outcome of a certificate whose steps have the given entries, the last one being `e`. -/
def outcomeOf (mode : IdentityMode) (entries : List Entry) (e : Entry) : CheckOutcome where
  conclusion := e.formula
  canonical := resultBytes mode e.formula
  derivationId := match mode with
    | .derive => some e.derivationId
    | .omitDerivation => none
  remainingWork :=
    checkerMaxFormulaWorkBytes - (entries.map Entry.work).sum - e.canonicalLength

/-- A valid certificate is accepted exactly when its steps can be reconstructed within the
work limit and end in a closed formula. -/
theorem checkSteps_eq_ok {mode : IdentityMode} {c : ProofCertificate} (hv : c.Valid)
    {outcome : CheckOutcome} :
    checkSteps sha256 c ctx mode = .ok outcome ↔
      ∃ entries e, Continues sha256 ctx [] c.steps entries ∧ entries.getLast? = some e ∧
        e.formula.WithinLimits ∧ e.formula.isClosed = true ∧
        (entries.map Entry.work).sum + e.canonicalLength ≤ checkerMaxFormulaWorkBytes ∧
        outcome = outcomeOf mode entries e := by
  have houtcome : ∀ {entries : List Entry} {e : Entry} {t : CheckState},
      Agrees mode c.steps entries t →
      (mode = .derive → t.derivationIds.getLast? = some e.derivationId) →
      (⟨e.formula, resultBytes mode e.formula, match mode with
        | .derive => t.derivationIds.getLast?
        | .omitDerivation => none, t.remainingWork - e.canonicalLength⟩ : CheckOutcome) =
      outcomeOf mode entries e := by
    intro entries e t hagrees hid
    have hwork : t.remainingWork = checkerMaxFormulaWorkBytes - (entries.map Entry.work).sum := by
      have := hagrees.work
      omega
    rw [hwork]
    cases mode with
    | derive =>
      rw [hid rfl]
      rfl
    | omitDerivation => rfl
  constructor
  · intro h
    obtain ⟨_, -, h⟩ := bind_eq_ok.mp h
    obtain ⟨t, ht, h⟩ := bind_eq_ok.mp h
    obtain ⟨entries, e, hentries, hagrees, hlen, he, hlimits⟩ := exists_last_of_foldlM hv ht
    obtain ⟨hresult, hconclusion, hid⟩ := hagrees.final hlen he
    rw [hresult, orError, ok_bind] at h
    obtain ⟨work, hwork, h⟩ := bind_eq_ok.mp h
    obtain ⟨hle, rfl⟩ := chargeFormulaWork_eq_ok.1 hwork
    obtain ⟨_, hclosed, h⟩ := bind_eq_ok.mp h
    rw [hconclusion, orError, ok_bind] at h
    have hsum : (entries.map Entry.work).sum + e.canonicalLength ≤
        checkerMaxFormulaWorkBytes := by
      have hbound := hagrees.work
      dsimp only at hle
      omega
    exact ⟨entries, e, hentries, he, hlimits, require_eq_ok.mp hclosed, hsum,
      (pure_eq_ok.mp h).symm.trans (houtcome hagrees hid)⟩
  · rintro ⟨entries, e, hentries, he, hw, hclosed, hwork, rfl⟩
    have hdrop : c.steps.drop ([] : List Entry).length = c.steps := rfl
    obtain ⟨t, ht, hagrees⟩ := exists_foldlM hdrop hv.earlier
      (agrees_start mode c.steps) hentries (fun e' he' => by
        rw [he] at he'
        cases he'
        exact hw) (by rw [List.nil_append]; omega)
    rw [List.nil_append] at hagrees
    obtain ⟨hresult, hconclusion, hid⟩ := hagrees.final hentries.length_eq he
    have hbound := hagrees.work
    refine bind_eq_ok.mpr ⟨(), require_eq_ok.mpr hv.nonempty, bind_eq_ok.mpr ⟨t, ht, ?_⟩⟩
    rw [hresult, orError, ok_bind]
    have hle : e.canonicalLength ≤ t.remainingWork := by omega
    refine bind_eq_ok.mpr ⟨_, chargeFormulaWork_eq_ok.2 ⟨hle, rfl⟩, ?_⟩
    refine bind_eq_ok.mpr ⟨(), require_eq_ok.mpr hclosed, ?_⟩
    rw [hconclusion, orError, ok_bind]
    exact congrArg Except.ok (houtcome hagrees hid)

end Naome.Checker
