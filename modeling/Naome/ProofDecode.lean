import Naome.ProofCodecSpec

/-!
# The certificate decoder

A step is read by the layout of its tag: the readers of its fields in order. The decoder
accepts exactly the bytes of steps within the limits whose references point to earlier
steps.
-/
namespace Naome
open LocallyNameless Outcome ByteCursor

namespace ProofCodec

theorem readFormula_eq_ok {bytes rest : List UInt8} {remaining remaining' : ℕ}
    {f : ProofFormula} :
    readFormula bytes remaining = .ok (f, rest, remaining') ↔
      f.WithinLimits ∧ f.nodeCount ≤ remaining ∧ remaining' = remaining - f.nodeCount ∧
        bytes = framed f.canonicalBytes ++ rest := by
  simp only [readFormula, bind_eq_ok, Prod.exists, readU32_eq_ok, take_eq_ok, mapError_eq_ok,
    ProofFormula.decodeCanonicalWithNodeLimit_eq_ok, require_eq_ok, exists_const, pure_eq_ok,
    Prod.mk.injEq]
  constructor
  · rintro ⟨_, _, ⟨-, rfl⟩, _, _, ⟨rfl, rfl⟩, f', _, ⟨hw, hn, rfl, rfl⟩, -, rfl, rfl, rfl⟩
    exact ⟨hw, hn, rfl, by simp [framed]⟩
  · rintro ⟨hw, hn, rfl, rfl⟩
    have hlen := hw.length_le
    unfold formulaMaxBytes at hlen
    exact ⟨_, f.canonicalBytes ++ rest, ⟨by omega, by simp [framed]⟩, _, rest, ⟨rfl, rfl⟩, f, _,
      ⟨hw, hn, rfl, rfl⟩, hn, rfl, rfl, rfl⟩

theorem readVariable_eq_ok {bytes rest : List UInt8} {v : FreeVariable} :
    readVariable bytes = .ok (v, rest) ↔ bytes = u32Bytes v.identifier.toNat ++ rest := by
  simp only [readVariable, bind_eq_ok, Prod.exists, readU32_eq_ok, pure_eq_ok, Prod.mk.injEq]
  constructor
  · rintro ⟨value, _, ⟨hlt, rfl⟩, rfl, rfl⟩
    rw [UInt32.toNat_ofNat_of_lt' hlt]
  · rintro rfl
    refine ⟨v.identifier.toNat, rest, ⟨v.identifier.toNat_lt, rfl⟩, ?_, rfl⟩
    rw [UInt32.ofNat_toNat]

theorem readVariables_eq_ok {bytes rest : List UInt8} {vs : List FreeVariable} :
    readVariables bytes = .ok (vs, rest) ↔ vs.length < 2 ^ 32 ∧
      bytes = (StepField.freeVariables vs).bytes ++ rest := by
  have hvariable : ∀ bytes v rest, readVariable bytes = .ok (v, rest) ↔
      True ∧ bytes = u32Bytes v.identifier.toNat ++ rest :=
    fun _ _ _ => readVariable_eq_ok.trans (true_and _).to_iff.symm
  simp only [readVariables, bind_eq_ok, Prod.exists, readU32_eq_ok, require_eq_ok, exists_const,
    readMany_eq_ok hvariable, StepField.bytes]
  constructor
  · rintro ⟨_, _, ⟨hlt, rfl⟩, -, rfl, -, rfl⟩
    exact ⟨hlt, by simp⟩
  · rintro ⟨hlt, rfl⟩
    refine ⟨vs.length, _, ⟨hlt, by rw [List.append_assoc]⟩, ?_, rfl, by simp, rfl⟩
    rw [List.length_append, length_flatMap_u32Bytes]
    omega

theorem decodeZfcAxiom_eq_ok {tag : UInt8} {fixed : ZfcAxiom} :
    decodeZfcAxiom tag = .ok fixed ↔ tag = encodeZfcAxiom fixed := by
  unfold decodeZfcAxiom
  constructor
  · intro h
    split_ifs at h with h₀ h₁ h₂ h₃ h₄ h₅ h₆ <;> cases h <;> assumption
  · rintro rfl
    cases fixed <;> rfl

/-- Reads a value from the unread bytes under a budget of formula nodes. -/
abbrev Reader (α : Type) := List UInt8 → ℕ → CodecM (α × List UInt8 × ℕ)

/-- The result of reading `fields` from `bytes`. -/
structure ReadsFields (fields : List StepField) (bytes : List UInt8) (remaining : ℕ)
    (rest : List UInt8) (remaining' : ℕ) : Prop where
  fits : ∀ f ∈ fields, f.Fits
  nodes_le : (fields.map StepField.nodes).sum ≤ remaining
  remaining_eq : remaining' = remaining - (fields.map StepField.nodes).sum
  bytes_eq : bytes = fields.flatMap StepField.bytes ++ rest

/-- A reader together with the fields it reads. -/
structure Layout (α : Type) where
  read : Reader α
  fields : α → List StepField
  spec : ∀ bytes remaining a rest remaining',
    read bytes remaining = .ok (a, rest, remaining') ↔
      ReadsFields (fields a) bytes remaining rest remaining'

namespace Layout

variable {α β : Type}

/-- A reader of a field without formulas. -/
def plain (read : List UInt8 → CodecM (α × List UInt8)) (field : α → StepField)
    (hnodes : ∀ a, (field a).nodes = 0)
    (hread : ∀ bytes a rest, read bytes = .ok (a, rest) ↔
      (field a).Fits ∧ bytes = (field a).bytes ++ rest) : Layout α where
  read bytes remaining := (read bytes).map fun p => (p.1, p.2, remaining)
  fields a := [field a]
  spec := by
    intro bytes remaining a rest remaining'
    simp only [map_eq_ok, Prod.exists, Prod.mk.injEq, hread]
    constructor
    · rintro ⟨_, _, ⟨hf, rfl⟩, rfl, rfl, rfl⟩
      exact ⟨by simpa using hf, by simp [hnodes], by simp [hnodes], by simp⟩
    · rintro ⟨hf, -, hr, rfl⟩
      exact ⟨a, rest, ⟨by simpa using hf, by simp⟩, rfl, rfl, by simpa [hnodes] using hr.symm⟩

def formula : Layout ProofFormula where
  read := readFormula
  fields f := [.formula f]
  spec := by
    intro bytes remaining f rest remaining'
    rw [readFormula_eq_ok]
    constructor
    · rintro ⟨hw, hn, rfl, rfl⟩
      exact ⟨by simpa [StepField.Fits] using hw, by simpa [StepField.nodes] using hn, by simp [StepField.nodes],
        by simp [StepField.bytes]⟩
    · rintro ⟨hf, hn, rfl, rfl⟩
      exact ⟨by simpa [StepField.Fits] using hf, by simpa [StepField.nodes] using hn, by simp [StepField.nodes],
        by simp [StepField.bytes]⟩

def freeVariable : Layout FreeVariable :=
  plain readVariable .freeVariable (fun _ => rfl) fun _ _ _ => by
    rw [readVariable_eq_ok]
    exact (true_and _).to_iff.symm

def freeVariables : Layout (List FreeVariable) :=
  plain readVariables .freeVariables (fun _ => rfl) fun _ _ _ => readVariables_eq_ok

def readZfcAxiom (bytes : List UInt8) : CodecM (ZfcAxiom × List UInt8) := do
  let (tag, bytes) ← readU8 unexpectedEnd bytes
  let fixed ← decodeZfcAxiom tag
  return (fixed, bytes)

def zfcAxiom : Layout ZfcAxiom :=
  plain readZfcAxiom .zfcAxiom (fun _ => rfl) fun bytes fixed rest => by
    simp only [readZfcAxiom, bind_eq_ok, Prod.exists, readU8_eq_ok, decodeZfcAxiom_eq_ok,
      pure_eq_ok, Prod.mk.injEq]
    constructor
    · rintro ⟨_, _, rfl, _, rfl, rfl, rfl⟩
      exact ⟨trivial, rfl⟩
    · rintro ⟨-, rfl⟩
      exact ⟨_, rest, rfl, fixed, rfl, rfl, rfl⟩

def proofId : Layout ProofId :=
  plain (readDigest unexpectedEnd) .proofId (fun _ => rfl) fun _ _ _ => by
    rw [readDigest_eq_ok]
    exact (true_and _).to_iff.symm

def reference : Layout ℕ :=
  plain (readU32 unexpectedEnd) .reference (fun _ => rfl) fun _ _ _ => readU32_eq_ok

/-- Two layouts one after the other. -/
def andThen (first : Layout α) (second : Layout β) : Layout (α × β) where
  read bytes remaining := do
    let (a, bytes, remaining) ← first.read bytes remaining
    let (b, bytes, remaining) ← second.read bytes remaining
    return ((a, b), bytes, remaining)
  fields p := first.fields p.1 ++ second.fields p.2
  spec := by
    rintro bytes remaining ⟨a, b⟩ rest remaining'
    simp only [bind_eq_ok, Prod.exists, first.spec, second.spec, pure_eq_ok, Prod.mk.injEq]
    constructor
    · rintro ⟨_, _, _, ⟨hf, hn, rfl, rfl⟩, _, _, _, ⟨hf', hn', rfl, rfl⟩, ⟨rfl, rfl⟩, rfl, rfl⟩
      refine ⟨List.forall_mem_append.mpr ⟨hf, hf'⟩, ?_, ?_, ?_⟩
      · rw [List.map_append, List.sum_append]
        omega
      · rw [List.map_append, List.sum_append]
        omega
      · rw [List.flatMap_append, List.append_assoc]
    · rintro ⟨hf, hn, hr, rfl⟩
      obtain ⟨hf, hf'⟩ := List.forall_mem_append.mp hf
      simp only [List.map_append, List.sum_append, List.flatMap_append, List.append_assoc] at hn hr ⊢
      exact ⟨a, _, _, ⟨hf, by omega, rfl, rfl⟩, b, rest, _, ⟨hf', by omega, rfl, rfl⟩,
        ⟨rfl, rfl⟩, rfl, by omega⟩

end Layout

/-- The layout of the steps with one tag. -/
structure StepLayout where
  tag : UInt8
  Payload : Type
  layout : Layout Payload
  build : Payload → ProofStep
  tag_eq : ∀ a, (build a).canonicalTag = tag
  fields_eq : ∀ a, (build a).fields = layout.fields a

open Layout in
/-- What the decoder reads after each tag. -/
def stepLayouts : List StepLayout :=
  [⟨0x00, _, formula.andThen formula, fun (antecedent, consequent) =>
      .simplification antecedent consequent, fun _ => rfl, fun _ => rfl⟩,
    ⟨0x01, _, formula.andThen (formula.andThen formula), fun (first, second, third) =>
      .frege first second third, fun _ => rfl, fun _ => rfl⟩,
    ⟨0x02, _, formula.andThen formula, fun (antecedent, consequent) =>
      .classicalContraposition antecedent consequent, fun _ => rfl, fun _ => rfl⟩,
    ⟨0x03, _, freeVariable.andThen (formula.andThen formula), fun (v, antecedent, consequent) =>
      .universalDistribution v antecedent consequent, fun _ => rfl, fun _ => rfl⟩,
    ⟨0x04, _, formula, fun f => .vacuousUniversal f, fun _ => rfl, fun _ => rfl⟩,
    ⟨0x05, _, freeVariable.andThen (freeVariable.andThen formula), fun (v, replacement, body) =>
      .universalInstantiation v replacement body, fun _ => rfl, fun _ => rfl⟩,
    ⟨0x06, _, freeVariable, fun v => .equalityReflexivity v, fun _ => rfl, fun _ => rfl⟩,
    ⟨0x07, _, freeVariable.andThen (freeVariable.andThen formula), fun (source, target, body) =>
      .equalitySubstitution source target body, fun _ => rfl, fun _ => rfl⟩,
    ⟨0x10, _, zfcAxiom, fun fixed => .zfcAxiom fixed, fun _ => rfl, fun _ => rfl⟩,
    ⟨0x11, _, formula.andThen (freeVariable.andThen (freeVariable.andThen
      (freeVariable.andThen freeVariables))), fun (predicate, element, source, result, parameters) =>
      .separation ⟨predicate, element, source, result, parameters⟩, fun _ => rfl, fun _ => rfl⟩,
    ⟨0x12, _, formula.andThen (freeVariable.andThen (freeVariable.andThen (freeVariable.andThen
      (freeVariable.andThen (freeVariable.andThen freeVariables))))),
      fun (predicate, input, output, uniquenessWitness, source, result, parameters) =>
      .replacement ⟨predicate, input, output, uniquenessWitness, source, result, parameters⟩,
      fun _ => rfl, fun _ => rfl⟩,
    ⟨0x30, _, proofId, fun id => .proofReference id, fun _ => rfl, fun _ => rfl⟩,
    ⟨0x20, _, reference.andThen reference, fun (premise, implication) =>
      .modusPonens premise implication, fun _ => rfl, fun _ => rfl⟩,
    ⟨0x21, _, reference.andThen freeVariable, fun (premise, v) => .generalization premise v,
      fun _ => rfl, fun _ => rfl⟩]

/-- Decodes one step and returns the unread bytes and formula nodes. -/
def decodeStep : Reader ProofStep := fun bytes remaining => do
  let (tag, bytes) ← readU8 unexpectedEnd bytes
  match stepLayouts.find? fun l => l.tag = tag with
  | some l => (l.layout.read bytes remaining).map fun r => (l.build r.1, r.2)
  | none => .error (.error (.unknownStepTag tag))

/-- Every step has a layout under its tag. -/
theorem exists_layout (step : ProofStep) :
    ∃ l a, (stepLayouts.find? fun l => l.tag = step.canonicalTag) = some l ∧ l.build a = step := by
  cases step with
  | simplification a c => exact ⟨_, (a, c), rfl, rfl⟩
  | frege a b c => exact ⟨_, (a, b, c), rfl, rfl⟩
  | classicalContraposition a c => exact ⟨_, (a, c), rfl, rfl⟩
  | universalDistribution v a c => exact ⟨_, (v, a, c), rfl, rfl⟩
  | vacuousUniversal f => exact ⟨_, f, rfl, rfl⟩
  | universalInstantiation v r b => exact ⟨_, (v, r, b), rfl, rfl⟩
  | equalityReflexivity v => exact ⟨_, v, rfl, rfl⟩
  | equalitySubstitution s t b => exact ⟨_, (s, t, b), rfl, rfl⟩
  | zfcAxiom a => exact ⟨_, a, rfl, rfl⟩
  | separation s =>
    exact ⟨_, (s.predicate, s.element, s.source, s.result, s.parameters), rfl, rfl⟩
  | replacement r =>
    exact ⟨_, (r.predicate, r.input, r.output, r.uniquenessWitness, r.source, r.result,
      r.parameters), rfl, rfl⟩
  | proofReference d => exact ⟨_, d, rfl, rfl⟩
  | modusPonens p i => exact ⟨_, (p, i), rfl, rfl⟩
  | generalization p v => exact ⟨_, (p, v), rfl, rfl⟩

theorem decodeStep_eq_ok {bytes rest : List UInt8} {remaining remaining' : ℕ} {step : ProofStep} :
    decodeStep bytes remaining = .ok (step, rest, remaining') ↔
      step.Fits ∧ step.nodes ≤ remaining ∧ remaining' = remaining - step.nodes ∧
        bytes = step.bytes ++ rest := by
  simp only [decodeStep, bind_eq_ok, Prod.exists, readU8_eq_ok]
  constructor
  · rintro ⟨tag, bytes, rfl, h⟩
    cases hl : stepLayouts.find? fun l => l.tag = tag with
    | none => simp [hl] at h
    | some l =>
      have htag : l.tag = tag := by simpa using List.find?_some hl
      simp only [hl, map_eq_ok, Prod.exists, l.layout.spec, Prod.mk.injEq] at h
      obtain ⟨a, _, _, ha, rfl, rfl, rfl⟩ := h
      have hfields := l.fields_eq a
      rw [← hfields] at ha
      refine ⟨ha.fits, ha.nodes_le, ha.remaining_eq, ?_⟩
      rw [ProofStep.bytes, l.tag_eq, htag, List.cons_append, ← ha.bytes_eq]
  · rintro ⟨hf, hn, rfl, rfl⟩
    obtain ⟨l, a, hl, rfl⟩ := exists_layout step
    refine ⟨_, _, rfl, ?_⟩
    simp only [hl, map_eq_ok, Prod.exists, l.layout.spec, Prod.mk.injEq]
    refine ⟨a, rest, _, ?_, rfl, rfl, rfl⟩
    rw [← l.fields_eq a]
    exact ⟨hf, hn, rfl, rfl⟩

/-- Decodes `count` steps from `position` on, checking references as it goes. -/
def decodeStepsFrom : ℕ → ℕ → List UInt8 → ℕ → CodecM (List ProofStep × List UInt8)
  | 0, _, bytes, _ => .ok ([], bytes)
  | count + 1, position, bytes, remaining => do
    let (step, bytes, remaining) ← decodeStep bytes remaining
    validateStepReferences position step
    let (steps, bytes) ← decodeStepsFrom count (position + 1) bytes remaining
    return (step :: steps, bytes)

theorem validateStepReferences_eq_ok {position : ℕ} {step : ProofStep} {a : Unit} :
    validateStepReferences position step = .ok a ↔ ∀ r ∈ step.references, r < position := by
  simp only [validateStepReferences, forM_eq_ok, validateReference, require_eq_ok]

/-- References of the steps from `position` on point to earlier steps. -/
def Earlier (position : ℕ) (steps : List ProofStep) : Prop :=
  ∀ p ∈ steps.zipIdx position, ∀ r ∈ p.1.references, r < p.2

theorem earlier_cons {position : ℕ} {step : ProofStep} {steps : List ProofStep} :
    Earlier position (step :: steps) ↔
      (∀ r ∈ step.references, r < position) ∧ Earlier (position + 1) steps := by
  simp [Earlier, List.zipIdx_cons]

theorem decodeStepsFrom_eq_ok {count position remaining : ℕ} {bytes rest : List UInt8}
    {steps : List ProofStep} :
    decodeStepsFrom count position bytes remaining = .ok (steps, rest) ↔
      steps.length = count ∧ (∀ step ∈ steps, step.Fits) ∧ Earlier position steps ∧
        (steps.map ProofStep.nodes).sum ≤ remaining ∧
        bytes = steps.flatMap ProofStep.bytes ++ rest := by
  induction count generalizing position remaining bytes rest steps with
  | zero =>
    simp only [decodeStepsFrom, Except.ok.injEq, Prod.mk.injEq, List.length_eq_zero_iff]
    constructor
    · rintro ⟨rfl, rfl⟩
      simp [Earlier]
    · rintro ⟨rfl, -, -, -, rfl⟩
      simp
  | succ count ih =>
    simp only [decodeStepsFrom, bind_eq_ok, Prod.exists, decodeStep_eq_ok,
      validateStepReferences_eq_ok, exists_const, ih, pure_eq_ok, Prod.mk.injEq]
    constructor
    · rintro ⟨step, _, _, ⟨hf, hn, rfl, rfl⟩, hr, steps, _, ⟨rfl, hfs, he, hns, rfl⟩, rfl, rfl⟩
      refine ⟨rfl, List.forall_mem_cons.mpr ⟨hf, hfs⟩, earlier_cons.2 ⟨hr, he⟩, ?_, by simp⟩
      rw [List.map_cons, List.sum_cons]
      omega
    · rintro ⟨hl, hf, he, hn, rfl⟩
      obtain ⟨step, steps, rfl⟩ := List.exists_cons_of_length_eq_add_one hl
      obtain ⟨hf, hfs⟩ := List.forall_mem_cons.mp hf
      obtain ⟨hr, he⟩ := earlier_cons.1 he
      rw [List.map_cons, List.sum_cons] at hn
      exact ⟨step, _, _, ⟨hf, by omega, rfl, by rw [List.flatMap_cons, List.append_assoc]⟩, hr, steps,
        rest, ⟨by simpa using hl, hfs, he, by omega, rfl⟩, rfl, rfl⟩

end ProofCodec

namespace ProofCertificate
open ProofCodec

def fromCanonicalBytes (bytes : List UInt8) : CodecM ProofCertificate := do
  ensureWithinByteLimit bytes.length
  let (stepCount, bytes) ← readU32 unexpectedEnd bytes
  require (stepCount ≠ 0) (.error .emptyCertificate)
  require (stepCount ≤ certificateMaxSteps) (.error (.tooManySteps stepCount certificateMaxSteps))
  let (steps, bytes) ← decodeStepsFrom stepCount 0 bytes certificateMaxFormulaNodes
  require (bytes = []) (.error (.trailingBytes bytes.length))
  return ⟨steps⟩

/-- The certificates that the constructor accepts. -/
structure Valid (c : ProofCertificate) : Prop where
  nonempty : c.steps ≠ []
  length_le : c.steps.length ≤ certificateMaxSteps
  earlier : Earlier 0 c.steps
  encodable : Encodable c.steps

/-- The canonical bytes of a certificate. -/
def canonicalBytes (c : ProofCertificate) : List UInt8 := stepsBytes c.steps

theorem validateSteps_eq_ok {steps : List ProofStep} {a : Unit} :
    validateSteps steps = .ok a ↔
      steps ≠ [] ∧ steps.length ≤ certificateMaxSteps ∧ Earlier 0 steps := by
  simp only [validateSteps, bind_eq_ok, require_eq_ok, exists_const, forM_eq_ok,
    validateStepReferences_eq_ok, Earlier]

theorem new_eq_ok {steps : List ProofStep} {c : ProofCertificate} :
    new steps = .ok c ↔ c.Valid ∧ c.steps = steps := by
  simp only [new, bind_eq_ok, validateSteps_eq_ok, validateStepsEncoding_eq_ok, exists_const,
    pure_eq_ok]
  constructor
  · rintro ⟨⟨hne, hl, he⟩, henc, rfl⟩
    exact ⟨⟨hne, hl, he, henc⟩, rfl⟩
  · rintro ⟨hv, rfl⟩
    exact ⟨⟨hv.nonempty, hv.length_le, hv.earlier⟩, hv.encodable, rfl⟩

theorem toCanonicalBytes_eq_ok {c : ProofCertificate} {bytes : List UInt8} :
    c.toCanonicalBytes = .ok bytes ↔ Encodable c.steps ∧ bytes = c.canonicalBytes := by
  rw [toCanonicalBytes, mapError_eq_ok, encodeSteps_eq_ok, canonicalBytes]

theorem writable_of_fits {step : ProofStep} (h : step.Fits) : step.Writable := by
  intro f hf
  have := h f hf
  cases f with
  | formula f => exact this
  | _ => trivial

theorem length_bytes_le {steps : List ProofStep} {step : ProofStep} (h : step ∈ steps)
    {f : StepField} (hf : f ∈ step.fields) : f.bytes.length ≤ (stepsBytes steps).length := by
  have hsteps := List.le_sum_of_mem (List.mem_map_of_mem (f := fun s => s.bytes.length) h)
  have hfields := List.le_sum_of_mem (List.mem_map_of_mem (f := fun f => f.bytes.length) hf)
  simp only [stepsBytes, ProofStep.bytes, List.length_append, List.length_flatMap,
    List.length_cons] at hsteps hfields ⊢
  omega

theorem mem_references {step : ProofStep} {r : ℕ} (h : .reference r ∈ step.fields) :
    r ∈ step.references := by
  cases step with
  | modusPonens p i =>
    simpa [ProofStep.fields, ProofStep.references, ProofStep.localReferences] using h
  | generalization p v =>
    simpa [ProofStep.fields, ProofStep.references, ProofStep.localReferences] using h
  | _ => simp [ProofStep.fields] at h

/-- Fields written within the limits fit their wire widths when references are earlier. -/
theorem fits_of_valid {c : ProofCertificate} (hv : c.Valid) : ∀ step ∈ c.steps, step.Fits := by
  intro step hs f hf
  have hlen := (length_bytes_le hs hf).trans hv.encodable.bytes_le
  unfold certificateMaxBytes at hlen
  cases f with
  | formula f => exact hv.encodable.writable step hs _ hf
  | freeVariables vs =>
    rw [StepField.bytes, List.length_append, length_flatMap_u32Bytes] at hlen
    simp only [StepField.Fits]
    omega
  | reference r =>
    obtain ⟨i, hi, rfl⟩ := List.mem_iff_getElem.mp hs
    have hr := hv.earlier (c.steps[i], i) (List.mk_mem_zipIdx_iff_getElem?.mpr (by simp [hi])) r
      (mem_references hf)
    have := hv.encodable.length_lt
    simp only [StepField.Fits] at hr ⊢
    omega
  | freeVariable v | zfcAxiom a | proofId d => trivial

theorem fromCanonicalBytes_eq_ok {bytes : List UInt8} {c : ProofCertificate} :
    fromCanonicalBytes bytes = .ok c ↔ c.Valid ∧ bytes = c.canonicalBytes := by
  simp only [fromCanonicalBytes, bind_eq_ok, ensureWithinByteLimit_eq_ok, Prod.exists,
    readU32_eq_ok, require_eq_ok, exists_const, decodeStepsFrom_eq_ok, pure_eq_ok]
  constructor
  · rintro ⟨hl, _, _, ⟨hlt, rfl⟩, hne, hle, steps, _, ⟨rfl, hf, he, hn, rfl⟩, rfl, rfl⟩
    rw [List.append_nil] at hl ⊢
    exact ⟨⟨fun h => hne (List.length_eq_zero_iff.mpr h), hle, he,
      ⟨hlt, fun step hs => writable_of_fits (hf step hs), hn, hl⟩⟩, rfl⟩
  · rintro ⟨hv, rfl⟩
    refine ⟨hv.encodable.bytes_le, _, _, ⟨hv.encodable.length_lt, rfl⟩, ?_, hv.length_le, c.steps,
      [], ⟨rfl, fits_of_valid hv, hv.earlier, hv.encodable.nodes_le, by simp⟩, rfl, rfl⟩
    exact fun h => hv.nonempty (List.length_eq_zero_iff.mp h)

end ProofCertificate
end Naome
