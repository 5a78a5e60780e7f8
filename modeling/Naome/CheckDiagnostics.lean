import Naome.CheckerSpec

/-!
# Diagnostics of a failed check

An error carries the operands of the failing step, as far as the table of results still has them.
The loop is written over the policy by which it forgets results, so that the loop that releases
them early can be compared with the one that keeps them all. A fragment or a difference is a
function of formulas and is represented by them; what a report copies from the kind of the error
and from the input is left out.
-/
namespace Naome
open LocallyNameless Outcome

def CheckErrorKind.step : CheckErrorKind → ℕ
  | .contextAccess step _ => step
  | .unknownProofReference step _ => step
  | .definitionExpansion step _ => step
  | .logic step _ => step
  | .schema step _ => step
  | .derivedFormula step _ => step
  | .formulaWorkLimitExceeded step _ _ => step
  | .openConclusion step => step

namespace Checker

inductive FormulaPathSegment
  | negated
  | antecedent
  | consequent
  | quantified
  | leftVariable
  | rightVariable
  deriving DecidableEq, Repr

/-- The path to the first difference of two trees. -/
def different : PrimitiveNode → PrimitiveNode → Option (List FormulaPathSegment)
  | .equal a b, .equal c d =>
    if a ≠ c then some [.leftVariable] else if b ≠ d then some [.rightVariable] else none
  | .member a b, .member c d =>
    if a ≠ c then some [.leftVariable] else if b ≠ d then some [.rightVariable] else none
  | .not a, .not b => (different a b).map (.negated :: ·)
  | .forAll a, .forAll b => (different a b).map (.quantified :: ·)
  | .implies a b, .implies c d =>
    match different a c with
    | some path => some (.antecedent :: path)
    | none => (different b d).map (.consequent :: ·)
  | _, _ => some []

structure FormulaMismatch where
  expected : Formula
  actual : Formula
  path : List FormulaPathSegment

def FormulaMismatch.between (expected actual : Formula) : Option FormulaMismatch :=
  (different expected.node actual.node).map fun path => ⟨expected, actual, path⟩

inductive OperandRole
  | premise
  | implication
  | antecedent
  | consequent
  | first
  | second
  | third
  | formula
  | body
  | predicate
  | ofVariable
  | fromVariable
  | toVariable
  | element
  | source
  | result
  | input
  | output
  | witness
  | parameter
  | conclusion
  deriving DecidableEq, Repr

structure Operand where
  role : OperandRole
  index : Option ℕ := none
  reference : Option ℕ := none
  proved : Option Bool := none
  formula : Option Formula := none
  freeVariable : Option FreeVariable := none

structure ProofDiagnostic where
  step : ℕ
  checkedBefore : ℕ
  operands : List Operand
  operandsComplete : Bool
  difference : Option FormulaMismatch

/-- A kind with its evidence. -/
structure CheckError where
  kind : CheckErrorKind
  comparison : Option FormulaMismatch
  diagnostic : ProofDiagnostic

/-- The roles that a step's own variables play, schemas first. -/
def variableRoles : ProofStep → List (OperandRole × FreeVariable)
  | .separation s => [(.element, s.element), (.source, s.source), (.result, s.result)]
  | .replacement s => [(.input, s.input), (.output, s.output), (.witness, s.uniquenessWitness),
      (.source, s.source), (.result, s.result)]
  | .generalization _ v => [(.ofVariable, v)]
  | .universalDistribution v _ _ => [(.ofVariable, v)]
  | .equalityReflexivity v => [(.ofVariable, v)]
  | .universalInstantiation v replacement _ => [(.ofVariable, v), (.toVariable, replacement)]
  | .equalitySubstitution source target _ => [(.fromVariable, source), (.toVariable, target)]
  | _ => []

def schemaParameters : ProofStep → List FreeVariable
  | .separation s => s.parameters
  | .replacement s => s.parameters
  | _ => []

/-- The formula fields of a step, which have no proofhood claim. -/
def rawFormulas : ProofStep → List (OperandRole × ProofFormula)
  | .simplification antecedent consequent => [(.antecedent, antecedent), (.consequent, consequent)]
  | .classicalContraposition antecedent consequent =>
    [(.antecedent, antecedent), (.consequent, consequent)]
  | .universalDistribution _ antecedent consequent =>
    [(.antecedent, antecedent), (.consequent, consequent)]
  | .frege first second third => [(.first, first), (.second, second), (.third, third)]
  | .vacuousUniversal formula => [(.formula, formula)]
  | .universalInstantiation _ _ body => [(.body, body)]
  | .equalitySubstitution _ _ body => [(.body, body)]
  | .separation s => [(.predicate, s.predicate)]
  | .replacement s => [(.predicate, s.predicate)]
  | _ => []

/-- The formula of an earlier step, when the table still has it. -/
def retainedFormula (results : List (Option CheckedStep)) (reference : ℕ) : Option Formula :=
  (results[reference]?.bind id).map CheckedStep.formula

/-- The operands that a step takes from the table. -/
def resultOperands (results : List (Option CheckedStep)) : ProofStep → List Operand
  | .modusPonens premise implication =>
    [{ role := .premise, reference := some premise, proved := some true,
       formula := retainedFormula results premise },
      { role := .implication, reference := some implication, proved := some true,
        formula := retainedFormula results implication }] ++
    match (retainedFormula results implication).bind Formula.implicationParts with
    | some (antecedent, _) => [{ role := .antecedent, formula := some antecedent }]
    | none => []
  | .generalization premise _ =>
    [{ role := .premise, reference := some premise, proved := some true,
       formula := retainedFormula results premise }]
  | _ => []

/-- How the premise of a modus ponens differs from the antecedent. -/
def premiseDifference (results : List (Option CheckedStep)) : ProofStep → Option FormulaMismatch
  | .modusPonens premise implication => do
    let (antecedent, _) ← (retainedFormula results implication).bind Formula.implicationParts
    FormulaMismatch.between antecedent (← retainedFormula results premise)
  | _ => none

/-- The comparison that a failed modus ponens carries in its kind. -/
def failedComparison (results : List (Option CheckedStep)) (step : ProofStep) :
    CheckErrorKind → Option FormulaMismatch
  | .logic _ _ => premiseDifference results step
  | _ => none

/-- The operands of a step that do not depend on earlier steps. -/
def inputOperands (ctx : ContextView) (kind : CheckErrorKind) (step : ProofStep) : List Operand :=
  let raw := (rawFormulas step).map fun p =>
    ({ role := p.1, formula := (primitiveFormula ctx kind.step p.2).toOption } : Operand)
  let roles := (variableRoles step).map fun p =>
    ({ role := p.1, freeVariable := some p.2 } : Operand)
  let parameter := fun index =>
    ({ role := .parameter, index := some index,
       freeVariable := (schemaParameters step)[index]? } : Operand)
  let listed := (List.range (min (schemaParameters step).length 32)).map parameter
  -- the offending parameters are kept also beyond the small list
  let offending := match kind with
    | .schema _ (.duplicateParameter v) =>
      let first := (schemaParameters step).idxOf v
      let second := first + 1 + ((schemaParameters step).drop (first + 1)).idxOf v
      ([first, second].filter (32 ≤ ·)).map parameter
    | _ => []
  raw ++ roles ++ listed ++ offending

/-- The derived formula; a formula that failed to encode is not called proved. -/
def conclusionOperands (kind : CheckErrorKind) (derived : Option Formula) : List Operand :=
  derived.toList.map fun f =>
    { role := .conclusion
      proved := match kind with
        | .derivedFormula _ _ => none
        | _ => some true
      formula := some f }

/-- The evidence for a failed condition. -/
def certificateError (certificate : ProofCertificate) (ctx : ContextView)
    (results : List (Option CheckedStep)) (derived : Option Formula) (kind : CheckErrorKind) :
    Option CheckError :=
  certificate.steps[kind.step]?.map fun step => {
    kind
    comparison := failedComparison results step kind
    diagnostic := {
      step := kind.step
      checkedBefore := match kind with
        | .openConclusion _ => certificate.steps.length
        | _ => kind.step
      operands := resultOperands results step ++ inputOperands ctx kind step ++
        conclusionOperands kind derived
      operandsComplete := (resultOperands results step).all (·.formula.isSome) &&
        (rawFormulas step).all (fun p => (primitiveFormula ctx kind.step p.2).toOption.isSome) &&
        (schemaParameters step).length ≤ 32
      difference := premiseDifference results step } }

/-- The result of checking with evidence. -/
abbrev ReportM := Except (Stop CheckError)

/-- Attaches the evidence to a reported error. -/
def report {α : Type} (certificate : ProofCertificate) (ctx : ContextView)
    (results : List (Option CheckedStep)) (derived : Option Formula) (x : CheckM α) : ReportM α :=
  match x with
  | .ok a => .ok a
  | .error .panic => .error .panic
  | .error (.error kind) =>
    match certificateError certificate ctx results derived kind with
    | some e => .error (.error e)
    | none => .error .panic

/-- Which results the loop forgets: at the recorded last uses, and right after their own step. -/
structure Retention where
  lastUses : List (Option ℕ)
  retain : ℕ → Bool

/-- The policy of the checker. -/
def releasing (steps : List ProofStep) : Retention where
  lastUses := lastUses steps
  retain position := position = steps.length - 1 ∨ (lastUses steps)[position]?.bind id ≠ none

/-- Every result is kept for the whole run. -/
def keeping : Retention where
  lastUses := []
  retain _ := true

section

variable (sha256 : List UInt8 → Digest) (certificate : ProofCertificate) (ctx : ContextView)
  (mode : IdentityMode) (retention : Retention)

def reportStep (s : CheckState) (step : ProofStep × ℕ) : ReportM CheckState := do
  let position := step.2
  let finalStep := certificate.steps.length - 1
  let (derived, results, remainingWork) ← report certificate ctx s.results none
    (deriveStep ctx position step.1 s.results retention.lastUses s.remainingWork)
  let results := release retention.lastUses position results step.1.references
  let canonical ← report certificate ctx results (some derived.formula)
    (encodeResult mode position finalStep derived)
  let (canonicalLength, remainingWork) ← report certificate ctx results (some derived.formula)
    (chargeResult position derived canonical remainingWork)
  let derivationIds ← report certificate ctx results (some derived.formula)
    (recordDerivation sha256 mode step.1 derived canonical s.derivationIds)
  return {
    results := results ++
      [if retention.retain position then some ⟨derived.formula, canonicalLength⟩ else none]
    derivationIds
    remainingWork
    canonicalConclusion := if position = finalStep then canonical else s.canonicalConclusion }

/-- The closing checks, on the table without its last result. -/
def reportConclusion (s : CheckState) : ReportM CheckOutcome := do
  let finalStep := certificate.steps.length - 1
  let results := s.results.dropLast
  let checked ← orError .panic (s.results.getLast?.bind id)
  let remainingWork ← report certificate ctx results (some checked.formula)
    (chargeFormulaWork finalStep checked.canonicalLength s.remainingWork)
  report certificate ctx results (some checked.formula)
    (require (checked.formula.isClosed = true) (.error (.openConclusion finalStep)))
  let canonical ← orError .panic s.canonicalConclusion
  return ⟨checked.formula, canonical,
    match mode with
    | .derive => s.derivationIds.getLast?
    | .omitDerivation => none, remainingWork⟩

/-- The checking loop with evidence, forgetting results by a policy. -/
def checkReporting : ReportM CheckOutcome := do
  require (certificate.steps ≠ []) .panic
  let s ← certificate.steps.zipIdx.foldlM (reportStep sha256 certificate ctx mode retention)
    ⟨[], [], checkerMaxFormulaWorkBytes, none⟩
  reportConclusion certificate ctx mode s

end

end Checker
end Naome
