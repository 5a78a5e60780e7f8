import Naome.ProgramCommand
import Naome.DefinitionExpansion

/-!
# The rules of program commands

Every command derives a recipe from earlier results, together with the freshness obligations of
a schema. Only an evaluated axiom or inference yields a proved result.
-/
namespace Naome.Program
open Outcome

inductive OperandRole
  | premise
  | implication
  | antecedent
  | consequent
  | first
  | second
  | third
  | formula
  | body
  | predicate
  | element
  | source
  | result
  | input
  | output
  | witness
  | conclusion
  deriving DecidableEq, Repr

/-- A rejected rule application. -/
inductive Failure
  | expectedImplication (operand : OperandRole)
  | antecedentMismatch
  | inputNotProved (operand : OperandRole) (reference : ℕ)
  | referenceNotEarlier (operand : OperandRole) (reference : ℕ)
  | roleCollision (v : UInt32) (roles : List OperandRole)
  | forbiddenPredicateVariable (v : UInt32) (role : OperandRole)
  | openConclusion
  | missingProof (proofId : ProofId)
  | expansion (reason : DefinitionExpansionError)
  deriving DecidableEq, Repr

structure Value (F : Type) where
  formula : F
  proved : Bool
  deriving DecidableEq

/-- The reads of the evaluator; formulas are handles of any representation. -/
structure Context (F ε : Type) where
  previous : ℕ → Except ε (Value F)
  implication : F → Except ε (Option (F × F))
  closed : F → Except ε Bool
  fixed : Formula → Except ε F

/-- A rule failure remains separate from a failed access to the context. -/
inductive PrepareError (ε : Type)
  | check (failure : Failure)
  | context (error : ε)
  deriving DecidableEq

structure Freshness (F : Type) where
  predicate : F
  fresh : UInt32
  replacement : UInt32
  role : OperandRole

inductive Construction (F : Type)
  | formula (expression : Expression F)
  | reference (proofId : ProofId)
  | definition (definitionId : DefinitionId) (arguments : List UInt32)

/-- The freshness obligations hold when the substitution returns its input. -/
structure Plan (F : Type) where
  construction : Construction F
  proved : Bool
  isSeal : Bool := false
  absent : List (Freshness F) := []

/-- No variable repeats an earlier one; the error names every role of the first repetition. -/
def distinctFrom (all : List (OperandRole × UInt32)) :
    List (OperandRole × UInt32) → List (OperandRole × UInt32) → Except Failure Unit
  | _, [] => .ok ()
  | earlier, (role, v) :: rest => do
    require (¬ earlier.any (fun p => p.2 = v) = true)
      (.roleCollision v ((all.filter fun p => p.2 = v).map Prod.fst))
    distinctFrom all (earlier ++ [(role, v)]) rest

def distinct (roles : List (OperandRole × UInt32)) : Except Failure Unit :=
  distinctFrom roles [] roles

variable {F ε : Type} [DecidableEq F]

/-- An earlier result, proved where the rule needs it. -/
def previous (context : Context F ε) (position index : ℕ) (proof : Bool) (role : OperandRole) :
    Except (PrepareError ε) (Value F) := do
  require (index < position) (.check (.referenceNotEarlier role index))
  let value ← (context.previous index).mapError .context
  require (proof = true → value.proved = true) (.check (.inputNotProved role index))
  return value

/-- The recipe of a formula that is only built. -/
def Plan.built (expression : Expression F) : Plan F := ⟨.formula expression, false, false, []⟩

/-- The recipe of an axiom or an inference. -/
def Plan.derived (expression : Expression F) (absent : List (Freshness F)) : Plan F :=
  ⟨.formula expression, true, false, absent⟩

/-- Derives the recipe of a command from the results before its position. -/
def prepare (command : Command) (position : ℕ) (context : Context F ε) :
    Except (PrepareError ε) (Plan F) :=
  let formula := fun index role => (previous context position index false role).map Value.formula
  let proved := fun index role => (previous context position index true role).map Value.formula
  match command with
  | .definedRelation definitionId arguments =>
    .ok ⟨.definition definitionId arguments, false, false, []⟩
  | .equal left right => .ok (.built (.equal ⟨left⟩ ⟨right⟩))
  | .member element set => .ok (.built (.member ⟨element⟩ ⟨set⟩))
  | .not input => do
    let input ← formula input .formula
    return .built (.not (.input input))
  | .implies antecedent consequent => do
    let antecedent ← formula antecedent .antecedent
    let consequent ← formula consequent .consequent
    return .built (.implies (.input antecedent) (.input consequent))
  | .forAll v body => do
    let body ← formula body .body
    return .built (.forAll ⟨v⟩ (.input body))
  | .substitute source target body => do
    let body ← formula body .body
    return .built (.substitute ⟨source⟩ ⟨target⟩ (.input body))
  | .simplification antecedent consequent => do
    let antecedent ← formula antecedent .antecedent
    let consequent ← formula consequent .consequent
    return .derived (Construction.simplification antecedent consequent) []
  | .frege first second third => do
    let first ← formula first .first
    let second ← formula second .second
    let third ← formula third .third
    return .derived (Construction.frege first second third) []
  | .contraposition antecedent consequent => do
    let antecedent ← formula antecedent .antecedent
    let consequent ← formula consequent .consequent
    return .derived (Construction.contraposition antecedent consequent) []
  | .distribution v antecedent consequent => do
    let antecedent ← formula antecedent .antecedent
    let consequent ← formula consequent .consequent
    return .derived (Construction.distribution ⟨v⟩ antecedent consequent) []
  | .vacuous input => do
    let input ← formula input .formula
    return .derived (Construction.vacuous input) []
  | .instantiation v replacement body => do
    let body ← formula body .body
    return .derived (Construction.instantiation ⟨v⟩ ⟨replacement⟩ body) []
  | .reflexivity v => .ok (.derived (.equal ⟨v⟩ ⟨v⟩) [])
  | .substitution source target body => do
    let body ← formula body .body
    return .derived (Construction.substitution ⟨source⟩ ⟨target⟩ body) []
  | .zfcAxiom zfcAxiom => do
    let value ← (context.fixed zfcAxiom.formula).mapError .context
    return .derived (.input value) []
  | .proofReference proofId => .ok ⟨.reference proofId, true, false, []⟩
  | .separation predicate element source result => do
    (distinct [(.element, element), (.source, source), (.result, result)]).mapError .check
    let predicate ← formula predicate .predicate
    return .derived (Construction.separation predicate ⟨element⟩ ⟨source⟩ ⟨result⟩)
      [⟨predicate, result, element, .result⟩]
  | .replacement predicate input output witness source result => do
    (distinct [(.input, input), (.output, output), (.witness, witness), (.source, source),
      (.result, result)]).mapError .check
    let predicate ← formula predicate .predicate
    return .derived
      (Construction.replacement predicate ⟨input⟩ ⟨output⟩ ⟨witness⟩ ⟨source⟩ ⟨result⟩)
      [⟨predicate, witness, input, .witness⟩, ⟨predicate, result, input, .result⟩]
  | .modusPonens premise implication => do
    let premise ← proved premise .premise
    let implication ← proved implication .implication
    let parts ← (context.implication implication).mapError .context
    let (antecedent, consequent) ← orError (.check (.expectedImplication .implication)) parts
    require (antecedent = premise) (.check .antecedentMismatch)
    return .derived (.input consequent) []
  | .generalization premise v => do
    let premise ← proved premise .premise
    return .derived (.forAll ⟨v⟩ (.input premise)) []
  | .alias input => do
    let value ← previous context position input false .input
    return ⟨.formula (.input value.formula), value.proved, false, []⟩
  | .seal proof => do
    let conclusion ← proved proof .conclusion
    let closed ← (context.closed conclusion).mapError .context
    require (closed = true) (.check .openConclusion)
    return ⟨.formula (.input conclusion), true, true, []⟩

inductive EvaluationError
  | check (failure : Failure)
  | access (reason : DefinitionAccessError)
  | missingResult (index : ℕ)
  | corrupt
  deriving DecidableEq

def EvaluationError.ofPrepare : PrepareError EvaluationError → EvaluationError
  | .check failure => .check failure
  | .context error => error

def EvaluationError.ofExpansion : DefinitionExpansionError → EvaluationError
  | .access reason => .access reason
  | reason => .check (.expansion reason)

/-- The results of the commands before a position, as trees. -/
def treeContext (results : List (Value Formula)) : Context Formula EvaluationError where
  previous index := orError (.missingResult index) results[index]?
  implication f := .ok f.implicationParts
  closed f := .ok f.isClosed
  fixed f := .ok f

section

-- The checked conclusions that proof references resolve to, and the definitions.
variable (source : ProofId → Except DefinitionAccessError (Option Formula))
  (resolver : DefinitionResolver)

/-- The freshness obligations of a plan. -/
def checkAbsent (absent : List (Freshness Formula)) : Except EvaluationError Unit :=
  absent.forM fun f =>
    require (f.predicate.substituteFree ⟨f.fresh⟩ ⟨f.replacement⟩ = f.predicate)
      (.check (.forbiddenPredicateVariable f.fresh f.role))

/-- The formula of a recipe; a cited conclusion must be closed. -/
def construct : Construction Formula → Except EvaluationError Formula
  | .formula expression => .ok expression.evaluate
  | .reference proofId => do
    let cited ← (source proofId).mapError .access
    let formula ← orError (.check (.missingProof proofId)) cited
    require (formula.isClosed = true) .corrupt
    return formula
  | .definition definitionId arguments =>
    ((DefinedFormula.definedRelation definitionId (arguments.map fun v => ⟨v⟩)).expandWith
      resolver).mapError EvaluationError.ofExpansion

/-- The result of the next command. -/
def evaluateCommand (results : List (Value Formula)) (command : Command) :
    Except EvaluationError (Value Formula) := do
  let plan ← (prepare command results.length (treeContext results)).mapError
    EvaluationError.ofPrepare
  checkAbsent plan.absent
  let formula ← construct source resolver plan.construction
  return ⟨formula, plan.proved⟩

/-- The results of a program, one for each command. -/
def evaluate (commands : List Command) : Except EvaluationError (List (Value Formula)) :=
  commands.foldlM (fun results command => do
    let value ← evaluateCommand source resolver results command
    return results ++ [value]) []

end
end Naome.Program
