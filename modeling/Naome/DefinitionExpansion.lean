import Naome.DefinedFormula

/-!
# Elimination of definitions

Expansion replaces every definition application by the body of the definition, with
formal variable `i` replaced by argument `i`. Bound arguments are lifted over the
binders of the body that they cross.
-/
namespace Naome
open LocallyNameless Outcome FormulaCodec

inductive DefinitionAccessError
  | storage (message : String)
  | corrupt
  | limit
  deriving DecidableEq, Repr

inductive DefinitionExpansionError
  | access (reason : DefinitionAccessError)
  | unknownDefinition (definitionId : DefinitionId)
  | arityMismatch (definitionId : DefinitionId) (expected actual : ℕ)
  | cyclicDefinition (definitionId : DefinitionId)
  | undeclaredFormalVariable (identifier : UInt32)
  | nodeLimitExceeded (maximum : ℕ)
  | depthLimitExceeded (maximum : ℕ)
  | formula (reason : DefinedFormulaCodecError)
  deriving DecidableEq, Repr

/-- A body with the number of arguments required at a call site. -/
structure DefinitionResolution where
  relationArity : ℕ
  body : DefinedFormula

abbrev DefinitionResolver :=
  DefinitionId → Except DefinitionAccessError (Option DefinitionResolution)

namespace DefinitionExpansion

/-- A body variable under the arguments of its application; `depth` counts the binders
of the body around it. -/
def instantiateVariable (substitution : Option (List (Variable FreeVariable))) (depth : ℕ)
    (x : Variable FreeVariable) : Except DefinitionExpansionError (Variable FreeVariable) :=
  match substitution, x with
  | none, x => .ok x
  | some _, .bound i => .ok (.bound i)
  | some arguments, .free parameter =>
    match arguments[parameter.identifier.toNat]? with
    | none => .error (.undeclaredFormalVariable parameter.identifier)
    | some (.bound i) => .ok (.bound (i + depth))
    | some (.free v) => .ok (.free v)

/-- Charge and depth check at the entry of a node. -/
def enterExpansion (formulaDepth : ℕ) (b : NodeBudget) :
    Except DefinitionExpansionError NodeBudget := do
  let b ← b.charge.mapError fun _ => .nodeLimitExceeded b.maximum
  require (formulaDepth < formulaMaxDepth) (.depthLimitExceeded formulaMaxDepth)
  return b

/-- Expands the body of an application under its arguments. -/
abbrev BodyExpander :=
  DefinedNode → List (Variable FreeVariable) → ℕ → List DefinitionId → NodeBudget →
    Except DefinitionExpansionError (DefinedNode × NodeBudget)

/-- Expansion of one tree, with the expansion of definition bodies as a parameter. -/
def expandNodeWith (resolver : DefinitionResolver) (expandBody : BodyExpander)
    (definitions : List DefinitionId) (substitution : Option (List (Variable FreeVariable))) :
    ℕ → ℕ → DefinedNode → NodeBudget → Except DefinitionExpansionError (DefinedNode × NodeBudget)
  | substitutionDepth, formulaDepth, .equal l r, b => do
    let b ← enterExpansion formulaDepth b
    let l ← instantiateVariable substitution substitutionDepth l
    let r ← instantiateVariable substitution substitutionDepth r
    return (.equal l r, b)
  | substitutionDepth, formulaDepth, .member l r, b => do
    let b ← enterExpansion formulaDepth b
    let l ← instantiateVariable substitution substitutionDepth l
    let r ← instantiateVariable substitution substitutionDepth r
    return (.member l r, b)
  | substitutionDepth, formulaDepth, .not n, b => do
    let b ← enterExpansion formulaDepth b
    let (n, b) ← expandNodeWith resolver expandBody definitions substitution substitutionDepth
      (formulaDepth + 1) n b
    return (.not n, b)
  | substitutionDepth, formulaDepth, .implies a c, b => do
    let b ← enterExpansion formulaDepth b
    let (a, b) ← expandNodeWith resolver expandBody definitions substitution substitutionDepth
      (formulaDepth + 1) a b
    let (c, b) ← expandNodeWith resolver expandBody definitions substitution substitutionDepth
      (formulaDepth + 1) c b
    return (.implies a c, b)
  | substitutionDepth, formulaDepth, .forAll n, b => do
    let b ← enterExpansion formulaDepth b
    let (n, b) ← expandNodeWith resolver expandBody definitions substitution
      (substitutionDepth + if substitution.isSome then 1 else 0) (formulaDepth + 1) n b
    return (.forAll n, b)
  | substitutionDepth, formulaDepth, .definedRelation definitionId arguments, b => do
    let b ← enterExpansion formulaDepth b
    let definition ← (resolver definitionId).mapError .access
    let definition ← orError (.unknownDefinition definitionId) definition
    require (arguments.length = definition.relationArity)
      (.arityMismatch definitionId definition.relationArity arguments.length)
    require (definitionId ∉ definitions) (.cyclicDefinition definitionId)
    require (definitions.length < formulaMaxDepth - formulaDepth)
      (.depthLimitExceeded formulaMaxDepth)
    let arguments ← arguments.mapM (instantiateVariable substitution substitutionDepth)
    expandBody definition.body.node arguments formulaDepth (definitions ++ [definitionId]) b

/-- Expansion with at most `levels` nested definitions. The nesting check stops an
application below 256 open definitions, so 256 levels never run out first. -/
def expandNode (resolver : DefinitionResolver) :
    ℕ → List DefinitionId → Option (List (Variable FreeVariable)) → ℕ → ℕ → DefinedNode →
      NodeBudget → Except DefinitionExpansionError (DefinedNode × NodeBudget)
  | 0, definitions, substitution => expandNodeWith resolver
      (fun _ _ _ _ _ => .error (.depthLimitExceeded formulaMaxDepth)) definitions substitution
  | levels + 1, definitions, substitution => expandNodeWith resolver
      (fun body arguments formulaDepth definitions b =>
        expandNode resolver levels definitions (some arguments) 0 formulaDepth body b)
      definitions substitution

end DefinitionExpansion

open DefinitionExpansion

namespace DefinedFormula

/-- Eliminates definitions and reports the nodes visited. -/
def expandWithNodeLimit (f : DefinedFormula) (resolver : DefinitionResolver) (maximumNodes : ℕ) :
    Except DefinitionExpansionError (Formula × ℕ) := do
  let (expanded, b) ← expandNode resolver formulaMaxDepth [] none 0 0 f.node
    (NodeBudget.new maximumNodes)
  let formula ← (nodeIntoPrimitive expanded).mapError .formula
  return (formula, b.used)

def expandWith (f : DefinedFormula) (resolver : DefinitionResolver) :
    Except DefinitionExpansionError Formula :=
  (f.expandWithNodeLimit resolver formulaMaxNodes).map Prod.fst

end DefinedFormula
end Naome
