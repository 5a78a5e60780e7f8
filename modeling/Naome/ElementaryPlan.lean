import Naome.DeductionPlan
import Naome.FormulaOpening

/-!
# Elementary theorems

The recognizer of primitive logical axiom instances, `A → A`, reflexivity and the seven fixed
axioms, with outer universal closure. Recognition confers no validity: it gives a plan whose whole
certificate is checked.
-/
namespace Naome.Question.Elementary
open Effect

def canonicalLength (f : Formula) : WorkM ℕ := do
  let bytes ← WorkM.ofExcept (f.encodeCanonical.mapError fun _ => Work.limit)
  return bytes.length

def freshFrom (vars : Std.TreeSet FreeVariable) (start : ℕ) : ℕ → Option FreeVariable
  | 0 => none
  | n + 1 =>
    if vars.contains ⟨.ofNat start⟩ then freshFrom vars (start + 1) n
    else some ⟨.ofNat start⟩

/-- The first variable from `start` on that is not free. The identifiers have 32 bits. -/
def fresh (f : Formula) (start : ℕ) : Option FreeVariable :=
  freshFrom f.freeVariables start (2 ^ 32 - start)

def matchSimplification (left right : Formula) : Option ProofStep := do
  let (second, repeated) ← right.implicationParts
  if repeated = left then some (.simplification (.primitive left) (.primitive second)) else none

def matchFrege (left right : Formula) : Option ProofStep := do
  let (a, bc) ← left.implicationParts
  let (b, c) ← bc.implicationParts
  let (ab, ac) ← right.implicationParts
  if ab.implicationParts = some (a, b) ∧ ac.implicationParts = some (a, c) then
    some (.frege (.primitive a) (.primitive b) (.primitive c))
  else none

def matchContraposition (left right : Formula) : Option ProofStep := do
  let (notB, notA) ← left.implicationParts
  let (a, b) ← right.implicationParts
  if notB.negated = some b ∧ notA.negated = some a then
    some (.classicalContraposition (.primitive a) (.primitive b))
  else none

def matchSubstitution (left right : Formula) : Option ProofStep := do
  let (source, target) ← left.equalityVariables
  let (body, substituted) ← right.implicationParts
  if body.substituteFree source target = substituted then
    some (.equalitySubstitution source target (.primitive body))
  else none

def matchVacuous (left right : Formula) (v : FreeVariable) : Option ProofStep := do
  let body ← right.openOuterUniversal v
  if body = left then some (.vacuousUniversal (.primitive left)) else none

/-- Tries the replacements of an opened binder one after another. -/
def matchInstantiation (length : ℕ) (right : Formula) (v : FreeVariable) (body : Formula) :
    List FreeVariable → WorkM (Option ProofStep)
  | [] => return none
  | replacement :: rest => do
    Work.formula length 8
    if body.substituteFree v replacement = right then
      return some (.universalInstantiation v replacement (.primitive body))
    else matchInstantiation length right v body rest

def matchDistribution (f : Formula) (v : FreeVariable) (body : Formula) : Option ProofStep := do
  let (antecedent, consequent) ← body.implicationParts
  if Logic.universalDistribution v antecedent consequent = f then
    some (.universalDistribution v (.primitive antecedent) (.primitive consequent))
  else none

/-- The schemas without a bound variable in front of an operand. -/
def matchPropositional (left right : Formula) : Option ProofStep :=
  matchSimplification left right <|> matchFrege left right <|> matchContraposition left right <|>
    matchSubstitution left right

/-- The schemas whose antecedent starts with a binder. -/
def matchOpened (f left right : Formula) (v : FreeVariable) : WorkM (Option ProofStep) :=
  match left.openOuterUniversal v with
  | none => return none
  | some body => do
    let length ← canonicalLength f
    match ← matchInstantiation length right v body (f.freeVariables.insert v).toList with
    | some step => return some step
    | none => return matchDistribution f v body

def axiomInstance (f : Formula) : WorkM (Option ProofStep) :=
  match f.implicationParts with
  | none => return none
  | some (left, right) =>
    match matchPropositional left right with
    | some step => return some step
    | none => do
      let v ← orThrow .panic (fresh f 0)
      match matchVacuous left right v with
      | some step => return some step
      | none => matchOpened f left right v

def fixedAxioms : List ZfcAxiom :=
  [.extensionality, .pairing, .union, .powerSet, .infinity, .foundation, .choice]

def matchFixed (length : ℕ) (target : Formula) : List ZfcAxiom → WorkM (Option ZfcAxiom)
  | [] => return none
  | fixed :: rest => do
    Work.formula length 2
    if fixed.formula = target then return some fixed else matchFixed length target rest

/-- Opens outer binders, each with the first unused variable from its identifier on. -/
def openUniversals (length : ℕ) :
    List ℕ → List FreeVariable → Formula → WorkM (List FreeVariable × Formula)
  | [], vars, current => return (vars, current)
  | identifier :: rest, vars, current => do
    Work.formula length 4
    let v ← orThrow .panic (fresh current identifier)
    match current.openOuterUniversal v with
    | none => return (vars, current)
    | some body => openUniversals length rest (vars ++ [v]) body

section

variable (sizes : MemorySizes)

/-- Derives `A → A`. -/
def identity (plan : Plan) (f : Formula) : WorkM (Plan × ℕ) := do
  let impliesSelf := f.implies f
  let first := Logic.simplification f impliesSelf
  let second := Logic.simplification f f
  let frege := Logic.frege f impliesSelf f
  let intermediate := second.implies impliesSelf
  let conclusionLength ← canonicalLength impliesSelf
  let firstLength ← canonicalLength first
  let (plan, a) ← plan.axiomStep sizes (.simplification (.primitive f) (.primitive impliesSelf))
    firstLength
  let secondLength ← canonicalLength second
  let (plan, b) ← plan.axiomStep sizes (.simplification (.primitive f) (.primitive f)) secondLength
  let fregeLength ← canonicalLength frege
  let (plan, c) ← plan.axiomStep sizes
    (.frege (.primitive f) (.primitive impliesSelf) (.primitive f)) fregeLength
  let intermediateLength ← canonicalLength intermediate
  let (plan, d) ← plan.modusPonens sizes a c intermediateLength
  plan.modusPonens sizes b d conclusionLength

/-- Derives a formula without outer binders. -/
def planRoot (current : Formula) (length : ℕ) : WorkM (Option (Plan × ℕ)) :=
  match current.equalityVariables.filter fun p => p.1 = p.2 with
  | some (v, _) => do
    let root ← Plan.new.axiomStep sizes (.equalityReflexivity v) length
    return some root
  | none =>
    match current.implicationParts.filter fun p => p.1 = p.2 with
    | some (left, _) => do
      let root ← identity sizes Plan.new left
      return some root
    | none => do
      match ← axiomInstance current with
      | some step => do
        let root ← Plan.new.axiomStep sizes step length
        return some root
      | none => return none

def generalizeAll : List FreeVariable → Plan × ℕ → WorkM (Plan × ℕ)
  | [], s => return s
  | v :: rest, s => do
    let s ← s.1.generalize sizes s.2 v
    generalizeAll rest s

def plan (target : Formula) : WorkM (Option Plan) := do
  let length ← canonicalLength target
  Work.formula length 64
  match ← matchFixed length target fixedAxioms with
  | some fixed => do
    let root ← Plan.new.axiomStep sizes (.zfcAxiom fixed) length
    return some root.1
  | none => do
    let (vars, current) ← openUniversals length (List.range Instantiation.maxInstantiations) [] target
    let currentLength ← canonicalLength current
    match ← planRoot sizes current currentLength with
    | some root => do
      let root ← generalizeAll sizes vars.reverse root
      return some root.1
    | none => return none

end

end Naome.Question.Elementary
