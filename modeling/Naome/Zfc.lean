import Naome.Construction
import Naome.Outcome

/-!
# The axioms and axiom schemas of set theory

The seven fixed axioms as primitive formulas, and the Separation and Replacement
schemas with their side conditions on roles and parameters.
-/
namespace Naome
open Outcome

inductive ZfcAxiom
  | extensionality
  | pairing
  | union
  | powerSet
  | infinity
  | foundation
  | choice
  deriving DecidableEq, Repr

namespace Zfc
open Formula

def closeForAll (vars : List FreeVariable) (body : Formula) : Formula := forAllMany vars body

def extensionality : Formula :=
  let x : FreeVariable := ⟨0⟩
  let y : FreeVariable := ⟨1⟩
  let z : FreeVariable := ⟨2⟩
  let sameMembers := forAll z (biconditional (member z x) (member z y))
  closeForAll [x, y] (implies sameMembers (equal x y))

def pairing : Formula :=
  let x : FreeVariable := ⟨0⟩
  let y : FreeVariable := ⟨1⟩
  let pair : FreeVariable := ⟨2⟩
  let z : FreeVariable := ⟨3⟩
  let pairMember := disjunction (equal z x) (equal z y)
  let body := forAll z (biconditional (member z pair) pairMember)
  closeForAll [x, y] (existsOne pair body)

def union : Formula :=
  let source : FreeVariable := ⟨0⟩
  let union : FreeVariable := ⟨1⟩
  let element : FreeVariable := ⟨2⟩
  let memberSet : FreeVariable := ⟨3⟩
  let appearsInMember :=
    existsOne memberSet (conjunction (member element memberSet) (member memberSet source))
  let body := forAll element (biconditional (member element union) appearsInMember)
  forAll source (existsOne union body)

def powerSet : Formula :=
  let source : FreeVariable := ⟨0⟩
  let power : FreeVariable := ⟨1⟩
  let subset : FreeVariable := ⟨2⟩
  let element : FreeVariable := ⟨3⟩
  let isSubset := forAll element (implies (member element subset) (member element source))
  let body := forAll subset (biconditional (member subset power) isSubset)
  forAll source (existsOne power body)

def infinity : Formula :=
  let inductiveSet : FreeVariable := ⟨0⟩
  let empty : FreeVariable := ⟨1⟩
  let element : FreeVariable := ⟨2⟩
  let successor : FreeVariable := ⟨3⟩
  let candidate : FreeVariable := ⟨4⟩
  let isEmpty := forAll candidate (negate (member candidate empty))
  let containsEmpty := existsOne empty (conjunction isEmpty (member empty inductiveSet))
  let isSuccessor := forAll candidate
    (biconditional (member candidate successor)
      (disjunction (member candidate element) (equal candidate element)))
  let containsSuccessor :=
    existsOne successor (conjunction isSuccessor (member successor inductiveSet))
  let successorClosed := forAll element (implies (member element inductiveSet) containsSuccessor)
  existsOne inductiveSet (conjunction containsEmpty successorClosed)

def foundation : Formula :=
  let set : FreeVariable := ⟨0⟩
  let element : FreeVariable := ⟨1⟩
  let nested : FreeVariable := ⟨2⟩
  let isNonEmpty := existsOne element (member element set)
  let isDisjoint := forAll nested (implies (member nested element) (negate (member nested set)))
  let hasMinimalElement := existsOne element (conjunction (member element set) isDisjoint)
  forAll set (implies isNonEmpty hasMinimalElement)

def choice : Formula :=
  let family : FreeVariable := ⟨0⟩
  let firstSet : FreeVariable := ⟨1⟩
  let secondSet : FreeVariable := ⟨2⟩
  let element : FreeVariable := ⟨3⟩
  let choiceSet : FreeVariable := ⟨4⟩
  let otherElement : FreeVariable := ⟨5⟩
  let nonEmptyFamily := forAll firstSet
    (implies (member firstSet family) (existsOne element (member element firstSet)))
  let bothFamilyMembers :=
    conjunction (conjunction (member firstSet family) (member secondSet family))
      (negate (equal firstSet secondSet))
  let sharedElement :=
    existsOne element (conjunction (member element firstSet) (member element secondSet))
  let pairwiseDisjoint :=
    closeForAll [firstSet, secondSet] (implies bothFamilyMembers (negate sharedElement))
  let otherIsChosen :=
    conjunction (member otherElement firstSet) (member otherElement choiceSet)
  let unique := forAll otherElement (implies otherIsChosen (equal otherElement element))
  let exactlyOne := existsOne element
    (conjunction (conjunction (member element firstSet) (member element choiceSet)) unique)
  let meetsEveryMember := forAll firstSet (implies (member firstSet family) exactlyOne)
  let hasChoiceSet := existsOne choiceSet meetsEveryMember
  forAll family (implies (conjunction nonEmptyFamily pairwiseDisjoint) hasChoiceSet)

end Zfc

def ZfcAxiom.formula : ZfcAxiom → Formula
  | .extensionality => Zfc.extensionality
  | .pairing => Zfc.pairing
  | .union => Zfc.union
  | .powerSet => Zfc.powerSet
  | .infinity => Zfc.infinity
  | .foundation => Zfc.foundation
  | .choice => Zfc.choice

theorem ZfcAxiom.formula_isClosed (a : ZfcAxiom) : a.formula.isClosed = true := by
  cases a <;> decide

inductive SchemaError
  | roleVariableCollision (v : FreeVariable)
  | parameterCollidesWithRole (v : FreeVariable)
  | duplicateParameter (v : FreeVariable)
  | forbiddenPredicateVariable (v : FreeVariable)
  | undeclaredPredicateVariable (v : FreeVariable)
  deriving DecidableEq, Repr

namespace Zfc

/-- No role repeats an earlier one. -/
def validateRoles : List FreeVariable → List FreeVariable → Except SchemaError Unit
  | _, [] => .ok ()
  | earlier, v :: rest => do
    require (v ∉ earlier) (.roleVariableCollision v)
    validateRoles (earlier ++ [v]) rest

/-- Collects the declared parameters, which are distinct from each other and all roles. -/
def declareParameters (roles : List FreeVariable) :
    Std.TreeSet FreeVariable → List FreeVariable → Except SchemaError (Std.TreeSet FreeVariable)
  | declared, [] => .ok declared
  | declared, p :: rest => do
    require (p ∉ roles) (.parameterCollidesWithRole p)
    require (p ∉ declared) (.duplicateParameter p)
    declareParameters roles (declared.insert p) rest

def validateSchema (predicate : Formula) (roles allowed forbidden parameters : List FreeVariable) :
    Except SchemaError Unit := do
  validateRoles [] roles
  let declared ← declareParameters roles ∅ parameters
  predicate.freeVariables.toList.forM fun v => do
    require (v ∉ forbidden) (.forbiddenPredicateVariable v)
    require (v ∈ allowed ∨ v ∈ declared) (.undeclaredPredicateVariable v)

theorem validateRoles_eq_ok {earlier roles : List FreeVariable} {a : Unit} :
    validateRoles earlier roles = .ok a ↔ roles.Nodup ∧ ∀ v ∈ roles, v ∉ earlier := by
  induction roles generalizing earlier with
  | nil => simp [validateRoles]
  | cons v rest ih =>
    simp only [validateRoles, bind_eq_ok, require_eq_ok, exists_and_left, exists_const, ih,
      List.nodup_cons, List.forall_mem_cons, List.mem_append, List.mem_singleton, not_or]
    constructor
    · rintro ⟨hv, hn, hr⟩
      exact ⟨⟨fun hm => (hr v hm).2 rfl, hn⟩, hv, fun w hw => (hr w hw).1⟩
    · rintro ⟨⟨hv, hn⟩, hve, hr⟩
      refine ⟨hve, hn, fun w hw => ⟨hr w hw, ?_⟩⟩
      rintro rfl
      exact hv hw

theorem declareParameters_eq_ok {roles parameters : List FreeVariable}
    {declared declared' : Std.TreeSet FreeVariable} :
    declareParameters roles declared parameters = .ok declared' ↔
      parameters.Nodup ∧ (∀ p ∈ parameters, p ∉ roles ∧ p ∉ declared) ∧
        declared' = parameters.foldl (fun s p => s.insert p) declared := by
  induction parameters generalizing declared with
  | nil => simp [declareParameters, eq_comm]
  | cons p rest ih =>
    simp only [declareParameters, bind_eq_ok, require_eq_ok, exists_and_left, exists_const, ih,
      List.nodup_cons, List.forall_mem_cons, List.foldl_cons, Std.TreeSet.mem_insert,
      Std.LawfulEqOrd.compare_eq_iff_eq, not_or]
    constructor
    · rintro ⟨hp, hd, hn, hr, he⟩
      exact ⟨⟨fun hm => (hr p hm).2.1 rfl, hn⟩, ⟨⟨hp, hd⟩, fun q hq => ⟨(hr q hq).1, (hr q hq).2.2⟩⟩,
        he⟩
    · rintro ⟨⟨hp, hn⟩, ⟨⟨hpr, hd⟩, hr⟩, he⟩
      refine ⟨hpr, hd, hn, fun q hq => ⟨(hr q hq).1, ?_, (hr q hq).2⟩, he⟩
      rintro rfl
      exact hp hq

theorem mem_foldl_insert {parameters : List FreeVariable} {declared : Std.TreeSet FreeVariable}
    {v : FreeVariable} :
    v ∈ parameters.foldl (fun s p => s.insert p) declared ↔ v ∈ parameters ∨ v ∈ declared := by
  induction parameters generalizing declared with
  | nil => simp
  | cons p rest ih =>
    rw [List.foldl_cons, ih, Std.TreeSet.mem_insert, Std.LawfulEqOrd.compare_eq_iff_eq,
      List.mem_cons, eq_comm]
    tauto

/-- The side conditions of a schema instance. -/
structure SchemaConditions (predicate : Formula)
    (roles allowed forbidden parameters : List FreeVariable) : Prop where
  roles_nodup : roles.Nodup
  parameters_nodup : parameters.Nodup
  parameters_fresh : ∀ p ∈ parameters, p ∉ roles
  not_forbidden : ∀ v ∈ predicate.freeVariables, v ∉ forbidden
  declared : ∀ v ∈ predicate.freeVariables, v ∈ allowed ∨ v ∈ parameters

theorem validateSchema_eq_ok {predicate : Formula}
    {roles allowed forbidden parameters : List FreeVariable} {a : Unit} :
    validateSchema predicate roles allowed forbidden parameters = .ok a ↔
      SchemaConditions predicate roles allowed forbidden parameters := by
  have hmem : ∀ v, v ∈ parameters.foldl (fun s p => s.insert p) (∅ : Std.TreeSet FreeVariable) ↔
      v ∈ parameters := by
    intro v
    rw [mem_foldl_insert]
    simp
  simp only [validateSchema, bind_eq_ok, validateRoles_eq_ok, declareParameters_eq_ok,
    exists_and_left, exists_const, forM_eq_ok, require_eq_ok, Std.TreeSet.mem_toList]
  constructor
  · rintro ⟨⟨hr, -⟩, _, ⟨hp, hf, rfl⟩, hv⟩
    exact ⟨hr, hp, fun p h => (hf p h).1, fun v h => (hv v h).1,
      fun v h => (hv v h).2.imp_right (hmem v).mp⟩
  · intro h
    exact ⟨⟨h.roles_nodup, by simp⟩, _,
      ⟨h.parameters_nodup, fun p hp => ⟨h.parameters_fresh p hp, by simp⟩, rfl⟩,
      fun v hv => ⟨h.not_forbidden v hv, (h.declared v hv).imp_right (hmem v).mpr⟩⟩

def closeParameters (parameters : List FreeVariable) (body : Formula) : Formula :=
  closeForAll parameters body

end Zfc

/-- A requested instance of the Separation schema. -/
structure Separation where
  predicate : Formula
  element : FreeVariable
  source : FreeVariable
  result : FreeVariable
  parameters : List FreeVariable
  deriving DecidableEq

def Separation.formula (s : Separation) : Except SchemaError Formula := do
  Zfc.validateSchema s.predicate [s.element, s.source, s.result] [s.element, s.source]
    [s.result] s.parameters
  let body := (Construction.separation s.predicate s.element s.source s.result).evaluate
  return Zfc.closeParameters s.parameters body

theorem Separation.formula_eq_ok {s : Separation} {f : Formula} :
    s.formula = .ok f ↔ Zfc.SchemaConditions s.predicate [s.element, s.source, s.result]
        [s.element, s.source] [s.result] s.parameters ∧
      f = Zfc.closeParameters s.parameters
        (Construction.separation s.predicate s.element s.source s.result).evaluate := by
  simp only [Separation.formula, bind_eq_ok, Zfc.validateSchema_eq_ok, exists_const, pure_eq_ok,
    @eq_comm _ f]

/-- A requested instance of the Replacement schema. -/
structure Replacement where
  predicate : Formula
  input : FreeVariable
  output : FreeVariable
  uniquenessWitness : FreeVariable
  source : FreeVariable
  result : FreeVariable
  parameters : List FreeVariable
  deriving DecidableEq

def Replacement.formula (r : Replacement) : Except SchemaError Formula := do
  Zfc.validateSchema r.predicate [r.input, r.output, r.uniquenessWitness, r.source, r.result]
    [r.input, r.output, r.source] [r.uniquenessWitness, r.result] r.parameters
  let body := (Construction.replacement r.predicate r.input r.output r.uniquenessWitness
    r.source r.result).evaluate
  return Zfc.closeParameters r.parameters body

theorem Replacement.formula_eq_ok {r : Replacement} {f : Formula} :
    r.formula = .ok f ↔ Zfc.SchemaConditions r.predicate
        [r.input, r.output, r.uniquenessWitness, r.source, r.result]
        [r.input, r.output, r.source] [r.uniquenessWitness, r.result] r.parameters ∧
      f = Zfc.closeParameters r.parameters (Construction.replacement r.predicate r.input r.output
        r.uniquenessWitness r.source r.result).evaluate := by
  simp only [Replacement.formula, bind_eq_ok, Zfc.validateSchema_eq_ok, exists_const, pure_eq_ok,
    @eq_comm _ f]

/-- A structure that satisfies every axiom and every schema instance the kernel admits. -/
structure ZfcModel {M : Type*} (E : M → M → Prop) : Prop where
  axioms : ∀ a : ZfcAxiom, a.formula.Models E
  separation : ∀ (s : Separation) (f : Formula), s.formula = .ok f → f.Models E
  replacement : ∀ (r : Replacement) (f : Formula), r.formula = .ok f → f.Models E

end Naome
