import Naome.Formula

/-!
# Recipes for logical axioms and schemas

An `Expression` is a recipe of fixed size over formula inputs of any representation:
formula trees for the tree evaluator, graph handles for the disk engine.
-/
namespace Naome

inductive Expression (F : Type)
  | input (value : F)
  | equal (left right : FreeVariable)
  | member (element set : FreeVariable)
  | not (body : Expression F)
  | implies (antecedent consequent : Expression F)
  | forAll (v : FreeVariable) (body : Expression F)
  | vacuous (body : Expression F)
  | substitute (source target : FreeVariable) (body : Expression F)
  deriving DecidableEq, Repr

namespace Expression

variable {F : Type}

/-- The existential quantifier of a recipe. -/
def existsOne (v : FreeVariable) (body : Expression F) : Expression F := .not (.forAll v (.not body))

def conjunction (left right : Expression F) : Expression F := .not (.implies left (.not right))

def biconditional (left right : Expression F) : Expression F :=
  conjunction (.implies left right) (.implies right left)

/-- The value of a recipe over formula trees. -/
def evaluate : Expression Formula → Formula
  | .input value => value
  | .equal a b => Formula.equal a b
  | .member a b => Formula.member a b
  | .not a => Formula.negate a.evaluate
  | .implies a b => Formula.implies a.evaluate b.evaluate
  | .forAll v a => Formula.forAll v a.evaluate
  | .vacuous a => Formula.vacuousForAll a.evaluate
  | .substitute a b value => value.evaluate.substituteFree a b

attribute [local simp] evaluate

end Expression

namespace Construction

open Expression

variable {F : Type}

def simplification (a b : F) : Expression F := .implies (.input a) (.implies (.input b) (.input a))

def frege (a b c : F) : Expression F :=
  .implies (.implies (.input a) (.implies (.input b) (.input c)))
    (.implies (.implies (.input a) (.input b)) (.implies (.input a) (.input c)))

def contraposition (a b : F) : Expression F :=
  .implies (.implies (.not (.input b)) (.not (.input a))) (.implies (.input a) (.input b))

def distribution (v : FreeVariable) (a b : F) : Expression F :=
  .implies (.forAll v (.implies (.input a) (.input b)))
    (.implies (.forAll v (.input a)) (.forAll v (.input b)))

def vacuous (a : F) : Expression F := .implies (.input a) (.vacuous (.input a))

def instantiation (v replacement : FreeVariable) (a : F) : Expression F :=
  .implies (.forAll v (.input a)) (.substitute v replacement (.input a))

def substitution (source target : FreeVariable) (body : F) : Expression F :=
  .implies (.equal source target)
    (.implies (.input body) (.substitute source target (.input body)))

/-- The base schema leaves further predicate parameters free. -/
def separation (predicate : F) (element source result : FreeVariable) : Expression F :=
  .forAll source <| existsOne result <| .forAll element <|
    biconditional (.member element result)
      (conjunction (.member element source) (.input predicate))

def replacement (predicate : F) (input output witness source result : FreeVariable) :
    Expression F :=
  let predicate : Expression F := .input predicate
  let uniqueness : Expression F :=
    .forAll witness (.implies (.substitute output witness predicate) (.equal witness output))
  let unique := existsOne output (conjunction predicate uniqueness)
  let total : Expression F := .forAll input (.implies (.member input source) unique)
  let preimage := existsOne input (conjunction (.member input source) predicate)
  let image : Expression F := .forAll output (biconditional (.member output result) preimage)
  .forAll source (.implies total (existsOne result image))

end Construction

namespace Logic

def simplification (antecedent consequent : Formula) : Formula :=
  (Construction.simplification antecedent consequent).evaluate

def frege (first second third : Formula) : Formula :=
  (Construction.frege first second third).evaluate

def classicalContraposition (antecedent consequent : Formula) : Formula :=
  (Construction.contraposition antecedent consequent).evaluate

def universalDistribution (v : FreeVariable) (antecedent consequent : Formula) : Formula :=
  (Construction.distribution v antecedent consequent).evaluate

def vacuousUniversal (formula : Formula) : Formula := (Construction.vacuous formula).evaluate

def universalInstantiation (v replacement : FreeVariable) (body : Formula) : Formula :=
  (Construction.instantiation v replacement body).evaluate

def equalityReflexivity (v : FreeVariable) : Formula := Formula.equal v v

def equalitySubstitution (source target : FreeVariable) (body : Formula) : Formula :=
  (Construction.substitution source target body).evaluate

end Logic

/-- An invalid primitive inference. -/
inductive LogicError
  | expectedImplication
  | antecedentMismatch
  deriving DecidableEq, Repr

namespace Logic

/-- Derives `B` from `A` and `A → B`. -/
def modusPonens (premise implication : Formula) : Except LogicError Formula :=
  match implication.implicationParts with
  | none => .error .expectedImplication
  | some (antecedent, consequent) =>
    if antecedent = premise then .ok consequent else .error .antecedentMismatch

def generalization (v : FreeVariable) (premise : Formula) : Formula := Formula.forAll v premise

theorem modusPonens_eq_ok {premise implication f : Formula} :
    modusPonens premise implication = .ok f ↔ implication = Formula.implies premise f := by
  unfold modusPonens
  constructor
  · intro h
    split at h
    · cases h
    · next a b hp =>
      split_ifs at h with ha
      cases h
      rw [← ha]
      exact Formula.implicationParts_eq_some.1 hp
  · rintro rfl
    simp

section Soundness

variable {M : Type*} {E : M → M → Prop} {ρ : FreeVariable → M}

open Expression Formula

theorem simplification_models (f g : Formula) : (simplification f g).Models E := by
  intro ρ
  simp only [simplification, Construction.simplification, evaluate, holds_implies]
  exact fun hf _ => hf

theorem frege_models (f g h : Formula) : (frege f g h).Models E := by
  intro ρ
  simp only [frege, Construction.frege, evaluate, holds_implies]
  exact fun hfgh hfg hf => hfgh hf (hfg hf)

theorem classicalContraposition_models (f g : Formula) :
    (classicalContraposition f g).Models E := by
  intro ρ
  simp only [classicalContraposition, Construction.contraposition, evaluate, holds_implies,
    holds_negate]
  exact fun hc hf => by_contra fun hg => hc hg hf

theorem universalDistribution_models (v : FreeVariable) (f g : Formula) :
    (universalDistribution v f g).Models E := by
  intro ρ
  simp only [universalDistribution, Construction.distribution, evaluate, holds_implies,
    holds_forAll]
  exact fun hfg hf a => hfg a (hf a)

theorem vacuousUniversal_models (f : Formula) : (vacuousUniversal f).Models E := by
  intro ρ
  simp only [vacuousUniversal, Construction.vacuous, evaluate, holds_implies,
    holds_vacuousForAll]
  exact id

theorem universalInstantiation_models (v r : FreeVariable) (f : Formula) :
    (universalInstantiation v r f).Models E := by
  intro ρ
  simp only [universalInstantiation, Construction.instantiation, evaluate, holds_implies,
    holds_forAll, holds_substituteFree]
  exact fun h => h (ρ r)

theorem equalityReflexivity_models (v : FreeVariable) : (equalityReflexivity v).Models E :=
  fun _ => rfl

theorem equalitySubstitution_models (a b : FreeVariable) (f : Formula) :
    (equalitySubstitution a b f).Models E := by
  intro ρ
  simp only [equalitySubstitution, Construction.substitution, evaluate, holds_implies,
    holds_equal, holds_substituteFree]
  intro hab hf
  rwa [← hab, Function.update_eq_self]

theorem modusPonens_models {premise implication f : Formula}
    (h : modusPonens premise implication = .ok f) (hp : premise.Models E)
    (hi : implication.Models E) : f.Models E := by
  rw [modusPonens_eq_ok] at h
  subst h
  exact fun ρ => hi ρ (hp ρ)

theorem generalization_models (v : FreeVariable) {f : Formula} (h : f.Models E) :
    (generalization v f).Models E :=
  fun _ => (holds_forAll v f).mpr fun _ => h _

end Soundness

end Logic
end Naome
