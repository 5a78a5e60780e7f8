import Naome.Zfc
import Naome.Context

/-!
# Program commands

The records of an incrementally appended proof program. References name earlier positions.
-/
namespace Naome.Program

inductive Command
  | definedRelation (definitionId : DefinitionId) (arguments : List UInt32)
  | equal (left right : UInt32)
  | member (element set : UInt32)
  | not (formula : ℕ)
  | implies (antecedent consequent : ℕ)
  | forAll (boundVariable : UInt32) (body : ℕ)
  | substitute (source target : UInt32) (body : ℕ)
  | simplification (antecedent consequent : ℕ)
  | frege (first second third : ℕ)
  | contraposition (antecedent consequent : ℕ)
  | distribution (boundVariable : UInt32) (antecedent consequent : ℕ)
  | vacuous (formula : ℕ)
  | instantiation (boundVariable replacement : UInt32) (body : ℕ)
  | reflexivity (freeVariable : UInt32)
  | substitution (source target : UInt32) (body : ℕ)
  | zfcAxiom (zfcAxiom : ZfcAxiom)
  | proofReference (proofId : ProofId)
  | separation (predicate : ℕ) (element source result : UInt32)
  | replacement (predicate : ℕ) (input output witness source result : UInt32)
  | modusPonens (premise implication : ℕ)
  | generalization (premise : ℕ) (boundVariable : UInt32)
  | alias (input : ℕ)
  | seal (proof : ℕ)
  deriving DecidableEq, Repr

def Command.isSeal : Command → Bool
  | .seal _ => true
  | _ => false

end Naome.Program
