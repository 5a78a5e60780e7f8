import Naome.FormulaParser

/-!
# Proof steps of the source language

A proof is a list of named steps. Each rule reads its operands in the order of the certificate.
-/
namespace Naome
namespace Authoring
open Outcome ByteCursor

namespace Parser

/-- Punctuation with its text for errors. -/
def expect (p : Parser) (b : UInt8) (expected : String) : ParserM (Unit × Parser) :=
  p.token expected ((punctuation b p.rest).map fun rest => ((), rest))

def keyword (p : Parser) (expected : String) : ParserM (Unit × Parser) := do
  let offset := p.nextOffset
  let (actual, p) ← p.readName
  require (actual = ascii expected) (.error (.syntaxError offset expected))
  return ((), p)

def lowercaseHexNibble (b : UInt8) : Option ℕ :=
  if 0x30 ≤ b ∧ b ≤ 0x39 then some (b.toNat - 0x30)
  else if 0x61 ≤ b ∧ b ≤ 0x66 then some (b.toNat - 0x61 + 10)
  else none

/-- Bytes that end a token are reported at its start. -/
def proofIdErrorOffset (start offset : ℕ) (b : UInt8) : ℕ :=
  if trivial b || b = 0x23 || b = 0x22 || b = 0x2c || b = 0x29 then start else offset

def hexDigits (start : ℕ) (expected : String) : ℕ → List UInt8 → ParserM (List ℕ)
  | _, [] => .ok []
  | index, b :: rest => do
    let nibble ← orError (.error (.syntaxError (proofIdErrorOffset start (start + index) b)
      expected)) (lowercaseHexNibble b)
    let nibbles ← hexDigits start expected (index + 1) rest
    return nibble :: nibbles

/-- Sixty-four digits between quotes. -/
def fixedIdBytes (p : Parser) (expected : String) : ParserM (Digest × Parser) := do
  let (_, p) ← p.expect 0x22 expected
  let encoded := p.rest.take 64
  require (encoded.length = 64) (.error (.syntaxError p.offset expected))
  let nibbles ← hexDigits p.offset expected 0 encoded
  let p := { p with rest := p.rest.drop 64 }
  require (p.rest.head? = some (0x22 : UInt8))
    (.error (.syntaxError p.offset "a closing quote after the ProofId"))
  return (BitVec.ofNat 256 (nibbles.foldl (fun n d => n * 16 + d) 0),
    { p with rest := p.rest.tail })

/-- The text between quotes. -/
def quoted (p : Parser) (expected : String) : ParserM (List UInt8 × Parser) := do
  let offset := p.nextOffset
  let (_, p) ← p.expect 0x22 expected
  let content := p.rest.takeWhile (· ≠ 0x22)
  require (content.length < p.rest.length) (.error (.syntaxError offset "a closing quote"))
  return (content, { p with rest := p.rest.drop (content.length + 1) })

end Parser

inductive Operand
  | formula
  | freeVariable
  | reference
  | fixed
  | citation
  | parameters
  deriving DecidableEq

inductive Rule
  | simplification
  | frege
  | contraposition
  | distribution
  | vacuous
  | instantiation
  | modusPonens
  | reflexivity
  | substitution
  | fixed
  | separation
  | replacement
  | citation
  | generalization
  deriving DecidableEq

def Rule.table : List (String × Rule) :=
  [("simp", .simplification), ("frege", .frege), ("contra", .contraposition),
    ("dist", .distribution), ("vacuous", .vacuous), ("inst", .instantiation), ("mp", .modusPonens),
    ("refl", .reflexivity), ("subst", .substitution), ("axiom", .fixed), ("sep", .separation),
    ("replace", .replacement), ("cite", .citation), ("gen", .generalization)]

def Rule.parse (name : List UInt8) : Option Rule :=
  (table.find? fun row => ascii row.1 = name).map Prod.snd

def Rule.operands : Rule → List Operand
  | .simplification | .contraposition => [.formula, .formula]
  | .frege => [.formula, .formula, .formula]
  | .distribution => [.freeVariable, .formula, .formula]
  | .vacuous => [.formula]
  | .instantiation | .substitution => [.freeVariable, .freeVariable, .formula]
  | .modusPonens => [.reference, .reference]
  | .reflexivity => [.freeVariable]
  | .fixed => [.fixed]
  | .separation => [.formula, .freeVariable, .freeVariable, .freeVariable, .parameters]
  | .replacement => [.formula, .freeVariable, .freeVariable, .freeVariable, .freeVariable,
      .freeVariable, .parameters]
  | .citation => [.citation]
  | .generalization => [.reference, .freeVariable]

/-- The step of a rule with its operands. -/
def Rule.build (rule : Rule) (fields : List StepField) : Option ProofStep :=
  match rule with
  | .simplification =>
    match fields with
    | [.formula antecedent, .formula consequent] => some (.simplification antecedent consequent)
    | _ => none
  | .frege =>
    match fields with
    | [.formula first, .formula second, .formula third] => some (.frege first second third)
    | _ => none
  | .contraposition =>
    match fields with
    | [.formula antecedent, .formula consequent] =>
      some (.classicalContraposition antecedent consequent)
    | _ => none
  | .distribution =>
    match fields with
    | [.freeVariable v, .formula antecedent, .formula consequent] =>
      some (.universalDistribution v antecedent consequent)
    | _ => none
  | .vacuous =>
    match fields with
    | [.formula formula] => some (.vacuousUniversal formula)
    | _ => none
  | .instantiation =>
    match fields with
    | [.freeVariable v, .freeVariable target, .formula body] =>
      some (.universalInstantiation v target body)
    | _ => none
  | .modusPonens =>
    match fields with
    | [.reference premise, .reference implication] => some (.modusPonens premise implication)
    | _ => none
  | .reflexivity =>
    match fields with
    | [.freeVariable v] => some (.equalityReflexivity v)
    | _ => none
  | .substitution =>
    match fields with
    | [.freeVariable source, .freeVariable target, .formula body] =>
      some (.equalitySubstitution source target body)
    | _ => none
  | .fixed =>
    match fields with
    | [.zfcAxiom selected] => some (.zfcAxiom selected)
    | _ => none
  | .separation =>
    match fields with
    | [.formula predicate, .freeVariable element, .freeVariable source, .freeVariable result,
        .freeVariables parameters] =>
      some (.separation ⟨predicate, element, source, result, parameters⟩)
    | _ => none
  | .replacement =>
    match fields with
    | [.formula predicate, .freeVariable input, .freeVariable output, .freeVariable witness,
        .freeVariable source, .freeVariable result, .freeVariables parameters] =>
      some (.replacement ⟨predicate, input, output, witness, source, result, parameters⟩)
    | _ => none
  | .citation =>
    match fields with
    | [.proofId id] => some (.proofReference id)
    | _ => none
  | .generalization =>
    match fields with
    | [.reference premise, .freeVariable v] => some (.generalization premise v)
    | _ => none

def fixedTable : List (String × ZfcAxiom) :=
  [("extensionality", .extensionality), ("pairing", .pairing), ("union", .union),
    ("power_set", .powerSet), ("infinity", .infinity), ("foundation", .foundation),
    ("choice", .choice)]

namespace Parser

/-- Parameters up to the closing bracket; the first argument bounds their number. -/
def parametersFrom : ℕ → List FreeVariable → Parser → ParserM (List FreeVariable × Parser)
  | 0, _, _ => .error .cut
  | fuel + 1, result, p =>
    match punctuation 0x5d p.rest with
    | some rest => .ok (result, { p with rest := rest })
    | none => do
      let (name, p) ← p.readName
      let (x, p) ← p.variableNamed name
      match punctuation 0x5d p.rest with
      | some rest => return (result ++ [x], { p with rest := rest })
      | none => do
        let (_, p) ← p.comma
        parametersFrom fuel (result ++ [x]) p

def schemaParameters (fuel : ℕ) (p : Parser) : ParserM (List FreeVariable × Parser) := do
  let (_, p) ← p.keyword "parameters"
  let (_, p) ← p.expect 0x3d "`=`"
  let (_, p) ← p.expect 0x5b "`[`"
  parametersFrom fuel [] p

end Parser

/-- The names that a proof may use. -/
structure ProofNames where
  aliases : List UInt8 → Option DefinitionAlias
  bindings : List UInt8 → Option ParsedFormula
  references : List UInt8 → Option ProofId

section

variable (names : ProofNames) (fuel : ℕ)

/-- One operand, where `known` gives the positions of the earlier steps. -/
def readOperand (known : List (List UInt8 × ℕ)) (p : Parser) :
    Operand → ParserM (StepField × Parser)
  | .formula => do
    let (f, p) ← proofFormula names.aliases names.bindings p
    return (.formula f, p)
  | .freeVariable => do
    let (name, p) ← p.readName
    let (x, p) ← p.variableNamed name
    return (.freeVariable x, p)
  | .reference => do
    let offset := p.nextOffset
    let (name, p) ← p.readName
    let position ← orError (.error (.unknownStep offset name)) (known.lookup name)
    return (.reference position, p)
  | .fixed => do
    let offset := p.nextOffset
    let (content, p) ← p.quoted "a quoted ZFC axiom selector"
    let row ← orError (.error (.syntaxError offset "a fixed ZFC axiom"))
      (fixedTable.find? fun row => ascii row.1 = content)
    return (.zfcAxiom row.2, p)
  | .citation =>
    if (punctuation 0x22 p.rest).isSome then do
      let (id, p) ← p.fixedIdBytes "a 64-digit lowercase hexadecimal ProofId"
      return (.proofId id, p)
    else do
      let offset := p.nextOffset
      let (name, p) ← p.readName
      let id ← orError (.error (.unknownProofReference offset name)) (names.references name)
      return (.proofId id, p)
  | .parameters => do
    let (xs, p) ← p.schemaParameters fuel
    return (.freeVariables xs, p)

omit names fuel in
/-- Operands but the first stand behind a comma. -/
def separate (first : Bool) (p : Parser) : ParserM Parser :=
  if first then .ok p else (p.comma).map Prod.snd

def readOperands (known : List (List UInt8 × ℕ)) :
    List Operand → Bool → Parser → ParserM (List StepField × Parser)
  | [], _, p => .ok ([], p)
  | operand :: operands, first, p => do
    let p ← separate first p
    let (field, p) ← readOperand names fuel known p operand
    let (fields, p) ← readOperands known operands false p
    return (field :: fields, p)

def proofStep (known : List (List UInt8 × ℕ)) (p : Parser) : ParserM (ProofStep × Parser) := do
  let offset := p.nextOffset
  let (name, p) ← p.readName
  let (_, p) ← p.openCall
  let rule ← orError (.error (.syntaxError offset "a supported proof expression"))
    (Rule.parse name)
  let (fields, p) ← readOperands names fuel known rule.operands true p
  -- The operands of a rule always fit it.
  let step ← orError .panic (rule.build fields)
  let (_, p) ← p.closeCall
  return (step, p)

/-- The steps up to the word `return`. -/
def proofSteps : ℕ → List (List UInt8 × ℕ) → List ProofStep → Parser →
    ParserM (List ProofStep × Parser)
  | 0, _, _, _ => .error .cut
  | rounds + 1, known, steps, p => do
    let offset := p.nextOffset
    if (name p.rest).map Prod.fst = some (ascii "return") then return (steps, p.skipTrivia)
    else do
      require (steps.length ≠ certificateMaxSteps) (.error (.certificate offset
        (.tooManySteps (certificateMaxSteps + 1) certificateMaxSteps)))
      let (name, p) ← p.readName
      require (known.lookup name = none) (.error (.duplicateStep offset name))
      let (_, p) ← p.expect 0x3d "`=`"
      let (step, p) ← proofStep names fuel known p
      proofSteps rounds ((name, steps.length) :: known) (steps ++ [step]) p

end

end Authoring
end Naome
