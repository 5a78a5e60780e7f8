import Naome.ProofStep
import Naome.SourceTerms

/-!
# Formulas and proof steps of the source language

The parser of formulas charges the nodes of what it will build before it builds it, and records the
nodes and the depth of each formula.
-/
namespace Naome
namespace Authoring
open Outcome

def ascii (word : String) : List UInt8 := word.toList.map fun c => UInt8.ofNat c.toNat

inductive Connective
  | implies
  | and
  | or
  | iff
  deriving DecidableEq

inductive Operator
  | equal
  | member
  | unequal
  | not
  | quantifier (existential : Bool)
  | binary (connective : Connective)
  deriving DecidableEq

def Operator.table : List (String × Operator) :=
  [("eq", .equal), ("mem", .member), ("ne", .unequal), ("not", .not), ("imp", .binary .implies),
    ("all", .quantifier false), ("ex", .quantifier true), ("and", .binary .and),
    ("or", .binary .or), ("iff", .binary .iff)]

def Operator.parse (name : List UInt8) : Option Operator :=
  (table.find? fun row => ascii row.1 = name).map Prod.snd

def reservedWords : List String :=
  ["defs", "refs", "let", "goal", "def", "relation", "function", "proof", "return", "parameters",
    "success", "simp", "frege", "contra", "dist", "vacuous", "inst", "mp", "refl", "subst", "axiom",
    "sep", "replace", "cite", "gen"]

def isReservedBindingName (name : List UInt8) : Bool :=
  (Operator.parse name).isSome || reservedWords.any fun word => ascii word = name

/-- The nodes and the depth of a connective in primitive connectives. -/
def binaryShape : Connective → ℕ × ℕ → ℕ × ℕ → ℕ × ℕ
  | .implies, (ln, ld), (rn, rd) => (ln + rn + 1, max ld rd + 1)
  | .and, (ln, ld), (rn, rd) => (ln + rn + 3, max (ld + 2) (rd + 3))
  | .or, (ln, ld), (rn, rd) => (ln + rn + 2, max (ld + 2) (rd + 1))
  | .iff, (ln, ld), (rn, rd) => ((ln + rn) * 2 + 5, max ld rd + 4)

def Connective.apply : Connective → DefinedFormula → DefinedFormula → DefinedFormula
  | .implies => .implies
  | .and => .conjunction
  | .or => .disjunction
  | .iff => .biconditional

/-- The levels that one quantified variable adds. -/
def quantifierLevels (existential : Bool) : ℕ := if existential then 3 else 1

def quantify (existential : Bool) (x : FreeVariable) (body : DefinedFormula) : DefinedFormula :=
  if existential then .existsOne x body else .forAll x body

namespace Parser

def openCall (p : Parser) : ParserM (Unit × Parser) :=
  p.token "`(`" ((punctuation 0x28 p.rest).map fun rest => ((), rest))

/-- The names of a binder list, at most as many as the depth limit; without a list there is one. -/
def bindersFrom (list : Bool) (offset : ℕ) :
    ℕ → List FreeVariable → Parser → ParserM (List FreeVariable × Parser)
  | 0, _, _ => .error (.error (.formulaDepthLimitExceeded offset formulaMaxDepth))
  | remaining + 1, result, p => do
    let (name, p) ← p.readName
    let (x, vars) ← orError (.error (.formulaDepthLimitExceeded offset formulaMaxDepth))
      (p.vars.named name)
    let p := { p with vars := vars }
    if list = false then return (result ++ [x], p)
    else
      match punctuation 0x5d p.rest with
      | some rest => return (result ++ [x], { p with rest := rest })
      | none => do
        let (_, p) ← p.comma
        match punctuation 0x5d p.rest with
        | some rest => return (result ++ [x], { p with rest := rest })
        | none => bindersFrom list offset remaining (result ++ [x]) p

def binders (p : Parser) (offset : ℕ) : ParserM (List FreeVariable × Parser) :=
  match punctuation 0x5b p.rest with
  | some rest => bindersFrom true offset formulaMaxDepth [] { p with rest := rest }
  | none => bindersFrom false offset formulaMaxDepth [] p

end Parser

section

variable (aliases : List UInt8 → Option DefinitionAlias)
  (bindings : List UInt8 → Option ParsedFormula)

def bindingReference (offset : ℕ) (name : List UInt8) (depth : ℕ) (context : FormulaContext)
    (p : Parser) : ParserM (ParsedFormula × Parser) := do
  let binding ← orError (.error (.unknownFormulaBinding offset name)) (bindings name)
  let p ← p.chargeFormulaNodes binding.expandedNodes offset context
  Parser.checkExpandedDepth offset depth binding.expandedDepth
  return (binding, p)

omit aliases bindings in
def quantified (existential : Bool) (xs : List FreeVariable) (body : ParsedFormula)
    (offset depth : ℕ) : ParserM ParsedFormula := do
  let extra := xs.length * quantifierLevels existential
  let expandedDepth := body.expandedDepth + extra
  Parser.checkExpandedDepth offset depth expandedDepth
  return ⟨xs.foldr (quantify existential) body.formula, extra + body.expandedNodes, expandedDepth⟩

omit aliases bindings in
def negated (body : ParsedFormula) (offset depth : ℕ) : ParserM ParsedFormula := do
  let expandedDepth := body.expandedDepth + 1
  Parser.checkExpandedDepth offset depth expandedDepth
  return ⟨body.formula.negate, 1 + body.expandedNodes, expandedDepth⟩

omit aliases bindings in
/-- The nodes of a connective that its call and its operands did not charge. -/
def additionalNodes (left right : ParsedFormula) : Connective → ℕ
  | .and => 2
  | .or => 1
  | .iff => 4 + left.expandedNodes + right.expandedNodes
  | .implies => 0

omit aliases bindings in
def binary (connective : Connective) (left right : ParsedFormula) (offset depth : ℕ)
    (context : FormulaContext) (p : Parser) : ParserM (ParsedFormula × Parser) := do
  let (nodes, height) := binaryShape connective (left.expandedNodes, left.expandedDepth)
    (right.expandedNodes, right.expandedDepth)
  let p ← p.chargeFormulaNodes (additionalNodes left right connective) offset context
  Parser.checkExpandedDepth offset depth height
  return (⟨connective.apply left.formula right.formula, nodes, height⟩, p)

/-- The inside of a call; the formulas in it are read by `parse`. -/
def callBody (parse : ℕ → Parser → ParserM (ParsedFormula × Parser)) (name : List UInt8)
    (offset depth : ℕ) (context : FormulaContext) (p : Parser) :
    ParserM (ParsedFormula × Parser) :=
  match Operator.parse name with
  | some .equal => parseEqual aliases offset depth context false p
  | some .unequal => parseEqual aliases offset depth context true p
  | some .member => parseMember aliases offset depth context p
  | some (.quantifier existential) => do
    let (xs, p) ← p.binders offset
    let (_, p) ← p.comma
    let extra := xs.length * quantifierLevels existential
    Parser.checkExpandedDepth offset depth (extra + 1)
    let p ← p.chargeFormulaNodes (extra - 1) offset context
    let (body, p) ← parse (depth + extra) p
    let parsed ← quantified existential xs body offset depth
    return (parsed, p)
  | some .not => do
    let (body, p) ← parse (depth + 1) p
    let parsed ← negated body offset depth
    return (parsed, p)
  | some (.binary connective) => do
    let (left, p) ← parse (depth + 1) p
    let (_, p) ← p.comma
    let (right, p) ← parse (depth + 1) p
    binary connective left right offset depth context p
  | none => parseDefinedRelation aliases offset name context depth p

def parseFormula : ℕ → FormulaContext → ℕ → Parser → ParserM (ParsedFormula × Parser)
  | 0, _, _, _ => .error .cut
  | fuel + 1, context, depth, p => do
    let offset := p.nextOffset
    let (name, p) ← p.readName
    if punctuation 0x28 p.rest = none ∧ isReservedBindingName name = false then
      bindingReference bindings offset name depth context p
    else do
      let p ← p.chargeFormulaNodes 1 offset context
      require (depth ≤ formulaMaxDepth)
        (.error (.formulaDepthLimitExceeded offset formulaMaxDepth))
      let (_, p) ← p.openCall
      let (parsed, p) ← callBody aliases (parseFormula fuel context) name offset depth context p
      let (_, p) ← p.closeCall
      return (parsed, p)

def parsedFormula (depth : ℕ) (context : FormulaContext) (p : Parser) :
    ParserM (ParsedFormula × Parser) :=
  parseFormula aliases bindings (p.rest.length + 1) context depth p

/-- A formula of a certificate keeps the primitive representation where it can. -/
def proofFormula (p : Parser) : ParserM (ProofFormula × Parser) := do
  let offset := p.nextOffset
  let (parsed, p) ← parsedFormula aliases bindings 1 .certificate p
  let formula ← (ProofFormula.fromDefined parsed.formula).mapError fun source =>
    Halt.error (.definitionFormula offset source)
  return (formula, p)

end

end Authoring
end Naome
