import Naome.Definition
import Naome.ProofCodec

/-!
# Terms of the source language

Atoms of a source text may apply functions. The parser lowers such a term to a variable with graph
constraints and the witnesses that these constraints introduce.
-/
namespace Naome
namespace Authoring
open Outcome

def trivial (b : UInt8) : Bool := b = 0x20 || b = 0x09 || b = 0x0d || b = 0x0a

/-- Leaves out blanks and comments; the flag says that a comment is open. -/
def trivia : Bool → List UInt8 → List UInt8
  | _, [] => []
  | true, b :: rest => trivia (b ≠ 0x0a) rest
  | false, b :: rest =>
    if trivial b then trivia false rest
    else if b = 0x23 then trivia true rest
    else b :: rest

def alphabetic (b : UInt8) : Bool := (0x41 ≤ b && b ≤ 0x5a) || (0x61 ≤ b && b ≤ 0x7a)

def nameByte (b : UInt8) : Bool := alphabetic b || (0x30 ≤ b && b ≤ 0x39) || b = 0x5f

/-- A name and what comes behind it. -/
def name (text : List UInt8) : Option (List UInt8 × List UInt8) :=
  match trivia false text with
  | [] => none
  | b :: rest =>
    if alphabetic b || b = 0x5f then
      some (b :: rest.takeWhile nameByte, rest.dropWhile nameByte)
    else none

/-- One byte of punctuation. -/
def punctuation (expected : UInt8) (text : List UInt8) : Option (List UInt8) :=
  match trivia false text with
  | [] => none
  | b :: rest => if b = expected then some rest else none

/-- One allocation order for the variables of a source. -/
structure Variables where
  names : List (List UInt8 × FreeVariable)
  next : ℕ

namespace Variables

def empty : Variables := ⟨[], 0⟩

def fresh (v : Variables) : Option (FreeVariable × Variables) :=
  if v.next + 1 < 2 ^ 32 then some (⟨UInt32.ofNat v.next⟩, ⟨v.names, v.next + 1⟩) else none

def named (v : Variables) (name : List UInt8) : Option (FreeVariable × Variables) :=
  match v.names.lookup name with
  | some x => some (x, v)
  | none =>
    match v.fresh with
    | some (x, w) => some (x, ⟨(name, x) :: w.names, w.next⟩)
    | none => none

end Variables

structure DefinitionAlias where
  definitionId : DefinitionId
  kind : DefinitionKind

inductive FormulaContext
  | binding
  | statement
  | certificate
  deriving DecidableEq

def formulaBindingMaxNodes : ℕ := formulaMaxNodes

inductive CompileError
  | syntaxError (offset : ℕ) (expected : String)
  | unknownDefinitionAlias (offset : ℕ) (name : List UInt8)
  | unknownFormulaBinding (offset : ℕ) (name : List UInt8)
  | unknownStep (offset : ℕ) (name : List UInt8)
  | unknownProofReference (offset : ℕ) (name : List UInt8)
  | duplicateStep (offset : ℕ) (name : List UInt8)
  | definitionArityMismatch (offset : ℕ) (name : List UInt8) (expected actual : ℕ)
  | formulaDepthLimitExceeded (offset maximum : ℕ)
  | formulaBindingNodeLimitExceeded (offset maximum : ℕ)
  | statement (offset : ℕ) (source : FormulaCodecError)
  | certificate (offset : ℕ) (source : ProofCertificateError)
  | definitionFormula (offset : ℕ) (source : DefinedFormulaCodecError)
  deriving DecidableEq

/-- A reported error, a violated assertion, or a recursion that the model cuts off. -/
inductive Halt
  | error (reason : CompileError)
  | panic
  | cut
  deriving DecidableEq

abbrev ParserM := Except Halt

/-- What the parser of terms reads and changes. -/
structure Parser where
  sourceLength : ℕ
  rest : List UInt8
  vars : Variables
  formulaBindingNodes : ℕ
  statementNodes : ℕ
  certificateFormulaNodes : ℕ

structure TermBudget where
  context : FormulaContext
  sourceDepth : ℕ
  atomDepth : ℕ
  functions : ℕ

def TermBudget.new (context : FormulaContext) (sourceDepth atomDepth : ℕ) : TermBudget :=
  ⟨context, sourceDepth, atomDepth, 0⟩

structure ParsedTerm where
  freeVariable : FreeVariable
  graphConstraints : List DefinedFormula
  witnesses : List FreeVariable

structure ParsedFormula where
  formula : DefinedFormula
  expandedNodes : ℕ
  expandedDepth : ℕ

namespace Parser

def skipTrivia (p : Parser) : Parser := { p with rest := trivia false p.rest }

def offset (p : Parser) : ℕ := p.sourceLength - p.rest.length

def nextOffset (p : Parser) : ℕ := p.skipTrivia.offset

/-- A token, or an error where it is missing. -/
def token {α : Type} (p : Parser) (expected : String) (read : Option (α × List UInt8)) :
    ParserM (α × Parser) :=
  match read with
  | some (a, rest) => .ok (a, { p with rest := rest })
  | none => .error (.error (.syntaxError p.nextOffset expected))

def readName (p : Parser) : ParserM (List UInt8 × Parser) := p.token "a name" (name p.rest)

def comma (p : Parser) : ParserM (Unit × Parser) :=
  p.token "`,`" ((punctuation 0x2c p.rest).map fun rest => ((), rest))

/-- Behind the optional comma a missing parenthesis is reported where it should stand. -/
def closeCall (p : Parser) : ParserM (Unit × Parser) :=
  let p := match punctuation 0x2c p.rest with
    | some rest => { p with rest := rest }
    | none => p
  p.token "`)`" ((punctuation 0x29 p.rest).map fun rest => ((), rest))

def allocate {α : Type} (p : Parser) (allocated : Option (α × Variables)) :
    ParserM (α × Parser) :=
  match allocated with
  | some (a, vars) => .ok (a, { p with vars := vars })
  | none => .error .panic

def variableNamed (p : Parser) (name : List UInt8) : ParserM (FreeVariable × Parser) :=
  p.allocate (p.vars.named name)

def freshVariable (p : Parser) : ParserM (FreeVariable × Parser) := p.allocate p.vars.fresh

def checkExpandedDepth (operatorOffset sourceDepth expandedDepth : ℕ) : ParserM Unit :=
  require (sourceDepth ≠ 0 ∧ sourceDepth - 1 + expandedDepth ≤ formulaMaxDepth)
    (.error (.formulaDepthLimitExceeded operatorOffset formulaMaxDepth))

def formulaNodeLimit (offset : ℕ) : FormulaContext → CompileError
  | .binding => .formulaBindingNodeLimitExceeded offset formulaBindingMaxNodes
  | .statement => .statement offset (.nodeLimitExceeded formulaMaxNodes)
  | .certificate => .certificate offset (.formulaNodeLimitExceeded certificateMaxFormulaNodes)

def chargeFormulaNodes (p : Parser) (additional offset : ℕ) :
    FormulaContext → ParserM Parser
  | .binding => do
    let total := p.formulaBindingNodes + additional
    require (total ≤ formulaBindingMaxNodes) (.error (formulaNodeLimit offset .binding))
    return { p with formulaBindingNodes := total }
  | .statement => do
    let total := p.statementNodes + additional
    require (total ≤ formulaMaxNodes) (.error (formulaNodeLimit offset .statement))
    return { p with statementNodes := total }
  | .certificate => do
    let total := p.certificateFormulaNodes + additional
    require (total ≤ certificateMaxFormulaNodes) (.error (formulaNodeLimit offset .certificate))
    return { p with certificateFormulaNodes := total }

end Parser

def ensureDefinitionArity (offset : ℕ) (name : List UInt8) (expected actual : ℕ) : ParserM Unit :=
  require (actual = expected) (.error (.definitionArityMismatch offset name expected actual))

/-- The call of a function: its graph joins the constraints of its arguments. -/
def ParsedTerm.call (definitionId : DefinitionId) (arguments : List ParsedTerm)
    (output : FreeVariable) : ParsedTerm where
  freeVariable := output
  graphConstraints := arguments.flatMap ParsedTerm.graphConstraints ++
    [.definedRelation definitionId (arguments.map ParsedTerm.freeVariable ++ [output])]
  witnesses := arguments.flatMap ParsedTerm.witnesses ++ [output]

section

variable (aliases : List UInt8 → Option DefinitionAlias)

mutual

/-- A variable, or a function with its arguments. -/
def term : ℕ → TermBudget → Parser → ParserM (ParsedTerm × TermBudget × Parser)
  | 0, _, _ => .error .cut
  | fuel + 1, budget, p => do
    let offset := p.nextOffset
    let (name, p) ← p.readName
    match punctuation 0x28 p.rest with
    | none => do
      let (x, p) ← p.variableNamed name
      return (⟨x, [], []⟩, budget, p)
    | some rest => do
      let definition ← orError (.error (.unknownDefinitionAlias offset name)) (aliases name)
      match definition.kind with
      | .relation _ =>
        .error (.error (.syntaxError offset "a function definition alias in term position"))
      | .function expected => do
        let functions := budget.functions + 1
        Parser.checkExpandedDepth offset budget.sourceDepth (budget.atomDepth + 6 * functions)
        let p ← Parser.chargeFormulaNodes { p with rest := rest } 7 offset budget.context
        let (arguments, budget, p) ←
          termArguments fuel offset name expected [] { budget with functions := functions } p
        ensureDefinitionArity offset name expected arguments.length
        let (_, p) ← p.closeCall
        let (output, p) ← p.freshVariable
        return (.call definition.definitionId arguments output, budget, p)

/-- The arguments up to the closing parenthesis, which stays. -/
def termArguments : ℕ → ℕ → List UInt8 → ℕ → List ParsedTerm → TermBudget → Parser →
    ParserM (List ParsedTerm × TermBudget × Parser)
  | 0, _, _, _, _, _, _ => .error .cut
  | fuel + 1, offset, name, arity, arguments, budget, p => do
    let p := p.skipTrivia
    if p.rest.head? = some 0x29 then return (arguments, budget, p)
    else do
      require (arguments.length ≠ arity)
        (.error (.definitionArityMismatch offset name arity (arguments.length + 1)))
      let (argument, budget, p) ← term fuel budget p
      let p := p.skipTrivia
      if p.rest.head? = some 0x29 then return (arguments ++ [argument], budget, p)
      else do
        let (_, p) ← p.comma
        termArguments fuel offset name arity (arguments ++ [argument]) budget p

end

end

/-- The constraints become conjunctions around the atom, the witnesses quantifiers around them. -/
def relationalizedFormula (terms : List ParsedTerm) (atom : List FreeVariable → DefinedFormula)
    (offset : ℕ) (context : FormulaContext) (sourceDepth atomDepth : ℕ) (p : Parser) :
    ParserM (ParsedFormula × Parser) := do
  let witnesses := terms.flatMap ParsedTerm.witnesses
  let expandedDepth := atomDepth + 6 * witnesses.length
  Parser.checkExpandedDepth offset sourceDepth expandedDepth
  let p ← p.chargeFormulaNodes (atomDepth - 1) offset context
  let formula := (terms.flatMap ParsedTerm.graphConstraints).foldr DefinedFormula.conjunction
    (atom (terms.map ParsedTerm.freeVariable))
  let formula := witnesses.foldr DefinedFormula.existsOne formula
  let (_, nodes) ← (formula.encodeCanonicalWithNodeLimit formulaMaxNodes).mapError fun source =>
    Halt.error (.definitionFormula offset source)
  return (⟨formula, nodes, expandedDepth⟩, p)

section

variable (aliases : List UInt8 → Option DefinitionAlias)

/-- The two terms of an atom. -/
def termPair (budget : TermBudget) (p : Parser) :
    ParserM (ParsedTerm × ParsedTerm × Parser) := do
  let (left, budget, p) ← term aliases (p.rest.length + 1) budget p
  let (_, p) ← p.comma
  let (right, _, p) ← term aliases (p.rest.length + 1) budget p
  return (left, right, p)

def parseEqual (offset depth : ℕ) (context : FormulaContext) (negated : Bool) (p : Parser) :
    ParserM (ParsedFormula × Parser) := do
  let atomDepth := if negated then 2 else 1
  let (left, right, p) ← termPair aliases (.new context depth atomDepth) p
  let atom : List FreeVariable → DefinedFormula
    | [l, r] => if negated then (DefinedFormula.equal l r).negate else .equal l r
    | _ => .equal ⟨0⟩ ⟨0⟩
  relationalizedFormula [left, right] atom offset context depth atomDepth p

def parseMember (offset depth : ℕ) (context : FormulaContext) (p : Parser) :
    ParserM (ParsedFormula × Parser) := do
  let (element, set, p) ← termPair aliases (.new context depth 1) p
  let atom : List FreeVariable → DefinedFormula
    | [l, r] => .member l r
    | _ => .equal ⟨0⟩ ⟨0⟩
  relationalizedFormula [element, set] atom offset context depth 1 p

def parseDefinedRelation (offset : ℕ) (name : List UInt8) (context : FormulaContext) (depth : ℕ)
    (p : Parser) : ParserM (ParsedFormula × Parser) := do
  let definition ← orError (.error (.unknownDefinitionAlias offset name)) (aliases name)
  match definition.kind with
  | .function _ =>
    .error (.error (.syntaxError offset "a relation definition alias in formula position"))
  | .relation arity => do
    let (arguments, _, p) ← termArguments aliases (p.rest.length + 2) offset name arity []
      (.new context depth 1) p
    ensureDefinitionArity offset name arity arguments.length
    relationalizedFormula arguments (DefinedFormula.definedRelation definition.definitionId) offset
      context depth 1 p

end

end Authoring
end Naome
