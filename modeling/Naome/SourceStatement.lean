import Naome.Context
import Naome.QuestionSource
import Naome.SourceProofs

/-!
# The head of a source

A source names definitions, proofs and formulas, and then states what it proves. The statement is
expanded before its proof is read.
-/
namespace Naome
namespace Authoring
open Outcome

/-- What the head of a source can fail with. -/
inductive SourceError
  | halt (reason : Halt)
  | duplicateDefinitionAlias (offset : ℕ) (name : List UInt8)
  | duplicateProofReference (offset : ℕ) (name : List UInt8)
  | duplicateFormulaBinding (offset : ℕ) (name : List UInt8)
  | definitionNotSelected (offset : ℕ) (definitionId : DefinitionId)
  | definitionExpansion (offset : ℕ) (source : DefinitionExpansionError)

abbrev SourceM := Except SourceError

/-- The parser of a source with the names that it knows. -/
structure SourceParser where
  parser : Parser
  aliases : List (List UInt8 × DefinitionAlias)
  references : List (List UInt8 × ProofId)
  bindings : List (List UInt8 × ParsedFormula)

/-- A checked statement, or the head of a definition. -/
inductive SourceHead
  | definition (source : SourceParser)
  | statement (formula : Formula) (source : SourceParser)

def SourceM.halting {α : Type} (x : ParserM α) : SourceM α := x.mapError .halt

def SourceM.syntaxError {α : Type} (offset : ℕ) (expected : String) : SourceM α :=
  .error (.halt (.error (.syntaxError offset expected)))

namespace SourceParser

def new (text : List UInt8) : SourceParser where
  parser := ⟨text.length, text, .empty, 0, 0, 0⟩
  aliases := []
  references := []
  bindings := []

def skipTrivia (s : SourceParser) : SourceParser := { s with parser := s.parser.skipTrivia }

/-- The source goes on with one of the words. -/
def atWord (s : SourceParser) (words : List String) : Bool :=
  words.any fun word => wordAt s.skipTrivia.parser.rest (ascii word)

def keyword (s : SourceParser) (expected : String) : SourceM SourceParser := do
  let (_, p) ← SourceM.halting (s.parser.keyword expected)
  return { s with parser := p }

def expect (s : SourceParser) (b : UInt8) (expected : String) : SourceM SourceParser := do
  let (_, p) ← SourceM.halting (s.parser.expect b expected)
  return { s with parser := p }

/-- A new name, which no operator or section of the language has. -/
def readNewName (s : SourceParser) (expected : String) : SourceM (List UInt8 × SourceParser) := do
  let offset := s.parser.nextOffset
  let (word, p) ← SourceM.halting s.parser.readName
  require (isReservedBindingName word = false) (.halt (.error (.syntaxError offset expected)))
  return (word, { s with parser := p })

section

variable (ctx : ContextView)

def definitionAlias (s : SourceParser) : SourceM SourceParser := do
  let offset := s.parser.nextOffset
  let (word, s) ← s.readNewName "a non-reserved definition alias"
  require ((s.aliases.lookup word).isNone = true) (.duplicateDefinitionAlias offset word)
  let s ← s.expect 0x3d "`=`"
  let (id, p) ← SourceM.halting
    (s.parser.fixedIdBytes "a 64-digit lowercase hexadecimal DefinitionId")
  let certificate ← (ctx.definitionCertificate id).mapError fun source =>
    SourceError.definitionExpansion offset (.access source.toAccess)
  let certificate ← orError (.definitionNotSelected offset id) certificate
  return { s with parser := p, aliases := (word, ⟨id, certificate.kind⟩) :: s.aliases }

/-- Every entry of a section takes a byte at least. -/
def definitionAliasesFrom : ℕ → SourceParser → SourceM SourceParser
  | 0, _ => .error (.halt .cut)
  | bytes + 1, s => do
    let s ← definitionAlias ctx s
    if s.atWord ["refs", "let", "goal", "def"] then return s.skipTrivia
    else definitionAliasesFrom bytes s.skipTrivia

def definitionAliases (s : SourceParser) : SourceM SourceParser := do
  let s ← s.keyword "defs"
  let s ← s.expect 0x3a "`:`"
  if s.atWord ["refs", "let", "goal", "def"] then
    SourceM.syntaxError s.parser.nextOffset "at least one selected definition alias"
  else definitionAliasesFrom ctx (s.parser.rest.length + 1) s.skipTrivia

end

def proofReference (s : SourceParser) : SourceM SourceParser := do
  let offset := s.parser.nextOffset
  let (word, s) ← s.readNewName "a non-reserved proof reference name"
  require ((s.references.lookup word).isNone = true) (.duplicateProofReference offset word)
  require ((s.aliases.lookup word).isNone = true) (.duplicateDefinitionAlias offset word)
  let s ← s.expect 0x3d "`=`"
  let (id, p) ← SourceM.halting
    (s.parser.fixedIdBytes "a 64-digit lowercase hexadecimal ProofId")
  return { s with parser := p, references := (word, id) :: s.references }

def proofReferencesFrom : ℕ → SourceParser → SourceM SourceParser
  | 0, _ => .error (.halt .cut)
  | bytes + 1, s => do
    let s ← s.proofReference
    if s.atWord ["let", "goal", "def"] then return s.skipTrivia
    else proofReferencesFrom bytes s.skipTrivia

def proofReferences (s : SourceParser) : SourceM SourceParser := do
  let s ← s.keyword "refs"
  let s ← s.expect 0x3a "`:`"
  proofReferencesFrom (s.parser.rest.length + 1) s

def parsedFormula (s : SourceParser) (context : FormulaContext) :
    SourceM (ParsedFormula × SourceParser) := do
  let (parsed, p) ← SourceM.halting (Authoring.parsedFormula (fun word => s.aliases.lookup word)
    (fun word => s.bindings.lookup word) 1 context s.parser)
  return (parsed, { s with parser := p })

def formulaBinding (s : SourceParser) : SourceM SourceParser := do
  let offset := s.parser.nextOffset
  let (word, s) ← s.readNewName "a non-reserved formula binding name"
  require ((s.bindings.lookup word).isNone = true) (.duplicateFormulaBinding offset word)
  require ((s.aliases.lookup word).isNone = true) (.duplicateDefinitionAlias offset word)
  require ((s.references.lookup word).isNone = true) (.duplicateProofReference offset word)
  let s ← s.expect 0x3d "`=`"
  let (parsed, s) ← s.parsedFormula .binding
  return { s with bindings := (word, parsed) :: s.bindings }

def formulaBindingsFrom : ℕ → SourceParser → SourceM SourceParser
  | 0, _ => .error (.halt .cut)
  | bytes + 1, s => do
    let s ← s.formulaBinding
    if s.atWord ["goal"] then return s.skipTrivia
    else if s.atWord ["def"] then
      SourceM.syntaxError s.parser.nextOffset "a proof statement after formula bindings"
    else formulaBindingsFrom bytes s.skipTrivia

def formulaBindings (s : SourceParser) : SourceM SourceParser := do
  let s ← s.keyword "let"
  let s ← s.expect 0x3a "`:`"
  if s.atWord ["goal", "def"] then
    SourceM.syntaxError s.parser.nextOffset "at least one formula binding"
  else formulaBindingsFrom (s.parser.rest.length + 1) s.skipTrivia

/-- A section that stands there only behind its word. -/
def optionalSection (s : SourceParser) (word : String) (read : SourceParser → SourceM SourceParser) :
    SourceM SourceParser :=
  if s.atWord [word] then read s.skipTrivia else .ok s.skipTrivia

/-- The names that a source brings along. -/
def names (ctx : ContextView) (s : SourceParser) : SourceM SourceParser := do
  let s ← s.optionalSection "defs" (definitionAliases ctx)
  let s ← s.optionalSection "refs" proofReferences
  s.optionalSection "let" formulaBindings

/-- A source up to its statement, with the definitions in the statement expanded. -/
def head (ctx : ContextView) (s : SourceParser) : SourceM SourceHead := do
  let s ← s.names ctx
  if s.atWord ["def"] then return .definition s.skipTrivia
  else do
    let s ← s.skipTrivia.keyword "goal"
    let s ← s.expect 0x3d "`=`"
    let offset := s.parser.nextOffset
    let (compact, s) ← s.parsedFormula .statement
    let (statement, _) ← (compact.formula.expandWithNodeLimit ctx.resolveDefinition
      formulaMaxNodes).mapError (.definitionExpansion offset)
    return .statement statement s

end SourceParser
end Authoring
end Naome
