import Naome.FormulaParser
import Naome.QuestionTarget

/-!
# Questions as source texts

A question is stored as its source text alone. It is compiled again whenever it is read, and a
formula that becomes a question is printed first.
-/
namespace Naome
open LocallyNameless Outcome ByteCursor

/-- The bytes of a text. -/
def sourceBytes (text : String) : List UInt8 := text.toByteArray.data.toList

/-- Bound variables are named by the depth of their binder, free ones by their number. -/
def renderVariable (depth : ℕ) : Variable FreeVariable → String
  | .free v => "f" ++ toString v.identifier.toNat
  | .bound index => "b" ++ toString (depth - 1 - index)

def render : ℕ → PrimitiveNode → String
  | depth, .equal left right =>
    "eq(" ++ renderVariable depth left ++ ", " ++ renderVariable depth right ++ ")"
  | depth, .member left right =>
    "mem(" ++ renderVariable depth left ++ ", " ++ renderVariable depth right ++ ")"
  | depth, .not body => "not(" ++ render depth body ++ ")"
  | depth, .implies left right => "imp(" ++ render depth left ++ ", " ++ render depth right ++ ")"
  | depth, .forAll body => "all(b" ++ toString depth ++ ", " ++ render (depth + 1) body ++ ")"
  | _, .definedRelation symbol _ => symbol.elim

def Formula.toSource (f : Formula) : String := render 0 f.node

namespace Authoring

/-- The text goes on with a word that ends there. -/
def wordAt (text expected : List UInt8) : Bool :=
  expected.isPrefixOf text && (text.drop expected.length).head?.all fun b => !nameByte b

end Authoring

namespace CompiledQuestion
open Authoring

structure Parsed where
  formula : Formula
  nodes : ℕ
  depth : ℕ

/-- What the parser of questions reads and changes. -/
structure Reader where
  rest : List UInt8
  vars : Variables
  bindings : List (List UInt8 × Parsed)
  bindingNodes : ℕ
  maximumNodes : ℕ

abbrev QuestionM := Except QuestionError

def connect : Connective → Formula → Formula → Formula
  | .implies => .implies
  | .and => .conjunction
  | .or => .disjunction
  | .iff => .biconditional

def bindVariable (existential : Bool) (x : FreeVariable) (body : Formula) : Formula :=
  if existential then .existsOne x body else .forAll x body

namespace Reader

def bounded (p : Reader) (nodes depth : ℕ) : QuestionM Unit := do
  require (nodes ≤ p.maximumNodes) (.limit "question expansion nodes")
  require (depth ≤ formulaMaxDepth) (.limit "question expansion depth")

def skipTrivia (p : Reader) : Reader := { p with rest := trivia false p.rest }

def readName (p : Reader) : QuestionM (List UInt8 × Reader) := do
  let (word, rest) ← orError (.invalid "question expected name") (name p.rest)
  return (word, { p with rest })

def word (p : Reader) (expected : String) : QuestionM Reader := do
  let (name, p) ← p.readName
  require (name = ascii expected) (.invalid "question unexpected field")
  return p

def literal (p : Reader) (expected : String) : QuestionM Reader := do
  let p := p.skipTrivia
  require ((ascii expected).isPrefixOf p.rest = true)
    (.invalid "question unsupported success policy")
  return { p with rest := p.rest.drop (ascii expected).length }

def expect (p : Reader) (expected : UInt8) : QuestionM Reader := do
  let rest ← orError (.invalid "question punctuation") (punctuation expected p.rest)
  return { p with rest }

def variableNamed (p : Reader) (word : List UInt8) : QuestionM (FreeVariable × Reader) := do
  let (x, vars) ← orError .overflow (p.vars.named word)
  return (x, { p with vars })

def readVariable (p : Reader) : QuestionM (FreeVariable × Reader) := do
  let (word, p) ← p.readName
  p.variableNamed word

/-- The names of a binder list, at most as many as the depth limit; without a list there is one. -/
def bindersFrom (list : Bool) : ℕ → List FreeVariable → Reader →
    QuestionM (List FreeVariable × Reader)
  | 0, _, _ => .error (.limit "question expansion depth")
  | remaining + 1, result, p => do
    let (x, p) ← p.readVariable
    if list = false then return (result ++ [x], p)
    else
      match punctuation 0x5d p.rest with
      | some rest => return (result ++ [x], { p with rest })
      | none => do
        let p ← p.expect 0x2c
        match punctuation 0x5d p.rest with
        | some rest => return (result ++ [x], { p with rest })
        | none => bindersFrom list remaining (result ++ [x]) p

def binders (p : Reader) : QuestionM (List FreeVariable × Reader) :=
  match punctuation 0x5b p.rest with
  | some rest => bindersFrom true formulaMaxDepth [] { p with rest }
  | none => bindersFrom false formulaMaxDepth [] p

def atom (p : Reader) (make : FreeVariable → FreeVariable → Formula) (negated : Bool) :
    QuestionM (Parsed × Reader) := do
  let (left, p) ← p.readVariable
  let p ← p.expect 0x2c
  let (right, p) ← p.readVariable
  let formula := make left right
  return (if negated then ⟨formula.negate, 2, 2⟩ else ⟨formula, 1, 1⟩, p)

/-- A binding stands for its formula. -/
def reference (p : Reader) (word : List UInt8) (depth : ℕ) : QuestionM (Parsed × Reader) := do
  let binding ← orError (.invalid "question unknown formula binding") (p.bindings.lookup word)
  p.bounded binding.nodes (depth - 1 + binding.depth)
  return (binding, p)

def quantified (p : Reader) (existential : Bool) (xs : List FreeVariable) (body : Parsed)
    (depth : ℕ) : QuestionM Parsed := do
  let extra := xs.length * quantifierLevels existential
  p.bounded (body.nodes + extra) (depth - 1 + (body.depth + extra))
  return ⟨xs.foldr (bindVariable existential) body.formula, body.nodes + extra,
    body.depth + extra⟩

def negated (p : Reader) (body : Parsed) (depth : ℕ) : QuestionM Parsed := do
  p.bounded (body.nodes + 1) (depth - 1 + (body.depth + 1))
  return ⟨body.formula.negate, body.nodes + 1, body.depth + 1⟩

def binary (p : Reader) (connective : Connective) (left right : Parsed) (depth : ℕ) :
    QuestionM Parsed := do
  let (nodes, height) := binaryShape connective (left.nodes, left.depth) (right.nodes, right.depth)
  p.bounded nodes (depth - 1 + height)
  return ⟨connect connective left.formula right.formula, nodes, height⟩

/-- The inside of a call; the formulas in it are read by `parse`. -/
def callBody (parse : ℕ → Reader → QuestionM (Parsed × Reader)) (word : List UInt8) (depth : ℕ)
    (p : Reader) : QuestionM (Parsed × Reader) :=
  match Operator.parse word with
  | some .equal => p.atom .equal false
  | some .member => p.atom .member false
  | some .unequal => p.atom .equal true
  | some (.quantifier existential) => do
    let (xs, p) ← p.binders
    let p ← p.expect 0x2c
    let extra := xs.length * quantifierLevels existential
    p.bounded (extra + 1) (depth + extra)
    let (body, p) ← parse (depth + extra) p
    let parsed ← p.quantified existential xs body depth
    return (parsed, p)
  | some .not => do
    let (body, p) ← parse (depth + 1) p
    let parsed ← p.negated body depth
    return (parsed, p)
  | some (.binary connective) => do
    let (left, p) ← parse (depth + 1) p
    let p ← p.expect 0x2c
    let (right, p) ← parse (depth + 1) p
    let parsed ← p.binary connective left right depth
    return (parsed, p)
  | none => .error (.invalid "question unknown formula or unapproved reference")

/-- A call ends with a parenthesis, behind an optional comma. -/
def finish (p : Reader) (parsed : Parsed) (depth : ℕ) : QuestionM (Parsed × Reader) := do
  p.bounded parsed.nodes (depth - 1 + parsed.depth)
  let p := match punctuation 0x2c p.rest with
    | some rest => { p with rest }
    | none => p
  let p ← p.expect 0x29
  return (parsed, p)

/-- Every formula in a formula is deeper, so the levels above the depth limit bound the recursion. -/
def parse : ℕ → ℕ → Reader → QuestionM (Parsed × Reader)
  | 0, _, _ => .error (.limit "question expansion depth")
  | levels + 1, depth, p => do
    p.bounded 0 depth
    let (word, p) ← p.readName
    match punctuation 0x28 p.rest with
    | none => p.reference word depth
    | some rest => do
      let (parsed, p) ← callBody (parse levels) word depth { p with rest }
      p.finish parsed depth

def formula (p : Reader) : QuestionM (Parsed × Reader) := parse formulaMaxDepth 1 p

def bindingName (p : Reader) : QuestionM (List UInt8 × Reader) := do
  let (word, p) ← p.readName
  require (isReservedBindingName word = false) (.invalid "question reserved formula binding")
  require ((p.bindings.lookup word).isNone = true) (.invalid "question duplicate formula binding")
  return (word, p)

/-- One binding. The formulas of all bindings share one allowance. -/
def formulaBinding (p : Reader) : QuestionM Reader := do
  let (word, p) ← p.bindingName
  let p ← p.expect 0x3d
  let allowance := p.maximumNodes
  let (parsed, p) ← formula { p with maximumNodes := questionTargetMaxNodes - p.bindingNodes }
  return { p with
    bindingNodes := p.bindingNodes + parsed.nodes
    maximumNodes := allowance
    bindings := (word, parsed) :: p.bindings }

/-- Bindings up to the goal. Each one takes a byte at least, and behind the last byte there is no
name. -/
def formulaBindingsFrom : ℕ → Reader → QuestionM Reader
  | 0, _ => .error (.invalid "question expected name")
  | bytes + 1, p => do
    let p := (← p.formulaBinding).skipTrivia
    if wordAt p.rest (ascii "goal") then return p else formulaBindingsFrom bytes p

def formulaBindings (p : Reader) : QuestionM Reader := do
  let p ← p.word "let"
  let p ← p.expect 0x3a
  formulaBindingsFrom p.rest.length p

/-- The bindings, where there are any. -/
def optionalBindings (p : Reader) : QuestionM Reader :=
  if wordAt p.skipTrivia.rest (ascii "let") then p.skipTrivia.formulaBindings
  else .ok p.skipTrivia

def statement (p : Reader) : QuestionM (Parsed × Reader) := do
  let p ← p.word "goal"
  let p ← p.expect 0x3d
  p.formula

/-- Behind the goal stands the only success policy or nothing. -/
def successPolicy (p : Reader) : QuestionM Reader :=
  if p.skipTrivia.rest = [] then .ok p.skipTrivia
  else do
    let p ← p.skipTrivia.word "success"
    let p ← p.expect 0x3d
    p.literal "\"resolve\""

def goal (p : Reader) : QuestionM Parsed := do
  let p ← p.optionalBindings
  let (parsed, p) ← p.statement
  let p ← p.successPolicy
  require (p.skipTrivia.rest = []) (.invalid "question trailing source")
  return parsed

end Reader

/-- The parser at the start of a text. -/
def start (text : List UInt8) : Reader where
  rest := text
  vars := .empty
  bindings := []
  bindingNodes := 0
  maximumNodes := questionTargetMaxNodes + text.length

end CompiledQuestion

/-- A compiled closed question. -/
structure CompiledQuestion where
  source : String
  sourceHash : Digest
  target : QuestionTarget

inductive QuestionOutcome
  | proved
  | refuted
  deriving DecidableEq

namespace CompiledQuestion

def formula (q : CompiledQuestion) : Formula := q.target.formula

section

variable (sha256 : List UInt8 → Digest)

def fromParts (source : String) (formula : Formula) : Except QuestionError CompiledQuestion := do
  let target ← QuestionTarget.fromFormula sha256 formula
  return {
    source
    sourceHash := sha256 (QuestionTarget.hashInput
      (asciiBytes "naome:state:question-source:v1" ++ [0]) [sourceBytes source])
    target }

def compile (source : String) : Except QuestionError CompiledQuestion := do
  let text := sourceBytes source
  require (text.length ≤ questionSourceMaxBytes) (.limit "question source bytes")
  let parsed ← (start text).goal
  require (parsed.formula.isClosed = true) (.invalid "question has free variables")
  fromParts sha256 source parsed.formula

def fromFormula (formula : Formula) : Except QuestionError CompiledQuestion := do
  let source := "goal = " ++ formula.toSource
  require ((sourceBytes source).length ≤ questionSourceMaxBytes) (.limit "question source bytes")
  fromParts sha256 source formula

/-- Matches a checked conclusion against the two targets. -/
def classifyConclusion (q : CompiledQuestion) (conclusion : Formula) :
    Except QuestionError QuestionOutcome :=
  if conclusion = q.target.provedTarget then .ok .proved
  else if conclusion = q.target.refutedTarget then .ok .refuted
  else .error (.invalid "proof conclusion does not match a question target")

/-- The source is the sole authority; everything else is computed again. -/
def toCanonicalBytes (q : CompiledQuestion) : Except QuestionError (List UInt8) := do
  let text := sourceBytes q.source
  require (text.length < 2 ^ 32) (.limit "question source bytes")
  return 1 :: bigEndian 4 text.length ++ text

def fromCanonicalBytes (bytes : List UInt8) : Except QuestionError CompiledQuestion := do
  require (bytes.length ≤ questionSourceMaxBytes + 5) (.limit "encoded question bytes")
  let version ← orError .truncated bytes.head?
  require (version = 1) (.invalid "question codec version")
  let (length, rest) ← readBigEndian .truncated 4 bytes.tail
  require (length ≤ questionSourceMaxBytes) (.limit "question source bytes")
  require (length ≤ rest.length) .truncated
  let source ← orError (.invalid "UTF-8") (String.fromUTF8? ⟨(rest.take length).toArray⟩)
  require (rest.length = length) .trailingBytes
  compile sha256 source

end

end CompiledQuestion
end Naome
