import Naome.DefinitionMeaning
import Naome.NodeInterning

/-!
# Streamed definition bodies

A definition application of a large formula is never expanded into a tree. An iterator reads the
canonical bytes of the body node by node and replaces formal variables by arguments; a stack of
frames rebuilds the nodes into the graph of the evaluator, one node for each call.
-/
namespace Naome
open LocallyNameless Outcome FormulaCodec ByteCursor DefinitionExpansion

/-- A traversal of one certificate. `pending` holds the depth and the binders of the subtrees that
are still to be read, the next one first. -/
structure DefinitionInstantiation where
  canonical : List UInt8
  arguments : List UInt32
  position : ℕ
  pending : List (ℕ × ℕ)
  visited : ℕ
  failed : Bool

namespace DefinitionInstantiation

def corrupt : DefinitionExpansionError := .access .corrupt

/-- The application has the same logical charge as in an expansion. -/
def new (certificate : DefinitionCertificate) (arguments : List UInt32) :
    Except DefinitionExpansionError DefinitionInstantiation := do
  require (arguments.length = certificate.relationArity)
    (.arityMismatch certificate.definitionId certificate.relationArity arguments.length)
  return ⟨certificate.canonical, arguments, 9, [(0, 0)], 1, false⟩

def complete (it : DefinitionInstantiation) : Bool :=
  !it.failed && it.pending.isEmpty && it.position = it.canonical.length

def readFormal (binders : ℕ) (arguments : List UInt32) (bytes : List UInt8) :
    Except DefinitionExpansionError (Variable FreeVariable × List UInt8) := do
  let (x, bytes) ← (decodeVariable binders bytes).mapError fun _ => corrupt
  match x with
  | .bound index => return (.bound index, bytes)
  | .free formal => do
    let argument ← orError (.undeclaredFormalVariable formal.identifier)
      arguments[formal.identifier.toNat]?
    return (.free ⟨argument⟩, bytes)

/-- One node at a position of the canonical bytes, and the position after it. -/
def instantiatePrefix (bytes : List UInt8) (position binders : ℕ) (arguments : List UInt32) :
    Except DefinitionExpansionError (GraphNode Unit × ℕ) := do
  let (tag, rest) ← readU8 corrupt (bytes.drop position)
  if tag = 0x00 then
    let (left, rest) ← readFormal binders arguments rest
    let (right, rest) ← readFormal binders arguments rest
    return (.equal left right, bytes.length - rest.length)
  else if tag = 0x01 then
    let (element, rest) ← readFormal binders arguments rest
    let (set, rest) ← readFormal binders arguments rest
    return (.member element set, bytes.length - rest.length)
  else if tag = 0x02 then return (.not (), bytes.length - rest.length)
  else if tag = 0x03 then return (.implies () (), bytes.length - rest.length)
  else if tag = 0x04 then return (.forAll (), bytes.length - rest.length)
  else .error corrupt

/-- The subtrees below a node that was read at this depth. -/
def below (depth binders : ℕ) : GraphNode Unit → List (ℕ × ℕ)
  | .not () => [(depth + 1, binders)]
  | .implies () () => [(depth + 1, binders), (depth + 1, binders)]
  | .forAll () => [(depth + 1, binders + 1)]
  | _ => []

def step (it : DefinitionInstantiation) (depth binders : ℕ) :
    Except DefinitionExpansionError (GraphNode Unit × DefinitionInstantiation) := do
  require (it.visited ≠ formulaMaxNodes) (.nodeLimitExceeded formulaMaxNodes)
  require (depth < formulaMaxDepth) (.depthLimitExceeded formulaMaxDepth)
  let (node, position) ← instantiatePrefix it.canonical it.position binders it.arguments
  return (node, { it with
    position
    pending := below depth binders node ++ it.pending
    visited := it.visited + 1 })

/-- After an error there are no more items. -/
def next (it : DefinitionInstantiation) :
    Option (Except DefinitionExpansionError (GraphNode Unit)) × DefinitionInstantiation :=
  if it.failed then (none, it)
  else
    match it.pending with
    | (depth, binders) :: pending =>
      let it := { it with pending }
      match it.step depth binders with
      | .ok (node, it) => (some (.ok node), it)
      | .error e => (some (.error e), { it with failed := true })
    | [] =>
      if it.position = it.canonical.length then (none, it)
      else (some (.error corrupt), { it with failed := true })

/-- The items of at most this many calls. -/
def collect : ℕ → DefinitionInstantiation →
    List (Except DefinitionExpansionError (GraphNode Unit)) × DefinitionInstantiation
  | 0, it => ([], it)
  | calls + 1, it =>
    match it.next with
    | (none, it) => ([], it)
    | (some item, it) => (item :: (collect calls it).1, (collect calls it).2)

end DefinitionInstantiation

inductive Frame
  | not
  | forAll
  | implies (left : Option ℕ)
  deriving DecidableEq, Repr

structure DefinitionEvaluation where
  id : DefinitionId
  nodes : DefinitionInstantiation
  frames : List Frame
  value : Option ℕ

inductive EvaluationError
  | context (reason : ContextError)
  | check (reason : DefinitionExpansionError)
  | storage (message : String)
  deriving DecidableEq, Repr

/-- What the evaluation of a definition reads and changes: the graph, the definitions recorded as
checked, and the evaluation itself. -/
structure Evaluating where
  store : NodeStore
  checkedDefinitions : List DefinitionId
  definition : Option DefinitionEvaluation

namespace Evaluating

/-- An error of the traversal, as the engine reports it. -/
def expansionFault : DefinitionExpansionError → EvaluationError
  | .access source => .context (.ofAccess source)
  | source => .check source

def beginDefinition (certificate : DefinitionCertificate) (arguments : List UInt32) :
    Except EvaluationError DefinitionEvaluation := do
  let nodes ← (DefinitionInstantiation.new certificate arguments).mapError expansionFault
  return ⟨certificate.definitionId, nodes, [], none⟩

section

variable (sha256 : List UInt8 → Digest)

/-- Interns a node and makes its address the value. -/
def internValue (s : Evaluating) (definition : DefinitionEvaluation) (node : GraphNode ℕ) :
    Except EvaluationError (Option ℕ × Evaluating) := do
  let (address, store) ← (s.store.intern sha256 node).mapError .storage
  return (none, { s with store, definition := some { definition with value := some address } })

/-- A value completes the frame on top, or the whole definition. -/
def completeFrame (s : Evaluating) (definition : DefinitionEvaluation) (value : ℕ) :
    Except EvaluationError (Option ℕ × Evaluating) :=
  match definition.frames with
  | [] => do
    require (definition.nodes.complete = true) (.context .corrupt)
    return (some value, { s with
      checkedDefinitions := s.checkedDefinitions.insert definition.id
      definition := none })
  | .not :: frames => s.internValue sha256 { definition with frames } (.not value)
  | .forAll :: frames => s.internValue sha256 { definition with frames } (.forAll value)
  | .implies none :: frames => return (none, { s with
      definition := some { definition with frames := .implies (some value) :: frames } })
  | .implies (some left) :: frames =>
    s.internValue sha256 { definition with frames } (.implies left value)

/-- A node of the stream opens a frame or is a leaf. -/
def openFrame (s : Evaluating) (definition : DefinitionEvaluation) (node : GraphNode Unit) :
    Except EvaluationError (Option ℕ × Evaluating) :=
  let opened (frame : Frame) : Option ℕ × Evaluating := (none, { s with
    definition := some { definition with frames := frame :: definition.frames } })
  match node with
  | .equal left right => s.internValue sha256 definition (.equal left right)
  | .member element set => s.internValue sha256 definition (.member element set)
  | .not () => .ok (opened .not)
  | .forAll () => .ok (opened .forAll)
  | .implies () () => .ok (opened (.implies none))

/-- One call; the address of the instantiated body once it is complete. -/
def advanceDefinition (s : Evaluating) : Except EvaluationError (Option ℕ × Evaluating) := do
  let definition ← orError (.context .corrupt) s.definition
  match definition.value with
  | some value => s.completeFrame sha256 { definition with value := none } value
  | none => do
    let (item, nodes) := definition.nodes.next
    let item ← orError (.context .corrupt) item
    let node ← item.mapError expansionFault
    s.openFrame sha256 { definition with nodes } node

/-- At most this many calls. -/
def run : ℕ → Evaluating → Except EvaluationError (Option ℕ × Evaluating)
  | 0, s => .ok (none, s)
  | calls + 1, s => do
    match ← s.advanceDefinition sha256 with
    | (some value, s) => return (some value, s)
    | (none, s) => run calls s

end
end Evaluating
end Naome
