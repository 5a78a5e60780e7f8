import Naome.CatalogObject
import Naome.DeferredSearch
import Naome.QuestionFeatures

/-!
# The selection of training examples

A graph holds the artifacts that were admitted, each after its dependencies. The selection reads one
page of its inventory and loads the checked closure of every eligible proof.
-/
namespace Naome
namespace Training
open Outcome

/-- The header of a checked proof; a conclusion beyond the work limit is not read. -/
structure CheckedHeader where
  statement : StatementId
  canonicalLength : ℕ
  conclusion : Option Formula

/-- A checked artifact: an object beside a proof header, or the length of a definition. -/
structure GraphArtifact where
  object : BinaryArtifact
  header : Option CheckedHeader
  definitionLength : Option ℕ

/-- The artifacts in the order of their admissions, and the proofs that witness statements. -/
structure TrainingGraph where
  artifacts : List GraphArtifact
  witness : StatementId → Option ArtifactId

structure TrainingLimits where
  closureObjects : ℕ
  closureBytes : ℕ
  proofBytes : ℕ
  closureSteps : ℕ
  idPage : ℕ

namespace TrainingGraph

def ids (g : TrainingGraph) : Finset ArtifactId := (g.artifacts.map fun a => a.object.id).toFinset

def artifact (g : TrainingGraph) (id : ArtifactId) : Option GraphArtifact :=
  g.artifacts.find? fun a => a.object.id = id

/-- Identities in the order of their bytes. -/
def ascending (ids : Finset ArtifactId) : List ArtifactId :=
  ((ids.image BitVec.toNat).sort (· ≤ ·)).map (BitVec.ofNat 256)

def idsPage (g : TrainingGraph) (after : Option ArtifactId) (limit : ℕ) : List ArtifactId :=
  ((ascending g.ids).filter fun id => ∀ a ∈ after, a.toNat < id.toNat).take limit

end TrainingGraph

/-- The description of a proof: its statement and the core of the question it answers. -/
structure Metadata where
  statement : StatementId
  core : Formula

structure Example where
  question : QuestionTarget
  context : List BinaryArtifact
  proof : BinaryArtifact
  refuted : Bool

inductive Omission
  | unsupported
  | otherSplit
  deriving DecidableEq

/-- A closure is left out, or the selection fails. -/
inductive LoadStop
  | omitted (omission : Omission)
  | failed (error : KnowledgeError)

abbrev LoadM := Except LoadStop

structure LoadState where
  bytes : ℕ
  cost : ℕ
  target : Option (QuestionTarget × Bool)

section

variable (sha256 : List UInt8 → Digest)

def targetId (formula : Formula) : KnowledgeM StatementId := do
  let bytes ← formula.encodeCanonical.mapError fun _ => .message "formula encoding"
  return Checker.statementId sha256 bytes

/-- The text of the question is that of the core; what is read back from it is an answer of the
parser. -/
def Metadata.compile (parse : Formula → Except String Formula) (metadata : Metadata) :
    KnowledgeM (StatementId × QuestionTarget) := do
  let formula ← (parse metadata.core).mapError .message
  let question ← (QuestionTarget.fromFormula sha256 formula).mapError fun _ =>
    .message "question target"
  let positive ← targetId sha256 question.positiveTarget
  let negative ← targetId sha256 question.negativeTarget
  require (metadata.statement = positive ∨ metadata.statement = negative)
    (.message "description statement does not match a question target")
  return (metadata.statement, question)

/-- An object as the retained envelope is prepared. -/
def prepareObject (object : BinaryArtifact) : KnowledgeM Candidate := do
  require (object.bytes.length ≤ artifactPayloadMaxBytes) (.inputLimit "artifact byte limit")
  prepareCandidate sha256 object.id object.statement object.obligation object.bytes
    certificateMaxSteps

variable (parse : Formula → Except String Formula) (limits : TrainingLimits) (g : TrainingGraph)

/-- Proofs without a question of the right form have no description. -/
def describe (id : ArtifactId) : Option Metadata := do
  let a ← g.artifact id
  let header ← a.header
  guard (header.canonicalLength ≤ limits.proofBytes)
  let conclusion ← header.conclusion
  match QuestionTarget.fromFormula sha256 conclusion with
  | .error _ => none
  | .ok derived =>
    guard (derived.formula = derived.positiveTarget ∨ derived.formula = derived.negativeTarget)
    return ⟨header.statement, derived.core⟩

/-- The steps of a proof, and the target when it is the root; definitions state no question. -/
def account (root id : ArtifactId) (state : LoadState) :
    CandidatePayload → LoadM (ℕ × Option (QuestionTarget × Bool))
  | .definition _ => .ok (state.cost, state.target)
  | .proof normal => do
    let metadata ← orError (.omitted .unsupported) (describe sha256 limits g id)
    let (statement, question) ← (metadata.compile sha256 parse).mapError .failed
    require (partition sha256 question = .training) (.omitted .otherSplit)
    let cost := state.cost + normal.certificate.steps.length
    if id = root then do
      let positive ← (targetId sha256 question.positiveTarget).mapError .failed
      return (cost, some (question, decide (statement ≠ positive)))
    else return (cost, state.target)

/-- Checks one artifact of a closure. -/
def enter (root id : ArtifactId) (state : LoadState) :
    LoadM (BinaryArtifact × List ArtifactId × LoadState) := do
  let a ← orError (.failed (.message "training closure is not checked")) (g.artifact id)
  let length := match a.header with
    | some header => header.canonicalLength
    | none => a.definitionLength.getD 0
  let bytes := state.bytes + length
  require (bytes ≤ limits.closureBytes ∧ length ≤ limits.proofBytes) (.omitted .unsupported)
  -- Programs have no certificate to learn from.
  require (a.object.bytes.head? ≠ some 0xff) (.omitted .unsupported)
  let candidate ← (prepareObject sha256 a.object).mapError .failed
  let (cost, target) ← account sha256 parse limits g root id state candidate.payload
  require (cost ≤ limits.closureSteps) (.omitted .unsupported)
  return (a.object, TrainingGraph.ascending candidate.dependencies, ⟨bytes, cost, target⟩)

def load (root : ArtifactId) : LoadM Example := do
  let (ordered, state) ← DeferredSearch.search (enter sha256 parse limits g root)
    (.omitted .unsupported) (.failed (.message "training dependency order differs"))
    limits.closureObjects [(root, false)] ∅ [] [] ⟨0, 0, none⟩
  let (question, refuted) ← orError (.omitted .unsupported) state.target
  let proof ← orError (.failed (.message "training target closure is empty")) ordered.getLast?
  return ⟨question, ordered.dropLast, proof, refuted⟩

/-- Only the proof that witnesses its statement is an example. -/
def canonical (id : ArtifactId) : Bool :=
  match (g.artifact id).bind GraphArtifact.header with
  | none => false
  | some header => g.witness header.statement = some id

/-- The eligible proofs of a page, one for each resolution that was not seen before. -/
def candidates : List ArtifactId → Finset Digest → KnowledgeM (List Example)
  | [], _ => return []
  | id :: ids, seen =>
    match describe sha256 limits g id with
    | none => candidates ids seen
    | some metadata =>
      if canonical g id = false then candidates ids seen
      else do
        let (_, question) ← metadata.compile sha256 parse
        if partition sha256 question ≠ .training then candidates ids seen
        else if question.resolutionId ∈ seen then candidates ids seen
        else
          match load sha256 parse limits g id with
          | .error (.failed error) => .error error
          | .error (.omitted _) => candidates ids (insert question.resolutionId seen)
          | .ok ex => return ex :: (← candidates ids (insert question.resolutionId seen))

end

/-- Draws examples by the indices that the sampler chooses. -/
def draw : ℕ → List ℕ → List Example → KnowledgeM (List Example)
  | 0, _, _ => return []
  | take + 1, indices, examples =>
    if examples = [] then return []
    else
      match indices with
      | [] => .error (.message "no index")
      | index :: indices => do
        let ex ← orError (.message "index out of range") examples[index]?
        return ex :: (← draw take indices (examples.eraseIdx index))

structure Request where
  after : Option ArtifactId
  scan : ℕ
  take : ℕ

structure Batch where
  scanned : List ArtifactId
  nextAfter : Option ArtifactId
  examples : List Example

/-- The priorities of the sampler and its random numbers only choose the indices. -/
def select (sha256 : List UInt8 → Digest) (parse : Formula → Except String Formula)
    (limits : TrainingLimits) (g : TrainingGraph) (indices : List ℕ) (request : Request) :
    KnowledgeM Batch := do
  require (request.scan ≠ 0 ∧ request.scan ≤ min limits.idPage 16 ∧ request.take ≠ 0 ∧
    request.take ≤ request.scan) (.inputLimit "training selection page limit")
  let ids := g.idsPage request.after request.scan
  let examples ← candidates sha256 parse limits g ids ∅
  let examples ← draw request.take indices examples
  return ⟨ids, if ids.length = request.scan then ids.getLast? else none, examples⟩

/-- What the checker and the preparation of an artifact guarantee when it is admitted. -/
structure GraphArtifact.Checked (sha256 : List UInt8 → Digest) (a : GraphArtifact) : Prop where
  statement : ∀ header conclusion, a.header = some header → header.conclusion = some conclusion →
    header.statement = Checker.statementId sha256 conclusion.canonicalBytes
  prepared : a.object.bytes.head? ≠ some 0xff → ∃ maximum c,
    prepareCandidate sha256 a.object.id a.object.statement a.object.obligation a.object.bytes
      maximum = .ok c ∧ c.record = a.object

/-- The graphs that admissions build, with any witnesses. -/
inductive Admitted (sha256 : List UInt8 → Digest) : List GraphArtifact → Prop
  | empty : Admitted sha256 []
  | append {artifacts : List GraphArtifact} (h : Admitted sha256 artifacts) {a : GraphArtifact}
    (hchecked : a.Checked sha256) (hnew : ∀ b ∈ artifacts, b.object.id ≠ a.object.id)
    (hdependencies : ∀ d ∈ a.object.dependencies, ∃ b ∈ artifacts, b.object.id = d) :
    Admitted sha256 (artifacts ++ [a])

end Training
end Naome
