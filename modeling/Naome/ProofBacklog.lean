import Naome.CatalogObject
import Naome.Effect

/-!
# The proof backlog

Prepared artifacts whose dependencies are missing are retained in first-in-first-out order. The
index of those that are ready is volatile: it is built once and then follows the checked context.
-/
namespace Naome

inductive BacklogError
  | message (text : String)
  | executionLimit
  /-- A violated constraint of a table. -/
  | corruptStorage
  deriving DecidableEq

structure BacklogHeader where
  next : ℕ
  cursor : Option ℕ
  deriving DecidableEq

/-- The rows of the checkpoint in the order of their keys, its header, and the volatile tables. -/
structure PendingStore where
  pending : List (ℕ × Candidate)
  proof : DigestMap ℕ
  edge : Finset (ArtifactId × ArtifactId)
  stored : BacklogHeader
  header : BacklogHeader
  scheduled : Bool
  ready : Finset ℕ
  waiting : Finset (ArtifactId × ℕ)

namespace PendingStore

abbrev Call (α : Type) := Effect PendingStore BacklogError α

def created : PendingStore := ⟨[], ∅, ∅, ⟨1, none⟩, ⟨1, none⟩, false, ∅, ∅⟩

def row (s : PendingStore) (sequence : ℕ) : Option Candidate :=
  (s.pending.find? fun r => r.1 = sequence).map Prod.snd

def contains (s : PendingStore) (id : ArtifactId) : Bool := s.proof.contains id

/-- Adds or replaces a row. -/
def put (rows : List (ℕ × Candidate)) (sequence : ℕ) (c : Candidate) : List (ℕ × Candidate) :=
  (rows.filter fun r => r.1 < sequence) ++ (sequence, c) :: rows.filter fun r => sequence < r.1

/-- What the edges reach in so many rounds. -/
def reach (edge : Finset (ArtifactId × ArtifactId)) : ℕ → Finset ArtifactId → Finset ArtifactId
  | 0, known => known
  | rounds + 1, known =>
    reach edge rounds (known ∪ (edge.filter fun e => e.1 ∈ known).image Prod.snd)

/-- Every round before the last one adds the end of another edge. -/
def hasPath (s : PendingStore) (starts : Finset ArtifactId) (target : ArtifactId) : Bool :=
  target ∈ reach s.edge s.edge.card starts

/-- Enters one row: it is ready, or it waits for every missing dependency. -/
def scheduleOne (sequence : ℕ) (dependencies context : Finset ArtifactId) : Call Unit := do
  let s ← Effect.state
  let missing := dependencies \ context
  if missing = ∅ then do
    Effect.require (sequence ∉ s.ready) .corruptStorage
    Effect.modify fun s => { s with ready := insert sequence s.ready }
  else do
    Effect.require (∀ id ∈ missing, (id, sequence) ∉ s.waiting) .corruptStorage
    Effect.modify fun s => { s with waiting := s.waiting ∪ missing.image fun id => (id, sequence) }

/-- Builds the index from the retained rows. -/
def schedule (context : Finset ArtifactId) : Call Unit := do
  let s ← Effect.state
  if s.scheduled = true then return ()
  else do
    Effect.modify fun s => { s with ready := ∅, waiting := ∅ }
    Effect.forEach (fun r => scheduleOne r.1 r.2.dependencies context) s.pending
    Effect.modify fun s => { s with scheduled := true }

/-- Wakes the rows that waited for an artifact and for nothing else. -/
def accepted (id : ArtifactId) : Call Unit := do
  let s ← Effect.state
  if s.scheduled = false then return ()
  else
    let notified := (s.waiting.filter fun w => w.1 = id).image Prod.snd
    let waiting := s.waiting.filter fun w => w.1 ≠ id
    Effect.modify fun s => { s with
      waiting
      ready := s.ready ∪ notified.filter fun sequence => ∀ w ∈ waiting, w.2 ≠ sequence }

/-- Retains an artifact unless its edges would close a cycle. Whether the disk has room and whether
the edges are searched in time are answers of the environment. -/
def insert (candidate : Candidate) (context : Finset ArtifactId) (room timely : Bool) :
    Call Unit := do
  let s ← Effect.state
  Effect.require (room = true) (.message "insufficient disk space")
  Effect.require (timely = true) .executionLimit
  Effect.require (s.hasPath candidate.dependencies candidate.id = false)
    (.message "dependency cycle")
  let sequence := s.header.next
  Effect.require (sequence + 1 < 2 ^ 64) (.message "proof backlog FIFO exhausted")
  let header : BacklogHeader := { s.header with next := sequence + 1 }
  Effect.modify fun s => { s with
    pending := put s.pending sequence candidate
    proof := s.proof.insert candidate.id sequence
    edge := s.edge ∪ candidate.dependencies.image fun id => (candidate.id, id)
    stored := header
    header }
  Effect.onlyIf s.scheduled (scheduleOne sequence candidate.dependencies context)

def remove (id : ArtifactId) : Call Unit := do
  let s ← Effect.state
  match s.proof[id]? with
  | none => return ()
  | some sequence => do
    let candidate ← Effect.orThrow (.message "proof backlog payload is missing") (s.row sequence)
    Effect.modify fun s => { s with
      pending := s.pending.filter fun r => r.1 ≠ sequence
      proof := s.proof.erase id
      edge := s.edge \ candidate.dependencies.image fun dependency => (id, dependency)
      stored := s.header }
    Effect.onlyIf s.scheduled (Effect.modify fun s => { s with
      ready := s.ready.erase sequence
      waiting := s.waiting.filter fun w => w.2 ≠ sequence })

section

variable (width : Candidate → ℕ) (closureBytes : ℕ)

def readReady (s : PendingStore) (after : Option ℕ) (limit : ℕ) : List ℕ :=
  ((s.ready.filter fun sequence => ∀ a ∈ after, a < sequence).sort (· ≤ ·)).take limit

/-- Takes rows until the next one exceeds the byte budget; the first one is always taken. -/
def takePage : List ℕ → ℕ → List Candidate → Call (List Candidate)
  | [], _, result => return result
  | sequence :: keys, used, result => do
    let s ← Effect.state
    let candidate ← Effect.orThrow (.message "ready backlog record missing") (s.row sequence)
    if result ≠ [] ∧ closureBytes - used < width candidate then return result
    else do
      Effect.modify fun s => { s with header := { s.header with cursor := some sequence } }
      takePage keys (used + width candidate) (result ++ [candidate])

/-- The next ready rows behind the cursor, or again from the first one. -/
def nextPage (limit : ℕ) : Call (List Candidate) := do
  let s ← Effect.state
  Effect.require (s.scheduled = true) (.message "proof backlog readiness not initialized")
  let keys := s.readReady s.header.cursor limit
  let keys := if keys = [] then s.readReady none limit else keys
  takePage width closureBytes keys 0 []

end

def checkRow (s : PendingStore) (r : ℕ × Candidate) : Except BacklogError Unit := do
  Outcome.require (r.1 ≠ 0 ∧ r.1 < s.stored.next)
    (.message "proof backlog FIFO sequence differs")
  Outcome.require (s.proof[r.2.id]? = some r.1) (.message "proof backlog identity index differs")
  Outcome.require (∀ dependency ∈ r.2.dependencies, (r.2.id, dependency) ∈ s.edge)
    (.message "proof backlog dependency index differs")

/-- Checks the durable rows; nothing volatile is kept. -/
def reopen (s : PendingStore) : Except BacklogError PendingStore := do
  Outcome.require (s.stored.next ≠ 0) (.message "proof backlog version or sequence differs")
  s.pending.forM s.checkRow
  Outcome.require (s.proof.size = s.pending.length ∧
    s.edge.card = (s.pending.map fun r => r.2.dependencies.card).sum)
    (.message "proof backlog index cardinality differs")
  return { s with header := s.stored, scheduled := false, ready := ∅, waiting := ∅ }

end PendingStore

/-- A backlog beside the checked context, with the artifacts that were inserted and not removed
since, and those that pages have returned. -/
structure Backlog where
  store : PendingStore
  context : Finset ArtifactId
  held : List Candidate
  visited : List Candidate

namespace Backlog

inductive Call
  | insert (candidate : Candidate) (room timely : Bool)
  | remove (id : ArtifactId)
  | schedule
  /-- Artifacts enter the context together, and the backlog is told each of them. -/
  | admission (ids : List ArtifactId)
  | nextPage (limit closureBytes : ℕ)
  /-- The process starts again beside a context that it has checked again. -/
  | reopen (context : Finset ArtifactId)

variable (width : Candidate → ℕ)

def perform (w : Backlog) : Call → Backlog
  | .insert candidate room timely =>
    -- an artifact that waits already is answered as a duplicate
    if w.store.contains candidate.id then w
    else match (PendingStore.insert candidate w.context room timely).run w.store with
    | (.ok _, store) => { w with store, held := w.held ++ [candidate] }
    | (.error _, store) => { w with store }
  | .remove id =>
    match (PendingStore.remove id).run w.store with
    | (.ok _, store) => { w with store, held := w.held.filter fun c => c.id ≠ id }
    | (.error _, store) => { w with store }
  | .schedule => { w with store := ((PendingStore.schedule w.context).run w.store).2 }
  | .admission ids => { w with
      context := w.context ∪ ids.toFinset
      store := ((Effect.forEach PendingStore.accepted ids).run w.store).2 }
  | .nextPage limit closureBytes =>
    match (PendingStore.nextPage width closureBytes limit).run w.store with
    | (.ok page, store) => { w with store, visited := w.visited ++ page }
    | (.error _, store) => { w with store }
  | .reopen context =>
    match w.store.reopen with
    | .ok store => { w with store, context }
    | .error _ => w

inductive Reached : Backlog → Prop
  | created (context : Finset ArtifactId) : Reached ⟨.created, context, [], []⟩
  | perform {w : Backlog} (h : Reached w) (call : Call) : Reached (w.perform width call)

end Backlog
end Naome
