import Naome.ProofStep

/-!
# Checked contexts

The read access of the checker to already checked artifacts. A view answers every query by
a pure function of one immutable snapshot. Only contexts owned by the checker implement it,
and they store nothing but conclusions of checked proofs.
-/
namespace Naome
open Outcome

abbrev StatementId := Digest

abbrev DerivationId := Digest

abbrev ArtifactId := Digest

inductive ContextError
  | storage (message : String)
  | corrupt
  | limit
  deriving DecidableEq, Repr

def ContextError.ofAccess : DefinitionAccessError → ContextError
  | .storage message => .storage message
  | .corrupt => .corrupt
  | .limit => .limit

def ContextError.toAccess : ContextError → DefinitionAccessError
  | .storage message => .storage message
  | .corrupt => .corrupt
  | .limit => .limit

inductive BucketKind
  | outgoing
  | deductions
  | instances
  deriving DecidableEq, Repr

/-- Proof metadata, read before its formula. -/
structure ProofHeader where
  derivation : DerivationId
  statement : StatementId
  length : ℕ
  deriving DecidableEq

/-- The least proof of an accepted statement. -/
structure StatementHeader where
  proof : ProofId
  length : ℕ
  deriving DecidableEq

structure ContextView where
  snapshotId : Digest
  containsArtifact : ArtifactId → Except ContextError Bool
  proofHeader : ProofId → Except ContextError (Option ProofHeader)
  statementHeader : StatementId → Except ContextError (Option StatementHeader)
  statementFormula : StatementId → ℕ → Except ContextError (Option Formula)
  proofFormula : ProofHeader → ℕ → Except ContextError (Option Formula)
  bucket : BucketKind → StatementId → Except ContextError (List (Except ContextError StatementId))
  definitionCertificate : DefinitionId → Except ContextError (Option DefinitionCertificate)
  closed : ∀ header maximum f, proofFormula header maximum = .ok (some f) → f.isClosed = true

namespace ContextView

def resolveDefinition (ctx : ContextView) : DefinitionResolver := fun id =>
  (ctx.definitionCertificate id).mapError ContextError.toAccess |>.map
    (Option.map DefinitionCertificate.resolution)

/-- The view of a context without artifacts. -/
def empty (snapshotId : Digest) : ContextView where
  snapshotId := snapshotId
  containsArtifact _ := .ok false
  proofHeader _ := .ok none
  statementHeader _ := .ok none
  statementFormula _ _ := .ok none
  proofFormula _ _ := .ok none
  bucket _ _ := .ok []
  definitionCertificate _ := .ok none
  closed _ _ _ h := by cases h

/-- The formula `f` is what the view returns for the proof `id`. -/
def Cites (ctx : ContextView) (id : ProofId) (f : Formula) : Prop :=
  ∃ header, ctx.proofHeader id = .ok (some header) ∧
    ctx.proofFormula header header.length = .ok (some f)

end ContextView
end Naome
