import Naome.Checker

/-!
# The knowledge index

Structural projections of stored conclusions, by which the question prefilter finds the
conclusions that could yield a target. A projection is a lookup hint and never a proof.
-/
namespace Naome
open LocallyNameless Outcome ByteCursor

/-- Finite maps and sets with the order of raw digest bytes. -/
abbrev DigestMap (V : Type) := Std.TreeMap Digest V

abbrev DigestSet := Std.TreeSet Digest

/-- One encoding shared by all projections of an implication spine. -/
structure CanonicalImplication where
  bytes : List UInt8
  antecedentEnd : ℕ
  consequentStarts : List ℕ

namespace CanonicalImplication

def antecedent (c : CanonicalImplication) : List UInt8 := (c.bytes.take c.antecedentEnd).drop 1

def consequents (c : CanonicalImplication) : List (List UInt8) :=
  c.consequentStarts.map fun start => c.bytes.drop start

end CanonicalImplication

/-- The encoded length of a primitive tree. -/
def PrimitiveNode.width : PrimitiveNode → ℕ
  | .equal _ _ | .member _ _ => 11
  | .not body | .forAll body => 1 + width body
  | .implies left right => 1 + width left + width right
  | .definedRelation s _ => s.elim

/-- The offsets of the consequents of an implication spine that starts at `offset`. -/
def PrimitiveNode.consequentOffsets : ℕ → PrimitiveNode → List ℕ
  | offset, .implies left right =>
    (offset + 1 + width left) :: consequentOffsets (offset + 1 + width left) right
  | _, _ => []

def Formula.canonicalImplication (f : Formula) :
    Except FormulaCodecError (Option CanonicalImplication) :=
  match f.node with
  | .implies left right => do
    let bytes ← f.encodeCanonical
    let starts := PrimitiveNode.consequentOffsets 0 (.implies left right)
    return some ⟨bytes, starts.headD 0, starts⟩
  | _ => .ok none

structure AssessmentLimits where
  formulaNodes : ℕ
  dependencies : ℕ
  operations : ℕ
  formulaWorkBytes : ℕ
  certificateSteps : ℕ
  certificateBytes : ℕ
  deriving DecidableEq, Repr

namespace AssessmentLimits

def maximum : AssessmentLimits where
  formulaNodes := 1024
  dependencies := 64
  operations := 32768
  formulaWorkBytes := 64 * 1024 * 1024
  certificateSteps := certificateMaxSteps
  certificateBytes := certificateMaxBytes

def values (l : AssessmentLimits) : List ℕ :=
  [l.formulaNodes, l.dependencies, l.operations, l.formulaWorkBytes, l.certificateSteps,
    l.certificateBytes]

end AssessmentLimits

def questionSourceMaxBytes : ℕ := 16 * 1024

def questionTargetMaxNodes : ℕ := 1024

def questionTargetMaxDepth : ℕ := 32

structure UniversalInstance where
  formula : Formula
  steps : List ProofStep

/-- The instances at the remaining levels, each as it is and closed by one quantifier. -/
def universalInstancesFrom (current : Formula) (steps : List ProofStep) :
    List UInt32 → List UniversalInstance
  | [] => []
  | level :: levels =>
    let fresh : FreeVariable := ⟨2 + level⟩
    let replacement : FreeVariable := ⟨0⟩
    match current.openOuterUniversal fresh with
    | none => []
    | some body =>
      let current := body.substituteFree fresh replacement
      let steps' := steps ++ [.universalInstantiation fresh replacement (.primitive body),
        .modusPonens (steps.length - 1) steps.length]
      ⟨current, steps'⟩ ::
        ⟨Logic.generalization replacement current,
          steps' ++ [.generalization (steps'.length - 1) replacement]⟩ ::
        universalInstancesFrom current steps' levels

def universalInstances (proofId : ProofId) (premise : Formula) : List UniversalInstance :=
  universalInstancesFrom premise [.proofReference proofId] [0, 1]

namespace Instantiation

/-- The question rules open at most this many outer binders. -/
def maxInstantiations : ℕ := questionTargetMaxDepth

section

variable (sha256 : List UInt8 → Digest)

/-- A domain-separated query key, never the identity of a statement. -/
def bytesKey (bytes : List UInt8) : StatementId :=
  sha256 (asciiBytes "naome:question:universal-pattern" ++ [0] ++ bytes)

/-- The formula with every free variable replaced by one wildcard. -/
def wildcard (f : Formula) : Formula := f.mapFreeVariables fun _ => ⟨0⟩

variable {ε : Type}

def key (f : Formula) : Except (Stop ε) StatementId := do
  let bytes ← (wildcard f).encodeCanonical.mapError fun _ => .panic
  return bytesKey sha256 bytes

/-- The greatest identifier from `n` downwards that is not taken. -/
def freshIdentifier (taken : FreeVariable → Bool) : ℕ → Option ℕ
  | 0 => if taken ⟨0⟩ then none else some 0
  | n + 1 => if taken ⟨UInt32.ofNat (n + 1)⟩ then freshIdentifier taken n else some (n + 1)

/-- Opens up to `count` outer binders, each with a fresh variable. -/
def openFrom (excluded : Std.TreeSet FreeVariable) :
    ℕ → Formula → ℕ → List FreeVariable → Except (Stop ε) (Formula × List FreeVariable)
  | 0, current, _, opened => .ok (current, opened)
  | count + 1, current, identifier, opened => do
    let identifier ← orError .panic (freshIdentifier
      (fun v => excluded.contains v || current.freeVariables.contains v) identifier)
    let v : FreeVariable := ⟨UInt32.ofNat identifier⟩
    match current.openOuterUniversal v with
    | none => return (current, opened)
    | some body =>
      require (identifier ≠ 0) .panic
      openFrom excluded count body (identifier - 1) (opened ++ [v])

def openBinders (f : Formula) (excluded : Std.TreeSet FreeVariable) :
    Except (Stop ε) (Option (Formula × List FreeVariable)) := do
  let (current, opened) ← openFrom excluded maxInstantiations f (2 ^ 32 - 1) []
  return if opened = [] then none else some (current, opened)

def projections (f : Formula) : Except (Stop ε) (List StatementId) := do
  match ← openBinders f ∅ with
  | none => return []
  | some (opened, _) =>
    let bytes ← (wildcard opened).encodeCanonical.mapError fun _ => .panic
    let parts ← (wildcard opened).canonicalImplication.mapError fun _ => .panic
    return bytesKey sha256 bytes ::
      (parts.elim [] CanonicalImplication.consequents).map (bytesKey sha256)

end

end Instantiation

abbrev Buckets := DigestMap DigestSet

structure KnowledgeIndex where
  artifacts : DigestSet
  witnesses : DigestMap ProofId
  outgoing : Buckets
  deductions : Buckets
  instances : Buckets

namespace KnowledgeIndex

def empty : KnowledgeIndex := ⟨∅, ∅, ∅, ∅, ∅⟩

/-- Adds a statement to one bucket. -/
def insert (index : Buckets) (target statement : StatementId) : Buckets :=
  Std.TreeMap.insert index target ((index[target]?.getD ∅).insert statement)

def entries (index : Buckets) (target : StatementId) : List StatementId :=
  (index[target]?.getD ∅).toList

section

variable (sha256 : List UInt8 → Digest)

def artifactIdOfProof (proof : ProofId) : ArtifactId :=
  sha256 (asciiBytes "naome:artifact:proof:v0" ++ [0] ++ digestBytes proof)

def artifactIdOfDefinition (definition : DefinitionId) : ArtifactId :=
  sha256 (asciiBytes "naome:artifact:definition:v1" ++ [0] ++ digestBytes definition)

/-- The structural projections of an implication. -/
def implicationProjections (parts : CanonicalImplication) : List (BucketKind × StatementId) :=
  (.outgoing, Checker.statementId sha256 parts.antecedent) ::
    parts.consequents.map fun consequent => (.deductions, Checker.statementId sha256 consequent)

/-- The keys of the universal instances that a bounded question can equal. -/
def instanceProjections (proof : ProofId) (f : Formula) : List (BucketKind × StatementId) :=
  (universalInstances proof f).filterMap fun candidate =>
    match candidate.formula.encodeCanonicalWithNodeLimit
        (AssessmentLimits.maximum.formulaNodes + 1) with
    | .ok (bytes, _) => some (.instances, Checker.statementId sha256 bytes)
    | .error _ => none

variable {ε : Type}

def projections (proof : ProofId) (f : Formula) :
    Except (Stop ε) (List (BucketKind × StatementId)) := do
  let parts ← f.canonicalImplication.mapError fun _ => .panic
  let keys ← Instantiation.projections sha256 f
  return parts.elim [] (implicationProjections sha256) ++ instanceProjections sha256 proof f ++
    keys.map fun key => (.instances, key)

/-- Adds a statement to the bucket of one projection. -/
def insertProjection (statement : StatementId) (index : KnowledgeIndex)
    (projection : BucketKind × StatementId) : KnowledgeIndex :=
  match projection.1 with
  | .outgoing => { index with outgoing := insert index.outgoing projection.2 statement }
  | .deductions => { index with deductions := insert index.deductions projection.2 statement }
  | .instances => { index with instances := insert index.instances projection.2 statement }

def registerDefinition (index : KnowledgeIndex) (definition : DefinitionId) : KnowledgeIndex :=
  { index with artifacts := index.artifacts.insert (artifactIdOfDefinition sha256 definition) }

def registerProof (index : KnowledgeIndex) (proof : ProofId) (statement : StatementId)
    (f : Formula) : Except (Stop ε) KnowledgeIndex :=
  let index := { index with artifacts := index.artifacts.insert (artifactIdOfProof sha256 proof) }
  match index.witnesses[statement]? with
  | some known =>
    .ok (if proof < known then { index with witnesses := index.witnesses.insert statement proof }
      else index)
  | none => do
    let found ← projections sha256 proof f
    return found.foldl (insertProjection statement)
      { index with witnesses := index.witnesses.insertIfNew statement proof }

end

/-- The statements of one bucket in ascending order. -/
def bucket (index : KnowledgeIndex) (kind : BucketKind) (target : StatementId) :
    List StatementId :=
  match kind with
  | .outgoing => entries index.outgoing target
  | .deductions => entries index.deductions target
  | .instances => entries index.instances target

end KnowledgeIndex
end Naome
