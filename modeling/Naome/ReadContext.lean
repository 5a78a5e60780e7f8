import Naome.DiskArtifactState
import Naome.Effect

/-!
# Cached reads of one operation

A context answers queries, and an operation reads it through a cache of headers, formulas and
definitions that lives as long as the operation. What is resident may change which queries reach
the context and whether an answer is borrowed, never its value.
-/
namespace Naome
open LocallyNameless Outcome

structure ReadCacheLimits where
  entries : ℕ
  bytes : ℕ
  deriving DecidableEq, Repr

def ReadCacheLimits.default : ReadCacheLimits := ⟨64, 2 * 1024 * 1024⟩

/-- A proof header with the place of its formula; a context in memory needs none. -/
abbrev LocatedProof := ProofHeader × Option FormulaLocation

abbrev LocatedStatement := StatementHeader × Option FormulaLocation

inductive ProgramRepresentation
  | formula (formula : Formula)
  | graph (root : Digest)

/-- The source of a program citation. -/
structure ProgramSource where
  proof : ProofId
  statement : StatementId
  derivation : DerivationId
  representation : ProgramRepresentation

def ProgramSource.of (id : ProofId) (header : ProofHeader)
    (representation : ProgramRepresentation) : ProgramSource :=
  ⟨id, header.statement, header.derivation, representation⟩

inductive ContextQuery
  | snapshotId
  | containsArtifact (id : ArtifactId)
  | proofHeader (id : ProofId)
  | programSource (id : ProofId)
  | statementHeader (id : StatementId)
  | statementFormula (id : StatementId) (maximum : ℕ)
  | proofFormula (header : LocatedProof) (maximum : ℕ)
  | statementFormulaFromHeader (id : StatementId) (header : LocatedStatement) (maximum : ℕ)
  | bucket (kind : BucketKind) (target : StatementId)
  | definitionCertificate (id : DefinitionId)

@[reducible] def ContextQuery.Value : ContextQuery → Type
  | snapshotId => Digest
  | containsArtifact _ => Bool
  | proofHeader _ => Option LocatedProof
  | programSource _ => Option ProgramSource
  | statementHeader _ => Option LocatedStatement
  | statementFormula _ _ => Option Formula
  | proofFormula _ _ => Option Formula
  | statementFormulaFromHeader _ _ _ => Option Formula
  | bucket _ _ => List (Except ContextError StatementId)
  | definitionCertificate _ => Option DefinitionCertificate

/-- A value that is borrowed from the context, or a copy of its own. -/
inductive Cow (α : Type)
  | borrowed (value : α)
  | owned (value : α)

def Cow.value {α : Type} : Cow α → α
  | borrowed a => a
  | owned a => a

/-- A context with everything that it remembers between queries as its state. -/
structure ContextSource (σ : Type) where
  answer : (q : ContextQuery) → Effect σ ContextError (Cow q.Value)

inductive Parsed
  | formula (id : StatementId) (length : ℕ) (formula : Formula)
  | definition (id : DefinitionId) (certificate : DefinitionCertificate)

/-- The parsed slots are written at most once. -/
structure ReadCache where
  proofs : DigestMap (Option LocatedProof)
  statements : DigestMap (Option LocatedStatement)
  parsed : List (Option Parsed)
  parsedBytes : ℕ

namespace ReadCache

def new (limits : ReadCacheLimits) : ReadCache :=
  ⟨∅, ∅, List.replicate limits.entries none, limits.entries * 512⟩

/-- A full map of headers is cleared before the next header is added. -/
def insertHeader {V : Type} (limits : ReadCacheLimits) (headers : DigestMap V) (id : Digest)
    (header : V) : DigestMap V :=
  let headers := if headers.size = limits.entries then ∅ else headers
  if 0 < limits.entries then headers.insert id header else headers

def cached (cache : ReadCache) (id : StatementId) : Option (ℕ × Formula) :=
  cache.parsed.findSome? fun
    | some (.formula known length formula) => if known = id then some (length, formula) else none
    | _ => none

def cachedDefinition (cache : ReadCache) (id : DefinitionId) : Option DefinitionCertificate :=
  cache.parsed.findSome? fun
    | some (.definition known certificate) => if known = id then some certificate else none
    | _ => none

def availableSlot (limits : ReadCacheLimits) (cache : ReadCache) (charge : ℕ) : Option ℕ :=
  if cache.parsedBytes + charge < 2 ^ 64 ∧ cache.parsedBytes + charge ≤ limits.bytes then
    cache.parsed.findIdx? Option.isNone
  else none

def fill (cache : ReadCache) (slot : ℕ) (parsed : Parsed) (charge : ℕ) : ReadCache :=
  { cache with
    parsed := cache.parsed.set slot (some parsed)
    parsedBytes := cache.parsedBytes + charge }

/-- The memory charged for a parsed record of this encoded length. -/
def charge (length : ℕ) : Option ℕ :=
  if length * 64 + 512 < 2 ^ 64 then some (length * 64 + 512) else none

end ReadCache

namespace ReadContext
open ReadCache

variable {σ : Type} (limits : ReadCacheLimits) (source : ContextSource σ)

abbrev ReadM (σ : Type) := Effect (σ × ReadCache) ContextError

def ask (q : ContextQuery) : ReadM σ (Cow q.Value) := ⟨fun s =>
  (((source.answer q).run s.1).1, (((source.answer q).run s.1).2, s.2))⟩

def update (f : ReadCache → ReadCache) : ReadM σ Unit := Effect.modify fun s => (s.1, f s.2)

/-- Keeps a copied record in a free slot while the byte budget allows it. -/
def keep {α : Type} (parsed : Parsed) (length : ℕ) (value : α) : ReadM σ (Cow α) := do
  let charge ← Effect.orThrow .limit (charge length)
  let s ← Effect.state
  match s.2.availableSlot limits charge with
  | none => return .owned value
  | some slot => do
    update fun cache => cache.fill slot parsed charge
    return .borrowed value

def remember (id : StatementId) (length : ℕ) : Cow (Option Formula) → ReadM σ (Cow (Option Formula))
  | .borrowed formula => return .borrowed formula
  | .owned none => return .owned none
  | .owned (some formula) => keep limits (.formula id length formula) length (some formula)

def proofHeader (id : ProofId) : ReadM σ (Cow (Option LocatedProof)) := do
  let s ← Effect.state
  match s.2.proofs[id]? with
  | some header => return .borrowed header
  | none => do
    let header ← ask source (.proofHeader id)
    update fun cache => { cache with proofs := insertHeader limits cache.proofs id header.value }
    return header

def statementHeader (id : StatementId) : ReadM σ (Cow (Option LocatedStatement)) := do
  let s ← Effect.state
  match s.2.statements[id]? with
  | some header => return .borrowed header
  | none => do
    let header ← ask source (.statementHeader id)
    update fun cache =>
      { cache with statements := insertHeader limits cache.statements id header.value }
    return header

def statementFormula (id : StatementId) (maximum : ℕ) : ReadM σ (Cow (Option Formula)) := do
  let s ← Effect.state
  match s.2.cached id with
  | some (length, formula) => do
    Effect.require (length ≤ maximum) .limit
    return .borrowed (some formula)
  | none =>
    match s.2.statements[id]?.join with
    | some header => do
      let formula ← ask source (.statementFormulaFromHeader id header maximum)
      remember limits id header.1.length formula
    | none => do
      let formula ← ask source (.statementFormula id maximum)
      match formula.value with
      | none => return .owned none
      | some f => do
        let bytes ← Effect.orThrow .corrupt f.encodeCanonical.toOption
        remember limits id bytes.length formula

def proofFormula (header : LocatedProof) (maximum : ℕ) : ReadM σ (Cow (Option Formula)) := do
  let s ← Effect.state
  match s.2.cached header.1.statement with
  | some _ => statementFormula limits source header.1.statement maximum
  | none => do
    let formula ← ask source (.proofFormula header maximum)
    remember limits header.1.statement header.1.length formula

def definitionCertificate (id : DefinitionId) : ReadM σ (Cow (Option DefinitionCertificate)) := do
  let s ← Effect.state
  match s.2.cachedDefinition id with
  | some certificate => return .borrowed (some certificate)
  | none => do
    match ← ask source (.definitionCertificate id) with
    | .owned (some certificate) =>
      keep limits (.definition id certificate) certificate.toCanonicalBytes.length (some certificate)
    | answer => return answer

end ReadContext

open ReadContext in
/-- A source behind a read cache is again a source. -/
def readContext {σ : Type} (limits : ReadCacheLimits) (source : ContextSource σ) :
    ContextSource (σ × ReadCache) where
  answer
    | .proofHeader id => proofHeader limits source id
    | .statementHeader id => statementHeader limits source id
    | .statementFormula id maximum => statementFormula limits source id maximum
    | .proofFormula header maximum => proofFormula limits source header maximum
    | .statementFormulaFromHeader id _ maximum => statementFormula limits source id maximum
    | .definitionCertificate id => definitionCertificate limits source id
    | .snapshotId => ask source .snapshotId
    | .containsArtifact id => ask source (.containsArtifact id)
    | .programSource id => ask source (.programSource id)
    | .bucket kind target => ask source (.bucket kind target)

/-- An operation: each query may depend on the answers so far. -/
inductive ContextProgram (α : Type)
  | done (result : α)
  | ask (q : ContextQuery) (next : Except ContextError q.Value → ContextProgram α)

/-- The answers of a context that does not change. -/
abbrev FixedView := (q : ContextQuery) → Except ContextError q.Value

namespace ContextProgram

variable {α σ : Type}

def run (source : ContextSource σ) : ContextProgram α → σ → α × σ
  | done result, s => (result, s)
  | ask q next, s =>
    (next (((source.answer q).run s).1.map Cow.value)).run source ((source.answer q).run s).2

def eval (view : FixedView) : ContextProgram α → α
  | done result => result
  | ask q next => (next (view q)).eval view

end ContextProgram

/-- A header is passed only to the snapshot that it was read from. -/
def ContextQuery.Authentic (view : FixedView) : ContextQuery → Prop
  | proofFormula header _ => ∃ id, view (.proofHeader id) = .ok (some header)
  | statementFormulaFromHeader id header _ => view (.statementHeader id) = .ok (some header)
  | _ => True

/-- The operation passes on only headers of the view. -/
def ContextProgram.Authentic {α : Type} (view : FixedView) : ContextProgram α → Prop
  | done _ => True
  | ask q next => q.Authentic view ∧ (next (view q)).Authentic view

/-- A header answers for its own statement, and formulas have encodings. -/
structure Coherent (view : FixedView) : Prop where
  encodes : ∀ {id maximum f}, view (.statementFormula id maximum) = .ok (some f) →
    ∃ bytes, f.encodeCanonical = .ok bytes
  fromHeader : ∀ {id header} maximum, view (.statementHeader id) = .ok (some header) →
    view (.statementFormulaFromHeader id header maximum) = view (.statementFormula id maximum)
  ofProof : ∀ {id header} maximum, view (.proofHeader id) = .ok (some header) →
    view (.proofFormula header maximum) = view (.statementFormula header.1.statement maximum)

/-- A copied formula: its encoded length decides every read of its statement and stands in every
header of it. -/
structure CopiedFormula (view : FixedView) (id : StatementId) (length : ℕ) (f : Formula) : Prop where
  encodes : ∃ bytes, f.encodeCanonical = .ok bytes ∧ bytes.length = length
  charged : length * 64 + 512 < 2 ^ 64
  reads : ∀ maximum, view (.statementFormula id maximum) =
    if length ≤ maximum then .ok (some f) else .error .limit
  header : ∀ header, view (.statementHeader id) = .ok (some header) → header.1.length = length
  proof : ∀ proof header, view (.proofHeader proof) = .ok (some header) →
    header.1.statement = id → header.1.length = length

/-- What is known about a copied answer. -/
def ContextQuery.Copied (view : FixedView) : (q : ContextQuery) → q.Value → Prop
  | statementFormula id _, value => ∀ f ∈ value, ∃ length, CopiedFormula view id length f
  | proofFormula header _, value =>
    ∀ f ∈ value, ∃ length, CopiedFormula view header.1.statement length f
  | statementFormulaFromHeader id _ _, value => ∀ f ∈ value, ∃ length, CopiedFormula view id length f
  | definitionCertificate _, value => ∀ c ∈ value, c.toCanonicalBytes.length * 64 + 512 < 2 ^ 64
  | _, _ => True

/-- The answer `r` to `q` has the value that the view gives. -/
structure ReadAnswer (view : FixedView) (q : ContextQuery) (r : Except ContextError (Cow q.Value)) :
    Prop where
  value : r.map Cow.value = view q
  copied : ∀ v, r = .ok (.owned v) → q.Copied view v

/-- From every state with `I` the source answers with the values of the view. -/
def Serves {σ : Type} (view : FixedView) (I : σ → Prop) (source : ContextSource σ) : Prop :=
  ∀ q, q.Authentic view →
    Effect.Spec I (source.answer q) fun r s => ReadAnswer view q r ∧ I s

theorem Serves.run {σ α : Type} {view : FixedView} {I : σ → Prop} {source : ContextSource σ}
    (h : Serves view I source) {program : ContextProgram α} (hauthentic : program.Authentic view)
    {s : σ} (hs : I s) : (program.run source s).1 = program.eval view := by
  induction program generalizing s with
  | done result => rfl
  | ask q next ih =>
    obtain ⟨hanswer, hnext⟩ := h q hauthentic.1 s hs
    simp only [ContextProgram.run, ContextProgram.eval, hanswer.value]
    exact ih (view q) hauthentic.2 hnext

def Parsed.Agrees (view : FixedView) : Parsed → Prop
  | formula id length f => CopiedFormula view id length f
  | definition id c => view (.definitionCertificate id) = .ok (some c)

/-- What is resident agrees with the view. -/
structure Resident (view : FixedView) (cache : ReadCache) : Prop where
  proofs : ∀ {id header}, cache.proofs[id]? = some header → view (.proofHeader id) = .ok header
  statements : ∀ {id header}, cache.statements[id]? = some header →
    view (.statementHeader id) = .ok header
  parsed : ∀ {p}, some p ∈ cache.parsed → p.Agrees view

section Resident

variable {view : FixedView} {cache : ReadCache} {limits : ReadCacheLimits}

theorem resident_new (view : FixedView) (limits : ReadCacheLimits) :
    Resident view (.new limits) where
  proofs h := by cases h
  statements h := by cases h
  parsed h := by cases (List.eq_of_mem_replicate h)

theorem getElem?_insertHeader {V : Type} {headers : DigestMap V} {id known : Digest} {header v : V}
    (h : (ReadCache.insertHeader limits headers id header)[known]? = some v) :
    headers[known]? = some v ∨ known = id ∧ v = header := by
  have hinserted : ∀ m : DigestMap V, (m[known]? = some v → headers[known]? = some v) →
      (if 0 < limits.entries then m.insert id header else m)[known]? = some v →
        headers[known]? = some v ∨ known = id ∧ v = header := by
    intro m hm h
    split_ifs at h
    · rw [Std.TreeMap.getElem?_insert] at h
      split_ifs at h with hk
      · exact .inr ⟨(Std.LawfulEqCmp.eq_of_compare hk).symm, (Option.some.inj h).symm⟩
      · exact .inl (hm h)
    · exact .inl (hm h)
  apply hinserted _ _ h
  intro hkept
  split_ifs at hkept
  · cases hkept
  · exact hkept

theorem Resident.insertProof (h : Resident view cache) {id : ProofId} {header : Option LocatedProof}
    (hheader : view (.proofHeader id) = .ok header) :
    Resident view { cache with proofs := ReadCache.insertHeader limits cache.proofs id header } where
  proofs hknown := by
    rcases getElem?_insertHeader hknown with hknown | ⟨rfl, rfl⟩
    · exact h.proofs hknown
    · exact hheader
  statements := h.statements
  parsed := h.parsed

theorem Resident.insertStatement (h : Resident view cache) {id : StatementId}
    {header : Option LocatedStatement} (hheader : view (.statementHeader id) = .ok header) :
    Resident view
      { cache with statements := ReadCache.insertHeader limits cache.statements id header } where
  proofs := h.proofs
  statements hknown := by
    rcases getElem?_insertHeader hknown with hknown | ⟨rfl, rfl⟩
    · exact h.statements hknown
    · exact hheader
  parsed := h.parsed

theorem Resident.fill (h : Resident view cache) {parsed : Parsed} (hparsed : parsed.Agrees view)
    (slot charge : ℕ) : Resident view (cache.fill slot parsed charge) where
  proofs := h.proofs
  statements := h.statements
  parsed hp := by
    rcases List.mem_or_eq_of_mem_set hp with hp | hp
    · exact h.parsed hp
    · cases hp
      exact hparsed

theorem Resident.cached (h : Resident view cache) {id : StatementId} {length : ℕ} {f : Formula}
    (hcached : cache.cached id = some (length, f)) : CopiedFormula view id length f := by
  obtain ⟨slot, hslot, hfound⟩ := List.exists_of_findSome?_eq_some hcached
  split at hfound
  · split_ifs at hfound with hid
    cases hfound
    subst hid
    exact h.parsed hslot
  · cases hfound

theorem Resident.cachedDefinition (h : Resident view cache) {id : DefinitionId}
    {c : DefinitionCertificate} (hcached : cache.cachedDefinition id = some c) :
    view (.definitionCertificate id) = .ok (some c) := by
  obtain ⟨slot, hslot, hfound⟩ := List.exists_of_findSome?_eq_some hcached
  split at hfound
  · split_ifs at hfound with hid
    cases hfound
    subst hid
    exact h.parsed hslot
  · cases hfound

end Resident

end Naome
