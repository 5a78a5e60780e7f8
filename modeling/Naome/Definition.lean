import Naome.DefinitionExpansionSpec

/-!
# Definition certificates

A definition certificate is a relation or function graph over the formal variables
`0, 1, ...` with a primitive body. Its identity is a hash of its canonical bytes.
-/
namespace Naome
open LocallyNameless Outcome ByteCursor FormulaCodec

/-- The bytes of an ASCII text. -/
def asciiBytes (text : String) : List UInt8 := text.toList.map fun c => UInt8.ofNat c.toNat

def foundationId : List UInt8 := asciiBytes "naome:zfc"

/-- A byte string preceded by its length. -/
def framed (bytes : List UInt8) : List UInt8 := u32Bytes bytes.length ++ bytes

def definitionIdDomain : List UInt8 := asciiBytes "naome:definition:v1" ++ [0]

def definitionMaxGraphArity : ℕ := 256

def definitionMaxBytes : ℕ := 1 + 4 + 4 + formulaMaxBytes

inductive DefinitionKind
  | relation (arity : ℕ)
  | function (inputArity : ℕ)
  deriving DecidableEq, Repr

inductive DefinitionCertificateError
  | inputTooLong (actual maximum : ℕ)
  | unexpectedEnd
  | unknownKindTag (tag : UInt8)
  | zeroRelationArity
  | zeroFunctionArity
  | arityTooLarge (actual maximum : ℕ)
  | definitionReference (definitionId : DefinitionId)
  | undeclaredFormalVariable (identifier arity : ℕ)
  | missingFormalVariable (identifier arity : ℕ)
  | formula (reason : DefinedFormulaCodecError)
  | trailingBytes (remaining : ℕ)
  deriving DecidableEq, Repr

/-- The number of arguments at a call site. -/
def DefinitionKind.graphArity : DefinitionKind → ℕ
  | .relation arity => arity
  | .function inputArity => inputArity + 1

def DefinitionKind.bytes : DefinitionKind → List UInt8
  | .relation arity => 0x00 :: u32Bytes arity
  | .function inputArity => 0x02 :: u32Bytes inputArity

structure DefinitionCertificate where
  kind : DefinitionKind
  body : DefinedFormula
  canonical : List UInt8
  id : DefinitionId

namespace DefinitionCertificate

def validateKind (kind : DefinitionKind) : Except DefinitionCertificateError ℕ := do
  require (kind ≠ .relation 0) .zeroRelationArity
  require (kind ≠ .function 0) .zeroFunctionArity
  require (kind.graphArity ≤ definitionMaxGraphArity)
    (.arityTooLarge kind.graphArity definitionMaxGraphArity)
  return kind.graphArity

def validate (kind : DefinitionKind) (formula : DefinedFormula) (bodyLength : ℕ) :
    Except DefinitionCertificateError Unit := do
  let arity ← validateKind kind
  match formula.firstDefinitionReference with
  | some definitionId => .error (.definitionReference definitionId)
  | none => do
    formula.freeVariables.toList.forM fun v =>
      require (v.identifier.toNat < arity) (.undeclaredFormalVariable v.identifier.toNat arity)
    (List.range arity).forM fun identifier =>
      require (∃ v ∈ formula.freeVariables.toList, v.identifier.toNat = identifier)
        (.missingFormalVariable identifier arity)
    require (1 + 4 + 4 + bodyLength ≤ definitionMaxBytes)
      (.inputTooLong (1 + 4 + 4 + bodyLength) definitionMaxBytes)

section

variable (sha256 : List UInt8 → Digest)

def fromParts (kind : DefinitionKind) (body : DefinedFormula) (canonical : List UInt8) :
    DefinitionCertificate where
  kind := kind
  body := body
  canonical := canonical
  id := sha256 (definitionIdDomain ++ framed foundationId ++ framed canonical)

def new (kind : DefinitionKind) (body : DefinedFormula) :
    Except DefinitionCertificateError DefinitionCertificate := do
  let _ ← validateKind kind
  let encoded ← body.encodeCanonical.mapError .formula
  validate kind body encoded.length
  return fromParts sha256 kind body (kind.bytes ++ framed encoded)

def readKind (bytes : List UInt8) :
    Except DefinitionCertificateError (DefinitionKind × List UInt8) := do
  let (tag, bytes) ← readU8 .unexpectedEnd bytes
  if tag = 0x00 then
    let (arity, bytes) ← readU32 .unexpectedEnd bytes
    return (.relation arity, bytes)
  else if tag = 0x02 then
    let (inputArity, bytes) ← readU32 .unexpectedEnd bytes
    return (.function inputArity, bytes)
  else .error (.unknownKindTag tag)

def fromCanonicalBytes (bytes : List UInt8) :
    Except DefinitionCertificateError DefinitionCertificate := do
  require (bytes.length ≤ definitionMaxBytes) (.inputTooLong bytes.length definitionMaxBytes)
  let (kind, rest) ← readKind bytes
  let (bodyLength, rest) ← readU32 .unexpectedEnd rest
  let (bodyBytes, rest) ← take .unexpectedEnd bodyLength rest
  require (rest = []) (.trailingBytes rest.length)
  let body ← (DefinedFormula.decodeCanonical bodyBytes).mapError .formula
  validate kind body bodyBytes.length
  return fromParts sha256 kind body bytes

end

def relationArity (c : DefinitionCertificate) : ℕ := c.kind.graphArity

def toCanonicalBytes (c : DefinitionCertificate) : List UInt8 := c.canonical

def definitionId (c : DefinitionCertificate) : DefinitionId := c.id

/-- The shared expansion view of a certificate. -/
def resolution (c : DefinitionCertificate) : DefinitionResolution := ⟨c.relationArity, c.body⟩

/-- What construction and decoding establish. -/
structure Valid (kind : DefinitionKind) (body : DefinedFormula) : Prop where
  arity_pos : kind ≠ .relation 0 ∧ kind ≠ .function 0
  arity_le : kind.graphArity ≤ definitionMaxGraphArity
  primitive : body.node.symbols = []
  declared : ∀ v ∈ body.node.occurrences, v.identifier.toNat < kind.graphArity
  complete : ∀ i < kind.graphArity, ∃ v ∈ body.node.occurrences, v.identifier.toNat = i
  withinLimits : body.WithinLimits

theorem validateKind_eq_ok {kind : DefinitionKind} {arity : ℕ} :
    validateKind kind = .ok arity ↔
      (kind ≠ .relation 0 ∧ kind ≠ .function 0) ∧ kind.graphArity ≤ definitionMaxGraphArity ∧
        arity = kind.graphArity := by
  simp only [validateKind, bind_eq_ok, require_eq_ok, exists_const, pure_eq_ok, and_assoc,
    eq_comm (a := arity)]

theorem mem_freeVariables_toList {f : DefinedFormula} {v : FreeVariable} :
    v ∈ f.freeVariables.toList ↔ v ∈ f.node.occurrences := by
  rw [Std.TreeSet.mem_toList, DefinedFormula.freeVariables]
  simp [Std.TreeSet.mem_ofList]

theorem validate_eq_ok {kind : DefinitionKind} {body : DefinedFormula} {bodyLength : ℕ} {a : Unit}
    (hbody : body.WithinLimits) :
    validate kind body bodyLength = .ok a ↔
      Valid kind body ∧ 1 + 4 + 4 + bodyLength ≤ definitionMaxBytes := by
  simp only [validate, bind_eq_ok, validateKind_eq_ok]
  cases hs : body.firstDefinitionReference with
  | some s =>
    simp only [reduceCtorEq, and_false, exists_false, false_iff, not_and]
    intro hv
    simp [DefinedFormula.firstDefinitionReference, hv.primitive] at hs
  | none =>
    have hprim : body.node.symbols = [] := List.head?_eq_none_iff.mp hs
    simp only [bind_eq_ok, forM_eq_ok, require_eq_ok, exists_const, mem_freeVariables_toList,
      List.mem_range]
    constructor
    · rintro ⟨_, ⟨hp, hle, rfl⟩, hd, hc, hlen⟩
      exact ⟨⟨hp, hle, hprim, hd, hc, hbody⟩, hlen⟩
    · rintro ⟨hv, hlen⟩
      exact ⟨_, ⟨hv.arity_pos, hv.arity_le, rfl⟩, hv.declared, hv.complete, hlen⟩

variable {sha256 : List UInt8 → Digest}

/-- The canonical bytes of a kind and a body. -/
def bytesOf (kind : DefinitionKind) (body : DefinedFormula) : List UInt8 :=
  kind.bytes ++ framed body.canonicalBytes

theorem length_bytesOf (kind : DefinitionKind) (body : DefinedFormula) :
    (bytesOf kind body).length = 1 + 4 + 4 + body.canonicalBytes.length := by
  cases kind <;> simp [bytesOf, DefinitionKind.bytes, framed] <;> omega

theorem new_eq_ok {kind : DefinitionKind} {body : DefinedFormula} {c : DefinitionCertificate} :
    new sha256 kind body = .ok c ↔
      Valid kind body ∧ c = fromParts sha256 kind body (bytesOf kind body) := by
  simp only [new, bind_eq_ok, mapError_eq_ok, DefinedFormula.encodeCanonical_eq_ok, pure_eq_ok]
  constructor
  · rintro ⟨_, -, _, ⟨hw, rfl⟩, _, hv, rfl⟩
    exact ⟨((validate_eq_ok hw).mp hv).1, rfl⟩
  · rintro ⟨hv, rfl⟩
    refine ⟨_, validateKind_eq_ok.2 ⟨hv.arity_pos, hv.arity_le, rfl⟩, _, ⟨hv.withinLimits, rfl⟩,
      (), (validate_eq_ok hv.withinLimits).mpr ⟨hv, ?_⟩, rfl⟩
    have := hv.withinLimits.length_le
    unfold definitionMaxBytes
    omega

theorem readKind_eq_ok {bytes rest : List UInt8} {kind : DefinitionKind} :
    readKind bytes = .ok (kind, rest) ↔
      (∀ a, kind = .relation a ∨ kind = .function a → a < 2 ^ 32) ∧ bytes = kind.bytes ++ rest := by
  simp only [readKind, bind_eq_ok, Prod.exists, readU8_eq_ok]
  constructor
  · rintro ⟨tag, bytes₁, rfl, h⟩
    split_ifs at h with h₀ h₂
    all_goals
      simp only [bind_eq_ok, Prod.exists, readU32_eq_ok, pure_eq_ok, Prod.mk.injEq] at h
      obtain ⟨arity, _, ⟨hlt, rfl⟩, rfl, rfl⟩ := h
      simp_all [DefinitionKind.bytes]
  · rintro ⟨hk, rfl⟩
    cases kind with
    | relation arity =>
      refine ⟨0x00, _, rfl, ?_⟩
      simp only [if_pos, bind_eq_ok, Prod.exists, readU32_eq_ok, pure_eq_ok, Prod.mk.injEq]
      exact ⟨arity, rest, ⟨hk arity (.inl rfl), rfl⟩, rfl, rfl⟩
    | function arity =>
      refine ⟨0x02, _, rfl, ?_⟩
      rw [if_neg (by decide), if_pos rfl]
      simp only [bind_eq_ok, Prod.exists, readU32_eq_ok, pure_eq_ok, Prod.mk.injEq]
      exact ⟨arity, rest, ⟨hk arity (.inr rfl), rfl⟩, rfl, rfl⟩

/-- The decoder accepts exactly the canonical bytes of valid certificates. -/
theorem fromCanonicalBytes_eq_ok {bytes : List UInt8} {c : DefinitionCertificate} :
    fromCanonicalBytes sha256 bytes = .ok c ↔
      ∃ kind body, Valid kind body ∧ bytes = bytesOf kind body ∧
        c = fromParts sha256 kind body bytes := by
  simp only [fromCanonicalBytes, bind_eq_ok, require_eq_ok, exists_const, Prod.exists,
    readKind_eq_ok, readU32_eq_ok, take_eq_ok, mapError_eq_ok, DefinedFormula.decodeCanonical_eq_ok,
    pure_eq_ok]
  constructor
  · rintro ⟨-, kind, _, ⟨-, rfl⟩, _, _, ⟨-, rfl⟩, _, _, ⟨rfl, rfl⟩, rfl, body, ⟨hw, rfl⟩, _, hv, rfl⟩
    refine ⟨kind, body, ((validate_eq_ok hw).mp hv).1, ?_, rfl⟩
    simp [bytesOf, framed]
  · rintro ⟨kind, body, hv, rfl, rfl⟩
    have hlen := hv.withinLimits.length_le
    have hbound : 1 + 4 + 4 + body.canonicalBytes.length ≤ definitionMaxBytes := by
      unfold definitionMaxBytes
      omega
    have harity : ∀ a, kind = .relation a ∨ kind = .function a → a < 2 ^ 32 := by
      have hle := hv.arity_le
      unfold definitionMaxGraphArity at hle
      rintro a (rfl | rfl) <;> simp only [DefinitionKind.graphArity] at hle <;> omega
    refine ⟨by rwa [length_bytesOf], kind, _, ⟨harity, rfl⟩, body.canonicalBytes.length,
      body.canonicalBytes, ⟨?_, rfl⟩, body.canonicalBytes, [], ⟨rfl, by simp⟩, rfl, body,
      ⟨hv.withinLimits, rfl⟩, (), (validate_eq_ok hv.withinLimits).mpr ⟨hv, hbound⟩, rfl⟩
    unfold formulaMaxBytes at hlen
    omega

end DefinitionCertificate
end Naome
