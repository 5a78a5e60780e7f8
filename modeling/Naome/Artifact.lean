import Naome.ProofDecode

/-!
# Artifact payloads

A payload is a proof or a definition certificate behind a one-byte tag. Encoding and
decoding are inverse to each other, and the decoder accepts nothing that the constructors
would refuse.
-/
namespace Naome
open LocallyNameless Outcome ByteCursor

def artifactPayloadMaxBytes : ℕ := 1 + max certificateMaxBytes definitionMaxBytes

inductive ArtifactPayload
  | proof (certificate : ProofCertificate)
  | definition (certificate : DefinitionCertificate)

inductive ArtifactPayloadError
  | inputTooLong (actual maximum : ℕ)
  | unexpectedEnd
  | unknownTag (tag : UInt8)
  | proof (reason : ProofCertificateError)
  | definition (reason : DefinitionCertificateError)
  deriving DecidableEq, Repr

namespace ArtifactPayload

def proofTag : UInt8 := 0x00

def definitionTag : UInt8 := 0x01

def toCanonicalBytes : ArtifactPayload → CodecM (List UInt8)
  | .proof certificate => certificate.toCanonicalBytes.map (proofTag :: ·)
  | .definition certificate => .ok (definitionTag :: certificate.toCanonicalBytes)

section

variable (sha256 : List UInt8 → Digest)

def fromCanonicalBytes (bytes : List UInt8) :
    Except (Stop ArtifactPayloadError) ArtifactPayload := do
  require (bytes.length ≤ artifactPayloadMaxBytes)
    (.error (.inputTooLong bytes.length artifactPayloadMaxBytes))
  let (tag, payload) ← readU8 (.error .unexpectedEnd) bytes
  if tag = proofTag then
    (ProofCertificate.fromCanonicalBytes payload).map .proof |>.mapError (Stop.map .proof)
  else if tag = definitionTag then
    (DefinitionCertificate.fromCanonicalBytes sha256 payload).map .definition |>.mapError
      fun e => .error (.definition e)
  else .error (.error (.unknownTag tag))

/-- The constructor of the payload accepts the payload's own contents. -/
def Accepted : ArtifactPayload → Prop
  | .proof c => ProofCertificate.new c.steps = .ok c
  | .definition c => DefinitionCertificate.new sha256 c.kind c.body = .ok c

end

variable {sha256 : List UInt8 → Digest}

theorem definition_toCanonicalBytes {c : DefinitionCertificate}
    (h : DefinitionCertificate.new sha256 c.kind c.body = .ok c) :
    c.toCanonicalBytes = DefinitionCertificate.bytesOf c.kind c.body := by
  obtain ⟨-, hc⟩ := DefinitionCertificate.new_eq_ok.mp h
  exact congrArg DefinitionCertificate.canonical hc

theorem proof_toCanonicalBytes {c : ProofCertificate} (h : ProofCertificate.new c.steps = .ok c) :
    c.toCanonicalBytes = .ok c.canonicalBytes := by
  obtain ⟨hv, -⟩ := ProofCertificate.new_eq_ok.1 h
  exact ProofCertificate.toCanonicalBytes_eq_ok.2 ⟨hv.encodable, rfl⟩

theorem accepted_of_fromCanonicalBytes {bytes : List UInt8} {p : ArtifactPayload}
    (h : fromCanonicalBytes sha256 bytes = .ok p) :
    p.Accepted sha256 ∧ p.toCanonicalBytes = .ok bytes := by
  simp only [fromCanonicalBytes, bind_eq_ok, require_eq_ok, exists_const, Prod.exists,
    readU8_eq_ok] at h
  obtain ⟨-, tag, payload, rfl, h⟩ := h
  split_ifs at h with hp hd
  · simp only [mapError_eq_ok, map_eq_ok] at h
    obtain ⟨c, hc, rfl⟩ := h
    obtain ⟨hv, rfl⟩ := ProofCertificate.fromCanonicalBytes_eq_ok.1 hc
    have hnew : ProofCertificate.new c.steps = .ok c := ProofCertificate.new_eq_ok.2 ⟨hv, rfl⟩
    refine ⟨hnew, ?_⟩
    rw [toCanonicalBytes, proof_toCanonicalBytes hnew, hp]
    rfl
  · simp only [mapError_eq_ok, map_eq_ok] at h
    obtain ⟨c, hc, rfl⟩ := h
    obtain ⟨kind, body, hv, rfl, rfl⟩ := DefinitionCertificate.fromCanonicalBytes_eq_ok.mp hc
    refine ⟨DefinitionCertificate.new_eq_ok.mpr ⟨hv, rfl⟩, ?_⟩
    rw [hd]
    rfl

theorem fromCanonicalBytes_proof {c : ProofCertificate}
    (h : ProofCertificate.new c.steps = .ok c) :
    fromCanonicalBytes sha256 (proofTag :: c.canonicalBytes) = .ok (.proof c) := by
  obtain ⟨hv, -⟩ := ProofCertificate.new_eq_ok.1 h
  have hdecode := ProofCertificate.fromCanonicalBytes_eq_ok.2 ⟨hv, rfl⟩
  have hlen : (proofTag :: c.canonicalBytes).length ≤ artifactPayloadMaxBytes := by
    have := hv.encodable.bytes_le
    rw [artifactPayloadMaxBytes, List.length_cons, ProofCertificate.canonicalBytes]
    omega
  rw [fromCanonicalBytes, require, if_pos hlen, ok_bind, readU8, ok_bind]
  simp only [if_pos, hdecode]
  rfl

theorem fromCanonicalBytes_definition {c : DefinitionCertificate}
    (h : DefinitionCertificate.new sha256 c.kind c.body = .ok c) :
    fromCanonicalBytes sha256 (definitionTag :: c.toCanonicalBytes) = .ok (.definition c) := by
  obtain ⟨hv, hc⟩ := DefinitionCertificate.new_eq_ok.mp h
  have hbytes := definition_toCanonicalBytes h
  have hdecode : DefinitionCertificate.fromCanonicalBytes sha256 c.toCanonicalBytes = .ok c :=
    DefinitionCertificate.fromCanonicalBytes_eq_ok.mpr
      ⟨c.kind, c.body, hv, hbytes, by rw [hbytes]; exact hc⟩
  have hlen : (definitionTag :: c.toCanonicalBytes).length ≤ artifactPayloadMaxBytes := by
    have := hv.withinLimits.length_le
    rw [artifactPayloadMaxBytes, List.length_cons, hbytes, DefinitionCertificate.length_bytesOf,
      definitionMaxBytes]
    omega
  rw [fromCanonicalBytes, require, if_pos hlen, ok_bind, readU8, ok_bind]
  simp only [show definitionTag ≠ proofTag by decide, if_false, if_pos, hdecode]
  rfl

/-- The codec is a bijection between constructed payloads and accepted bytes, and encoding
never fails. -/
theorem codec_bijective (sha256 : List UInt8 → Digest) :
    (∀ bytes p, fromCanonicalBytes sha256 bytes = .ok p →
      p.toCanonicalBytes = .ok bytes ∧ p.Accepted sha256) ∧
    (∀ steps c, ProofCertificate.new steps = .ok c → c.steps = steps ∧
      ∃ bytes, c.toCanonicalBytes = .ok bytes ∧
        ProofCertificate.fromCanonicalBytes bytes = .ok c ∧
        (proof c).toCanonicalBytes = .ok (proofTag :: bytes) ∧
        fromCanonicalBytes sha256 (proofTag :: bytes) = .ok (.proof c)) ∧
    (∀ kind body c, DefinitionCertificate.new sha256 kind body = .ok c →
      c.kind = kind ∧ c.body = body ∧
      DefinitionCertificate.fromCanonicalBytes sha256 c.toCanonicalBytes = .ok c ∧
      (definition c).toCanonicalBytes = .ok (definitionTag :: c.toCanonicalBytes) ∧
      fromCanonicalBytes sha256 (definitionTag :: c.toCanonicalBytes) = .ok (.definition c)) := by
  refine ⟨fun bytes p h => (accepted_of_fromCanonicalBytes h).symm, ?_, ?_⟩
  · intro steps c h
    obtain ⟨hv, rfl⟩ := ProofCertificate.new_eq_ok.1 h
    have hbytes := proof_toCanonicalBytes h
    refine ⟨rfl, c.canonicalBytes, hbytes,
      ProofCertificate.fromCanonicalBytes_eq_ok.2 ⟨hv, rfl⟩, ?_, fromCanonicalBytes_proof h⟩
    rw [toCanonicalBytes, hbytes]
    rfl
  · intro kind body c h
    obtain ⟨hv, rfl⟩ := DefinitionCertificate.new_eq_ok.mp h
    exact ⟨rfl, rfl, DefinitionCertificate.fromCanonicalBytes_eq_ok.mpr ⟨kind, body, hv, rfl, rfl⟩,
      rfl, fromCanonicalBytes_definition h⟩

/-- A one-step certificate survives the round trip. -/
theorem codec_bijective_reflexivity :
    ∃ bytes, ProofCertificate.toCanonicalBytes ⟨[.equalityReflexivity ⟨0⟩]⟩ = .ok bytes ∧
      fromCanonicalBytes (fun _ => 0) (proofTag :: bytes) =
        .ok (.proof ⟨[.equalityReflexivity ⟨0⟩]⟩) := by
  have hnew : ProofCertificate.new [.equalityReflexivity ⟨0⟩] =
      .ok ⟨[.equalityReflexivity ⟨0⟩]⟩ := rfl
  obtain ⟨-, bytes, hbytes, -, -, hdecode⟩ := (codec_bijective fun _ => 0).2.1 _ _ hnew
  exact ⟨bytes, hbytes, hdecode⟩

end ArtifactPayload
end Naome
