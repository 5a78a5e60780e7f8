import Naome.ArtifactHistory
import Naome.DiskRegistration

/-!
# Contexts in memory and on disk

When the contents of a context on disk stand for a context in memory, and how one
registration changes the two in step.
-/
namespace Naome
open LocallyNameless Outcome ByteCursor DiskMap DiskArtifact

namespace KnowledgeIndex

variable {sha256 : List UInt8 → Digest} {ε : Type}

theorem mem_entries_insert {index : Buckets} {target statement t st : StatementId} :
    st ∈ entries (insert index target statement) t ↔
      t = target ∧ st = statement ∨ st ∈ entries index t := by
  unfold entries insert
  rw [Std.TreeSet.mem_toList, Std.TreeSet.mem_toList, Std.TreeMap.getElem?_insert]
  by_cases ht : target = t
  · subst ht
    rw [if_pos Std.ReflCmp.compare_self, Option.getD_some, Std.TreeSet.mem_insert]
    have hcompare : compare statement st = .eq ↔ st = statement := by
      rw [Std.LawfulEqCmp.compare_eq_iff_eq]
      exact eq_comm
    simp only [hcompare, true_and]
  · rw [if_neg fun h => ht (Std.LawfulEqCmp.eq_of_compare h)]
    simp [Ne.symm ht]

theorem mem_bucket_insertProjection {index : KnowledgeIndex} {statement t st : StatementId}
    {p : BucketKind × StatementId} {kind : BucketKind} :
    st ∈ (insertProjection statement index p).bucket kind t ↔
      p = (kind, t) ∧ st = statement ∨ st ∈ index.bucket kind t := by
  obtain ⟨k, target⟩ := p
  cases k <;> cases kind <;>
    simp [insertProjection, bucket, mem_entries_insert, eq_comm, and_comm]

theorem mem_bucket_foldl {index : KnowledgeIndex} {statement t st : StatementId}
    {found : List (BucketKind × StatementId)} {kind : BucketKind} :
    st ∈ (found.foldl (insertProjection statement) index).bucket kind t ↔
      (kind, t) ∈ found ∧ st = statement ∨ st ∈ index.bucket kind t := by
  induction found generalizing index with
  | nil => simp
  | cons p found ih =>
    rw [List.foldl_cons, ih, mem_bucket_insertProjection, List.mem_cons]
    constructor
    · rintro (⟨hmem, rfl⟩ | ⟨rfl, rfl⟩ | hold)
      · exact Or.inl ⟨Or.inr hmem, rfl⟩
      · exact Or.inl ⟨Or.inl rfl, rfl⟩
      · exact Or.inr hold
    · rintro (⟨rfl | hmem, rfl⟩ | hold)
      · exact Or.inr (Or.inl ⟨rfl, rfl⟩)
      · exact Or.inl ⟨hmem, rfl⟩
      · exact Or.inr (Or.inr hold)

theorem artifacts_foldl (statement : StatementId) (index : KnowledgeIndex)
    (found : List (BucketKind × StatementId)) :
    (found.foldl (insertProjection statement) index).artifacts = index.artifacts := by
  induction found generalizing index with
  | nil => rfl
  | cons p found ih =>
    rw [List.foldl_cons, ih]
    obtain ⟨k, t⟩ := p
    cases k <;> rfl

/-- The lesser of a proof and the known witness. -/
def leastProof (proof : ProofId) : Option ProofId → ProofId
  | none => proof
  | some known => if proof < known then proof else known

/-- What one registration adds to the index. -/
structure Indexed (sha256 : List UInt8 → Digest) (index index' : KnowledgeIndex) (proof : ProofId)
    (statement : StatementId) (f : Formula) : Prop where
  artifacts : ∀ id, index'.artifacts.contains id = true ↔
    id = artifactIdOfProof sha256 proof ∨ index.artifacts.contains id = true
  witness : index'.witnesses[statement]? = some (leastProof proof index.witnesses[statement]?)
  other : ∀ id : StatementId, id ≠ statement → index'.witnesses[id]? = index.witnesses[id]?
  bucket : ∀ kind t st, st ∈ index'.bucket kind t ↔ st ∈ index.bucket kind t ∨
    index.witnesses[statement]? = none ∧ st = statement ∧
      ∃ found, projections sha256 proof f = (.ok found : RegisterM _) ∧ (kind, t) ∈ found

theorem contains_insert {s : DigestSet} {a id : Digest} :
    (s.insert a).contains id = true ↔ id = a ∨ s.contains id = true := by
  rw [Std.TreeSet.contains_insert, Bool.or_eq_true, beq_iff_eq, Std.LawfulEqCmp.compare_eq_iff_eq]
  exact or_congr eq_comm Iff.rfl

theorem indexed_of_registerProof {index index' : KnowledgeIndex} {proof : ProofId}
    {statement : StatementId} {f : Formula}
    (h : index.registerProof sha256 proof statement f = (.ok index' : RegisterM _)) :
    Indexed sha256 index index' proof statement f := by
  have hother := (witnesses_registerProof h).2
  unfold registerProof at h
  simp only at h
  split at h
  · rename_i known hknown
    have hknown : index.witnesses[statement]? = some known := hknown
    have hbucket : index.witnesses[statement]? ≠ none := by
      rw [hknown]
      exact Option.some_ne_none known
    cases h
    split_ifs at hother ⊢ with hlt
    · refine ⟨fun _ => contains_insert, ?_, hother, ?_⟩
      · rw [Std.TreeMap.getElem?_insert_self, hknown, leastProof, if_pos hlt]
      · intro kind t st
        simp only [hbucket, false_and, or_false]
        rfl
    · refine ⟨fun _ => contains_insert, ?_, hother, ?_⟩
      · rw [hknown, leastProof, if_neg hlt]
      · intro kind t st
        simp only [hbucket, false_and, or_false]
        rfl
  · rename_i hnone
    have hnone : index.witnesses[statement]? = none := hnone
    obtain ⟨found, hfound, h⟩ := bind_eq_ok.mp h
    cases pure_eq_ok.mp h
    refine ⟨?_, ?_, hother, ?_⟩
    · intro id
      rw [artifacts_foldl]
      exact contains_insert
    · rw [witnesses_foldl, hnone]
      exact ArtifactState.getElem?_insertIfNew_self hnone
    · intro kind t st
      rw [mem_bucket_foldl]
      have hold : ∀ {artifacts : DigestSet} {witnesses : DigestMap ProofId},
          (bucket { index with artifacts := artifacts, witnesses := witnesses } kind t) =
            index.bucket kind t := by
        intro artifacts witnesses
        cases kind <;> rfl
      rw [hold]
      constructor
      · rintro (⟨hmem, rfl⟩ | hmem)
        · exact Or.inr ⟨hnone, rfl, found, hfound, hmem⟩
        · exact Or.inl hmem
      · rintro (hmem | ⟨-, rfl, found', hfound', hmem⟩)
        · exact Or.inr hmem
        · rw [hfound] at hfound'
          cases hfound'
          exact Or.inl ⟨hmem, rfl⟩

end KnowledgeIndex

/-- The identity and the length of a checked proof are those of its conclusion. -/
structure CheckedProof.Canonical (sha256 : List UInt8 → Digest) (P : CheckedProof) : Prop where
  withinLimits : P.conclusion.WithinLimits
  length : P.canonicalConclusionLength = P.conclusion.canonicalBytes.length
  statementId : P.statementId = Checker.statementId sha256 P.conclusion.canonicalBytes
  encoded : ∃ bytes, P.normalForm.canonicalBytes = .ok bytes

/-- The certificate of a checked definition is accepted and has its identity. -/
structure CheckedDefinition.Canonical (sha256 : List UInt8 → Digest) (D : CheckedDefinition) :
    Prop where
  certificate : ∃ kind body, DefinitionCertificate.new sha256 kind body = .ok D.certificate
  definitionId : D.definitionId = D.certificate.definitionId

namespace Contents

variable {sha256 : List UInt8 → Digest} {c : Contents} {fact : Fact} {known : Option ProofId}
  {found : List (BucketKind × StatementId)}

theorem record_addAll (c : Contents) (statement : StatementId)
    (found : List (BucketKind × StatementId)) : (c.addAll statement found).record = c.record := by
  unfold addAll
  induction found generalizing c with
  | nil => rfl
  | cons p found ih => exact ih (c.add p.1 p.2 statement)

theorem member_addAll {statement : StatementId} {kind : BucketKind} {t st : StatementId} :
    (c.addAll statement found).member kind t st = true ↔
      (kind, t) ∈ found ∧ st = statement ∨ c.member kind t st = true := by
  unfold addAll
  induction found generalizing c with
  | nil => simp
  | cons p found ih =>
    obtain ⟨k, target⟩ := p
    rw [List.foldl_cons, ih, List.mem_cons]
    simp only [add, Bool.or_eq_true, decide_eq_true_eq, Prod.mk.injEq]
    constructor
    · rintro (⟨hmem, rfl⟩ | ⟨rfl, rfl, rfl⟩ | hold)
      · exact Or.inl ⟨Or.inr hmem, rfl⟩
      · exact Or.inl ⟨Or.inl ⟨rfl, rfl⟩, rfl⟩
      · exact Or.inr hold
    · rintro (⟨⟨rfl, rfl⟩ | hmem, rfl⟩ | hold)
      · exact Or.inr (Or.inl ⟨rfl, rfl, rfl⟩)
      · exact Or.inl ⟨hmem, rfl⟩
      · exact Or.inr (Or.inr hold)

/-- Every map but that of the witnesses gets the record of the fact, unless it has one. -/
theorem record_register {kind : MapKind} (hkind : kind ≠ .witnesses) :
    (c.register sha256 fact known found).record kind = (c.publish sha256 fact).record kind := by
  unfold register
  cases known with
  | none =>
    simp only [record_addAll, write]
    rw [Function.update_of_ne hkind]
  | some known =>
    simp only
    split_ifs
    · simp only [write]
      rw [Function.update_of_ne hkind]
    · rfl

/-- The witness of the statement becomes the lesser proof. -/
theorem witness_register (hknown : c.record .witnesses fact.statement = known.map digestBytes) :
    (c.register sha256 fact known found).record .witnesses =
      Function.update (c.record .witnesses) fact.statement
        (some (digestBytes (KnowledgeIndex.leastProof fact.proof known))) := by
  have hpublish : (c.publish sha256 fact).record .witnesses = c.record .witnesses := rfl
  unfold register KnowledgeIndex.leastProof
  cases known with
  | none =>
    simp only [record_addAll, write, Function.update_self, hpublish, assign, hknown]
    rfl
  | some known =>
    simp only
    split_ifs
    · simp only [write, Function.update_self, hpublish, assign]
      rfl
    · rw [hpublish]
      exact (Function.update_eq_self_iff.mpr hknown.symm).symm

theorem member_register {kind : BucketKind} {t st : StatementId} :
    (c.register sha256 fact known found).member kind t st = true ↔
      c.member kind t st = true ∨ known = none ∧ st = fact.statement ∧ (kind, t) ∈ found := by
  unfold register
  cases known with
  | none =>
    simp only [member_addAll, true_and]
    constructor
    · rintro (⟨hmem, rfl⟩ | hold)
      · exact Or.inr ⟨rfl, hmem⟩
      · exact Or.inl hold
    · rintro (hold | ⟨rfl, hmem⟩)
      · exact Or.inr hold
      · exact Or.inl ⟨hmem, rfl⟩
  | some known =>
    simp only [reduceCtorEq, false_and, or_false]
    split_ifs
    · rfl
    · rfl

end Contents

/-- The contents stand for the context in memory after at most `n` registrations. -/
structure Mirrors (sha256 : List UInt8 → Digest) (log : WriteLog) (n : ℕ) (c : Contents)
    (s : ArtifactState) : Prop where
  wellFormed : s.WellFormed
  proof_none : ∀ id : ProofId, s.proofs[id]? = none → c.record .proofs id = none
  proof_some : ∀ (id : ProofId) d, s.proofs[id]? = some d → ∃ depth, 0 < depth ∧ depth ≤ n ∧
    c.record .proofs id = some (encodeProofRecord d depth)
  derivation : ∀ id : DerivationId, c.record .derivations id = s.derivations[id]?.map digestBytes
  statement : ∀ id : StatementId, c.record .statements id = s.statements[id]?.map fun stored =>
    encodeStatementRecord (formulaAddress sha256 stored.conclusion.canonicalBytes)
      stored.canonicalLength
  stored : ∀ (id : StatementId) stored, s.statements[id]? = some stored →
    stored.conclusion.WithinLimits ∧
      stored.canonicalLength = stored.conclusion.canonicalBytes.length ∧
      Checker.statementId sha256 stored.conclusion.canonicalBytes = id ∧
      (formulaAddress sha256 stored.conclusion.canonicalBytes, stored.conclusion.canonicalBytes) ∈ log
  definition : ∀ id : DefinitionId, c.record .definitions id = s.definitions[id]?.map fun d =>
    encodeStatementRecord (definitionAddress sha256 d.canonical) d.canonical.length
  certificate : ∀ (id : DefinitionId) d, s.definitions[id]? = some d →
    (∃ kind body, DefinitionCertificate.new sha256 kind body = .ok d) ∧ d.definitionId = id ∧
      (definitionAddress sha256 d.canonical, d.canonical) ∈ log
  artifact : ∀ id, (c.record .artifacts id).isSome = true ↔
    s.questionIndex.artifacts.contains id = true
  witness : ∀ id : StatementId,
    c.record .witnesses id = s.questionIndex.witnesses[id]?.map digestBytes
  member : ∀ kind t st, c.member kind t st = true ↔ st ∈ s.questionIndex.bucket kind t

variable {sha256 : List UInt8 → Digest} {log log' : WriteLog} {n : ℕ} {c : Contents}
  {s s' : ArtifactState}

theorem Mirrors.mono (h : Mirrors sha256 log n c s) (hlog : log ⊆ log') :
    Mirrors sha256 log' n c s where
  wellFormed := h.wellFormed
  proof_none := h.proof_none
  proof_some := h.proof_some
  derivation := h.derivation
  statement := h.statement
  stored id stored hid := by
    obtain ⟨hlimits, hlength, hstatement, hmem⟩ := h.stored id stored hid
    exact ⟨hlimits, hlength, hstatement, hlog hmem⟩
  definition := h.definition
  certificate id d hid := by
    obtain ⟨hnew, hdefinition, hmem⟩ := h.certificate id d hid
    exact ⟨hnew, hdefinition, hlog hmem⟩
  artifact := h.artifact
  witness := h.witness
  member := h.member

theorem mirrors_empty (log : WriteLog) : Mirrors sha256 log 0 .empty .empty where
  wellFormed := ArtifactState.wellFormed_empty
  proof_none _ _ := rfl
  proof_some _ _ h := by cases h
  derivation _ := rfl
  statement _ := rfl
  stored _ _ h := by cases h
  definition _ := rfl
  certificate _ _ h := by cases h
  artifact _ := Iff.rfl
  witness _ := rfl
  member kind t st := by
    constructor
    · intro h
      cases h
    · intro h
      cases kind <;> cases h

/-- A record that is written unless there is one, and the value it stands for. -/
theorem assign_insertIfNew {V : Type} {m : DigestMap V} {f : Digest → Option (List UInt8)}
    {g : V → List UInt8} (hf : ∀ k : Digest, f k = m[k]?.map g) (key : Digest) (v : V) (k : Digest) :
    assign f key (g v) false k = (m.insertIfNew key v)[k]?.map g := by
  unfold assign
  rw [Std.TreeMap.getElem?_insertIfNew]
  have hmem : key ∈ m ↔ (f key).isSome = true := by
    rw [hf, Option.isSome_map, Std.TreeMap.mem_iff_isSome_getElem?]
  by_cases hkey : (f key).isSome = true
  · rw [if_pos ⟨rfl, hkey⟩, if_neg fun h => h.2 (hmem.mpr hkey), hf]
  · rw [if_neg fun h => hkey h.2]
    by_cases hk : k = key
    · subst hk
      rw [Function.update_self, if_pos ⟨Std.ReflCmp.compare_self, fun h => hkey (hmem.mp h)⟩]
      rfl
    · rw [Function.update_of_ne hk, if_neg fun h => hk (Std.LawfulEqCmp.eq_of_compare h.1).symm, hf]

theorem isSome_assign_false {f : Digest → Option (List UInt8)} {key k : Digest}
    {value : List UInt8} :
    (assign f key value false k).isSome = true ↔ k = key ∨ (f k).isSome = true := by
  unfold assign
  by_cases hkey : (f key).isSome = true
  · rw [if_pos ⟨rfl, hkey⟩]
    constructor
    · exact Or.inr
    · rintro (rfl | h)
      · exact hkey
      · exact h
  · rw [if_neg fun h => hkey h.2]
    by_cases hk : k = key
    · subst hk
      simp
    · simp [hk]

/-- The fact that a checked proof is published as. -/
def CheckedProof.fact (sha256 : List UInt8 → Digest) (P : CheckedProof) (depth : ℕ) : Fact where
  proof := P.proofId
  derivation := P.derivationId
  statement := P.statementId
  depth := depth
  record := encodeStatementRecord (formulaAddress sha256 P.conclusion.canonicalBytes)
    P.conclusion.canonicalBytes.length

/-- A proof that is stored in memory and published on disk. -/
theorem Mirrors.register (h : Mirrors sha256 log n c s) {P : CheckedProof}
    (hP : P.Canonical sha256) (hstores : ArtifactState.Stores sha256 s s' P) (hlog : log ⊆ log')
    (hwritten : (formulaAddress sha256 P.conclusion.canonicalBytes,
      P.conclusion.canonicalBytes) ∈ log') {depth : ℕ} (hpos : 0 < depth) (hdepth : depth ≤ n + 1)
    {found : List (BucketKind × StatementId)}
    (hfound : s.questionIndex.witnesses[P.statementId]? = none →
      KnowledgeIndex.projections sha256 P.proofId P.conclusion = (.ok found : RegisterM _)) :
    Mirrors sha256 log' (n + 1)
      (c.register sha256 (P.fact sha256 depth) s.questionIndex.witnesses[P.statementId]? found) s' := by
  have hindexed := KnowledgeIndex.indexed_of_registerProof hstores.index
  have hfresh := hstores.proofs_eq_none h.wellFormed
  have hproofs : (c.publish sha256 (P.fact sha256 depth)).record .proofs =
      Function.update (c.record .proofs) P.proofId
        (some (encodeProofRecord P.derivationId depth)) := by
    change assign (c.record .proofs) P.proofId (encodeProofRecord P.derivationId depth) false = _
    unfold assign
    rw [h.proof_none _ hfresh]
    rfl
  refine {
    wellFormed := hstores.wellFormed h.wellFormed
    proof_none := ?_
    proof_some := ?_
    derivation := ?_
    statement := ?_
    stored := ?_
    definition := ?_
    certificate := ?_
    artifact := ?_
    witness := ?_
    member := ?_ }
  · intro id hid
    have hne : id ≠ P.proofId := by
      rintro rfl
      rw [hstores.proofs, ArtifactState.getElem?_insertIfNew_self hfresh] at hid
      cases hid
    rw [Contents.record_register (by decide), hproofs, Function.update_of_ne hne]
    apply h.proof_none
    cases hold : s.proofs[id]? with
    | none => rfl
    | some d =>
      rw [hstores.proofs, ArtifactState.getElem?_insertIfNew_of_some hold] at hid
      cases hid
  · intro id d hid
    rw [Contents.record_register (by decide), hproofs]
    rw [hstores.proofs] at hid
    rcases ArtifactState.getElem?_insertIfNew_cases hid with hid | ⟨rfl, rfl⟩
    · have hne : id ≠ P.proofId := by
        rintro rfl
        rw [hfresh] at hid
        cases hid
      obtain ⟨depth', hpos', hle', hrecord⟩ := h.proof_some id d hid
      rw [Function.update_of_ne hne]
      exact ⟨depth', hpos', by omega, hrecord⟩
    · rw [Function.update_self]
      exact ⟨depth, hpos, hdepth, rfl⟩
  · intro id
    rw [Contents.record_register (by decide), hstores.derivations]
    exact assign_insertIfNew h.derivation P.derivationId P.statementId id
  · intro id
    rw [Contents.record_register (by decide), hstores.statements, ← assign_insertIfNew h.statement]
    change assign _ _ _ _ _ = assign _ _ _ _ _
    rw [hP.length]
    rfl
  · intro id stored hid
    rw [hstores.statements] at hid
    rcases ArtifactState.getElem?_insertIfNew_cases hid with hid | ⟨rfl, rfl⟩
    · obtain ⟨hlimits, hlength, hstatement, hmem⟩ := h.stored id stored hid
      exact ⟨hlimits, hlength, hstatement, hlog hmem⟩
    · exact ⟨hP.withinLimits, hP.length, hP.statementId.symm, hwritten⟩
  · intro id
    rw [Contents.record_register (by decide), hstores.definitions]
    exact h.definition id
  · intro id d hid
    rw [hstores.definitions] at hid
    obtain ⟨hnew, hdefinition, hmem⟩ := h.certificate id d hid
    exact ⟨hnew, hdefinition, hlog hmem⟩
  · intro id
    rw [Contents.record_register (by decide), hindexed.artifacts, ← h.artifact]
    exact isSome_assign_false
  · intro id
    rw [Contents.witness_register (h.witness P.statementId)]
    by_cases hid : id = P.statementId
    · subst hid
      rw [hindexed.witness]
      exact Function.update_self _ _ _
    · rw [hindexed.other id hid, ← h.witness]
      exact Function.update_of_ne hid _ _
  · intro kind t st
    rw [Contents.member_register, hindexed.bucket, h.member]
    refine or_congr Iff.rfl (and_congr_right fun hnone => and_congr_right fun _ => ?_)
    constructor
    · exact fun hmem => ⟨found, hfound hnone, hmem⟩
    · rintro ⟨found', hfound', hmem⟩
      rw [hfound hnone] at hfound'
      cases hfound'
      exact hmem

/-- A definition that is stored in memory and on disk. -/
theorem Mirrors.define (h : Mirrors sha256 log n c s) {D : CheckedDefinition}
    (hD : D.Canonical sha256) (hstores : s.registerDefinition sha256 D = .ok s') (hlog : log ⊆ log')
    (hwritten : (definitionAddress sha256 D.certificate.canonical, D.certificate.canonical) ∈ log') :
    Mirrors sha256 log' (n + 1)
      ((c.write .definitions D.definitionId (encodeStatementRecord
        (definitionAddress sha256 D.certificate.canonical) D.certificate.canonical.length) false).write
        .artifacts (KnowledgeIndex.artifactIdOfDefinition sha256 D.definitionId)
        (DiskArtifact.definitionIdentity D.definitionId) false) s' := by
  obtain ⟨kind, body, hnew⟩ := hD.certificate
  have hw := ArtifactState.wellFormed_of_registerDefinition h.wellFormed
    (ArtifactState.primitive_of_new hnew) hstores
  obtain ⟨_, -, hstores⟩ := bind_eq_ok.mp hstores
  cases pure_eq_ok.mp hstores
  refine {
    wellFormed := hw
    proof_none := h.proof_none
    proof_some := ?_
    derivation := h.derivation
    statement := h.statement
    stored := ?_
    definition := ?_
    certificate := ?_
    artifact := ?_
    witness := h.witness
    member := h.member }
  · intro id d hid
    obtain ⟨depth, hpos, hle, hrecord⟩ := h.proof_some id d hid
    exact ⟨depth, hpos, by omega, hrecord⟩
  · intro id stored hid
    obtain ⟨hlimits, hlength, hstatement, hmem⟩ := h.stored id stored hid
    exact ⟨hlimits, hlength, hstatement, hlog hmem⟩
  · intro id
    exact assign_insertIfNew h.definition D.definitionId D.certificate id
  · intro id d hid
    rcases ArtifactState.getElem?_insertIfNew_cases hid with hid | ⟨rfl, rfl⟩
    · obtain ⟨hnew, hdefinition, hmem⟩ := h.certificate id d hid
      exact ⟨hnew, hdefinition, hlog hmem⟩
    · exact ⟨⟨kind, body, hnew⟩, hD.definitionId.symm, hwritten⟩
  · intro id
    change (assign _ _ _ _ _).isSome = true ↔ (Std.TreeSet.insert _ _).contains id = true
    rw [isSome_assign_false, KnowledgeIndex.contains_insert]
    exact or_congr Iff.rfl (h.artifact id)

end Naome
