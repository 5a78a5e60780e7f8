import Naome.ContextAgreement

/-!
# The order of registration

What a context answers is determined by the set of artifacts it has accepted, in memory and
on disk.
-/
namespace Naome
open LocallyNameless Outcome ByteCursor StorageM DiskMap DiskArtifact

namespace KnowledgeIndex

variable {sha256 : List UInt8 → Digest} {ε : Type}

theorem formula_universalInstancesFrom (current : Formula) (steps steps' : List ProofStep)
    (levels : List UInt32) :
    (universalInstancesFrom current steps levels).map UniversalInstance.formula =
      (universalInstancesFrom current steps' levels).map UniversalInstance.formula := by
  induction levels generalizing current steps steps' with
  | nil => rfl
  | cons level levels ih =>
    unfold universalInstancesFrom
    cases hopen : current.openOuterUniversal ⟨2 + level⟩ with
    | none => simp only [hopen]
    | some body =>
      simp only [hopen, List.map_cons, List.cons.injEq, true_and]
      exact ih _ _ _

/-- The projection of one universal instance, which does not depend on the proof. -/
def instanceProjection (sha256 : List UInt8 → Digest) (formula : Formula) :
    Option (BucketKind × StatementId) :=
  match formula.encodeCanonicalWithNodeLimit (AssessmentLimits.maximum.formulaNodes + 1) with
  | .ok (bytes, _) => some (.instances, Checker.statementId sha256 bytes)
  | .error _ => none

theorem projections_proof (proof proof' : ProofId) (f : Formula) :
    projections sha256 proof f = (projections sha256 proof' f : Except (Stop ε) _) := by
  have hinstances : instanceProjections sha256 proof f = instanceProjections sha256 proof' f := by
    have hmap : ∀ proof : ProofId, instanceProjections sha256 proof f =
        ((universalInstances proof f).map UniversalInstance.formula).filterMap
          (instanceProjection sha256) := by
      intro proof
      rw [List.filterMap_map]
      rfl
    rw [hmap proof, hmap proof', universalInstances, universalInstances,
      formula_universalInstancesFrom]
  unfold projections
  rw [hinstances]

theorem exists_projections {index index' : KnowledgeIndex} {proof : ProofId}
    {statement : StatementId} {f : Formula} (hnew : index.witnesses[statement]? = none)
    (h : index.registerProof sha256 proof statement f = (.ok index' : Except (Stop ε) _)) :
    ∃ found, projections sha256 proof f = (.ok found : Except (Stop ε) _) := by
  unfold registerProof at h
  simp only [hnew] at h
  obtain ⟨found, hfound, -⟩ := bind_eq_ok.mp h
  exact ⟨found, hfound⟩

end KnowledgeIndex

variable {sha256 : List UInt8 → Digest} {s s' : ArtifactState} {accepted : Set Call}

/-- The context holds exactly what the accepted artifacts say. -/
structure Summary (sha256 : List UInt8 → Digest) (accepted : Set Call) (s : ArtifactState) :
    Prop where
  canonical : ∀ call ∈ accepted, call.Canonical sha256
  wellFormed : s.WellFormed
  proof : ∀ (id : ProofId) d, s.proofs[id]? = some d ↔
    ∃ P, .proof P ∈ accepted ∧ P.proofId = id ∧ P.derivationId = d
  derivation : ∀ (id : DerivationId) st, s.derivations[id]? = some st ↔
    ∃ P, .proof P ∈ accepted ∧ P.derivationId = id ∧ P.statementId = st
  statement : ∀ (id : StatementId) stored, s.statements[id]? = some stored ↔
    ∃ P, .proof P ∈ accepted ∧ P.statementId = id ∧
      ⟨P.conclusion, P.canonicalConclusionLength, P.closed⟩ = stored
  definition : ∀ (id : DefinitionId) d, s.definitions[id]? = some d ↔
    ∃ D, .definition D ∈ accepted ∧ D.definitionId = id ∧ D.certificate = d
  artifact : ∀ id, s.questionIndex.artifacts.contains id = true ↔
    (∃ P, .proof P ∈ accepted ∧ KnowledgeIndex.artifactIdOfProof sha256 P.proofId = id) ∨
      ∃ D, .definition D ∈ accepted ∧
        KnowledgeIndex.artifactIdOfDefinition sha256 D.definitionId = id
  witness : ∀ (id : StatementId) p, s.questionIndex.witnesses[id]? = some p ↔
    (∃ P, .proof P ∈ accepted ∧ P.statementId = id ∧ P.proofId = p) ∧
      ∀ P, .proof P ∈ accepted → P.statementId = id → p ≤ P.proofId
  bucket : ∀ kind t st, st ∈ s.questionIndex.bucket kind t ↔
    ∃ P, .proof P ∈ accepted ∧ P.statementId = st ∧ ∃ found,
      KnowledgeIndex.projections sha256 P.proofId P.conclusion = (.ok found : RegisterM _) ∧
        (kind, t) ∈ found
  projected : ∀ P, .proof P ∈ accepted → ∃ found,
    KnowledgeIndex.projections sha256 P.proofId P.conclusion = (.ok found : RegisterM _)
  obligation : ∀ D, .definition D ∈ accepted → ∀ o ∈ D.obligation, ∃ Q, .proof Q ∈ accepted ∧
    Q.statementId = o.statementId ∧ Q.conclusion = o.conclusion

theorem summary_empty : Summary sha256 ∅ .empty where
  canonical _ h := h.elim
  wellFormed := ArtifactState.wellFormed_empty
  proof id d := by
    constructor
    · rintro ⟨⟩
    · rintro ⟨P, hP, -⟩
      exact hP.elim
  derivation id st := by
    constructor
    · rintro ⟨⟩
    · rintro ⟨P, hP, -⟩
      exact hP.elim
  statement id stored := by
    constructor
    · rintro ⟨⟩
    · rintro ⟨P, hP, -⟩
      exact hP.elim
  definition id d := by
    constructor
    · rintro ⟨⟩
    · rintro ⟨D, hD, -⟩
      exact hD.elim
  artifact id := by
    constructor
    · rintro ⟨⟩
    · rintro (⟨P, hP, -⟩ | ⟨D, hD, -⟩)
      · exact hP.elim
      · exact hD.elim
  witness id p := by
    constructor
    · rintro ⟨⟩
    · rintro ⟨⟨P, hP, -⟩, -⟩
      exact hP.elim
  bucket kind t st := by
    constructor
    · intro h
      cases kind <;> cases h
    · rintro ⟨P, hP, -⟩
      exact hP.elim
  projected _ h := h.elim
  obligation _ h := h.elim

/-- A value that is stored unless the same value is there already. -/
theorem insertIfNew_eq_some {V : Type} {m : DigestMap V} {key a : Digest} {v x : V}
    (hsame : ∀ y, m[key]? = some y → y = v) :
    (m.insertIfNew key v)[a]? = some x ↔ (key = a ∧ v = x) ∨ m[a]? = some x := by
  constructor
  · intro h
    rcases ArtifactState.getElem?_insertIfNew_cases h with h | ⟨rfl, rfl⟩
    · exact Or.inr h
    · exact Or.inl ⟨rfl, rfl⟩
  · rintro (⟨rfl, rfl⟩ | h)
    · cases hold : m[key]? with
      | none => exact ArtifactState.getElem?_insertIfNew_self hold
      | some y =>
        rw [← hsame y hold]
        exact ArtifactState.getElem?_insertIfNew_of_some hold
    · exact ArtifactState.getElem?_insertIfNew_of_some h

theorem exists_insert_proof {P : CheckedProof} {p : CheckedProof → Prop} :
    (∃ Q, .proof Q ∈ insert (.proof P) accepted ∧ p Q) ↔ p P ∨ ∃ Q, .proof Q ∈ accepted ∧ p Q := by
  constructor
  · rintro ⟨Q, ⟨⟨⟩⟩ | hQ, hp⟩
    · exact Or.inl hp
    · exact Or.inr ⟨Q, hQ, hp⟩
  · rintro (hp | ⟨Q, hQ, hp⟩)
    · exact ⟨P, Or.inl rfl, hp⟩
    · exact ⟨Q, Or.inr hQ, hp⟩

theorem exists_insert_definition {D : CheckedDefinition} {p : CheckedDefinition → Prop} :
    (∃ E, .definition E ∈ insert (.definition D) accepted ∧ p E) ↔
      p D ∨ ∃ E, .definition E ∈ accepted ∧ p E := by
  constructor
  · rintro ⟨E, ⟨⟨⟩⟩ | hE, hp⟩
    · exact Or.inl hp
    · exact Or.inr ⟨E, hE, hp⟩
  · rintro (hp | ⟨E, hE, hp⟩)
    · exact ⟨D, Or.inl rfl, hp⟩
    · exact ⟨E, Or.inr hE, hp⟩

/-- The conclusion of an accepted proof is found under its statement. -/
theorem Summary.statementFormula_eq (h : Summary sha256 accepted s) {Q : CheckedProof}
    (hQ : .proof Q ∈ accepted) :
    s.statementFormula Q.statementId checkerMaxFormulaWorkBytes = .ok (some Q.conclusion) := by
  have hcanonical : Q.Canonical sha256 := h.canonical _ hQ
  have hstored := (h.statement _ _).mpr ⟨Q, hQ, rfl, rfl⟩
  obtain ⟨w, hw⟩ := h.wellFormed.witness _ _ hstored
  have hlength : Q.canonicalConclusionLength ≤ checkerMaxFormulaWorkBytes := by
    rw [hcanonical.length]
    exact hcanonical.withinLimits.length_le
  exact ArtifactState.statementFormula_eq_some.mpr ⟨_, w, hstored, hw, hlength, rfl⟩

/-- A statement that is known has the conclusion of every proof that is admitted for it. -/
theorem Summary.stored_eq (h : Summary sha256 accepted s) {P : CheckedProof}
    (hP : P.Canonical sha256) (hadmitted : ArtifactState.Admitted s P) {stored : StoredStatement}
    (hstored : s.statements[P.statementId]? = some stored) :
    stored = ⟨P.conclusion, P.canonicalConclusionLength, P.closed⟩ := by
  obtain ⟨Q, hQ, hid, rfl⟩ := (h.statement _ _).mp hstored
  have hcanonical : Q.Canonical sha256 := h.canonical _ hQ
  obtain ⟨o, ho, hsame⟩ := hadmitted.statement
  rw [← hid, h.statementFormula_eq hQ] at ho
  cases ho
  have hconclusion : Q.conclusion = P.conclusion := hsame _ rfl
  have hlengths : Q.canonicalConclusionLength = P.canonicalConclusionLength := by
    rw [hcanonical.length, hP.length, hconclusion]
  simp only [hconclusion, hlengths]

theorem Summary.conclusion_eq (h : Summary sha256 accepted s) {P Q : CheckedProof}
    (hP : P.Canonical sha256) (hadmitted : ArtifactState.Admitted s P) (hQ : .proof Q ∈ accepted)
    (hid : Q.statementId = P.statementId) : Q.conclusion = P.conclusion := by
  have hstored := (h.statement _ _).mpr ⟨Q, hQ, hid, rfl⟩
  exact congrArg StoredStatement.conclusion (h.stored_eq hP hadmitted hstored)

/-- A statement has a witness exactly when it has an accepted proof. -/
theorem Summary.witness_eq_none (h : Summary sha256 accepted s) (id : StatementId) :
    s.questionIndex.witnesses[id]? = none ↔ ∀ Q, .proof Q ∈ accepted → Q.statementId ≠ id := by
  constructor
  · intro hnone Q hQ hid
    obtain ⟨w, hw⟩ := h.wellFormed.witness _ _ ((h.statement _ _).mpr ⟨Q, hQ, hid, rfl⟩)
    rw [hnone] at hw
    cases hw
  · intro hall
    cases hw : s.questionIndex.witnesses[id]? with
    | none => rfl
    | some p =>
      obtain ⟨⟨Q, hQ, hid, -⟩, -⟩ := (h.witness _ _).mp hw
      exact absurd hid (hall Q hQ)

/-- The lesser proof is the least of the accepted proofs of the statement and the new one. -/
theorem Summary.least_iff (h : Summary sha256 accepted s) (P : CheckedProof) (p : ProofId) :
    KnowledgeIndex.leastProof P.proofId s.questionIndex.witnesses[P.statementId]? = p ↔
      (∃ Q, .proof Q ∈ insert (.proof P) accepted ∧ Q.statementId = P.statementId ∧ Q.proofId = p) ∧
        ∀ Q, .proof Q ∈ insert (.proof P) accepted → Q.statementId = P.statementId →
          p ≤ Q.proofId := by
  cases hold : s.questionIndex.witnesses[P.statementId]? with
  | none =>
    have hnone := (h.witness_eq_none _).mp hold
    constructor
    · rintro rfl
      refine ⟨⟨P, Or.inl rfl, rfl, rfl⟩, ?_⟩
      rintro Q (⟨⟨⟩⟩ | hQ) hid
      · exact le_rfl
      · exact absurd hid (hnone Q hQ)
    · rintro ⟨⟨Q, ⟨⟨⟩⟩ | hQ, hid, hp⟩, -⟩
      · exact hp
      · exact absurd hid (hnone Q hQ)
  | some known =>
    obtain ⟨⟨R, hR, hRid, hRknown⟩, hleast⟩ := (h.witness _ _).mp hold
    have hmin : ∀ Q, .proof Q ∈ insert (.proof P) accepted → Q.statementId = P.statementId →
        KnowledgeIndex.leastProof P.proofId (some known) ≤ Q.proofId := by
      simp only [KnowledgeIndex.leastProof]
      rintro Q (⟨⟨⟩⟩ | hQ) hid
      · split_ifs with hlt
        · exact le_rfl
        · exact not_lt.mp hlt
      · split_ifs with hlt
        · exact hlt.le.trans (hleast Q hQ hid)
        · exact hleast Q hQ hid
    have hmem : ∃ Q, .proof Q ∈ insert (.proof P) accepted ∧ Q.statementId = P.statementId ∧
        Q.proofId = KnowledgeIndex.leastProof P.proofId (some known) := by
      simp only [KnowledgeIndex.leastProof]
      split_ifs with hlt
      · exact ⟨P, Or.inl rfl, rfl, rfl⟩
      · exact ⟨R, Or.inr hR, hRid, hRknown⟩
    constructor
    · rintro rfl
      exact ⟨hmem, hmin⟩
    · rintro ⟨⟨Q, hQ, hQid, rfl⟩, hall⟩
      obtain ⟨Q', hQ', hQid', heq⟩ := hmem
      refine le_antisymm (hmin Q hQ hQid) ?_
      rw [← heq]
      exact hall Q' hQ' hQid'

/-- The least proof of each statement after a registration. -/
theorem Summary.witness_proof (h : Summary sha256 accepted s) {P : CheckedProof}
    (hindexed : KnowledgeIndex.Indexed sha256 s.questionIndex s'.questionIndex P.proofId
      P.statementId P.conclusion) (id : StatementId) (p : ProofId) :
    s'.questionIndex.witnesses[id]? = some p ↔
      (∃ Q, .proof Q ∈ insert (.proof P) accepted ∧ Q.statementId = id ∧ Q.proofId = p) ∧
        ∀ Q, .proof Q ∈ insert (.proof P) accepted → Q.statementId = id → p ≤ Q.proofId := by
  by_cases hid : id = P.statementId
  · subst hid
    rw [hindexed.witness, Option.some.injEq]
    exact h.least_iff P p
  · rw [hindexed.other id hid, h.witness]
    constructor
    · rintro ⟨⟨Q, hQ, hrest⟩, hall⟩
      refine ⟨⟨Q, Or.inr hQ, hrest⟩, ?_⟩
      rintro R (⟨⟨⟩⟩ | hR) hRid
      · exact absurd hRid.symm hid
      · exact hall R hR hRid
    · rintro ⟨⟨Q, ⟨⟨⟩⟩ | hQ, hQid, hrest⟩, hall⟩
      · exact absurd hQid.symm hid
      · exact ⟨⟨Q, hQ, hQid, hrest⟩, fun R hR => hall R (Or.inr hR)⟩

/-- The statements of each bucket after a registration. -/
theorem Summary.bucket_proof (h : Summary sha256 accepted s) {P : CheckedProof}
    (hP : P.Canonical sha256) (hstores : ArtifactState.Stores sha256 s s' P)
    (kind : BucketKind) (t st : StatementId) : st ∈ s'.questionIndex.bucket kind t ↔
      ∃ Q, .proof Q ∈ insert (.proof P) accepted ∧ Q.statementId = st ∧ ∃ found,
        KnowledgeIndex.projections sha256 Q.proofId Q.conclusion = (.ok found : RegisterM _) ∧
          (kind, t) ∈ found := by
  rw [(KnowledgeIndex.indexed_of_registerProof hstores.index).bucket, h.bucket,
    exists_insert_proof, or_comm]
  refine or_congr_left' ?_
  intro hold
  constructor
  · rintro ⟨-, rfl, hfound⟩
    exact ⟨rfl, hfound⟩
  · rintro ⟨rfl, found, hfound, hmem⟩
    refine ⟨?_, rfl, found, hfound, hmem⟩
    -- A known statement has the same projections, so it is in the bucket already.
    rw [h.witness_eq_none]
    intro Q hQ hid
    refine hold ⟨Q, hQ, hid, found, ?_, hmem⟩
    rw [KnowledgeIndex.projections_proof Q.proofId P.proofId,
      h.conclusion_eq hP hstores.admitted hQ hid, hfound]

theorem Summary.projected_proof (h : Summary sha256 accepted s) {P : CheckedProof}
    (hP : P.Canonical sha256) (hstores : ArtifactState.Stores sha256 s s' P) : ∃ found,
    KnowledgeIndex.projections sha256 P.proofId P.conclusion = (.ok found : RegisterM _) := by
  by_cases hnew : s.questionIndex.witnesses[P.statementId]? = none
  · exact KnowledgeIndex.exists_projections hnew hstores.index
  · rw [h.witness_eq_none] at hnew
    push Not at hnew
    obtain ⟨Q, hQ, hid⟩ := hnew
    rw [KnowledgeIndex.projections_proof P.proofId Q.proofId,
      ← h.conclusion_eq hP hstores.admitted hQ hid]
    exact h.projected Q hQ

theorem Summary.proof_step (h : Summary sha256 accepted s) {P : CheckedProof}
    (hP : P.Canonical sha256) (hstores : ArtifactState.Stores sha256 s s' P) :
    Summary sha256 (insert (.proof P) accepted) s' := by
  have hindexed := KnowledgeIndex.indexed_of_registerProof hstores.index
  have hfresh := hstores.proofs_eq_none h.wellFormed
  refine {
    canonical := ?_
    wellFormed := hstores.wellFormed h.wellFormed
    proof := ?_
    derivation := ?_
    statement := ?_
    definition := ?_
    artifact := ?_
    witness := ?_
    bucket := ?_
    projected := ?_
    obligation := ?_ }
  · rintro call (rfl | hcall)
    · exact hP
    · exact h.canonical call hcall
  · intro id d
    rw [hstores.proofs, insertIfNew_eq_some (by rw [hfresh]; rintro y ⟨⟩), h.proof,
      exists_insert_proof]
  · intro id st
    rw [hstores.derivations, insertIfNew_eq_some hstores.admitted.derivation, h.derivation,
      exists_insert_proof]
  · intro id stored
    rw [hstores.statements, insertIfNew_eq_some fun y hy => h.stored_eq hP hstores.admitted hy,
      h.statement, exists_insert_proof]
  · intro id d
    rw [hstores.definitions, h.definition]
    constructor
    · rintro ⟨D, hD, hrest⟩
      exact ⟨D, Or.inr hD, hrest⟩
    · rintro ⟨D, ⟨⟨⟩⟩ | hD, hrest⟩
      exact ⟨D, hD, hrest⟩
  · intro id
    rw [hindexed.artifacts, h.artifact, exists_insert_proof]
    constructor
    · rintro (rfl | hP | ⟨D, hD, hrest⟩)
      · exact Or.inl (Or.inl rfl)
      · exact Or.inl (Or.inr hP)
      · exact Or.inr ⟨D, Or.inr hD, hrest⟩
    · rintro ((rfl | hP) | ⟨D, ⟨⟨⟩⟩ | hD, hrest⟩)
      · exact Or.inl rfl
      · exact Or.inr (Or.inl hP)
      · exact Or.inr (Or.inr ⟨D, hD, hrest⟩)
  · exact h.witness_proof hindexed
  · exact h.bucket_proof hP hstores
  · rintro Q (⟨⟨⟩⟩ | hQ)
    · exact h.projected_proof hP hstores
    · exact h.projected Q hQ
  · rintro D (⟨⟨⟩⟩ | hD) o ho
    obtain ⟨Q, hQ, hrest⟩ := h.obligation D hD o ho
    exact ⟨Q, Or.inr hQ, hrest⟩

namespace ArtifactState

variable {D : CheckedDefinition} {u : Unit}

theorem validateDefinition_eq_ok :
    Registration.validateDefinition (s.view sha256) D = .ok u ↔
      s.definitions[D.definitionId]? = none ∧ ∀ o ∈ D.obligation,
        s.statementFormula o.statementId checkerMaxFormulaWorkBytes = .ok (some o.conclusion) := by
  unfold Registration.validateDefinition
  simp only [view, Registration.access, Except.mapError, ok_bind]
  cases hold : s.definitions[D.definitionId]? with
  | some d =>
    simp only [reduceCtorEq, false_and, iff_false]
    split_ifs
    · exact fun h => by cases h
    · exact fun h => by cases h
  | none =>
    cases D.obligation with
    | none => simp
    | some o =>
      simp only [Option.mem_def, Option.some.injEq, forall_eq', true_and, bind_eq_ok,
        orError_eq_ok, require_eq_ok]
      constructor
      · rintro ⟨selected, hselected, f, rfl, rfl⟩
        exact access_eq_ok.mp hselected
      · intro h
        exact ⟨_, access_eq_ok.mpr h, o.conclusion, rfl, rfl⟩

end ArtifactState

theorem Summary.definition_step (h : Summary sha256 accepted s) {D : CheckedDefinition}
    (hD : D.Canonical sha256) (hstores : s.registerDefinition sha256 D = .ok s') :
    Summary sha256 (insert (.definition D) accepted) s' := by
  obtain ⟨kind, body, hnew⟩ := hD.certificate
  have hw := ArtifactState.wellFormed_of_registerDefinition h.wellFormed
    (ArtifactState.primitive_of_new hnew) hstores
  obtain ⟨_, hvalid, hstores⟩ := bind_eq_ok.mp hstores
  cases pure_eq_ok.mp hstores
  obtain ⟨hfresh, hobligation⟩ := ArtifactState.validateDefinition_eq_ok.1 hvalid
  have hproofs : ∀ {p : CheckedProof → Prop}, (∃ P, .proof P ∈ insert (.definition D) accepted ∧ p P) ↔
      ∃ P, .proof P ∈ accepted ∧ p P := by
    intro p
    constructor
    · rintro ⟨P, ⟨⟨⟩⟩ | hP, hp⟩
      exact ⟨P, hP, hp⟩
    · rintro ⟨P, hP, hp⟩
      exact ⟨P, Or.inr hP, hp⟩
  refine {
    canonical := ?_
    wellFormed := hw
    proof := fun id d => (h.proof id d).trans hproofs.symm
    derivation := fun id st => (h.derivation id st).trans hproofs.symm
    statement := fun id stored => (h.statement id stored).trans hproofs.symm
    definition := ?_
    artifact := ?_
    witness := ?_
    bucket := fun kind t st => (h.bucket kind t st).trans hproofs.symm
    projected := ?_
    obligation := ?_ }
  · rintro call (rfl | hcall)
    · exact hD
    · exact h.canonical call hcall
  · intro id d
    change (s.definitions.insertIfNew _ _)[id]? = some d ↔ _
    rw [insertIfNew_eq_some (by rw [hfresh]; rintro y ⟨⟩), h.definition, exists_insert_definition]
  · intro id
    change (Std.TreeSet.insert _ _).contains id = true ↔ _
    rw [KnowledgeIndex.contains_insert, h.artifact, hproofs, exists_insert_definition]
    constructor
    · rintro (rfl | hP | hE)
      · exact Or.inr (Or.inl rfl)
      · exact Or.inl hP
      · exact Or.inr (Or.inr hE)
    · rintro (hP | rfl | hE)
      · exact Or.inr (Or.inl hP)
      · exact Or.inl rfl
      · exact Or.inr (Or.inr hE)
  · intro id p
    refine (h.witness id p).trans (and_congr hproofs.symm ?_)
    constructor
    · rintro hall P (⟨⟨⟩⟩ | hP) hid
      exact hall P hP hid
    · exact fun hall P hP => hall P (Or.inr hP)
  · rintro P (⟨⟨⟩⟩ | hP)
    exact h.projected P hP
  · rintro E (⟨⟨⟩⟩ | hE) o ho
    · obtain ⟨stored, _, hstored, -, -, heq⟩ :=
        ArtifactState.statementFormula_eq_some.mp (hobligation o ho)
      obtain ⟨Q, hQ, hid, rfl⟩ := (h.statement _ _).mp hstored
      exact ⟨Q, Or.inr hQ, hid, heq.symm⟩
    · obtain ⟨Q, hQ, hrest⟩ := h.obligation E hE o ho
      exact ⟨Q, Or.inr hQ, hrest⟩

theorem Summary.step (h : Summary sha256 accepted s) {call : Call} (hcall : call.Canonical sha256)
    {bytes : List UInt8} (hperform : s.perform sha256 call = .ok (s', bytes)) :
    Summary sha256 (insert call accepted) s' := by
  cases call with
  | proof P => exact h.proof_step hcall (ArtifactState.stores_of_register h.wellFormed (Or.inr hperform))
  | definition D =>
    obtain ⟨next, hnext, heq⟩ := map_eq_ok.mp hperform
    cases heq
    exact h.definition_step hcall hnext

def Outcomes.Accepted (outcomes : Outcomes) : Prop := ∀ r ∈ outcomes, ∃ bytes, r = .ok bytes

theorem Summary.performAll (h : Summary sha256 accepted s) {calls : List Call}
    (hcalls : ∀ call ∈ calls, call.Canonical sha256)
    (haccepted : Outcomes.Accepted (ArtifactState.performAll sha256 calls s).1) :
    Summary sha256 (accepted ∪ {call | call ∈ calls})
      (ArtifactState.performAll sha256 calls s).2 := by
  induction calls generalizing s accepted with
  | nil =>
    have hset : accepted ∪ {call | call ∈ ([] : List Call)} = accepted := by
      ext call
      simp
    rw [hset]
    exact h
  | cons call calls ih =>
    have hset : accepted ∪ {c | c ∈ call :: calls} = insert call accepted ∪ {c | c ∈ calls} := by
      ext c
      simp only [Set.mem_union, Set.mem_ofPred_eq, List.mem_cons, Set.mem_insert_iff]
      tauto
    rw [hset]
    obtain ⟨bytes, hbytes⟩ := haccepted _ List.mem_cons_self
    obtain ⟨⟨s₁, _⟩, hperform, rfl⟩ := map_eq_ok.mp hbytes
    have hrest := fun r hr => haccepted r (List.mem_cons_of_mem _ hr)
    simp only [ArtifactState.performAll, hperform, ArtifactState.after] at hrest ⊢
    exact ih (h.step (hcalls call List.mem_cons_self) hperform)
      (fun c hc => hcalls c (List.mem_cons_of_mem call hc)) hrest

/-- Two checked values of the same artifact; they may have been checked in different contexts. -/
def Call.SameArtifact : Call → Call → Prop
  | .proof P, .proof Q => P.normalForm = Q.normalForm ∧ P.conclusion = Q.conclusion ∧
      P.statementId = Q.statementId ∧ P.derivationId = Q.derivationId ∧ P.proofId = Q.proofId ∧
      P.canonicalConclusionLength = Q.canonicalConclusionLength
  | .definition D, .definition E => D = E
  | _, _ => False

/-- Every artifact of the first set is one of the second. -/
def Covers (accepted accepted' : Set Call) : Prop :=
  ∀ a ∈ accepted, ∃ b ∈ accepted', a.SameArtifact b

section Equal

variable {accepted' : Set Call}

theorem Covers.proof (h : Covers accepted accepted') {p : CheckedProof → Prop}
    (hp : ∀ P Q, (Call.proof P).SameArtifact (.proof Q) → p P → p Q) :
    (∃ P, .proof P ∈ accepted ∧ p P) → ∃ Q, .proof Q ∈ accepted' ∧ p Q := by
  rintro ⟨P, hP, hpP⟩
  obtain ⟨b, hb, hsame⟩ := h _ hP
  cases b with
  | proof Q => exact ⟨Q, hb, hp P Q hsame hpP⟩
  | definition D => exact hsame.elim

theorem Covers.definition (h : Covers accepted accepted') {p : CheckedDefinition → Prop}
    (hp : ∀ D E, (Call.definition D).SameArtifact (.definition E) → p D → p E) :
    (∃ D, .definition D ∈ accepted ∧ p D) → ∃ E, .definition E ∈ accepted' ∧ p E := by
  rintro ⟨D, hD, hpD⟩
  obtain ⟨b, hb, hsame⟩ := h _ hD
  cases b with
  | proof Q => exact hsame.elim
  | definition E => exact ⟨E, hb, hp D E hsame hpD⟩

/-- What one context resolves, the other one with the same artifacts resolves too. -/
structure Includes (s s' : ArtifactState) : Prop where
  proof : ∀ (id : ProofId) d, s.proofs[id]? = some d → s'.proofs[id]? = some d
  derivation : ∀ (id : DerivationId) d, s.derivations[id]? = some d → s'.derivations[id]? = some d
  statement : ∀ (id : StatementId) d, s.statements[id]? = some d → s'.statements[id]? = some d
  definition : ∀ (id : DefinitionId) d, s.definitions[id]? = some d → s'.definitions[id]? = some d
  artifact : ∀ id, s.questionIndex.artifacts.contains id = true →
    s'.questionIndex.artifacts.contains id = true
  witness : ∀ (id : StatementId) p, s.questionIndex.witnesses[id]? = some p →
    s'.questionIndex.witnesses[id]? = some p
  bucket : ∀ kind t st, st ∈ s.questionIndex.bucket kind t → st ∈ s'.questionIndex.bucket kind t

theorem Summary.includes (h : Summary sha256 accepted s) (h' : Summary sha256 accepted' s')
    (hcovers : Covers accepted accepted') (hcovers' : Covers accepted' accepted) : Includes s s' where
  proof id d hid := by
    rw [h'.proof]
    refine hcovers.proof ?_ ((h.proof id d).mp hid)
    rintro P Q ⟨-, -, -, hderivation, hproof, -⟩ ⟨rfl, rfl⟩
    exact ⟨hproof.symm, hderivation.symm⟩
  derivation id st hid := by
    rw [h'.derivation]
    refine hcovers.proof ?_ ((h.derivation id st).mp hid)
    rintro P Q ⟨-, -, hstatement, hderivation, -, -⟩ ⟨rfl, rfl⟩
    exact ⟨hderivation.symm, hstatement.symm⟩
  statement id stored hid := by
    rw [h'.statement]
    refine hcovers.proof ?_ ((h.statement id stored).mp hid)
    rintro P Q ⟨-, hconclusion, hstatement, -, -, hlength⟩ ⟨rfl, rfl⟩
    simp only [hconclusion, hlength, hstatement, and_self]
  definition id d hid := by
    rw [h'.definition]
    refine hcovers.definition ?_ ((h.definition id d).mp hid)
    rintro D E rfl hD
    exact hD
  artifact id hid := by
    rw [h'.artifact]
    refine Or.imp (hcovers.proof ?_) (hcovers.definition ?_) ((h.artifact id).mp hid)
    · rintro P Q ⟨-, -, -, -, hproof, -⟩ rfl
      rw [hproof]
    · rintro D E rfl hD
      exact hD
  witness id p hid := by
    rw [h'.witness]
    obtain ⟨hmem, hleast⟩ := (h.witness id p).mp hid
    refine ⟨hcovers.proof ?_ hmem, ?_⟩
    · rintro P Q ⟨-, -, hstatement, -, hproof, -⟩ ⟨rfl, rfl⟩
      exact ⟨hstatement.symm, hproof.symm⟩
    · intro Q hQ hQid
      obtain ⟨P, hP, hPid, hproof⟩ := hcovers'.proof (p := fun P => P.statementId = id ∧
        P.proofId = Q.proofId) (by
          rintro R R' ⟨-, -, hstatement, -, hproof, -⟩ ⟨rfl, hR⟩
          exact ⟨hstatement.symm, hproof.symm.trans hR⟩) ⟨Q, hQ, hQid, rfl⟩
      rw [← hproof]
      exact hleast P hP hPid
  bucket kind t st hst := by
    rw [h'.bucket]
    refine hcovers.proof ?_ ((h.bucket kind t st).mp hst)
    rintro P Q ⟨-, hconclusion, hstatement, -, hproof, -⟩ ⟨rfl, found, hfound, hmem⟩
    rw [hproof, hconclusion] at hfound
    exact ⟨hstatement.symm, found, hfound, hmem⟩

theorem option_eq_of_imp {α : Type} {a b : Option α} (h : ∀ x, a = some x → b = some x)
    (h' : ∀ x, b = some x → a = some x) : a = b :=
  Option.ext fun x => ⟨h x, h' x⟩

theorem lt_of_compare {a b : Digest} (h : compare a b = .lt) : a < b :=
  compareOfLessAndEq_eq_lt.mp h

theorem pairwise_keys {V : Type} (m : DigestMap V) : m.keys.Pairwise (· < ·) :=
  Std.TreeMap.ordered_keys.imp lt_of_compare

theorem keys_eq {V : Type} {m m' : DigestMap V} (h : ∀ k : Digest, m[k]? = m'[k]?) :
    m.keys = m'.keys := by
  refine (pairwise_keys m).eq_of_mem_iff (pairwise_keys m') fun k => ?_
  rw [Std.TreeMap.mem_keys, Std.TreeMap.mem_keys, Std.TreeMap.mem_iff_isSome_getElem?,
    Std.TreeMap.mem_iff_isSome_getElem?, h]

theorem pairwise_bucket (index : KnowledgeIndex) (kind : BucketKind) (t : StatementId) :
    (index.bucket kind t).Pairwise (· < ·) := by
  have hsorted : ∀ s : DigestSet, s.toList.Pairwise (· < ·) := fun s =>
    Std.TreeSet.ordered_toList.imp lt_of_compare
  cases kind with
  | outgoing => exact hsorted _
  | deductions => exact hsorted _
  | instances => exact hsorted _

/-- Contexts that resolve the same give the same answers. -/
theorem view_eq_of_includes (h : Includes s s') (h' : Includes s' s) :
    s.view sha256 = s'.view sha256 := by
  have hproofs : ∀ id : ProofId, s.proofs[id]? = s'.proofs[id]? := fun id =>
    option_eq_of_imp (h.proof id) (h'.proof id)
  have hderivations : ∀ id : DerivationId, s.derivations[id]? = s'.derivations[id]? := fun id =>
    option_eq_of_imp (h.derivation id) (h'.derivation id)
  have hstatements : ∀ id : StatementId, s.statements[id]? = s'.statements[id]? := fun id =>
    option_eq_of_imp (h.statement id) (h'.statement id)
  have hdefinitions : ∀ id : DefinitionId, s.definitions[id]? = s'.definitions[id]? := fun id =>
    option_eq_of_imp (h.definition id) (h'.definition id)
  have hwitnesses : ∀ id : StatementId,
      s.questionIndex.witnesses[id]? = s'.questionIndex.witnesses[id]? := fun id =>
    option_eq_of_imp (h.witness id) (h'.witness id)
  have hartifacts : ∀ id, s.questionIndex.artifacts.contains id =
      s'.questionIndex.artifacts.contains id := fun id =>
    Bool.eq_iff_iff.mpr ⟨h.artifact id, h'.artifact id⟩
  have hbuckets : ∀ kind t, s.questionIndex.bucket kind t = s'.questionIndex.bucket kind t :=
    fun kind t => (pairwise_bucket _ kind t).eq_of_mem_iff (pairwise_bucket _ kind t)
      fun st => ⟨h.bucket kind t st, h'.bucket kind t st⟩
  have hknown : ∀ id, s.knownStatement id = s'.knownStatement id := by
    intro id
    unfold ArtifactState.knownStatement
    rw [hstatements, hwitnesses]
  have hresolve : ∀ id, s.resolveProof id = s'.resolveProof id := by
    intro id
    unfold ArtifactState.resolveProof
    rw [hproofs]
    simp only [hderivations, hstatements]
  have hformula : ∀ id maximum, s.statementFormula id maximum = s'.statementFormula id maximum := by
    intro id maximum
    unfold ArtifactState.statementFormula
    rw [hknown]
  simp only [ArtifactState.view, ContextView.mk.injEq, ArtifactState.snapshotId, keys_eq hproofs,
    keys_eq hdefinitions, hartifacts, hresolve, hknown, hbuckets, hdefinitions, true_and]
  exact ⟨funext fun id => funext (hformula id), funext fun header => funext (hformula header.statement),
    trivial⟩

end Equal
end Naome
