import Naome.ContextMirror

/-!
# Memory and disk contexts agree

The accesses of a context on disk return what the context in memory answers, and every
registration ends in the same way in both.
-/
namespace Naome
open LocallyNameless Outcome ByteCursor StorageM DiskMap DiskArtifact

theorem Formula.canonicalBytes_length_pos (f : Formula) : 0 < f.canonicalBytes.length := by
  unfold Formula.canonicalBytes
  cases f.node with
  | definedRelation s => exact s.elim
  | _ => simp [FormulaCodec.nodeBytes]

theorem Formula.WithinLimits.length_le {f : Formula} (h : f.WithinLimits) :
    f.canonicalBytes.length ≤ checkerMaxFormulaWorkBytes := by
  refine (FormulaCodec.length_nodeBytes_le _ (PrimitiveNode.symbols_eq_nil f.node) h.1).trans ?_
  decide

section Access

variable {σ : Type} {sha256 : List UInt8 → Digest} {S : ContextStorage σ} {I : World σ → Prop}
  {Safe : WriteLog → Prop} {log : WriteLog} {n : ℕ} {s : DiskArtifactState} {c : Contents}
  {mem : ArtifactState}

/-- What is relied on about the storage of a context: nodes, formulas and definitions are found
by their content addresses. -/
structure AuthenticContext (S : ContextStorage σ) (sha256 : List UInt8 → Digest)
    (I : World σ → Prop) (Safe : WriteLog → Prop) : Prop where
  nodes : Authentic S (storageAddress sha256) I Safe
  formulas : Authentic S (formulaAddress sha256) I Safe
  definitions : Authentic S (definitionAddress sha256) I Safe

theorem Faithful.authenticContext {records : σ → Digest → Option (List UInt8)}
    (h : Faithful S records) (sha256 : List UInt8 → Digest) :
    AuthenticContext S sha256 (Consistent records) Functional :=
  ⟨h.authentic _, h.authentic _, h.authentic _⟩

variable (hA : AuthenticContext S sha256 I Safe) (hd : Denotes sha256 log s c)
  (hm : Mirrors sha256 log n c mem) (hn : n < 2 ^ 64)

include hA hd hm

theorem gives_statementRecord (id : StatementId) :
    Gives S I Safe log (s.statementRecord sha256 id) (.ok (mem.statements[id]?.map fun stored =>
      (formulaAddress sha256 stored.conclusion.canonicalBytes, stored.canonicalLength))) := by
  unfold DiskArtifactState.statementRecord
  apply Gives.reporting
  apply Gives.bind_ok hA.nodes (hd.gives_get hA.nodes (by decide) id)
  rw [hm.statement]
  cases hstored : mem.statements[id]? with
  | none => exact Gives.pure none
  | some stored =>
    obtain ⟨hlimits, hlength, -, -⟩ := hm.stored id stored hstored
    have hle : stored.canonicalLength ≤ checkerMaxFormulaWorkBytes := hlength ▸ hlimits.length_le
    have hpos : stored.canonicalLength ≠ 0 := by
      rw [hlength]
      exact (Formula.canonicalBytes_length_pos _).ne'
    simp only [Option.map_some, decodeStatementRecord_encode hle, lift_ok_bind, if_neg hpos]
    exact Gives.pure _

theorem gives_derivationStatement (id : DerivationId) :
    Gives S I Safe log (s.derivationStatement sha256 id) (.ok mem.derivations[id]?) := by
  unfold DiskArtifactState.derivationStatement
  apply Gives.bind_ok hA.nodes (hd.gives_get hA.nodes (by decide) id)
  rw [hm.derivation]
  cases mem.derivations[id]? with
  | none => exact Gives.pure none
  | some statement =>
    simp only [Option.map_some]
    apply Gives.bind_ok hA.nodes
      (a := statement) (Gives.reporting (by rw [fixedKey_digestBytes]; exact Gives.lift _))
    exact Gives.pure _

theorem gives_containsProof (id : ProofId) :
    Gives S I Safe log (s.containsProof sha256 id) (.ok (mem.proofs.contains id)) := by
  have hcontains : mem.proofs.contains id = (c.record .proofs id).isSome := by
    rw [Std.TreeMap.contains_eq_isSome_getElem?]
    cases hid : mem.proofs[id]? with
    | none => rw [hm.proof_none id hid]; rfl
    | some d =>
      obtain ⟨depth, -, -, hrecord⟩ := hm.proof_some id d hid
      rw [hrecord]
      rfl
  rw [hcontains]
  exact hd.gives_containsKey hA.nodes (by decide) id

theorem gives_containsArtifact (id : ArtifactId) :
    Gives S I Safe log (s.containsArtifact sha256 id)
      ((mem.view sha256).containsArtifact id) := by
  have hcontains : mem.questionIndex.artifacts.contains id = (c.record .artifacts id).isSome :=
    Bool.eq_iff_iff.mpr (hm.artifact id).symm
  change Gives S I Safe log _ (.ok (mem.questionIndex.artifacts.contains id))
  rw [hcontains]
  exact hd.gives_containsKey hA.nodes (by decide) id

omit hd in
theorem gives_readFormula {id : StatementId} {stored : StoredStatement}
    (hstored : mem.statements[id]? = some stored) :
    Gives S I Safe log (DiskArtifactState.readFormula sha256 id
      (formulaAddress sha256 stored.conclusion.canonicalBytes) stored.canonicalLength)
      (.ok stored.conclusion) := by
  obtain ⟨hlimits, hlength, hstatement, hmem⟩ := hm.stored id stored hstored
  unfold DiskArtifactState.readFormula
  apply Gives.readRecord_bind hA.formulas hmem hlength.ge
  · have hdecode : Formula.decodeCanonical stored.conclusion.canonicalBytes = .ok stored.conclusion :=
      Formula.decodeCanonical_eq_ok.mpr ⟨hlimits, rfl⟩
    rw [lift_require_bind ⟨hlength.symm, rfl, hstatement⟩, hdecode]
    change Gives S I Safe log (lift (require (stored.conclusion.isClosed = true) .corrupt) >>= _) _
    rw [lift_require_bind stored.closed]
    exact Gives.pure _
  · intro b' hne
    exact ⟨.corrupt, lift_require_bind_of_not (fun h => hne h.2.1) _ _⟩

theorem gives_statementFormula (id : StatementId) (maximum : ℕ) :
    Gives S I Safe log (s.statementFormula sha256 id maximum)
      (mem.statementFormula id maximum) := by
  unfold DiskArtifactState.statementFormula ArtifactState.statementFormula
    ArtifactState.knownStatement
  apply Gives.reporting
  apply Gives.bind_ok hA.nodes (gives_statementRecord hA hd hm id)
  cases hstored : mem.statements[id]? with
  | none => exact Gives.pure none
  | some stored =>
    obtain ⟨witness, hwitness⟩ := hm.wellFormed.witness id stored hstored
    obtain ⟨hlimits, hlength, hstatement, hmem⟩ := hm.stored id stored hstored
    have hpos : stored.canonicalLength ≠ 0 := by
      rw [hlength]
      exact (Formula.canonicalBytes_length_pos _).ne'
    simp only [Option.map_some, hwitness, Option.bind_eq_bind, Option.bind_some, Option.pure_def]
    by_cases hmax : maximum < stored.canonicalLength
    · rw [if_pos hmax, lift_require_bind_of_not fun h => absurd h.2 (by omega)]
      exact Gives.lift _
    · rw [if_neg hmax, lift_require_bind ⟨hpos, by omega⟩]
      apply Gives.bind_ok hA.nodes (gives_readFormula hA hm hstored)
      exact Gives.pure _

theorem gives_definition (id : DefinitionId) :
    Gives S I Safe log (s.definition sha256 id) (.ok mem.definitions[id]?) := by
  unfold DiskArtifactState.definition
  apply Gives.reporting
  apply Gives.bind_ok hA.nodes (hd.gives_get hA.nodes (by decide) id)
  rw [hm.definition]
  cases hid : mem.definitions[id]? with
  | none => exact Gives.pure none
  | some d =>
    obtain ⟨⟨kind, body, hnew⟩, hdefinition, hmem⟩ := hm.certificate id d hid
    obtain ⟨hvalid, rfl⟩ := DefinitionCertificate.new_eq_ok.mp hnew
    have hbody := hvalid.withinLimits.length_le
    have hlength : (DefinitionCertificate.bytesOf kind body).length ≤ definitionMaxBytes := by
      rw [DefinitionCertificate.length_bytesOf, definitionMaxBytes]
      omega
    have hwork : (DefinitionCertificate.bytesOf kind body).length ≤ checkerMaxFormulaWorkBytes :=
      hlength.trans (by decide)
    have hpos : (DefinitionCertificate.bytesOf kind body).length ≠ 0 := by
      rw [DefinitionCertificate.length_bytesOf]
      omega
    have hdecode : DefinitionCertificate.fromCanonicalBytes sha256
        (DefinitionCertificate.bytesOf kind body) =
        .ok (DefinitionCertificate.fromParts sha256 kind body
          (DefinitionCertificate.bytesOf kind body)) :=
      DefinitionCertificate.fromCanonicalBytes_eq_ok.mpr ⟨kind, body, hvalid, rfl, rfl⟩
    simp only [Option.map_some]
    change Gives S I Safe log (lift (definitionRecord (encodeStatementRecord
      (definitionAddress sha256 (DefinitionCertificate.bytesOf kind body))
      (DefinitionCertificate.bytesOf kind body).length)) >>= _) _
    rw [definitionRecord_encode hpos hlength hwork, lift_ok_bind]
    change (definitionAddress sha256 (DefinitionCertificate.bytesOf kind body),
      DefinitionCertificate.bytesOf kind body) ∈ log at hmem
    apply Gives.readRecord_bind hA.definitions hmem le_rfl
    · rw [hdecode]
      change Gives S I Safe log (lift (require _ .corrupt) >>= _) _
      rw [lift_require_bind ⟨rfl, rfl, hdefinition⟩]
      exact Gives.pure _
    · intro b' hne
      cases hcertificate : DefinitionCertificate.fromCanonicalBytes sha256 b' with
      | error e => exact ⟨.corrupt, rfl⟩
      | ok d =>
        refine ⟨.corrupt, ?_⟩
        change (lift (require _ _) >>= _) = _
        exact lift_require_bind_of_not (fun h => hne h.2.1) _ _

include hn

theorem gives_proofHeader (id : ProofId) :
    ∃ found, Gives S I Safe log (s.proofHeader sha256 id) (.ok found) ∧
      found.map Prod.fst = mem.resolveProof id := by
  unfold DiskArtifactState.proofHeader
  cases hid : mem.proofs[id]? with
  | none =>
    refine ⟨none, ?_, ?_⟩
    · apply Gives.reporting
      apply Gives.bind_ok hA.nodes (hd.gives_get hA.nodes (by decide) id)
      rw [hm.proof_none id hid]
      exact Gives.pure none
    · simp [ArtifactState.resolveProof, hid]
  | some d =>
    obtain ⟨depth, hpos, hle, hrecord⟩ := hm.proof_some id d hid
    obtain ⟨statement, hstatement⟩ := hm.wellFormed.derivation id d hid
    obtain ⟨stored, hstored⟩ := hm.wellFormed.statement d statement hstatement
    obtain ⟨hlimits, hlength, -, -⟩ := hm.stored statement stored hstored
    have hnonzero : stored.canonicalLength ≠ 0 := by
      rw [hlength]
      exact (Formula.canonicalBytes_length_pos _).ne'
    refine ⟨some (⟨d, statement, stored.canonicalLength⟩,
      ⟨formulaAddress sha256 stored.conclusion.canonicalBytes, s.snapshotId sha256⟩), ?_, ?_⟩
    · apply Gives.reporting
      apply Gives.bind_ok hA.nodes (hd.gives_get hA.nodes (by decide) id)
      rw [hrecord]
      simp only
      rw [proofRecord_encode hpos.ne' (by omega), lift_ok_bind]
      apply Gives.bind_ok hA.nodes (hd.gives_get hA.nodes (by decide) d)
      rw [hm.derivation, hstatement]
      change Gives S I Safe log (lift (fixedKey (digestBytes statement)) >>= _) _
      rw [fixedKey_digestBytes, lift_ok_bind]
      apply Gives.bind_ok hA.nodes (gives_statementRecord hA hd hm statement)
      rw [hstored]
      have hheader : headerLength stored.canonicalLength = stored.canonicalLength := if_neg hnonzero
      change Gives S I Safe log (pure (some ((⟨d, statement, headerLength stored.canonicalLength⟩ :
        ProofHeader), (_ : FormulaLocation)))) _
      rw [hheader]
      exact Gives.pure _
    · exact (ArtifactState.resolveProof_eq_some.mpr ⟨stored, hid, hstatement, hstored, rfl⟩).symm

omit hn in
theorem gives_statementHeader (id : StatementId) :
    ∃ found, Gives S I Safe log (s.statementHeader sha256 id) (.ok found) ∧
      .ok (found.map Prod.fst) = (mem.view sha256).statementHeader id := by
  unfold DiskArtifactState.statementHeader
  cases hstored : mem.statements[id]? with
  | none =>
    refine ⟨none, ?_, ?_⟩
    · apply Gives.reporting
      apply Gives.bind_ok hA.nodes (gives_statementRecord hA hd hm id)
      rw [hstored]
      exact Gives.pure none
    · simp [ArtifactState.view, ArtifactState.knownStatement, hstored]
  | some stored =>
    obtain ⟨witness, hwitness⟩ := hm.wellFormed.witness id stored hstored
    obtain ⟨hlimits, hlength, -, -⟩ := hm.stored id stored hstored
    have hnonzero : stored.canonicalLength ≠ 0 := by
      rw [hlength]
      exact (Formula.canonicalBytes_length_pos _).ne'
    have hheader : headerLength stored.canonicalLength = stored.canonicalLength := if_neg hnonzero
    refine ⟨some (⟨witness, stored.canonicalLength⟩,
      ⟨formulaAddress sha256 stored.conclusion.canonicalBytes, s.snapshotId sha256⟩), ?_, ?_⟩
    · apply Gives.reporting
      apply Gives.bind_ok hA.nodes (gives_statementRecord hA hd hm id)
      rw [hstored]
      simp only [Option.map_some]
      apply Gives.bind_ok hA.nodes (hd.gives_get hA.nodes (by decide) id)
      rw [hm.witness, hwitness]
      change Gives S I Safe log (lift (fixedKey (digestBytes witness)) >>= _) _
      rw [fixedKey_digestBytes, lift_ok_bind, hheader]
      exact Gives.pure _
    · simp [ArtifactState.view, ArtifactState.knownStatement, hstored, hwitness]

theorem gives_proofDependencyDepth (id : ProofId) :
    ∃ depth, Gives S I Safe log (s.proofDependencyDepth sha256 id) (.ok depth) ∧
      (depth = none ↔ mem.proofs[id]? = none) ∧ ∀ d ∈ depth, d ≤ n := by
  unfold DiskArtifactState.proofDependencyDepth
  cases hid : mem.proofs[id]? with
  | none =>
    refine ⟨none, ?_, by simp, by simp⟩
    apply Gives.reporting
    apply Gives.bind_ok hA.nodes (hd.gives_get hA.nodes (by decide) id)
    rw [hm.proof_none id hid]
    exact Gives.pure none
  | some d =>
    obtain ⟨depth, hpos, hle, hrecord⟩ := hm.proof_some id d hid
    refine ⟨some depth, ?_, by simp, by simpa using hle⟩
    apply Gives.reporting
    apply Gives.bind_ok hA.nodes (hd.gives_get hA.nodes (by decide) id)
    rw [hrecord]
    simp only
    rw [proofRecord_encode hpos.ne' (by omega), lift_ok_bind]
    exact Gives.pure _

end Access

namespace Registration

/-- What a known derivation is, where aliases are admitted. -/
def admitAlias : RegisterM Unit → RegisterM Unit
  | .error (.error (.duplicateDerivation _)) => .ok ()
  | r => r

theorem admitAlias_of_never {x : RegisterM Unit} (h : ArtifactState.NeverDuplicate x) :
    admitAlias x = x := by
  unfold admitAlias
  split
  · rename_i id
    exact absurd rfl (h id)
  · rfl

theorem admitAlias_bind {α : Type} {x : RegisterM α} {f : α → RegisterM Unit}
    (h : ArtifactState.NeverDuplicate x) :
    admitAlias (x >>= f) = x >>= fun a => admitAlias (f a) := by
  cases x with
  | ok a => rfl
  | error stop =>
    apply admitAlias_of_never
    intro id hid
    exact h id (by cases hid; rfl)

/-- Admitting aliases changes the outcome for a known derivation only. -/
theorem validate_aliases (state : RegistrationView) (P : CheckedProof) :
    validate state P true = admitAlias (validate state P false) := by
  unfold validate
  rw [admitAlias_bind (ArtifactState.neverDuplicate_access _)]
  congr 1
  funext header
  cases header with
  | some header =>
    exact (admitAlias_of_never (ArtifactState.neverDuplicate_refuseKnown state P header)).symm
  | none =>
    simp only
    rw [admitAlias_bind (ArtifactState.neverDuplicate_validateDependencies state _)]
    congr 1
    funext _
    rw [admitAlias_bind (ArtifactState.neverDuplicate_access _)]
    congr 1
    funext statement
    cases statement with
    | none =>
      exact (admitAlias_of_never (ArtifactState.neverDuplicate_sameStatement state P)).symm
    | some statement =>
      simp only [validateAlias]
      rw [admitAlias_bind (ArtifactState.neverDuplicate_require (by simp))]
      congr 1
      funext _
      rw [admitAlias_bind (ArtifactState.neverDuplicate_sameStatement state P)]
      rfl

end Registration

/-- The index fails only in an assertion about the projections of a new statement. -/
theorem KnowledgeIndex.registerProof_outcome {sha256 : List UInt8 → Digest} {index : KnowledgeIndex}
    {proof : ProofId} {statement : StatementId} {f : Formula} :
    (index.registerProof sha256 proof statement f : RegisterM _).map (fun _ => ()) =
      if index.witnesses[statement]?.isSome then .ok ()
      else (projections sha256 proof f).map fun _ => () := by
  unfold registerProof
  simp only
  cases index.witnesses[statement]? with
  | some known => rfl
  | none =>
    simp only [Option.isSome_none, Bool.false_eq_true, if_false]
    cases projections sha256 proof f with
    | ok found => rfl
    | error stop => rfl

namespace ArtifactState

variable {sha256 : List UInt8 → Digest} {s : ArtifactState} {P : CheckedProof}

/-- The state after a registration, which is unchanged by a refusal. -/
def after {α : Type} (s : ArtifactState) : RegisterM (ArtifactState × α) → ArtifactState
  | .ok (s', _) => s'
  | .error _ => s

/-- A refused registration, with aliases admitted. -/
theorem registerProofForReplication_refused {stop : Stop ArtifactStateError}
    (h : Registration.validate (s.registrationView sha256) P true = .error stop) :
    s.registerProofForReplication sha256 P = .error stop := by
  rw [Registration.validate_aliases] at h
  have hvalidate : s.validateProofRegistration sha256 P = .error stop := by
    unfold Registration.admitAlias at h
    split at h
    · cases h
    · exact h
  unfold registerProofForReplication
  rw [hvalidate]
  split
  · rename_i id heq
    cases heq
    unfold validateProofRegistration at hvalidate
    rw [hvalidate] at h
    cases h
  · rename_i stop' _ heq
    cases heq
    rfl
  · rename_i heq
    cases heq

/-- An admitted registration ends as its index and its bytes do. -/
theorem registerProofForReplication_admitted
    (h : Registration.validate (s.registrationView sha256) P true = .ok ()) :
    Admitted s P ∧ (s.registerProofForReplication sha256 P).map Prod.snd = (do
      let _ ← s.questionIndex.registerProof sha256 P.proofId P.statementId P.conclusion
      P.normalForm.canonicalBytes.mapError fun _ => .panic) := by
  rw [Registration.validate_aliases] at h
  have hcases : s.validateProofRegistration sha256 P = .ok () ∨
      ∃ id, s.validateProofRegistration sha256 P = .error (.error (.duplicateDerivation id)) := by
    unfold Registration.admitAlias at h
    split at h
    · rename_i id heq
      exact Or.inr ⟨id, heq⟩
    · exact Or.inl h
  refine ⟨(admitted_of_validate hcases).1, ?_⟩
  unfold registerProofForReplication
  rcases hcases with hok | ⟨id, hduplicate⟩
  · simp only [hok, registerProof, ok_bind]
    cases s.questionIndex.registerProof sha256 P.proofId P.statementId P.conclusion with
    | error stop => rfl
    | ok index =>
      cases P.normalForm.canonicalBytes with
      | error e => rfl
      | ok bytes => rfl
  · rw [hduplicate]
    simp only
    cases s.questionIndex.registerProof sha256 P.proofId P.statementId P.conclusion with
    | error stop => rfl
    | ok index =>
      cases P.normalForm.canonicalBytes with
      | error e => rfl
      | ok bytes => rfl

end ArtifactState

section Registration

variable {σ : Type} {sha256 : List UInt8 → Digest} {S : ContextStorage σ} {I : World σ → Prop}
  {Safe : WriteLog → Prop} {log : WriteLog} {n : ℕ} {s : DiskArtifactState} {c : Contents}
  {mem : ArtifactState} {w : World σ} (hA : AuthenticContext S sha256 I Safe)
  (hd : Denotes sha256 log s c) (hm : Mirrors sha256 log n c mem)

include hA hd hm

theorem answers_sameStatement (P : CheckedProof) :
    Answers S I Safe log (DiskArtifactState.sameStatement sha256 P) s
      (Registration.sameStatement (mem.registrationView sha256) P) := by
  apply Answers.bind hA.nodes (Answers.reading (gives_statementFormula hA hd hm _ _))
  intro stored _
  exact Answers.outcome _

theorem answers_validateDependencies (steps : List ProofStep) :
    Answers S I Safe log (DiskArtifactState.validateDependencies sha256 steps) s
      (Registration.validateDependencies (mem.registrationView sha256) steps) := by
  apply Answers.forM hA.nodes
  intro step _
  apply Answers.bind hA.nodes
  · cases step with
    | proofReference id =>
      apply Answers.bind hA.nodes (Answers.reading (gives_containsProof hA hd hm id))
      intro known _
      exact Answers.outcome _
    | _ => exact Answers.pure ()
  · intro _ _
    apply Answers.forM hA.nodes
    intro id _
    apply Answers.bind hA.nodes (Answers.reading (gives_definition hA hd hm id))
    intro certificate _
    exact Answers.outcome _

theorem answers_validate (hn : n < 2 ^ 64) (P : CheckedProof) (aliases : Bool) :
    Answers S I Safe log (DiskArtifactState.validate sha256 P aliases) s
      (Registration.validate (mem.registrationView sha256) P aliases) := by
  obtain ⟨found, hheader, hfound⟩ := gives_proofHeader hA hd hm hn P.proofId
  unfold DiskArtifactState.validate Registration.validate
  have hview : (mem.registrationView sha256).view.proofHeader P.proofId =
      .ok (found.map Prod.fst) := by
    rw [hfound]
    rfl
  rw [hview, Registration.access, Except.mapError, ok_bind]
  apply Answers.bind_ok hA.nodes (Answers.reading_ok hheader)
  cases found with
  | some header =>
    apply Answers.bind hA.nodes (Answers.outcome _)
    intro _ _
    apply Answers.bind hA.nodes (answers_sameStatement hA hd hm P)
    intro _ _
    exact Answers.outcome _
  | none =>
    apply Answers.bind hA.nodes (answers_validateDependencies hA hd hm _)
    intro _ _
    apply Answers.bind hA.nodes (Answers.reading (gives_derivationStatement hA hd hm _))
    intro statement _
    cases statement with
    | none => exact answers_sameStatement hA hd hm P
    | some statement =>
      apply Answers.bind hA.nodes (Answers.outcome _)
      intro _ _
      apply Answers.bind hA.nodes (answers_sameStatement hA hd hm P)
      intro _ _
      exact Answers.outcome _

theorem answers_validateDefinition (D : CheckedDefinition) :
    Answers S I Safe log (DiskArtifactState.validateDefinition sha256 D) s
      (Registration.validateDefinition (mem.view sha256) D) := by
  apply Answers.bind hA.nodes (Answers.reading (gives_definition hA hd hm D.definitionId))
  intro known _
  cases known with
  | some known =>
    simp only
    split_ifs
    · exact Answers.outcome _
    · exact Answers.outcome _
  | none =>
    cases D.obligation with
    | none => exact Answers.pure ()
    | some obligation =>
      apply Answers.bind hA.nodes (Answers.reading (gives_statementFormula hA hd hm _ _))
      intro selected _
      apply Answers.bind hA.nodes (Answers.outcome _)
      intro selected _
      exact Answers.outcome _

/-- The depth of admitted dependencies is that of one of at most `n` registered proofs. -/
theorem answers_dependencyDepth (hn : n < 2 ^ 64) {steps : List ProofStep}
    (hselected : ∀ id, .proofReference id ∈ steps → ∃ d, mem.proofs[id]? = some d) :
    ∃ depth, Answers S I Safe log (DiskArtifactState.dependencyDepth sha256 steps) s (.ok depth) ∧
      depth ≤ n := by
  induction steps with
  | nil => exact ⟨0, Answers.pure 0, Nat.zero_le n⟩
  | cons step steps ih =>
    obtain ⟨rest, hrest, hle⟩ := ih fun id hid => hselected id (List.mem_cons_of_mem step hid)
    by_cases hreference : ∃ id, step = .proofReference id
    · obtain ⟨id, rfl⟩ := hreference
      obtain ⟨d, hd'⟩ := hselected id List.mem_cons_self
      obtain ⟨depth, hgives, hnone, hbound⟩ := gives_proofDependencyDepth hA hd hm hn id
      cases depth with
      | none =>
        rw [hnone.mp rfl] at hd'
        cases hd'
      | some depth =>
        refine ⟨max depth rest, ?_, max_le (hbound depth rfl) hle⟩
        apply Answers.bind_ok hA.nodes (Answers.reading_ok hgives)
        apply Answers.bind_ok hA.nodes (Answers.outcome (.ok depth))
        apply Answers.bind_ok hA.nodes hrest
        exact Answers.pure _
    · refine ⟨rest, ?_, hle⟩
      have hskip : DiskArtifactState.dependencyDepth sha256 (step :: steps) =
          DiskArtifactState.dependencyDepth sha256 steps := by
        cases step with
        | proofReference id => exact absurd ⟨id, rfl⟩ hreference
        | _ => rfl
      rw [hskip]
      exact hrest

omit hA hd hm in
theorem Mirrors.succ (hm : Mirrors sha256 log n c mem) : Mirrors sha256 log (n + 1) c mem :=
  { hm with
    proof_some := by
      intro id d hid
      obtain ⟨depth, hpos, hle, hrecord⟩ := hm.proof_some id d hid
      exact ⟨depth, hpos, by omega, hrecord⟩ }

omit hA hd hm in
theorem Mirrors.admits (hm : Mirrors sha256 log n c mem) {P : CheckedProof}
    (hadmitted : ArtifactState.Admitted mem P) (depth : ℕ) :
    c.Admits (P.fact sha256 depth) where
  statement known hknown := by
    have hknown : c.record .statements P.statementId = some known := hknown
    rw [hm.statement] at hknown
    obtain ⟨stored, hstored, rfl⟩ := Option.map_eq_some_iff.mp hknown
    obtain ⟨witness, hwitness⟩ := hm.wellFormed.witness _ _ hstored
    obtain ⟨o, ho, hsame⟩ := hadmitted.statement
    obtain ⟨hlimits, hlength, -, -⟩ := hm.stored _ _ hstored
    have hfound : mem.statementFormula P.statementId checkerMaxFormulaWorkBytes =
        .ok (some stored.conclusion) :=
      ArtifactState.statementFormula_eq_some.mpr
        ⟨stored, witness, hstored, hwitness, hlength ▸ hlimits.length_le, rfl⟩
    rw [hfound] at ho
    cases ho
    have hconclusion := hsame _ rfl
    rw [hlength, hconclusion]
    rfl
  derivation known hknown := by
    have hknown : c.record .derivations P.derivationId = some known := hknown
    rw [hm.derivation] at hknown
    obtain ⟨statement, hstatement, rfl⟩ := Option.map_eq_some_iff.mp hknown
    rw [hadmitted.derivation statement hstatement]
    rfl

omit hd hm in
/-- The publication of an admitted proof. -/
theorem updates_publication (hw : I w) (hd : Denotes sha256 w.written s c)
    (hm : Mirrors sha256 w.written n c mem) {P : CheckedProof} (hP : P.Canonical sha256)
    (hadmitted : ArtifactState.Admitted mem P)
    (houtcome : (mem.registerProofForReplication sha256 P).map Prod.snd = (do
      let _ ← mem.questionIndex.registerProof sha256 P.proofId P.statementId P.conclusion
      P.normalForm.canonicalBytes.mapError fun _ => .panic))
    (hwritten : (formulaAddress sha256 P.conclusion.canonicalBytes,
      P.conclusion.canonicalBytes) ∈ w.written) {depth : ℕ} (hdepth : depth ≤ n) :
    Updates S I Safe (do
      DiskArtifactState.registerFact sha256 P.proofId P.derivationId P.statementId (depth + 1)
        (encodeStatementRecord (formulaAddress sha256 P.conclusion.canonicalBytes)
          P.conclusion.canonicalBytes.length) (some P.conclusion)
      UpdateM.outcome (P.normalForm.canonicalBytes.mapError fun _ => .panic)) s w
      (fun r s' w' => r = (mem.registerProofForReplication sha256 P).map Prod.snd ∧
        ∀ mem' bytes, mem.registerProofForReplication sha256 P = .ok (mem', bytes) →
          ∃ c', Denotes sha256 w'.written s' c' ∧ Mirrors sha256 w'.written (n + 1) c' mem')
      fun _ _ => True := by
  have hrecord : (P.fact sha256 (depth + 1)).record.length ≤ maxValueBytes := by
    simp [CheckedProof.fact, encodeStatementRecord, maxValueBytes]
  have hfact := hd.updates_registerFact hA.nodes hw (hm.admits hadmitted (depth + 1)) hrecord
    (hm.witness P.statementId) (some P.conclusion) rfl
  have hindex : (mem.questionIndex.registerProof sha256 P.proofId P.statementId P.conclusion :
      RegisterM _).map (fun _ => ()) = _ := KnowledgeIndex.registerProof_outcome
  apply Updates.bind hA.nodes hw hfact
  · rintro _ s₁ w₁ _ hgrow ⟨hok, hstate⟩
    apply Updates.outcome
    obtain ⟨index, hregistered, -⟩ := map_eq_ok.mp (hindex.trans hok.symm)
    refine ⟨by rw [houtcome, hregistered]; rfl, ?_⟩
    intro mem' bytes hmem
    have hstores := ArtifactState.stores_of_register hm.wellFormed (Or.inr hmem)
    cases hknown : mem.questionIndex.witnesses[P.statementId]? with
    | some known =>
      rw [hknown] at hstate
      refine ⟨_, hstate [] (Or.inl rfl), ?_⟩
      have hnone : mem.questionIndex.witnesses[P.statementId]? = none →
          KnowledgeIndex.projections sha256 P.proofId P.conclusion = (.ok [] : RegisterM _) := by
        rw [hknown]
        rintro ⟨⟩
      have hmirrors := hm.register hP hstores hgrow (hgrow hwritten) (Nat.succ_pos depth)
        (by omega : depth + 1 ≤ n + 1) hnone
      rwa [hknown] at hmirrors
    | none =>
      rw [hknown] at hok hstate
      obtain ⟨found, hfound, -⟩ := map_eq_ok.mp hok.symm
      refine ⟨_, hstate found (Or.inr hfound), ?_⟩
      have hmirrors := hm.register hP hstores hgrow (hgrow hwritten) (Nat.succ_pos depth)
        (by omega : depth + 1 ≤ n + 1) fun _ => hfound
      rwa [hknown] at hmirrors
  · rintro stop s₁ w₁ hgrow ⟨hstop, -⟩
    have hindex := hindex.trans hstop.symm
    rw [houtcome]
    cases hregistered : (mem.questionIndex.registerProof sha256 P.proofId P.statementId
        P.conclusion : RegisterM _) with
    | ok index =>
      rw [hregistered] at hindex
      cases hindex
    | error stop' =>
      rw [hregistered] at hindex houtcome
      cases hindex
      refine ⟨rfl, ?_⟩
      intro mem' bytes hmem
      rw [hmem] at houtcome
      cases houtcome
  · exact fun _ _ _ _ => trivial

omit hd hm in
/-- A proof is registered on disk as in memory. -/
theorem updates_registerProof (hw : I w) (hd : Denotes sha256 w.written s c)
    (hm : Mirrors sha256 w.written n c mem) (hn : n + 1 < 2 ^ 64) {P : CheckedProof}
    (hP : P.Canonical sha256) :
    Updates S I Safe (DiskArtifactState.registerProofForReplication sha256 P) s w
      (fun r s' w' => r = (mem.registerProofForReplication sha256 P).map Prod.snd ∧
        ∃ c', Denotes sha256 w'.written s' c' ∧ Mirrors sha256 w'.written (n + 1) c'
          (mem.after (mem.registerProofForReplication sha256 P))) fun s' _ => s' = s := by
  have hinner : Updates S I Safe (do
      DiskArtifactState.validate sha256 P true
      let depth ← DiskArtifactState.dependencyDepth sha256 P.normalForm.certificate.steps
      UpdateM.check (depth + 1 < 2 ^ 64) (.context .limit)
      let bytes ← UpdateM.access (lift (P.conclusion.encodeCanonical.mapError fun _ => .corrupt))
      UpdateM.check (bytes.length = P.canonicalConclusionLength ∧
        bytes.length ≤ checkerMaxFormulaWorkBytes) (.context .limit)
      let address := formulaAddress sha256 bytes
      UpdateM.access (writeRecord address bytes)
      DiskArtifactState.registerFact sha256 P.proofId P.derivationId P.statementId (depth + 1)
        (encodeStatementRecord address bytes.length) (some P.conclusion)
      UpdateM.outcome (P.normalForm.canonicalBytes.mapError fun _ => .panic)) s w
      (fun r s' w' => r = (mem.registerProofForReplication sha256 P).map Prod.snd ∧
        ∀ mem' bytes, mem.registerProofForReplication sha256 P = .ok (mem', bytes) →
          ∃ c', Denotes sha256 w'.written s' c' ∧ Mirrors sha256 w'.written (n + 1) c' mem')
      fun _ _ => True := by
    apply Updates.bind hA.nodes hw
      (answers_validate hA hd hm (by omega) P true w hw (List.Subset.refl _))
    · rintro _ _ w₁ hw₁ hgrow₁ ⟨hvalid, rfl⟩
      obtain ⟨hadmitted, houtcome⟩ :=
        ArtifactState.registerProofForReplication_admitted hvalid.symm
      obtain ⟨depth, hdepth, hle⟩ := answers_dependencyDepth hA hd hm (by omega)
        hadmitted.selected.proof
      apply Updates.bind hA.nodes hw₁ (hdepth w₁ hw₁ hgrow₁)
      · rintro _ _ w₂ hw₂ hgrow₂ ⟨⟨rfl⟩, rfl⟩
        have hencode : P.conclusion.encodeCanonical = .ok P.conclusion.canonicalBytes :=
          Formula.encodeCanonical_eq_ok.mpr ⟨hP.withinLimits, rfl⟩
        rw [UpdateM.check_bind (by omega), hencode]
        change Updates S I Safe (UpdateM.check _ _ >>= _) _ w₂ _ _
        rw [UpdateM.check_bind ⟨hP.length.symm, hP.withinLimits.length_le⟩]
        apply Updates.bind hA.nodes hw₂ (Succeeds.reading (Ensures.writeRecord hw₂ _ _))
        · rintro _ _ w₃ hw₃ hgrow₃ ⟨_, -, rfl, hwritten⟩
          have hgrow := List.Subset.trans hgrow₁ (List.Subset.trans hgrow₂ hgrow₃)
          exact updates_publication hA hw₃ (hd.mono hgrow) (hm.mono hgrow) hP hadmitted houtcome
            hwritten (by omega)
        · rintro stop _ _ _ ⟨_, ⟨⟩, _⟩
        · exact fun _ _ _ _ => trivial
      · rintro stop _ _ _ ⟨⟨⟩, _⟩
      · exact fun _ _ _ _ => trivial
    · rintro stop s' w' _ ⟨hvalid, -⟩
      have hrefused := ArtifactState.registerProofForReplication_refused hvalid.symm
      rw [hrefused]
      exact ⟨rfl, by rintro mem' bytes ⟨⟩⟩
    · exact fun _ _ _ _ => trivial
  apply (Updates.publishing hA.nodes hw hinner).mono
  · rintro r s' w' - ⟨hgrow, ⟨⟨a, ha⟩, hr, hstate⟩ | ⟨⟨stop, hstop⟩, rfl, s'', hr, -⟩⟩
    · refine ⟨hr, ?_⟩
      cases hmem : mem.registerProofForReplication sha256 P with
      | error stop =>
        rw [ha, hmem] at hr
        cases hr
      | ok next => exact hstate next.1 next.2 hmem
    · refine ⟨hr, c, hd.mono hgrow, ?_⟩
      cases hmem : mem.registerProofForReplication sha256 P with
      | error stop => exact (hm.mono hgrow).succ
      | ok next =>
        rw [hstop, hmem] at hr
        cases hr
  · exact fun _ _ _ h => h

omit hd hm in
/-- A definition is registered on disk as in memory. -/
theorem updates_registerDefinition (hw : I w) (hd : Denotes sha256 w.written s c)
    (hm : Mirrors sha256 w.written n c mem) {D : CheckedDefinition} (hD : D.Canonical sha256) :
    Updates S I Safe (DiskArtifactState.registerDefinition sha256 D) s w
      (fun r s' w' => r = (mem.registerDefinition sha256 D).map (fun _ => ()) ∧
        ∃ c', Denotes sha256 w'.written s' c' ∧ Mirrors sha256 w'.written (n + 1) c'
          (mem.after ((mem.registerDefinition sha256 D).map fun mem' => (mem', ()))))
      fun s' _ => s' = s := by
  have hrecord : ∀ address length, (encodeStatementRecord address length).length ≤ maxValueBytes := by
    intro address length
    simp [encodeStatementRecord, maxValueBytes]
  have hidentity : (DiskArtifact.definitionIdentity D.definitionId).length ≤ maxValueBytes := by
    simp [DiskArtifact.definitionIdentity, maxValueBytes]
  have hinner : Updates S I Safe (do
      DiskArtifactState.validateDefinition sha256 D
      let bytes := D.certificate.canonical
      let address := definitionAddress sha256 bytes
      UpdateM.access (writeRecord address bytes)
      DiskArtifactState.insertInto sha256 .definitions D.definitionId
        (encodeStatementRecord address bytes.length)
      DiskArtifactState.insertInto sha256 .artifacts
        (KnowledgeIndex.artifactIdOfDefinition sha256 D.definitionId)
        (DiskArtifact.definitionIdentity D.definitionId)) s w
      (fun r s' w' => r = (mem.registerDefinition sha256 D).map (fun _ => ()) ∧
        ∀ mem', mem.registerDefinition sha256 D = .ok mem' →
          ∃ c', Denotes sha256 w'.written s' c' ∧ Mirrors sha256 w'.written (n + 1) c' mem')
      fun _ _ => True := by
    apply Updates.bind hA.nodes hw
      (answers_validateDefinition hA hd hm D w hw (List.Subset.refl _))
    · rintro _ _ w₁ hw₁ hgrow₁ ⟨hvalid, rfl⟩
      apply Updates.bind hA.nodes hw₁ (Succeeds.reading (Ensures.writeRecord hw₁ _ _))
      · rintro _ _ w₂ hw₂ hgrow₂ ⟨_, -, rfl, hwritten⟩
        have hd₂ := hd.mono (List.Subset.trans hgrow₁ hgrow₂)
        apply Updates.bind hA.nodes hw₂
          (hd₂.succeeds_insertInto hA.nodes hw₂ (by decide) (hrecord _ _))
        · rintro _ s₃ w₃ hw₃ hgrow₃ ⟨_, -, hd₃⟩
          apply Updates.mono (hd₃.succeeds_insertInto hA.nodes hw₃ (by decide) hidentity)
          · rintro r s₄ w₄ hgrow₄ ⟨_, rfl, hd₄⟩
            have hgrow := List.Subset.trans hgrow₁ (List.Subset.trans hgrow₂
              (List.Subset.trans hgrow₃ hgrow₄))
            refine ⟨?_, fun mem' hmem => ⟨_, hd₄, hm.define hD hmem hgrow
              (hgrow₄ (hgrow₃ hwritten))⟩⟩
            unfold ArtifactState.registerDefinition
            rw [← hvalid]
            rfl
          · exact fun _ _ _ _ => trivial
        · rintro stop _ _ _ ⟨_, ⟨⟩, _⟩
        · exact fun _ _ _ _ => trivial
      · rintro stop _ _ _ ⟨_, ⟨⟩, _⟩
      · exact fun _ _ _ _ => trivial
    · rintro stop s' w' _ ⟨hvalid, -⟩
      have hrefused : mem.registerDefinition sha256 D = .error stop := by
        unfold ArtifactState.registerDefinition
        rw [← hvalid]
        rfl
      rw [hrefused]
      exact ⟨rfl, by rintro mem' ⟨⟩⟩
    · exact fun _ _ _ _ => trivial
  apply (Updates.publishing hA.nodes hw hinner).mono
  · rintro r s' w' - ⟨hgrow, ⟨⟨a, ha⟩, hr, hstate⟩ | ⟨⟨stop, hstop⟩, rfl, s'', hr, -⟩⟩
    · refine ⟨hr, ?_⟩
      cases hmem : mem.registerDefinition sha256 D with
      | error stop =>
        rw [ha, hmem] at hr
        cases hr
      | ok next => exact hstate next hmem
    · refine ⟨hr, c, hd.mono hgrow, ?_⟩
      cases hmem : mem.registerDefinition sha256 D with
      | error stop => exact (hm.mono hgrow).succ
      | ok next =>
        rw [hstop, hmem] at hr
        cases hr
  · exact fun _ _ _ h => h

end Registration

/-- One registration of a checked artifact. -/
inductive Call
  | proof (P : CheckedProof)
  | definition (D : CheckedDefinition)

/-- What the checker guarantees about the artifact. -/
def Call.Canonical (sha256 : List UInt8 → Digest) : Call → Prop
  | .proof P => P.Canonical sha256
  | .definition D => D.Canonical sha256

/-- The outcomes of a sequence of registrations. -/
abbrev Outcomes := List (RegisterM (List UInt8))

def ArtifactState.perform (sha256 : List UInt8 → Digest) (s : ArtifactState) :
    Call → RegisterM (ArtifactState × List UInt8)
  | .proof P => s.registerProofForReplication sha256 P
  | .definition D => (s.registerDefinition sha256 D).map fun s' => (s', [])

def ArtifactState.performAll (sha256 : List UInt8 → Digest) :
    List Call → ArtifactState → Outcomes × ArtifactState
  | [], s => ([], s)
  | call :: calls, s =>
    let r := s.perform sha256 call
    let (rest, s') := performAll sha256 calls (s.after r)
    (r.map Prod.snd :: rest, s')

def DiskArtifactState.perform (sha256 : List UInt8 → Digest) : Call → UpdateM (List UInt8)
  | .proof P => registerProofForReplication sha256 P
  | .definition D => do
    registerDefinition sha256 D
    return []

def DiskArtifactState.performAll (sha256 : List UInt8 → Digest) :
    List Call → DiskArtifactState → StorageM (Outcomes × DiskArtifactState)
  | [], s => pure ([], s)
  | call :: calls, s => do
    let (r, s) ← perform sha256 call s
    let (rest, s) ← performAll sha256 calls s
    return (r :: rest, s)

section Calls

variable {σ : Type} {sha256 : List UInt8 → Digest} {S : ContextStorage σ} {I : World σ → Prop}
  {Safe : WriteLog → Prop} {n : ℕ} {s : DiskArtifactState} {c : Contents} {mem : ArtifactState}
  {w : World σ} (hA : AuthenticContext S sha256 I Safe)

include hA

theorem updates_perform (hw : I w) (hd : Denotes sha256 w.written s c)
    (hm : Mirrors sha256 w.written n c mem) (hn : n + 1 < 2 ^ 64) {call : Call}
    (hcall : call.Canonical sha256) :
    Updates S I Safe (DiskArtifactState.perform sha256 call) s w
      (fun r s' w' => r = (mem.perform sha256 call).map Prod.snd ∧
        ∃ c', Denotes sha256 w'.written s' c' ∧
          Mirrors sha256 w'.written (n + 1) c' (mem.after (mem.perform sha256 call)))
      fun s' _ => s' = s := by
  cases call with
  | proof P => exact updates_registerProof hA hw hd hm hn hcall
  | definition D =>
    apply Updates.bind hA.nodes hw (updates_registerDefinition hA hw hd hm hcall)
    · rintro _ s' w' _ _ ⟨hok, c', hd', hm'⟩
      obtain ⟨mem', hmem, -⟩ := map_eq_ok.mp hok.symm
      rw [hmem] at hm'
      apply Updates.pure
      simp only [ArtifactState.perform, hmem]
      exact ⟨rfl, c', hd', hm'⟩
    · rintro stop s' w' _ ⟨hstop, c', hd', hm'⟩
      cases hmem : mem.registerDefinition sha256 D with
      | ok mem' =>
        rw [hmem] at hstop
        cases hstop
      | error stop' =>
        rw [hmem] at hstop hm'
        cases hstop
        simp only [ArtifactState.perform, hmem]
        exact ⟨rfl, c', hd', hm'⟩
    · exact fun _ _ _ h => h

/-- Over a reliable storage a sequence of registrations ends on disk as in memory. -/
theorem ensures_performAll (hR : Reliable S I Safe) {calls : List Call}
    (hcalls : ∀ call ∈ calls, call.Canonical sha256) (hw : I w) (hd : Denotes sha256 w.written s c)
    (hm : Mirrors sha256 w.written n c mem) (hn : n + calls.length < 2 ^ 64) :
    Ensures S I Safe (DiskArtifactState.performAll sha256 calls s) w fun r w' =>
      r.1 = (ArtifactState.performAll sha256 calls mem).1 ∧
        ∃ c', Denotes sha256 w'.written r.2 c' ∧ Mirrors sha256 w'.written (n + calls.length) c'
          (ArtifactState.performAll sha256 calls mem).2 := by
  induction calls generalizing s c mem n w with
  | nil => exact Ensures.pure ⟨rfl, c, hd, hm⟩
  | cons call calls ih =>
    rw [List.length_cons] at hn
    have hcall := updates_perform hA hw hd hm (by omega) (hcalls call List.mem_cons_self)
    apply Ensures.bind hA.nodes hw hcall
    rintro ⟨r, s₁⟩ w₁ hw₁ _ (⟨hr, c₁, hd₁, hm₁⟩ | ⟨_, _, hfault⟩)
    · have hrest := ih (fun call hcall => hcalls call (List.mem_cons_of_mem _ hcall)) hw₁ hd₁ hm₁
        (by omega)
      apply Ensures.bind hA.nodes hw₁ hrest
      rintro ⟨rest, s₂⟩ w₂ _ _ ⟨hrest, c₂, hd₂, hm₂⟩
      apply Ensures.pure
      refine ⟨?_, c₂, hd₂, ?_⟩
      · simp only [ArtifactState.performAll]
        rw [← hrest, ← hr]
      · rw [List.length_cons, show n + (calls.length + 1) = n + 1 + calls.length by omega]
        exact hm₂
    · exact absurd hR hfault

end Calls
end Naome
