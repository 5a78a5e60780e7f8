import Naome.ContextOrder
import Naome.ConclusionIdentity

/-!
# Replicas of a context

Checked artifacts are accepted in every order that respects their dependencies, and contexts
that have accepted the same artifacts, in memory or on disk, give the same answers.
-/
namespace Naome
open LocallyNameless Outcome ByteCursor StorageM DiskMap DiskArtifact

variable {sha256 : List UInt8 → Digest} {s s' : ArtifactState} {accepted accepted' : Set Call}

/-- The artifact was accepted by the checker, in some context. -/
def Call.Checked (sha256 : List UInt8 → Digest) : Call → Prop
  | .proof P => ∃ (n : ProofNormalForm) (ctx : ContextView), n.certificate.Valid ∧
      Checker.checkNormalFormWithState sha256 n ctx = .ok P
  | .definition D => (∃ kind body, DefinitionCertificate.new sha256 kind body = .ok D.certificate) ∧
      D.definitionId = D.certificate.definitionId

theorem Checker.canonical_of_checked {n : ProofNormalForm} {ctx : ContextView} {P : CheckedProof}
    (hn : n.certificate.Valid) (h : checkNormalFormWithState sha256 n ctx = .ok P) :
    P.Canonical sha256 := by
  obtain ⟨outcome, houtcome, hnormal, hconclusion, -, hstatement, hlength, hencoded⟩ :=
    exists_outcome h
  obtain ⟨entries, e, -, -, hlimits, hclosed, -, rfl⟩ := (checkSteps_eq_ok hn).mp houtcome
  have heq : P.conclusion = e.formula := hconclusion
  have hbytes : e.formula.canonicalBytes = (outcomeOf .derive entries e).canonical :=
    (Formula.normalizedBytes_of_closed hclosed).symm
  constructor
  · rw [heq]
    exact hlimits
  · rw [heq, hbytes, hlength]
  · rw [heq, hbytes, hstatement]
  · rw [hnormal]
    exact hencoded

theorem Call.Checked.canonical {call : Call} (h : call.Checked sha256) : call.Canonical sha256 := by
  cases call with
  | proof P =>
    obtain ⟨n, ctx, hn, hcheck⟩ := h
    exact Checker.canonical_of_checked hn hcheck
  | definition D => exact ⟨h.1, h.2⟩

namespace ArtifactState

variable {P : CheckedProof}

theorem validateDependencies_of_selected (h : Selected s P) :
    Registration.validateDependencies (s.registrationView sha256) P.normalForm.certificate.steps =
      .ok () := by
  apply forM_eq_ok.mpr
  intro step hstep
  have hreference : Registration.validateReference (s.registrationView sha256) step = .ok () := by
    cases step with
    | proofReference id =>
      obtain ⟨d, hd⟩ := h.proof id hstep
      have hcontains : s.proofs.contains id = true := by
        rw [Std.TreeMap.contains_eq_isSome_getElem?, hd]
        rfl
      exact require_eq_ok.mpr hcontains
    | _ => rfl
  have hdefinitions : Registration.validateDefinitions (s.registrationView sha256) step = .ok () := by
    apply forM_eq_ok.mpr
    intro id hid
    obtain ⟨c, hc⟩ := h.definition step hstep id hid
    exact bind_eq_ok.mpr ⟨some c, access_eq_ok.mpr (congrArg Except.ok hc), rfl⟩
  exact bind_eq_ok.mpr ⟨(), hreference, hdefinitions⟩

theorem sameStatement_of_admitted (h : Admitted s P) :
    Registration.sameStatement (s.registrationView sha256) P = .ok () := by
  obtain ⟨o, ho, hsame⟩ := h.statement
  exact bind_eq_ok.mpr ⟨o, access_eq_ok.mpr ho, require_eq_ok.mpr hsame⟩

theorem validate_of_admitted (h : Admitted s P) :
    Registration.validate (s.registrationView sha256) P true = .ok () := by
  have hheader : Registration.access ((s.registrationView sha256).view.proofHeader P.proofId) =
      .ok none := access_eq_ok.mpr (congrArg Except.ok h.fresh)
  unfold Registration.validate
  rw [hheader]
  change (Registration.validateDependencies _ _ >>= _) = _
  rw [validateDependencies_of_selected h.selected, ok_bind]
  change (Registration.access (.ok s.derivations[P.derivationId]?) >>= _) = _
  cases hd : s.derivations[P.derivationId]? with
  | none => exact sameStatement_of_admitted h
  | some st =>
    change Registration.validateAlias _ _ _ _ = _
    unfold Registration.validateAlias
    rw [sameStatement_of_admitted h, h.derivation st hd]
    simp [require]

end ArtifactState

/-- What the artifacts of one context have to agree on. -/
structure Compatible (sha256 : List UInt8 → Digest) (accepted : Set Call) : Prop where
  derivation : ∀ P Q, .proof P ∈ accepted → .proof Q ∈ accepted →
    P.derivationId = Q.derivationId → P.statementId = Q.statementId
  statement : ∀ P Q, .proof P ∈ accepted → .proof Q ∈ accepted →
    P.statementId = Q.statementId → P.conclusion = Q.conclusion
  projected : ∀ P, .proof P ∈ accepted → ∃ found,
    KnowledgeIndex.projections sha256 P.proofId P.conclusion = (.ok found : RegisterM _)
  obligation : ∀ D Q, .definition D ∈ accepted → .proof Q ∈ accepted → ∀ o ∈ D.obligation,
    Q.statementId = o.statementId → Q.conclusion = o.conclusion

theorem Summary.compatible (h : Summary sha256 accepted s) : Compatible sha256 accepted := by
  have hstatement : ∀ P Q, .proof P ∈ accepted → .proof Q ∈ accepted →
      P.statementId = Q.statementId → P.conclusion = Q.conclusion := by
    intro P Q hP hQ hid
    have hstored := (h.statement _ _).mpr ⟨P, hP, hid, rfl⟩
    rw [(h.statement _ _).mpr ⟨Q, hQ, rfl, rfl⟩] at hstored
    exact (congrArg StoredStatement.conclusion (Option.some.inj hstored)).symm
  constructor
  · intro P Q hP hQ hid
    have hstored := (h.derivation _ _).mpr ⟨P, hP, hid, rfl⟩
    rw [(h.derivation _ _).mpr ⟨Q, hQ, rfl, rfl⟩] at hstored
    exact (Option.some.inj hstored).symm
  · exact hstatement
  · exact h.projected
  · intro D Q hD hQ o ho hid
    obtain ⟨R, hR, hRid, hconclusion⟩ := h.obligation D hD o ho
    rw [← hconclusion]
    exact hstatement Q R hQ hR (hid.trans hRid.symm)

theorem Compatible.covered (h : Compatible sha256 accepted) (hcovers : Covers accepted' accepted) :
    Compatible sha256 accepted' := by
  have hproof : ∀ P, .proof P ∈ accepted' → ∃ Q, .proof Q ∈ accepted ∧
      (Call.proof P).SameArtifact (.proof Q) := by
    intro P hP
    obtain ⟨b, hb, hsame⟩ := hcovers _ hP
    cases b with
    | proof Q => exact ⟨Q, hb, hsame⟩
    | definition D => exact hsame.elim
  constructor
  · intro P Q hP hQ hid
    obtain ⟨P', hP', -, -, hstatement, hderivation, -⟩ := hproof P hP
    obtain ⟨Q', hQ', -, -, hstatement', hderivation', -⟩ := hproof Q hQ
    rw [hstatement, hstatement']
    exact h.derivation P' Q' hP' hQ' (by rw [← hderivation, ← hderivation', hid])
  · intro P Q hP hQ hid
    obtain ⟨P', hP', -, hconclusion, hstatement, -⟩ := hproof P hP
    obtain ⟨Q', hQ', -, hconclusion', hstatement', -⟩ := hproof Q hQ
    rw [hconclusion, hconclusion']
    exact h.statement P' Q' hP' hQ' (by rw [← hstatement, ← hstatement', hid])
  · intro P hP
    obtain ⟨P', hP', -, hconclusion, -, -, hproof, -⟩ := hproof P hP
    rw [hproof, hconclusion]
    exact h.projected P' hP'
  · intro D Q hD hQ o ho hid
    obtain ⟨b, hb, hsame⟩ := hcovers _ hD
    cases b with
    | proof P => exact hsame.elim
    | definition E =>
      cases hsame
      obtain ⟨Q', hQ', -, hconclusion, hstatement, -⟩ := hproof Q hQ
      rw [hconclusion]
      exact h.obligation D Q' hb hQ' o ho (by rw [← hstatement, hid])

theorem Compatible.mono (h : Compatible sha256 accepted)
    (hsubset : ∀ call ∈ accepted', call ∈ accepted) : Compatible sha256 accepted' where
  derivation P Q hP hQ := h.derivation P Q (hsubset _ hP) (hsubset _ hQ)
  statement P Q hP hQ := h.statement P Q (hsubset _ hP) (hsubset _ hQ)
  projected P hP := h.projected P (hsubset _ hP)
  obligation D Q hD hQ := h.obligation D Q (hsubset _ hD) (hsubset _ hQ)

/-- The artifacts that an artifact cites come before it. -/
def Call.Supported (before : Set Call) : Call → Prop
  | .proof P =>
    (∀ id, .proofReference id ∈ P.normalForm.certificate.steps →
      ∃ Q, .proof Q ∈ before ∧ Q.proofId = id) ∧
    ∀ step ∈ P.normalForm.certificate.steps, ∀ id ∈ step.definitionReferences,
      ∃ D, .definition D ∈ before ∧ D.definitionId = id
  | .definition D => ∀ o ∈ D.obligation, ∃ Q, .proof Q ∈ before ∧ Q.statementId = o.statementId

/-- Artifacts of different identities. -/
def Call.Distinct : Call → Call → Prop
  | .proof P, .proof Q => P.proofId ≠ Q.proofId
  | .definition D, .definition E => D.definitionId ≠ E.definitionId
  | _, _ => True

theorem Summary.accepts_definition (h : Summary sha256 accepted s) {D : CheckedDefinition}
    (hcompatible : Compatible sha256 (insert (.definition D) accepted))
    (hsupported : (Call.definition D).Supported accepted)
    (hdistinct : ∀ a ∈ accepted, a.Distinct (.definition D)) :
    ∃ s', s.registerDefinition sha256 D = .ok s' := by
  have hvalid : Registration.validateDefinition (s.view sha256) D = .ok () := by
    rw [ArtifactState.validateDefinition_eq_ok]
    constructor
    · rw [Option.eq_none_iff_forall_ne_some]
      intro d hd
      obtain ⟨E, hE, hid, -⟩ := (h.definition _ _).mp hd
      exact hdistinct _ hE hid
    · intro o ho
      obtain ⟨Q, hQ, hid⟩ := hsupported o ho
      rw [← hid, h.statementFormula_eq hQ,
        hcompatible.obligation D Q (Or.inl rfl) (Or.inr hQ) o ho hid]
  unfold ArtifactState.registerDefinition
  rw [hvalid, ok_bind]
  exact ⟨_, rfl⟩

theorem Summary.admitted (h : Summary sha256 accepted s) {P : CheckedProof}
    (hcompatible : Compatible sha256 (insert (.proof P) accepted))
    (hsupported : (Call.proof P).Supported accepted)
    (hdistinct : ∀ a ∈ accepted, a.Distinct (.proof P)) : ArtifactState.Admitted s P where
  fresh := by
    have hnone : s.proofs[P.proofId]? = none := by
      rw [Option.eq_none_iff_forall_ne_some]
      intro d hd
      obtain ⟨Q, hQ, hid, -⟩ := (h.proof _ _).mp hd
      exact hdistinct _ hQ hid
    unfold ArtifactState.resolveProof
    rw [hnone]
    rfl
  selected := by
    constructor
    · intro id hid
      obtain ⟨Q, hQ, rfl⟩ := hsupported.1 id hid
      exact ⟨_, (h.proof _ _).mpr ⟨Q, hQ, rfl, rfl⟩⟩
    · intro step hstep id hid
      obtain ⟨D, hD, rfl⟩ := hsupported.2 step hstep id hid
      exact ⟨_, (h.definition _ _).mpr ⟨D, hD, rfl, rfl⟩⟩
  derivation := by
    intro st hst
    obtain ⟨Q, hQ, hid, rfl⟩ := (h.derivation _ _).mp hst
    exact hcompatible.derivation Q P (Or.inr hQ) (Or.inl rfl) hid
  statement := by
    cases hst : s.statements[P.statementId]? with
    | none =>
      refine ⟨none, ?_, by rintro f ⟨⟩⟩
      unfold ArtifactState.statementFormula ArtifactState.knownStatement
      rw [hst]
      rfl
    | some stored =>
      obtain ⟨Q, hQ, hid, -⟩ := (h.statement _ _).mp hst
      refine ⟨some Q.conclusion, hid ▸ h.statementFormula_eq hQ, ?_⟩
      rintro f ⟨⟩
      exact hcompatible.statement Q P (Or.inr hQ) (Or.inl rfl) hid

theorem Summary.accepts_proof (h : Summary sha256 accepted s) {P : CheckedProof}
    (hP : P.Canonical sha256) (hcompatible : Compatible sha256 (insert (.proof P) accepted))
    (hsupported : (Call.proof P).Supported accepted)
    (hdistinct : ∀ a ∈ accepted, a.Distinct (.proof P)) :
    ∃ s' bytes, s.registerProofForReplication sha256 P = .ok (s', bytes) := by
  have hadmitted := h.admitted hcompatible hsupported hdistinct
  obtain ⟨-, houtcome⟩ := ArtifactState.registerProofForReplication_admitted
    (ArtifactState.validate_of_admitted hadmitted)
  obtain ⟨found, hfound⟩ := hcompatible.projected P (Or.inl rfl)
  obtain ⟨bytes, hbytes⟩ := hP.encoded
  have hindex : ∃ index, s.questionIndex.registerProof sha256 P.proofId P.statementId
      P.conclusion = (.ok index : RegisterM _) := by
    unfold KnowledgeIndex.registerProof
    simp only [hfound, ok_bind]
    cases s.questionIndex.witnesses[P.statementId]? with
    | none => exact ⟨_, rfl⟩
    | some known => exact ⟨_, rfl⟩
  obtain ⟨index, hindex⟩ := hindex
  rw [hindex, ok_bind, hbytes] at houtcome
  obtain ⟨⟨s', bytes'⟩, hok, -⟩ := map_eq_ok.mp houtcome
  exact ⟨s', bytes', hok⟩

/-- An artifact that is compatible with the accepted ones is accepted after what it cites. -/
theorem Summary.accepts (h : Summary sha256 accepted s) {call : Call}
    (hcall : call.Canonical sha256) (hcompatible : Compatible sha256 (insert call accepted))
    (hsupported : call.Supported accepted) (hdistinct : ∀ a ∈ accepted, a.Distinct call) :
    ∃ s' bytes, s.perform sha256 call = .ok (s', bytes) := by
  cases call with
  | definition D =>
    obtain ⟨s', hs'⟩ := h.accepts_definition hcompatible hsupported hdistinct
    exact ⟨s', [], by rw [ArtifactState.perform, hs']; rfl⟩
  | proof P => exact h.accepts_proof hcall hcompatible hsupported hdistinct

/-- An accepted artifact has an identity of its own. -/
theorem Summary.distinct (h : Summary sha256 accepted s) {call : Call} {bytes : List UInt8}
    (hperform : s.perform sha256 call = .ok (s', bytes)) : ∀ a ∈ accepted, a.Distinct call := by
  intro a ha
  cases call with
  | definition D =>
    obtain ⟨next, hnext, -⟩ := map_eq_ok.mp hperform
    obtain ⟨_, hvalid, -⟩ := bind_eq_ok.mp hnext
    obtain ⟨hfresh, -⟩ := ArtifactState.validateDefinition_eq_ok.1 hvalid
    cases a with
    | proof Q => trivial
    | definition E =>
      intro hid
      rw [← hid, (h.definition _ _).mpr ⟨E, ha, rfl, rfl⟩] at hfresh
      cases hfresh
  | proof P =>
    have hstores := ArtifactState.stores_of_register h.wellFormed (Or.inr hperform)
    cases a with
    | definition E => trivial
    | proof Q =>
      intro hid
      have hfresh := hstores.proofs_eq_none h.wellFormed
      rw [← hid, (h.proof _ _).mpr ⟨Q, ha, rfl, rfl⟩] at hfresh
      cases hfresh

theorem Summary.pairwise_distinct (h : Summary sha256 accepted s) {calls : List Call}
    (hcalls : ∀ call ∈ calls, call.Canonical sha256)
    (haccepted : Outcomes.Accepted (ArtifactState.performAll sha256 calls s).1) :
    (∀ a ∈ accepted, ∀ call ∈ calls, a.Distinct call) ∧ calls.Pairwise Call.Distinct := by
  induction calls generalizing s accepted with
  | nil => exact ⟨fun _ _ _ h => absurd h List.not_mem_nil, List.Pairwise.nil⟩
  | cons call calls ih =>
    obtain ⟨bytes, hbytes⟩ := haccepted _ List.mem_cons_self
    obtain ⟨⟨s₁, _⟩, hperform, rfl⟩ := map_eq_ok.mp hbytes
    have hrest := fun r hr => haccepted r (List.mem_cons_of_mem _ hr)
    simp only [hperform, ArtifactState.after] at hrest
    obtain ⟨hlater, hpairwise⟩ := ih (h.step (hcalls call List.mem_cons_self) hperform)
      (fun c hc => hcalls c (List.mem_cons_of_mem call hc)) hrest
    constructor
    · intro a ha c hc
      rcases List.mem_cons.mp hc with rfl | hc
      · exact h.distinct hperform a ha
      · exact hlater a (Or.inr ha) c hc
    · exact List.Pairwise.cons (fun c hc => hlater call (Or.inl rfl) c hc) hpairwise

/-- Every artifact comes after those that it cites. -/
def RespectsDependencies (before : Set Call) : List Call → Prop
  | [] => True
  | call :: calls => call.Supported before ∧ RespectsDependencies (insert call before) calls

theorem Summary.accepts_all (h : Summary sha256 accepted s) {calls : List Call}
    (hcalls : ∀ call ∈ calls, call.Canonical sha256)
    (hcompatible : Compatible sha256 (accepted ∪ {call | call ∈ calls}))
    (hrespects : RespectsDependencies accepted calls)
    (hbefore : ∀ a ∈ accepted, ∀ call ∈ calls, a.Distinct call)
    (hdistinct : calls.Pairwise Call.Distinct) :
    Outcomes.Accepted (ArtifactState.performAll sha256 calls s).1 := by
  induction calls generalizing s accepted with
  | nil => exact fun r hr => absurd hr List.not_mem_nil
  | cons call calls ih =>
    obtain ⟨hsupported, hrespects⟩ := hrespects
    obtain ⟨hlater, hdistinct⟩ := List.pairwise_cons.mp hdistinct
    have hsubset : ∀ c, c ∈ insert call accepted →
        c ∈ accepted ∪ {c | c ∈ call :: calls} := by
      rintro c (rfl | hc)
      · exact Or.inr List.mem_cons_self
      · exact Or.inl hc
    have hone : Compatible sha256 (insert call accepted) :=
      hcompatible.mono hsubset
    obtain ⟨s₁, bytes, hperform⟩ := h.accepts (hcalls call List.mem_cons_self) hone hsupported
      fun a ha => hbefore a ha call List.mem_cons_self
    have hrest := ih (h.step (hcalls call List.mem_cons_self) hperform)
      (fun c hc => hcalls c (List.mem_cons_of_mem call hc)) ?_ hrespects ?_ hdistinct
    · intro r hr
      simp only [ArtifactState.performAll, hperform, ArtifactState.after, List.mem_cons] at hr
      rcases hr with rfl | hr
      · exact ⟨bytes, rfl⟩
      · exact hrest r hr
    · apply hcompatible.mono
      rintro c (hc | hc)
      · exact hsubset c hc
      · exact Or.inr (List.mem_cons_of_mem call hc)
    · rintro a (rfl | ha) c hc
      · exact hlater c hc
      · exact hbefore a ha c (List.mem_cons_of_mem call hc)

theorem Call.SameArtifact.symm {a b : Call} (h : a.SameArtifact b) : b.SameArtifact a := by
  cases a with
  | proof P =>
    cases b with
    | proof Q =>
      obtain ⟨hnormal, hconclusion, hstatement, hderivation, hproof, hlength⟩ := h
      exact ⟨hnormal.symm, hconclusion.symm, hstatement.symm, hderivation.symm, hproof.symm,
        hlength.symm⟩
    | definition D => exact h
  | definition D =>
    cases b with
    | proof Q => exact h
    | definition E => exact Eq.symm h

theorem Call.Distinct.congr {a a' b b' : Call} (ha : a.SameArtifact a') (hb : b.SameArtifact b')
    (h : a.Distinct b) : a'.Distinct b' := by
  cases a with
  | proof P =>
    cases a' with
    | definition D => exact ha.elim
    | proof P' =>
      cases b with
      | proof Q =>
        cases b' with
        | definition D => exact hb.elim
        | proof Q' =>
          obtain ⟨-, -, -, -, hP, -⟩ := ha
          obtain ⟨-, -, -, -, hQ, -⟩ := hb
          change P'.proofId ≠ Q'.proofId
          rw [← hP, ← hQ]
          exact h
      | definition D =>
        cases b' with
        | definition E => trivial
        | proof Q => exact hb.elim
  | definition D =>
    cases a' with
    | proof P => exact ha.elim
    | definition D' =>
      cases ha
      cases b with
      | proof Q =>
        cases b' with
        | definition D => exact hb.elim
        | proof Q' => trivial
      | definition E =>
        cases b' with
        | definition E' =>
          cases hb
          exact h
        | proof Q => exact hb.elim

theorem Call.Distinct.symm {a b : Call} (h : a.Distinct b) : b.Distinct a := by
  cases a with
  | proof P =>
    cases b with
    | proof Q => exact Ne.symm h
    | definition D => trivial
  | definition D =>
    cases b with
    | proof Q => trivial
    | definition E => exact Ne.symm h

/-- The same artifacts in another order. -/
def Reorders (calls calls' : List Call) : Prop :=
  ∃ l, calls.Perm l ∧ List.Forall₂ Call.SameArtifact l calls'

theorem exists_of_forall₂ {α β : Type} {R : α → β → Prop} {l : List α} {l' : List β}
    (h : List.Forall₂ R l l') : ∀ b ∈ l', ∃ a ∈ l, R a b := by
  induction h with
  | nil => exact fun b hb => absurd hb List.not_mem_nil
  | @cons a b l l' hab _ ih =>
    intro c hc
    rcases List.mem_cons.mp hc with rfl | hc
    · exact ⟨a, List.mem_cons_self, hab⟩
    · obtain ⟨d, hd, hR⟩ := ih c hc
      exact ⟨d, List.mem_cons_of_mem a hd, hR⟩

section

variable {calls calls' : List Call}

theorem Reorders.covers (h : Reorders calls calls') :
    Covers {call | call ∈ calls} {call | call ∈ calls'} := by
  obtain ⟨l, hperm, hsame⟩ := h
  intro a ha
  exact exists_of_forall₂ (hsame.flip) a (hperm.mem_iff.mp ha)

theorem Reorders.covered (h : Reorders calls calls') :
    Covers {call | call ∈ calls'} {call | call ∈ calls} := by
  obtain ⟨l, hperm, hsame⟩ := h
  intro b hb
  obtain ⟨a, ha, hab⟩ := exists_of_forall₂ hsame b hb
  exact ⟨a, hperm.mem_iff.mpr ha, hab.symm⟩

theorem Reorders.pairwise_distinct (h : Reorders calls calls')
    (hdistinct : calls.Pairwise Call.Distinct) : calls'.Pairwise Call.Distinct := by
  obtain ⟨l, hperm, hsame⟩ := h
  have hl := (hperm.pairwise_iff Call.Distinct.symm).mp hdistinct
  clear hperm hdistinct
  induction hsame with
  | nil => exact List.Pairwise.nil
  | @cons a b l l' hab hsame ih =>
    obtain ⟨hlater, hl⟩ := List.pairwise_cons.mp hl
    refine List.Pairwise.cons ?_ (ih hl)
    intro c hc
    obtain ⟨d, hd, hdc⟩ := exists_of_forall₂ hsame c hc
    exact (hlater d hd).congr hab hdc

/-- Accepted artifacts are accepted in every order that respects their dependencies, with the
same answers. -/
theorem reordered (hcalls : ∀ call ∈ calls, call.Canonical sha256)
    (haccepted : Outcomes.Accepted (ArtifactState.performAll sha256 calls .empty).1)
    (hcalls' : ∀ call ∈ calls', call.Canonical sha256) (hreorders : Reorders calls calls')
    (hrespects : RespectsDependencies ∅ calls') :
    Outcomes.Accepted (ArtifactState.performAll sha256 calls' .empty).1 ∧
      (ArtifactState.performAll sha256 calls' .empty).2.view sha256 =
        (ArtifactState.performAll sha256 calls .empty).2.view sha256 := by
  have hsummary := summary_empty.performAll hcalls haccepted
  obtain ⟨-, hdistinct⟩ := summary_empty.pairwise_distinct hcalls haccepted
  rw [Set.empty_union] at hsummary
  have hcompatible := hsummary.compatible.covered hreorders.covered
  have haccepted' : Outcomes.Accepted (ArtifactState.performAll sha256 calls' .empty).1 := by
    apply summary_empty.accepts_all hcalls' _ hrespects (fun _ ha => ha.elim)
      (hreorders.pairwise_distinct hdistinct)
    rw [Set.empty_union]
    exact hcompatible
  have hsummary' := summary_empty.performAll hcalls' haccepted'
  rw [Set.empty_union] at hsummary'
  refine ⟨haccepted', view_eq_of_includes ?_ ?_⟩
  · exact hsummary'.includes hsummary hreorders.covered hreorders.covers
  · exact hsummary.includes hsummary' hreorders.covers hreorders.covered

end

namespace DiskArtifactState

variable {P : Digest → List UInt8 → Prop} (s : DiskArtifactState)

omit s in
theorem writesOnly_readRecord (address : Digest) (maximum : ℕ) :
    (readRecord address maximum).WritesOnly P := fun _ => trivial

theorem writesOnly_containsKey (kind : MapKind) (key : Digest) :
    (s.containsKey sha256 kind key).WritesOnly P :=
  WritesOnly.bind (writesOnly_get _ key) fun _ => trivial

theorem writesOnly_statementRecord (id : StatementId) :
    (s.statementRecord sha256 id).WritesOnly P := by
  apply WritesOnly.reporting
  apply WritesOnly.bind (writesOnly_get _ id)
  intro record
  cases record with
  | none => trivial
  | some record =>
    apply WritesOnly.bind (writesOnly_lift _)
    rintro ⟨address, length⟩
    simp only
    split_ifs
    · apply WritesOnly.bind (writesOnly_lift _)
      intro _
      apply WritesOnly.bind (writesOnly_containsKey s _ address)
      intro known
      exact WritesOnly.bind (writesOnly_lift _) fun _ => trivial
    · trivial

theorem writesOnly_proofHeader (id : ProofId) : (s.proofHeader sha256 id).WritesOnly P := by
  apply WritesOnly.reporting
  apply WritesOnly.bind (writesOnly_get _ id)
  intro record
  cases record with
  | none => trivial
  | some record =>
    apply WritesOnly.bind (writesOnly_lift _)
    intro r
    apply WritesOnly.bind (writesOnly_get _ _)
    intro statement
    apply WritesOnly.bind (writesOnly_lift _)
    intro statement
    apply WritesOnly.bind (writesOnly_lift _)
    intro statement
    apply WritesOnly.bind (writesOnly_statementRecord s statement)
    intro located
    exact WritesOnly.bind (writesOnly_lift _) fun _ => trivial

theorem writesOnly_statementHeader (id : StatementId) :
    (s.statementHeader sha256 id).WritesOnly P := by
  apply WritesOnly.reporting
  apply WritesOnly.bind (writesOnly_statementRecord s id)
  intro record
  cases record with
  | none => trivial
  | some record =>
    apply WritesOnly.bind (writesOnly_get _ id)
    intro proof
    apply WritesOnly.bind (writesOnly_lift _)
    intro proof
    exact WritesOnly.bind (writesOnly_lift _) fun _ => trivial

theorem writesOnly_readFormula (id : StatementId) (address : Digest) (length : ℕ) :
    (readFormula sha256 id address length).WritesOnly P := by
  apply WritesOnly.bind (writesOnly_readRecord address length)
  intro bytes
  apply WritesOnly.bind (writesOnly_lift _)
  intro _
  apply WritesOnly.bind (writesOnly_lift _)
  intro formula
  exact WritesOnly.bind (writesOnly_lift _) fun _ => trivial

theorem writesOnly_statementFormula (id : StatementId) (maximum : ℕ) :
    (s.statementFormula sha256 id maximum).WritesOnly P := by
  apply WritesOnly.reporting
  apply WritesOnly.bind (writesOnly_statementRecord s id)
  intro record
  cases record with
  | none => trivial
  | some record =>
    apply WritesOnly.bind (writesOnly_lift _)
    intro _
    exact WritesOnly.bind (writesOnly_readFormula id _ _) fun _ => trivial

theorem writesOnly_definition (id : DefinitionId) : (s.definition sha256 id).WritesOnly P := by
  apply WritesOnly.reporting
  apply WritesOnly.bind (writesOnly_get _ id)
  intro record
  cases record with
  | none => trivial
  | some record =>
    apply WritesOnly.bind (writesOnly_lift _)
    intro r
    apply WritesOnly.bind (writesOnly_readRecord r.1 r.2)
    intro bytes
    apply WritesOnly.bind (writesOnly_lift _)
    intro certificate
    exact WritesOnly.bind (writesOnly_lift _) fun _ => trivial

theorem writesOnly_bucketItems (calls : ℕ) (it : Entries) :
    (bucketItems sha256 calls it).WritesOnly P := by
  induction calls generalizing it with
  | zero => trivial
  | succ calls ih =>
    apply WritesOnly.bind (writesOnly_nextWithin _ it)
    intro r
    obtain ⟨item, it⟩ := r
    cases item with
    | none => trivial
    | some item =>
      have hitem : (bucketItem item).WritesOnly P := by
        cases item with
        | error e => trivial
        | ok entry =>
          obtain ⟨key, value⟩ := entry
          simp only [bucketItem]
          split_ifs
          · trivial
          · trivial
      apply WritesOnly.bind hitem
      intro item
      exact WritesOnly.bind (ih it) fun _ => trivial

theorem writesOnly_bucket (kind : BucketKind) (target : StatementId) :
    (s.bucket sha256 kind target).WritesOnly P := by
  apply WritesOnly.bind
  · apply WritesOnly.reporting
    exact WritesOnly.bind (writesOnly_get _ target) fun _ => writesOnly_lift _
  · exact fun root => writesOnly_bucketItems _ _

end DiskArtifactState

/-- A context on disk answers as a context in memory. -/
structure Agrees {σ : Type} (S : ContextStorage σ) (sha256 : List UInt8 → Digest) (w : World σ)
    (disk : DiskArtifactState) (mem : ArtifactState) : Prop where
  snapshotId : disk.snapshotId sha256 = mem.snapshotId sha256
  containsArtifact : ∀ id, ((disk.containsArtifact sha256 id).run S w).1 =
    (mem.view sha256).containsArtifact id
  proofHeader : ∀ id, ((disk.proofHeader sha256 id).run S w).1.map (Option.map Prod.fst) =
    (mem.view sha256).proofHeader id
  statementHeader : ∀ id, ((disk.statementHeader sha256 id).run S w).1.map (Option.map Prod.fst) =
    (mem.view sha256).statementHeader id
  statementFormula : ∀ id maximum, ((disk.statementFormula sha256 id maximum).run S w).1 =
    (mem.view sha256).statementFormula id maximum
  bucket : ∀ kind target, ((disk.bucket sha256 kind target).run S w).1 =
    (mem.view sha256).bucket kind target
  definition : ∀ id, ((disk.definition sha256 id).run S w).1 =
    (mem.view sha256).definitionCertificate id

section Agreement

variable {σ : Type} {S : ContextStorage σ} {I : World σ → Prop} {Safe : WriteLog → Prop}
  {log : WriteLog} {n : ℕ} {w : World σ} {disk : DiskArtifactState} {c : Contents}
  {mem : ArtifactState}

/-- What a program that writes nothing returns over a reliable storage. -/
theorem Gives.run_eq {α : Type} {p : StorageM α} {x : Except ContextError α}
    (h : Gives S I Safe log p x) (hR : Reliable S I Safe) (hp : p.WritesOnly fun _ _ => False)
    (hw : I w) (hlog : log ⊆ w.written) (hsafe : Safe w.written) : (p.run S w).1 = x := by
  rcases h w hw hlog (by rw [written_run_of_silent hp]; exact hsafe) with heq | ⟨-, hfault⟩
  · exact heq
  · exact absurd hR hfault

theorem snapshotId_eq (hd : Denotes sha256 log disk c) (hm : Mirrors sha256 log n c mem) :
    disk.snapshotId sha256 = mem.snapshotId sha256 := by
  have hproofs : (disk.map .proofs).fingerprint = Fingerprint.ofKeys sha256 mem.proofs.keys := by
    apply (hd.flat .proofs (by decide)).fingerprint (pairwise_keys _)
    intro k
    rw [Std.TreeMap.mem_keys, Std.TreeMap.mem_iff_isSome_getElem?]
    cases hk : mem.proofs[k]? with
    | none =>
      rw [hm.proof_none k hk]
      exact Iff.rfl
    | some d =>
      obtain ⟨depth, -, -, hrecord⟩ := hm.proof_some k d hk
      rw [hrecord]
      exact Iff.rfl
  have hdefinitions : (disk.map .definitions).fingerprint =
      Fingerprint.ofKeys sha256 mem.definitions.keys := by
    apply (hd.flat .definitions (by decide)).fingerprint (pairwise_keys _)
    intro k
    rw [Std.TreeMap.mem_keys, Std.TreeMap.mem_iff_isSome_getElem?, hm.definition, Option.isSome_map]
  unfold DiskArtifactState.snapshotId ArtifactState.snapshotId
  rw [hproofs, hdefinitions]

theorem agrees (hA : AuthenticContext S sha256 I Safe) (hR : Reliable S I Safe)
    (hd : Denotes sha256 w.written disk c) (hm : Mirrors sha256 w.written n c mem)
    (hn : n < 2 ^ 64) (hw : I w) (hsafe : Safe w.written) : Agrees S sha256 w disk mem where
  snapshotId := snapshotId_eq hd hm
  containsArtifact id := (gives_containsArtifact hA hd hm id).run_eq hR
    (DiskArtifactState.writesOnly_containsKey disk _ id) hw (List.Subset.refl _) hsafe
  proofHeader id := by
    obtain ⟨found, hfound, heq⟩ := gives_proofHeader hA hd hm hn id
    rw [hfound.run_eq hR (DiskArtifactState.writesOnly_proofHeader disk id) hw
      (List.Subset.refl _) hsafe]
    exact congrArg Except.ok heq
  statementHeader id := by
    obtain ⟨found, hfound, heq⟩ := gives_statementHeader hA hd hm id
    rw [hfound.run_eq hR (DiskArtifactState.writesOnly_statementHeader disk id) hw
      (List.Subset.refl _) hsafe]
    exact heq
  statementFormula id maximum := (gives_statementFormula hA hd hm id maximum).run_eq hR
    (DiskArtifactState.writesOnly_statementFormula disk id maximum) hw (List.Subset.refl _) hsafe
  bucket kind target := by
    have hsilent : (disk.bucket sha256 kind target).WritesOnly fun _ _ => False :=
      DiskArtifactState.writesOnly_bucket disk kind target
    have hrun := hd.ensures_bucket hA.nodes hw kind target
      (by rw [written_run_of_silent hsilent]; exact hsafe)
    rcases hrun with ⟨items, hitems, ⟨l, hsorted, hmem, rfl⟩ | ⟨-, hfault⟩⟩ | ⟨-, hfault⟩
    · have hl : l = mem.questionIndex.bucket kind target := by
        apply hsorted.eq_of_mem_iff (pairwise_bucket _ kind target)
        intro st
        rw [hmem, hm.member]
      rw [hitems, hl]
      rfl
    · exact absurd hR hfault
    · exact absurd hR hfault
  definition id := (gives_definition hA hd hm id).run_eq hR
    (DiskArtifactState.writesOnly_definition disk id) hw (List.Subset.refl _) hsafe

/-- Registrations of checked artifacts end on disk as in memory and leave contexts with the same
answers; the answers do not depend on the order in which the artifacts were accepted. -/
theorem contexts_agree (sha256 : List UInt8 → Digest)
    {records : σ → Digest → Option (List UInt8)} (hS : Faithful S records) (s₀ : σ)
    {calls : List Call} (hcalls : ∀ call ∈ calls, call.Checked sha256)
    (hlength : calls.length < 2 ^ 64) :
    (Functional ((DiskArtifactState.performAll sha256 calls .new).run S ⟨s₀, []⟩).2.written →
      ∃ disk, ((DiskArtifactState.performAll sha256 calls .new).run S ⟨s₀, []⟩).1 =
          .ok ((ArtifactState.performAll sha256 calls .empty).1, disk) ∧
        ∀ w, Consistent records w → Functional w.written →
          ((DiskArtifactState.performAll sha256 calls .new).run S ⟨s₀, []⟩).2.written ⊆ w.written →
          Agrees S sha256 w disk (ArtifactState.performAll sha256 calls .empty).2) ∧
    (Outcomes.Accepted (ArtifactState.performAll sha256 calls .empty).1 →
      ∀ calls', (∀ call ∈ calls', call.Checked sha256) → Reorders calls calls' →
        RespectsDependencies ∅ calls' →
        Outcomes.Accepted (ArtifactState.performAll sha256 calls' .empty).1 ∧
          (ArtifactState.performAll sha256 calls' .empty).2.view sha256 =
            (ArtifactState.performAll sha256 calls .empty).2.view sha256) := by
  have hcanonical := fun call hcall => (hcalls call hcall).canonical
  constructor
  · intro hsafe
    have hconsistent : Consistent records (⟨s₀, []⟩ : World σ) :=
      fun a b hmem => absurd hmem List.not_mem_nil
    have hrun := ensures_performAll (hS.authenticContext sha256) hS.reliable hcanonical hconsistent
      (denotes_new []) (mirrors_empty []) (by omega) hsafe
    rcases hrun with ⟨⟨outcomes, disk⟩, hok, houtcomes, c, hd, hm⟩ | ⟨-, hfault⟩
    · refine ⟨disk, ?_, ?_⟩
      · rw [hok]
        exact congrArg (fun o => Except.ok (o, disk)) houtcomes
      · intro w hw hfunctional hlog
        exact agrees (hS.authenticContext sha256) hS.reliable (hd.mono hlog) (hm.mono hlog)
          (by omega) hw hfunctional
    · exact absurd hS.reliable hfault
  · intro haccepted calls' hcalls' hreorders hrespects
    exact reordered hcanonical haccepted (fun call hcall => (hcalls' call hcall).canonical)
      hreorders hrespects

end Agreement

namespace Sample

/-- The proof of `∀ x, x = x`. -/
def normalForm : ProofNormalForm := ⟨⟨[.equalityReflexivity ⟨0⟩, .generalization 0 ⟨0⟩]⟩⟩

theorem valid_normalForm : normalForm.certificate.Valid := by
  have hnew : ProofCertificate.new normalForm.certificate.steps = .ok normalForm.certificate := rfl
  exact (ProofCertificate.new_eq_ok.1 hnew).1

theorem ok_get {ε α : Type} {x : Except ε α} (h : x.toOption.isSome = true) :
    x = .ok (x.toOption.get h) :=
  toOption_eq_some.1 (Option.some_get h).symm

theorem isSome_proof : (Checker.checkNormalFormWithState sampleDigest normalForm
    (ArtifactState.empty.view sampleDigest)).toOption.isSome = true := by
  decide +kernel

def proof : CheckedProof := Option.get _ isSome_proof

theorem check_normalForm : Checker.checkNormalFormWithState sampleDigest normalForm
    (ArtifactState.empty.view sampleDigest) = .ok proof := ok_get isSome_proof

theorem isSome_certificate : (DefinitionCertificate.new sampleDigest (.relation 1)
    (.member ⟨0⟩ ⟨0⟩)).toOption.isSome = true := by
  decide +kernel

/-- The relation `x ∈ x`. -/
def certificate : DefinitionCertificate := Option.get _ isSome_certificate

theorem new_certificate :
    DefinitionCertificate.new sampleDigest (.relation 1) (.member ⟨0⟩ ⟨0⟩) = .ok certificate :=
  ok_get isSome_certificate

def definition : CheckedDefinition := ⟨certificate, certificate.definitionId, none⟩

theorem checked_proof : (Call.proof proof).Checked sampleDigest :=
  ⟨normalForm, _, valid_normalForm, check_normalForm⟩

theorem checked_definition : (Call.definition definition).Checked sampleDigest :=
  ⟨⟨_, _, new_certificate⟩, rfl⟩

/-- Both artifacts over a storage in memory. -/
def calls : List Call := [.proof proof, .definition definition]

theorem checked_calls : ∀ call ∈ calls, call.Checked sampleDigest := by
  simp only [calls, List.forall_mem_cons, List.not_mem_nil, false_implies, implies_true, and_true]
  exact ⟨checked_proof, checked_definition⟩

def registered : Except ContextError (Outcomes × DiskArtifactState) × World WriteLog :=
  (DiskArtifactState.performAll sampleDigest calls .new).run memoryStorage ⟨[], []⟩

theorem functional_registered :
    Functional registered.2.written ∧ 0 < registered.2.written.length := by
  decide +kernel

theorem accepted_calls : Outcomes.Accepted (ArtifactState.performAll sampleDigest calls .empty).1 := by
  have hok : (ArtifactState.performAll sampleDigest calls .empty).1.all Except.isOk = true := by
    decide +kernel
  intro r hr
  have hr := List.all_eq_true.1 hok r hr
  cases r with
  | error stop => cases hr
  | ok bytes => exact ⟨bytes, rfl⟩

theorem consistent_registered : Consistent
    (fun s a => (s.find? fun r => decide (r.1 = a)).map Prod.snd) registered.2 :=
  Ensures.invariant (faithful_memoryStorage.authentic (fun _ => 0))
    (DiskArtifactState.performAll sampleDigest calls .new) fun _ _ hmem =>
      absurd hmem List.not_mem_nil

end Sample

open Sample in
/-- A proof and a definition: the context on disk agrees with the one in memory, which does not
depend on which of them came first. -/
theorem contexts_agree_reordered :
    ∃ outcomes disk, Outcomes.Accepted outcomes ∧ registered.1 = .ok (outcomes, disk) ∧
      0 < registered.2.written.length ∧
      Agrees memoryStorage sampleDigest registered.2 disk
        (ArtifactState.performAll sampleDigest calls .empty).2 ∧
      (ArtifactState.performAll sampleDigest calls.reverse .empty).2.view sampleDigest =
        (ArtifactState.performAll sampleDigest calls .empty).2.view sampleDigest := by
  obtain ⟨hdisk, horder⟩ := contexts_agree sampleDigest faithful_memoryStorage [] checked_calls
    (by decide)
  obtain ⟨disk, hrun, hagrees⟩ := hdisk functional_registered.1
  refine ⟨_, disk, accepted_calls, hrun, functional_registered.2,
    hagrees _ consistent_registered functional_registered.1 (List.Subset.refl _),
    (horder accepted_calls calls.reverse ?_ ?_ ?_).2⟩
  · exact fun call hcall => checked_calls call (List.mem_reverse.1 hcall)
  · refine ⟨calls.reverse, (List.reverse_perm calls).symm, ?_⟩
    exact .cons rfl (.cons ⟨rfl, rfl, rfl, rfl, rfl, rfl⟩ .nil)
  · obtain ⟨_, -, hnormal, -⟩ := Checker.exists_outcome check_normalForm
    refine ⟨?_, ⟨?_, ?_⟩, trivial⟩
    · intro o ho
      cases ho
    · intro id hid
      rw [hnormal] at hid
      simp [normalForm] at hid
    · intro step hstep id hid
      rw [hnormal] at hstep
      simp only [normalForm, List.mem_cons, List.not_mem_nil, or_false] at hstep
      rcases hstep with rfl | rfl <;> cases hid

end Naome
