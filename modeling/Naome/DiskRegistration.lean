import Naome.DiskArtifactAccess

/-!
# The publication of a checked fact

What the publication of a fact adds to the contents of a context on disk, and which part of
it is there when the storage fails on the way.
-/
namespace Naome
open LocallyNameless Outcome ByteCursor StorageM DiskMap DiskArtifact

/-- A checked fact as it is published. -/
structure Fact where
  proof : ProofId
  derivation : DerivationId
  statement : StatementId
  depth : ℕ
  record : List UInt8

namespace Contents

/-- The records of a fact. -/
def publish (sha256 : List UInt8 → Digest) (fact : Fact) (c : Contents) : Contents :=
  (((c.write .statements fact.statement fact.record false).write .derivations fact.derivation
    (digestBytes fact.statement) false).write .proofs fact.proof
    (encodeProofRecord fact.derivation fact.depth) false).write .artifacts
    (KnowledgeIndex.artifactIdOfProof sha256 fact.proof) (proofIdentity fact.proof) false

/-- A statement in the buckets of its projections. -/
def addAll (c : Contents) (statement : StatementId) (found : List (BucketKind × StatementId)) :
    Contents := found.foldl (fun c p => c.add p.1 p.2 statement) c

/-- The statement and the derivation of a fact are new or have the records of the fact. -/
structure Admits (c : Contents) (fact : Fact) : Prop where
  statement : ∀ known ∈ c.record .statements fact.statement, known = fact.record
  derivation : ∀ known ∈ c.record .derivations fact.derivation, known = digestBytes fact.statement

variable {sha256 : List UInt8 → Digest} {c c' : Contents} {fact : Fact}

theorem write_write_same (c : Contents) (kind : MapKind) (key : Digest) (value : List UInt8) :
    (c.write kind key value false).write kind key value false = c.write kind key value false := by
  unfold write
  simp only [Function.update_self, Function.update_idem]
  congr 1
  conv_lhs => rw [assign]
  rw [if_pos ⟨rfl, isSome_assign _ _ _ _⟩]

theorem write_comm (c : Contents) {kind kind' : MapKind} (h : kind ≠ kind') (key key' : Digest)
    (value value' : List UInt8) (replace replace' : Bool) :
    (c.write kind key value replace).write kind' key' value' replace' =
      (c.write kind' key' value' replace').write kind key value replace := by
  unfold write
  simp only [Function.update_of_ne h, Function.update_of_ne h.symm]
  rw [Function.update_comm h]

/-- Writing the records of a fact again changes nothing. -/
theorem publish_write (c : Contents) (fact : Fact) :
    (c.write .statements fact.statement fact.record false).publish sha256 fact =
        c.publish sha256 fact ∧
      (c.write .derivations fact.derivation (digestBytes fact.statement) false).publish sha256 fact =
        c.publish sha256 fact ∧
      (c.write .proofs fact.proof (encodeProofRecord fact.derivation fact.depth) false).publish
        sha256 fact = c.publish sha256 fact ∧
      (c.write .artifacts (KnowledgeIndex.artifactIdOfProof sha256 fact.proof)
        (proofIdentity fact.proof) false).publish sha256 fact = c.publish sha256 fact := by
  unfold publish
  refine ⟨?_, ?_, ?_, ?_⟩
  · rw [write_write_same]
  · rw [write_comm c (by decide), write_write_same]
  · rw [write_comm c (by decide), write_comm _ (by decide : MapKind.proofs ≠ .derivations),
      write_write_same]
  · rw [write_comm c (by decide), write_comm _ (by decide : MapKind.artifacts ≠ .derivations),
      write_comm _ (by decide : MapKind.artifacts ≠ .proofs), write_write_same]

end Contents

/-- Contents from which the publication of a fact ends as from `c`: some of its records are
already there. -/
structure Resumes (sha256 : List UInt8 → Digest) (fact : Fact) (c c' : Contents) : Prop where
  publish : c'.publish sha256 fact = c.publish sha256 fact
  statement : ∀ known ∈ c'.record .statements fact.statement,
    known ∈ c.record .statements fact.statement ∨ known = fact.record
  derivation : ∀ known ∈ c'.record .derivations fact.derivation,
    known ∈ c.record .derivations fact.derivation ∨ known = digestBytes fact.statement

namespace Resumes

variable {sha256 : List UInt8 → Digest} {c c' c'' : Contents} {fact : Fact}

theorem refl (c : Contents) : Resumes sha256 fact c c :=
  ⟨rfl, fun _ h => Or.inl h, fun _ h => Or.inl h⟩

theorem trans (h : Resumes sha256 fact c c') (h' : Resumes sha256 fact c' c'') :
    Resumes sha256 fact c c'' where
  publish := h'.publish.trans h.publish
  statement known hknown := by
    rcases h'.statement known hknown with hknown | heq
    · exact h.statement known hknown
    · exact Or.inr heq
  derivation known hknown := by
    rcases h'.derivation known hknown with hknown | heq
    · exact h.derivation known hknown
    · exact Or.inr heq

theorem of_write {kind : MapKind} {key : Digest} {value : List UInt8}
    (hpublish : (c.write kind key value false).publish sha256 fact = c.publish sha256 fact)
    (hstatement : kind = .statements → key = fact.statement ∧ value = fact.record)
    (hderivation : kind = .derivations → key = fact.derivation ∧ value = digestBytes fact.statement) :
    Resumes sha256 fact c (c.write kind key value false) where
  publish := hpublish
  statement known hknown := by
    by_cases hkind : kind = .statements
    · obtain ⟨rfl, rfl⟩ := hstatement hkind
      subst hkind
      simp only [Contents.write, Function.update_self, assign] at hknown
      split_ifs at hknown
      · exact Or.inl hknown
      · rw [Function.update_self] at hknown
        exact Or.inr (Option.some.inj hknown).symm
    · simp only [Contents.write, Function.update_of_ne (Ne.symm hkind)] at hknown
      exact Or.inl hknown
  derivation known hknown := by
    by_cases hkind : kind = .derivations
    · obtain ⟨rfl, rfl⟩ := hderivation hkind
      subst hkind
      simp only [Contents.write, Function.update_self, assign] at hknown
      split_ifs at hknown
      · exact Or.inl hknown
      · rw [Function.update_self] at hknown
        exact Or.inr (Option.some.inj hknown).symm
    · simp only [Contents.write, Function.update_of_ne (Ne.symm hkind)] at hknown
      exact Or.inl hknown

theorem statements (c : Contents) (fact : Fact) :
    Resumes sha256 fact c (c.write .statements fact.statement fact.record false) :=
  of_write (Contents.publish_write c fact).1 (fun _ => ⟨rfl, rfl⟩) (by rintro ⟨⟩)

theorem derivations (c : Contents) (fact : Fact) : Resumes sha256 fact c
    (c.write .derivations fact.derivation (digestBytes fact.statement) false) :=
  of_write (Contents.publish_write c fact).2.1 (by rintro ⟨⟩) fun _ => ⟨rfl, rfl⟩

theorem proofs (c : Contents) (fact : Fact) : Resumes sha256 fact c
    (c.write .proofs fact.proof (encodeProofRecord fact.derivation fact.depth) false) :=
  of_write (Contents.publish_write c fact).2.2.1 (by rintro ⟨⟩) (by rintro ⟨⟩)

theorem published (c : Contents) (fact : Fact) : Resumes sha256 fact c (c.publish sha256 fact) :=
  (((statements c fact).trans (derivations _ fact)).trans (proofs _ fact)).trans
    (of_write (Contents.publish_write _ fact).2.2.2 (by rintro ⟨⟩) (by rintro ⟨⟩))

end Resumes

/-- Contents with some of the records of a fact and everything else as in `c`. -/
structure PartlyPublished (sha256 : List UInt8 → Digest) (fact : Fact) (c c' : Contents) : Prop where
  resumes : Resumes sha256 fact c c'
  member : c'.member = c.member
  witnesses : c'.record .witnesses = c.record .witnesses
  programNodes : c'.record .programNodes = c.record .programNodes

section Registration

variable {σ : Type} {sha256 : List UInt8 → Digest} {S : ContextStorage σ} {I : World σ → Prop}
  {Safe : WriteLog → Prop} {w : World σ} {s : DiskArtifactState} {c : Contents} {fact : Fact}
  (hA : Authentic S (storageAddress sha256) I Safe)

include hA

/-- The records of a fact are written one after the other; a failure leaves a first part. -/
theorem Denotes.succeeds_publishRecords (hw : I w) (h : Denotes sha256 w.written s c)
    (hrecord : fact.record.length ≤ maxValueBytes) :
    Succeeds S I Safe (DiskArtifactState.publishRecords sha256 fact.proof fact.derivation
        fact.statement fact.depth fact.record) s w
      (fun _ s' w' => Denotes sha256 w'.written s' (c.publish sha256 fact))
      fun s' w' => ∃ c', Denotes sha256 w'.written s' c' ∧ PartlyPublished sha256 fact c c' := by
  have hkey : ∀ d : Digest, (digestBytes d).length ≤ maxValueBytes := by
    intro d
    rw [length_digestBytes]
    decide
  have hproof : (encodeProofRecord fact.derivation fact.depth).length ≤ maxValueBytes := by
    simp [encodeProofRecord, maxValueBytes]
  have hidentity : (proofIdentity fact.proof).length ≤ maxValueBytes := by
    simp [proofIdentity, maxValueBytes]
  -- A failed write leaves what was there before it.
  have hpartly : ∀ {c' : Contents} {w₁ : World σ} {s₁ : DiskArtifactState},
      Denotes sha256 w₁.written s₁ c' → PartlyPublished sha256 fact c c' →
      ∀ (s' : DiskArtifactState) (w' : World σ), w₁.written ⊆ w'.written → s' = s₁ →
        ∃ c', Denotes sha256 w'.written s' c' ∧ PartlyPublished sha256 fact c c' := by
    rintro c' w₁ s₁ hd hpart s' w' hgrow rfl
    exact ⟨c', hd.mono hgrow, hpart⟩
  have hstatements : Resumes sha256 fact c _ := Resumes.statements c fact
  have hderivations := hstatements.trans (Resumes.derivations _ fact)
  have hproofs := hderivations.trans (Resumes.proofs _ fact)
  unfold DiskArtifactState.publishRecords
  apply Succeeds.bind hA hw (h.succeeds_insertInto hA hw (by decide) hrecord) ?_
    (hpartly h ⟨Resumes.refl c, rfl, rfl, rfl⟩)
  intro _ s₁ w₁ hw₁ _ h₁
  apply Succeeds.bind hA hw₁ (h₁.succeeds_insertInto hA hw₁ (by decide) (hkey _)) ?_
    (hpartly h₁ ⟨hstatements, rfl, rfl, rfl⟩)
  intro _ s₂ w₂ hw₂ _ h₂
  apply Succeeds.bind hA hw₂ (h₂.succeeds_insertInto hA hw₂ (by decide) hproof) ?_
    (hpartly h₂ ⟨hderivations, rfl, rfl, rfl⟩)
  intro _ s₃ w₃ hw₃ _ h₃
  apply (h₃.succeeds_insertInto hA hw₃ (by decide) hidentity).mono
  · exact fun _ _ _ _ h => h
  · exact hpartly h₃ ⟨hproofs, rfl, rfl, rfl⟩

/-- The projections are indexed one after the other; a failure leaves a first part. -/
theorem Denotes.succeeds_projections (statement : StatementId)
    (found : List (BucketKind × StatementId)) (hw : I w) (h : Denotes sha256 w.written s c) :
    Succeeds S I Safe (found.forM (DiskArtifactState.insertProjection sha256 statement)) s w
      (fun _ s' w' => Denotes sha256 w'.written s' (c.addAll statement found))
      fun s' w' => ∃ done rest, found = done ++ rest ∧ rest ≠ [] ∧
        Denotes sha256 w'.written s' (c.addAll statement done) := by
  induction found generalizing c s w with
  | nil => exact Succeeds.pure h
  | cons p found ih =>
    change Succeeds S I Safe (DiskArtifactState.insertProjection sha256 statement p >>= fun _ =>
      found.forM (DiskArtifactState.insertProjection sha256 statement)) s w _ _
    apply Succeeds.bind hA hw (h.succeeds_insertProjection hA hw statement p)
    · intro _ s₁ w₁ hw₁ _ h₁
      apply (ih hw₁ h₁).mono
      · exact fun _ _ _ _ h => h
      · rintro s' w' _ ⟨done, rest, rfl, hrest, hd⟩
        exact ⟨p :: done, rest, rfl, hrest, hd⟩
    · rintro s' w' hgrow rfl
      exact ⟨[], p :: found, rfl, by simp, h.mono hgrow⟩

/-- A known statement keeps the lesser of the two proofs. -/
theorem Denotes.succeeds_registerWitness_known (hw : I w) (h : Denotes sha256 w.written s c)
    {proof known : ProofId} {statement : StatementId}
    (hknown : c.record .witnesses statement = some (digestBytes known)) (formula : Option Formula) :
    Succeeds S I Safe (DiskArtifactState.registerWitness sha256 proof statement formula) s w
      (fun _ s' w' => Denotes sha256 w'.written s' (if proof < known
        then c.write .witnesses statement (digestBytes proof) true else c))
      fun s' _ => s' = s := by
  unfold DiskArtifactState.registerWitness
  apply Succeeds.bind hA hw (succeeds_getFrom hA hw (h.flat .witnesses (by decide)) statement) ?_
    fun _ _ _ h => h
  intro v s₁ w₁ hw₁ hgrow hr
  obtain ⟨rfl, rfl⟩ := hr
  rw [hknown]
  simp only [fixedKey_digestBytes, UpdateM.access_ok_bind]
  have h₁ := h.mono hgrow
  split_ifs with hlt
  · apply (h₁.succeeds_setIn hA hw₁ (by decide) ?_).mono (fun _ _ _ _ h => h) fun _ _ _ h => h
    rw [length_digestBytes]
    decide
  · exact Succeeds.pure h₁

/-- A new statement gets its witness and enters the buckets of its projections. -/
theorem Denotes.updates_registerWitness_new (hw : I w) (h : Denotes sha256 w.written s c)
    {proof : ProofId} {statement : StatementId} (hnew : c.record .witnesses statement = none)
    (formula : Option Formula) {found : Except (Stop ArtifactStateError) (List (BucketKind × StatementId))}
    (hfound : found = match formula with
      | none => .ok []
      | some f => KnowledgeIndex.projections sha256 proof f) :
    Updates S I Safe (DiskArtifactState.registerWitness sha256 proof statement formula) s w
      (fun r s' w' => r = found.map (fun _ => ()) ∧ ∀ l, found = .ok l →
        Denotes sha256 w'.written s'
          ((c.write .witnesses statement (digestBytes proof) false).addAll statement l))
      fun s' w' => s' = s ∨ ∃ l done rest, found = .ok l ∧ l = done ++ rest ∧ rest ≠ [] ∧
        Denotes sha256 w'.written s'
          ((c.write .witnesses statement (digestBytes proof) false).addAll statement done) := by
  unfold DiskArtifactState.registerWitness
  apply Updates.bind hA hw (succeeds_getFrom hA hw (h.flat .witnesses (by decide)) statement)
  · intro v s₁ w₁ hw₁ hgrow hr
    obtain ⟨_, ⟨rfl⟩, rfl, rfl⟩ := hr
    rw [hnew]
    have h₁ := h.mono hgrow
    have hkey : (digestBytes proof).length ≤ maxValueBytes := by
      rw [length_digestBytes]
      decide
    apply Updates.bind hA hw₁ (h₁.succeeds_insertInto hA hw₁ (by decide) hkey)
    · intro _ s₂ w₂ hw₂ _ hr
      obtain ⟨_, -, h₂⟩ := hr
      cases formula with
      | none =>
        subst hfound
        apply Updates.pure
        refine ⟨rfl, ?_⟩
        rintro l ⟨⟩
        exact h₂
      | some f =>
        simp only at hfound ⊢
        rw [← hfound]
        cases found with
        | error stop => exact Updates.outcome ⟨rfl, by rintro l ⟨⟩⟩
        | ok l =>
          change Updates S I Safe
            (l.forM (DiskArtifactState.insertProjection sha256 statement)) s₂ w₂ _ _
          apply Updates.mono (h₂.succeeds_projections hA statement l hw₂)
          · rintro r s' w' _ ⟨_, rfl, hd⟩
            refine ⟨rfl, ?_⟩
            rintro l' ⟨⟩
            exact hd
          · rintro s' w' _ ⟨done, rest, hl, hrest, hd⟩
            exact Or.inr ⟨l, done, rest, rfl, hl, hrest, hd⟩
    · rintro stop s' w' _ ⟨_, ⟨⟩, _⟩
    · exact fun _ _ _ h => Or.inl h
  · rintro stop s' w' _ ⟨_, ⟨⟩, _⟩
  · exact fun _ _ _ h => Or.inl h

omit hA in
/-- The contents after the publication of a fact whose statement has the given witness. -/
def Contents.register (sha256 : List UInt8 → Digest) (fact : Fact) (known : Option ProofId)
    (found : List (BucketKind × StatementId)) (c : Contents) : Contents :=
  match known with
  | none => ((c.publish sha256 fact).write .witnesses fact.statement (digestBytes fact.proof)
      false).addAll fact.statement found
  | some known =>
    if fact.proof < known then
      (c.publish sha256 fact).write .witnesses fact.statement (digestBytes fact.proof) true
    else c.publish sha256 fact

omit hA in
/-- A publication that failed while it indexed the projections of a new statement. -/
def Interrupted (sha256 : List UInt8 → Digest) (fact : Fact) (known : Option ProofId)
    (found : Except (Stop ArtifactStateError) (List (BucketKind × StatementId)))
    (c c' : Contents) : Prop :=
  known = none ∧ ∃ done rest, found = .ok (done ++ rest) ∧ rest ≠ [] ∧
    c' = c.register sha256 fact none done

theorem Denotes.answers_checkKnown (hw : I w) (h : Denotes sha256 w.written s c) {kind : MapKind}
    (hkind : kind.Flat) {key : Digest} {value : List UInt8} (e : ArtifactStateError) :
    Updates S I Safe (DiskArtifactState.checkKnown sha256 kind key value e) s w
      (fun r s' _ => r = require (∀ known ∈ c.record kind key, known = value) (.error e) ∧ s' = s)
      fun s' _ => s' = s := by
  unfold DiskArtifactState.checkKnown
  apply Updates.bind hA hw (succeeds_getFrom hA hw (h.flat kind hkind) key)
  · rintro v s₁ w₁ _ _ ⟨_, ⟨rfl⟩, rfl, rfl⟩
    exact Updates.outcome ⟨rfl, rfl⟩
  · rintro stop s' w' _ ⟨_, ⟨⟩, _⟩
  · exact fun _ _ _ h => h

/-- The publication of a fact that collides with nothing: it succeeds, stops in an assertion of
its projections, or leaves a first part of the fact behind. -/
theorem Denotes.updates_registerFact (hw : I w) (h : Denotes sha256 w.written s c)
    (hadmits : c.Admits fact) (hrecord : fact.record.length ≤ maxValueBytes)
    {known : Option ProofId} (hknown : c.record .witnesses fact.statement = known.map digestBytes)
    (formula : Option Formula)
    {found : Except (Stop ArtifactStateError) (List (BucketKind × StatementId))}
    (hfound : found = match formula with
      | none => .ok []
      | some f => KnowledgeIndex.projections sha256 fact.proof f) :
    Updates S I Safe (DiskArtifactState.registerFact sha256 fact.proof fact.derivation
        fact.statement fact.depth fact.record formula) s w
      (fun r s' w' => r = (if known.isSome then .ok () else found.map fun _ => ()) ∧
        ∀ l, known.isSome = true ∨ found = .ok l →
          Denotes sha256 w'.written s' (c.register sha256 fact known l))
      fun s' w' => ∃ c', Denotes sha256 w'.written s' c' ∧
        (PartlyPublished sha256 fact c c' ∨ Interrupted sha256 fact known found c c') := by
  have hpart : PartlyPublished sha256 fact c (c.publish sha256 fact) :=
    ⟨Resumes.published c fact, rfl, rfl, rfl⟩
  have hsame : ∀ {w₁ : World σ}, w.written ⊆ w₁.written → ∀ (s' : DiskArtifactState) (w' : World σ),
      w₁.written ⊆ w'.written → s' = s → ∃ c', Denotes sha256 w'.written s' c' ∧
        (PartlyPublished sha256 fact c c' ∨ Interrupted sha256 fact known found c c') := by
    rintro w₁ hgrow s' w' hgrow' rfl
    exact ⟨c, h.mono (List.Subset.trans hgrow hgrow'), Or.inl ⟨Resumes.refl c, rfl, rfl, rfl⟩⟩
  unfold DiskArtifactState.registerFact
  apply Updates.bind hA hw (h.answers_checkKnown hA hw (by decide) _) ?_ ?_
    (hsame (List.Subset.refl _))
  · rintro _ s₁ w₁ hw₁ hgrow₁ ⟨-, rfl⟩
    have h₁ := h.mono hgrow₁
    apply Updates.bind hA hw₁ (h₁.answers_checkKnown hA hw₁ (by decide) _) ?_ ?_ (hsame hgrow₁)
    · rintro _ s₂ w₂ hw₂ hgrow₂ ⟨-, rfl⟩
      have h₂ := h₁.mono hgrow₂
      apply Updates.bind hA hw₂ (h₂.succeeds_publishRecords hA hw₂ hrecord)
      · rintro _ s₃ w₃ hw₃ _ ⟨_, -, h₃⟩
        cases known with
        | some known =>
          apply Updates.mono (h₃.succeeds_registerWitness_known hA hw₃ hknown formula)
          · rintro r s' w' _ ⟨_, rfl, hd⟩
            exact ⟨rfl, fun _ _ => hd⟩
          · rintro s' w' hgrow rfl
            exact ⟨_, h₃.mono hgrow, Or.inl hpart⟩
        | none =>
          apply Updates.mono (h₃.updates_registerWitness_new hA hw₃ hknown formula hfound)
          · rintro r s' w' _ ⟨rfl, hd⟩
            refine ⟨rfl, ?_⟩
            rintro l (⟨⟨⟩⟩ | hl)
            exact hd l hl
          · rintro s' w' hgrow (rfl | ⟨l, done, rest, hl, rfl, hrest, hd⟩)
            · exact ⟨_, h₃.mono hgrow, Or.inl hpart⟩
            · exact ⟨_, hd, Or.inr ⟨rfl, done, rest, hl, hrest, rfl⟩⟩
      · rintro stop s' w' _ ⟨_, ⟨⟩, _⟩
      · rintro s' w' _ ⟨c', hd, hc'⟩
        exact ⟨c', hd, Or.inl hc'⟩
    · rintro stop s' w' _ ⟨hr, -⟩
      rw [require, if_pos hadmits.derivation] at hr
      cases hr
  · rintro stop s' w' _ ⟨hr, -⟩
    rw [require, if_pos hadmits.statement] at hr
    cases hr

end Registration
end Naome
