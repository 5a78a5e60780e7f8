import Naome.CheckerSoundness
import Naome.ContextTransport
import Naome.NormalFormSpec

/-!
# Histories of a context

A context is built by registering checked artifacts. Nothing that was resolved once is
resolved differently later, so every registered proof stays reconstructible.
-/
namespace Naome
open LocallyNameless Outcome Checker

namespace ArtifactState

variable {sha256 : List UInt8 → Digest} {s s' : ArtifactState}

theorem getElem?_insertIfNew_of_some {V : Type} {m : DigestMap V} {k a : Digest} {v w : V}
    (h : m[a]? = some w) : (m.insertIfNew k v)[a]? = some w := by
  rw [Std.TreeMap.getElem?_insertIfNew]
  split_ifs with hk
  · obtain ⟨hka, hmem⟩ := hk
    cases Std.LawfulEqCmp.eq_of_compare hka
    exact absurd (Std.TreeMap.mem_iff_isSome_getElem?.mpr (by rw [h]; rfl)) hmem
  · exact h

theorem getElem?_insertIfNew_self {V : Type} {m : DigestMap V} {k : Digest} {v : V}
    (h : m[k]? = none) : (m.insertIfNew k v)[k]? = some v := by
  rw [Std.TreeMap.getElem?_insertIfNew, if_pos]
  refine ⟨Std.ReflCmp.compare_self, ?_⟩
  rw [Std.TreeMap.mem_iff_isSome_getElem?, h]
  exact Bool.false_ne_true

/-- Every lookup of `s` succeeds in `s'` with the same result. -/
structure Extends (s s' : ArtifactState) : Prop where
  proof : ∀ (id : ProofId) d, s.proofs[id]? = some d → s'.proofs[id]? = some d
  derivation : ∀ (id : DerivationId) d, s.derivations[id]? = some d → s'.derivations[id]? = some d
  statement : ∀ (id : StatementId) d, s.statements[id]? = some d → s'.statements[id]? = some d
  definition : ∀ (id : DefinitionId) d, s.definitions[id]? = some d → s'.definitions[id]? = some d
  witness : ∀ (id : StatementId) d, s.questionIndex.witnesses[id]? = some d →
    ∃ d', s'.questionIndex.witnesses[id]? = some d'

/-- Registered proofs have derivations, statements and witnesses; definitions are primitive. -/
structure WellFormed (s : ArtifactState) : Prop where
  derivation : ∀ (id : ProofId) d, s.proofs[id]? = some d → ∃ st, s.derivations[d]? = some st
  statement : ∀ (id : DerivationId) st, s.derivations[id]? = some st →
    ∃ stored, s.statements[st]? = some stored
  witness : ∀ (id : StatementId) stored, s.statements[id]? = some stored →
    ∃ w, s.questionIndex.witnesses[id]? = some w
  primitive : ∀ (id : DefinitionId) c, s.definitions[id]? = some c → c.body.node.symbols = []

theorem resolveProof_eq_some {id : ProofId} {header : ProofHeader} :
    s.resolveProof id = some header ↔ ∃ stored, s.proofs[id]? = some header.derivation ∧
      s.derivations[header.derivation]? = some header.statement ∧
      s.statements[header.statement]? = some stored ∧ header.length = stored.canonicalLength := by
  simp only [resolveProof, Option.bind_eq_bind, Option.bind_eq_some_iff, Option.pure_def,
    Option.some.injEq]
  constructor
  · rintro ⟨d, hd, st, hst, stored, hstored, rfl⟩
    exact ⟨stored, hd, hst, hstored, rfl⟩
  · rintro ⟨stored, hd, hst, hstored, hlen⟩
    refine ⟨_, hd, _, hst, stored, hstored, ?_⟩
    rw [← hlen]

theorem statementFormula_eq_some {id : StatementId} {maximum : ℕ} {f : Formula} :
    s.statementFormula id maximum = .ok (some f) ↔ ∃ stored w, s.statements[id]? = some stored ∧
      s.questionIndex.witnesses[id]? = some w ∧ stored.canonicalLength ≤ maximum ∧
      f = stored.conclusion := by
  simp only [statementFormula, knownStatement]
  cases hstored : s.statements[id]? with
  | none => simp
  | some stored =>
    cases hw : s.questionIndex.witnesses[id]? with
    | none => simp
    | some w =>
      simp only [Option.bind_eq_bind, Option.bind_some, Option.pure_def, Option.some.injEq]
      split_ifs with hlt
      · constructor
        · intro h
          cases h
        · rintro ⟨_, _, rfl, -, hle, -⟩
          omega
      · simp only [Except.ok.injEq, Option.some.injEq]
        constructor
        · rintro rfl
          exact ⟨stored, w, rfl, rfl, Nat.le_of_not_lt hlt, rfl⟩
        · rintro ⟨_, _, rfl, -, -, rfl⟩
          rfl

theorem Extends.refl (s : ArtifactState) : Extends s s where
  proof _ _ h := h
  derivation _ _ h := h
  statement _ _ h := h
  definition _ _ h := h
  witness _ d h := ⟨d, h⟩

theorem Extends.resolveProof (h : Extends s s') {id : ProofId} {header : ProofHeader}
    (hid : s.resolveProof id = some header) : s'.resolveProof id = some header := by
  obtain ⟨stored, hd, hst, hstored, hlen⟩ := resolveProof_eq_some.1 hid
  exact resolveProof_eq_some.2
    ⟨stored, h.proof _ _ hd, h.derivation _ _ hst, h.statement _ _ hstored, hlen⟩

theorem Extends.statementFormula (h : Extends s s') {id : StatementId} {maximum : ℕ} {f : Formula}
    (hf : s.statementFormula id maximum = .ok (some f)) :
    s'.statementFormula id maximum = .ok (some f) := by
  obtain ⟨stored, w, hstored, hw, hle, rfl⟩ := statementFormula_eq_some.1 hf
  obtain ⟨w', hw'⟩ := h.witness id w hw
  exact statementFormula_eq_some.2 ⟨stored, w', h.statement _ _ hstored, hw', hle, rfl⟩

theorem Extends.carries (h : Extends s s') (step : ProofStep) :
    Carries (s.view sha256) (s'.view sha256) step where
  definition id _ c hc := congrArg Except.ok (h.definition id c (Except.ok.inj hc))
  proof _ _ _ _ hheader hf :=
    ⟨congrArg Except.ok (h.resolveProof (Except.ok.inj hheader)), h.statementFormula hf⟩

/-- A registered proof has a header, and its conclusion can be read. -/
theorem WellFormed.exists_header (hw : WellFormed s) {id : ProofId} {d : DerivationId}
    (h : s.proofs[id]? = some d) : ∃ header f, s.resolveProof id = some header ∧
      header.derivation = d ∧ s.statementFormula header.statement header.length = .ok (some f) := by
  obtain ⟨st, hst⟩ := hw.derivation id d h
  obtain ⟨stored, hstored⟩ := hw.statement d st hst
  obtain ⟨w, hwit⟩ := hw.witness st stored hstored
  refine ⟨⟨d, st, stored.canonicalLength⟩, stored.conclusion, ?_, rfl, ?_⟩
  · exact resolveProof_eq_some.2 ⟨stored, h, hst, hstored, rfl⟩
  · exact statementFormula_eq_some.2 ⟨stored, w, hstored, hwit, le_rfl, rfl⟩

theorem WellFormed.primitiveDefinitions (hw : WellFormed s) :
    PrimitiveDefinitions (s.view sha256) :=
  fun id c h => hw.primitive id c (Except.ok.inj h)

end ArtifactState

namespace KnowledgeIndex

variable {sha256 : List UInt8 → Digest} {ε : Type}

theorem witnesses_insertProjection (statement : StatementId) (index : KnowledgeIndex)
    (projection : BucketKind × StatementId) :
    (insertProjection statement index projection).witnesses = index.witnesses := by
  obtain ⟨kind, target⟩ := projection
  cases kind with
  | outgoing | deductions | instances => rfl

theorem witnesses_foldl (statement : StatementId) (index : KnowledgeIndex)
    (found : List (BucketKind × StatementId)) :
    (found.foldl (insertProjection statement) index).witnesses = index.witnesses := by
  induction found generalizing index with
  | nil => rfl
  | cons p found ih => exact (ih _).trans (witnesses_insertProjection statement index p)

/-- A registration gives its statement a witness and keeps the other ones. -/
theorem witnesses_registerProof {index index' : KnowledgeIndex} {proof : ProofId}
    {statement : StatementId} {f : Formula}
    (h : index.registerProof sha256 proof statement f = (.ok index' : Except (Stop ε) _)) :
    (∃ w, index'.witnesses[statement]? = some w) ∧
      ∀ id : StatementId, id ≠ statement → index'.witnesses[id]? = index.witnesses[id]? := by
  unfold registerProof at h
  simp only at h
  split at h
  · rename_i known hknown
    cases h
    split_ifs with hlt
    · refine ⟨⟨proof, Std.TreeMap.getElem?_insert_self⟩, fun id hid => ?_⟩
      rw [Std.TreeMap.getElem?_insert, if_neg]
      exact fun heq => hid (Std.LawfulEqCmp.eq_of_compare heq).symm
    · exact ⟨⟨known, hknown⟩, fun id _ => rfl⟩
  · rename_i hnone
    obtain ⟨found, -, h⟩ := bind_eq_ok.mp h
    cases pure_eq_ok.mp h
    rw [witnesses_foldl]
    refine ⟨⟨proof, ArtifactState.getElem?_insertIfNew_self hnone⟩, fun id hid => ?_⟩
    rw [Std.TreeMap.getElem?_insertIfNew, if_neg]
    exact fun heq => hid (Std.LawfulEqCmp.eq_of_compare heq.1).symm

end KnowledgeIndex

namespace ArtifactState

variable {sha256 : List UInt8 → Digest} {s s' s₀ : ArtifactState} {P : CheckedProof}

theorem access_eq_ok {α : Type} {x : Except ContextError α} {a : α} :
    Registration.access x = .ok a ↔ x = .ok a := mapError_eq_ok

/-- The artifacts that a proof cites are selected. -/
structure Selected (s : ArtifactState) (P : CheckedProof) : Prop where
  proof : ∀ id, .proofReference id ∈ P.normalForm.certificate.steps → ∃ d, s.proofs[id]? = some d
  definition : ∀ step ∈ P.normalForm.certificate.steps, ∀ id ∈ step.definitionReferences,
    ∃ c, s.definitions[id]? = some c

theorem sameStatement_eq_ok {u : Unit}
    (h : Registration.sameStatement (s.registrationView sha256) P = .ok u) :
    ∃ o, s.statementFormula P.statementId checkerMaxFormulaWorkBytes = .ok o ∧
      ∀ f ∈ o, f = P.conclusion := by
  obtain ⟨o, ho, h⟩ := bind_eq_ok.mp h
  exact ⟨o, access_eq_ok.1 ho, require_eq_ok.mp h⟩

theorem selected_of_validateDependencies {u : Unit}
    (h : Registration.validateDependencies (s.registrationView sha256)
      P.normalForm.certificate.steps = .ok u) : Selected s P := by
  have hsteps := forM_eq_ok.mp h
  constructor
  · intro id hid
    obtain ⟨_, href, -⟩ := bind_eq_ok.mp (hsteps _ hid)
    obtain ⟨known, hknown, href⟩ := bind_eq_ok.mp href
    cases access_eq_ok.1 hknown
    have hmem : id ∈ s.proofs := require_eq_ok.mp href
    exact Option.isSome_iff_exists.mp (Std.TreeMap.mem_iff_isSome_getElem?.mp hmem)
  · intro step hstep id hid
    obtain ⟨_, -, hdefs⟩ := bind_eq_ok.mp (hsteps _ hstep)
    obtain ⟨c, hc, hsome⟩ := bind_eq_ok.mp (forM_eq_ok.mp hdefs id hid)
    have hc' : s.definitions[id]? = c := Except.ok.inj (access_eq_ok.1 hc)
    obtain ⟨c', rfl⟩ := Option.isSome_iff_exists.mp (require_eq_ok.mp hsome)
    exact ⟨c', hc'⟩

/-- What the checks of a registration establish, whether the derivation is new or not. -/
structure Admitted (s : ArtifactState) (P : CheckedProof) : Prop where
  fresh : s.resolveProof P.proofId = none
  selected : Selected s P
  derivation : ∀ st, s.derivations[P.derivationId]? = some st → st = P.statementId
  statement : ∃ o, s.statementFormula P.statementId checkerMaxFormulaWorkBytes = .ok o ∧
    ∀ f ∈ o, f = P.conclusion

/-- A computation that does not report a duplicate derivation. -/
def NeverDuplicate {α : Type} (x : RegisterM α) : Prop :=
  ∀ id, x ≠ .error (.error (.duplicateDerivation id))

theorem neverDuplicate_bind {α β : Type} {x : RegisterM α} {f : α → RegisterM β}
    (hx : NeverDuplicate x) (hf : ∀ a, NeverDuplicate (f a)) : NeverDuplicate (x >>= f) := by
  intro id h
  rcases bind_eq_error.mp h with h | ⟨a, -, h⟩
  · exact hx id h
  · exact hf a id h

theorem neverDuplicate_access {α : Type} (x : Except ContextError α) :
    NeverDuplicate (Registration.access x) := by
  intro id h
  cases x with
  | ok a => cases h
  | error e => cases h

theorem neverDuplicate_require {p : Prop} [Decidable p] {e : ArtifactStateError}
    (he : ∀ id, e ≠ .duplicateDerivation id) :
    NeverDuplicate (require p (.error e) : RegisterM Unit) := by
  intro id h
  obtain ⟨-, heq⟩ := require_eq_error.mp h
  exact he id (Stop.error.inj heq)

theorem neverDuplicate_forM {α : Type} {f : α → RegisterM Unit} (hf : ∀ a, NeverDuplicate (f a))
    (xs : List α) : NeverDuplicate (xs.forM f) := by
  induction xs with
  | nil =>
    intro id h
    cases h
  | cons x xs ih => exact neverDuplicate_bind (hf x) fun _ => ih

theorem neverDuplicate_sameStatement (state : RegistrationView) (P : CheckedProof) :
    NeverDuplicate (Registration.sameStatement state P) :=
  neverDuplicate_bind (neverDuplicate_access _) fun _ => neverDuplicate_require (by simp)

theorem neverDuplicate_validateDependencies (state : RegistrationView) (steps : List ProofStep) :
    NeverDuplicate (Registration.validateDependencies state steps) := by
  refine neverDuplicate_forM (fun step => ?_) steps
  have hreference : NeverDuplicate (Registration.validateReference state step) := by
    cases step with
    | proofReference id =>
      exact neverDuplicate_bind (neverDuplicate_access _) fun _ => neverDuplicate_require (by simp)
    | _ =>
      intro id h
      cases h
  refine neverDuplicate_bind hreference fun _ => neverDuplicate_forM (fun id => ?_) _
  exact neverDuplicate_bind (neverDuplicate_access _) fun _ => neverDuplicate_require (by simp)

theorem neverDuplicate_refuseKnown (state : RegistrationView) (P : CheckedProof)
    (header : ProofHeader) : NeverDuplicate (Registration.refuseKnown state P header) := by
  refine neverDuplicate_bind (neverDuplicate_require (by simp)) fun _ => ?_
  refine neverDuplicate_bind (neverDuplicate_sameStatement _ _) fun _ id h => ?_
  cases h

/-- A registration is admitted when it is accepted or only its derivation is known. -/
theorem admitted_of_validate
    (h : s.validateProofRegistration sha256 P = .ok () ∨
      ∃ id, s.validateProofRegistration sha256 P = .error (.error (.duplicateDerivation id))) :
    Admitted s P ∧ ((∃ id, s.validateProofRegistration sha256 P =
      .error (.error (.duplicateDerivation id))) →
        s.derivations[P.derivationId]? = some P.statementId) := by
  have hsteps := neverDuplicate_validateDependencies (s.registrationView sha256)
    P.normalForm.certificate.steps
  have hsame := neverDuplicate_sameStatement (s.registrationView sha256) P
  cases hheader : s.resolveProof P.proofId with
  | some header =>
    have hvalidate : s.validateProofRegistration sha256 P =
        Registration.refuseKnown (s.registrationView sha256) P header := by
      simp only [validateProofRegistration, Registration.validate, registrationView, view,
        Registration.access, Except.mapError, ok_bind, hheader]
    rw [hvalidate] at h
    rcases h with h | ⟨id, h⟩
    · obtain ⟨_, -, h⟩ := bind_eq_ok.mp h
      obtain ⟨_, -, h⟩ := bind_eq_ok.mp h
      cases h
    · exact absurd h (neverDuplicate_refuseKnown _ P header id)
  | none =>
    cases hderivation : s.derivations[P.derivationId]? with
    | none =>
      have hvalidate : s.validateProofRegistration sha256 P = (do
          Registration.validateDependencies (s.registrationView sha256)
            P.normalForm.certificate.steps
          Registration.sameStatement (s.registrationView sha256) P) := by
        simp only [validateProofRegistration, Registration.validate, registrationView, view,
          Registration.access, Except.mapError, ok_bind, hheader, hderivation]
      have hnever := neverDuplicate_bind hsteps fun _ => hsame
      rw [hvalidate] at h ⊢
      rcases h with h | ⟨id, h⟩
      · obtain ⟨u, hforM, h⟩ := bind_eq_ok.mp h
        refine ⟨⟨hheader, selected_of_validateDependencies hforM, ?_, sameStatement_eq_ok h⟩, ?_⟩
        · intro st hst
          rw [hderivation] at hst
          cases hst
        · rintro ⟨id, hid⟩
          exact absurd hid (hnever id)
      · exact absurd h (hnever id)
    | some statement =>
      have hvalidate : s.validateProofRegistration sha256 P = (do
          Registration.validateDependencies (s.registrationView sha256)
            P.normalForm.certificate.steps
          Registration.validateAlias (s.registrationView sha256) P false statement) := by
        simp only [validateProofRegistration, Registration.validate, registrationView, view,
          Registration.access, Except.mapError, ok_bind, hheader, hderivation]
      rw [hvalidate] at h ⊢
      rcases h with h | ⟨id, h⟩
      · obtain ⟨_, -, h⟩ := bind_eq_ok.mp h
        obtain ⟨_, -, h⟩ := bind_eq_ok.mp h
        obtain ⟨_, -, h⟩ := bind_eq_ok.mp h
        cases h
      · rcases bind_eq_error.mp h with h | ⟨u, hforM, h⟩
        · exact absurd h (hsteps id)
        rcases bind_eq_error.mp h with h | ⟨_, hstatement, h⟩
        · exact absurd h (neverDuplicate_require (by simp) id)
        rcases bind_eq_error.mp h with h | ⟨_, hsameStatement, -⟩
        · exact absurd h (hsame id)
        obtain rfl := require_eq_ok.mp hstatement
        refine ⟨⟨hheader, selected_of_validateDependencies hforM, ?_,
          sameStatement_eq_ok hsameStatement⟩, fun _ => rfl⟩
        intro st hst
        rw [hderivation] at hst
        exact (Option.some.inj hst).symm

theorem getElem?_insertIfNew_cases {V : Type} {m : DigestMap V} {k a : Digest} {v w : V}
    (h : (m.insertIfNew k v)[a]? = some w) : m[a]? = some w ∨ a = k ∧ w = v := by
  rw [Std.TreeMap.getElem?_insertIfNew] at h
  split_ifs at h with hk
  · right
    exact ⟨(Std.LawfulEqCmp.eq_of_compare hk.1).symm, (Option.some.inj h).symm⟩
  · exact .inl h

/-- What an accepted registration stores. -/
structure Stores (sha256 : List UInt8 → Digest) (s s' : ArtifactState) (P : CheckedProof) :
    Prop where
  admitted : Admitted s P
  index : s.questionIndex.registerProof sha256 P.proofId P.statementId P.conclusion =
    (.ok s'.questionIndex : RegisterM _)
  proofs : s'.proofs = s.proofs.insertIfNew P.proofId P.derivationId
  derivations : ∀ id : DerivationId, s'.derivations[id]? =
    (s.derivations.insertIfNew P.derivationId P.statementId)[id]?
  statements : ∀ id : StatementId, s'.statements[id]? = (s.statements.insertIfNew P.statementId
    ⟨P.conclusion, P.canonicalConclusionLength, P.closed⟩)[id]?
  definitions : s'.definitions = s.definitions

theorem getElem?_insertIfNew_present {V : Type} {m : DigestMap V} {k : Digest} {v w : V}
    (h : m[k]? = some w) (a : Digest) : m[a]? = (m.insertIfNew k v)[a]? := by
  rw [Std.TreeMap.getElem?_insertIfNew, if_neg]
  rintro ⟨-, hmem⟩
  exact hmem (Std.TreeMap.mem_iff_isSome_getElem?.mpr (by rw [h]; rfl))

theorem stores_of_registerProof {bytes : List UInt8}
    (h : s.registerProof sha256 P = .ok (s', bytes)) : Stores sha256 s s' P := by
  obtain ⟨_, hvalid, h⟩ := bind_eq_ok.mp h
  obtain ⟨index, hindex, h⟩ := bind_eq_ok.mp h
  obtain ⟨canonical, -, h⟩ := bind_eq_ok.mp h
  cases pure_eq_ok.mp h
  exact ⟨(admitted_of_validate (.inl hvalid)).1, hindex, rfl, fun _ => rfl, fun _ => rfl, rfl⟩

/-- The two ways of registering a proof store the same. -/
theorem stores_of_register (hw : WellFormed s) {bytes : List UInt8}
    (h : s.registerProof sha256 P = .ok (s', bytes) ∨
      s.registerProofForReplication sha256 P = .ok (s', bytes)) :
    Stores sha256 s s' P := by
  rcases h with h | h
  · exact stores_of_registerProof h
  unfold registerProofForReplication at h
  split at h
  · rename_i id hvalid
    obtain ⟨hadmitted, hknown⟩ := admitted_of_validate (.inr ⟨id, hvalid⟩)
    obtain ⟨index, hindex, h⟩ := bind_eq_ok.mp h
    obtain ⟨canonical, -, h⟩ := bind_eq_ok.mp h
    cases pure_eq_ok.mp h
    have hderivation := hknown ⟨id, hvalid⟩
    obtain ⟨stored, hstored⟩ := hw.statement _ _ hderivation
    exact ⟨hadmitted, hindex, rfl, getElem?_insertIfNew_present hderivation,
      getElem?_insertIfNew_present hstored, rfl⟩
  · cases h
  · exact stores_of_registerProof h

theorem Stores.extends (h : Stores sha256 s s' P) : Extends s s' where
  proof id d hd := by
    rw [h.proofs]
    exact getElem?_insertIfNew_of_some hd
  derivation id d hd := by
    rw [h.derivations]
    exact getElem?_insertIfNew_of_some hd
  statement id d hd := by
    rw [h.statements]
    exact getElem?_insertIfNew_of_some hd
  definition id d hd := by rwa [h.definitions]
  witness id d hd := by
    obtain ⟨hself, hother⟩ := KnowledgeIndex.witnesses_registerProof h.index
    by_cases hid : id = P.statementId
    · rw [hid]
      exact hself
    · exact ⟨d, (hother id hid).trans hd⟩

/-- The stored conclusion of the statement is that of the proof. -/
theorem Stores.exists_statement (hw : WellFormed s) (h : Stores sha256 s s' P) :
    ∃ stored, s'.statements[P.statementId]? = some stored ∧ stored.conclusion = P.conclusion := by
  rw [h.statements]
  cases hstored : s.statements[P.statementId]? with
  | none => exact ⟨_, getElem?_insertIfNew_self hstored, rfl⟩
  | some stored =>
    refine ⟨stored, getElem?_insertIfNew_of_some hstored, ?_⟩
    obtain ⟨w, hwit⟩ := hw.witness _ _ hstored
    obtain ⟨o, ho, hsame⟩ := h.admitted.statement
    simp only [statementFormula, knownStatement, hstored, hwit, Option.bind_eq_bind,
      Option.bind_some, Option.pure_def] at ho
    split_ifs at ho
    cases ho
    exact hsame _ rfl

theorem Stores.wellFormed (hw : WellFormed s) (h : Stores sha256 s s' P) :
    WellFormed s' where
  derivation id d hd := by
    rw [h.proofs] at hd
    rcases getElem?_insertIfNew_cases hd with hd | ⟨-, rfl⟩
    · obtain ⟨st, hst⟩ := hw.derivation id d hd
      exact ⟨st, h.extends.derivation _ _ hst⟩
    · rw [h.derivations]
      cases hold : s.derivations[P.derivationId]? with
      | none => exact ⟨_, getElem?_insertIfNew_self hold⟩
      | some st => exact ⟨st, getElem?_insertIfNew_of_some hold⟩
  statement id st hst := by
    rw [h.derivations] at hst
    rcases getElem?_insertIfNew_cases hst with hst | ⟨-, rfl⟩
    · obtain ⟨stored, hstored⟩ := hw.statement id st hst
      exact ⟨stored, h.extends.statement _ _ hstored⟩
    · obtain ⟨stored, hstored, -⟩ := h.exists_statement hw
      exact ⟨stored, hstored⟩
  witness id stored hstored := by
    obtain ⟨hself, hother⟩ := KnowledgeIndex.witnesses_registerProof h.index
    by_cases hid : id = P.statementId
    · rw [hid]
      exact hself
    · rw [h.statements] at hstored
      rcases getElem?_insertIfNew_cases hstored with hstored | ⟨heq, -⟩
      · obtain ⟨w, hwit⟩ := hw.witness id stored hstored
        exact ⟨w, (hother id hid).trans hwit⟩
      · exact absurd heq hid
  primitive id c hc := hw.primitive id c (h.definitions ▸ hc)

/-- A proof that is registered was not stored before. -/
theorem Stores.proofs_eq_none (hw : WellFormed s) (h : Stores sha256 s s' P) :
    s.proofs[P.proofId]? = none := by
  cases hold : s.proofs[P.proofId]? with
  | none => rfl
  | some d =>
    obtain ⟨header, -, hheader, -⟩ := hw.exists_header hold
    rw [h.admitted.fresh] at hheader
    cases hheader

/-- After its registration a proof resolves to its own identities and conclusion. -/
theorem Stores.exists_header (hw : WellFormed s) (h : Stores sha256 s s' P) :
    ∃ length, s'.resolveProof P.proofId = some ⟨P.derivationId, P.statementId, length⟩ ∧
      s'.statementFormula P.statementId length = .ok (some P.conclusion) := by
  have hfresh := h.proofs_eq_none hw
  have hproof : s'.proofs[P.proofId]? = some P.derivationId := by
    rw [h.proofs]
    exact getElem?_insertIfNew_self hfresh
  have hderivation : s'.derivations[P.derivationId]? = some P.statementId := by
    rw [h.derivations]
    cases hold : s.derivations[P.derivationId]? with
    | none => exact getElem?_insertIfNew_self hold
    | some st =>
      rw [← h.admitted.derivation st hold]
      exact getElem?_insertIfNew_of_some hold
  obtain ⟨stored, hstored, hconclusion⟩ := h.exists_statement hw
  obtain ⟨w, hwit⟩ := (h.wellFormed hw).witness _ _ hstored
  refine ⟨stored.canonicalLength, ?_, ?_⟩
  · exact resolveProof_eq_some.2 ⟨stored, hproof, hderivation, hstored, rfl⟩
  · exact statementFormula_eq_some.2 ⟨stored, w, hstored, hwit, le_rfl, hconclusion.symm⟩

theorem extends_of_registerDefinition {D : CheckedDefinition}
    (h : s.registerDefinition sha256 D = .ok s') : Extends s s' := by
  obtain ⟨_, -, h⟩ := bind_eq_ok.mp h
  cases pure_eq_ok.mp h
  exact ⟨fun _ _ h => h, fun _ _ h => h, fun _ _ h => h,
    fun _ _ h => getElem?_insertIfNew_of_some h, fun _ d h => ⟨d, h⟩⟩

theorem wellFormed_of_registerDefinition (hw : WellFormed s) {D : CheckedDefinition}
    (hD : D.certificate.body.node.symbols = []) (h : s.registerDefinition sha256 D = .ok s') :
    WellFormed s' := by
  obtain ⟨_, -, h⟩ := bind_eq_ok.mp h
  cases pure_eq_ok.mp h
  refine ⟨hw.derivation, hw.statement, hw.witness, fun id c hc => ?_⟩
  rcases getElem?_insertIfNew_cases hc with hc | ⟨-, rfl⟩
  · exact hw.primitive id c hc
  · exact hD

/-- What both states resolve, they resolve to the same content. -/
structure Consistent (s₀ s : ArtifactState) : Prop where
  proof : ∀ id header₀ header, s₀.resolveProof id = some header₀ →
    s.resolveProof id = some header → header₀ = header ∧
      s₀.statementFormula header.statement header.length =
        s.statementFormula header.statement header.length
  definition : ∀ (id : DefinitionId) c₀ c, s₀.definitions[id]? = some c₀ →
    s.definitions[id]? = some c → c₀ = c

/-- The states reached by registration, with the proofs registered on the way. A proof may
have been checked against another state, as long as the two states do not give one
identity to different contents. -/
inductive Registered (sha256 : List UInt8 → Digest) : List CheckedProof → ArtifactState → Prop
  | empty : Registered sha256 [] empty
  | proof {proofs proofs₀ : List CheckedProof} {s s₀ s' : ArtifactState} {P : CheckedProof}
    {n : ProofNormalForm} {bytes : List UInt8} (hs : Registered sha256 proofs s)
    (hs₀ : Registered sha256 proofs₀ s₀) (hn : n.certificate.Valid)
    (hcheck : checkNormalFormWithState sha256 n (s₀.view sha256) = .ok P)
    (hconsistent : Consistent s₀ s)
    (h : s.registerProof sha256 P = .ok (s', bytes) ∨
      s.registerProofForReplication sha256 P = .ok (s', bytes)) :
    Registered sha256 (P :: proofs) s'
  | definition {proofs : List CheckedProof} {s s' : ArtifactState} {D : CheckedDefinition}
    {kind : DefinitionKind} {body : DefinedFormula} (hs : Registered sha256 proofs s)
    (hnew : DefinitionCertificate.new sha256 kind body = .ok D.certificate)
    (h : s.registerDefinition sha256 D = .ok s') : Registered sha256 proofs s'

theorem wellFormed_empty : WellFormed empty where
  derivation _ _ h := by cases h
  statement _ _ h := by cases h
  witness _ _ h := by cases h
  primitive _ _ h := by cases h

theorem primitive_of_new {kind : DefinitionKind} {body : DefinedFormula} {c : DefinitionCertificate}
    (h : DefinitionCertificate.new sha256 kind body = .ok c) : c.body.node.symbols = [] := by
  obtain ⟨hv, rfl⟩ := DefinitionCertificate.new_eq_ok.mp h
  exact hv.primitive

theorem Registered.wellFormed {proofs : List CheckedProof} (h : Registered sha256 proofs s) :
    WellFormed s := by
  induction h with
  | empty => exact wellFormed_empty
  | proof _ _ _ _ _ h ihs _ => exact (stores_of_register ihs h).wellFormed ihs
  | definition _ hnew h ih => exact wellFormed_of_registerDefinition ih (primitive_of_new hnew) h

/-- A state is consistent with the states it grew from. -/
theorem Extends.consistent (h : Extends s s') (hw : WellFormed s) : Consistent s s' where
  proof id header₀ header h₀ h' := by
    have hsame : header₀ = header := Option.some.inj ((h.resolveProof h₀).symm.trans h')
    subst hsame
    obtain ⟨stored, hd, -, -, -⟩ := resolveProof_eq_some.1 h₀
    obtain ⟨header', f, hheader', -, hf⟩ := hw.exists_header hd
    rw [h₀] at hheader'
    cases hheader'
    exact ⟨rfl, hf.trans (h.statementFormula hf).symm⟩
  definition id c₀ c h₀ h' := Option.some.inj ((h.definition id c₀ h₀).symm.trans h')

/-- The dependencies of a selected proof move between consistent states. -/
theorem Consistent.carries (h : Consistent s₀ s) (hw : WellFormed s) (hselected : Selected s P)
    {step : ProofStep} (hstep : step ∈ P.normalForm.certificate.steps) :
    Carries (s₀.view sha256) (s.view sha256) step where
  definition id hid c hc := by
    obtain ⟨c', hc'⟩ := hselected.definition step hstep id hid
    cases h.definition id c c' (Except.ok.inj hc) hc'
    exact congrArg Except.ok hc'
  proof id heq header f hheader hf := by
    subst heq
    obtain ⟨d, hd⟩ := hselected.proof id hstep
    obtain ⟨header', f', hheader', -, -⟩ := hw.exists_header hd
    obtain ⟨rfl, hsame⟩ := h.proof id header header' (Except.ok.inj hheader) hheader'
    exact ⟨congrArg Except.ok hheader', hsame.symm.trans hf⟩

/-- A registered proof resolves to its own conclusion, which its normal form reconstructs. -/
structure Verified (sha256 : List UInt8 → Digest) (s : ArtifactState) (P : CheckedProof) : Prop where
  header : ∃ length, s.resolveProof P.proofId = some ⟨P.derivationId, P.statementId, length⟩ ∧
    s.statementFormula P.statementId length = .ok (some P.conclusion)
  valid : P.normalForm.certificate.Valid
  reconstructs : ∃ entries e, Continues sha256 (s.view sha256) [] P.normalForm.certificate.steps
      entries ∧ entries.getLast? = some e ∧ e.formula = P.conclusion ∧
    e.derivationId = P.derivationId

theorem Verified.mono (h : Extends s s') (hw : WellFormed s) (hv : Verified sha256 s P) :
    Verified sha256 s' P where
  header := by
    obtain ⟨length, hheader, hformula⟩ := hv.header
    exact ⟨length, h.resolveProof hheader, h.statementFormula hformula⟩
  valid := hv.valid
  reconstructs := by
    obtain ⟨entries, e, hentries, hrest⟩ := hv.reconstructs
    exact ⟨entries, e, hentries.carried hw.primitiveDefinitions fun step _ => h.carries step, hrest⟩

/-- What the checker accepted about a normal form. -/
theorem exists_reconstruction {ctx : ContextView} {n : ProofNormalForm} (hn : n.certificate.Valid)
    (h : checkNormalFormWithState sha256 n ctx = .ok P) :
    P.normalForm = n ∧ ∃ entries e, Continues sha256 ctx [] n.certificate.steps entries ∧
      entries.getLast? = some e ∧ e.formula = P.conclusion ∧ e.derivationId = P.derivationId ∧
      P.statementId = statementId sha256 e.formula.normalizedBytes := by
  obtain ⟨outcome, houtcome, hnormal, hconclusion, hid, hstatement, -⟩ := exists_outcome h
  obtain ⟨entries, e, hentries, hlast, -, -, -, rfl⟩ := (checkSteps_eq_ok hn).mp houtcome
  exact ⟨hnormal, entries, e, hentries, hlast, hconclusion.symm, Option.some.inj hid, hstatement⟩

/-- Every registered proof is verified in every later state. -/
theorem Registered.verified {proofs : List CheckedProof} (h : Registered sha256 proofs s) :
    ∀ P ∈ proofs, Verified sha256 s P := by
  induction h with
  | empty => exact fun P hP => absurd hP List.not_mem_nil
  | @proof proofs proofs₀ s s₀ s' P n bytes hs hs₀ hn hcheck hconsistent h ihs _ =>
    have hstores := stores_of_register hs.wellFormed h
    intro Q hQ
    rcases List.mem_cons.mp hQ with rfl | hQ
    · obtain ⟨rfl, entries, e, hentries, hlast, hformula, hid, -⟩ := exists_reconstruction hn hcheck
      refine ⟨hstores.exists_header hs.wellFormed, hn, entries, e, ?_, hlast, hformula, hid⟩
      have hmoved := hentries.carried hs₀.wellFormed.primitiveDefinitions fun step hstep =>
        hconsistent.carries hs.wellFormed hstores.admitted.selected hstep
      exact hmoved.carried hs.wellFormed.primitiveDefinitions fun step _ =>
        hstores.extends.carries step
    · exact (ihs Q hQ).mono hstores.extends hs.wellFormed
  | definition hs _ h ih =>
    exact fun P hP => (ih P hP).mono (extends_of_registerDefinition h) hs.wellFormed

end ArtifactState
end Naome
