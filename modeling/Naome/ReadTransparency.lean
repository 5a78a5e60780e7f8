import Naome.ReadContext
import Naome.ContextReplicas

/-!
# Transparent reads

A source behind a read cache serves the same view as the source itself, so caches may be stacked.
The views of the contexts in memory and on disk are coherent.
-/
namespace Naome
open LocallyNameless Outcome ReadContext

section

variable {σ : Type} {view : FixedView} {I : σ → Prop} {limits : ReadCacheLimits}
  {source : ContextSource σ}

/-- The states of a cached source that agree with the view. -/
def CachedState (view : FixedView) (I : σ → Prop) (s : σ × ReadCache) : Prop :=
  I s.1 ∧ Resident view s.2

/-- The outcome of a read of the formula of the statement `id`. -/
structure ReadsFormula (view : FixedView) (id : StatementId)
    (expected : Except ContextError (Option Formula))
    (r : Except ContextError (Cow (Option Formula))) : Prop where
  value : r.map Cow.value = expected
  copied : ∀ v, r = .ok (.owned v) → ∀ f ∈ v, ∃ length, CopiedFormula view id length f

theorem spec_bind_state {τ ε β : Type} {P : τ → Prop} {f : τ → Effect τ ε β}
    {Q : Except ε β → τ → Prop} (h : ∀ s, P s → Effect.Spec P (f s) Q) :
    Effect.Spec P (Effect.state >>= f) Q := fun s hs => h s hs s hs

theorem spec_pure {τ ε α : Type} {P : τ → Prop} {a : α} {Q : Except ε α → τ → Prop}
    (h : ∀ s, P s → Q (.ok a) s) : Effect.Spec P (pure a : Effect τ ε α) Q := h

/-- A kept record is returned as a borrow or as the copy itself. -/
theorem spec_keep {α : Type} (parsed : Parsed) (length : ℕ) (value : α)
    (hparsed : parsed.Agrees view) (hcharge : length * 64 + 512 < 2 ^ 64) :
    Effect.Spec (CachedState view I) (keep limits parsed length value) fun r s =>
      (r = .ok (.borrowed value) ∨ r = .ok (.owned value)) ∧ CachedState view I s := by
  intro s hs
  have hsome : ReadCache.charge length = some (length * 64 + 512) := if_pos hcharge
  simp only [keep, hsome, Effect.run_bind, Effect.orThrow, Effect.run_state, Effect.pure]
  cases hslot : s.2.availableSlot limits (length * 64 + 512) with
  | none => exact ⟨.inr rfl, hs⟩
  | some slot => exact ⟨.inl rfl, hs.1, hs.2.fill hparsed slot _⟩

theorem remember_copied (id : StatementId) (length : ℕ) (f : Formula) :
    (remember limits id length (.owned (some f)) : ReadM σ (Cow (Option Formula))) =
      keep limits (.formula id length f) length (some f) := rfl

/-- A copied formula stays what it is when it is remembered. -/
theorem spec_remember {id : StatementId} {length : ℕ} {cow : Cow (Option Formula)}
    (hcopied : ∀ f, cow = .owned (some f) → CopiedFormula view id length f) :
    Effect.Spec (CachedState view I) (remember limits id length cow) fun r s =>
      ReadsFormula view id (.ok cow.value) r ∧ CachedState view I s := by
  cases cow with
  | borrowed v => exact spec_pure fun s hs => ⟨⟨rfl, fun _ h => by cases h⟩, hs⟩
  | owned v =>
    cases v with
    | none =>
      refine spec_pure fun s hs => ⟨⟨rfl, ?_⟩, hs⟩
      intro v hv f hf
      cases hv
      cases hf
    | some f =>
      have hf := hcopied f rfl
      intro s hs
      have hkeep : Effect.Spec (CachedState view I)
          (keep limits (.formula id length f) length (some f)) fun r s =>
            (r = .ok (.borrowed (some f)) ∨ r = .ok (.owned (some f))) ∧ CachedState view I s :=
        spec_keep (.formula id length f) length (some f) hf hf.charged
      rw [remember_copied]
      refine ⟨?_, (hkeep s hs).2⟩
      rcases (hkeep s hs).1 with hr | hr
      · rw [hr]
        exact ⟨rfl, fun _ h => by cases h⟩
      · rw [hr]
        refine ⟨rfl, ?_⟩
        intro v hv g hg
        cases hv
        cases hg
        exact ⟨length, hf⟩

variable (hserves : Serves view I source) (hcoherent : Coherent view)

include hserves

theorem spec_ask {q : ContextQuery} (hq : q.Authentic view) :
    Effect.Spec (CachedState view I) (ask source q) fun r s =>
      ReadAnswer view q r ∧ CachedState view I s := by
  intro s hs
  obtain ⟨hanswer, hnext⟩ := hserves q hq s.1 hs.1
  exact ⟨hanswer, hnext, hs.2⟩

/-- A query whose continuation only uses the answer of the view. -/
theorem spec_ask_bind {q : ContextQuery} {β : Type} {f : Cow q.Value → ReadM σ β}
    {Q : Except ContextError β → σ × ReadCache → Prop} (hq : q.Authentic view)
    (herror : ∀ e s, view q = .error e → CachedState view I s → Q (.error e) s)
    (hnext : ∀ cow, view q = .ok cow.value → (∀ v, cow = .owned v → q.Copied view v) →
      Effect.Spec (CachedState view I) (f cow) Q) :
    Effect.Spec (CachedState view I) (ask source q >>= f) Q := by
  intro s hs
  obtain ⟨hanswer, ht⟩ := spec_ask hserves hq s hs
  rw [Effect.run_bind]
  rcases hr : (ask source q).run s with ⟨r, t⟩
  rw [hr] at hanswer ht
  cases r with
  | error e => exact herror e t hanswer.value.symm ht
  | ok cow =>
    refine hnext cow hanswer.value.symm ?_ t ht
    intro v hv
    exact hanswer.copied v (congrArg Except.ok hv)

theorem spec_proofHeader (id : ProofId) :
    Effect.Spec (CachedState view I) (ReadContext.proofHeader limits source id) fun r s =>
      ReadAnswer view (.proofHeader id) r ∧ CachedState view I s := by
  apply spec_bind_state
  intro s₀ hs₀
  cases hknown : s₀.2.proofs[id]? with
  | some header =>
    have hheader := hs₀.2.proofs hknown
    exact spec_pure fun s hs => ⟨⟨hheader.symm, fun _ h => by cases h⟩, hs⟩
  | none =>
    refine spec_ask_bind hserves (q := .proofHeader id) trivial ?_ ?_
    · intro e t he ht
      exact ⟨⟨he.symm, fun _ h => by cases h⟩, ht⟩
    · intro cow hcow _ t ht
      exact ⟨⟨hcow.symm, fun _ _ => trivial⟩, ht.1, ht.2.insertProof hcow⟩

theorem spec_statementHeader (id : StatementId) :
    Effect.Spec (CachedState view I) (ReadContext.statementHeader limits source id) fun r s =>
      ReadAnswer view (.statementHeader id) r ∧ CachedState view I s := by
  apply spec_bind_state
  intro s₀ hs₀
  cases hknown : s₀.2.statements[id]? with
  | some header =>
    have hheader := hs₀.2.statements hknown
    exact spec_pure fun s hs => ⟨⟨hheader.symm, fun _ h => by cases h⟩, hs⟩
  | none =>
    refine spec_ask_bind hserves (q := .statementHeader id) trivial ?_ ?_
    · intro e t he ht
      exact ⟨⟨he.symm, fun _ h => by cases h⟩, ht⟩
    · intro cow hcow _ t ht
      exact ⟨⟨hcow.symm, fun _ _ => trivial⟩, ht.1, ht.2.insertStatement hcow⟩

theorem spec_definitionCertificate (id : DefinitionId) :
    Effect.Spec (CachedState view I) (ReadContext.definitionCertificate limits source id)
      fun r s => ReadAnswer view (.definitionCertificate id) r ∧ CachedState view I s := by
  apply spec_bind_state
  intro s₀ hs₀
  cases hknown : s₀.2.cachedDefinition id with
  | some c =>
    have hc := hs₀.2.cachedDefinition hknown
    exact spec_pure fun s hs => ⟨⟨hc.symm, fun _ h => by cases h⟩, hs⟩
  | none =>
    refine spec_ask_bind hserves (q := .definitionCertificate id) trivial ?_ ?_
    · intro e t he ht
      exact ⟨⟨he.symm, fun _ h => by cases h⟩, ht⟩
    · intro cow hcow hcopied
      cases cow with
      | borrowed v => exact spec_pure fun s hs => ⟨⟨hcow.symm, fun _ h => by cases h⟩, hs⟩
      | owned v =>
        have hv := hcopied v rfl
        cases v with
        | none => exact spec_pure fun s hs => ⟨⟨hcow.symm, fun v h => by cases h; exact hv⟩, hs⟩
        | some c =>
          have hkeep : Effect.Spec (CachedState view I) (keep limits (.definition id c)
              c.toCanonicalBytes.length (some c)) fun r s =>
                (r = .ok (.borrowed (some c)) ∨ r = .ok (.owned (some c))) ∧ CachedState view I s :=
            spec_keep (.definition id c) c.toCanonicalBytes.length (some c) hcow (hv c rfl)
          intro s hs
          dsimp only
          refine ⟨?_, (hkeep s hs).2⟩
          rcases (hkeep s hs).1 with hr | hr
          · rw [hr]
            exact ⟨hcow.symm, fun _ h => by cases h⟩
          · rw [hr]
            refine ⟨hcow.symm, ?_⟩
            intro v h
            cases h
            exact hv

include hcoherent

/-- Without a resident copy the header that is resident chooses the query, not the answer. -/
theorem spec_statementFormula (id : StatementId) (maximum : ℕ) :
    Effect.Spec (CachedState view I) (ReadContext.statementFormula limits source id maximum)
      fun r s => ReadsFormula view id (view (.statementFormula id maximum)) r ∧
        CachedState view I s := by
  apply spec_bind_state
  intro s₀ hs₀
  cases hknown : s₀.2.cached id with
  | some p =>
    obtain ⟨length, f⟩ := p
    have hf := hs₀.2.cached hknown
    intro s hs
    rw [hf.reads maximum]
    dsimp only
    rw [Effect.run_bind, Effect.run_require]
    by_cases hmax : length ≤ maximum
    · rw [if_pos hmax, if_pos hmax]
      exact ⟨⟨rfl, fun _ h => by cases h⟩, hs⟩
    · rw [if_neg hmax, if_neg hmax]
      exact ⟨⟨rfl, fun _ h => by cases h⟩, hs⟩
  | none =>
    cases hheader : s₀.2.statements[id]?.join with
    | some header =>
      have hview : view (.statementHeader id) = .ok (some header) :=
        hs₀.2.statements (Option.join_eq_some_iff.mp hheader)
      have hsame := hcoherent.fromHeader maximum hview
      refine spec_ask_bind hserves (q := .statementFormulaFromHeader id header maximum) hview ?_ ?_
      · intro e t he ht
        rw [← hsame, he]
        exact ⟨⟨rfl, fun _ h => by cases h⟩, ht⟩
      · intro cow hcow hcopied
        rw [← hsame, hcow]
        apply spec_remember
        intro f hf
        obtain ⟨length, hlength⟩ := hcopied _ hf f rfl
        rwa [hlength.header header hview]
    | none =>
      refine spec_ask_bind hserves (q := .statementFormula id maximum) trivial ?_ ?_
      · intro e t he ht
        rw [he]
        exact ⟨⟨rfl, fun _ h => by cases h⟩, ht⟩
      · intro cow hcow hcopied
        rw [hcow]
        cases hvalue : cow.value with
        | none =>
          dsimp only
          refine spec_pure fun s hs => ⟨⟨rfl, ?_⟩, hs⟩
          intro v hv f hf
          cases hv
          cases hf
        | some f =>
          obtain ⟨bytes, hbytes⟩ := hcoherent.encodes (hcow.trans (congrArg Except.ok hvalue))
          intro s hs
          dsimp only
          rw [Effect.run_bind, hbytes]
          rw [← hvalue]
          apply spec_remember _ s hs
          intro g hg
          have hfg : g = f := by
            rw [hg] at hvalue
            exact Option.some.inj hvalue
          obtain ⟨length, hlength⟩ := hcopied _ hg g rfl
          obtain ⟨bytes', hbytes', hlen⟩ := hlength.encodes
          rw [hfg, hbytes] at hbytes'
          cases hbytes'
          rwa [hlen]

theorem spec_proofFormula {header : LocatedProof} (maximum : ℕ)
    (hheader : ∃ id, view (.proofHeader id) = .ok (some header)) :
    Effect.Spec (CachedState view I) (ReadContext.proofFormula limits source header maximum)
      fun r s => ReadsFormula view header.1.statement (view (.proofFormula header maximum)) r ∧
        CachedState view I s := by
  obtain ⟨proof, hproof⟩ := hheader
  have hsame := hcoherent.ofProof maximum hproof
  apply spec_bind_state
  intro s₀ hs₀
  cases hknown : s₀.2.cached header.1.statement with
  | some p =>
    rw [hsame]
    exact spec_statementFormula hserves hcoherent header.1.statement maximum
  | none =>
    refine spec_ask_bind hserves (q := .proofFormula header maximum) ⟨proof, hproof⟩ ?_ ?_
    · intro e t he ht
      rw [he]
      exact ⟨⟨rfl, fun _ h => by cases h⟩, ht⟩
    · intro cow hcow hcopied
      rw [hcow]
      apply spec_remember
      intro f hf
      obtain ⟨length, hlength⟩ := hcopied _ hf f rfl
      rwa [hlength.proof proof header hproof rfl]

/-- A cache over a source that serves a view serves the same view. -/
theorem serves_readContext :
    Serves view (CachedState view I) (readContext limits source) := by
  intro q hq
  cases q with
  | snapshotId => exact spec_ask hserves hq
  | containsArtifact id => exact spec_ask hserves hq
  | proofHeader id => exact spec_proofHeader hserves id
  | programSource id => exact spec_ask hserves hq
  | statementHeader id => exact spec_statementHeader hserves id
  | statementFormula id maximum =>
    intro s hs
    obtain ⟨hr, ht⟩ := spec_statementFormula hserves hcoherent id maximum s hs
    exact ⟨⟨hr.value, hr.copied⟩, ht⟩
  | proofFormula header maximum =>
    intro s hs
    obtain ⟨hr, ht⟩ := spec_proofFormula hserves hcoherent maximum hq s hs
    exact ⟨⟨hr.value, hr.copied⟩, ht⟩
  | statementFormulaFromHeader id header maximum =>
    intro s hs
    obtain ⟨hr, ht⟩ := spec_statementFormula hserves hcoherent id maximum s hs
    exact ⟨⟨hr.value.trans (hcoherent.fromHeader maximum hq).symm, hr.copied⟩, ht⟩
  | bucket kind target => exact spec_ask hserves hq
  | definitionCertificate id => exact spec_definitionCertificate hserves id

end
end Naome
