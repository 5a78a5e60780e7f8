import Naome.ArtifactHistory
import Naome.NormalFormChecking

/-!
# Reference transparency of derivation identities

A derivation identity does not tell a citation from the cited derivation: replacing the
citation of a registered proof by the steps of its normal form changes neither the
conclusion nor its identities.
-/
namespace Naome
open LocallyNameless Outcome FirstOccurrence VariableNumbering Checker

namespace ProofStep

/-- The step with its local references moved. -/
def mapReferences (f : ℕ → ℕ) : ProofStep → ProofStep
  | .modusPonens premise implication => .modusPonens (f premise) (f implication)
  | .generalization premise v => .generalization (f premise) v
  | step => step

theorem mapReferences_leaf (f : ℕ → ℕ) {step : ProofStep} (h : step.references = []) :
    step.mapReferences f = step := by
  cases step with
  | modusPonens i j => cases h
  | generalization i v => cases h
  | _ => rfl

end ProofStep

/-- Where the steps of a certificate stand after step `k` was replaced by `length` steps. -/
def spliceShift (k length position : ℕ) : ℕ :=
  if position < k then position else position + length - 1

/-- The steps with step `k` replaced by `inner`, local references shifted. -/
def splice (steps : List ProofStep) (k : ℕ) (inner : List ProofStep) : List ProofStep :=
  steps.take k ++ inner.map (ProofStep.mapReferences (k + ·)) ++
    (steps.drop (k + 1)).map (ProofStep.mapReferences (spliceShift k inner.length))

section

variable {steps inner : List ProofStep} {k p : ℕ}

theorem length_splice (hk : k < steps.length) :
    (splice steps k inner).length = steps.length + inner.length - 1 := by
  simp only [splice, List.length_append, List.length_take, List.length_map, List.length_drop]
  omega

theorem getElem?_splice_inner (hk : k ≤ steps.length) {step : ProofStep}
    (hp : inner[p]? = some step) :
    (splice steps k inner)[k + p]? = some (step.mapReferences (k + ·)) := by
  have hlt : p < inner.length := (List.getElem?_eq_some_iff.mp hp).1
  have htake : (steps.take k).length = k := List.length_take_of_le hk
  rw [splice, List.getElem?_append_left (by simp; omega), List.getElem?_append_right (by omega),
    htake, Nat.add_sub_cancel_left, List.getElem?_map, hp]
  rfl

/-- A step other than `k` is found again at its shifted position. -/
theorem getElem?_splice_outer (hk : k < steps.length) (hne : p ≠ k) (hinner : inner ≠ [])
    {step : ProofStep} (hp : steps[p]? = some step) (he : ∀ r ∈ step.references, r < p) :
    (splice steps k inner)[spliceShift k inner.length p]? =
      some (step.mapReferences (spliceShift k inner.length)) := by
  have hpos : 0 < inner.length := List.length_pos_of_ne_nil hinner
  have htake : (steps.take k).length = k := List.length_take_of_le (Nat.le_of_lt hk)
  unfold spliceShift
  by_cases hlt : p < k
  · rw [if_pos hlt, splice, List.append_assoc, List.getElem?_append_left (by omega),
      List.getElem?_take_of_lt hlt, hp]
    congr 1
    -- references of an earlier step stay below `k`
    cases step with
    | modusPonens i j =>
      have hi := he i List.mem_cons_self
      have hj := he j (List.mem_cons_of_mem _ List.mem_cons_self)
      simp only [ProofStep.mapReferences]
      rw [if_pos (by omega), if_pos (by omega)]
    | generalization i v =>
      have hi := he i List.mem_cons_self
      simp only [ProofStep.mapReferences]
      rw [if_pos (by omega)]
    | _ => rfl
  · have hgt : k < p := by omega
    rw [if_neg hlt, splice, List.getElem?_append_right (by simp; omega), List.getElem?_map,
      List.getElem?_drop]
    have hindex : k + 1 + (p + inner.length - 1 -
        (steps.take k ++ inner.map (ProofStep.mapReferences (k + ·))).length) = p := by
      rw [List.length_append, htake, List.length_map]
      omega
    rw [hindex, hp]
    rfl

end

/-- The second derivation has the derivation `d` at some places where the first cites `id`. -/
inductive Replaced (id : ProofId) (d : Derivation) : Derivation → Derivation → Prop
  | refl (a : Derivation) : Replaced id d a a
  | cited (h : (ProofStep.proofReference id).references = []) :
    Replaced id d (.leaf (.proofReference id) h) d
  | modusPonens {a a' b b' : Derivation} (ha : Replaced id d a a') (hb : Replaced id d b b') :
    Replaced id d (.modusPonens a b) (.modusPonens a' b')
  | generalization {a a' : Derivation} {v : FreeVariable} (ha : Replaced id d a a') :
    Replaced id d (.generalization a v) (.generalization a' v)

theorem unfolds_mapReferences {steps inner : List ProofStep} {k p : ℕ} {d : Derivation}
    (hk : k ≤ steps.length) (h : Unfolds inner p d) : Unfolds (splice steps k inner) (k + p) d := by
  induction h with
  | leaf hp hr =>
    have hget := getElem?_splice_inner hk hp
    rw [ProofStep.mapReferences_leaf _ hr] at hget
    exact .leaf hget hr
  | modusPonens hp _ _ iha ihb => exact .modusPonens (getElem?_splice_inner hk hp) iha ihb
  | generalization hp _ ih => exact .generalization (getElem?_splice_inner hk hp) ih

theorem exists_unfolds_splice {steps inner : List ProofStep} {k p : ℕ} {id : ProofId}
    {d root : Derivation} (he : ProofCodec.Earlier 0 steps)
    (hk : steps[k]? = some (.proofReference id)) (hroot : Unfolds inner (inner.length - 1) root)
    (h : Unfolds steps p d) :
    ∃ d', Unfolds (splice steps k inner) (spliceShift k inner.length p) d' ∧
      Replaced id root d d' := by
  have hklt : k < steps.length := (List.getElem?_eq_some_iff.mp hk).1
  have hinner : inner ≠ [] := by
    have := hroot.lt_length
    exact List.ne_nil_of_length_pos (by omega)
  have hearlier : ∀ {p : ℕ} {step : ProofStep}, steps[p]? = some step →
      ∀ r ∈ step.references, r < p :=
    fun hp => he _ (List.mk_mem_zipIdx_iff_getElem?.mpr hp)
  induction h with
  | @leaf p step hp hr =>
    by_cases hpk : p = k
    · subst hpk
      rw [hk] at hp
      cases hp
      refine ⟨root, ?_, .cited hr⟩
      have hinside := unfolds_mapReferences (Nat.le_of_lt hklt) hroot
      have hpos : 0 < inner.length := List.length_pos_of_ne_nil hinner
      have hposition : spliceShift p inner.length p = p + (inner.length - 1) := by
        rw [spliceShift, if_neg (lt_irrefl p)]
        omega
      rwa [hposition]
    · have hget := getElem?_splice_outer hklt hpk hinner hp (hearlier hp)
      rw [ProofStep.mapReferences_leaf _ hr] at hget
      exact ⟨_, .leaf hget hr, .refl _⟩
  | @modusPonens p i j a b hp _ _ iha ihb =>
    have hpk : p ≠ k := by
      rintro rfl
      rw [hk] at hp
      cases hp
    obtain ⟨a', ha, hra⟩ := iha
    obtain ⟨b', hb, hrb⟩ := ihb
    exact ⟨_, .modusPonens (getElem?_splice_outer hklt hpk hinner hp (hearlier hp)) ha hb,
      .modusPonens hra hrb⟩
  | @generalization p i v a hp _ ih =>
    have hpk : p ≠ k := by
      rintro rfl
      rw [hk] at hp
      cases hp
    obtain ⟨a', ha, hra⟩ := ih
    exact ⟨_, .generalization (getElem?_splice_outer hklt hpk hinner hp (hearlier hp)) ha,
      .generalization hra⟩

namespace Checker

variable {sha256 : List UInt8 → Digest} {ctx : ContextView}

theorem Produces.same {step : ProofStep} {inputs inputs' : List Entry} {e e' : Entry}
    (hformula : inputs.map Entry.formula = inputs'.map Entry.formula)
    (hid : inputs.map Entry.derivationId = inputs'.map Entry.derivationId)
    (h : Produces sha256 ctx step inputs e) (h' : Produces sha256 ctx step inputs' e') :
    e.formula = e'.formula ∧ e.derivationId = e'.derivationId := by
  by_cases hstep : ∃ id, step = .proofReference id
  · obtain ⟨id, rfl⟩ := hstep
    obtain ⟨rfl, -⟩ := produces_cited.mp h
    obtain ⟨rfl, -⟩ := produces_cited.mp h'
    rw [h.unique h']
    exact ⟨rfl, rfl⟩
  · have hstep' : ∀ id, step ≠ .proofReference id := fun id hid => hstep ⟨id, hid⟩
    obtain ⟨f, hf, -, rfl⟩ := (produces_derived hstep').mp h
    obtain ⟨f', hf', -, rfl⟩ := (produces_derived hstep').mp h'
    rw [hformula] at hf
    cases hf.unique hf'
    refine ⟨rfl, ?_⟩
    simp only [derivedEntry, hid]

/-- A citation and the cited derivation yield the same formula and identity, so the
derivations around them do as well. -/
theorem Yields.same_of_replaced {id : ProofId} {root d d' : Derivation} {e e' : Entry}
    (hcited : ∀ x y, Produces sha256 ctx (.proofReference id) [] x → Yields sha256 ctx root y →
      x.formula = y.formula ∧ x.derivationId = y.derivationId)
    (hr : Replaced id root d d') (h : Yields sha256 ctx d e) (h' : Yields sha256 ctx d' e') :
    e.formula = e'.formula ∧ e.derivationId = e'.derivationId := by
  induction hr generalizing e e' with
  | refl a =>
    rw [h.unique h']
    exact ⟨rfl, rfl⟩
  | cited hleaf =>
    cases h with
    | leaf h => exact hcited e e' h h'
  | modusPonens _ _ iha ihb =>
    cases h with
    | modusPonens ha hb h =>
      cases h' with
      | modusPonens ha' hb' h' =>
        obtain ⟨hfa, hia⟩ := iha ha ha'
        obtain ⟨hfb, hib⟩ := ihb hb hb'
        exact h.same (by simp [hfa, hfb]) (by simp [hia, hib]) h'
  | generalization _ ih =>
    cases h with
    | generalization ha h =>
      cases h' with
      | generalization ha' h' =>
        obtain ⟨hfa, hia⟩ := ih ha ha'
        exact h.same (by simp [hfa]) (by simp [hia]) h'

/-- Renaming can be undone. -/
theorem Yields.of_rename {f : FreeVariable → FreeVariable} {d : Derivation} {e : Entry}
    (hf : Set.InjOn f {v | v ∈ d.occurrences})
    (h : Yields sha256 ctx (d.mapFreeVariables f) e) :
    ∃ g, Yields sha256 ctx d (e.rename g) := by
  obtain ⟨g, hg, hsame⟩ := exists_injective_extension hf
  have hsurjective : Function.Surjective g := (Finite.injective_iff_bijective.mp hg).2
  have hinverse : Function.Injective (Function.invFun g) :=
    (Function.rightInverse_invFun hsurjective).injective
  have hback : (d.mapFreeVariables f).mapFreeVariables (Function.invFun g) = d := by
    rw [← Derivation.mapFreeVariables_congr hsame, Derivation.mapFreeVariables_comp,
      Function.invFun_comp hg, Derivation.mapFreeVariables_id]
  refine ⟨Function.invFun g, ?_⟩
  have hyields := h.rename hinverse
  rwa [hback] at hyields

/-- An accepted certificate and the entry of its root derivation. -/
theorem exists_yields_of_check {c : ProofCertificate} (hv : c.Valid) {checked : CheckedProof}
    (h : normalizeAndCheckWithState sha256 c ctx = .ok checked) :
    ∃ d e, Unfolds c.steps (c.steps.length - 1) d ∧ Yields sha256 ctx d e ∧
      e.formula = checked.conclusion ∧ e.derivationId = checked.derivationId ∧
      checked.statementId = statementId sha256 e.formula.normalizedBytes := by
  obtain ⟨d, n, -, hd, hn, hnv, hns, -⟩ := NormalForm.normalize_eq_ok hv
  obtain ⟨normalForm, hnormal, h⟩ := bind_eq_ok.mp h
  have hsame : c.intoUncheckedNormalForm = .ok ⟨n⟩ := by
    rw [ProofCertificate.intoUncheckedNormalForm, hn]
    rfl
  have hform := mapError_eq_ok.mp hnormal
  rw [hsame] at hform
  cases hform
  obtain ⟨-, entries, e, hentries, hlast, hformula, hid, hstatement⟩ :=
    ArtifactState.exists_reconstruction hnv h
  have hroot : Unfolds n.steps (n.steps.length - 1)
      (d.mapFreeVariables (name (d.emit .empty).2.seen)) := by
    rw [hns]
    exact d.unfolds_root
  obtain ⟨e', he', hyields⟩ := hentries.yields hroot
  rw [List.getLast?_eq_getElem?, hentries.length_eq, he'] at hlast
  cases hlast
  obtain ⟨g, hg⟩ := hyields.of_rename d.name_injOn_emit
  have hclosed : e.formula.isClosed = true := hformula ▸ checked.closed
  have hrename : (e.rename g).formula = e.formula := Formula.mapFreeVariables_of_closed hclosed
  exact ⟨d, e.rename g, hd, hg, hrename.trans hformula, hid, hstatement.trans (by rw [hrename])⟩

end Checker

namespace ArtifactState

variable {sha256 : List UInt8 → Digest} {s : ArtifactState} {P : CheckedProof}

/-- The citation of a verified proof and its renamed derivation yield the same. -/
theorem Verified.same (hv : Verified sha256 s P) {g : FreeVariable → FreeVariable}
    {root : Derivation}
    (hroot : Unfolds P.normalForm.certificate.steps (P.normalForm.certificate.steps.length - 1) root)
    (hg : Function.Injective g) {x y : Entry}
    (hx : Produces sha256 (s.view sha256) (.proofReference P.proofId) [] x)
    (hy : Yields sha256 (s.view sha256) (root.mapFreeVariables g) y) :
    x.formula = y.formula ∧ x.derivationId = y.derivationId := by
  obtain ⟨length, hheader, hformula⟩ := hv.header
  obtain ⟨-, header, f, hheader', hformula', rfl⟩ := produces_cited.mp hx
  obtain rfl : header = ⟨P.derivationId, P.statementId, length⟩ :=
    Option.some.inj ((Except.ok.inj hheader').symm.trans hheader)
  obtain rfl : f = P.conclusion :=
    Option.some.inj (Except.ok.inj (hformula'.symm.trans hformula))
  obtain ⟨entries, e, hentries, hlast, hconclusion, hid⟩ := hv.reconstructs
  obtain ⟨e', he', hyields⟩ := hentries.yields hroot
  rw [List.getLast?_eq_getElem?, hentries.length_eq, he'] at hlast
  cases hlast
  rw [hy.unique (hyields.rename hg)]
  refine ⟨?_, hid.symm⟩
  show P.conclusion = e.formula.mapFreeVariables g
  rw [hconclusion, Formula.mapFreeVariables_of_closed P.closed]

theorem unfolds_mapFreeVariables {steps : List ProofStep} {p : ℕ} {d : Derivation}
    (g : FreeVariable → FreeVariable) (h : Unfolds steps p d) :
    Unfolds (steps.map (ProofStep.mapFreeVariables g)) p (d.mapFreeVariables g) := by
  have hget : ∀ {p : ℕ} {step : ProofStep}, steps[p]? = some step →
      (steps.map (ProofStep.mapFreeVariables g))[p]? = some (step.mapFreeVariables g) := by
    intro p step hp
    rw [List.getElem?_map, hp]
    rfl
  induction h with
  | leaf hp hr => exact .leaf (hget hp) _
  | modusPonens hp _ _ iha ihb => exact .modusPonens (hget hp) iha ihb
  | generalization hp _ ih => exact .generalization (hget hp) ih

/-- Replacing the citation of a registered proof by the renamed steps of its normal form
keeps the conclusion and both identities. -/
theorem derivationId_transparent (sha256 : List UInt8 → Digest) (proofs : List CheckedProof)
    (s : ArtifactState) (hs : Registered sha256 proofs s) (P : CheckedProof) (hP : P ∈ proofs)
    (c c' : ProofCertificate) (hv : c.Valid) (hv' : c'.Valid) (k : ℕ)
    (hk : c.steps[k]? = some (.proofReference P.proofId)) (g : FreeVariable → FreeVariable)
    (hg : Set.InjOn g {v | v ∈ P.normalForm.certificate.steps.flatMap ProofStep.occurrences})
    (hsplice : c'.steps = splice c.steps k
      (P.normalForm.certificate.steps.map (ProofStep.mapFreeVariables g)))
    (checked checked' : CheckedProof)
    (h : normalizeAndCheckWithState sha256 c (s.view sha256) = .ok checked)
    (h' : normalizeAndCheckWithState sha256 c' (s.view sha256) = .ok checked') :
    checked'.conclusion = checked.conclusion ∧ checked'.statementId = checked.statementId ∧
      checked'.derivationId = checked.derivationId := by
  have hverified := hs.verified P hP
  have hPv := hverified.valid
  obtain ⟨f, hf, hsame⟩ := exists_injective_extension hg
  have hinner : P.normalForm.certificate.steps.map (ProofStep.mapFreeVariables g) =
      P.normalForm.certificate.steps.map (ProofStep.mapFreeVariables f) := by
    refine List.map_congr_left fun step hstep => ProofStep.mapFreeVariables_congr fun v hv => ?_
    exact (hsame v (List.mem_flatMap.mpr ⟨step, hstep, hv⟩)).symm
  have hlast : P.normalForm.certificate.steps.length - 1 < P.normalForm.certificate.steps.length :=
    Nat.sub_one_lt (List.length_pos_of_ne_nil hPv.nonempty).ne'
  obtain ⟨root, hroot⟩ := Unfolds.exists_of_earlier hPv.earlier hlast
  obtain ⟨d, e, hd, hyields, hconclusion, hid, hstatement⟩ := exists_yields_of_check hv h
  obtain ⟨d', e', hd', hyields', hconclusion', hid', hstatement'⟩ := exists_yields_of_check hv' h'
  have hroot' := unfolds_mapFreeVariables f hroot
  rw [← hinner] at hroot'
  have hlen : (P.normalForm.certificate.steps.map (ProofStep.mapFreeVariables g)).length =
      P.normalForm.certificate.steps.length := List.length_map _
  rw [← hlen] at hroot'
  obtain ⟨d₂, hd₂, hreplaced⟩ := exists_unfolds_splice hv.earlier hk hroot' hd
  have hklt : k < c.steps.length := (List.getElem?_eq_some_iff.mp hk).1
  have hposition : spliceShift k (P.normalForm.certificate.steps.map
      (ProofStep.mapFreeVariables g)).length (c.steps.length - 1) = c'.steps.length - 1 := by
    rw [hsplice, length_splice hklt, spliceShift, if_neg (by omega), hlen]
    omega
  rw [hposition, ← hsplice] at hd₂
  cases hd'.unique hd₂
  obtain ⟨hformula, hsameId⟩ := Yields.same_of_replaced
    (fun x y hx hy => hverified.same hroot hf hx hy) hreplaced hyields hyields'
  refine ⟨?_, ?_, ?_⟩
  · rw [← hconclusion', ← hconclusion, hformula]
  · rw [hstatement', hstatement, hformula]
  · rw [← hid', ← hid, hsameId]

theorem derivationId_transparent_reflexivity :
    ∃ (s : ArtifactState) (checked checked' : CheckedProof),
      normalizeAndCheckWithState (fun _ => 0) ⟨[.proofReference 0]⟩ (s.view fun _ => 0) =
        .ok checked ∧
      normalizeAndCheckWithState (fun _ => 0) ⟨[.equalityReflexivity ⟨5⟩, .generalization 0 ⟨5⟩]⟩
        (s.view fun _ => 0) = .ok checked' ∧
      checked'.conclusion = checked.conclusion ∧ checked'.statementId = checked.statementId ∧
      checked'.derivationId = checked.derivationId := by
  let n : ProofNormalForm := ⟨⟨[.equalityReflexivity ⟨0⟩, .generalization 0 ⟨0⟩]⟩⟩
  let P : CheckedProof := ⟨n, Formula.forAll ⟨0⟩ (Formula.equal ⟨0⟩ ⟨0⟩), 0, 0, 0, 12, 0, rfl⟩
  let c : ProofCertificate := ⟨[.proofReference 0]⟩
  let c' : ProofCertificate := ⟨[.equalityReflexivity ⟨5⟩, .generalization 0 ⟨5⟩]⟩
  have hnew : ProofCertificate.new n.certificate.steps = .ok n.certificate := rfl
  have hnew₁ : ProofCertificate.new c.steps = .ok c := by decide +kernel
  have hnew₂ : ProofCertificate.new c'.steps = .ok c' := rfl
  have hcheck : checkNormalFormWithState (fun _ => 0) n (empty.view fun _ => 0) = .ok P := rfl
  have hexists : ∀ {x : CheckM CheckedProof}, x.isOk = true → ∃ checked, x = .ok checked := by
    intro x hx
    cases x with
    | error e => cases hx
    | ok checked => exact ⟨checked, rfl⟩
  obtain ⟨s, bytes, hregister, hok, hok'⟩ : ∃ s bytes,
      empty.registerProof (fun _ => 0) P = .ok (s, bytes) ∧
      (normalizeAndCheckWithState (fun _ => 0) c (s.view fun _ => 0)).isOk = true ∧
      (normalizeAndCheckWithState (fun _ => 0) c' (s.view fun _ => 0)).isOk = true :=
    ⟨_, _, rfl, by decide +kernel, by decide +kernel⟩
  obtain ⟨checked, hchecked⟩ := hexists hok
  obtain ⟨checked', hchecked'⟩ := hexists hok'
  have hs := Registered.proof .empty .empty (ProofCertificate.new_eq_ok.mp hnew).1 hcheck
    ((Extends.refl _).consistent wellFormed_empty) (.inl hregister)
  refine ⟨s, checked, checked', hchecked, hchecked', ?_⟩
  refine derivationId_transparent (fun _ => 0) _ s hs P List.mem_cons_self c c'
    (ProofCertificate.new_eq_ok.mp hnew₁).1 (ProofCertificate.new_eq_ok.mp hnew₂).1 0 rfl
    (fun v => ⟨v.identifier + 5⟩) ?_ rfl checked checked' hchecked hchecked'
  intro v _ w _ h
  have hid : v.identifier + 5 = w.identifier + 5 := congrArg FreeVariable.identifier h
  exact FreeVariable.identifier_injective (add_right_cancel hid)

end ArtifactState
end Naome
