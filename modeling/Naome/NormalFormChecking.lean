import Naome.CheckerSoundness
import Naome.NormalFormSpec
import Naome.Reconstruction

/-!
# Checking a normal form

Every step of the normal form is a renamed step of the source, so its reconstruction is the
renamed reconstruction of its origin. Merged and dropped steps only lower the work.
-/
namespace Naome
open LocallyNameless Outcome FirstOccurrence VariableNumbering Checker

/-- The formula work charged by an accepted check. -/
def Checker.CheckOutcome.chargedWork (outcome : CheckOutcome) : ℕ :=
  checkerMaxFormulaWorkBytes - outcome.remainingWork

namespace NormalForm

variable {sha256 : List UInt8 → Digest} {ctx : ContextView} {c : ProofCertificate}
  {s : Normalizer} {e : Emission}

/-- A settled derivation has no new variables. -/
theorem occurrences_subset_of_settled {i : ℕ} {d : Derivation} (hemit : d.emit e = (i, e)) :
    ∀ v ∈ d.occurrences, v ∈ e.seen := by
  intro v hv
  have hseen := d.seen_emit e
  rw [hemit] at hseen
  rw [hseen]
  exact mem_seeAll.mpr (.inr hv)

/-- The entries of an emission are renamed entries of different source steps. -/
theorem Tracks.exists_entries (ht : Tracks c s e) (he : ProofCodec.Earlier 0 e.steps)
    {entries : List Entry} (hentries : Continues sha256 ctx [] c.steps entries) :
    ∃ g entries', Function.Injective g ∧ (∀ v ∈ e.seen, g v = name e.seen v) ∧
      Continues sha256 ctx [] e.steps entries' ∧
      (entries'.map Entry.work).sum ≤ (entries.map Entry.work).sum := by
  obtain ⟨g, hg, hname⟩ := exists_injective_extension
    (s := {v | v ∈ e.seen}) fun v hv w hw h => name_injOn ht.represents.1 hv hw h
  obtain ⟨o, ho, hsettled⟩ := ht.exists_origin
  have hlen : entries.length = c.steps.length := hentries.length_eq
  let source : Fin c.steps.length → Entry := fun p => entries.get (p.cast hlen.symm)
  have hyields : ∀ (i : Fin e.steps.length) d', Unfolds e.steps i d' →
      Yields sha256 ctx d' ((source (o i)).rename g) := by
    intro i d' hd'
    obtain ⟨d, hd, hemit⟩ := hsettled i
    cases hd'.unique (unfolds_of_settled hemit)
    obtain ⟨x, hx, hy⟩ := hentries.yields hd
    have hsource : source (o i) = x := by
      rw [List.getElem?_eq_getElem (by omega)] at hx
      exact Option.some.inj hx
    have hsame : d.mapFreeVariables g = d.mapFreeVariables (name e.seen) :=
      Derivation.mapFreeVariables_congr fun v hv =>
        hname v (occurrences_subset_of_settled hemit v hv)
    rw [hsource, ← hsame]
    exact hy.rename hg
  refine ⟨g, List.ofFn fun i => (source (o i)).rename g, hg, hname, ?_, ?_⟩
  · refine continues_of_yields he List.length_ofFn fun p d hd => ?_
    refine ⟨_, List.getElem?_ofFn .. |>.trans (dif_pos hd.lt_length), ?_⟩
    exact hyields ⟨p, hd.lt_length⟩ d hd
  · rw [List.map_ofFn, List.sum_ofFn]
    calc ∑ i, (source (o i)).work ≤ ∑ p, (source p).work :=
          sum_le_of_injective ho fun p => (source p).work
      _ = ∑ p : Fin entries.length, entries[p].work :=
          Fintype.sum_equiv (finCongr hlen.symm) _ _ fun p => rfl
      _ = (entries.map Entry.work).sum := Fin.sum_univ_fun_getElem entries Entry.work

/-- The root of the normal form is the renamed root of the source. -/
theorem exists_checkSteps (hv : c.Valid) {mode : IdentityMode} {outcome : CheckOutcome}
    (h : checkSteps sha256 c ctx mode = .ok outcome) :
    ∃ n entries x, normalize c = .ok n ∧ n.Valid ∧
      checkSteps sha256 n ctx .derive = .ok (outcomeOf .derive entries x) ∧
      x.formula = outcome.conclusion ∧ x.formula.WithinLimits ∧
      (outcomeOf .derive entries x).chargedWork ≤ outcome.chargedWork := by
  obtain ⟨source, y, hsource, hlast, hw, hclosed, hwork, rfl⟩ := (checkSteps_eq_ok hv).mp h
  obtain ⟨d, n, s, hd, hn, hnv, hns, ht⟩ := normalize_eq_ok hv
  obtain ⟨g, entries, hg, hname, hentries, hsum⟩ := ht.exists_entries (hns ▸ hnv.earlier) hsource
  have hy : Yields sha256 ctx d y := by
    obtain ⟨y', hy', hyields⟩ := hsource.yields hd
    rw [List.getLast?_eq_getElem?, hsource.length_eq, hy'] at hlast
    cases hlast
    exact hyields
  have hsame : d.mapFreeVariables g = d.mapFreeVariables (name (d.emit .empty).2.seen) := by
    refine Derivation.mapFreeVariables_congr fun v hv => hname v ?_
    rw [d.seen_emit]
    exact mem_seeAll.mpr (.inr hv)
  obtain ⟨x, hx, hyields⟩ := hentries.yields d.unfolds_root
  rw [← hsame] at hyields
  cases hyields.unique (hy.rename hg)
  have hformula : (y.rename g).formula = y.formula := Formula.mapFreeVariables_of_closed hclosed
  have hlast' : entries.getLast? = some (y.rename g) := by
    rw [List.getLast?_eq_getElem?, hentries.length_eq]
    exact hx
  have hlength : (y.rename g).canonicalLength = y.canonicalLength := rfl
  rw [← hns] at hentries
  refine ⟨n, entries, y.rename g, hn, hnv, (checkSteps_eq_ok hnv).mpr ?_, hformula, ?_, ?_⟩
  · refine ⟨entries, _, hentries, hlast', by rwa [hformula], by rwa [hformula], ?_, rfl⟩
    rw [hlength]
    omega
  · rwa [hformula]
  · simp only [CheckOutcome.chargedWork, outcomeOf, hlength]
    omega

/-- The assertions behind an accepted normal form hold. -/
theorem exists_checkNormalForm {n : ProofNormalForm} (hv : n.certificate.Valid)
    {entries : List Entry} {x : Entry}
    (h : checkSteps sha256 n.certificate ctx .derive = .ok (outcomeOf .derive entries x))
    (hw : x.formula.WithinLimits) :
    ∃ checked, checkNormalFormWithState sha256 n ctx = .ok checked ∧
      checked.conclusion = x.formula := by
  have hquery : checkWithDiagnosticQuery sha256 n.certificate ctx .derive =
      .ok (x.formula, x.formula.normalizedBytes, some x.derivationId) := by
    rw [checkWithDiagnosticQuery, h]
    rfl
  have hlength : x.formula.normalizedBytes.length < 2 ^ 32 := by
    have hle : x.formula.canonicalBytes.length ≤ formulaMaxBytes :=
      ProofFormula.WithinLimits.length_le (p := .primitive x.formula) hw
    rw [x.formula.length_normalizedBytes]
    exact lt_of_le_of_lt hle (by decide)
  have hbytes : n.canonicalBytes = .ok n.certificate.canonicalBytes :=
    ProofCertificate.toCanonicalBytes_eq_ok.mpr ⟨hv.encodable, rfl⟩
  have hcertificate : n.certificate.canonicalBytes.length < 2 ^ 32 :=
    lt_of_le_of_lt hv.encodable.bytes_le (by decide)
  unfold checkNormalFormWithState
  split
  · rename_i stop heq
    rw [hquery] at heq
    cases heq
  · rename_i conclusion canonical derivationId heq
    have heq' := hquery.symm.trans heq
    simp only [Except.ok.injEq, Prod.mk.injEq] at heq'
    obtain ⟨rfl, rfl, rfl⟩ := heq'
    rw [hbytes]
    simp only [orError, ok_bind, require, if_pos hlength, if_pos hcertificate, Except.mapError]
    exact ⟨_, rfl, rfl⟩

/-- Normalization preserves checking: when a certificate is accepted as written, so is its
normal form, with the same closed conclusion and no more formula work. -/
theorem checking_preserved (sha256 : List UInt8 → Digest) (ctx : ContextView)
    (c : ProofCertificate) (hv : c.Valid) (mode : IdentityMode)
    (conclusion : Formula) (canonical : List UInt8) (id : Option DerivationId)
    (h : checkWithDiagnosticQuery sha256 c ctx mode = .ok (conclusion, canonical, id)) :
    conclusion.isClosed = true ∧
      ∃ outcome n outcome' checked, checkSteps sha256 c ctx mode = .ok outcome ∧
        c.intoUncheckedNormalForm = .ok n ∧
        checkSteps sha256 n.certificate ctx .derive = .ok outcome' ∧
        outcome'.conclusion = conclusion ∧ outcome'.chargedWork ≤ outcome.chargedWork ∧
        normalizeAndCheckWithState sha256 c ctx = .ok checked ∧
        checked.conclusion = conclusion := by
  obtain ⟨outcome, houtcome, h⟩ := bind_eq_ok.mp h
  cases pure_eq_ok.mp h
  refine ⟨checkSteps_closed houtcome, outcome, ?_⟩
  obtain ⟨n, entries, x, hn, hnv, hcheck, hformula, hw, hle⟩ := exists_checkSteps hv houtcome
  have hnormal : c.intoUncheckedNormalForm = .ok ⟨n⟩ := by
    rw [ProofCertificate.intoUncheckedNormalForm, hn]
    rfl
  obtain ⟨checked, hchecked, hconclusion⟩ := exists_checkNormalForm (n := ⟨n⟩) hnv hcheck hw
  refine ⟨⟨n⟩, _, checked, houtcome, hnormal, hcheck, hformula, hle, ?_,
    hconclusion.trans hformula⟩
  rw [normalizeAndCheckWithState, hnormal]
  exact hchecked

/-- A certificate with an unused and a repeated step, whose normal form is shorter. -/
theorem checking_preserved_reflexivity :
    ∃ conclusion canonical checked,
      checkWithDiagnosticQuery (fun _ => 0) ⟨[.equalityReflexivity ⟨3⟩, .equalityReflexivity ⟨9⟩,
        .equalityReflexivity ⟨3⟩, .generalization 2 ⟨3⟩]⟩ (.empty 0) .omitDerivation =
        .ok (conclusion, canonical, none) ∧
      normalizeAndCheckWithState (fun _ => 0) ⟨[.equalityReflexivity ⟨3⟩, .equalityReflexivity ⟨9⟩,
        .equalityReflexivity ⟨3⟩, .generalization 2 ⟨3⟩]⟩ (.empty 0) = .ok checked ∧
      checked.conclusion = conclusion := by
  let c : ProofCertificate := ⟨[.equalityReflexivity ⟨3⟩, .equalityReflexivity ⟨9⟩,
    .equalityReflexivity ⟨3⟩, .generalization 2 ⟨3⟩]⟩
  have hnew : ProofCertificate.new c.steps = .ok c := rfl
  have hcheck : checkWithDiagnosticQuery (fun _ => 0) c (.empty 0) .omitDerivation =
      .ok (_, _, none) := rfl
  obtain ⟨-, outcome, n, outcome', checked, -, -, -, -, -, hchecked, hconclusion⟩ :=
    checking_preserved (fun _ => 0) (.empty 0) c (ProofCertificate.new_eq_ok.mp hnew).1
      .omitDerivation _ _ _ hcheck
  exact ⟨_, _, checked, hcheck, hchecked, hconclusion⟩

end NormalForm
end Naome
