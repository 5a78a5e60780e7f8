import Naome.DerivedFormulas

/-!
# Refused checks

A check of steps that conclude formulas is refused only because a limit is exhausted: the work, or
the size of one of these formulas.
-/
namespace Naome.Checker
open LocallyNameless Outcome

variable {sha256 : List UInt8 → Digest} {ctx : ContextView} {tooLarge : Prop}

/-- An exhausted limit of the checker; `tooLarge` is what a formula above the limits shows. -/
inductive Refused (tooLarge : Prop) : Stop CheckErrorKind → Prop
  | formulaWork {step actual maximum : ℕ} :
    Refused tooLarge (.error (.formulaWorkLimitExceeded step actual maximum))
  | derivedFormula {step : ℕ} {source : FormulaCodecError} (h : tooLarge) :
    Refused tooLarge (.error (.derivedFormula step source))

/-- Whenever the computation fails, a limit is exhausted. -/
def Limited {α : Type} (tooLarge : Prop) (x : CheckM α) : Prop :=
  ∀ stop, x = .error stop → Refused tooLarge stop

section

variable {α β : Type}

theorem limited_ok (a : α) : Limited tooLarge (.ok a : CheckM α) := by
  intro stop h
  cases h

theorem Limited.bind {x : CheckM α} {f : α → CheckM β} (hx : Limited tooLarge x)
    (hf : ∀ a, x = .ok a → Limited tooLarge (f a)) : Limited tooLarge (x >>= f) := by
  intro stop h
  rcases bind_eq_error.mp h with h | ⟨a, ha, h⟩
  · exact hx stop h
  · exact hf a ha stop h

theorem limited_of_eq_ok {x : CheckM α} {a : α} (h : x = .ok a) : Limited tooLarge x := by
  subst h
  exact limited_ok a

theorem limited_require {e : Stop CheckErrorKind} {p : Prop} [Decidable p] (hp : p) :
    Limited tooLarge (require p e) := limited_of_eq_ok (a := ()) (require_eq_ok.mpr hp)

theorem limited_charge (position amount remaining : ℕ) :
    Limited tooLarge (chargeFormulaWork position amount remaining) := by
  intro stop h
  unfold chargeFormulaWork at h
  split_ifs at h with hlt
  cases h
  exact .formulaWork

/-- The bytes of a result are refused only when its formula is too large. -/
theorem limited_encodeResult {mode : IdentityMode} {position finalStep : ℕ} {derived : DerivedStep}
    (h : ¬ derived.formula.WithinLimits → tooLarge) :
    Limited tooLarge (encodeResult mode position finalStep derived) := by
  intro stop hstop
  unfold encodeResult at hstop
  split_ifs at hstop
  cases hresult : canonicalResult mode derived.formula with
  | ok bytes =>
    rw [hresult] at hstop
    cases hstop
  | error source =>
    rw [hresult] at hstop
    cases hstop
    refine .derivedFormula (h fun hw => ?_)
    rw [canonicalResult_eq_ok.mpr ⟨hw, rfl⟩] at hresult
    cases hresult

end

/-- The rule of a step that concludes a formula. -/
theorem limited_deriveStep {mode : IdentityMode} {entries inputs : List Entry} {s : CheckState}
    {step : ProofStep} {position : ℕ} {uses : List (Option ℕ)} {f : Formula}
    (h : Available mode entries s step) (hinputs : Inputs entries step inputs)
    (hf : Infers ctx step (inputs.map Entry.formula) f) :
    Limited tooLarge (deriveStep ctx position step s.results uses s.remainingWork) := by
  have hresult := h.result_eq
  have hleaf (hr : step.references = []) (hcited : ∀ id, step ≠ .proofReference id) :
      Limited tooLarge (do
        let formula ← deriveAxiom ctx position step
        return ((⟨formula, none, none⟩ : DerivedStep), s.results, s.remainingWork)) := by
    cases (inputs_of_references_nil hr).mp hinputs
    cases hf with
    | cited => exact absurd rfl (hcited _)
    | derived hf =>
      rw [deriveAxiom_position (concludes_leaf.mp hf)]
      exact limited_ok _
  cases step with
  | proofReference id =>
    cases (inputs_of_references_nil rfl).mp hinputs
    cases hf with
    | derived hf => cases concludes_leaf.mp hf
    | cited hheader hformula =>
      rw [deriveStep, hheader]
      apply Limited.bind (limited_ok _)
      intro _ hok
      cases hok
      apply Limited.bind (limited_ok _)
      intro _ hok
      cases hok
      apply Limited.bind (limited_charge _ _ _)
      intro _ _
      rw [hformula]
      exact limited_ok _
  | modusPonens i j =>
    obtain ⟨a, b, ha, hb, rfl⟩ := inputs_modusPonens.mp hinputs
    rw [deriveStep, hresult i a List.mem_cons_self ha, ok_bind,
      hresult j b (List.mem_cons_of_mem _ List.mem_cons_self) hb, ok_bind]
    apply Limited.bind (limited_charge _ _ _)
    intro _ _
    cases hf with
    | derived hf =>
      obtain ⟨x, hx⟩ := concludes_modusPonens.1 hf
      simp only [List.map_cons, List.map_nil, List.cons.injEq, and_true] at hx
      have hmp : Logic.modusPonens a.formula b.formula = .ok f := by
        rw [Logic.modusPonens_eq_ok, hx.2, hx.1]
      rw [hmp]
      exact limited_ok _
  | generalization i v =>
    obtain ⟨a, ha, rfl⟩ := inputs_generalization.mp hinputs
    rw [deriveStep, hresult i a List.mem_cons_self ha, ok_bind]
    apply Limited.bind (limited_charge _ _ _)
    intro _ _
    exact limited_ok _
  | _ => exact hleaf rfl (by simp)

/-- The derivation identity of an available step is recorded. -/
theorem limited_recordDerivation {mode : IdentityMode} {entries inputs : List Entry}
    {s : CheckState} {step : ProofStep} {derived : DerivedStep} {canonical : Option (List UInt8)}
    (h : Available mode entries s step) (hinputs : Inputs entries step inputs)
    (hcanonical : derived.referencedDerivationId = none → canonical ≠ none) :
    Limited tooLarge (recordDerivation sha256 mode step derived canonical s.derivationIds) := by
  unfold recordDerivation
  split
  · exact limited_ok _
  · exact limited_ok _
  · next hnone =>
    obtain ⟨bytes, hbytes⟩ := Option.ne_none_iff_exists'.mp (hcanonical hnone)
    rw [hbytes, h.derivationIds rfl]
    apply Limited.bind (limited_ok _)
    intro _ _
    rw [derivationInputs_eq_ok hinputs]
    exact limited_ok _

theorem deriveStep_formula {mode : IdentityMode} {entries inputs : List Entry} {s : CheckState}
    {step : ProofStep} {position remaining : ℕ} {uses : List (Option ℕ)} {f : Formula}
    {derived : DerivedStep} {results : List (Option CheckedStep)}
    (h : Available mode entries s step) (hinputs : Inputs entries step inputs)
    (hf : Infers ctx step (inputs.map Entry.formula) f)
    (hderive : deriveStep ctx position step s.results uses s.remainingWork =
      .ok (derived, results, remaining)) :
    derived.formula = f ∧
      (derived.prechargedLength = none ↔ derived.referencedDerivationId = none) := by
  by_cases hstep : ∃ id, step = .proofReference id
  · obtain ⟨id, rfl⟩ := hstep
    cases (inputs_of_references_nil rfl).mp hinputs
    simp only [deriveStep, bind_eq_ok, mapError_eq_ok, orError_eq_ok, pure_eq_ok] at hderive
    obtain ⟨_, hheader, header, rfl, _, -, _, hformula, _, rfl, hderive⟩ := hderive
    cases hderive
    exact ⟨(Infers.cited hheader hformula).unique hf, by simp⟩
  · have hstep' : ∀ id, step ≠ .proofReference id := fun id hid => hstep ⟨id, hid⟩
    obtain ⟨f', hf', -, heq⟩ := (deriveStep_eq_ok hstep' h hinputs).mp hderive
    cases heq
    exact ⟨(Infers.derived hf').unique hf, by simp⟩

/-- One turn of the loop. -/
theorem limited_checkStep {mode : IdentityMode} {entries inputs : List Entry}
    {steps : List ProofStep} {s : CheckState} {step : ProofStep} {position : ℕ} {f : Formula}
    (h : Available mode entries s step) (hinputs : Inputs entries step inputs)
    (hf : Infers ctx step (inputs.map Entry.formula) f) (hlarge : ¬ f.WithinLimits → tooLarge) :
    Limited tooLarge (checkStep sha256 ctx mode steps s (step, position)) := by
  apply Limited.bind (limited_deriveStep h hinputs hf)
  rintro ⟨derived, results, remaining⟩ hderive
  obtain ⟨hformula, hcharged⟩ := deriveStep_formula h hinputs hf hderive
  apply Limited.bind (limited_encodeResult (by rwa [hformula]))
  intro canonical hcanonical
  have hsome : derived.prechargedLength = none → canonical ≠ none := by
    intro hnone hcanonicalNone
    unfold encodeResult at hcanonical
    rw [hnone, if_pos (.inl rfl), hcanonicalNone, mapError_eq_ok, map_eq_ok] at hcanonical
    obtain ⟨_, -, hbytes⟩ := hcanonical
    cases hbytes
  apply Limited.bind
  · unfold chargeResult
    split
    · exact limited_ok _
    · next hnone =>
      obtain ⟨bytes, hbytes⟩ := Option.ne_none_iff_exists'.mp (hsome hnone)
      rw [hbytes]
      apply Limited.bind (limited_ok _)
      intro _ _
      apply Limited.bind (limited_charge _ _ _)
      intro _ _
      exact limited_ok _
  rintro ⟨length, remaining'⟩ _
  apply Limited.bind (limited_recordDerivation h hinputs fun hnone => hsome (hcharged.mpr hnone))
  intro _ _
  exact limited_ok _

/-- Every derivation of the list concludes a formula. -/
def Sound (ctx : ContextView) (steps : List ProofStep) (tooLarge : Prop) : Prop :=
  ∀ p d, Unfolds steps p d → ∃ f, Proves ctx d f ∧ (¬ f.WithinLimits → tooLarge)

/-- A step follows from the entries of the steps before it. -/
theorem infers_of_proves {steps : List ProofStep} {entries inputs : List Entry}
    {step : ProofStep} {k : ℕ} {d : Derivation} {f : Formula}
    (hentries : Continues sha256 ctx [] (steps.take k) entries)
    (hearlier : ProofCodec.Earlier 0 steps) (hstep : steps[k]? = some step)
    (hd : Unfolds steps k d) (hf : Proves ctx d f) (hinputs : Inputs entries step inputs) :
    Infers ctx step (inputs.map Entry.formula) f := by
  have hentry : ∀ {i : ℕ} {a : Derivation} {e : Entry} {x : Formula}, entries[i]? = some e →
      Unfolds steps i a → Proves ctx a x → e.formula = x :=
    fun he ha hx => hx.formula_eq (NormalForm.yields_of_entry hentries hearlier he ha)
  cases hd with
  | leaf hp hr =>
    rw [hstep] at hp
    cases hp
    cases (inputs_of_references_nil hr).mp hinputs
    cases hf with
    | leaf hf => exact hf
  | modusPonens hp ha hb =>
    rw [hstep] at hp
    cases hp
    obtain ⟨x, y, hx, hy, rfl⟩ := inputs_modusPonens.mp hinputs
    cases hf with
    | modusPonens hproof hproof' =>
      simp only [List.map_cons, List.map_nil, hentry hx ha hproof, hentry hy hb hproof']
      exact .derived (concludes_modusPonens.2 ⟨_, rfl⟩)
  | generalization hp ha =>
    rw [hstep] at hp
    cases hp
    obtain ⟨x, hx, rfl⟩ := inputs_generalization.mp hinputs
    cases hf with
    | generalization hproof =>
      simp only [List.map_cons, List.map_nil, hentry hx ha hproof]
      exact .derived (concludes_generalization.2 ⟨_, rfl, rfl⟩)

theorem limited_foldlM {mode : IdentityMode} {steps rest : List ProofStep} {entries : List Entry}
    {s : CheckState} (hsound : Sound ctx steps tooLarge) (hall : ProofCodec.Earlier 0 steps)
    (hsteps : steps.drop entries.length = rest)
    (hearlier : ProofCodec.Earlier entries.length rest) (h : Agrees mode steps entries s)
    (hentries : Continues sha256 ctx [] (steps.take entries.length) entries) :
    Limited tooLarge ((rest.zipIdx entries.length).foldlM (checkStep sha256 ctx mode steps) s) := by
  induction rest generalizing entries s with
  | nil => exact limited_ok s
  | cons step rest ih =>
    rw [List.zipIdx_cons, List.foldlM_cons]
    obtain ⟨hr, hearlier⟩ := ProofCodec.earlier_cons.mp hearlier
    have hget := getElem?_of_drop hsteps
    have havailable := h.available hget hr
    obtain ⟨inputs, hinputs⟩ := exists_inputs havailable
    have hlt : entries.length < steps.length := (List.getElem?_eq_some_iff.mp hget).1
    obtain ⟨d, hd⟩ := Unfolds.exists_of_earlier hall hlt
    obtain ⟨f, hf, hlarge⟩ := hsound _ d hd
    apply Limited.bind
    · exact limited_checkStep havailable hinputs
        (infers_of_proves hentries hall hget hd hf hinputs) hlarge
    intro m hm
    obtain ⟨inputs', e, hinputs', hproduces, -, hwork, rfl⟩ := (checkStep_eq_ok havailable).mp hm
    have hdrop := drop_snoc hsteps e
    have hnext : Agrees mode steps (entries ++ [e])
        (nextState mode steps s step entries.length e) := h.next hlt hwork
    have hmore := ih hdrop (by rwa [List.length_append]) hnext (by
      rw [take_snoc hsteps e]
      exact hentries.snoc hinputs' hproduces)
    rwa [List.length_append] at hmore

/-- The derivation that ends a list concludes a closed formula. -/
def Closes (ctx : ContextView) (steps : List ProofStep) (f : Formula) : Prop :=
  f.isClosed = true ∧ ∀ d, Unfolds steps (steps.length - 1) d → Proves ctx d f

theorem Closes.last_formula {c : ProofCertificate} {f : Formula} (h : Closes ctx c.steps f)
    (hv : c.Valid) {entries : List Entry} {e : Entry}
    (hentries : Continues sha256 ctx [] c.steps entries) (he : entries.getLast? = some e) :
    e.formula = f := by
  have hpos := List.length_pos_of_ne_nil hv.nonempty
  obtain ⟨d, hd⟩ := Unfolds.exists_of_earlier hv.earlier (p := c.steps.length - 1) (by omega)
  obtain ⟨e', hget, hyields⟩ := hentries.yields hd
  rw [List.getLast?_eq_getElem?, hentries.length_eq, hget] at he
  cases he
  exact (h.2 d hd).formula_eq hyields

theorem limited_checkSteps {mode : IdentityMode} {c : ProofCertificate} {f : Formula}
    (hv : c.Valid) (hsound : Sound ctx c.steps tooLarge) (hcloses : Closes ctx c.steps f) :
    Limited tooLarge (checkSteps sha256 c ctx mode) := by
  have hdrop : c.steps.drop ([] : List Entry).length = c.steps := rfl
  apply Limited.bind (limited_require hv.nonempty)
  intro _ _
  apply Limited.bind
  · exact limited_foldlM hsound hv.earlier hdrop hv.earlier (agrees_start mode c.steps) .nil
  intro t ht
  obtain ⟨entries, e, hentries, hagrees, hlen, he, -⟩ := exists_last_of_foldlM hv ht
  obtain ⟨hresult, hcanonical, -⟩ := hagrees.final hlen he
  have hformula := hcloses.last_formula hv hentries he
  rw [hresult, orError, ok_bind]
  apply Limited.bind (limited_charge _ _ _)
  intro _ _
  apply Limited.bind
  · refine limited_require ?_
    rw [hformula]
    exact hcloses.1
  intro _ _
  rw [hcanonical]
  apply Limited.bind (limited_ok _)
  intro _ _
  exact limited_ok _

/-- What an accepted check of such steps concludes. -/
theorem conclusion_eq {mode : IdentityMode} {c : ProofCertificate} {f : Formula}
    {outcome : CheckOutcome} (hv : c.Valid) (hcloses : Closes ctx c.steps f)
    (h : checkSteps sha256 c ctx mode = .ok outcome) : outcome.conclusion = f := by
  obtain ⟨entries, e, hentries, hlast, -, -, -, rfl⟩ := (checkSteps_eq_ok hv).mp h
  exact hcloses.last_formula hv hentries hlast

/-- A normal form concludes what its source does. -/
theorem normalForm_sound {c : ProofCertificate} {f : Formula} (hv : c.Valid)
    (hsound : Sound ctx c.steps tooLarge) (hcloses : Closes ctx c.steps f) :
    ∃ n, c.intoUncheckedNormalForm = .ok n ∧ n.certificate.Valid ∧
      Sound ctx n.certificate.steps tooLarge ∧ Closes ctx n.certificate.steps f := by
  obtain ⟨d, n, s, hd, hn, hnv, hns, ht⟩ := NormalForm.normalize_eq_ok hv
  obtain ⟨g, o, hg, -, hname, horigin⟩ := NormalForm.Tracks.exists_renaming ht
  have hnormal : c.intoUncheckedNormalForm = .ok ⟨n⟩ := by
    rw [ProofCertificate.intoUncheckedNormalForm, hn]
    rfl
  refine ⟨⟨n⟩, hnormal, hnv, ?_, hcloses.1, ?_⟩
  · intro p d' hd'
    rw [hns] at hd'
    obtain ⟨source, hsource, hrenamed⟩ := horigin ⟨p, hd'.lt_length⟩
    cases hd'.unique hrenamed
    obtain ⟨x, hx, hlarge⟩ := hsound _ source hsource
    exact ⟨_, hx.rename hg, by rwa [Formula.withinLimits_mapFreeVariables]⟩
  · intro d' hd'
    rw [hns] at hd'
    cases hd'.unique d.unfolds_root
    have hsame : d.mapFreeVariables g =
        d.mapFreeVariables (VariableNumbering.name (d.emit .empty).2.seen) := by
      refine Derivation.mapFreeVariables_congr fun v hmem => hname v ?_
      rw [d.seen_emit]
      exact FirstOccurrence.mem_seeAll.mpr (.inr hmem)
    have hproof := (hcloses.2 d hd).rename hg
    rw [hsame, Formula.mapFreeVariables_of_closed hcloses.1] at hproof
    exact hproof

/-- A normal form that concludes formulas is refused only because a limit is exhausted. -/
theorem limited_checkNormalForm {n : ProofNormalForm} {f : Formula} (hv : n.certificate.Valid)
    (hsound : Sound ctx n.certificate.steps tooLarge) (hcloses : Closes ctx n.certificate.steps f) :
    Limited tooLarge (checkNormalFormWithState sha256 n ctx) := by
  cases hcheck : checkSteps sha256 n.certificate ctx .derive with
  | error stop =>
    have hrefused := limited_checkSteps hv hsound hcloses stop hcheck
    have hquery : checkWithDiagnosticQuery sha256 n.certificate ctx .derive = .error stop := by
      rw [checkWithDiagnosticQuery, hcheck]
      rfl
    intro stop' h
    unfold checkNormalFormWithState at h
    split at h
    · next heq =>
      rw [hquery] at heq
      cases heq
      cases h
      exact hrefused
    · next heq =>
      rw [hquery] at heq
      cases heq
  | ok outcome =>
    obtain ⟨entries, e, hentries, hlast, hw, hclosed, hle, rfl⟩ := (checkSteps_eq_ok hv).mp hcheck
    obtain ⟨checked, hchecked, -⟩ := NormalForm.exists_checkNormalForm hv hcheck hw
    exact limited_of_eq_ok hchecked

theorem conclusion_of_checkNormalForm {n : ProofNormalForm} {f : Formula} {checked : CheckedProof}
    (hv : n.certificate.Valid) (hcloses : Closes ctx n.certificate.steps f)
    (h : checkNormalFormWithState sha256 n ctx = .ok checked) :
    checked.conclusion = f ∧ checked.normalForm = n := by
  obtain ⟨outcome, houtcome, hnormal, hconclusion, -⟩ := exists_outcome h
  exact ⟨hconclusion.trans (conclusion_eq hv hcloses houtcome), hnormal⟩

/-- Steps that conclude a closed formula are accepted with it, or a limit is exhausted. -/
theorem normalizeAndCheck_of_sound (sha256 : List UInt8 → Digest) {c : ProofCertificate}
    {f : Formula} (hv : c.Valid) (hsound : Sound ctx c.steps tooLarge)
    (hcloses : Closes ctx c.steps f) :
    Limited tooLarge (normalizeAndCheckWithState sha256 c ctx) ∧
      ∀ checked, normalizeAndCheckWithState sha256 c ctx = .ok checked →
        checked.conclusion = f ∧ checked.normalForm.certificate.Valid ∧
        checkNormalFormWithState sha256 checked.normalForm ctx = .ok checked := by
  obtain ⟨n, hn, hnv, hnsound, hncloses⟩ := normalForm_sound hv hsound hcloses
  rw [normalizeAndCheckWithState, hn]
  refine ⟨limited_checkNormalForm hnv hnsound hncloses, ?_⟩
  intro checked hchecked
  have hok : checkNormalFormWithState sha256 n ctx = .ok checked := hchecked
  obtain ⟨hconclusion, rfl⟩ := conclusion_of_checkNormalForm hnv hncloses hok
  exact ⟨hconclusion, hnv, hok⟩

end Naome.Checker
