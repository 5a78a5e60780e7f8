import Naome.NormalFormChecking

/-!
# The work of a check

What the checker has charged when it runs out of work, and a bound on it that is told from the
steps as they were written: normalizing them only drops and merges steps, so their lengths still
bound every charge.
-/
namespace Naome.Checker
open LocallyNameless Outcome

variable {sha256 : List UInt8 → Digest} {ctx : ContextView}

/-- Whenever the computation runs out of work, `Q` holds. -/
def Exceeds {α : Type} (Q : Prop) (x : CheckM α) : Prop :=
  ∀ step actual maximum, x = .error (.error (.formulaWorkLimitExceeded step actual maximum)) → Q

section

variable {α β : Type} {Q Q' : Prop}

theorem exceeds_ok (a : α) : Exceeds Q (.ok a : CheckM α) := by
  intro _ _ _ h
  cases h

theorem Exceeds.bind {x : CheckM α} {f : α → CheckM β} (hx : Exceeds Q x)
    (hf : ∀ a, x = .ok a → Exceeds Q (f a)) : Exceeds Q (x >>= f) := by
  intro step actual maximum h
  rcases bind_eq_error.mp h with h | ⟨a, ha, h⟩
  · exact hx step actual maximum h
  · exact hf a ha step actual maximum h

theorem Exceeds.mono {x : CheckM α} (h : Exceeds Q x) (himp : Q → Q') : Exceeds Q' x :=
  fun step actual maximum hx => himp (h step actual maximum hx)

theorem exceeds_mapError {ε : Type} {x : Except ε α} {f : ε → Stop CheckErrorKind}
    (hf : ∀ e step actual maximum, f e ≠ .error (.formulaWorkLimitExceeded step actual maximum)) :
    Exceeds Q (x.mapError f) := by
  intro step actual maximum h
  cases x with
  | ok a => cases h
  | error e => exact absurd (Except.error.inj h) (hf e step actual maximum)

theorem exceeds_orError {e : Stop CheckErrorKind} {o : Option α}
    (he : ∀ step actual maximum, e ≠ .error (.formulaWorkLimitExceeded step actual maximum)) :
    Exceeds Q (orError e o) := by
  intro step actual maximum h
  cases o with
  | none => exact absurd (Except.error.inj h) (he step actual maximum)
  | some a => cases h

theorem exceeds_require {e : Stop CheckErrorKind} {p : Prop} [Decidable p]
    (he : ∀ step actual maximum, e ≠ .error (.formulaWorkLimitExceeded step actual maximum)) :
    Exceeds Q (require p e) := by
  intro step actual maximum h
  exact absurd (require_eq_error.mp h).2 (he step actual maximum)

theorem exceeds_charge {position amount remaining : ℕ} (h : remaining < amount → Q) :
    Exceeds Q (chargeFormulaWork position amount remaining) := by
  intro step actual maximum hx
  unfold chargeFormulaWork at hx
  split_ifs at hx with hlt
  exact h hlt

end

variable {Q : Prop} {position : ℕ}

theorem exceeds_primitiveFormula (f : ProofFormula) :
    Exceeds Q (primitiveFormula ctx position f) := by
  cases f with
  | primitive f => exact exceeds_ok f
  | defined f h =>
    refine exceeds_mapError fun e _ _ _ => ?_
    cases e <;> simp

theorem exceeds_deriveAxiom (step : ProofStep) : Exceeds Q (deriveAxiom ctx position step) := by
  cases step with
  | proofReference id | modusPonens i j | generalization i v =>
    intro _ _ _ h
    cases h
  | equalityReflexivity v | zfcAxiom fixed => exact exceeds_ok _
  | simplification a b | classicalContraposition a b | universalDistribution v a b =>
    exact (exceeds_primitiveFormula a).bind fun _ _ =>
      (exceeds_primitiveFormula b).bind fun _ _ => exceeds_ok _
  | frege a b c =>
    exact (exceeds_primitiveFormula a).bind fun _ _ => (exceeds_primitiveFormula b).bind fun _ _ =>
      (exceeds_primitiveFormula c).bind fun _ _ => exceeds_ok _
  | vacuousUniversal a | universalInstantiation v r a | equalitySubstitution v r a =>
    exact (exceeds_primitiveFormula a).bind fun _ _ => exceeds_ok _
  | separation s | replacement s =>
    apply Exceeds.bind
    · exact exceeds_require (by simp)
    intro _ _
    apply Exceeds.bind
    · exact (exceeds_primitiveFormula s.predicate).bind fun _ _ => exceeds_ok _
    intro _ _
    exact exceeds_mapError (by simp)

/-- What a turn has charged when a charge fails or when all were paid: a conclusion that is cited,
the inputs alone, or the inputs and the result. -/
inductive Demands (ctx : ContextView) : ProofStep → List Entry → ℕ → Prop
  | cited {id : ProofId} {header : ProofHeader} (h : ctx.proofHeader id = .ok (some header)) :
    Demands ctx (.proofReference id) [] header.length
  | inputs {step : ProofStep} {inputs : List Entry} :
    Demands ctx step inputs (inputs.map Entry.canonicalLength).sum
  | derived {step : ProofStep} {inputs : List Entry} {f : Formula}
    (h : Concludes ctx step (inputs.map Entry.formula) f) (hw : f.WithinLimits) :
    Demands ctx step inputs ((inputs.map Entry.canonicalLength).sum + f.canonicalBytes.length)

theorem Produces.demands {step : ProofStep} {inputs : List Entry} {e : Entry}
    (h : Produces sha256 ctx step inputs e) : Demands ctx step inputs e.work := by
  cases h with
  | cited hheader _ => exact .cited hheader
  | derived h hw => exact .derived h hw

/-- The demand that a turn could not meet. -/
def Overdraws (ctx : ContextView) (step : ProofStep) (inputs : List Entry) (remaining : ℕ) : Prop :=
  ∃ amount, Demands ctx step inputs amount ∧ remaining < amount

theorem exceeds_deriveStep {mode : IdentityMode} {entries inputs : List Entry} {s : CheckState}
    {step : ProofStep} {uses : List (Option ℕ)} (h : Available mode entries s step)
    (hinputs : Inputs entries step inputs) :
    Exceeds (Overdraws ctx step inputs s.remainingWork)
      (deriveStep ctx position step s.results uses s.remainingWork) := by
  have hresult := h.result_eq
  cases step with
  | proofReference id =>
    cases (inputs_of_references_nil rfl).mp hinputs
    apply Exceeds.bind
    · exact exceeds_mapError (by simp)
    intro found hfound
    apply Exceeds.bind
    · exact exceeds_orError (by simp)
    intro header hheader
    cases orError_eq_ok.mp hheader
    apply Exceeds.bind
    · exact exceeds_charge fun hlt => ⟨_, .cited (mapError_eq_ok.mp hfound), hlt⟩
    intro _ _
    apply Exceeds.bind
    · exact exceeds_mapError (by simp)
    intro _ _
    apply Exceeds.bind
    · exact exceeds_orError (by simp)
    exact fun _ _ => exceeds_ok _
  | modusPonens i j =>
    obtain ⟨a, b, ha, hb, rfl⟩ := inputs_modusPonens.mp hinputs
    rw [deriveStep, hresult i a List.mem_cons_self ha, ok_bind,
      hresult j b (List.mem_cons_of_mem _ List.mem_cons_self) hb, ok_bind]
    apply Exceeds.bind
    · refine exceeds_charge fun hlt => ⟨_, .inputs, ?_⟩
      simpa using hlt
    intro _ _
    apply Exceeds.bind
    · exact exceeds_mapError (by simp)
    exact fun _ _ => exceeds_ok _
  | generalization i v =>
    obtain ⟨a, ha, rfl⟩ := inputs_generalization.mp hinputs
    rw [deriveStep, hresult i a List.mem_cons_self ha, ok_bind]
    apply Exceeds.bind
    · refine exceeds_charge fun hlt => ⟨_, .inputs, ?_⟩
      simpa using hlt
    exact fun _ _ => exceeds_ok _
  | _ => exact (exceeds_deriveAxiom _).bind fun _ _ => exceeds_ok _

theorem exceeds_recordDerivation {mode : IdentityMode} {step : ProofStep} {derived : DerivedStep}
    {canonical : Option (List UInt8)} {ids : List DerivationId} :
    Exceeds Q (recordDerivation sha256 mode step derived canonical ids) := by
  unfold recordDerivation
  split
  · exact exceeds_ok _
  · exact exceeds_ok _
  · apply Exceeds.bind
    · exact exceeds_orError (by simp)
    intro _ _
    apply Exceeds.bind
    · unfold derivationInputs
      intro position actual maximum h
      generalize step.references = references at h
      induction references with
      | nil => cases h
      | cons r references ih =>
        rw [List.mapM_cons] at h
        rcases bind_eq_error.mp h with h | ⟨_, -, h⟩
        · exact exceeds_orError (Q := Q) (by simp) _ _ _ h
        · rcases bind_eq_error.mp h with h | ⟨_, -, h⟩
          · exact ih h
          · cases h
    exact fun _ _ => exceeds_ok _

/-- A turn that runs out of work met a demand above what was left. -/
theorem exceeds_checkStep {mode : IdentityMode} {entries inputs : List Entry}
    {steps : List ProofStep} {s : CheckState} {step : ProofStep} (h : Available mode entries s step)
    (hinputs : Inputs entries step inputs) :
    Exceeds (Overdraws ctx step inputs s.remainingWork)
      (checkStep sha256 ctx mode steps s (step, position)) := by
  apply Exceeds.bind
  · exact exceeds_deriveStep h hinputs
  rintro ⟨derived, results, remaining⟩ hderive
  apply Exceeds.bind
  · unfold encodeResult
    split_ifs
    · exact exceeds_mapError (by simp)
    · exact exceeds_ok _
  intro canonical hcanonical
  apply Exceeds.bind
  · by_cases hstep : ∃ id, step = .proofReference id
    · obtain ⟨id, rfl⟩ := hstep
      simp only [deriveStep, bind_eq_ok, pure_eq_ok] at hderive
      obtain ⟨_, -, _, -, _, -, _, -, _, -, hderive⟩ := hderive
      cases hderive
      exact exceeds_ok _
    · obtain ⟨f, hf, hle, heq⟩ :=
        (deriveStep_eq_ok (fun id hid => hstep ⟨id, hid⟩) h hinputs).mp hderive
      cases heq
      obtain ⟨hw, rfl⟩ := encodeResult_eq_ok.mp hcanonical
      apply Exceeds.bind
      · exact exceeds_ok _
      intro bytes hbytes
      cases hbytes
      apply Exceeds.bind
      · refine exceeds_charge fun hlt => ⟨_, .derived hf hw, ?_⟩
        rw [length_resultBytes] at hlt
        omega
      exact fun _ _ => exceeds_ok _
  rintro ⟨length, remaining'⟩ -
  apply Exceeds.bind
  · exact exceeds_recordDerivation
  exact fun _ _ => exceeds_ok _

/-- The place where the checking of `steps` ran out of work. -/
inductive RanOut (sha256 : List UInt8 → Digest) (ctx : ContextView) (steps : List ProofStep) : Prop
  | step {k : ℕ} {step : ProofStep} {entries inputs : List Entry} {amount : ℕ}
    (hstep : steps[k]? = some step) (hentries : Continues sha256 ctx [] (steps.take k) entries)
    (hinputs : Inputs entries step inputs) (hdemand : Demands ctx step inputs amount)
    (hlt : checkerMaxFormulaWorkBytes < (entries.map Entry.work).sum + amount)
  | conclusion {entries : List Entry} {e : Entry} (hentries : Continues sha256 ctx [] steps entries)
    (hlast : entries.getLast? = some e)
    (hlt : checkerMaxFormulaWorkBytes < (entries.map Entry.work).sum + e.canonicalLength)

theorem Continues.snoc {entries more inputs : List Entry} {steps : List ProofStep} {step : ProofStep}
    {e : Entry} (h : Continues sha256 ctx entries steps more)
    (hinputs : Inputs (entries ++ more) step inputs) (he : Produces sha256 ctx step inputs e) :
    Continues sha256 ctx entries (steps ++ [step]) (more ++ [e]) := by
  induction h with
  | nil =>
    rw [List.append_nil] at hinputs
    exact .cons hinputs he .nil
  | cons hinputs' he' _ ih =>
    rw [← List.singleton_append, ← List.append_assoc] at hinputs
    exact .cons hinputs' he' (ih hinputs)

/-- The loop runs out of work only at a step whose demand is not met. -/
theorem exceeds_foldlM {mode : IdentityMode} {steps rest : List ProofStep} {entries : List Entry}
    {s : CheckState} (hsteps : steps.drop entries.length = rest)
    (hearlier : ProofCodec.Earlier entries.length rest) (h : Agrees mode steps entries s)
    (hentries : Continues sha256 ctx [] (steps.take entries.length) entries) :
    Exceeds (RanOut sha256 ctx steps)
      ((rest.zipIdx entries.length).foldlM (checkStep sha256 ctx mode steps) s) := by
  induction rest generalizing entries s with
  | nil => exact exceeds_ok s
  | cons step rest ih =>
    rw [List.zipIdx_cons, List.foldlM_cons]
    obtain ⟨hr, hearlier⟩ := ProofCodec.earlier_cons.mp hearlier
    have hget := getElem?_of_drop hsteps
    have havailable := h.available hget hr
    obtain ⟨inputs, hinputs⟩ := exists_inputs havailable
    apply Exceeds.bind
    · refine (exceeds_checkStep havailable hinputs).mono ?_
      rintro ⟨amount, hdemand, hlt⟩
      have hwork := h.work
      exact .step hget hentries hinputs hdemand (by omega)
    intro m hm
    obtain ⟨inputs', e, hinputs', hproduces, -, hwork, rfl⟩ := (checkStep_eq_ok havailable).mp hm
    have hlt : entries.length < steps.length := (List.getElem?_eq_some_iff.mp hget).1
    have hdrop := drop_snoc hsteps e
    have hnext : Agrees mode steps (entries ++ [e])
        (nextState mode steps s step entries.length e) := h.next hlt hwork
    have hmore := ih hdrop (by rwa [List.length_append]) hnext (by
      rw [take_snoc hsteps e]
      exact hentries.snoc hinputs' hproduces)
    rwa [List.length_append] at hmore

/-- A check of a valid certificate runs out of work at a step or at its conclusion. -/
theorem exceeds_checkSteps {mode : IdentityMode} {c : ProofCertificate} (hv : c.Valid) :
    Exceeds (RanOut sha256 ctx c.steps) (checkSteps sha256 c ctx mode) := by
  have hdrop : c.steps.drop ([] : List Entry).length = c.steps := rfl
  apply Exceeds.bind
  · exact exceeds_require (by simp)
  intro _ _
  apply Exceeds.bind
  · exact exceeds_foldlM hdrop hv.earlier (agrees_start mode c.steps) .nil
  intro t ht
  obtain ⟨entries, e, hentries, hagrees, hlen, he, -⟩ := exists_last_of_foldlM hv ht
  obtain ⟨hresult, -, -⟩ := hagrees.final hlen he
  rw [hresult, orError, ok_bind]
  apply Exceeds.bind
  · refine exceeds_charge fun hlt => .conclusion hentries he ?_
    have hwork := hagrees.work
    dsimp only at hlt
    omega
  intro _ _
  apply Exceeds.bind
  · exact exceeds_require (by simp)
  intro _ _
  apply Exceeds.bind
  · exact exceeds_orError (by simp)
  exact fun _ _ => exceeds_ok _

/-- Checking a normal form runs out of work only where its steps do. -/
theorem exceeds_checkNormalForm {n : ProofNormalForm} (hv : n.certificate.Valid) :
    Exceeds (RanOut sha256 ctx n.certificate.steps) (checkNormalFormWithState sha256 n ctx) := by
  unfold checkNormalFormWithState
  split
  · next stop hquery =>
    intro step actual maximum h
    cases h
    rcases bind_eq_error.mp hquery with hquery | ⟨_, -, hquery⟩
    · exact exceeds_checkSteps hv _ _ _ hquery
    · cases hquery
  · apply Exceeds.bind
    · exact exceeds_orError (by simp)
    intro _ _
    apply Exceeds.bind
    · exact exceeds_require (by simp)
    intro _ _
    apply Exceeds.bind
    · exact exceeds_mapError (by simp)
    intro _ _
    apply Exceeds.bind
    · exact exceeds_require (by simp)
    exact fun _ _ => exceeds_ok _

/-- Lengths planned for the steps of a list: no step yields a longer formula. -/
structure Measures (sha256 : List UInt8 → Digest) (ctx : ContextView) (steps : List ProofStep)
    (length : ℕ → ℕ) : Prop where
  yields : ∀ p d e, Unfolds steps p d → Yields sha256 ctx d e → e.canonicalLength ≤ length p
  header : ∀ p id header, steps[p]? = some (.proofReference id) →
    ctx.proofHeader id = .ok (some header) → header.length ≤ length p

/-- The work planned for one step: the lengths of what it refers to and its own. -/
def plannedWork (length : ℕ → ℕ) (step : ProofStep) (p : ℕ) : ℕ :=
  (step.references.map length).sum + length p

/-- The work planned for all steps. -/
def totalWork (length : ℕ → ℕ) (steps : List ProofStep) : ℕ :=
  ∑ p : Fin steps.length, plannedWork length steps[p] p

end Naome.Checker

namespace Naome.NormalForm
open LocallyNameless Outcome FirstOccurrence VariableNumbering Checker

variable {sha256 : List UInt8 → Digest} {ctx : ContextView} {c : ProofCertificate}
  {s : Normalizer} {e : Emission} {length : ℕ → ℕ}

/-- What a renamed derivation yields is the renamed entry of the derivation itself. -/
theorem exists_unrenamed {g : FreeVariable → FreeVariable} (hg : Function.Injective g)
    {d : Derivation} {x : Entry} (hx : Yields sha256 ctx (d.mapFreeVariables g) x) :
    ∃ y, Yields sha256 ctx d y ∧ y.canonicalLength = x.canonicalLength ∧
      (x.formula.isClosed = true → y.formula = x.formula) := by
  let σ := Equiv.ofBijective g (Finite.injective_iff_bijective.mp hg)
  have hback := hx.rename σ.symm.injective
  have hsame : (d.mapFreeVariables g).mapFreeVariables σ.symm = d := by
    rw [Derivation.mapFreeVariables_comp]
    have hid : σ.symm ∘ g = id := by
      funext v
      exact σ.symm_apply_apply v
    rw [hid, d.mapFreeVariables_id]
  rw [hsame] at hback
  exact ⟨_, hback, rfl, fun hclosed => Formula.mapFreeVariables_of_closed hclosed⟩

/-- What a renamed derivation yields is no longer than what its source was planned to be. -/
theorem length_le_of_renamed (hm : Measures sha256 ctx c.steps length)
    {g : FreeVariable → FreeVariable} (hg : Function.Injective g) {p : ℕ} {d : Derivation}
    (hd : Unfolds c.steps p d) {x : Entry} (hx : Yields sha256 ctx (d.mapFreeVariables g) x) :
    x.canonicalLength ≤ length p := by
  obtain ⟨y, hy, hlength, -⟩ := exists_unrenamed hg hx
  exact hlength ▸ hm.yields p d y hd hy

/-- The origins of the steps of a normal form, with one injective renaming for all of them. -/
theorem Tracks.exists_renaming (ht : Tracks c s e) :
    ∃ (g : FreeVariable → FreeVariable) (o : Fin e.steps.length → Fin c.steps.length),
      Function.Injective g ∧ Function.Injective o ∧ (∀ v ∈ e.seen, g v = name e.seen v) ∧
      ∀ i, ∃ d, Unfolds c.steps (o i) d ∧ Unfolds e.steps i (d.mapFreeVariables g) := by
  obtain ⟨g, hg, hname⟩ := exists_injective_extension
    (s := {v | v ∈ e.seen}) fun v hv w hw h => name_injOn ht.represents.1 hv hw h
  obtain ⟨o, ho, hsettled⟩ := ht.exists_origin
  refine ⟨g, o, hg, ho, hname, fun i => ?_⟩
  obtain ⟨d, hd, hemit⟩ := hsettled i
  have hsame : d.mapFreeVariables g = d.mapFreeVariables (name e.seen) :=
    Derivation.mapFreeVariables_congr fun v hv =>
      hname v (occurrences_subset_of_settled hemit v hv)
  exact ⟨d, hd, hsame ▸ unfolds_of_settled hemit⟩

section

variable {steps : List ProofStep} {entries : List Entry} {k : ℕ}

/-- A step that is referred to has the entry of its derivation. -/
theorem yields_of_entry (hentries : Continues sha256 ctx [] (steps.take k) entries)
    (hearlier : ProofCodec.Earlier 0 steps) {i : ℕ} {x : Entry} (hx : entries[i]? = some x)
    {d : Derivation} (hd : Unfolds steps i d) : Yields sha256 ctx d x := by
  have hlt := (List.getElem?_eq_some_iff.mp hx).1
  rw [hentries.length_eq] at hlt
  have hearlier' : ProofCodec.Earlier 0 (steps.take k) := by
    intro p hp r hr
    refine hearlier p ?_ r hr
    have hget := List.mk_mem_zipIdx_iff_getElem?.mp hp
    apply List.mk_mem_zipIdx_iff_getElem?.mpr
    have hpk := (List.getElem?_eq_some_iff.mp hget).1
    rw [List.length_take] at hpk
    rwa [List.getElem?_take_of_lt (by omega)] at hget
  obtain ⟨d', hd'⟩ := Unfolds.exists_of_earlier hearlier' hlt
  cases (hd'.of_isPrefix (List.take_prefix k steps)).unique hd
  obtain ⟨x', hx', hyields⟩ := hentries.yields hd'
  rw [hx] at hx'
  cases hx'
  exact hyields

theorem eq_proofReference {g : FreeVariable → FreeVariable} {step : ProofStep} {id : ProofId}
    (h : step.mapFreeVariables g = .proofReference id) : step = .proofReference id := by
  cases step with
  | proofReference id' => exact h
  | _ => cases h

/-- A charge is within the lengths planned for the inputs and for the step itself. -/
theorem demand_le_of_inputs (sha256 : List UInt8 → Digest) {step : ProofStep} {inputs : List Entry} {amount n own : ℕ}
    (hdemand : Demands ctx step inputs amount)
    (hsum : (inputs.map Entry.canonicalLength).sum ≤ n)
    (hheader : ∀ id header, step = .proofReference id →
      ctx.proofHeader id = .ok (some header) → header.length ≤ own)
    (hown : ∀ y, Produces sha256 ctx step inputs y → y.canonicalLength ≤ own) :
    amount ≤ n + own := by
  cases hdemand with
  | cited h =>
    have hle := hheader _ _ rfl h
    omega
  | inputs => omega
  | derived hf hw =>
    have hle := hown _ (.derived hf hw)
    exact Nat.add_le_add hsum hle

/-- No charge at a step of the normal form exceeds the work planned for its origin. -/
theorem demand_le (hm : Measures sha256 ctx c.steps length) {g : FreeVariable → FreeVariable}
    (hg : Function.Injective g) (hearlier : ProofCodec.Earlier 0 steps)
    (hentries : Continues sha256 ctx [] (steps.take k) entries) {i p : ℕ} {d : Derivation}
    (hd : Unfolds c.steps p d) (hd' : Unfolds steps i (d.mapFreeVariables g))
    {step source : ProofStep} (hstep : steps[i]? = some step) (hsource : c.steps[p]? = some source)
    {inputs : List Entry} (hinputs : Inputs entries step inputs) {amount : ℕ}
    (hdemand : Demands ctx step inputs amount) : amount ≤ plannedWork length source p := by
  have hown : ∀ y, Yields sha256 ctx (d.mapFreeVariables g) y → y.canonicalLength ≤ length p :=
    fun y hy => length_le_of_renamed hm hg hd hy
  have hinput : ∀ {r q : ℕ} {x : Entry} {a : Derivation}, entries[r]? = some x →
      Unfolds steps r (a.mapFreeVariables g) → Unfolds c.steps q a → x.canonicalLength ≤ length q :=
    fun hx hr hq => length_le_of_renamed hm hg hq (yields_of_entry hentries hearlier hx hr)
  cases hd with
  | leaf hp hr =>
    rw [hsource] at hp
    obtain rfl := Option.some.inj hp
    obtain ⟨hi, hr'⟩ : steps[i]? = some (source.mapFreeVariables g) ∧
        (source.mapFreeVariables g).references = [] := by
      cases hd' with
      | leaf hi hr' => exact ⟨hi, hr'⟩
    rw [hstep] at hi
    obtain rfl := Option.some.inj hi
    cases (inputs_of_references_nil hr').mp hinputs
    rw [plannedWork, hr]
    refine demand_le_of_inputs sha256 hdemand le_rfl ?_ fun y hy => hown y (.leaf hy)
    intro id header hid hheader
    exact hm.header p id header (hsource.trans (congrArg some (eq_proofReference hid))) hheader
  | @modusPonens _ pa pb a b hp ha hb =>
    rw [hsource] at hp
    obtain rfl := Option.some.inj hp
    cases hd' with
    | modusPonens hi ha' hb' =>
      rw [hstep] at hi
      obtain rfl := Option.some.inj hi
      obtain ⟨x, y, hx, hy, rfl⟩ := inputs_modusPonens.mp hinputs
      have hlx := hinput hx ha' ha
      have hly := hinput hy hb' hb
      have hsum : (([x, y] : List Entry).map Entry.canonicalLength).sum ≤
          ([pa, pb].map length).sum := by
        simp only [List.map_cons, List.map_nil, List.sum_cons, List.sum_nil]
        omega
      refine demand_le_of_inputs sha256 hdemand hsum (fun id _ hid => by cases hid) ?_
      intro z hz
      exact hown z (.modusPonens (yields_of_entry hentries hearlier hx ha')
        (yields_of_entry hentries hearlier hy hb') (produces_modusPonens _ _ _ _ hz))
  | @generalization _ pa v a hp ha =>
    rw [hsource] at hp
    obtain rfl := Option.some.inj hp
    cases hd' with
    | generalization hi ha' =>
      rw [hstep] at hi
      obtain rfl := Option.some.inj hi
      obtain ⟨x, hx, rfl⟩ := inputs_generalization.mp hinputs
      have hlx := hinput hx ha' ha
      have hsum : (([x] : List Entry).map Entry.canonicalLength).sum ≤ ([pa].map length).sum := by
        simp only [List.map_cons, List.map_nil, List.sum_cons, List.sum_nil]
        omega
      refine demand_le_of_inputs sha256 hdemand hsum (fun id _ hid => by cases hid) ?_
      intro z hz
      exact hown z (.generalization (yields_of_entry hentries hearlier hx ha')
        (produces_generalization _ _ hz))

end

/-- Charges for different origins add up to no more than what was planned for all steps. -/
theorem sum_charges_le {m : ℕ} {o : Fin m → Fin c.steps.length} (ho : Function.Injective o)
    {charges : List ℕ} (hlen : charges.length ≤ m)
    (hcharge : ∀ (i : Fin m) (x : ℕ), charges[i.1]? = some x →
      x ≤ plannedWork length c.steps[o i] (o i)) :
    charges.sum ≤ totalWork length c.steps := by
  have hinjective : Function.Injective fun i : Fin charges.length => o (i.castLE hlen) :=
    ho.comp (Fin.castLE_injective hlen)
  calc charges.sum = ∑ i : Fin charges.length, charges[i] :=
        (Fin.sum_univ_getElem charges).symm
    _ ≤ ∑ i : Fin charges.length, plannedWork length c.steps[o (i.castLE hlen)] (o (i.castLE hlen)) := by
        refine Finset.sum_le_sum fun i _ => hcharge (i.castLE hlen) _ ?_
        exact List.getElem?_eq_getElem i.2
    _ ≤ totalWork length c.steps :=
        sum_le_of_injective hinjective fun p => plannedWork length c.steps[p] p

/-- The entries of a beginning of the normal form, and one more charge, cost no more than planned. -/
theorem Tracks.charges_le (ht : Tracks c s e) (hm : Measures sha256 ctx c.steps length)
    (hearlier : ProofCodec.Earlier 0 e.steps) {k : ℕ} {entries : List Entry}
    (hentries : Continues sha256 ctx [] (e.steps.take k) entries) :
    (entries.map Entry.work).sum ≤ totalWork length c.steps ∧
      ∀ {step inputs amount}, e.steps[k]? = some step → Inputs entries step inputs →
        Demands ctx step inputs amount →
        (entries.map Entry.work).sum + amount ≤ totalWork length c.steps := by
  obtain ⟨g, o, hg, ho, -, horigin⟩ := ht.exists_renaming
  have hlen : entries.length ≤ e.steps.length := by
    rw [hentries.length_eq]
    exact (List.take_prefix k e.steps).length_le
  have hentry : ∀ (i : Fin e.steps.length) (x : ℕ), (entries.map Entry.work)[i.1]? = some x →
      x ≤ plannedWork length c.steps[o i] (o i) := by
    intro i x hx
    obtain ⟨d, hd, hd'⟩ := horigin i
    rw [List.getElem?_map, Option.map_eq_some_iff] at hx
    obtain ⟨y, hy, rfl⟩ := hx
    have hlt : i.1 < (e.steps.take k).length := by
      rw [← hentries.length_eq]
      exact (List.getElem?_eq_some_iff.mp hy).1
    obtain ⟨inputs, y', hy', hinputs, hproduces⟩ := hentries.getElem? (List.getElem?_eq_getElem hlt)
    rw [hy] at hy'
    cases hy'
    rw [List.nil_append] at hinputs
    refine demand_le hm hg hearlier hentries hd hd' ?_ (List.getElem?_eq_getElem (o i).2) hinputs
      hproduces.demands
    rw [List.getElem_take]
    exact List.getElem?_eq_getElem i.2
  refine ⟨sum_charges_le ho (by rwa [List.length_map]) hentry, ?_⟩
  intro step inputs amount hstep hinputs hdemand
  have hk : k < e.steps.length := (List.getElem?_eq_some_iff.mp hstep).1
  have hlen' : entries.length = k := by
    rw [hentries.length_eq, List.length_take]
    omega
  have hsum : (entries.map Entry.work).sum + amount = (entries.map Entry.work ++ [amount]).sum := by
    rw [List.sum_append, List.sum_singleton]
  rw [hsum]
  refine sum_charges_le ho (by simp; omega) ?_
  intro i x hx
  by_cases hi : i.1 < entries.length
  · rw [List.getElem?_append_left (by simpa using hi)] at hx
    exact hentry i x hx
  · have hik : i.1 = k := by
      have hlt := (List.getElem?_eq_some_iff.mp hx).1
      simp only [List.length_append, List.length_map, List.length_singleton] at hlt
      omega
    rw [List.getElem?_append_right (by simp; omega), List.length_map] at hx
    have hzero : i.1 - entries.length = 0 := by omega
    rw [hzero] at hx
    obtain rfl := Option.some.inj hx
    obtain ⟨d, hd, hd'⟩ := horigin i
    exact demand_le hm hg hearlier hentries hd hd' (hik ▸ hstep)
      (List.getElem?_eq_getElem (o i).2) hinputs hdemand

/-- The last entry of a normal form belongs to the root derivation of its source. -/
theorem exists_rootEntry {d : Derivation} (ht : Tracks c s (d.emit .empty).2)
    {entries : List Entry} (hentries : Continues sha256 ctx [] (d.emit .empty).2.steps entries)
    {x : Entry} (hlast : entries.getLast? = some x) :
    ∃ y, Yields sha256 ctx d y ∧ y.canonicalLength = x.canonicalLength ∧
      (x.formula.isClosed = true → y.formula = x.formula) := by
  obtain ⟨g, -, hg, -, hname, -⟩ := ht.exists_renaming
  have hsame : d.mapFreeVariables g = d.mapFreeVariables (name (d.emit .empty).2.seen) := by
    refine Derivation.mapFreeVariables_congr fun v hv => hname v ?_
    rw [d.seen_emit]
    exact mem_seeAll.mpr (.inr hv)
  obtain ⟨x', hx', hyields⟩ := hentries.yields d.unfolds_root
  rw [List.getLast?_eq_getElem?, hentries.length_eq, hx'] at hlast
  cases hlast
  exact exists_unrenamed hg (hsame ▸ hyields)

/-- Checking the normal form costs no more than planned for the steps as they were written, apart
from the conclusion, which is charged once more. -/
theorem normalForm_work (hv : c.Valid) (hm : Measures sha256 ctx c.steps length) {d : Derivation}
    (hd : Unfolds c.steps (c.steps.length - 1) d) :
    ∃ n : ProofNormalForm, c.intoUncheckedNormalForm = .ok n ∧ n.certificate.Valid ∧
      n.certificate.canonicalBytes.length ≤ c.canonicalBytes.length ∧
      (∀ outcome, checkSteps sha256 n.certificate ctx .derive = .ok outcome →
        ∃ x, Yields sha256 ctx d x ∧ x.formula = outcome.conclusion ∧
          outcome.chargedWork ≤ totalWork length c.steps + x.canonicalLength) ∧
      Exceeds (checkerMaxFormulaWorkBytes < totalWork length c.steps ∨
          ∃ x, Yields sha256 ctx d x ∧
            checkerMaxFormulaWorkBytes < totalWork length c.steps + x.canonicalLength)
        (normalizeAndCheckWithState sha256 c ctx) := by
  obtain ⟨d', n, s, hd', hn, hnv, hns, ht⟩ := normalize_eq_ok hv
  cases hd'.unique hd
  have hnormal : c.intoUncheckedNormalForm = .ok ⟨n⟩ := by
    rw [ProofCertificate.intoUncheckedNormalForm, hn]
    rfl
  have hbytes : n.canonicalBytes.length ≤ c.canonicalBytes.length := by
    have hsum := ht.sum_le insensitive_length_bytes
    rw [← hns] at hsum
    simp only [ProofCertificate.canonicalBytes, ProofCodec.stepsBytes, List.length_append,
      List.length_flatMap, ByteCursor.length_u32Bytes]
    exact Nat.add_le_add_left hsum 4
  refine ⟨⟨n⟩, hnormal, hnv, hbytes, ?_, ?_⟩
  · intro outcome hcheck
    obtain ⟨entries, x, hentries, hlast, -, hclosed, hle, rfl⟩ := (checkSteps_eq_ok hnv).mp hcheck
    rw [hns] at hentries
    obtain ⟨y, hy, hlength, hformula⟩ := exists_rootEntry ht hentries hlast
    refine ⟨y, hy, hformula hclosed, ?_⟩
    have hcharges := (ht.charges_le hm (hns ▸ hnv.earlier) (k := (d.emit .empty).2.steps.length)
      (by rwa [List.take_length])).1
    simp only [CheckOutcome.chargedWork, outcomeOf]
    omega
  · rw [normalizeAndCheckWithState, hnormal]
    refine (exceeds_checkNormalForm hnv).mono fun hout => ?_
    rw [hns] at hout
    cases hout with
    | step hstep hentries hinputs hdemand hlt =>
      have hle := (ht.charges_le hm (hns ▸ hnv.earlier) hentries).2 hstep hinputs hdemand
      exact .inl (by omega)
    | conclusion hentries hlast hlt =>
      obtain ⟨y, hy, hlength, -⟩ := exists_rootEntry ht hentries hlast
      have hcharges := (ht.charges_le hm (hns ▸ hnv.earlier) (k := (d.emit .empty).2.steps.length)
        (by rwa [List.take_length])).1
      exact .inr ⟨y, hy, by omega⟩

end Naome.NormalForm
