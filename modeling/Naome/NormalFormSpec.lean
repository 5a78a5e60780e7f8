import Naome.NormalForm
import Naome.Derivation

/-!
# Specification of the proof normal form

The traversal of a valid certificate emits the derivation of its final step, so the normal
form is a complete invariant of that derivation up to the names of its free variables.
-/
namespace Naome
open LocallyNameless FirstOccurrence Outcome ByteCursor ProofCodec VariableNumbering

/-- A step is determined by its tag and its fields. -/
theorem ProofStep.ext_fields {s t : ProofStep} (htag : s.canonicalTag = t.canonicalTag)
    (hfields : s.fields = t.fields) : s = t := by
  rcases s with _ | _ | _ | _ | _ | _ | _ | _ | _ | ⟨⟨⟩⟩ | ⟨⟨⟩⟩ | _ | _ | _ <;>
    rcases t with _ | _ | _ | _ | _ | _ | _ | _ | _ | ⟨⟨⟩⟩ | ⟨⟨⟩⟩ | _ | _ | _ <;>
    first
      | (simp only [canonicalTag] at htag; exact absurd htag (by decide))
      | simp_all only [fields, List.cons.injEq, StepField.formula.injEq,
          StepField.freeVariable.injEq, StepField.freeVariables.injEq, StepField.zfcAxiom.injEq,
          StepField.proofId.injEq, StepField.reference.injEq]

namespace StepField

variable {S : Type} {f : FreeVariable → S → FreeVariable × S}

def mapFreeState (f : FreeVariable → S → FreeVariable × S) : StepField → S → StepField × S
  | .formula p, s => ((p.mapFreeState f s).1 |> .formula, (p.mapFreeState f s).2)
  | .freeVariable v, s => ((f v s).1 |> .freeVariable, (f v s).2)
  | .freeVariables vs, s =>
    ((mapVariablesState f vs s).1 |> .freeVariables, (mapVariablesState f vs s).2)
  | field, s => (field, s)

/-- Renames the fields one after another with a state. -/
def mapFieldsState (f : FreeVariable → S → FreeVariable × S) :
    List StepField → S → List StepField × S
  | [], s => ([], s)
  | field :: fields, s =>
    ((field.mapFreeState f s).1 :: (mapFieldsState f fields (field.mapFreeState f s).2).1,
      (mapFieldsState f fields (field.mapFreeState f s).2).2)

variable {rename : List FreeVariable → FreeVariable → FreeVariable} {I : List FreeVariable → S → Prop}
  {seen later : List FreeVariable} {s : S}

theorem mapVariablesState_eq (hf : Numbers f rename I) (vs : List FreeVariable) (hs : I seen s)
    (hl : seeAll seen vs <+: later) :
    (mapVariablesState f vs s).1 = vs.map (rename later) ∧
      I (seeAll seen vs) (mapVariablesState f vs s).2 := by
  induction vs generalizing seen s with
  | nil => exact ⟨rfl, hs⟩
  | cons v vs ih =>
    obtain ⟨hi, hv⟩ := hf.step seen s v hs
    obtain ⟨hvs, hi⟩ := ih hi hl
    have hstable : rename later v = rename (see seen v) v :=
      hf.stable _ _ v ((isPrefix_seeAll _ _).trans hl) (mem_see.mpr (.inr rfl))
    refine ⟨?_, hi⟩
    simp only [mapVariablesState, List.map_cons, hvs, hv, hstable]

theorem mapFreeState_formula (hf : Numbers f rename I) (p : ProofFormula) (hs : I seen s)
    (hl : seeAll seen p.occurrences <+: later) :
    (p.mapFreeState f s).1 = p.mapFreeVariables (rename later) ∧
      I (seeAll seen p.occurrences) (p.mapFreeState f s).2 := by
  cases p with
  | primitive p =>
    rw [show (ProofFormula.primitive p).occurrences = p.node.occurrences from
      Node.occurrences_embed p.node] at hl ⊢
    obtain ⟨hn, hi⟩ := hf.mapFreeState p.node hs hl
    refine ⟨congrArg ProofFormula.primitive (Formula.ext ?_), hi⟩
    exact congrArg Prod.fst hn
  | defined p cites =>
    obtain ⟨hn, hi⟩ := hf.mapFreeState p.node hs hl
    refine ⟨ProofFormula.node_injective ?_, hi⟩
    exact congrArg Prod.fst hn

theorem mapFreeState_eq (hf : Numbers f rename I) (field : StepField) (hs : I seen s)
    (hl : seeAll seen field.occurrences <+: later) :
    (field.mapFreeState f s).1 = field.mapFreeVariables (rename later) ∧
      I (seeAll seen field.occurrences) (field.mapFreeState f s).2 := by
  cases field with
  | formula p =>
    obtain ⟨hp, hi⟩ := mapFreeState_formula hf p hs hl
    exact ⟨congrArg StepField.formula hp, hi⟩
  | freeVariable v =>
    obtain ⟨hi, hv⟩ := hf.step seen s v hs
    have hstable := hf.stable _ _ v hl (mem_see.mpr (.inr rfl))
    exact ⟨congrArg StepField.freeVariable (hv.trans hstable.symm), hi⟩
  | freeVariables vs =>
    obtain ⟨hvs, hi⟩ := mapVariablesState_eq hf vs hs hl
    exact ⟨congrArg StepField.freeVariables hvs, hi⟩
  | zfcAxiom a | proofId d | reference r => exact ⟨rfl, hs⟩

theorem mapFieldsState_eq (hf : Numbers f rename I) (fields : List StepField) (hs : I seen s)
    (hl : seeAll seen (fields.flatMap occurrences) <+: later) :
    (mapFieldsState f fields s).1 = fields.map (mapFreeVariables (rename later)) ∧
      I (seeAll seen (fields.flatMap occurrences)) (mapFieldsState f fields s).2 := by
  induction fields generalizing seen s with
  | nil => exact ⟨rfl, hs⟩
  | cons field fields ih =>
    rw [List.flatMap_cons, seeAll_append] at hl ⊢
    obtain ⟨hfield, hi⟩ := mapFreeState_eq hf field hs ((isPrefix_seeAll _ _).trans hl)
    obtain ⟨hfields, hi⟩ := ih hi hl
    refine ⟨?_, hi⟩
    simp only [mapFieldsState, List.map_cons, hfield, hfields]

end StepField

namespace ProofStep

theorem fields_mapFreeState {S : Type} (f : FreeVariable → S → FreeVariable × S)
    (step : ProofStep) (s : S) :
    (step.mapFreeState f s).1.canonicalTag = step.canonicalTag ∧
      (step.mapFreeState f s).1.fields = (StepField.mapFieldsState f step.fields s).1 ∧
      (step.mapFreeState f s).2 = (StepField.mapFieldsState f step.fields s).2 := by
  cases step <;> exact ⟨rfl, rfl, rfl⟩

/-- Numbering the variables of a step renames it by the numbers given in the end. -/
theorem mapFreeState_visit {seen : List FreeVariable} {s : VariableNumbering}
    (hs : Represents seen s) (step : ProofStep) :
    (step.mapFreeState VariableNumbering.visit s).1 =
        step.mapFreeVariables (name (seeAll seen step.occurrences)) ∧
      Represents (seeAll seen step.occurrences) (step.mapFreeState VariableNumbering.visit s).2 := by
  obtain ⟨htag, hfields, hstate⟩ := fields_mapFreeState VariableNumbering.visit step s
  obtain ⟨hmap, hrep⟩ :=
    StepField.mapFieldsState_eq numbers_visit step.fields hs List.prefix_rfl
  refine ⟨ext_fields ?_ ?_, ?_⟩
  · rw [htag, canonicalTag_mapFreeVariables]
  · rw [hfields, hmap, fields_mapFreeVariables]
    rfl
  · rw [hstate]
    exact hrep

/-- Steps that fit their wire widths have different bytes when they differ. -/
theorem bytes_injOn {s t : ProofStep} (hs : s.Fits) (ht : t.Fits) (h : s.bytes = t.bytes) :
    s = t := by
  have hs' : decodeStep s.bytes (s.nodes + t.nodes) = .ok (s, [], t.nodes) :=
    decodeStep_eq_ok.mpr ⟨hs, by omega, by omega, by simp⟩
  have ht' : decodeStep t.bytes (s.nodes + t.nodes) = .ok (t, [], s.nodes) :=
    decodeStep_eq_ok.mpr ⟨ht, by omega, by omega, by simp⟩
  rw [h, ht'] at hs'
  cases hs'
  rfl

end ProofStep

namespace NormalForm

theorem lookup_interned {steps : List ProofStep} {step : ProofStep}
    (hsteps : ∀ t ∈ steps, t.Fits) (hstep : step.Fits) (k : ℕ) :
    ((steps.zipIdx k).map fun p => (p.1.bytes, p.2)).lookup step.bytes =
      if step ∈ steps then some (k + steps.idxOf step) else none := by
  induction steps generalizing k with
  | nil => rfl
  | cons t steps ih =>
    have htail := ih (fun u hu => hsteps u (List.mem_cons_of_mem t hu)) (k + 1)
    rw [List.zipIdx_cons, List.map_cons, List.lookup_cons]
    by_cases heq : step = t
    · subst heq
      simp
    · have hbytes : (step.bytes == t.bytes) = false := by
        rw [beq_eq_false_iff_ne]
        exact fun h => heq (ProofStep.bytes_injOn hstep (hsteps t List.mem_cons_self) h)
      have hne : t ≠ step := fun h => heq h.symm
      rw [hbytes, htail]
      by_cases hm : step ∈ steps
      · rw [if_pos hm, if_pos (List.mem_cons_of_mem t hm), List.idxOf_cons_ne _ hne]
        simp only
        congr 1
        omega
      · rw [if_neg hm, if_neg (by simp [heq, hm])]

/-- The traversal of the steps of `c` has emitted `e`: every visited step stands where
emitting its derivation puts it. -/
structure Tracks (c : ProofCertificate) (s : Normalizer) (e : Emission) : Prop where
  length_eq : s.normalizedIndices.length = c.steps.length
  steps_eq : s.normalizedSteps = e.steps
  interned_eq : s.internedSteps = e.steps.zipIdx.map fun p => (p.1.bytes, p.2)
  represents : Represents e.seen s.numbering
  settled : ∀ p i, s.normalizedIndices[p]? = some (some i) →
    ∃ d, Unfolds c.steps p d ∧ d.emit e = (i, e)
  origin : ∀ i < e.steps.length, ∃ p : ℕ, s.normalizedIndices[p]? = some (some i)
  fits : ∀ step ∈ e.steps, step.Fits
  seen_subset : ∀ v ∈ e.seen, v ∈ c.steps.flatMap ProofStep.occurrences
  available : ∀ (p : ℕ) (step : ProofStep), s.normalizedIndices[p]? = some none →
    c.steps[p]? = some step → s.source[p]? = some (some step)

variable {c : ProofCertificate} {s s' : Normalizer} {e e' : Emission}

theorem length_occurrences_lt (hv : c.Valid) :
    (c.steps.flatMap ProofStep.occurrences).length < 2 ^ 32 := by
  have hsteps : ∀ steps : List ProofStep, 4 * (steps.flatMap ProofStep.occurrences).length ≤
      (steps.flatMap ProofStep.bytes).length := by
    intro steps
    induction steps with
    | nil => simp
    | cons step steps ih =>
      have := step.length_occurrences_le
      simp only [List.flatMap_cons, List.length_append]
      omega
  have hle := hv.encodable.bytes_le
  have := hsteps c.steps
  rw [stepsBytes, List.length_append] at hle
  unfold certificateMaxBytes at hle
  omega

/-- There are no more names than variables in the certificate. -/
theorem Tracks.length_seen_lt (ht : Tracks c s e) (hv : c.Valid) : e.seen.length < 2 ^ 32 := by
  have hsub := List.subperm_of_subset ht.represents.1 ht.seen_subset
  have := length_occurrences_lt hv
  have := hsub.length_le
  omega

/-- Emitted steps come from different source steps. -/
theorem Tracks.exists_origin (ht : Tracks c s e) :
    ∃ o : Fin e.steps.length → Fin c.steps.length, Function.Injective o ∧
      ∀ i, ∃ d, Unfolds c.steps (o i) d ∧ d.emit e = (i.1, e) := by
  have horigin : ∀ i : Fin e.steps.length, ∃ p : Fin c.steps.length,
      s.normalizedIndices[p.1]? = some (some i.1) := by
    intro i
    obtain ⟨p, hp⟩ := ht.origin i i.2
    have hlt := (List.getElem?_eq_some_iff.mp hp).1
    rw [ht.length_eq] at hlt
    exact ⟨⟨p, hlt⟩, hp⟩
  choose o ho using horigin
  refine ⟨o, ?_, fun i => ht.settled (o i) i (ho i)⟩
  intro i j hij
  have hi := ho i
  rw [hij, ho j] at hi
  simp only [Option.some.injEq] at hi
  exact Fin.ext hi.symm

theorem Tracks.length_steps_le (ht : Tracks c s e) : e.steps.length ≤ c.steps.length := by
  obtain ⟨o, ho, -⟩ := ht.exists_origin
  simpa using Fintype.card_le_of_injective o ho

/-- The bytes, nodes and variables of a step do not depend on its references. -/
theorem normalizeReferences_same {indices : List (Option ℕ)} {step step' : ProofStep}
    (h : normalizeReferences indices step = .ok step') :
    step'.bytes.length = step.bytes.length ∧ step'.nodes = step.nodes ∧
      step'.occurrences = step.occurrences := by
  cases step with
  | modusPonens i j =>
    simp only [normalizeReferences, bind_eq_ok, pure_eq_ok] at h
    obtain ⟨i', -, j', -, rfl⟩ := h
    exact ⟨by simp [ProofStep.bytes, ProofStep.fields, StepField.bytes], rfl, rfl⟩
  | generalization i v =>
    simp only [normalizeReferences, bind_eq_ok, pure_eq_ok] at h
    obtain ⟨i', -, rfl⟩ := h
    exact ⟨by simp [ProofStep.bytes, ProofStep.fields, StepField.bytes], rfl, rfl⟩
  | _ =>
    cases h
    exact ⟨rfl, rfl, rfl⟩

theorem nodes_le_of_mem (hv : c.Valid) {step : ProofStep} (hs : step ∈ c.steps) :
    step.nodes ≤ certificateMaxFormulaNodes :=
  (List.le_sum_of_mem (List.mem_map_of_mem hs)).trans hv.encodable.nodes_le

theorem length_bytes_le_of_mem (hv : c.Valid) {step : ProofStep} (hs : step ∈ c.steps) :
    step.bytes.length ≤ certificateMaxBytes := by
  have hle := hv.encodable.bytes_le
  have hmem := List.le_sum_of_mem (List.mem_map_of_mem (f := fun s => s.bytes.length) hs)
  rw [stepsBytes, List.length_append, List.length_flatMap] at hle
  omega

/-- A pushed step is the old one or the new last one. -/
theorem push_cases (e : Emission) (vs : List FreeVariable)
    (step : (FreeVariable → FreeVariable) → ProofStep) :
    let r := step (name (seeAll e.seen vs))
    (r ∈ e.steps ∧ e.push vs step = (e.steps.idxOf r, ⟨seeAll e.seen vs, e.steps⟩)) ∨
      (r ∉ e.steps ∧ e.push vs step = (e.steps.length, ⟨seeAll e.seen vs, e.steps ++ [r]⟩)) := by
  intro r
  by_cases hr : r ∈ e.steps
  · refine .inl ⟨hr, ?_⟩
    simp only [Emission.push, see, r, if_pos hr]
  · refine .inr ⟨hr, ?_⟩
    simp only [Emission.push, see, r, if_neg hr]
    rw [List.idxOf_append_of_notMem hr]
    simp [r]

/-- A visited step keeps the traversal in line with the extended emission. -/
theorem Tracks.push (ht : Tracks c s e) {p k : ℕ} {d : Derivation} {step : ProofStep}
    (hp : s.normalizedIndices[p]? = some none) (hd : Unfolds c.steps p d)
    (hstep : c.steps[p]? = some step) (hemit : d.emit e = (k, e'))
    (hseen : e'.seen = seeAll e.seen step.occurrences)
    (hsteps : e'.steps = e.steps ∨ (k = e.steps.length ∧ ∃ r, r.Fits ∧ e'.steps = e.steps ++ [r]))
    (hsource : s'.source = s.source.set p none)
    (hindices : s'.normalizedIndices = s.normalizedIndices.set p (some k))
    (hnormalized : s'.normalizedSteps = e'.steps)
    (hinterned : s'.internedSteps = e'.steps.zipIdx.map fun p => (p.1.bytes, p.2))
    (hrep : Represents e'.seen s'.numbering) : Tracks c s' e' := by
  have hextends : Emission.Extends e e' := by
    have := d.extends_emit e
    rwa [hemit] at this
  have hplt := (List.getElem?_eq_some_iff.mp hp).1
  have hkeep : ∀ q i : ℕ, s.normalizedIndices[q]? = some (some i) →
      s'.normalizedIndices[q]? = some (some i) := by
    intro q i hq
    have hne : p ≠ q := by
      rintro rfl
      rw [hp] at hq
      cases hq
    rw [hindices, List.getElem?_set_ne hne, hq]
  have hself : s'.normalizedIndices[p]? = some (some k) := by
    rw [hindices, List.getElem?_set_self hplt]
  refine ⟨?_, hnormalized, hinterned, hrep, ?_, ?_, ?_, ?_, ?_⟩
  · rw [hindices, List.length_set, ht.length_eq]
  · intro q i hq
    by_cases hqp : p = q
    · subst hqp
      rw [hself] at hq
      cases hq
      have hext : Emission.Extends (d.emit e).2 e' := by
        rw [hemit]
        exact .refl _
      have hagain := d.emit_of_extends hext
      rw [hemit] at hagain
      exact ⟨d, hd, hagain⟩
    · rw [hindices, List.getElem?_set_ne hqp] at hq
      obtain ⟨d', hd', he⟩ := ht.settled q i hq
      have hext : Emission.Extends (d'.emit e).2 e' := by
        rw [he]
        exact hextends
      have hagain := d'.emit_of_extends hext
      rw [he] at hagain
      exact ⟨d', hd', hagain⟩
  · intro i hi
    rcases hsteps with hold | ⟨hk, r, -, hnew⟩
    · rw [hold] at hi
      obtain ⟨q, hq⟩ := ht.origin i hi
      exact ⟨q, hkeep q i hq⟩
    · rw [hnew, List.length_append, List.length_singleton] at hi
      rcases Nat.lt_succ_iff_lt_or_eq.mp hi with hlt | heq
      · obtain ⟨q, hq⟩ := ht.origin i hlt
        exact ⟨q, hkeep q i hq⟩
      · rw [heq, ← hk]
        exact ⟨p, hself⟩
  · intro t htm
    rcases hsteps with hold | ⟨-, r, hr, hnew⟩
    · exact ht.fits t (hold ▸ htm)
    · rw [hnew, List.mem_append, List.mem_singleton] at htm
      rcases htm with htm | rfl
      · exact ht.fits t htm
      · exact hr
  · intro v hv
    rw [hseen, mem_seeAll] at hv
    rcases hv with hv | hv
    · exact ht.seen_subset v hv
    · exact List.mem_flatMap.mpr ⟨step, List.mem_of_getElem? hstep, hv⟩
  · intro q t hq ht'
    have hqp : p ≠ q := by
      rintro rfl
      rw [hself] at hq
      cases hq
    rw [hindices, List.getElem?_set_ne hqp] at hq
    rw [hsource, List.getElem?_set_ne hqp]
    exact ht.available q t hq ht'

/-- Leaving an unvisited step pushes it on the emission. -/
theorem exitStep_spec (hv : c.Valid) (ht : Tracks c s e) {p : ℕ} {d : Derivation}
    {step step' : ProofStep} (hp : s.normalizedIndices[p]? = some none)
    (hstep : c.steps[p]? = some step)
    (href : normalizeReferences s.normalizedIndices step = .ok step') (hfits : step'.Fits)
    (hd : Unfolds c.steps p d)
    (hemit : d.emit e = e.push step'.occurrences fun g => step'.mapFreeVariables g) :
    ∃ s', exitStep s p = .ok s' ∧ Tracks c s' (d.emit e).2 ∧
      s'.normalizedIndices = s.normalizedIndices.set p (some (d.emit e).1) := by
  obtain ⟨hlen, hnodes, hocc⟩ := normalizeReferences_same href
  have hmem : step ∈ c.steps := List.mem_of_getElem? hstep
  let seen' := seeAll e.seen step'.occurrences
  let r := step'.mapFreeVariables (name seen')
  let numbering' := (step'.mapFreeState VariableNumbering.visit s.numbering).2
  have hr : r.Fits := (ProofStep.fits_mapFreeVariables _ _).mpr hfits
  have hkey : encodeStep r = .ok r.bytes := by
    refine encodeStep_eq_ok_of (ProofCertificate.writable_of_fits hr) ?_ ?_
    · rw [ProofStep.nodes_mapFreeVariables, hnodes]
      exact nodes_le_of_mem hv hmem
    · rw [ProofStep.length_bytes_mapFreeVariables, hlen]
      exact length_bytes_le_of_mem hv hmem
  obtain ⟨hrename, hrep⟩ := ProofStep.mapFreeState_visit ht.represents step'
  have hsubset : ∀ v ∈ seen', v ∈ c.steps.flatMap ProofStep.occurrences := by
    intro v hv
    rcases mem_seeAll.mp hv with hv | hv
    · exact ht.seen_subset v hv
    · exact List.mem_flatMap.mpr ⟨step, hmem, hocc ▸ hv⟩
  have hnext : numbering'.nextIdentifier < 2 ^ 32 := by
    have hsub := (List.subperm_of_subset hrep.1 hsubset).length_le
    rw [show numbering'.nextIdentifier = seen'.length from hrep.2.1]
    exact lt_of_le_of_lt hsub (length_occurrences_lt hv)
  have hnormalize : normalizeStep s.normalizedIndices step s.numbering = .ok (r, numbering') := by
    rw [normalizeStep, href, ok_bind]
    simp only [hrename, require]
    rw [if_pos hnext]
    rfl
  have hlookup : s.internedSteps.lookup r.bytes =
      if r ∈ e.steps then some (0 + e.steps.idxOf r) else none := by
    rw [ht.interned_eq]
    exact lookup_interned ht.fits hr 0
  have hexit : exitStep s p =
      Normalizer.intern { s with source := s.source.set p none, numbering := numbering' } p r
        r.bytes := by
    rw [exitStep, ht.available p step hp hstep]
    simp only [Option.bind_some, id, orError]
    rw [ok_bind, hnormalize, ok_bind]
    simp only [hkey]
    rfl
  have hshort : e.steps.length < 2 ^ 32 := by
    have := ht.length_steps_le
    have := hv.encodable.length_lt
    omega
  rcases push_cases e step'.occurrences fun g => step'.mapFreeVariables g with
    ⟨hm, hpush⟩ | ⟨hm, hpush⟩
  · rw [hpush] at hemit
    refine ⟨{ s with
      source := s.source.set p none
      normalizedIndices := s.normalizedIndices.set p (some (e.steps.idxOf r))
      numbering := numbering' }, ?_, ?_, ?_⟩
    · rw [hexit, Normalizer.intern, hlookup, if_pos hm, Nat.zero_add]
    · rw [hemit]
      exact ht.push hp hd hstep hemit (congrArg (seeAll e.seen) hocc) (.inl rfl) rfl rfl
        ht.steps_eq ht.interned_eq hrep
    · rw [hemit]
  · rw [hpush] at hemit
    refine ⟨⟨s.source.set p none, s.normalizedIndices.set p (some e.steps.length), e.steps ++ [r],
      s.internedSteps ++ [(r.bytes, e.steps.length)], numbering'⟩, ?_, ?_, ?_⟩
    · rw [hexit, Normalizer.intern, hlookup, if_neg hm]
      simp only [ht.steps_eq, require, if_pos hshort]
      rfl
    · rw [hemit]
      refine ht.push hp hd hstep hemit (congrArg (seeAll e.seen) hocc) (.inr ⟨rfl, r, hr, rfl⟩) rfl
        rfl rfl ?_ hrep
      rw [ht.interned_eq, List.zipIdx_append, List.map_append]
      simp [r, seen']
    · rw [hemit]

def visitedCount (s : Normalizer) : ℕ := s.normalizedIndices.countP Option.isSome

theorem visitNext_visited {visit : Visit} {i : ℕ}
    (h : s.normalizedIndices[visit.position]? = some (some i)) :
    visitNext s visit = .ok (s, []) := by
  unfold visitNext
  rw [h]
  rfl

theorem visitNext_enter {p : ℕ} {step : ProofStep} (h : s.normalizedIndices[p]? = some none)
    (hstep : s.source[p]? = some (some step)) :
    visitNext s (.enter p) = .ok (s, step.references.map .enter ++ [.exit p]) := by
  rw [visitNext, show (Visit.enter p).position = p from rfl, h]
  simp only [enterStep, hstep]
  rfl

theorem visitNext_exit {p : ℕ} (h : s.normalizedIndices[p]? = some none)
    (hexit : exitStep s p = .ok s') :
    visitNext s (.exit p) = .ok (s', []) := by
  rw [visitNext, show (Visit.exit p).position = p from rfl, h]
  simp only [hexit]
  rfl

theorem traverse_cons {fuel : ℕ} {visit : Visit} {pushed traversal : List Visit}
    (h : visitNext s visit = .ok (s', pushed)) :
    traverse (fuel + 1) s (visit :: traversal) =
      traverse fuel s' (pushed ++ traversal) := by
  rw [traverse, h, ok_bind]

/-- The effect of visiting position `p`, whose derivation is `d`, in `turns` turns. -/
structure VisitsTo (c : ProofCertificate) (p : ℕ) (d : Derivation) (s : Normalizer) (e : Emission)
    (turns : ℕ) (s' : Normalizer) : Prop where
  tracks : Tracks c s' (d.emit e).2
  index_eq : s'.normalizedIndices[p]? = some (some (d.emit e).1)
  above : ∀ q : ℕ, p < q → s'.normalizedIndices[q]? = s.normalizedIndices[q]?
  keeps : ∀ q i : ℕ, s.normalizedIndices[q]? = some (some i) →
    s'.normalizedIndices[q]? = some (some i)
  turns_le : turns + 3 * visitedCount s ≤ 3 * visitedCount s' + 1
  run : ∀ fuel traversal, traverse (turns + fuel) s (.enter p :: traversal) =
    traverse fuel s' traversal

/-- The last turn of a visit, after all references were visited. -/
theorem exists_exit (hv : c.Valid) {p : ℕ} {d : Derivation} {step step' : ProofStep}
    (hd : Unfolds c.steps p d) (hs : Tracks c s e) (hp : s.normalizedIndices[p]? = some none)
    (hstep : c.steps[p]? = some step) {turns : ℕ} {t : Normalizer} {e' : Emission}
    (ht : Tracks c t e') (habove : ∀ q : ℕ, p ≤ q → t.normalizedIndices[q]? = s.normalizedIndices[q]?)
    (hkeeps : ∀ q i : ℕ, s.normalizedIndices[q]? = some (some i) →
      t.normalizedIndices[q]? = some (some i))
    (hturns : turns + 3 * visitedCount s ≤ 3 * visitedCount t + 2)
    (hrun : ∀ fuel traversal, traverse (turns + fuel) s
      (step.references.map .enter ++ [.exit p] ++ traversal) =
        traverse fuel t (.exit p :: traversal))
    (href : normalizeReferences t.normalizedIndices step = .ok step') (hfits : step'.Fits)
    (hagain : d.emit e' = d.emit e)
    (hemit : d.emit e' = e'.push step'.occurrences fun g => step'.mapFreeVariables g) :
    ∃ turns' s', VisitsTo c p d s e turns' s' := by
  have hpt : t.normalizedIndices[p]? = some none := (habove p le_rfl).trans hp
  have hplt := (List.getElem?_eq_some_iff.mp hpt).1
  have hsource := hs.available p step hp hstep
  obtain ⟨s', hexit, htracks, hindices⟩ := exitStep_spec hv ht hpt hstep href hfits hd hemit
  rw [hagain] at htracks hindices
  have hcount : visitedCount s' = visitedCount t + 1 := by
    have hget : t.normalizedIndices[p] = none := by
      simpa [List.getElem?_eq_getElem hplt] using hpt
    rw [visitedCount, hindices, List.countP_set hplt, hget]
    rfl
  refine ⟨turns + 2, s', htracks, ?_, ?_, ?_, by omega, ?_⟩
  · rw [hindices, List.getElem?_set_self hplt]
  · intro q hq
    rw [hindices, List.getElem?_set_ne (by omega), habove q (by omega)]
  · intro q i hq
    have hne : p ≠ q := by
      rintro rfl
      rw [hp] at hq
      cases hq
    rw [hindices, List.getElem?_set_ne hne, hkeeps q i hq]
  · intro fuel traversal
    calc traverse (turns + 2 + fuel) s (.enter p :: traversal)
        = traverse (turns + (fuel + 1)) s
            (step.references.map .enter ++ [.exit p] ++ traversal) := by
          rw [← traverse_cons (visitNext_enter hp hsource)]
          congr 1
          omega
      _ = traverse (fuel + 1) t (.exit p :: traversal) := hrun _ _
      _ = traverse fuel s' traversal := traverse_cons (visitNext_exit hpt hexit)

theorem index_lt (hv : c.Valid) (ht : Tracks c s e) {p i : ℕ}
    (hp : s.normalizedIndices[p]? = some (some i)) : i < 2 ^ 32 := by
  obtain ⟨d, -, hemit⟩ := ht.settled p i hp
  have hlt := d.lt_length_emit e
  rw [hemit] at hlt
  have := ht.length_steps_le
  have := hv.encodable.length_lt
  simp only at hlt
  omega

theorem references_lt (hv : c.Valid) {p : ℕ} {step : ProofStep} (hstep : c.steps[p]? = some step) :
    ∀ r ∈ step.references, r < p :=
  hv.earlier (step, p) (List.mk_mem_zipIdx_iff_getElem?.mpr hstep)

/-- A visited step is skipped. -/
theorem visitsTo_or_unvisited {p : ℕ} {d : Derivation} (hd : Unfolds c.steps p d)
    (ht : Tracks c s e) :
    (∃ turns s', VisitsTo c p d s e turns s') ∨ s.normalizedIndices[p]? = some none := by
  have hlt : p < s.normalizedIndices.length := ht.length_eq ▸ hd.lt_length
  cases hp : s.normalizedIndices[p] with
  | none => exact .inr (hp ▸ List.getElem?_eq_getElem hlt)
  | some i =>
    have hget : s.normalizedIndices[p]? = some (some i) := hp ▸ List.getElem?_eq_getElem hlt
    obtain ⟨d', hd', hemit⟩ := ht.settled p i hget
    rw [hd'.unique hd] at hemit
    refine .inl ⟨1, s, ?_, ?_, fun _ _ => rfl, fun _ _ h => h, by omega, ?_⟩
    · rw [hemit]
      exact ht
    · rw [hemit]
      exact hget
    · intro fuel traversal
      rw [Nat.add_comm, traverse_cons (visitNext_visited hget)]
      rfl

theorem normalizedReference_eq {r i : ℕ} (h : s.normalizedIndices[r]? = some (some i)) :
    normalizedReference s.normalizedIndices r = .ok i := by
  rw [normalizedReference, h]
  rfl

/-- Visiting a step emits its derivation. -/
theorem exists_visitsTo (hv : c.Valid) {p : ℕ} {d : Derivation} (hd : Unfolds c.steps p d)
    (ht : Tracks c s e) : ∃ turns s', VisitsTo c p d s e turns s' := by
  induction hd generalizing s e with
  | @leaf p step hstep hr =>
    have hd : Unfolds c.steps p (.leaf step hr) := .leaf hstep hr
    rcases visitsTo_or_unvisited hd ht with hvisited | hp
    · exact hvisited
    have href : normalizeReferences s.normalizedIndices step = .ok step := by
      cases step with
      | modusPonens i j | generalization i v =>
        simp [ProofStep.references, ProofStep.localReferences] at hr
      | _ => rfl
    have hfits := ProofCertificate.fits_of_valid hv step (List.mem_of_getElem? hstep)
    refine exists_exit hv hd ht hp hstep ht (fun _ _ => rfl) (fun _ _ h => h)
      (show 0 + 3 * visitedCount s ≤ 3 * visitedCount s + 2 by omega) ?_ href hfits rfl rfl
    intro fuel traversal
    rw [hr, Nat.zero_add]
    rfl
  | @modusPonens p i j a b hstep ha hb iha ihb =>
    have hd : Unfolds c.steps p (.modusPonens a b) := .modusPonens hstep ha hb
    rcases visitsTo_or_unvisited hd ht with hvisited | hp
    · exact hvisited
    have hi : i < p := references_lt hv hstep i (by simp [ProofStep.references, ProofStep.localReferences])
    have hj : j < p := references_lt hv hstep j (by simp [ProofStep.references, ProofStep.localReferences])
    obtain ⟨ta, s₁, va⟩ := iha ht
    obtain ⟨tb, s₂, vb⟩ := ihb va.tracks
    have hia := vb.keeps i _ va.index_eq
    have hagain_a : a.emit (b.emit (a.emit e).2).2 = ((a.emit e).1, (b.emit (a.emit e).2).2) :=
      a.emit_of_extends (b.extends_emit _)
    have hagain_b : b.emit (b.emit (a.emit e).2).2 =
        ((b.emit (a.emit e).2).1, (b.emit (a.emit e).2).2) := b.emit_of_extends (.refl _)
    have href : normalizeReferences s₂.normalizedIndices (.modusPonens i j) =
        .ok (.modusPonens (a.emit e).1 (b.emit (a.emit e).2).1) := by
      rw [normalizeReferences, normalizedReference_eq hia, ok_bind,
        normalizedReference_eq vb.index_eq]
      rfl
    have hfits : (ProofStep.modusPonens (a.emit e).1 (b.emit (a.emit e).2).1).Fits := by
      have hlt := index_lt hv vb.tracks hia
      have hlt' := index_lt hv vb.tracks vb.index_eq
      intro f hf
      simp only [ProofStep.fields, List.mem_cons, List.not_mem_nil, or_false] at hf
      rcases hf with rfl | rfl
      · exact hlt
      · exact hlt'
    have habove : ∀ q : ℕ, p ≤ q → s₂.normalizedIndices[q]? = s.normalizedIndices[q]? :=
      fun q hq => (vb.above q (by omega)).trans (va.above q (by omega))
    have hturns : ta + tb + 3 * visitedCount s ≤ 3 * visitedCount s₂ + 2 := by
      have := va.turns_le
      have := vb.turns_le
      omega
    refine exists_exit hv hd ht hp hstep vb.tracks habove
      (fun q k h => vb.keeps q k (va.keeps q k h)) hturns ?_ href hfits ?_ ?_
    · intro fuel traversal
      rw [Nat.add_assoc]
      exact (va.run _ _).trans (vb.run _ _)
    · simp only [Derivation.emit, hagain_a, hagain_b]
    · simp only [Derivation.emit, hagain_a, hagain_b]
      rfl
  | @generalization p i v a hstep ha ih =>
    have hd : Unfolds c.steps p (.generalization a v) := .generalization hstep ha
    rcases visitsTo_or_unvisited hd ht with hvisited | hp
    · exact hvisited
    have hi : i < p := references_lt hv hstep i (by simp [ProofStep.references, ProofStep.localReferences])
    obtain ⟨ta, s₁, va⟩ := ih ht
    have hagain : a.emit (a.emit e).2 = ((a.emit e).1, (a.emit e).2) := a.emit_of_extends (.refl _)
    have href : normalizeReferences s₁.normalizedIndices (.generalization i v) =
        .ok (.generalization (a.emit e).1 v) := by
      rw [normalizeReferences, normalizedReference_eq va.index_eq]
      rfl
    have hfits : (ProofStep.generalization (a.emit e).1 v).Fits := by
      have hlt := index_lt hv va.tracks va.index_eq
      intro f hf
      simp only [ProofStep.fields, List.mem_cons, List.not_mem_nil, or_false] at hf
      rcases hf with rfl | rfl
      · exact hlt
      · trivial
    have habove : ∀ q : ℕ, p ≤ q → s₁.normalizedIndices[q]? = s.normalizedIndices[q]? :=
      fun q hq => va.above q (by omega)
    have hturns : ta + 3 * visitedCount s ≤ 3 * visitedCount s₁ + 2 := by
      have := va.turns_le
      omega
    refine exists_exit hv hd ht hp hstep va.tracks habove va.keeps hturns ?_ href hfits ?_ ?_
    · exact fun fuel traversal => va.run _ _
    · simp only [Derivation.emit, hagain]
    · simp only [Derivation.emit, hagain]
      rfl

/-- The traversal starts with nothing emitted. -/
theorem tracks_start (c : ProofCertificate) :
    Tracks c ⟨c.steps.map some, List.replicate c.steps.length none, [], [], .empty⟩ .empty := by
  refine ⟨List.length_replicate, rfl, rfl, represents_empty, ?_, ?_, ?_, ?_, ?_⟩
  · intro p i hp
    simp [List.getElem?_replicate] at hp
  · intro i hi
    simp [Emission.empty] at hi
  · intro step hs
    simp [Emission.empty] at hs
  · intro v hv
    simp [Emission.empty] at hv
  · intro p step _ hstep
    rw [List.getElem?_map, hstep]
    rfl

/-- Normalizing a valid certificate is the visit of its final step. -/
theorem exists_rootVisit (hv : c.Valid) :
    ∃ d s turns, Unfolds c.steps (c.steps.length - 1) d ∧ normalizeWithStepOrigins c = .ok s ∧
      VisitsTo c (c.steps.length - 1) d ⟨c.steps.map some, List.replicate c.steps.length none, [], [], .empty⟩ .empty
        turns s := by
  have hpos : 0 < c.steps.length := List.length_pos_iff.mpr hv.nonempty
  obtain ⟨d, hd⟩ := Unfolds.exists_of_earlier hv.earlier (show c.steps.length - 1 < _ by omega)
  obtain ⟨turns, s, hvisit⟩ := exists_visitsTo hv hd (tracks_start c)
  have hturns : turns ≤ 3 * c.steps.length + 1 := by
    have hle := hvisit.turns_le
    have hcount : visitedCount s ≤ c.steps.length := by
      rw [← hvisit.tracks.length_eq]
      exact List.countP_le_length
    omega
  refine ⟨d, s, turns, hd, ?_, hvisit⟩
  obtain ⟨fuel, hfuel⟩ := Nat.exists_eq_add_of_le hturns
  rw [normalizeWithStepOrigins, require, if_pos hv.nonempty, ok_bind, hfuel, hvisit.run]
  cases fuel <;> rfl

/-- Normalizing a valid certificate emits the derivation of its final step. -/
theorem normalizeWithStepOrigins_eq_ok (hv : c.Valid) :
    ∃ d s, Unfolds c.steps (c.steps.length - 1) d ∧ normalizeWithStepOrigins c = .ok s ∧
      Tracks c s (d.emit .empty).2 := by
  obtain ⟨d, s, turns, hd, hnormalize, hvisit⟩ := exists_rootVisit hv
  exact ⟨d, s, hd, hnormalize, hvisit.tracks⟩

/-- A measure of steps that sees neither names nor references. -/
structure Insensitive (w : ProofStep → ℕ) : Prop where
  rename : ∀ step g, w (ProofStep.mapFreeVariables g step) = w step
  modusPonens : ∀ i j i' j', w (.modusPonens i j) = w (.modusPonens i' j')
  generalization : ∀ i i' v, w (.generalization i v) = w (.generalization i' v)

/-- Steps with the same derivation up to names have the same measure. -/
theorem Insensitive.eq_of_unfolds {w : ProofStep → ℕ} (hw : Insensitive w)
    {steps steps' : List ProofStep} {p p' : ℕ} {d : Derivation} {g : FreeVariable → FreeVariable}
    {step step' : ProofStep} (hd : Unfolds steps p d) (hd' : Unfolds steps' p' (d.mapFreeVariables g))
    (hp : steps[p]? = some step) (hp' : steps'[p']? = some step') : w step' = w step := by
  cases hd with
  | leaf hq =>
    cases hd' with
    | leaf hq' =>
      rw [hq] at hp
      rw [hq'] at hp'
      cases hp
      cases hp'
      exact hw.rename _ g
  | modusPonens hq =>
    cases hd' with
    | modusPonens hq' =>
      rw [hq] at hp
      rw [hq'] at hp'
      cases hp
      cases hp'
      exact hw.modusPonens ..
  | @generalization _ i v _ hq =>
    cases hd' with
    | @generalization _ i' _ _ hq' =>
      rw [hq] at hp
      rw [hq'] at hp'
      cases hp
      cases hp'
      exact (hw.rename (.generalization i' v) g).trans (hw.generalization ..)

theorem unfolds_of_settled {i : ℕ} {d : Derivation} (hemit : d.emit e = (i, e)) :
    Unfolds e.steps i (d.mapFreeVariables (name e.seen)) := by
  have hext : Emission.Extends (d.emit e).2 e := by
    rw [hemit]
    exact .refl e
  have h := d.unfolds_emit hext
  rwa [hemit] at h

/-- Summed over different origins, no measure grows. -/
theorem sum_le_of_injective {m n : ℕ} {o : Fin m → Fin n} (ho : Function.Injective o)
    (f : Fin n → ℕ) : ∑ i, f (o i) ≤ ∑ p, f p := by
  have himage : ∑ i, f (o i) = ∑ p ∈ Finset.univ.image o, f p :=
    (Finset.sum_image fun i _ j _ h => ho h).symm
  rw [himage]
  exact Finset.sum_le_sum_of_subset (Finset.subset_univ _)

theorem Tracks.sum_le (ht : Tracks c s e) {w : ProofStep → ℕ} (hw : Insensitive w) :
    (e.steps.map w).sum ≤ (c.steps.map w).sum := by
  obtain ⟨o, ho, hsettled⟩ := ht.exists_origin
  have heq : ∀ i, w e.steps[i] = w c.steps[o i] := by
    intro i
    obtain ⟨d, hd, hemit⟩ := hsettled i
    exact hw.eq_of_unfolds hd (unfolds_of_settled hemit) (List.getElem?_eq_getElem (o i).2)
      (List.getElem?_eq_getElem i.2)
  calc (e.steps.map w).sum = ∑ i : Fin e.steps.length, w e.steps[i] :=
        (Fin.sum_univ_fun_getElem e.steps w).symm
    _ = ∑ i, w c.steps[o i] := Finset.sum_congr rfl fun i _ => heq i
    _ ≤ ∑ p : Fin c.steps.length, w c.steps[p] := sum_le_of_injective ho fun p => w c.steps[p]
    _ = (c.steps.map w).sum := Fin.sum_univ_fun_getElem c.steps w

theorem insensitive_nodes : Insensitive ProofStep.nodes :=
  ⟨fun step g => step.nodes_mapFreeVariables g, fun _ _ _ _ => rfl, fun _ _ _ => rfl⟩

theorem insensitive_length_bytes : Insensitive fun step => step.bytes.length := by
  refine ⟨fun step g => step.length_bytes_mapFreeVariables g, ?_, ?_⟩
  · intros
    simp [ProofStep.bytes, ProofStep.fields, StepField.bytes]
  · intros
    simp [ProofStep.bytes, ProofStep.fields, StepField.bytes]

theorem Tracks.valid (ht : Tracks c s e) (hv : c.Valid) (hne : e.steps ≠ [])
    (he : Earlier 0 e.steps) : (⟨e.steps⟩ : ProofCertificate).Valid := by
  have hlength := ht.length_steps_le
  have hnodes := ht.sum_le insensitive_nodes
  have hbytes := ht.sum_le insensitive_length_bytes
  have hvalid := hv.encodable
  have hsource := hvalid.bytes_le
  refine ⟨hne, hlength.trans hv.length_le, he, ⟨?_, fun step hs => ProofCertificate.writable_of_fits (ht.fits step hs),
    hnodes.trans hvalid.nodes_le, ?_⟩⟩
  · exact lt_of_le_of_lt hlength hvalid.length_lt
  · rw [stepsBytes, List.length_append, length_u32Bytes, List.length_flatMap] at hsource ⊢
    exact (Nat.add_le_add_left hbytes 4).trans hsource

/-- The normal form of a valid certificate is the emission of its root derivation. -/
theorem normalize_eq_ok (hv : c.Valid) :
    ∃ d n s, Unfolds c.steps (c.steps.length - 1) d ∧ normalize c = .ok n ∧ n.Valid ∧
      n.steps = (d.emit .empty).2.steps ∧ Tracks c s (d.emit .empty).2 := by
  obtain ⟨d, s, hd, hnormalize, ht⟩ := normalizeWithStepOrigins_eq_ok hv
  have hne : (d.emit .empty).2.steps ≠ [] := by
    have := d.lt_length_emit .empty
    exact List.ne_nil_of_length_pos (by omega)
  have he : Earlier 0 (d.emit .empty).2.steps := d.earlier_emit (by simp [Earlier, Emission.empty])
  refine ⟨d, ⟨(d.emit .empty).2.steps⟩, s, hd, ?_, ht.valid hv hne he, rfl, ht⟩
  rw [normalize, hnormalize, ok_bind, ht.steps_eq]
  rfl

/-- The normal form is a complete invariant of the root derivation up to a bijection of its
free variables, and normalizing it again changes nothing. -/
theorem normalForm_complete (c c' : ProofCertificate) (hv : c.Valid) (hv' : c'.Valid) :
    ∃ d d' n n', Unfolds c.steps (c.steps.length - 1) d ∧
      Unfolds c'.steps (c'.steps.length - 1) d' ∧
      c.intoUncheckedNormalForm = .ok n ∧ c'.intoUncheckedNormalForm = .ok n' ∧
      (n = n' ↔ ∃ f : FreeVariable → FreeVariable,
        Set.BijOn f {v | v ∈ d.occurrences} {v | v ∈ d'.occurrences} ∧
          d.mapFreeVariables f = d') ∧
      n.certificate.Valid ∧ n.certificate.intoUncheckedNormalForm = .ok n := by
  obtain ⟨d, n, -, hd, hn, hnv, hns, -⟩ := normalize_eq_ok hv
  obtain ⟨d', n', -, hd', hn', -, hns', -⟩ := normalize_eq_ok hv'
  obtain ⟨d₂, n₂, -, hd₂, hn₂, -, hns₂, -⟩ := normalize_eq_ok hnv
  have hroot : Unfolds n.steps (n.steps.length - 1) (d.mapFreeVariables (name (d.emit .empty).2.seen)) := by
    rw [hns]
    exact d.unfolds_root
  have hagain : n₂ = n := by
    apply ProofCertificate.ext
    rw [hns₂, hns, hd₂.unique hroot]
    exact Derivation.steps_emit_mapFreeVariables d.name_injOn_emit
  refine ⟨d, d', ⟨n⟩, ⟨n'⟩, hd, hd', ?_, ?_, ?_, hnv, ?_⟩
  · rw [ProofCertificate.intoUncheckedNormalForm, hn]
    rfl
  · rw [ProofCertificate.intoUncheckedNormalForm, hn']
    rfl
  · rw [ProofNormalForm.mk.injEq, ProofCertificate.ext_iff, hns, hns']
    exact Derivation.steps_emit_eq_iff d d'
  · rw [ProofCertificate.intoUncheckedNormalForm, hn₂, hagain]
    rfl

/-- An unreachable step and another name do not change the normal form. -/
theorem normalForm_complete_reflexivity :
    ∃ n, ProofCertificate.intoUncheckedNormalForm
        ⟨[.equalityReflexivity ⟨3⟩, .generalization 0 ⟨3⟩]⟩ = .ok n ∧
      ProofCertificate.intoUncheckedNormalForm
        ⟨[.equalityReflexivity ⟨9⟩, .equalityReflexivity ⟨4⟩, .generalization 1 ⟨4⟩]⟩ = .ok n := by
  let c : ProofCertificate := ⟨[.equalityReflexivity ⟨3⟩, .generalization 0 ⟨3⟩]⟩
  let c' : ProofCertificate :=
    ⟨[.equalityReflexivity ⟨9⟩, .equalityReflexivity ⟨4⟩, .generalization 1 ⟨4⟩]⟩
  have hnew : ProofCertificate.new c.steps = .ok c := rfl
  have hnew' : ProofCertificate.new c'.steps = .ok c' := rfl
  have hv : c.Valid := (ProofCertificate.new_eq_ok.mp hnew).1
  have hv' : c'.Valid := (ProofCertificate.new_eq_ok.mp hnew').1
  obtain ⟨d, d', n, n', hd, hd', hn, hn', hiff, -, -⟩ := normalForm_complete c c' hv hv'
  obtain rfl : d = .generalization (.leaf (.equalityReflexivity ⟨3⟩) rfl) ⟨3⟩ :=
    hd.unique (.generalization rfl (.leaf rfl rfl))
  obtain rfl : d' = .generalization (.leaf (.equalityReflexivity ⟨4⟩) rfl) ⟨4⟩ :=
    hd'.unique (.generalization rfl (.leaf rfl rfl))
  have hsame : n = n' := by
    refine hiff.mpr ⟨fun _ => ⟨4⟩, ⟨?_, ?_, ?_⟩, rfl⟩
    · intro v _
      simp [Derivation.occurrences]
    · intro v hv w hw _
      simp only [Derivation.occurrences, ProofStep.occurrences, ProofStep.fields,
        StepField.occurrences, List.flatMap_cons, List.flatMap_nil, List.append_nil,
        List.mem_append, List.mem_singleton, or_self, Set.mem_ofPred_eq] at hv hw
      rw [hv, hw]
    · intro w hw
      simp only [Derivation.occurrences, ProofStep.occurrences, ProofStep.fields,
        StepField.occurrences, List.flatMap_cons, List.flatMap_nil, List.append_nil,
        List.mem_append, List.mem_singleton, or_self, Set.mem_ofPred_eq] at hw
      exact ⟨⟨3⟩, by simp [Derivation.occurrences], hw.symm⟩
  exact ⟨n, hn, hsame ▸ hn'⟩

end NormalForm
end Naome
