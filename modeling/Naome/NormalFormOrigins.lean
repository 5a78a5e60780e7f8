import Naome.NormalFormSpec

/-!
# Origins of normalized steps

Which source steps the normalizer visits, where it maps them, and which names it hands out.
-/
namespace Naome
open LocallyNameless FirstOccurrence Outcome ProofCodec VariableNumbering

/-- Step `p` refers to step `r`. -/
def Cites (steps : List ProofStep) (p r : ℕ) : Prop :=
  ∃ step, steps[p]? = some step ∧ r ∈ step.references

/-- The last step depends on this step. -/
def ProofCertificate.Reachable (c : ProofCertificate) (p : ℕ) : Prop :=
  Relation.ReflTransGen (Cites c.steps) (c.steps.length - 1) p

/-- The renaming that a numbering stands for. -/
def VariableNumbering.rename (s : VariableNumbering) (v : FreeVariable) : FreeVariable :=
  (s.identifiers[v]?).getD v

theorem VariableNumbering.rename_eq {seen : List FreeVariable} {s : VariableNumbering}
    (h : Represents seen s) {v : FreeVariable} (hv : v ∈ seen) : s.rename v = name seen v := by
  rw [rename, h.2.2, if_pos hv, Option.getD_some]

namespace Emission

/-- Every name that was handed out occurs in an emitted step. -/
def Covers (e : Emission) : Prop :=
  ∀ v ∈ e.seen, ∃ step ∈ e.steps, name e.seen v ∈ step.occurrences

theorem covers_push {e : Emission} (h : e.Covers) {vs : List FreeVariable}
    {step : (FreeVariable → FreeVariable) → ProofStep}
    (hstep : ∀ g, (step g).occurrences = vs.map g) : (e.push vs step).2.Covers := by
  intro v hv
  rcases mem_seeAll.mp hv with hold | hnew
  · obtain ⟨t, ht, hname⟩ := h v hold
    refine ⟨t, mem_see.mpr (.inl ht), ?_⟩
    rw [name_stable (extends_push e vs step).1 hold]
    exact hname
  · refine ⟨_, mem_see.mpr (.inr rfl), ?_⟩
    rw [hstep]
    exact List.mem_map_of_mem hnew

end Emission

theorem Derivation.covers_emit (d : Derivation) {e : Emission} (h : e.Covers) :
    (d.emit e).2.Covers := by
  induction d generalizing e with
  | leaf step hr => exact Emission.covers_push h fun g => step.occurrences_mapFreeVariables g
  | modusPonens a b iha ihb => exact Emission.covers_push (ihb (iha h)) fun g => rfl
  | generalization a v ih => exact Emission.covers_push (ih h) fun g => rfl

namespace NormalForm

variable {c : ProofCertificate} {s s' : Normalizer} {e : Emission}

/-- What every turn keeps holds at the end of the traversal. -/
theorem traverse_induct {P : Normalizer → List Visit → Prop}
    (hturn : ∀ s visit traversal s' pushed, P s (visit :: traversal) →
      visitNext s visit = .ok (s', pushed) → P s' (pushed ++ traversal))
    {fuel : ℕ} {traversal : List Visit} (hstart : P s traversal)
    (h : traverse fuel s traversal = .ok s') : P s' [] := by
  induction fuel generalizing s traversal with
  | zero =>
    cases traversal with
    | nil =>
      cases h
      exact hstart
    | cons visit traversal => cases h
  | succ fuel ih =>
    cases traversal with
    | nil =>
      cases h
      exact hstart
    | cons visit traversal =>
      simp only [traverse, bind_eq_ok, Prod.exists] at h
      obtain ⟨t, pushed, hnext, hrest⟩ := h
      exact ih (hturn s visit traversal t pushed hstart hnext) hrest

/-- Interning a step only settles its own position. -/
theorem intern_indices {position : ℕ} {step : ProofStep} {key : List UInt8}
    (h : s.intern position step key = .ok s') :
    s'.source = s.source ∧
      ∃ i, s'.normalizedIndices = s.normalizedIndices.set position (some i) := by
  unfold Normalizer.intern at h
  split at h
  · cases h
    exact ⟨rfl, _, rfl⟩
  · simp only [bind_eq_ok, pure_eq_ok] at h
    obtain ⟨-, -, rfl⟩ := h
    exact ⟨rfl, _, rfl⟩

/-- A step that can be taken is in the source. -/
theorem taken_eq_ok {position : ℕ} {step : ProofStep} :
    (orError .panic (s.source[position]?.bind id) : CodecM ProofStep) = .ok step ↔
      s.source[position]? = some (some step) := by
  simp [Option.bind_eq_some_iff]

/-- A step is taken after everything it refers to was settled. -/
theorem exitStep_indices {position : ℕ} (h : exitStep s position = .ok s') :
    ∃ step step' i, s.source[position]? = some (some step) ∧
      normalizeReferences s.normalizedIndices step = .ok step' ∧
      s'.source = s.source.set position none ∧
      s'.normalizedIndices = s.normalizedIndices.set position (some i) := by
  simp only [exitStep, normalizeStep, bind_eq_ok, Prod.exists, pure_eq_ok, taken_eq_ok] at h
  obtain ⟨step, hstep, step₁, numbering, ⟨step₂, href, -⟩, key, -, hintern⟩ := h
  obtain ⟨hsource, i, hi⟩ := intern_indices hintern
  exact ⟨step, step₂, i, hstep, href, hsource, hi⟩

theorem normalizedReference_eq_ok {indices : List (Option ℕ)} {r i : ℕ} :
    normalizedReference indices r = .ok i ↔ indices[r]? = some (some i) := by
  unfold normalizedReference
  cases hget : indices[r]? with
  | none => simp [orError]
  | some index =>
    cases index with
    | none => simp [orError]
    | some j => simp [orError]

theorem settled_of_normalizeReferences {indices : List (Option ℕ)} {step step' : ProofStep}
    (h : normalizeReferences indices step = .ok step') :
    ∀ r ∈ step.references, ∃ i, indices[r]? = some (some i) := by
  intro r hr
  cases step with
  | modusPonens i j =>
    simp only [normalizeReferences, bind_eq_ok, normalizedReference_eq_ok] at h
    obtain ⟨i', hi, j', hj, -⟩ := h
    simp only [ProofStep.references, ProofStep.localReferences, Option.toList_some,
      List.mem_append, List.mem_singleton] at hr
    rcases hr with rfl | rfl
    · exact ⟨i', hi⟩
    · exact ⟨j', hj⟩
  | generalization i v =>
    simp only [normalizeReferences, bind_eq_ok, normalizedReference_eq_ok] at h
    obtain ⟨i', hi, -⟩ := h
    simp only [ProofStep.references, ProofStep.localReferences, Option.toList_some,
      Option.toList_none, List.append_nil, List.mem_singleton] at hr
    exact ⟨i', hr ▸ hi⟩
  | _ => simp [ProofStep.references, ProofStep.localReferences] at hr

/-- Only steps that the last one depends on are on the stack or settled, and a settled step refers
to settled steps. -/
structure Explores (c : ProofCertificate) (s : Normalizer) (traversal : List Visit) : Prop where
  settled : ∀ p i, s.normalizedIndices[p]? = some (some i) → c.Reachable p
  pending : ∀ visit ∈ traversal, c.Reachable visit.position
  closed : ∀ p i r, s.normalizedIndices[p]? = some (some i) → Cites c.steps p r →
    ∃ j, s.normalizedIndices[r]? = some (some j)
  source : ∀ (p : ℕ) (step : ProofStep), s.source[p]? = some (some step) →
    c.steps[p]? = some step

theorem Explores.enter {traversal : List Visit} {position : ℕ} {pushed : List Visit}
    (h : Explores c s (.enter position :: traversal))
    (hpushed : enterStep s position = .ok pushed) : Explores c s (pushed ++ traversal) := by
  refine ⟨h.settled, ?_, h.closed, h.source⟩
  have hreach := h.pending (.enter position) List.mem_cons_self
  simp only [enterStep, bind_eq_ok, pure_eq_ok, taken_eq_ok] at hpushed
  obtain ⟨step, hstep, rfl⟩ := hpushed
  have hget := h.source position step hstep
  intro visit hvisit
  simp only [List.mem_append, List.mem_map, List.mem_singleton] at hvisit
  rcases hvisit with (⟨r, hr, rfl⟩ | rfl) | hvisit
  · exact hreach.tail ⟨step, hget, hr⟩
  · exact hreach
  · exact h.pending visit (List.mem_cons_of_mem _ hvisit)

theorem Explores.exit {traversal : List Visit} {position : ℕ}
    (h : Explores c s (.exit position :: traversal))
    (hexit : exitStep s position = .ok s') : Explores c s' traversal := by
  obtain ⟨step, step', i, hsource, href, htaken, hindices⟩ := exitStep_indices hexit
  have hstep := h.source position step hsource
  have hreach := h.pending (.exit position) List.mem_cons_self
  have hgrow : ∀ r : ℕ, (∃ j, s.normalizedIndices[r]? = some (some j)) →
      ∃ j, s'.normalizedIndices[r]? = some (some j) := by
    rintro r ⟨j, hj⟩
    rw [hindices]
    by_cases hr : position = r
    · subst hr
      exact ⟨i, List.getElem?_set_self (List.getElem?_eq_some_iff.mp hj).1⟩
    · exact ⟨j, by rw [List.getElem?_set_ne hr, hj]⟩
  refine ⟨?_, fun visit hvisit => h.pending visit (List.mem_cons_of_mem _ hvisit), ?_, ?_⟩
  · intro p j hp
    by_cases hpos : position = p
    · exact hpos ▸ hreach
    · rw [hindices, List.getElem?_set_ne hpos] at hp
      exact h.settled p j hp
  · intro p j r hp hcites
    by_cases hpos : position = p
    · subst hpos
      obtain ⟨t, ht, hr⟩ := hcites
      rw [hstep] at ht
      cases ht
      exact hgrow r (settled_of_normalizeReferences href r hr)
    · rw [hindices, List.getElem?_set_ne hpos] at hp
      exact hgrow r (h.closed p j r hp hcites)
  · intro p t hp
    rw [htaken, List.getElem?_set] at hp
    split_ifs at hp
    · cases hp
    · exact h.source p t hp

theorem Explores.turn {visit : Visit} {traversal pushed : List Visit}
    (h : Explores c s (visit :: traversal))
    (hnext : visitNext s visit = .ok (s', pushed)) : Explores c s' (pushed ++ traversal) := by
  simp only [visitNext, bind_eq_ok] at hnext
  obtain ⟨index, -, hnext⟩ := hnext
  split_ifs at hnext with hindex
  · cases hnext
    exact ⟨h.settled, fun v hv => h.pending v (List.mem_cons_of_mem _ hv), h.closed, h.source⟩
  · cases visit with
    | enter position =>
      simp only [bind_eq_ok, pure_eq_ok, Prod.mk.injEq] at hnext
      obtain ⟨visits, henter, rfl, rfl⟩ := hnext
      exact h.enter henter
    | exit position =>
      simp only [bind_eq_ok, pure_eq_ok, Prod.mk.injEq] at hnext
      obtain ⟨t, hexit, rfl, rfl⟩ := hnext
      exact h.exit hexit

theorem explores_of_normalize (h : normalizeWithStepOrigins c = .ok s) : Explores c s [] := by
  simp only [normalizeWithStepOrigins, bind_eq_ok] at h
  obtain ⟨-, -, htraverse⟩ := h
  refine traverse_induct (P := Explores c) (fun s visit traversal s' pushed hs => hs.turn) ?_ htraverse
  refine ⟨?_, ?_, ?_, ?_⟩
  · intro p i hp
    simp [List.getElem?_replicate] at hp
  · intro visit hvisit
    rw [List.mem_singleton] at hvisit
    subst hvisit
    exact .refl
  · intro p i r hp
    simp [List.getElem?_replicate] at hp
  · intro p step hp
    simpa [Option.map_eq_some_iff] using hp

/-- Exactly the steps that the last one depends on are settled. -/
theorem Explores.settled_iff (h : Explores c s [])
    (hroot : ∃ i, s.normalizedIndices[c.steps.length - 1]? = some (some i)) (p : ℕ) :
    (∃ i, s.normalizedIndices[p]? = some (some i)) ↔ c.Reachable p := by
  constructor
  · rintro ⟨i, hi⟩
    exact h.settled p i hi
  · intro hp
    induction hp with
    | refl => exact hroot
    | tail _ hcites ih =>
      obtain ⟨i, hi⟩ := ih
      exact h.closed _ i _ hi hcites

theorem normalizeReferences_leaf {indices : List (Option ℕ)} {step : ProofStep}
    (h : step.references = []) : normalizeReferences indices step = .ok step := by
  cases step with
  | modusPonens i j | generalization i v =>
    simp [ProofStep.references, ProofStep.localReferences] at h
  | _ => rfl

theorem Tracks.rename_step (ht : Tracks c s e) {step : ProofStep}
    (h : ∀ v ∈ step.occurrences, v ∈ e.seen) :
    step.mapFreeVariables s.numbering.rename = step.mapFreeVariables (name e.seen) :=
  ProofStep.mapFreeVariables_congr fun v hv => rename_eq ht.represents (h v hv)

/-- A derivation that adds nothing is where its last step was settled. -/
theorem Tracks.index_of_settled (ht : Tracks c s e) {p : ℕ} {d : Derivation}
    (hd : Unfolds c.steps p d) (hp : ∃ i, s.normalizedIndices[p]? = some (some i)) :
    s.normalizedIndices[p]? = some (some (d.emit e).1) := by
  obtain ⟨i, hi⟩ := hp
  obtain ⟨d', hd', hemit⟩ := ht.settled p i hi
  rw [hd'.unique hd] at hemit
  rw [hi, hemit]

/-- A settled step stands, with its references and variables renamed, where it was mapped. -/
theorem Tracks.content (ht : Tracks c s e) (hexplores : Explores c s []) {p i : ℕ}
    {step : ProofStep} (hp : s.normalizedIndices[p]? = some (some i))
    (hstep : c.steps[p]? = some step) :
    ∃ step', normalizeReferences s.normalizedIndices step = .ok step' ∧
      s.normalizedSteps[i]? = some (step'.mapFreeVariables s.numbering.rename) := by
  obtain ⟨d, hd, hemit⟩ := ht.settled p i hp
  rw [ht.steps_eq]
  cases hd with
  | leaf hget hr =>
    rw [hstep] at hget
    cases hget
    refine ⟨step, normalizeReferences_leaf hr, ?_⟩
    have hat := Emission.getElem?_push e step.occurrences fun g => step.mapFreeVariables g
    have hseen : ∀ v ∈ step.occurrences, v ∈ (e.push step.occurrences fun g =>
        step.mapFreeVariables g).2.seen := fun v hv => mem_seeAll.mpr (.inr hv)
    change e.push step.occurrences (fun g => step.mapFreeVariables g) = (i, e) at hemit
    rw [hemit] at hat hseen
    rw [hat, ht.rename_step hseen]
  | @modusPonens _ j k a b hget ha hb =>
    rw [hstep] at hget
    cases hget
    have hlast := Emission.extends_push (b.emit (a.emit e).2).2 []
      fun _ => .modusPonens (a.emit e).1 (b.emit (a.emit e).2).1
    have hat := Emission.getElem?_push (b.emit (a.emit e).2).2 []
      fun _ => .modusPonens (a.emit e).1 (b.emit (a.emit e).2).1
    change (b.emit (a.emit e).2).2.push [] (fun _ =>
      .modusPonens (a.emit e).1 (b.emit (a.emit e).2).1) = (i, e) at hemit
    rw [hemit] at hlast hat
    have ha' : (a.emit e).2 = e :=
      ((b.extends_emit _).trans hlast).antisymm (a.extends_emit e)
    rw [ha'] at hat
    have hj := ht.index_of_settled ha (hexplores.closed p i j hp
      ⟨_, hstep, by simp [ProofStep.references, ProofStep.localReferences]⟩)
    have hk := ht.index_of_settled hb (hexplores.closed p i k hp
      ⟨_, hstep, by simp [ProofStep.references, ProofStep.localReferences]⟩)
    refine ⟨.modusPonens (a.emit e).1 (b.emit e).1, ?_, hat⟩
    rw [normalizeReferences, normalizedReference_eq_ok.2 hj, ok_bind,
      normalizedReference_eq_ok.2 hk]
    rfl
  | @generalization _ j v a hget ha =>
    rw [hstep] at hget
    cases hget
    have hlast := Emission.extends_push (a.emit e).2 [v] fun g => .generalization (a.emit e).1 (g v)
    have hat := Emission.getElem?_push (a.emit e).2 [v] fun g => .generalization (a.emit e).1 (g v)
    have hv : v ∈ ((a.emit e).2.push [v] fun g => .generalization (a.emit e).1 (g v)).2.seen :=
      mem_seeAll.mpr (.inr (List.mem_singleton_self v))
    change (a.emit e).2.push [v] (fun g => .generalization (a.emit e).1 (g v)) = (i, e) at hemit
    rw [hemit] at hlast hat hv
    have hj := ht.index_of_settled ha (hexplores.closed p i j hp
      ⟨_, hstep, by simp [ProofStep.references, ProofStep.localReferences]⟩)
    refine ⟨.generalization (a.emit e).1 v, ?_, ?_⟩
    · rw [normalizeReferences, normalizedReference_eq_ok.2 hj]
      rfl
    · rw [hat]
      exact congrArg (fun w => some (ProofStep.generalization (a.emit e).1 w))
        (rename_eq ht.represents hv).symm

/-- The numbering of a traversal is an injection onto the first identifiers. -/
theorem Tracks.numbering_bijective (ht : Tracks c s e) (hv : c.Valid) :
    (∀ v v' w : FreeVariable, s.numbering.identifiers[v]? = some w →
      s.numbering.identifiers[v']? = some w → v = v') ∧
    ∀ i : ℕ, (∃ v w : FreeVariable, s.numbering.identifiers[v]? = some w ∧ w.identifier.toNat = i) ↔
      i < e.seen.length := by
  obtain ⟨hnodup, -, hget⟩ := ht.represents
  have hshort := ht.length_seen_lt hv
  have hnumber : ∀ v ∈ e.seen, (name e.seen v).identifier.toNat = e.seen.idxOf v := by
    intro v hmem
    have hlt := List.idxOf_lt_length_iff.mpr hmem
    exact UInt32.toNat_ofNat_of_lt' (by simp [UInt32.size]; omega)
  have hsome : ∀ v w : FreeVariable, s.numbering.identifiers[v]? = some w ↔ v ∈ e.seen ∧ name e.seen v = w := by
    intro v w
    rw [hget]
    split_ifs with hmem
    · simp [hmem]
    · simp [hmem]
  constructor
  · intro v v' w hw hw'
    obtain ⟨hmem, rfl⟩ := (hsome v w).mp hw
    obtain ⟨hmem', hsame⟩ := (hsome v' _).mp hw'
    exact (name_injOn hnodup hmem' hmem hsame).symm
  · intro i
    constructor
    · rintro ⟨v, w, hw, rfl⟩
      obtain ⟨hmem, rfl⟩ := (hsome v w).mp hw
      rw [hnumber v hmem]
      exact List.idxOf_lt_length_iff.mpr hmem
    · intro hi
      have hmem := List.getElem_mem hi
      refine ⟨e.seen[i], _, (hsome _ _).mpr ⟨hmem, rfl⟩, ?_⟩
      rw [hnumber _ hmem]
      exact hnodup.idxOf_getElem i hi

/-- Normalization is total and keeps the limits of a certificate: exactly the steps that the last
one depends on are mapped, each to its renamed content, and the variable map is an injection onto
the first identifiers, all of which occur. -/
theorem normalization_total (steps : List ProofStep) (c : ProofCertificate)
    (hnew : ProofCertificate.new steps = .ok c) :
    ∃ s k, normalizeWithStepOrigins c = .ok s ∧
      ProofCertificate.new s.normalizedSteps = .ok ⟨s.normalizedSteps⟩ ∧
      s.normalizedIndices.length = c.steps.length ∧
      (∀ (p : ℕ) (step : ProofStep), c.steps[p]? = some step →
        (c.Reachable p → ∃ i step', s.normalizedIndices[p]? = some (some i) ∧
          i < s.normalizedSteps.length ∧
          normalizeReferences s.normalizedIndices step = .ok step' ∧
          s.normalizedSteps[i]? = some (step'.mapFreeVariables s.numbering.rename)) ∧
        (¬ c.Reachable p → s.normalizedIndices[p]? = some none)) ∧
      (∀ v v' w : FreeVariable, s.numbering.identifiers[v]? = some w →
        s.numbering.identifiers[v']? = some w → v = v') ∧
      (∀ i : ℕ, (∃ v w : FreeVariable, s.numbering.identifiers[v]? = some w ∧
        w.identifier.toNat = i) ↔ i < k) ∧
      ∀ w : FreeVariable, w.identifier.toNat < k → ∃ step ∈ s.normalizedSteps, w ∈ step.occurrences := by
  have hv := (ProofCertificate.new_eq_ok.mp hnew).1
  obtain ⟨d, s, turns, hd, hnormalize, hvisit⟩ := exists_rootVisit hv
  have ht := hvisit.tracks
  have hexplores := explores_of_normalize hnormalize
  have hsettled := hexplores.settled_iff ⟨_, hvisit.index_eq⟩
  obtain ⟨hinjective, hrange⟩ := ht.numbering_bijective hv
  have hvalid : (⟨s.normalizedSteps⟩ : ProofCertificate).Valid := by
    have hne : (d.emit .empty).2.steps ≠ [] := by
      have := d.lt_length_emit .empty
      exact List.ne_nil_of_length_pos (by omega)
    rw [ht.steps_eq]
    exact ht.valid hv hne (d.earlier_emit (by simp [Earlier, Emission.empty]))
  refine ⟨s, (d.emit .empty).2.seen.length, hnormalize,
    ProofCertificate.new_eq_ok.mpr ⟨hvalid, rfl⟩, ht.length_eq, ?_, hinjective, hrange, ?_⟩
  · intro p step hstep
    constructor
    · intro hreach
      obtain ⟨i, hi⟩ := (hsettled p).mpr hreach
      obtain ⟨step', href, hcontent⟩ := ht.content hexplores hi hstep
      exact ⟨i, step', hi, (List.getElem?_eq_some_iff.mp hcontent).1, href, hcontent⟩
    · intro hreach
      have hlt := (List.getElem?_eq_some_iff.mp hstep).1
      rw [← ht.length_eq] at hlt
      rw [List.getElem?_eq_getElem hlt]
      cases hget : s.normalizedIndices[p] with
      | none => rfl
      | some i =>
        refine absurd ((hsettled p).mp ⟨i, ?_⟩) hreach
        rw [List.getElem?_eq_getElem hlt, hget]
  · intro w hw
    obtain ⟨v, w', hv', hnumber⟩ := (hrange _).mpr hw
    have hsame : w' = w := FreeVariable.identifier_injective (UInt32.toNat_inj.mp hnumber)
    rw [hsame, ht.represents.2.2] at hv'
    split_ifs at hv' with hmem
    obtain ⟨step, hstep, hocc⟩ := d.covers_emit (e := .empty) (by simp [Emission.Covers, Emission.empty]) v hmem
    cases hv'
    exact ⟨step, ht.steps_eq ▸ hstep, hocc⟩

/-- The first step is not reachable, and the variable of the others gets the number zero. -/
theorem normalization_total_reflexivity : ∃ s,
    normalizeWithStepOrigins
        ⟨[.equalityReflexivity ⟨9⟩, .equalityReflexivity ⟨4⟩, .generalization 1 ⟨4⟩]⟩ = .ok s ∧
      s.normalizedIndices = [none, some 0, some 1] ∧
      ProofCertificate.new s.normalizedSteps = .ok ⟨s.normalizedSteps⟩ := by
  obtain ⟨s, k, hnormalize, hnew, hlength, -⟩ := normalization_total
    [.equalityReflexivity ⟨9⟩, .equalityReflexivity ⟨4⟩, .generalization 1 ⟨4⟩] _ rfl
  refine ⟨s, hnormalize, ?_, hnew⟩
  have hindices : ∀ t, normalizeWithStepOrigins
      ⟨[.equalityReflexivity ⟨9⟩, .equalityReflexivity ⟨4⟩, .generalization 1 ⟨4⟩]⟩ = .ok t →
      t.normalizedIndices = [none, some 0, some 1] := by
    intro t h
    cases h
    rfl
  exact hindices s hnormalize

end NormalForm
end Naome
