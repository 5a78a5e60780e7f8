import Naome.StepRenaming

/-!
# Derivation trees and their emission

Unfolding a step gives the tree of the derivation it ends. Emitting a tree numbers its
variables and its steps by first occurrence in dependency order; this is what normalizing
a certificate computes, told without positions, sharing or a stack.
-/
namespace Naome
open LocallyNameless FirstOccurrence VariableNumbering

/-- The derivation that a step ends, with its premises unfolded. -/
inductive Derivation
  | leaf (step : ProofStep) (isLeaf : step.references = [])
  | modusPonens (premise implication : Derivation)
  | generalization (premise : Derivation) (v : FreeVariable)

namespace Derivation

def mapFreeVariables (g : FreeVariable → FreeVariable) : Derivation → Derivation
  | .leaf step isLeaf => .leaf (step.mapFreeVariables g) (by
      rw [ProofStep.references_mapFreeVariables, isLeaf])
  | .modusPonens a b => .modusPonens (a.mapFreeVariables g) (b.mapFreeVariables g)
  | .generalization a v => .generalization (a.mapFreeVariables g) (g v)

/-- The free variables of the steps of a derivation in dependency order. -/
def occurrences : Derivation → List FreeVariable
  | .leaf step _ => step.occurrences
  | .modusPonens a b => a.occurrences ++ b.occurrences
  | .generalization a v => a.occurrences ++ [v]

def size : Derivation → ℕ
  | .leaf _ _ => 1
  | .modusPonens a b => a.size + b.size + 1
  | .generalization a _ => a.size + 1

variable {g h : FreeVariable → FreeVariable}

@[simp] theorem size_mapFreeVariables (g : FreeVariable → FreeVariable) (d : Derivation) :
    (d.mapFreeVariables g).size = d.size := by
  induction d with
  | leaf step hr => rfl
  | modusPonens a b iha ihb => simp only [mapFreeVariables, size, iha, ihb]
  | generalization a v ih => simp only [mapFreeVariables, size, ih]

theorem mapFreeVariables_congr {d : Derivation} (hd : ∀ v ∈ d.occurrences, g v = h v) :
    d.mapFreeVariables g = d.mapFreeVariables h := by
  induction d with
  | leaf step hr => simp only [mapFreeVariables, ProofStep.mapFreeVariables_congr hd]
  | modusPonens a b iha ihb =>
    have ha := iha fun v hv => hd v (List.mem_append_left _ hv)
    have hb := ihb fun v hv => hd v (List.mem_append_right _ hv)
    rw [mapFreeVariables, mapFreeVariables, ha, hb]
  | generalization a v ih =>
    have ha := ih fun w hw => hd w (List.mem_append_left _ hw)
    have hv := hd v (by simp [occurrences])
    rw [mapFreeVariables, mapFreeVariables, ha, hv]

theorem mapFreeVariables_id (d : Derivation) : d.mapFreeVariables id = d := by
  induction d with
  | leaf step hr => simp only [mapFreeVariables, ProofStep.mapFreeVariables_id]
  | modusPonens a b iha ihb => rw [mapFreeVariables, iha, ihb]
  | generalization a v ih => rw [mapFreeVariables, ih, id]

theorem mapFreeVariables_comp (g h : FreeVariable → FreeVariable) (d : Derivation) :
    (d.mapFreeVariables g).mapFreeVariables h = d.mapFreeVariables (h ∘ g) := by
  induction d with
  | leaf step hr => simp only [mapFreeVariables, ProofStep.mapFreeVariables_comp]
  | modusPonens a b iha ihb => simp only [mapFreeVariables, iha, ihb]
  | generalization a v ih => simp only [mapFreeVariables, ih, Function.comp_apply]

theorem occurrences_mapFreeVariables (g : FreeVariable → FreeVariable) (d : Derivation) :
    (d.mapFreeVariables g).occurrences = d.occurrences.map g := by
  induction d with
  | leaf step hr => exact step.occurrences_mapFreeVariables g
  | modusPonens a b iha ihb => simp only [mapFreeVariables, occurrences, iha, ihb, List.map_append]
  | generalization a v ih =>
    simp only [mapFreeVariables, occurrences, ih, List.map_append, List.map_singleton]

end Derivation

/-- The derivation at a position of a list of steps. -/
inductive Unfolds (steps : List ProofStep) : ℕ → Derivation → Prop
  | leaf {p : ℕ} {step : ProofStep} (hp : steps[p]? = some step) (hr : step.references = []) :
    Unfolds steps p (.leaf step hr)
  | modusPonens {p i j : ℕ} {a b : Derivation} (hp : steps[p]? = some (.modusPonens i j))
    (ha : Unfolds steps i a) (hb : Unfolds steps j b) : Unfolds steps p (.modusPonens a b)
  | generalization {p i : ℕ} {v : FreeVariable} {a : Derivation}
    (hp : steps[p]? = some (.generalization i v)) (ha : Unfolds steps i a) :
    Unfolds steps p (.generalization a v)

namespace Unfolds

variable {steps later : List ProofStep} {p : ℕ} {d d' : Derivation}

theorem lt_length (h : Unfolds steps p d) : p < steps.length := by
  cases h with
  | leaf hp | modusPonens hp | generalization hp => exact (List.getElem?_eq_some_iff.mp hp).1

/-- A step has one derivation. -/
theorem unique (h : Unfolds steps p d) (h' : Unfolds steps p d') : d = d' := by
  induction h generalizing d' with
  | leaf hp hr =>
    cases h' with
    | leaf hp' hr' =>
      rw [hp] at hp'
      cases hp'
      rfl
    | modusPonens hp' | generalization hp' =>
      rw [hp] at hp'
      cases hp'
      simp [ProofStep.references, ProofStep.localReferences] at hr
  | modusPonens hp ha hb iha ihb =>
    cases h' with
    | leaf hp' hr' =>
      rw [hp] at hp'
      cases hp'
      simp [ProofStep.references, ProofStep.localReferences] at hr'
    | modusPonens hp' ha' hb' =>
      rw [hp] at hp'
      cases hp'
      rw [iha ha', ihb hb']
    | generalization hp' =>
      rw [hp] at hp'
      cases hp'
  | generalization hp ha ih =>
    cases h' with
    | leaf hp' hr' =>
      rw [hp] at hp'
      cases hp'
      simp [ProofStep.references, ProofStep.localReferences] at hr'
    | modusPonens hp' =>
      rw [hp] at hp'
      cases hp'
    | generalization hp' ha' =>
      rw [hp] at hp'
      cases hp'
      rw [ih ha']

theorem of_isPrefix (hl : steps <+: later) (h : Unfolds steps p d) : Unfolds later p d := by
  have hget : ∀ {p : ℕ} {step : ProofStep}, steps[p]? = some step → later[p]? = some step := by
    intro p step hp
    obtain ⟨tail, rfl⟩ := hl
    rw [List.getElem?_append_left (List.getElem?_eq_some_iff.mp hp).1, hp]
  induction h with
  | leaf hp hr => exact .leaf (hget hp) hr
  | modusPonens hp _ _ iha ihb => exact .modusPonens (hget hp) iha ihb
  | generalization hp _ ih => exact .generalization (hget hp) ih

/-- Steps whose references are earlier unfold at every position. -/
theorem exists_of_earlier (he : ProofCodec.Earlier 0 steps) (hp : p < steps.length) :
    ∃ d, Unfolds steps p d := by
  induction p using Nat.strong_induction_on with
  | _ p ih =>
    have hget : steps[p]? = some steps[p] := List.getElem?_eq_getElem hp
    have hearlier : ∀ r ∈ steps[p].references, r < p :=
      he (steps[p], p) (List.mk_mem_zipIdx_iff_getElem?.mpr hget)
    cases hs : steps[p] with
    | modusPonens i j =>
      simp only [hs, ProofStep.references, ProofStep.localReferences, Option.toList_some,
        List.mem_append, List.mem_singleton] at hearlier
      obtain ⟨a, ha⟩ := ih i (hearlier i (.inl rfl)) (by have := hearlier i (.inl rfl); omega)
      obtain ⟨b, hb⟩ := ih j (hearlier j (.inr rfl)) (by have := hearlier j (.inr rfl); omega)
      exact ⟨_, .modusPonens (hs ▸ hget) ha hb⟩
    | generalization i v =>
      simp only [hs, ProofStep.references, ProofStep.localReferences, Option.toList_some,
        Option.toList_none, List.append_nil, List.mem_singleton] at hearlier
      obtain ⟨a, ha⟩ := ih i (hearlier i rfl) (by have := hearlier i rfl; omega)
      exact ⟨_, .generalization (hs ▸ hget) ha⟩
    | _ =>
      have hr : steps[p].references = [] := by
        rw [hs]
        rfl
      exact ⟨_, .leaf hget hr⟩

end Unfolds

/-- Names and steps emitted so far, in order of first occurrence. -/
@[ext]
structure Emission where
  seen : List FreeVariable
  steps : List ProofStep

namespace Emission

def empty : Emission := ⟨[], []⟩

/-- A later emission extends an earlier one. -/
def Extends (e e' : Emission) : Prop := e.seen <+: e'.seen ∧ e.steps <+: e'.steps

theorem Extends.refl (e : Emission) : Extends e e := ⟨List.prefix_rfl, List.prefix_rfl⟩

theorem Extends.trans {e e' e'' : Emission} (h : Extends e e') (h' : Extends e' e'') :
    Extends e e'' := ⟨h.1.trans h'.1, h.2.trans h'.2⟩

theorem Extends.antisymm {e e' : Emission} (h : Extends e e') (h' : Extends e' e) : e = e' :=
  Emission.ext (h.1.eq_of_length_le h'.1.length_le) (h.2.eq_of_length_le h'.2.length_le)

/-- Emits a step over variables `vs`, given under the final names. -/
def push (e : Emission) (vs : List FreeVariable) (step : (FreeVariable → FreeVariable) → ProofStep) :
    ℕ × Emission :=
  let seen := seeAll e.seen vs
  let steps := see e.steps (step (name seen))
  (steps.idxOf (step (name seen)), ⟨seen, steps⟩)

theorem extends_push (e : Emission) (vs : List FreeVariable)
    (step : (FreeVariable → FreeVariable) → ProofStep) : Extends e (e.push vs step).2 :=
  ⟨isPrefix_seeAll _ _, isPrefix_see _ _⟩

end Emission

/-- A step built from a renaming depends only on the variables `vs`. -/
def DependsOn (vs : List FreeVariable) (step : (FreeVariable → FreeVariable) → ProofStep) : Prop :=
  ∀ g h : FreeVariable → FreeVariable, (∀ v ∈ vs, g v = h v) → step g = step h

namespace Emission

variable {e e' : Emission} {vs : List FreeVariable}
  {step : (FreeVariable → FreeVariable) → ProofStep}

/-- What was pushed before is found again and changes nothing. -/
theorem push_of_extends (hstep : DependsOn vs step) (h : Extends (e.push vs step).2 e') :
    e'.push vs step = ((e.push vs step).1, e') := by
  obtain ⟨hseen, hsteps⟩ := h
  have hvs : ∀ v ∈ vs, v ∈ (e.push vs step).2.seen := fun v hv => mem_seeAll.mpr (.inr hv)
  have hseen' : seeAll e'.seen vs = e'.seen :=
    seeAll_of_subset fun v hv => hseen.subset (hvs v hv)
  have hname : step (name e'.seen) = step (name (e.push vs step).2.seen) :=
    hstep _ _ fun v hv => name_stable hseen (hvs v hv)
  have hmem : step (name (e.push vs step).2.seen) ∈ (e.push vs step).2.steps :=
    mem_see.mpr (.inr rfl)
  have hsee : see e'.steps (step (name e'.seen)) = e'.steps := by
    rw [hname, see, if_pos (hsteps.subset hmem)]
  have hidx : e'.steps.idxOf (step (name e'.seen)) = (e.push vs step).1 := by
    rw [hname, idxOf_of_isPrefix hsteps hmem]
    rfl
  simp only [push, hseen', hsee, hidx] at hidx ⊢

/-- The pushed step stands at the returned position. -/
theorem getElem?_push (e : Emission) (vs : List FreeVariable)
    (step : (FreeVariable → FreeVariable) → ProofStep) :
    (e.push vs step).2.steps[(e.push vs step).1]? = some (step (name (e.push vs step).2.seen)) := by
  have hmem : step (name (e.push vs step).2.seen) ∈ (e.push vs step).2.steps :=
    mem_see.mpr (.inr rfl)
  have hlt := List.idxOf_lt_length_iff.mpr hmem
  have hget : (e.push vs step).2.steps[(e.push vs step).2.steps.idxOf
      (step (name (e.push vs step).2.seen))]? = some (step (name (e.push vs step).2.seen)) := by
    rw [List.getElem?_eq_getElem hlt, List.getElem_idxOf hlt]
  exact hget

end Emission

namespace Derivation

/-- Emits a derivation, premises first, and returns the position of its last step. -/
def emit : Derivation → Emission → ℕ × Emission
  | .leaf step _, e => e.push step.occurrences fun g => step.mapFreeVariables g
  | .modusPonens a b, e =>
    let (i, e) := a.emit e
    let (j, e) := b.emit e
    e.push [] fun _ => .modusPonens i j
  | .generalization a v, e =>
    let (i, e) := a.emit e
    e.push [v] fun g => .generalization i (g v)

theorem dependsOn_leaf (step : ProofStep) :
    DependsOn step.occurrences fun g => step.mapFreeVariables g :=
  fun _ _ h => ProofStep.mapFreeVariables_congr h

theorem dependsOn_const (vs : List FreeVariable) (step : ProofStep) :
    DependsOn vs fun _ => step := fun _ _ _ => rfl

theorem dependsOn_generalization (i : ℕ) (v : FreeVariable) :
    DependsOn [v] fun g => .generalization i (g v) := by
  intro g h hv
  exact congrArg (ProofStep.generalization i) (hv v (List.mem_singleton_self v))

theorem extends_emit (d : Derivation) (e : Emission) : Emission.Extends e (d.emit e).2 := by
  induction d generalizing e with
  | leaf step hr => exact Emission.extends_push _ _ _
  | modusPonens a b iha ihb =>
    exact ((iha e).trans (ihb _)).trans (Emission.extends_push _ _ _)
  | generalization a v ih => exact (ih e).trans (Emission.extends_push _ _ _)

/-- An emitted derivation is found again in every later emission. -/
theorem emit_of_extends {d : Derivation} {e e' : Emission}
    (h : Emission.Extends (d.emit e).2 e') : d.emit e' = ((d.emit e).1, e') := by
  induction d generalizing e with
  | leaf step hr => exact Emission.push_of_extends (dependsOn_leaf step) h
  | modusPonens a b iha ihb =>
    have hpush := Emission.extends_push (b.emit (a.emit e).2).2 []
      fun _ => .modusPonens (a.emit e).1 (b.emit (a.emit e).2).1
    have hb := ihb (hpush.trans h)
    have ha := iha ((extends_emit b _).trans (hpush.trans h))
    simp only [emit, ha, hb]
    exact Emission.push_of_extends (dependsOn_const _ _) h
  | generalization a v ih =>
    have hpush := Emission.extends_push (a.emit e).2 [v] fun g => .generalization (a.emit e).1 (g v)
    have ha := ih (hpush.trans h)
    simp only [emit, ha]
    exact Emission.push_of_extends (dependsOn_generalization _ v) h

/-- The names of a derivation are among the emitted ones. -/
theorem seen_emit (d : Derivation) (e : Emission) :
    (d.emit e).2.seen = seeAll e.seen d.occurrences := by
  induction d generalizing e with
  | leaf step hr => rfl
  | modusPonens a b iha ihb =>
    rw [occurrences, seeAll_append, ← iha, ← ihb]
    rfl
  | generalization a v ih =>
    rw [occurrences, seeAll_append, ← ih]
    rfl

/-- The pushed step under the names of a later emission. -/
theorem getElem?_of_extends {vs : List FreeVariable}
    {step : (FreeVariable → FreeVariable) → ProofStep} {e e' : Emission}
    (hstep : DependsOn vs step) (h : Emission.Extends (e.push vs step).2 e') :
    e'.steps[(e.push vs step).1]? = some (step (name e'.seen)) := by
  have hget := Emission.getElem?_push e vs step
  have hvs : ∀ v ∈ vs, v ∈ (e.push vs step).2.seen := fun v hv => mem_seeAll.mpr (.inr hv)
  rw [hstep _ _ fun v hv => name_stable h.1 (hvs v hv), ← hget]
  obtain ⟨tail, htail⟩ := h.2
  rw [← htail, List.getElem?_append_left (List.getElem?_eq_some_iff.mp hget).1]

/-- The emitted steps unfold to the derivation under its new names. -/
theorem unfolds_emit {d : Derivation} {e e' : Emission}
    (h : Emission.Extends (d.emit e).2 e') :
    Unfolds e'.steps (d.emit e).1 (d.mapFreeVariables (name e'.seen)) := by
  induction d generalizing e with
  | leaf step hr => exact .leaf (getElem?_of_extends (dependsOn_leaf step) h) _
  | modusPonens a b iha ihb =>
    have hpush := Emission.extends_push (b.emit (a.emit e).2).2 []
      fun _ => .modusPonens (a.emit e).1 (b.emit (a.emit e).2).1
    have hb := ihb (hpush.trans h)
    have ha := iha ((extends_emit b _).trans (hpush.trans h))
    exact .modusPonens (getElem?_of_extends (dependsOn_const _ _) h) ha hb
  | generalization a v ih =>
    have hpush := Emission.extends_push (a.emit e).2 [v] fun g => .generalization (a.emit e).1 (g v)
    exact .generalization (getElem?_of_extends (dependsOn_generalization _ v) h)
      (ih (hpush.trans h))

/-- Every step unfolds to a derivation of at most `bound` steps. -/
def Bounded (bound : ℕ) (steps : List ProofStep) : Prop :=
  ∀ p < steps.length, ∃ t, Unfolds steps p t ∧ t.size ≤ bound

theorem bounded_nil (bound : ℕ) : Bounded bound [] := fun _ hp => absurd hp (Nat.not_lt_zero _)

/-- One more step leaves a bound if its own derivation meets it. -/
theorem bounded_push {bound : ℕ} {e : Emission} {vs : List FreeVariable}
    {step : (FreeVariable → FreeVariable) → ProofStep} {t : Derivation}
    (he : Bounded bound e.steps) (ht : Unfolds (e.push vs step).2.steps (e.push vs step).1 t)
    (hsize : t.size ≤ bound) : Bounded bound (e.push vs step).2.steps := by
  intro p hp
  by_cases hpe : p < e.steps.length
  · obtain ⟨u, hu, hub⟩ := he p hpe
    exact ⟨u, hu.of_isPrefix (Emission.extends_push e vs step).2, hub⟩
  · have hnew : step (name (seeAll e.seen vs)) ∉ e.steps := by
      intro hm
      have hsee : (e.push vs step).2.steps = e.steps := by
        simp only [Emission.push, see, if_pos hm]
      rw [hsee] at hp
      exact hpe hp
    have hsteps : (e.push vs step).2.steps = e.steps ++ [step (name (seeAll e.seen vs))] := by
      simp only [Emission.push, see, if_neg hnew]
    have hidx : (e.push vs step).1 = p := by
      rw [hsteps, List.length_append, List.length_singleton] at hp
      simp only [Emission.push, see, if_neg hnew]
      rw [List.idxOf_append_of_notMem hnew]
      simp only [List.idxOf_cons_self]
      omega
    exact ⟨t, hidx ▸ ht, hsize⟩

theorem bounded_emit {bound : ℕ} {d : Derivation} {e : Emission} (he : Bounded bound e.steps)
    (hd : d.size ≤ bound) : Bounded bound (d.emit e).2.steps := by
  have hroot : ∀ (d : Derivation) (e : Emission),
      Unfolds (d.emit e).2.steps (d.emit e).1 (d.mapFreeVariables (name (d.emit e).2.seen)) :=
    fun d e => unfolds_emit (.refl _)
  induction d generalizing e with
  | leaf step hr => exact bounded_push he (hroot (.leaf step hr) e) (by simpa using hd)
  | modusPonens a b iha ihb =>
    simp only [size] at hd
    have ha := iha he (by omega)
    have hb := ihb ha (by omega)
    exact bounded_push hb (hroot (.modusPonens a b) e) (by simp only [size_mapFreeVariables, size]; omega)
  | generalization a v ih =>
    simp only [size] at hd
    have ha := ih he (by omega)
    exact bounded_push ha (hroot (.generalization a v) e)
      (by simp only [size_mapFreeVariables, size]; omega)

/-- A step whose derivation is larger than all emitted ones is new. -/
theorem succ_push {bound : ℕ} {e : Emission} {vs : List FreeVariable}
    {step : (FreeVariable → FreeVariable) → ProofStep} {t : Derivation}
    (he : Bounded bound e.steps) (ht : Unfolds (e.push vs step).2.steps (e.push vs step).1 t)
    (hsize : bound < t.size) : (e.push vs step).1 + 1 = (e.push vs step).2.steps.length := by
  by_cases hm : step (name (seeAll e.seen vs)) ∈ e.steps
  · have hsteps : (e.push vs step).2.steps = e.steps := by
      simp only [Emission.push, see, if_pos hm]
    rw [hsteps] at ht
    obtain ⟨u, hu, hub⟩ := he _ ht.lt_length
    rw [hu.unique ht] at hub
    omega
  · simp only [Emission.push, see, if_neg hm, List.length_append, List.length_singleton]
    rw [List.idxOf_append_of_notMem hm]
    simp

theorem succ_emit {d : Derivation} {e : Emission} (he : Bounded (d.size - 1) e.steps) :
    (d.emit e).1 + 1 = (d.emit e).2.steps.length := by
  have hroot : Unfolds (d.emit e).2.steps (d.emit e).1
      (d.mapFreeVariables (name (d.emit e).2.seen)) := unfolds_emit (.refl _)
  cases d with
  | leaf step hr => exact succ_push he hroot (by simp [size])
  | modusPonens a b =>
    have hpos : a.size ≤ (modusPonens a b).size - 1 := by simp only [size]; omega
    have hb := bounded_emit (bounded_emit he hpos)
      (show b.size ≤ (modusPonens a b).size - 1 by simp only [size]; omega)
    exact succ_push hb hroot (by simp [size])
  | generalization a v =>
    have ha := bounded_emit he (show a.size ≤ (generalization a v).size - 1 by simp [size])
    exact succ_push ha hroot (by simp [size])

theorem earlier_concat {steps : List ProofStep} {step : ProofStep} :
    ProofCodec.Earlier 0 (steps ++ [step]) ↔
      ProofCodec.Earlier 0 steps ∧ ∀ r ∈ step.references, r < steps.length := by
  simp only [ProofCodec.Earlier, List.zipIdx_append, List.forall_mem_append, List.zipIdx_singleton,
    List.forall_mem_singleton, Nat.zero_add]

theorem lt_length_emit (d : Derivation) (e : Emission) :
    (d.emit e).1 < (d.emit e).2.steps.length := (unfolds_emit (.refl _)).lt_length

theorem earlier_push {e : Emission} {vs : List FreeVariable}
    {step : (FreeVariable → FreeVariable) → ProofStep} (he : ProofCodec.Earlier 0 e.steps)
    (hr : ∀ r ∈ (step (name (seeAll e.seen vs))).references, r < e.steps.length) :
    ProofCodec.Earlier 0 (e.push vs step).2.steps := by
  by_cases hm : step (name (seeAll e.seen vs)) ∈ e.steps
  · simpa only [Emission.push, see, if_pos hm] using he
  · simpa only [Emission.push, see, if_neg hm] using earlier_concat.2 ⟨he, hr⟩

theorem earlier_emit {d : Derivation} {e : Emission} (he : ProofCodec.Earlier 0 e.steps) :
    ProofCodec.Earlier 0 (d.emit e).2.steps := by
  induction d generalizing e with
  | leaf step hr =>
    refine earlier_push he ?_
    rw [ProofStep.references_mapFreeVariables, hr]
    simp
  | modusPonens a b iha ihb =>
    have ha := lt_length_emit a e
    have hb := lt_length_emit b (a.emit e).2
    have hab := (extends_emit b (a.emit e).2).2.length_le
    refine earlier_push (ihb (iha he)) ?_
    simp only [ProofStep.references, ProofStep.localReferences, Option.toList_some, List.mem_append,
      List.mem_singleton]
    rintro r (rfl | rfl) <;> omega
  | generalization a v ih =>
    have ha := lt_length_emit a e
    refine earlier_push (ih he) ?_
    simpa [ProofStep.references, ProofStep.localReferences] using ha

theorem push_map {f : FreeVariable → FreeVariable} {e : Emission} {vs : List FreeVariable}
    {step step' : (FreeVariable → FreeVariable) → ProofStep} (hstep : DependsOn vs step)
    (hstep' : ∀ g, step' g = step (g ∘ f))
    (hf : ∀ a ∈ e.seen ++ vs, ∀ b ∈ e.seen ++ vs, f a = f b → a = b) :
    Emission.push ⟨e.seen.map f, e.steps⟩ (vs.map f) step' =
      ((e.push vs step).1, ⟨(e.push vs step).2.seen.map f, (e.push vs step).2.steps⟩) := by
  have hseen := seeAll_map hf
  have hmem : ∀ {v}, v ∈ seeAll e.seen vs → v ∈ e.seen ++ vs := by
    intro v hv
    rw [List.mem_append]
    exact mem_seeAll.mp hv
  have hname : ∀ v ∈ vs, (name ((seeAll e.seen vs).map f) ∘ f) v = name (seeAll e.seen vs) v := by
    intro v hv
    have hv' : v ∈ seeAll e.seen vs := mem_seeAll.mpr (.inr hv)
    have hidx := idxOf_map (fun a ha hav => hf a (hmem ha) v (hmem hv') hav) hv'
    simp only [Function.comp_apply, name, hidx]
  have hnew : step' (name ((seeAll e.seen vs).map f)) = step (name (seeAll e.seen vs)) := by
    rw [hstep', hstep _ _ hname]
  simp only [Emission.push, hseen, hnew]

/-- A renaming that keeps the names apart changes only the names of an emission. -/
theorem emit_mapFreeVariables {f : FreeVariable → FreeVariable} {d : Derivation} {e : Emission}
    (hf : ∀ a ∈ e.seen ++ d.occurrences, ∀ b ∈ e.seen ++ d.occurrences, f a = f b → a = b) :
    (d.mapFreeVariables f).emit ⟨e.seen.map f, e.steps⟩ =
      ((d.emit e).1, ⟨(d.emit e).2.seen.map f, (d.emit e).2.steps⟩) := by
  induction d generalizing e with
  | leaf step hr =>
    have hpush := push_map (dependsOn_leaf step)
      (fun g => ProofStep.mapFreeVariables_comp f g step) hf
    rw [← step.occurrences_mapFreeVariables] at hpush
    exact hpush
  | modusPonens a b iha ihb =>
    simp only [occurrences, List.mem_append] at hf
    have ha := iha fun x hx y hy => hf x (by simp at hx; tauto) y (by simp at hy; tauto)
    have hb := ihb (e := (a.emit e).2) fun x hx y hy => hf x
      (by rw [seen_emit] at hx; simp only [List.mem_append, mem_seeAll] at hx; tauto) y
      (by rw [seen_emit] at hy; simp only [List.mem_append, mem_seeAll] at hy; tauto)
    simp only [mapFreeVariables, emit, ha, hb]
    rfl
  | generalization a v ih =>
    simp only [occurrences, List.mem_append] at hf
    have ha := ih fun x hx y hy => hf x (by simp at hx; tauto) y (by simp at hy; tauto)
    simp only [mapFreeVariables, emit, ha]
    have hapart : ∀ x ∈ (a.emit e).2.seen ++ [v], ∀ y ∈ (a.emit e).2.seen ++ [v],
        f x = f y → x = y := by
      intro x hx y hy
      rw [seen_emit] at hx hy
      simp only [List.mem_append, mem_seeAll] at hx hy
      exact hf x (by tauto) y (by tauto)
    exact push_map (dependsOn_generalization _ v) (fun g => rfl) hapart

/-- Two lists with equal images under maps that keep their members apart are related by a
bijection. -/
theorem exists_bijOn {xs ys : List FreeVariable} {φ ψ : FreeVariable → FreeVariable}
    (h : xs.map φ = ys.map ψ) (hφ : Set.InjOn φ {v | v ∈ xs}) (hψ : Set.InjOn ψ {v | v ∈ ys}) :
    ∃ f : FreeVariable → FreeVariable,
      Set.BijOn f {v | v ∈ xs} {v | v ∈ ys} ∧ ∀ v ∈ xs, ψ (f v) = φ v := by
  have hex : ∀ v, ∃ w, v ∈ xs → w ∈ ys ∧ ψ w = φ v := by
    intro v
    by_cases hv : v ∈ xs
    · have hm : φ v ∈ ys.map ψ := h ▸ List.mem_map_of_mem hv
      obtain ⟨w, hw, hwv⟩ := List.mem_map.mp hm
      exact ⟨w, fun _ => ⟨hw, hwv⟩⟩
    · exact ⟨v, fun hv' => absurd hv' hv⟩
  choose f hf using hex
  refine ⟨f, ⟨fun v hv => (hf v hv).1, ?_, ?_⟩, fun v hv => (hf v hv).2⟩
  · intro v hv w hw hvw
    have hφvw : φ v = φ w := by rw [← (hf v hv).2, ← (hf w hw).2, hvw]
    exact hφ hv hw hφvw
  · intro w hw
    have hm : ψ w ∈ xs.map φ := h ▸ List.mem_map_of_mem hw
    obtain ⟨v, hv, hvw⟩ := List.mem_map.mp hm
    exact ⟨v, hv, hψ (hf v hv).1 hw ((hf v hv).2.trans hvw)⟩

theorem name_injOn_emit (d : Derivation) :
    Set.InjOn (name (d.emit .empty).2.seen) {v | v ∈ d.occurrences} := by
  have hnodup : (d.emit .empty).2.seen.Nodup := by
    rw [seen_emit]
    exact nodup_seeAll List.nodup_nil _
  have hmem : ∀ v ∈ d.occurrences, v ∈ (d.emit .empty).2.seen := by
    intro v hv
    rw [seen_emit]
    exact mem_seeAll.mpr (.inr hv)
  intro v hv w hw h
  exact name_injOn hnodup (hmem v hv) (hmem w hw) h

/-- The root of an emission from scratch unfolds to the renamed derivation. -/
theorem unfolds_root (d : Derivation) :
    Unfolds (d.emit .empty).2.steps ((d.emit .empty).2.steps.length - 1)
      (d.mapFreeVariables (name (d.emit .empty).2.seen)) := by
  have hlast : (d.emit .empty).1 + 1 = (d.emit .empty).2.steps.length :=
    succ_emit (bounded_nil _)
  have hroot : Unfolds (d.emit .empty).2.steps (d.emit .empty).1
      (d.mapFreeVariables (name (d.emit .empty).2.seen)) := unfolds_emit (.refl _)
  rwa [← hlast, Nat.add_sub_cancel]

theorem steps_emit_mapFreeVariables {f : FreeVariable → FreeVariable} {d : Derivation}
    (hf : Set.InjOn f {v | v ∈ d.occurrences}) :
    ((d.mapFreeVariables f).emit .empty).2.steps = (d.emit .empty).2.steps := by
  have h := emit_mapFreeVariables (e := .empty) (d := d) (f := f)
    fun a ha b hb => hf (by simpa [Emission.empty] using ha) (by simpa [Emission.empty] using hb)
  exact congrArg (fun r => r.2.steps) h

/-- Emission is a complete invariant of derivations up to the names of free variables. -/
theorem steps_emit_eq_iff (d d' : Derivation) :
    (d.emit .empty).2.steps = (d'.emit .empty).2.steps ↔
      ∃ f : FreeVariable → FreeVariable,
        Set.BijOn f {v | v ∈ d.occurrences} {v | v ∈ d'.occurrences} ∧ d.mapFreeVariables f = d' := by
  constructor
  · intro h
    have hd := unfolds_root d
    have hd' := unfolds_root d'
    rw [← h] at hd'
    have htree := hd.unique hd'
    have hocc := congrArg occurrences htree
    rw [occurrences_mapFreeVariables, occurrences_mapFreeVariables] at hocc
    obtain ⟨f, hbij, hf⟩ := exists_bijOn hocc (name_injOn_emit d) (name_injOn_emit d')
    refine ⟨f, hbij, ?_⟩
    -- undo the names of `d'` on both sides
    let ν := name (d'.emit .empty).2.seen
    let σ := Function.invFunOn ν {v | v ∈ d'.occurrences}
    have hσ : ∀ w ∈ d'.occurrences, (σ ∘ ν) w = id w := by
      intro w hw
      exact (name_injOn_emit d').leftInvOn_invFunOn hw
    have himage : ∀ w ∈ (d.mapFreeVariables f).occurrences, (σ ∘ ν) w = id w := by
      intro w hw
      rw [occurrences_mapFreeVariables] at hw
      obtain ⟨v, hv, rfl⟩ := List.mem_map.mp hw
      exact hσ _ (hbij.mapsTo hv)
    have hνf : (d.mapFreeVariables f).mapFreeVariables ν = d'.mapFreeVariables ν := by
      rw [mapFreeVariables_comp, ← htree]
      exact mapFreeVariables_congr hf
    calc d.mapFreeVariables f
        = (d.mapFreeVariables f).mapFreeVariables (σ ∘ ν) := by
          rw [mapFreeVariables_congr himage, mapFreeVariables_id]
      _ = d'.mapFreeVariables (σ ∘ ν) := by
          rw [← mapFreeVariables_comp, hνf, mapFreeVariables_comp]
      _ = d' := by rw [mapFreeVariables_congr hσ, mapFreeVariables_id]
  · rintro ⟨f, hbij, rfl⟩
    exact (steps_emit_mapFreeVariables hbij.injOn).symm

end Derivation
end Naome
