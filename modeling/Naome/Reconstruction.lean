import Naome.CheckerSpec
import Naome.Derivation

/-!
# Reconstruction of derivation trees

What the checker reconstructs at a step depends only on the derivation that the step ends.
Injective renaming of the free variables renames the formula and keeps length, work and
derivation identity.
-/
namespace Naome.Checker
open LocallyNameless Outcome

variable {sha256 : List UInt8 → Digest} {ctx : ContextView} {g : FreeVariable → FreeVariable}

def Entry.rename (g : FreeVariable → FreeVariable) (e : Entry) : Entry :=
  { e with formula := e.formula.mapFreeVariables g }

theorem Concludes.rename (hg : Function.Injective g) {step : ProofStep} {inputs : List Formula}
    {f : Formula} (h : Concludes ctx step inputs f) :
    Concludes ctx (step.mapFreeVariables g) (inputs.map (Formula.mapFreeVariables g))
      (f.mapFreeVariables g) := by
  cases h with
  | leaf h => exact .leaf (deriveAxiom_rename hg 0 h)
  | modusPonens h =>
    have himplies := Logic.modusPonens_eq_ok.mp h
    refine .modusPonens (Logic.modusPonens_eq_ok.mpr ?_)
    rw [himplies, Formula.implies_mapFreeVariables]
  | @generalization i v a =>
    rw [Logic.generalization, Formula.mapFreeVariables_forAll hg]
    exact .generalization

theorem derivedEntry_rename (hg : Function.Injective g) (step : ProofStep) (inputs : List Entry)
    (f : Formula) :
    (derivedEntry sha256 step inputs f).rename g =
      derivedEntry sha256 (step.mapFreeVariables g) (inputs.map (Entry.rename g))
        (f.mapFreeVariables g) := by
  have hlengths : (inputs.map (Entry.rename g)).map Entry.canonicalLength =
      inputs.map Entry.canonicalLength := by
    rw [List.map_map]
    rfl
  have hids : (inputs.map (Entry.rename g)).map Entry.derivationId =
      inputs.map Entry.derivationId := by
    rw [List.map_map]
    rfl
  simp only [derivedEntry, Entry.rename, hlengths, hids, derivationId,
    ProofStep.canonicalTag_mapFreeVariables, Formula.normalizedBytes_mapFreeVariables hg,
    Formula.length_canonicalBytes_mapFreeVariables]

/-- A cited conclusion is closed, so renaming does not touch it. -/
theorem citedEntry_rename {header : ProofHeader} {f : Formula}
    (h : ctx.proofFormula header header.length = .ok (some f)) :
    (citedEntry header f).rename g = citedEntry header f := by
  rw [Entry.rename, citedEntry, Formula.mapFreeVariables_of_closed (ctx.closed _ _ _ h)]

theorem Produces.rename (hg : Function.Injective g) {step : ProofStep} {inputs : List Entry}
    {e : Entry} (h : Produces sha256 ctx step inputs e) :
    Produces sha256 ctx (step.mapFreeVariables g) (inputs.map (Entry.rename g)) (e.rename g) := by
  cases h with
  | cited hheader hformula =>
    rw [citedEntry_rename hformula]
    exact .cited hheader hformula
  | @derived _ _ f h hw =>
    rw [derivedEntry_rename hg]
    have hconcludes := h.rename hg
    rw [List.map_map] at hconcludes
    refine .derived ?_ ((Formula.withinLimits_mapFreeVariables f).mpr hw)
    rw [List.map_map]
    exact hconcludes

theorem Concludes.unique {step : ProofStep} {inputs : List Formula} {f f' : Formula}
    (h : Concludes ctx step inputs f) (h' : Concludes ctx step inputs f') : f = f' := by
  cases h with
  | leaf h =>
    have h'' := concludes_leaf.1 h'
    rw [h] at h''
    exact Except.ok.inj h''
  | modusPonens h =>
    cases h' with
    | modusPonens h' =>
      rw [h] at h'
      exact Except.ok.inj h'
  | generalization =>
    cases h' with
    | generalization => rfl

theorem Produces.unique {step : ProofStep} {inputs : List Entry} {e e' : Entry}
    (h : Produces sha256 ctx step inputs e) (h' : Produces sha256 ctx step inputs e') : e = e' := by
  by_cases hstep : ∃ id, step = .proofReference id
  · obtain ⟨id, rfl⟩ := hstep
    obtain ⟨-, header, f, hheader, hformula, rfl⟩ := produces_cited.1 h
    obtain ⟨-, header', f', hheader', hformula', rfl⟩ := produces_cited.1 h'
    rw [hheader] at hheader'
    cases hheader'
    rw [hformula] at hformula'
    cases hformula'
    rfl
  · have hstep' : ∀ id, step ≠ .proofReference id := fun id hid => hstep ⟨id, hid⟩
    obtain ⟨f, hf, -, rfl⟩ := (produces_derived hstep').mp h
    obtain ⟨f', hf', -, rfl⟩ := (produces_derived hstep').mp h'
    rw [hf.unique hf']

/-- The entry that the checker reconstructs for a derivation. The positions of premises do
not matter. -/
inductive Yields (sha256 : List UInt8 → Digest) (ctx : ContextView) : Derivation → Entry → Prop
  | leaf {step : ProofStep} {isLeaf : step.references = []} {e : Entry}
    (h : Produces sha256 ctx step [] e) : Yields sha256 ctx (.leaf step isLeaf) e
  | modusPonens {a b : Derivation} {x y e : Entry} (ha : Yields sha256 ctx a x)
    (hb : Yields sha256 ctx b y) (h : Produces sha256 ctx (.modusPonens 0 0) [x, y] e) :
    Yields sha256 ctx (.modusPonens a b) e
  | generalization {a : Derivation} {v : FreeVariable} {x e : Entry} (ha : Yields sha256 ctx a x)
    (h : Produces sha256 ctx (.generalization 0 v) [x] e) :
    Yields sha256 ctx (.generalization a v) e

theorem Yields.unique {d : Derivation} {e e' : Entry} (h : Yields sha256 ctx d e)
    (h' : Yields sha256 ctx d e') : e = e' := by
  induction h generalizing e' with
  | leaf h =>
    cases h' with
    | leaf h' => exact h.unique h'
  | modusPonens _ _ h iha ihb =>
    cases h' with
    | modusPonens ha' hb' h' =>
      rw [iha ha', ihb hb'] at h
      exact h.unique h'
  | generalization _ h ih =>
    cases h' with
    | generalization ha' h' =>
      rw [ih ha'] at h
      exact h.unique h'

theorem Yields.rename (hg : Function.Injective g) {d : Derivation} {e : Entry}
    (h : Yields sha256 ctx d e) : Yields sha256 ctx (d.mapFreeVariables g) (e.rename g) := by
  induction h with
  | leaf h => exact .leaf (h.rename hg)
  | modusPonens _ _ h iha ihb => exact .modusPonens iha ihb (h.rename hg)
  | generalization _ h ih => exact .generalization ih (h.rename hg)

theorem produces_modusPonens (i j i' j' : ℕ) {inputs : List Entry} {e : Entry}
    (h : Produces sha256 ctx (.modusPonens i j) inputs e) :
    Produces sha256 ctx (.modusPonens i' j') inputs e := by
  obtain ⟨f, hf, hw, rfl⟩ := (produces_derived (by simp)).mp h
  have hentry (f : Formula) : derivedEntry sha256 (.modusPonens i j) inputs f =
      derivedEntry sha256 (.modusPonens i' j') inputs f := rfl
  rw [hentry]
  refine .derived ?_ hw
  generalize inputs.map Entry.formula = formulas at hf
  cases hf with
  | leaf hf => cases hf
  | modusPonens hf => exact .modusPonens hf

theorem produces_generalization (i i' : ℕ) {v : FreeVariable} {inputs : List Entry} {e : Entry}
    (h : Produces sha256 ctx (.generalization i v) inputs e) :
    Produces sha256 ctx (.generalization i' v) inputs e := by
  obtain ⟨f, hf, hw, rfl⟩ := (produces_derived (by simp)).mp h
  have hentry (f : Formula) : derivedEntry sha256 (.generalization i v) inputs f =
      derivedEntry sha256 (.generalization i' v) inputs f := rfl
  rw [hentry]
  refine .derived ?_ hw
  generalize inputs.map Entry.formula = formulas at hf
  cases hf with
  | leaf hf => cases hf
  | generalization => exact .generalization

theorem Inputs.append {entries inputs : List Entry} {step : ProofStep}
    (h : Inputs entries step inputs) (more : List Entry) : Inputs (entries ++ more) step inputs :=
  h.imp fun r e hr => by
    rw [List.getElem?_append_left (List.getElem?_eq_some_iff.mp hr).1, hr]

theorem Continues.getElem? {entries more : List Entry} {steps : List ProofStep}
    (h : Continues sha256 ctx entries steps more) {k : ℕ} {step : ProofStep}
    (hk : steps[k]? = some step) : ∃ inputs e, more[k]? = some e ∧
      Inputs (entries ++ more) step inputs ∧ Produces sha256 ctx step inputs e := by
  induction h generalizing k with
  | nil => cases hk
  | @cons entries inputs more step' steps e hinputs he hmore ih =>
    cases k with
    | zero =>
      cases hk
      exact ⟨inputs, e, rfl, hinputs.append _, he⟩
    | succ k =>
      obtain ⟨inputs', e', he', hinputs', hproduces⟩ := ih hk
      rw [List.append_assoc] at hinputs'
      exact ⟨inputs', e', he', hinputs', hproduces⟩

/-- The entry of a step is that of its derivation. -/
theorem Continues.yields {entries : List Entry} {steps : List ProofStep}
    (h : Continues sha256 ctx [] steps entries) {p : ℕ} {d : Derivation} (hd : Unfolds steps p d) :
    ∃ e, entries[p]? = some e ∧ Yields sha256 ctx d e := by
  induction hd with
  | leaf hp hr =>
    obtain ⟨inputs, e, he, hinputs, hproduces⟩ := h.getElem? hp
    cases (inputs_of_references_nil hr).mp hinputs
    exact ⟨e, he, .leaf hproduces⟩
  | modusPonens hp _ _ iha ihb =>
    obtain ⟨inputs, e, he, hinputs, hproduces⟩ := h.getElem? hp
    obtain ⟨x, y, hx, hy, rfl⟩ := inputs_modusPonens.1 hinputs
    obtain ⟨x', hx', ha⟩ := iha
    obtain ⟨y', hy', hb⟩ := ihb
    rw [List.nil_append, hx'] at hx
    rw [List.nil_append, hy'] at hy
    cases hx
    cases hy
    exact ⟨e, he, .modusPonens ha hb (produces_modusPonens _ _ _ _ hproduces)⟩
  | generalization hp _ ih =>
    obtain ⟨inputs, e, he, hinputs, hproduces⟩ := h.getElem? hp
    obtain ⟨x, hx, rfl⟩ := inputs_generalization.1 hinputs
    obtain ⟨x', hx', ha⟩ := ih
    rw [List.nil_append, hx'] at hx
    cases hx
    exact ⟨e, he, .generalization ha (produces_generalization _ _ hproduces)⟩

theorem Inputs.of_append {entries more inputs : List Entry} {step : ProofStep}
    (h : Inputs (entries ++ more) step inputs) (hr : ∀ r ∈ step.references, r < entries.length) :
    Inputs entries step inputs := by
  unfold Inputs at h ⊢
  rw [List.forall₂_iff_get] at h ⊢
  refine ⟨h.1, fun i h₁ h₂ => ?_⟩
  have hi := h.2 i h₁ h₂
  rwa [List.getElem?_append_left (hr _ (List.get_mem _ _))] at hi

/-- Entries that fit position by position continue each other. -/
theorem continues_of_getElem? {entries more : List Entry} {steps : List ProofStep}
    (he : ProofCodec.Earlier entries.length steps) (hlen : more.length = steps.length)
    (h : ∀ (k : ℕ) step e, steps[k]? = some step → more[k]? = some e →
      ∃ inputs, Inputs (entries ++ more) step inputs ∧ Produces sha256 ctx step inputs e) :
    Continues sha256 ctx entries steps more := by
  induction steps generalizing entries more with
  | nil =>
    cases List.eq_nil_of_length_eq_zero hlen
    exact .nil
  | cons step steps ih =>
    cases more with
    | nil => cases hlen
    | cons e more =>
      obtain ⟨hr, he⟩ := ProofCodec.earlier_cons.mp he
      obtain ⟨inputs, hinputs, hproduces⟩ := h 0 step e rfl rfl
      refine .cons (hinputs.of_append hr) hproduces (ih ?_ (Nat.succ.inj hlen) ?_)
      · rwa [List.length_append]
      · intro k step' e' hk hk'
        rw [List.append_assoc]
        exact h (k + 1) step' e' hk hk'

/-- Steps whose derivations yield the given entries are reconstructed with them. -/
theorem continues_of_yields {entries : List Entry} {steps : List ProofStep}
    (he : ProofCodec.Earlier 0 steps) (hlen : entries.length = steps.length)
    (h : ∀ (p : ℕ) d, Unfolds steps p d → ∃ e, entries[p]? = some e ∧ Yields sha256 ctx d e) :
    Continues sha256 ctx [] steps entries := by
  refine continues_of_getElem? he hlen fun k step e hk hk' => ?_
  have hlt : k < steps.length := (List.getElem?_eq_some_iff.mp hk).1
  obtain ⟨d, hd⟩ := Unfolds.exists_of_earlier he hlt
  obtain ⟨e', he', hyields⟩ := h k d hd
  rw [hk'] at he'
  cases he'
  rw [List.nil_append]
  cases hd with
  | leaf hp hr =>
    rw [hk] at hp
    cases hp
    cases hyields with
    | leaf hproduces => exact ⟨[], (inputs_of_references_nil hr).mpr rfl, hproduces⟩
  | modusPonens hp ha hb =>
    rw [hk] at hp
    cases hp
    cases hyields with
    | modusPonens hya hyb hproduces =>
      obtain ⟨x, hx, hyx⟩ := h _ _ ha
      obtain ⟨y, hy, hyy⟩ := h _ _ hb
      cases hya.unique hyx
      cases hyb.unique hyy
      exact ⟨_, inputs_modusPonens.2 ⟨_, _, hx, hy, rfl⟩, produces_modusPonens _ _ _ _ hproduces⟩
  | generalization hp ha =>
    rw [hk] at hp
    cases hp
    cases hyields with
    | generalization hya hproduces =>
      obtain ⟨x, hx, hyx⟩ := h _ _ ha
      cases hya.unique hyx
      exact ⟨_, inputs_generalization.2 ⟨_, hx, rfl⟩, produces_generalization _ _ hproduces⟩

/-- A renaming that is injective where it matters agrees there with a permutation. -/
theorem exists_injective_extension {f : FreeVariable → FreeVariable} {s : Set FreeVariable}
    (hf : Set.InjOn f s) : ∃ g, Function.Injective g ∧ ∀ v ∈ s, g v = f v := by
  classical
  cases nonempty_fintype FreeVariable
  have hmaps : s.MapsTo f (Finset.univ : Finset FreeVariable) := fun v _ => Finset.mem_univ _
  obtain ⟨g, hg⟩ := hmaps.exists_equiv_extend_of_card_eq Finset.card_univ.symm hf
  refine ⟨fun v => (g v).1, ?_, hg⟩
  exact fun v w h => g.injective (Subtype.ext h)

end Naome.Checker
