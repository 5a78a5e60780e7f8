import Naome.PlanAccounts

/-!
# The formulas of a derivation

What the rules conclude, told without the limits of the checker: for the trees of derivations, and
for lists of steps.
-/
namespace Naome.Checker
open LocallyNameless Outcome Question.Plan

variable {sha256 : List UInt8 → Digest} {ctx : ContextView} {g : FreeVariable → FreeVariable}

/-- What a step concludes from the formulas it refers to, or cites. -/
inductive Infers (ctx : ContextView) : ProofStep → List Formula → Formula → Prop
  | cited {id : ProofId} {header : ProofHeader} {f : Formula}
    (hheader : ctx.proofHeader id = .ok (some header))
    (hformula : ctx.proofFormula header header.length = .ok (some f)) :
    Infers ctx (.proofReference id) [] f
  | derived {step : ProofStep} {inputs : List Formula} {f : Formula}
    (h : Concludes ctx step inputs f) : Infers ctx step inputs f

theorem concludes_modusPonens {i j : ℕ} {inputs : List Formula} {f : Formula} :
    Concludes ctx (.modusPonens i j) inputs f ↔ ∃ a, inputs = [a, a.implies f] := by
  constructor
  · intro h
    cases h with
    | leaf h => cases h
    | modusPonens h =>
      cases Logic.modusPonens_eq_ok.mp h
      exact ⟨_, rfl⟩
  · rintro ⟨a, ha⟩
    subst ha
    exact .modusPonens (Logic.modusPonens_eq_ok.mpr rfl)

theorem concludes_generalization {i : ℕ} {v : FreeVariable} {inputs : List Formula} {f : Formula} :
    Concludes ctx (.generalization i v) inputs f ↔
      ∃ a, inputs = [a] ∧ f = Formula.forAll v a := by
  constructor
  · intro h
    cases h with
    | leaf h => cases h
    | generalization => exact ⟨_, rfl, rfl⟩
  · rintro ⟨a, ha, hf⟩
    subst ha hf
    exact .generalization

theorem Infers.rename (hg : Function.Injective g) {step : ProofStep} {inputs : List Formula}
    {f : Formula} (h : Infers ctx step inputs f) :
    Infers ctx (step.mapFreeVariables g) (inputs.map (Formula.mapFreeVariables g))
      (f.mapFreeVariables g) := by
  cases h with
  | cited hheader hformula =>
    rw [Formula.mapFreeVariables_of_closed (ctx.closed _ _ _ hformula)]
    exact .cited hheader hformula
  | derived h => exact .derived (h.rename hg)

/-- The formula of a derivation. -/
inductive Proves (ctx : ContextView) : Derivation → Formula → Prop
  | leaf {step : ProofStep} {isLeaf : step.references = []} {f : Formula}
    (h : Infers ctx step [] f) : Proves ctx (.leaf step isLeaf) f
  | modusPonens {a b : Derivation} {x f : Formula} (ha : Proves ctx a x)
    (hb : Proves ctx b (x.implies f)) : Proves ctx (.modusPonens a b) f
  | generalization {a : Derivation} {v : FreeVariable} {x : Formula} (ha : Proves ctx a x) :
    Proves ctx (.generalization a v) (Formula.forAll v x)

theorem Proves.rename (hg : Function.Injective g) {d : Derivation} {f : Formula}
    (h : Proves ctx d f) : Proves ctx (d.mapFreeVariables g) (f.mapFreeVariables g) := by
  induction h with
  | leaf h => exact .leaf (h.rename hg)
  | modusPonens _ _ iha ihb => exact .modusPonens iha ihb
  | generalization _ ih =>
    rw [Formula.mapFreeVariables_forAll hg]
    exact .generalization ih

/-- What the checker reconstructs is the formula of the derivation. -/
theorem Produces.infers {step : ProofStep} {inputs : List Entry} {e : Entry}
    (h : Produces sha256 ctx step inputs e) :
    Infers ctx step (inputs.map Entry.formula) e.formula := by
  cases h with
  | cited hheader hformula => exact .cited hheader hformula
  | derived h _ => exact .derived h

theorem Infers.unique {step : ProofStep} {inputs : List Formula} {f f' : Formula}
    (h : Infers ctx step inputs f) (h' : Infers ctx step inputs f') : f = f' := by
  cases h with
  | cited hheader hformula =>
    cases h' with
    | cited hheader' hformula' =>
      rw [hheader] at hheader'
      cases hheader'
      rw [hformula] at hformula'
      cases hformula'
      rfl
    | derived h' =>
      have hleaf := concludes_leaf.mp h'
      cases hleaf
  | derived h =>
    cases h' with
    | cited hheader' hformula' =>
      have hleaf := concludes_leaf.mp h
      cases hleaf
    | derived h' => exact h.unique h'

theorem Proves.formula_eq {d : Derivation} {e : Entry} {f : Formula} (h : Proves ctx d f)
    (he : Yields sha256 ctx d e) : e.formula = f := by
  induction h generalizing e with
  | leaf h =>
    cases he with
    | leaf he => exact he.infers.unique h
  | modusPonens _ _ iha ihb =>
    cases he with
    | @modusPonens _ _ x y _ hx hy he =>
      have hf := he.infers
      simp only [List.map_cons, List.map_nil, iha hx, ihb hy] at hf
      cases hf with
      | derived hf =>
        obtain ⟨a, hinputs⟩ := concludes_modusPonens.1 hf
        simp only [List.cons.injEq, and_true] at hinputs
        obtain ⟨rfl, himplies⟩ := hinputs
        have hparts := congrArg Formula.implicationParts himplies
        simp only [Formula.implicationParts_implies, Option.some.injEq, Prod.mk.injEq] at hparts
        exact hparts.2.symm
  | generalization _ ih =>
    cases he with
    | @generalization _ _ x _ hx he =>
      have hf := he.infers
      simp only [List.map_cons, List.map_nil, ih hx] at hf
      cases hf with
      | derived hf =>
        obtain ⟨a, hinputs, hformula⟩ := concludes_generalization.1 hf
        cases hinputs
        exact hformula

/-- The formulas that the steps of a list conclude, one after the other. -/
inductive Evaluates (ctx : ContextView) : List ProofStep → List Formula → Prop
  | nil : Evaluates ctx [] []
  | snoc {steps : List ProofStep} {formulas inputs : List Formula} {step : ProofStep} {f : Formula}
    (h : Evaluates ctx steps formulas)
    (hinputs : List.Forall₂ (fun r a => formulas[r]? = some a) step.references inputs)
    (hf : Infers ctx step inputs f) : Evaluates ctx (steps ++ [step]) (formulas ++ [f])

namespace Evaluates

variable {steps : List ProofStep} {formulas : List Formula} {f : Formula}

theorem length_eq (h : Evaluates ctx steps formulas) : formulas.length = steps.length := by
  induction h with
  | nil => rfl
  | snoc _ _ _ ih => simp [ih]

theorem references_lt {inputs : List Formula} {step : ProofStep} (h : Evaluates ctx steps formulas)
    (hinputs : List.Forall₂ (fun r a => formulas[r]? = some a) step.references inputs) :
    ∀ r ∈ step.references, r < steps.length := by
  intro r hr
  obtain ⟨i, hi⟩ := List.getElem?_of_mem hr
  obtain ⟨hlt, -⟩ := List.getElem?_eq_some_iff.mp hi
  have hget := hinputs.get hlt (hinputs.length_eq ▸ hlt)
  rw [← h.length_eq]
  rw [List.getElem?_eq_some_iff] at hi
  obtain ⟨_, rfl⟩ := hi
  exact (List.getElem?_eq_some_iff.mp hget).1

theorem earlier (h : Evaluates ctx steps formulas) : ProofCodec.Earlier 0 steps := by
  induction h with
  | nil =>
    intro p hp
    cases hp
  | snoc h hinputs _ ih => exact earlier_snoc ih (h.references_lt hinputs)

/-- The steps conclude the formulas of their derivations. -/
theorem proves (h : Evaluates ctx steps formulas) {p : ℕ} {d : Derivation}
    (hd : Unfolds steps p d) (hf : formulas[p]? = some f) : Proves ctx d f := by
  induction h generalizing p d f with
  | nil => cases hf
  | @snoc steps formulas inputs step f' h hinputs hinfers ih =>
    have hinput : ∀ {r : ℕ} {a : Formula} {d' : Derivation}, formulas[r]? = some a →
        Unfolds (steps ++ [step]) r d' → Proves ctx d' a := by
      intro r a d' ha hd'
      have hlt := (List.getElem?_eq_some_iff.mp ha).1
      rw [h.length_eq] at hlt
      exact ih (unfolds_of_append h.earlier hd' hlt) ha
    rcases Nat.lt_or_ge p steps.length with hlt | hge
    · rw [← h.length_eq] at hlt
      rw [List.getElem?_append_left hlt] at hf
      exact hinput hf hd
    have hlen := hd.lt_length
    rw [List.length_append, List.length_singleton] at hlen
    obtain rfl : p = steps.length := by omega
    rw [← h.length_eq, List.getElem?_concat_length] at hf
    cases hf
    cases hd with
    | leaf hp hr =>
      rw [getElem?_snoc_self] at hp
      cases hp
      rw [hr, List.forall₂_nil_left_iff] at hinputs
      rw [hinputs] at hinfers
      exact .leaf hinfers
    | @modusPonens _ i j a b hp ha hb =>
      rw [getElem?_snoc_self] at hp
      cases hp
      rw [references_modusPonens, List.forall₂_cons_left_iff] at hinputs
      cases hinfers with
      | derived hinfers =>
        obtain ⟨x, rfl⟩ := concludes_modusPonens.1 hinfers
        obtain ⟨_, _, hx, hrest, heq⟩ := hinputs
        cases heq
        obtain ⟨_, _, hy, -, heq⟩ := List.forall₂_cons_left_iff.mp hrest
        cases heq
        exact .modusPonens (hinput hx ha) (hinput hy hb)
    | generalization hp ha =>
      rw [getElem?_snoc_self] at hp
      cases hp
      rw [references_generalization, List.forall₂_cons_left_iff] at hinputs
      cases hinfers with
      | derived hinfers =>
        obtain ⟨x, rfl, rfl⟩ := concludes_generalization.1 hinfers
        obtain ⟨_, _, hx, -, heq⟩ := hinputs
        cases heq
        exact .generalization (hinput hx ha)

end Evaluates
end Naome.Checker
