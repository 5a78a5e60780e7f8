import Naome.ArtifactState
import Naome.Reconstruction

/-!
# Moving a reconstruction to another context

A step reads a context only at the definitions it names and at the proof it cites. A
context that resolves these in the same way reconstructs the same entry.
-/
namespace Naome
open LocallyNameless Outcome DefinitionExpansion

namespace DefinitionExpansion

variable {r r' : DefinitionResolver}

/-- What `r` resolves in a tree, `r'` resolves in the same way. -/
def Carried (r r' : DefinitionResolver) (symbols : List DefinitionId) : Prop :=
  ∀ id ∈ symbols, ∀ d, r id = .ok (some d) → r' id = .ok (some d)

/-- The resolved bodies name no definitions. -/
def PrimitiveBodies (r : DefinitionResolver) : Prop :=
  ∀ id d, r id = .ok (some d) → d.body.node.symbols = []

theorem expandNodeWith_carried {expandBody expandBody' : BodyExpander} (hp : PrimitiveBodies r)
    (hbody : ∀ body arguments formulaDepth definitions b x, body.symbols = [] →
      expandBody body arguments formulaDepth definitions b = .ok x →
      expandBody' body arguments formulaDepth definitions b = .ok x)
    {definitions : List DefinitionId} {substitution : Option (List (Variable FreeVariable))}
    {substitutionDepth formulaDepth : ℕ} {n : DefinedNode} {b : NodeBudget}
    {x : DefinedNode × NodeBudget} (hc : Carried r r' n.symbols)
    (h : expandNodeWith r expandBody definitions substitution substitutionDepth formulaDepth n b =
      .ok x) :
    expandNodeWith r' expandBody' definitions substitution substitutionDepth formulaDepth n b =
      .ok x := by
  induction n generalizing substitutionDepth formulaDepth b x with
  | equal a c => exact h
  | member a c => exact h
  | not n ih =>
    simp only [expandNodeWith, bind_eq_ok] at h ⊢
    obtain ⟨b₁, hb, y, hy, hx⟩ := h
    exact ⟨b₁, hb, y, ih hc hy, hx⟩
  | implies a c iha ihc =>
    simp only [expandNodeWith, bind_eq_ok] at h ⊢
    obtain ⟨b₁, hb, y, hy, z, hz, hx⟩ := h
    have hca : Carried r r' a.symbols := fun id hid => hc id (List.mem_append_left _ hid)
    have hcc : Carried r r' c.symbols := fun id hid => hc id (List.mem_append_right _ hid)
    exact ⟨b₁, hb, y, iha hca hy, z, ihc hcc hz, hx⟩
  | forAll n ih =>
    simp only [expandNodeWith, bind_eq_ok] at h ⊢
    obtain ⟨b₁, hb, y, hy, hx⟩ := h
    exact ⟨b₁, hb, y, ih hc hy, hx⟩
  | definedRelation id arguments =>
    simp only [expandNodeWith, bind_eq_ok, mapError_eq_ok, orError_eq_ok] at h ⊢
    obtain ⟨b₁, hb, d, hd, d', rfl, u, hu, v, hv, w, hw, args, hargs, hx⟩ := h
    have hd' := hc id (List.mem_singleton_self id) d' hd
    exact ⟨b₁, hb, some d', hd', d', rfl, u, hu, v, hv, w, hw, args, hargs,
      hbody _ _ _ _ _ _ (hp id d' hd) hx⟩

theorem expandNode_carried {levels : ℕ} (hp : PrimitiveBodies r)
    {definitions : List DefinitionId} {substitution : Option (List (Variable FreeVariable))}
    {substitutionDepth formulaDepth : ℕ} {n : DefinedNode} {b : NodeBudget}
    {x : DefinedNode × NodeBudget} (hc : Carried r r' n.symbols)
    (h : expandNode r levels definitions substitution substitutionDepth formulaDepth n b = .ok x) :
    expandNode r' levels definitions substitution substitutionDepth formulaDepth n b = .ok x := by
  induction levels generalizing definitions substitution substitutionDepth formulaDepth n b x with
  | zero => exact expandNodeWith_carried hp (fun _ _ _ _ _ _ _ hx => hx) hc h
  | succ levels ih =>
    refine expandNodeWith_carried hp ?_ hc h
    intro body arguments depth definitions b x hs hx
    have hnone : Carried r r' body.symbols := by
      rw [hs]
      exact fun id hid => absurd hid List.not_mem_nil
    exact ih hnone hx

end DefinitionExpansion

namespace Checker

variable {sha256 : List UInt8 → Digest} {ctx ctx' : ContextView}

/-- The dependencies of a step that `ctx` resolves, `ctx'` resolves in the same way. -/
structure Carries (ctx ctx' : ContextView) (step : ProofStep) : Prop where
  definition : ∀ id ∈ step.definitionReferences, ∀ c,
    ctx.definitionCertificate id = .ok (some c) → ctx'.definitionCertificate id = .ok (some c)
  proof : ∀ id, step = .proofReference id → ∀ header f, ctx.proofHeader id = .ok (some header) →
    ctx.proofFormula header header.length = .ok (some f) →
    ctx'.proofHeader id = .ok (some header) ∧
      ctx'.proofFormula header header.length = .ok (some f)

theorem resolveDefinition_eq_some {id : DefinitionId} {d : DefinitionResolution} :
    ctx.resolveDefinition id = .ok (some d) ↔
      ∃ c, ctx.definitionCertificate id = .ok (some c) ∧ c.resolution = d := by
  simp only [ContextView.resolveDefinition, map_eq_ok, mapError_eq_ok, Option.map_eq_some_iff]
  constructor
  · rintro ⟨_, h, c, rfl, rfl⟩
    exact ⟨c, h, rfl⟩
  · rintro ⟨c, h, rfl⟩
    exact ⟨_, h, c, rfl, rfl⟩

/-- The definitions of a context have primitive bodies. -/
def PrimitiveDefinitions (ctx : ContextView) : Prop :=
  ∀ id c, ctx.definitionCertificate id = .ok (some c) → c.body.node.symbols = []

theorem primitiveFormula_carried (hp : PrimitiveDefinitions ctx) {position : ℕ} {p : ProofFormula}
    {f : Formula} (hc : ∀ id ∈ p.definitionReferences, ∀ c,
      ctx.definitionCertificate id = .ok (some c) → ctx'.definitionCertificate id = .ok (some c))
    (h : primitiveFormula ctx position p = .ok f) : primitiveFormula ctx' position p = .ok f := by
  cases p with
  | primitive p => exact h
  | defined p hd =>
    obtain ⟨used, h⟩ := primitiveFormula_eq_ok.1 h
    refine primitiveFormula_eq_ok.2 ⟨used, ?_⟩
    obtain ⟨b, hb, rfl⟩ := DefinedFormula.expandWithNodeLimit_eq_ok.mp h
    refine DefinedFormula.expandWithNodeLimit_eq_ok.mpr ⟨b, expandNode_carried ?_ ?_ hb, rfl⟩
    · intro id d hid
      obtain ⟨c, hcert, rfl⟩ := resolveDefinition_eq_some.1 hid
      exact hp id c hcert
    · intro id hid d hresolve
      obtain ⟨c, hcert, rfl⟩ := resolveDefinition_eq_some.1 hresolve
      exact resolveDefinition_eq_some.2 ⟨c, hc id hid c hcert, rfl⟩

theorem deriveAxiom_carried {position : ℕ} {step : ProofStep} {f : Formula}
    (hc : ∀ p, .formula p ∈ step.fields → ∀ f, primitiveFormula ctx position p = .ok f →
      primitiveFormula ctx' position p = .ok f)
    (h : deriveAxiom ctx position step = .ok f) : deriveAxiom ctx' position step = .ok f := by
  cases step with
  | simplification a c | classicalContraposition a c | universalDistribution v a c =>
    simp only [deriveAxiom, bind_eq_ok] at h ⊢
    obtain ⟨a', ha, c', hc', hf⟩ := h
    exact ⟨a', hc a (by simp [ProofStep.fields]) a' ha, c', hc c (by simp [ProofStep.fields]) c' hc',
      hf⟩
  | frege a b c =>
    simp only [deriveAxiom, bind_eq_ok] at h ⊢
    obtain ⟨a', ha, b', hb, c', hc', hf⟩ := h
    exact ⟨a', hc a (by simp [ProofStep.fields]) a' ha, b', hc b (by simp [ProofStep.fields]) b' hb,
      c', hc c (by simp [ProofStep.fields]) c' hc', hf⟩
  | vacuousUniversal a | universalInstantiation v r a | equalitySubstitution v r a =>
    simp only [deriveAxiom, bind_eq_ok] at h ⊢
    obtain ⟨a', ha, hf⟩ := h
    exact ⟨a', hc a (by simp [ProofStep.fields]) a' ha, hf⟩
  | separation s =>
    simp only [deriveAxiom, primitiveSeparation, bind_eq_ok] at h ⊢
    obtain ⟨u, hu, s', ⟨p, hp, hs⟩, hf⟩ := h
    exact ⟨u, hu, s', ⟨p, hc s.predicate (by simp [ProofStep.fields]) p hp, hs⟩, hf⟩
  | replacement s =>
    simp only [deriveAxiom, primitiveReplacement, bind_eq_ok] at h ⊢
    obtain ⟨u, hu, s', ⟨p, hp, hs⟩, hf⟩ := h
    exact ⟨u, hu, s', ⟨p, hc s.predicate (by simp [ProofStep.fields]) p hp, hs⟩, hf⟩
  | equalityReflexivity v | zfcAxiom a => exact h
  | proofReference d | modusPonens i j | generalization i v => cases h

theorem mem_definitionReferences {step : ProofStep} {p : ProofFormula} (hp : .formula p ∈ step.fields)
    {id : DefinitionId} (hid : id ∈ p.definitionReferences) : id ∈ step.definitionReferences :=
  List.mem_flatMap.mpr ⟨.formula p, hp, hid⟩

theorem Concludes.carried (hp : PrimitiveDefinitions ctx) {step : ProofStep}
    (hc : Carries ctx ctx' step) {inputs : List Formula} {f : Formula}
    (h : Concludes ctx step inputs f) : Concludes ctx' step inputs f := by
  cases h with
  | leaf h =>
    refine .leaf (deriveAxiom_carried (fun p hpf f hf => ?_) h)
    exact primitiveFormula_carried hp
      (fun id hid => hc.definition id (mem_definitionReferences hpf hid)) hf
  | modusPonens h => exact .modusPonens h
  | generalization => exact .generalization

theorem Produces.carried (hp : PrimitiveDefinitions ctx) {step : ProofStep}
    (hc : Carries ctx ctx' step) {inputs : List Entry} {e : Entry}
    (h : Produces sha256 ctx step inputs e) : Produces sha256 ctx' step inputs e := by
  cases h with
  | @cited id header f hheader hformula =>
    obtain ⟨hheader', hformula'⟩ := hc.proof id rfl header f hheader hformula
    exact .cited hheader' hformula'
  | derived h hw => exact .derived (h.carried hp hc) hw

theorem Continues.carried (hp : PrimitiveDefinitions ctx) {entries more : List Entry}
    {steps : List ProofStep} (hc : ∀ step ∈ steps, Carries ctx ctx' step)
    (h : Continues sha256 ctx entries steps more) : Continues sha256 ctx' entries steps more := by
  induction h with
  | nil => exact .nil
  | cons hinputs he _ ih =>
    have hstep := hc _ List.mem_cons_self
    exact .cons hinputs (he.carried hp hstep) (ih fun s hs => hc s (List.mem_cons_of_mem _ hs))

end Checker
end Naome
