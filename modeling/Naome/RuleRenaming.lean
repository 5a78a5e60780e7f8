import Naome.StepRenaming
import Naome.Checker

/-!
# Rules under renamings of free variables

A renaming that keeps free variables apart commutes with every connective, quantifier and
rule, and with the side conditions of the schemas.
-/
namespace Naome
open LocallyNameless FirstOccurrence Outcome FormulaCodec

variable {g : FreeVariable → FreeVariable}

namespace Formula

theorem bindOne_rename (hg : Function.Injective g) (v w : FreeVariable) :
    bindOne (g v) (g w) = bindOne v w := by
  simp only [bindOne, hg.eq_iff]

theorem mapFreeVariables_forAll (hg : Function.Injective g) (v : FreeVariable) (f : Formula) :
    (forAll v f).mapFreeVariables g = forAll (g v) (f.mapFreeVariables g) := by
  apply Formula.ext
  simp only [mapFreeVariables, forAll, Node.mapFree]
  rw [Node.mapFree_bindFree (bindOne_rename hg v)]

theorem foldl_insertBinder_rename (hg : Function.Injective g) (total : ℕ)
    (ps : List (FreeVariable × ℕ)) {b b' : FreeVariable → Option ℕ} (hb : ∀ v, b' (g v) = b v)
    (v : FreeVariable) :
    (ps.map fun p => (g p.1, p.2)).foldl (insertBinder total) b' (g v) =
      ps.foldl (insertBinder total) b v := by
  induction ps generalizing b b' with
  | nil => exact hb v
  | cons p ps ih =>
    refine ih ?_
    intro w
    by_cases hw : w = p.1
    · subst hw
      simp [insertBinder]
    · have hgw : g w ≠ g p.1 := fun h => hw (hg h)
      rw [insertBinder, insertBinder, Function.update_of_ne hgw, Function.update_of_ne hw, hb]

theorem binderIndices_rename (hg : Function.Injective g) (vars : List FreeVariable)
    (v : FreeVariable) : binderIndices (vars.map g) (g v) = binderIndices vars v := by
  have hzip : (vars.map g).zipIdx = vars.zipIdx.map fun p => (g p.1, p.2) := by
    rw [List.zipIdx_map]
    rfl
  rw [binderIndices, binderIndices, hzip, List.length_map]
  exact foldl_insertBinder_rename hg _ _ (fun _ => rfl) v

theorem mapFree_wrapForAll (g : FreeVariable → FreeVariable) (k : ℕ) (n : PrimitiveNode) :
    (wrapForAll k n).mapFree g = wrapForAll k (n.mapFree g) := by
  induction k generalizing n with
  | zero => rfl
  | succ k ih => exact ih _

theorem mapFreeVariables_forAllMany (hg : Function.Injective g) (vars : List FreeVariable)
    (f : Formula) :
    (forAllMany vars f).mapFreeVariables g = forAllMany (vars.map g) (f.mapFreeVariables g) := by
  apply Formula.ext
  simp only [mapFreeVariables, forAllMany, mapFree_wrapForAll, List.length_map]
  rw [Node.mapFree_bindFree (binderIndices_rename hg vars)]

theorem mapFreeVariables_substituteFree (hg : Function.Injective g) (a b : FreeVariable)
    (f : Formula) :
    (f.substituteFree a b).mapFreeVariables g = (f.mapFreeVariables g).substituteFree (g a) (g b) := by
  have hcomp : g ∘ substitution a b = substitution (g a) (g b) ∘ g := by
    funext v
    simp only [Function.comp_apply, substitution, hg.eq_iff]
    split_ifs <;> rfl
  apply Formula.ext
  simp only [substituteFree_eq_map, mapFreeVariables, Node.mapFree_mapFree, hcomp]

theorem mapFreeVariables_of_closed {f : Formula} (h : f.isClosed = true) :
    f.mapFreeVariables g = f := by
  apply Formula.ext
  have hcongr : f.node.mapFree g = f.node.mapFree id := by
    apply Node.mapFree_congr
    rw [isClosed_iff.mp h]
    intro v hv
    cases hv
  exact hcongr.trans f.node.mapFree_id

theorem mem_freeVariables_mapFreeVariables {f : Formula} {w : FreeVariable} :
    w ∈ (f.mapFreeVariables g).freeVariables ↔ ∃ v ∈ f.freeVariables, g v = w := by
  simp only [mem_freeVariables, mapFreeVariables, Node.occurrences_mapFree, List.mem_map]

theorem implies_mapFreeVariables (a b : Formula) :
    (implies a b).mapFreeVariables g = implies (a.mapFreeVariables g) (b.mapFreeVariables g) := rfl

@[simp] theorem withinLimits_mapFreeVariables (f : Formula) :
    (f.mapFreeVariables g).WithinLimits ↔ f.WithinLimits := by
  simp only [WithinLimits, mapFreeVariables, Node.nodeCount_mapFree, Node.depth_mapFree]

@[simp] theorem length_canonicalBytes_mapFreeVariables (f : Formula) :
    (f.mapFreeVariables g).canonicalBytes.length = f.canonicalBytes.length :=
  ProofFormula.length_nodeBytes_mapFree _ g f.node

/-- The bytes of a formula with its free variables renumbered by first occurrence. -/
def normalizedBytes (f : Formula) : List UInt8 :=
  nodeBytes primitiveFormat (f.node.mapFree (VariableNumbering.name (seeAll [] f.node.occurrences)))

theorem encodeFreeVariableNormalized_eq_ok {f : Formula} {bytes : List UInt8} :
    f.encodeFreeVariableNormalized = .ok bytes ↔ f.WithinLimits ∧ bytes = f.normalizedBytes := by
  rw [encodeFreeVariableNormalized, map_eq_ok, Prod.exists]
  simp only [encodeTree_eq_ok, mapFreeState_normalize]
  constructor
  · rintro ⟨_, _, ⟨h, rfl, rfl⟩, rfl⟩
    have := h.nodeCount_le
    exact ⟨⟨by omega, h.depth_le⟩, rfl⟩
  · rintro ⟨hw, rfl⟩
    have hlength := length_nodeBytes_le primitiveFormat (PrimitiveNode.symbols_eq_nil f.node) hw.1
    have hcanonical : f.encodeCanonicalWithNodeLimit formulaMaxNodes =
        .ok (f.canonicalBytes, f.node.nodeCount) :=
      encodeCanonicalWithNodeLimit_eq_ok.mpr ⟨hw, hw.1, rfl, rfl⟩
    have hencodable := (encodeTree_eq_ok.mp hcanonical).1
    exact ⟨_, _, ⟨hencodable, rfl, rfl⟩, rfl⟩

theorem length_normalizedBytes (f : Formula) :
    f.normalizedBytes.length = f.canonicalBytes.length := ProofFormula.length_nodeBytes_mapFree _ _ _

/-- Renumbered bytes do not depend on the names of free variables. -/
theorem normalizedBytes_mapFreeVariables (hg : Function.Injective g) (f : Formula) :
    (f.mapFreeVariables g).normalizedBytes = f.normalizedBytes := by
  have hseen : seeAll (([] : List FreeVariable).map g) (f.node.occurrences.map g) =
      (seeAll [] f.node.occurrences).map g := seeAll_map fun a _ b _ h => hg h
  rw [List.map_nil] at hseen
  unfold normalizedBytes mapFreeVariables
  simp only [Node.occurrences_mapFree, hseen, Node.mapFree_mapFree]
  congr 1
  apply Node.mapFree_congr
  intro v hv
  have hidx := idxOf_map (fun a _ h => hg h) (mem_seeAll.mpr (.inr hv) : v ∈ seeAll [] f.node.occurrences)
  simp only [Function.comp_apply, VariableNumbering.name, hidx]

end Formula

/-- Renames the inputs and the variables of a recipe. -/
def Expression.rename (g : FreeVariable → FreeVariable) : Expression Formula → Expression Formula
  | .input value => .input (value.mapFreeVariables g)
  | .equal a b => .equal (g a) (g b)
  | .member a b => .member (g a) (g b)
  | .not a => .not (a.rename g)
  | .implies a b => .implies (a.rename g) (b.rename g)
  | .forAll v a => .forAll (g v) (a.rename g)
  | .vacuous a => .vacuous (a.rename g)
  | .substitute a b value => .substitute (g a) (g b) (value.rename g)

theorem Expression.evaluate_rename (hg : Function.Injective g) (x : Expression Formula) :
    (x.rename g).evaluate = x.evaluate.mapFreeVariables g := by
  induction x with
  | input value | equal a b | member a b => rfl
  | not a ih => rw [rename, evaluate, ih, evaluate]; rfl
  | implies a b iha ihb => rw [rename, evaluate, iha, ihb, evaluate]; rfl
  | forAll v a ih => rw [rename, evaluate, ih, evaluate, Formula.mapFreeVariables_forAll hg]
  | vacuous a ih => rw [rename, evaluate, ih, evaluate]; rfl
  | substitute a b value ih =>
    rw [rename, evaluate, ih, evaluate, Formula.mapFreeVariables_substituteFree hg]

/-- The side conditions of a schema do not depend on names. -/
theorem Zfc.SchemaConditions.rename (hg : Function.Injective g) {predicate : Formula}
    {roles allowed forbidden parameters : List FreeVariable}
    (h : SchemaConditions predicate roles allowed forbidden parameters) :
    SchemaConditions (predicate.mapFreeVariables g) (roles.map g) (allowed.map g)
      (forbidden.map g) (parameters.map g) := by
  have hmem : ∀ {v : FreeVariable} {vs : List FreeVariable}, g v ∈ vs.map g ↔ v ∈ vs :=
    List.mem_map_of_injective hg
  refine ⟨h.roles_nodup.map hg, h.parameters_nodup.map hg, ?_, ?_, ?_⟩
  · intro w hw
    obtain ⟨v, hv, rfl⟩ := List.mem_map.mp hw
    exact fun hr => h.parameters_fresh v hv (hmem.mp hr)
  · intro w hw
    obtain ⟨v, hv, rfl⟩ := Formula.mem_freeVariables_mapFreeVariables.1 hw
    exact fun hf => h.not_forbidden v hv (hmem.mp hf)
  · intro w hw
    obtain ⟨v, hv, rfl⟩ := Formula.mem_freeVariables_mapFreeVariables.1 hw
    exact (h.declared v hv).imp hmem.mpr hmem.mpr

namespace Checker

variable {ctx : ContextView}

/-- A step position only appears in errors. -/
theorem primitiveFormula_eq_ok {position : ℕ} {p : ProofFormula} {f : Formula} :
    primitiveFormula ctx position p = .ok f ↔
      ∃ used, p.expandWithNodeLimit ctx.resolveDefinition formulaMaxNodes = .ok (f, used) := by
  cases p with
  | primitive p => simp [primitiveFormula, ProofFormula.expandWithNodeLimit, eq_comm]
  | defined p hp =>
    simp only [primitiveFormula, mapError_eq_ok, map_eq_ok, Prod.exists,
      ProofFormula.expandWithNodeLimit]
    constructor
    · rintro ⟨_, used, h, rfl⟩
      exact ⟨used, h⟩
    · rintro ⟨used, h⟩
      exact ⟨f, used, h, rfl⟩

theorem primitiveFormula_rename {position position' : ℕ} {p : ProofFormula} {f : Formula}
    (g : FreeVariable → FreeVariable) (h : primitiveFormula ctx position p = .ok f) :
    primitiveFormula ctx position' (p.mapFreeVariables g) = .ok (f.mapFreeVariables g) := by
  obtain ⟨used, h⟩ := primitiveFormula_eq_ok.1 h
  refine primitiveFormula_eq_ok.2 ⟨used, ?_⟩
  cases p with
  | primitive p =>
    cases h
    rfl
  | defined p hp => exact DefinedFormula.expandWithNodeLimit_mapFreeVariables g h

/-- Axioms of a renamed step are the renamed axioms, at any position. -/
theorem deriveAxiom_rename (hg : Function.Injective g) {position : ℕ} (position' : ℕ)
    {step : ProofStep} {f : Formula} (h : deriveAxiom ctx position step = .ok f) :
    deriveAxiom ctx position' (step.mapFreeVariables g) = .ok (f.mapFreeVariables g) := by
  have hrename : ∀ x : Expression Formula,
      .ok (x.rename g).evaluate = (.ok (x.evaluate.mapFreeVariables g) : CheckM Formula) :=
    fun x => congrArg _ (x.evaluate_rename hg)
  cases step with
  | simplification a c =>
    simp only [deriveAxiom, bind_eq_ok, pure_eq_ok] at h
    obtain ⟨a', ha, c', hc, rfl⟩ := h
    simp only [deriveAxiom, ProofStep.mapFreeVariables, primitiveFormula_rename g ha,
      primitiveFormula_rename g hc, ok_bind]
    exact hrename (Construction.simplification a' c')
  | frege a b c =>
    simp only [deriveAxiom, bind_eq_ok, pure_eq_ok] at h
    obtain ⟨a', ha, b', hb, c', hc, rfl⟩ := h
    simp only [deriveAxiom, ProofStep.mapFreeVariables, primitiveFormula_rename g ha,
      primitiveFormula_rename g hb, primitiveFormula_rename g hc, ok_bind]
    exact hrename (Construction.frege a' b' c')
  | classicalContraposition a c =>
    simp only [deriveAxiom, bind_eq_ok, pure_eq_ok] at h
    obtain ⟨a', ha, c', hc, rfl⟩ := h
    simp only [deriveAxiom, ProofStep.mapFreeVariables, primitiveFormula_rename g ha,
      primitiveFormula_rename g hc, ok_bind]
    exact hrename (Construction.contraposition a' c')
  | universalDistribution v a c =>
    simp only [deriveAxiom, bind_eq_ok, pure_eq_ok] at h
    obtain ⟨a', ha, c', hc, rfl⟩ := h
    simp only [deriveAxiom, ProofStep.mapFreeVariables, primitiveFormula_rename g ha,
      primitiveFormula_rename g hc, ok_bind]
    exact hrename (Construction.distribution v a' c')
  | vacuousUniversal a =>
    simp only [deriveAxiom, bind_eq_ok, pure_eq_ok] at h
    obtain ⟨a', ha, rfl⟩ := h
    simp only [deriveAxiom, ProofStep.mapFreeVariables, primitiveFormula_rename g ha, ok_bind]
    exact hrename (Construction.vacuous a')
  | universalInstantiation v r b =>
    simp only [deriveAxiom, bind_eq_ok, pure_eq_ok] at h
    obtain ⟨b', hb, rfl⟩ := h
    simp only [deriveAxiom, ProofStep.mapFreeVariables, primitiveFormula_rename g hb, ok_bind]
    exact hrename (Construction.instantiation v r b')
  | equalityReflexivity v =>
    cases h
    rfl
  | equalitySubstitution a b f =>
    simp only [deriveAxiom, bind_eq_ok, pure_eq_ok] at h
    obtain ⟨f', hf, rfl⟩ := h
    simp only [deriveAxiom, ProofStep.mapFreeVariables, primitiveFormula_rename g hf, ok_bind]
    exact hrename (Construction.substitution a b f')
  | zfcAxiom a =>
    cases h
    rw [Formula.mapFreeVariables_of_closed a.formula_isClosed]
    rfl
  | separation s =>
    simp only [deriveAxiom, bind_eq_ok, mapError_eq_ok, preflightSchemaDepth, require_eq_ok,
      exists_const, primitiveSeparation, pure_eq_ok] at h
    obtain ⟨hlen, _, ⟨f', hf, rfl⟩, hs⟩ := h
    obtain ⟨hcond, rfl⟩ := Separation.formula_eq_ok.mp hs
    simp only [deriveAxiom, ProofStep.mapFreeVariables, bind_eq_ok, mapError_eq_ok,
      preflightSchemaDepth, require_eq_ok, exists_const, primitiveSeparation, pure_eq_ok,
      List.length_map]
    refine ⟨hlen, _, ⟨_, primitiveFormula_rename g hf, rfl⟩, ?_⟩
    refine Separation.formula_eq_ok.mpr ⟨hcond.rename hg, ?_⟩
    rw [Zfc.closeParameters, Zfc.closeForAll, Formula.mapFreeVariables_forAllMany hg,
      ← Expression.evaluate_rename hg]
    rfl
  | replacement r =>
    simp only [deriveAxiom, bind_eq_ok, mapError_eq_ok, preflightSchemaDepth, require_eq_ok,
      exists_const, primitiveReplacement, pure_eq_ok] at h
    obtain ⟨hlen, _, ⟨f', hf, rfl⟩, hr⟩ := h
    obtain ⟨hcond, rfl⟩ := Replacement.formula_eq_ok.mp hr
    simp only [deriveAxiom, ProofStep.mapFreeVariables, bind_eq_ok, mapError_eq_ok,
      preflightSchemaDepth, require_eq_ok, exists_const, primitiveReplacement, pure_eq_ok,
      List.length_map]
    refine ⟨hlen, _, ⟨_, primitiveFormula_rename g hf, rfl⟩, ?_⟩
    refine Replacement.formula_eq_ok.mpr ⟨hcond.rename hg, ?_⟩
    rw [Zfc.closeParameters, Zfc.closeForAll, Formula.mapFreeVariables_forAllMany hg,
      ← Expression.evaluate_rename hg]
    rfl
  | proofReference d | modusPonens i j | generalization i v => cases h

end Checker
end Naome
