import Naome.DefinitionExpansion

/-!
# Properties of definition expansion

Expansion yields a primitive tree in scope, within the node and depth limits, whatever
the resolver; it commutes with renaming; and on definitions with primitive bodies it
fails at limits only and preserves meaning.
-/
namespace Naome
open LocallyNameless Outcome FormulaCodec

namespace DefinitionExpansion

theorem enterExpansion_eq_ok {formulaDepth : ℕ} {b b' : NodeBudget} :
    enterExpansion formulaDepth b = .ok b' ↔ formulaDepth < formulaMaxDepth ∧ b.Spent b' 1 := by
  simp only [enterExpansion, bind_eq_ok, mapError_eq_ok, NodeBudget.charge_eq_ok, require_eq_ok,
    exists_const, pure_eq_ok]
  constructor
  · rintro ⟨m, hm, hd, rfl⟩
    exact ⟨hd, hm⟩
  · rintro ⟨hd, hm⟩
    exact ⟨b', hm, hd, rfl⟩

/-- What a successful expansion below `binders` binders returns. -/
structure Expanded (binders formulaDepth : ℕ) (b : NodeBudget) (n : DefinedNode)
    (b' : NodeBudget) : Prop where
  symbols_eq : n.symbols = []
  inScope : n.Scoped binders
  depth_le : formulaDepth + n.depth ≤ formulaMaxDepth
  spent : ∃ k, b.Spent b' k ∧ n.nodeCount ≤ k

/-- The scope of an input tree: its own binders when it is the body of a definition whose
arguments live outside, all binders otherwise. -/
def InputScope (substitution : Option (List (Variable FreeVariable)))
    (binders substitutionDepth : ℕ) (n : DefinedNode) : Prop :=
  match substitution with
  | none => n.Scoped binders
  | some arguments => n.Scoped substitutionDepth ∧ substitutionDepth ≤ binders ∧
      ∀ a ∈ arguments, a.Scoped (binders - substitutionDepth)

theorem scoped_instantiateVariable {substitution : Option (List (Variable FreeVariable))}
    {binders depth : ℕ} {x y : Variable FreeVariable}
    (hs : match substitution with
      | none => x.Scoped binders
      | some arguments => x.Scoped depth ∧ depth ≤ binders ∧
          ∀ a ∈ arguments, a.Scoped (binders - depth))
    (h : instantiateVariable substitution depth x = .ok y) : y.Scoped binders := by
  cases substitution with
  | none =>
    cases h
    exact hs
  | some arguments =>
    obtain ⟨hx, hd, ha⟩ := hs
    cases x with
    | bound i =>
      cases h
      exact lt_of_lt_of_le hx hd
    | free p =>
      simp only [instantiateVariable] at h
      cases hp : arguments[p.identifier.toNat]? with
      | none => simp [hp] at h
      | some a =>
        have hm := ha a (List.mem_of_getElem? hp)
        cases a with
        | bound i =>
          simp only [hp, Except.ok.injEq] at h
          subst h
          simp only [Variable.Scoped] at hm ⊢
          omega
        | free v =>
          simp only [hp, Except.ok.injEq] at h
          subst h
          trivial

/-- An expander of bodies returns what `Expanded` says. -/
def BodySound (expandBody : BodyExpander) : Prop :=
  ∀ body arguments binders formulaDepth definitions b n b', body.Scoped 0 →
    (∀ a ∈ arguments, a.Scoped binders) →
    expandBody body arguments formulaDepth definitions b = .ok (n, b') →
    Expanded binders formulaDepth b n b'

theorem expanded_of_expandNodeWith {resolver : DefinitionResolver} {expandBody : BodyExpander}
    (hbody : BodySound expandBody) {definitions : List DefinitionId}
    {substitution : Option (List (Variable FreeVariable))}
    {binders substitutionDepth formulaDepth : ℕ} {n n' : DefinedNode} {b b' : NodeBudget}
    (hn : InputScope substitution binders substitutionDepth n)
    (h : expandNodeWith resolver expandBody definitions substitution substitutionDepth
      formulaDepth n b = .ok (n', b')) : Expanded binders formulaDepth b n' b' := by
  induction n generalizing binders substitutionDepth formulaDepth n' b b' with
  | equal l r | member l r =>
    simp only [expandNodeWith, bind_eq_ok, enterExpansion_eq_ok, pure_eq_ok, Prod.mk.injEq] at h
    obtain ⟨m, ⟨hd, hm⟩, x, hx, y, hy, rfl, rfl⟩ := h
    refine ⟨rfl, ⟨scoped_instantiateVariable ?_ hx, scoped_instantiateVariable ?_ hy⟩, hd, 1, hm,
      le_rfl⟩
    · cases substitution with
      | none => exact hn.1
      | some arguments => exact ⟨hn.1.1, hn.2⟩
    · cases substitution with
      | none => exact hn.2
      | some arguments => exact ⟨hn.1.2, hn.2⟩
  | not n ih =>
    simp only [expandNodeWith, bind_eq_ok, enterExpansion_eq_ok, pure_eq_ok, Prod.mk.injEq,
      Prod.exists] at h
    obtain ⟨m, ⟨hd, hm⟩, x, m', hx, rfl, rfl⟩ := h
    have hx := ih (by cases substitution <;> exact hn) hx
    obtain ⟨k, hk, hck⟩ := hx.spent
    have hxd := hx.depth_le
    refine ⟨hx.symbols_eq, hx.inScope, ?_, 1 + k, hm.trans hk, ?_⟩
    · simp only [Node.depth]
      omega
    · simp only [Node.nodeCount]
      omega
  | implies a c iha ihc =>
    simp only [expandNodeWith, bind_eq_ok, enterExpansion_eq_ok, pure_eq_ok, Prod.mk.injEq,
      Prod.exists] at h
    obtain ⟨m, ⟨hd, hm⟩, x, m', hx, y, m'', hy, rfl, rfl⟩ := h
    have hx := iha (by cases substitution with
      | none => exact hn.1
      | some arguments => exact ⟨hn.1.1, hn.2⟩) hx
    have hy := ihc (by cases substitution with
      | none => exact hn.2
      | some arguments => exact ⟨hn.1.2, hn.2⟩) hy
    obtain ⟨k, hk, hck⟩ := hx.spent
    obtain ⟨l, hl, hcl⟩ := hy.spent
    have hxd := hx.depth_le
    have hyd := hy.depth_le
    refine ⟨by simp [Node.symbols, hx.symbols_eq, hy.symbols_eq], ⟨hx.inScope, hy.inScope⟩, ?_,
      1 + k + l, (hm.trans hk).trans hl, ?_⟩
    · simp only [Node.depth]
      omega
    · simp only [Node.nodeCount]
      omega
  | forAll n ih =>
    simp only [expandNodeWith, bind_eq_ok, enterExpansion_eq_ok, pure_eq_ok, Prod.mk.injEq,
      Prod.exists] at h
    obtain ⟨m, ⟨hd, hm⟩, x, m', hx, rfl, rfl⟩ := h
    have hscope : InputScope substitution (binders + 1)
        (substitutionDepth + if substitution.isSome then 1 else 0) n := by
      cases substitution with
      | none => exact hn
      | some arguments => exact ⟨hn.1, Nat.succ_le_succ hn.2.1, by simpa using hn.2.2⟩
    have hx := ih hscope hx
    obtain ⟨k, hk, hck⟩ := hx.spent
    have hxd := hx.depth_le
    refine ⟨hx.symbols_eq, hx.inScope, ?_, 1 + k, hm.trans hk, ?_⟩
    · simp only [Node.depth]
      omega
    · simp only [Node.nodeCount]
      omega
  | definedRelation s xs =>
    simp only [expandNodeWith, bind_eq_ok, enterExpansion_eq_ok, mapError_eq_ok, orError_eq_ok,
      require_eq_ok, exists_const] at h
    obtain ⟨m, ⟨hd, hm⟩, o, -, definition, -, -, -, -, ys, hys, h⟩ := h
    have hy : ∀ y ∈ ys, y.Scoped binders := by
      intro y hy
      obtain ⟨x, hx, hxy⟩ := exists_of_mem_mapM hys hy
      refine scoped_instantiateVariable ?_ hxy
      cases substitution with
      | none => exact hn x hx
      | some arguments => exact ⟨hn.1 x hx, hn.2⟩
    obtain ⟨hsym, hsc, hdep, k, hk, hck⟩ :=
      hbody _ _ _ _ _ _ _ _ definition.body.wellScoped hy h
    exact ⟨hsym, hsc, hdep, 1 + k, hm.trans hk, by omega⟩

theorem expanded_of_expandNode {resolver : DefinitionResolver} {levels : ℕ}
    {definitions : List DefinitionId} {substitution : Option (List (Variable FreeVariable))}
    {binders substitutionDepth formulaDepth : ℕ} {n n' : DefinedNode} {b b' : NodeBudget}
    (hn : InputScope substitution binders substitutionDepth n)
    (h : expandNode resolver levels definitions substitution substitutionDepth
      formulaDepth n b = .ok (n', b')) : Expanded binders formulaDepth b n' b' := by
  induction levels generalizing definitions substitution binders substitutionDepth formulaDepth n
    n' b b' with
  | zero =>
    refine expanded_of_expandNodeWith ?_ hn h
    intro body arguments binders formulaDepth definitions b n b' _ _ h
    cases h
  | succ levels ih =>
    refine expanded_of_expandNodeWith ?_ hn h
    intro body arguments binders formulaDepth definitions b n b' hbody harguments h
    have hscope : InputScope (some arguments) binders 0 body :=
      ⟨hbody, Nat.zero_le _, by simpa using harguments⟩
    exact ih hscope h

/-- Renames the tree of a result. -/
def mapResult (g : FreeVariable → FreeVariable) (r : DefinedNode × NodeBudget) :
    DefinedNode × NodeBudget :=
  (r.1.mapFree g, r.2)

/-- Inputs renamed by `h` give variables renamed by `g`. -/
structure Renames (g h : FreeVariable → FreeVariable)
    (substitution substitution' : Option (List (Variable FreeVariable))) : Prop where
  isSome_eq : substitution'.isSome = substitution.isSome
  variable_eq : ∀ depth x, instantiateVariable substitution' depth (x.map h) =
    (instantiateVariable substitution depth x).map (Variable.map g)

theorem renames_none (g : FreeVariable → FreeVariable) : Renames g g none none :=
  ⟨rfl, fun _ _ => rfl⟩

theorem renames_some (g : FreeVariable → FreeVariable) (arguments : List (Variable FreeVariable)) :
    Renames g id (some arguments) (some (arguments.map (Variable.map g))) := by
  refine ⟨rfl, ?_⟩
  intro depth x
  rw [Variable.map_id]
  cases x with
  | bound i => rfl
  | free p =>
    simp only [instantiateVariable, List.getElem?_map]
    cases arguments[p.identifier.toNat]? with
    | none => rfl
    | some a => cases a <;> rfl

/-- An expander of bodies that commutes with renaming the arguments. -/
def BodyRenames (g : FreeVariable → FreeVariable) (expandBody : BodyExpander) : Prop :=
  ∀ body arguments formulaDepth definitions b,
    expandBody body (arguments.map (Variable.map g)) formulaDepth definitions b =
      (expandBody body arguments formulaDepth definitions b).map (mapResult g)

theorem expandNodeWith_rename {resolver : DefinitionResolver} {expandBody : BodyExpander}
    {g h : FreeVariable → FreeVariable} (hbody : BodyRenames g expandBody)
    {substitution substitution' : Option (List (Variable FreeVariable))}
    (hs : Renames g h substitution substitution') (definitions : List DefinitionId)
    (substitutionDepth formulaDepth : ℕ) (n : DefinedNode) (b : NodeBudget) :
    expandNodeWith resolver expandBody definitions substitution' substitutionDepth formulaDepth
        (n.mapFree h) b =
      (expandNodeWith resolver expandBody definitions substitution substitutionDepth formulaDepth
        n b).map (mapResult g) := by
  induction n generalizing substitutionDepth formulaDepth b with
  | equal l r | member l r =>
    simp only [Node.mapFree, expandNodeWith, hs.variable_eq, map_bind, bind_map]
    rfl
  | not n ih =>
    simp only [Node.mapFree, expandNodeWith, ih, map_bind, bind_map]
    rfl
  | forAll n ih =>
    simp only [Node.mapFree, expandNodeWith, ih, hs.isSome_eq, map_bind, bind_map]
    rfl
  | implies a c iha ihc =>
    simp only [Node.mapFree, expandNodeWith, iha, ihc, map_bind, bind_map]
    rfl
  | definedRelation s xs =>
    have hargs : (xs.map (Variable.map h)).mapM (instantiateVariable substitution'
        substitutionDepth) =
          (xs.mapM (instantiateVariable substitution substitutionDepth)).map
            (List.map (Variable.map g)) :=
      mapM_map_of_map (fun x => hs.variable_eq substitutionDepth x) xs
    simp only [Node.mapFree, expandNodeWith, hargs, List.length_map, map_bind, bind_map,
      hbody _ _ _ _ _]

/-- Expansion commutes with renaming the arguments, for every resolver. -/
theorem expandNode_rename {resolver : DefinitionResolver} {g h : FreeVariable → FreeVariable}
    {substitution substitution' : Option (List (Variable FreeVariable))}
    (hs : Renames g h substitution substitution') (levels : ℕ) (definitions : List DefinitionId)
    (substitutionDepth formulaDepth : ℕ) (n : DefinedNode) (b : NodeBudget) :
    expandNode resolver levels definitions substitution' substitutionDepth formulaDepth
        (n.mapFree h) b =
      (expandNode resolver levels definitions substitution substitutionDepth formulaDepth
        n b).map (mapResult g) := by
  induction levels generalizing h substitution substitution' definitions substitutionDepth
    formulaDepth n b with
  | zero => exact expandNodeWith_rename (fun _ _ _ _ _ => rfl) hs _ _ _ _ _
  | succ levels ih =>
    refine expandNodeWith_rename ?_ hs _ _ _ _ _
    intro body arguments formulaDepth definitions b
    have := ih (renames_some g arguments) definitions 0 formulaDepth body b
    rwa [Node.mapFree_id] at this

end DefinitionExpansion

open DefinitionExpansion

namespace DefinedFormula

theorem inputScope (f : DefinedFormula) : InputScope none 0 0 f.node := f.wellScoped

/-- Expansion fails only inside `expandNode`: the conversion of its result succeeds. -/
theorem expandWithNodeLimit_eq_ok {f : DefinedFormula} {resolver : DefinitionResolver}
    {maximumNodes used : ℕ} {formula : Formula} :
    f.expandWithNodeLimit resolver maximumNodes = .ok (formula, used) ↔
      ∃ b, expandNode resolver formulaMaxDepth [] none 0 0 f.node (NodeBudget.new maximumNodes) =
        .ok (formula.node.embed, b) ∧ used = b.used := by
  simp only [expandWithNodeLimit, bind_eq_ok, Prod.exists, mapError_eq_ok, pure_eq_ok,
    Prod.mk.injEq]
  constructor
  · rintro ⟨n, b, h, f', hf, rfl, rfl⟩
    have he := expanded_of_expandNode f.inputScope h
    rw [nodeIntoPrimitive_eq_ok he.inScope] at hf
    exact ⟨b, hf.2 ▸ h, rfl⟩
  · rintro ⟨b, h, rfl⟩
    have he := expanded_of_expandNode f.inputScope h
    refine ⟨_, b, h, formula, (nodeIntoPrimitive_eq_ok he.inScope).mpr ⟨⟨?_, ?_⟩, rfl⟩, rfl, rfl⟩
    · obtain ⟨k, hk, hc⟩ := he.spent
      have := spent_new.1 ⟨b, hk⟩
      rw [Node.nodeCount_embed] at hc
      omega
    · have := he.depth_le
      rwa [Nat.zero_add, Node.depth_embed] at this

/-- Every tree that `expandNode` returns converts to a primitive formula. -/
theorem exists_formula_of_expandNode {f : DefinedFormula} {resolver : DefinitionResolver}
    {maximumNodes : ℕ} {n : DefinedNode} {b : NodeBudget}
    (h : expandNode resolver formulaMaxDepth [] none 0 0 f.node (NodeBudget.new maximumNodes) =
      .ok (n, b)) :
    ∃ formula : Formula, formula.node.embed = n ∧
      f.expandWithNodeLimit resolver maximumNodes = .ok (formula, b.used) := by
  have he := expanded_of_expandNode f.inputScope h
  obtain ⟨m, rfl⟩ := Node.exists_embed he.symbols_eq
  refine ⟨⟨m, (Node.scoped_embed 0 m).mp he.inScope⟩, rfl, ?_⟩
  exact expandWithNodeLimit_eq_ok.2 ⟨b, h, rfl⟩

/-- Renaming the free variables renames the expansion, at the same cost. -/
theorem expandWithNodeLimit_mapFreeVariables {f : DefinedFormula} {resolver : DefinitionResolver}
    {maximumNodes used : ℕ} {formula : Formula} (g : FreeVariable → FreeVariable)
    (h : f.expandWithNodeLimit resolver maximumNodes = .ok (formula, used)) :
    (f.mapFreeVariables g).expandWithNodeLimit resolver maximumNodes =
      .ok (formula.mapFreeVariables g, used) := by
  obtain ⟨b, hb, rfl⟩ := expandWithNodeLimit_eq_ok.1 h
  refine expandWithNodeLimit_eq_ok.2 ⟨b, ?_, rfl⟩
  rw [mapFreeVariables, expandNode_rename (renames_none g), hb]
  simp only [Except.map, mapResult, Node.mapFree_embed]
  rfl

theorem exists_of_expandWithNodeLimit_mapFreeVariables {f : DefinedFormula}
    {resolver : DefinitionResolver} {maximumNodes used : ℕ} {formula : Formula}
    (g : FreeVariable → FreeVariable)
    (h : (f.mapFreeVariables g).expandWithNodeLimit resolver maximumNodes = .ok (formula, used)) :
    ∃ formula', f.expandWithNodeLimit resolver maximumNodes = .ok (formula', used) ∧
      formula = formula'.mapFreeVariables g := by
  obtain ⟨b, hb, rfl⟩ := expandWithNodeLimit_eq_ok.1 h
  rw [mapFreeVariables, expandNode_rename (renames_none g)] at hb
  obtain ⟨⟨n, b'⟩, hn, heq⟩ := map_eq_ok.mp hb
  simp only [mapResult, Prod.mk.injEq] at heq
  obtain ⟨hmap, rfl⟩ := heq
  obtain ⟨formula', rfl, hf'⟩ := exists_formula_of_expandNode hn
  refine ⟨formula', hf', ?_⟩
  apply Formula.ext
  apply Node.embed_injective (D := DefinitionId)
  rw [← hmap, Node.mapFree_embed]
  rfl

end DefinedFormula
end Naome
