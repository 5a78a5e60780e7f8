import Naome.Definition

/-!
# Expansion preserves meaning

With definitions resolved to valid certificates, expansion stops at limits only, and the
primitive formula it returns is true exactly when the compact one is, reading an
application of a definition as its body with formal variable `i` at argument `i`.
-/
namespace Naome
open LocallyNameless Outcome FormulaCodec

namespace DefinitionExpansion

/-- The two limits of expansion. -/
inductive IsLimit : DefinitionExpansionError → Prop
  | nodes (maximum : ℕ) : IsLimit (.nodeLimitExceeded maximum)
  | depth (maximum : ℕ) : IsLimit (.depthLimitExceeded maximum)

/-- A computation that stops at a limit without `room`, and returns `post` with it. -/
def LimitOr {α : Type} (x : Except DefinitionExpansionError α) (room : Prop) (post : α → Prop) :
    Prop :=
  (∃ e, IsLimit e ∧ x = .error e ∧ ¬ room) ∨ ∃ a, x = .ok a ∧ room ∧ post a

theorem LimitOr.ok {α : Type} {a : α} {room : Prop} {post : α → Prop} (hr : room) (hp : post a) :
    LimitOr (.ok a) room post :=
  .inr ⟨a, rfl, hr, hp⟩

theorem LimitOr.mono {α : Type} {x : Except DefinitionExpansionError α} {room room' : Prop}
    {post post' : α → Prop} (h : LimitOr x room post) (hr : room ↔ room')
    (hp : ∀ a, post a → post' a) : LimitOr x room' post' := by
  rcases h with ⟨e, he, hx, hn⟩ | ⟨a, hx, hroom, ha⟩
  · exact .inl ⟨e, he, hx, hr.not.mp hn⟩
  · exact .inr ⟨a, hx, hr.mp hroom, hp a ha⟩

/-- The whole has room only if its first part has. -/
theorem LimitOr.bind {α β : Type} {x : Except DefinitionExpansionError α}
    {f : α → Except DefinitionExpansionError β} {room₁ room : Prop} {post₁ : α → Prop}
    {post : β → Prop} (hx : LimitOr x room₁ post₁) (hr : room → room₁)
    (hf : ∀ a, room₁ → post₁ a → LimitOr (f a) room post) : LimitOr (x >>= f) room post := by
  rcases hx with ⟨e, he, rfl, hn⟩ | ⟨a, rfl, hroom, ha⟩
  · exact .inl ⟨e, he, rfl, fun h => hn (hr h)⟩
  · exact hf a hroom ha

theorem limitOr_enterExpansion (formulaDepth : ℕ) (b : NodeBudget) :
    LimitOr (enterExpansion formulaDepth b)
      (formulaDepth + 1 ≤ formulaMaxDepth ∧ b.used + 1 ≤ b.maximum) fun b' => b.Spent b' 1 := by
  unfold enterExpansion
  cases hc : b.charge with
  | error e =>
    refine .inl ⟨_, .nodes b.maximum, rfl, ?_⟩
    rintro ⟨-, hroom⟩
    have : b.charge = .ok ⟨b.used + 1, b.maximum, hroom⟩ :=
      NodeBudget.charge_eq_ok.2 ⟨rfl, rfl⟩
    rw [hc] at this
    cases this
  | ok b' =>
    have hs := NodeBudget.charge_eq_ok.1 hc
    have hle := b'.used_le
    rw [hs.1, hs.2] at hle
    by_cases hd : formulaDepth < formulaMaxDepth
    · refine .inr ⟨b', ?_, ⟨hd, hle⟩, hs⟩
      simp [Except.mapError, require, hd, pure, Except.pure]
    · refine .inl ⟨_, .depth formulaMaxDepth, ?_, fun h => hd h.1⟩
      simp [Except.mapError, require, hd]

/-- The argument at the position of a formal variable, lifted over `depth` binders. -/
def argument (arguments : List (Variable FreeVariable)) (depth : ℕ) :
    Variable FreeVariable → Variable FreeVariable
  | .bound i => .bound i
  | .free p =>
    match arguments[p.identifier.toNat]? with
    | none => .free p
    | some (.bound i) => .bound (i + depth)
    | some (.free v) => .free v

/-- A body with its formal variables replaced by arguments. -/
def instantiate (arguments : List (Variable FreeVariable)) : ℕ → DefinedNode → DefinedNode
  | d, .equal l r => .equal (argument arguments d l) (argument arguments d r)
  | d, .member l r => .member (argument arguments d l) (argument arguments d r)
  | d, .not n => .not (instantiate arguments d n)
  | d, .implies a b => .implies (instantiate arguments d a) (instantiate arguments d b)
  | d, .forAll n => .forAll (instantiate arguments (d + 1) n)
  | d, .definedRelation s xs => .definedRelation s (xs.map (argument arguments d))

/-- Every application replaced by the body of its definition. -/
def eliminate (bodyOf : DefinitionId → DefinedFormula) : DefinedNode → DefinedNode
  | .equal l r => .equal l r
  | .member l r => .member l r
  | .not n => .not (eliminate bodyOf n)
  | .implies a b => .implies (eliminate bodyOf a) (eliminate bodyOf b)
  | .forAll n => .forAll (eliminate bodyOf n)
  | .definedRelation s xs => instantiate xs 0 (bodyOf s).node

theorem instantiateVariable_eq {arguments : List (Variable FreeVariable)} (depth : ℕ)
    {x : Variable FreeVariable}
    (hx : ∀ v ∈ x.occurrences, v.identifier.toNat < arguments.length) :
    instantiateVariable (some arguments) depth x = .ok (argument arguments depth x) := by
  cases x with
  | bound i => rfl
  | free p =>
    have hp := hx p (by simp [Variable.occurrences])
    obtain ⟨a, ha⟩ : ∃ a, arguments[p.identifier.toNat]? = some a :=
      ⟨_, List.getElem?_eq_getElem hp⟩
    simp only [instantiateVariable, argument, ha]
    cases a <;> rfl

theorem depth_instantiate (arguments : List (Variable FreeVariable)) (d : ℕ) (n : DefinedNode) :
    (instantiate arguments d n).depth = n.depth := by
  induction n generalizing d <;> simp_all [instantiate, Node.depth]

/-- Room for a tree of `cost` visited nodes and depth `depth`. -/
def Room (formulaDepth : ℕ) (b : NodeBudget) (cost depth : ℕ) : Prop :=
  formulaDepth + depth ≤ formulaMaxDepth ∧ b.used + cost ≤ b.maximum

/-- A body without definitions is instantiated, or a limit is met. -/
theorem limitOr_body (resolver : DefinitionResolver) (expandBody : BodyExpander)
    (definitions : List DefinitionId) {arguments : List (Variable FreeVariable)} {n : DefinedNode}
    (hn : n.symbols = []) (hv : ∀ v ∈ n.occurrences, v.identifier.toNat < arguments.length)
    (substitutionDepth formulaDepth : ℕ) (b : NodeBudget) :
    LimitOr (expandNodeWith resolver expandBody definitions (some arguments) substitutionDepth
        formulaDepth n b) (Room formulaDepth b n.nodeCount n.depth)
      fun r => r.1 = instantiate arguments substitutionDepth n ∧ b.Spent r.2 n.nodeCount := by
  induction n generalizing substitutionDepth formulaDepth b with
  | equal l r | member l r =>
    simp only [Node.occurrences, List.mem_append] at hv
    have hl := instantiateVariable_eq substitutionDepth fun v h => hv v (.inl h)
    have hr := instantiateVariable_eq substitutionDepth fun v h => hv v (.inr h)
    simp only [expandNodeWith, hl, hr, ok_bind]
    refine (limitOr_enterExpansion formulaDepth b).bind id ?_
    intro b' hroom hb
    exact .ok hroom ⟨rfl, hb⟩
  | not n ih =>
    refine (limitOr_enterExpansion formulaDepth b).bind ?_ ?_
    · simp only [Room, Node.nodeCount, Node.depth]
      omega
    · intro b' _ hb
      have ih := ih hn hv substitutionDepth (formulaDepth + 1) b'
      refine ih.bind ?_ ?_
      · simp only [Room, Node.nodeCount, Node.depth, hb.1, hb.2]
        omega
      · rintro ⟨n', b''⟩ hroom ⟨rfl, hs⟩
        refine .ok ?_ ⟨rfl, hb.node hs⟩
        simp only [Room, Node.nodeCount, Node.depth, hb.1, hb.2] at hroom ⊢
        omega
  | forAll n ih =>
    refine (limitOr_enterExpansion formulaDepth b).bind ?_ ?_
    · simp only [Room, Node.nodeCount, Node.depth]
      omega
    · intro b' _ hb
      have ih := ih hn hv (substitutionDepth + 1) (formulaDepth + 1) b'
      refine ih.bind ?_ ?_
      · simp only [Room, Node.nodeCount, Node.depth, hb.1, hb.2]
        omega
      · rintro ⟨n', b''⟩ hroom ⟨rfl, hs⟩
        refine .ok ?_ ⟨rfl, hb.node hs⟩
        simp only [Room, Node.nodeCount, Node.depth, hb.1, hb.2] at hroom ⊢
        omega
  | implies a c iha ihc =>
    simp only [Node.symbols, List.append_eq_nil_iff] at hn
    simp only [Node.occurrences, List.mem_append] at hv
    refine (limitOr_enterExpansion formulaDepth b).bind ?_ ?_
    · simp only [Room, Node.nodeCount, Node.depth]
      omega
    · intro b' _ hb
      have iha := iha hn.1 (fun v h => hv v (.inl h)) substitutionDepth (formulaDepth + 1) b'
      refine iha.bind ?_ ?_
      · simp only [Room, Node.nodeCount, Node.depth, hb.1, hb.2]
        omega
      · rintro ⟨n', b''⟩ hroom ⟨rfl, hs⟩
        dsimp only at hs
        have ihc := ihc hn.2 (fun v h => hv v (.inr h)) substitutionDepth (formulaDepth + 1) b''
        refine ihc.bind ?_ ?_
        · simp only [Room, Node.nodeCount, Node.depth, hs.1, hs.2, hb.1, hb.2]
          omega
        · rintro ⟨n', b''⟩ hroom' ⟨rfl, hs'⟩
          refine .ok ?_ ⟨rfl, hb.node (hs.trans hs')⟩
          simp only [Room, Node.nodeCount, Node.depth, hs.1, hs.2, hb.1, hb.2] at hroom hroom' ⊢
          omega
  | definedRelation s xs => simp [Node.symbols] at hn

/-- Nodes visited by the expansion of a tree. -/
def expansionCost (bodyOf : DefinitionId → DefinedFormula) : DefinedNode → ℕ
  | .equal _ _ => 1
  | .member _ _ => 1
  | .not n => expansionCost bodyOf n + 1
  | .implies a b => expansionCost bodyOf a + expansionCost bodyOf b + 1
  | .forAll n => expansionCost bodyOf n + 1
  | .definedRelation s _ => (bodyOf s).node.nodeCount + 1

/-- Every application of the tree resolves to a body without definitions whose formal
variables are covered by the arguments. -/
def Resolved (resolver : DefinitionResolver) (bodyOf : DefinitionId → DefinedFormula) :
    DefinedNode → Prop
  | .equal _ _ => True
  | .member _ _ => True
  | .not n => Resolved resolver bodyOf n
  | .implies a b => Resolved resolver bodyOf a ∧ Resolved resolver bodyOf b
  | .forAll n => Resolved resolver bodyOf n
  | .definedRelation s xs => resolver s = .ok (some ⟨xs.length, bodyOf s⟩) ∧
      (bodyOf s).node.symbols = [] ∧
      ∀ v ∈ (bodyOf s).node.occurrences, v.identifier.toNat < xs.length

theorem mapM_instantiateVariable_none (depth : ℕ) (xs : List (Variable FreeVariable)) :
    xs.mapM (instantiateVariable none depth) = .ok xs := by
  refine mapM_eq_ok.mpr (List.forall₂_same.mpr ?_)
  intro x _
  rfl

/-- At every level, expansion is `expandNodeWith` for some expander of bodies. -/
theorem exists_expandBody (resolver : DefinitionResolver) (levels : ℕ) :
    ∃ expandBody, ∀ definitions substitution, expandNode resolver levels definitions substitution =
      expandNodeWith resolver expandBody definitions substitution := by
  cases levels with
  | zero => exact ⟨_, fun _ _ => rfl⟩
  | succ levels => exact ⟨_, fun _ _ => rfl⟩

theorem limitOr_expandNode {resolver : DefinitionResolver}
    {bodyOf : DefinitionId → DefinedFormula} {n : DefinedNode}
    (hn : Resolved resolver bodyOf n) (levels : ℕ) (formulaDepth : ℕ) (b : NodeBudget) :
    LimitOr (expandNode resolver (levels + 1) [] none 0 formulaDepth n b)
      (Room formulaDepth b (expansionCost bodyOf n) (eliminate bodyOf n).depth)
      fun r => r.1 = eliminate bodyOf n ∧ b.Spent r.2 (expansionCost bodyOf n) := by
  rw [expandNode]
  induction n generalizing formulaDepth b with
  | equal l r | member l r =>
    refine (limitOr_enterExpansion formulaDepth b).bind id ?_
    intro b' hroom hb
    exact .ok hroom ⟨rfl, hb⟩
  | not n ih | forAll n ih =>
    refine (limitOr_enterExpansion formulaDepth b).bind ?_ ?_
    · simp only [Room, expansionCost, eliminate, Node.depth]
      omega
    · intro b' _ hb
      refine (ih hn (formulaDepth + 1) b').bind ?_ ?_
      · simp only [Room, expansionCost, eliminate, Node.depth, hb.1, hb.2]
        omega
      · rintro ⟨n', b''⟩ hroom ⟨rfl, hs⟩
        refine .ok ?_ ⟨rfl, hb.node hs⟩
        simp only [Room, expansionCost, eliminate, Node.depth, hb.1, hb.2] at hroom ⊢
        omega
  | implies a c iha ihc =>
    refine (limitOr_enterExpansion formulaDepth b).bind ?_ ?_
    · simp only [Room, expansionCost, eliminate, Node.depth]
      omega
    · intro b' _ hb
      refine (iha hn.1 (formulaDepth + 1) b').bind ?_ ?_
      · simp only [Room, expansionCost, eliminate, Node.depth, hb.1, hb.2]
        omega
      · rintro ⟨n', b''⟩ hroom ⟨rfl, hs⟩
        dsimp only at hs
        refine (ihc hn.2 (formulaDepth + 1) b'').bind ?_ ?_
        · simp only [Room, expansionCost, eliminate, Node.depth, hs.1, hs.2, hb.1, hb.2]
          omega
        · rintro ⟨n', b''⟩ hroom' ⟨rfl, hs'⟩
          refine .ok ?_ ⟨rfl, hb.node (hs.trans hs')⟩
          simp only [Room, expansionCost, eliminate, Node.depth, hs.1, hs.2, hb.1, hb.2]
            at hroom hroom' ⊢
          omega
  | definedRelation s xs =>
    obtain ⟨hres, hprim, hvars⟩ := hn
    have hpos := (bodyOf s).node.depth_pos
    refine (limitOr_enterExpansion formulaDepth b).bind ?_ ?_
    · simp only [Room, expansionCost, eliminate, depth_instantiate]
      omega
    · intro b' hroom hb
      have hopen : (([] : List DefinitionId).length < formulaMaxDepth - formulaDepth) := by
        simp only [List.length_nil]
        omega
      simp only [hres, Except.mapError, orError, ok_bind, require, if_pos hopen, List.not_mem_nil,
        not_false_eq_true, if_true, mapM_instantiateVariable_none]
      obtain ⟨expandBody, heq⟩ := exists_expandBody resolver levels
      rw [heq]
      have hbody := limitOr_body resolver expandBody ([] ++ [s]) hprim hvars 0 formulaDepth b'
      refine hbody.mono ?_ ?_
      · simp only [Room, expansionCost, eliminate, depth_instantiate, hb.1, hb.2]
        omega
      · rintro ⟨n', b''⟩ ⟨rfl, hs⟩
        exact ⟨rfl, hb.node hs⟩

theorem argument_bind {arguments : List (Variable FreeVariable)} {f : FreeVariable → Option ℕ}
    {k d : ℕ} {x : Variable FreeVariable}
    (hx : ∀ v ∈ x.occurrences, v.identifier.toNat < arguments.length) :
    argument (arguments.map (Variable.bind f k)) d x =
      (argument arguments d x).bind f (k + d) := by
  cases x with
  | bound i => rfl
  | free p =>
    have hp := hx p (by simp [Variable.occurrences])
    obtain ⟨a, ha⟩ : ∃ a, arguments[p.identifier.toNat]? = some a :=
      ⟨_, List.getElem?_eq_getElem hp⟩
    simp only [argument, List.getElem?_map, ha, Option.map_some]
    cases a with
    | bound i => rfl
    | free v =>
      simp only [Variable.bind]
      cases f v with
      | none => rfl
      | some i => simp [Nat.add_assoc]

theorem instantiate_bind {arguments : List (Variable FreeVariable)} {f : FreeVariable → Option ℕ}
    {k d : ℕ} {n : DefinedNode}
    (hn : ∀ v ∈ n.occurrences, v.identifier.toNat < arguments.length) :
    instantiate (arguments.map (Variable.bind f k)) d n =
      (instantiate arguments d n).bindFree f (k + d) := by
  induction n generalizing d with
  | equal l r | member l r =>
    simp only [Node.occurrences, List.mem_append] at hn
    simp only [instantiate, Node.bindFree, argument_bind fun v h => hn v (.inl h),
      argument_bind fun v h => hn v (.inr h)]
  | not n ih => simp only [instantiate, Node.bindFree, ih hn]
  | forAll n ih => simp only [instantiate, Node.bindFree, ih hn, Nat.add_assoc]
  | implies a b iha ihb =>
    simp only [Node.occurrences, List.mem_append] at hn
    simp only [instantiate, Node.bindFree, iha fun v h => hn v (.inl h),
      ihb fun v h => hn v (.inr h)]
  | definedRelation s xs =>
    simp only [instantiate, Node.bindFree, List.map_map, Node.definedRelation.injEq, true_and]
    apply List.map_congr_left
    intro x hx
    exact argument_bind fun v h => hn v (List.mem_flatMap.mpr ⟨x, hx, h⟩)

variable {resolver : DefinitionResolver} {bodyOf : DefinitionId → DefinedFormula}

theorem eliminate_bindFree {n : DefinedNode} (hn : Resolved resolver bodyOf n)
    (f : FreeVariable → Option ℕ) (k : ℕ) :
    eliminate bodyOf (n.bindFree f k) = (eliminate bodyOf n).bindFree f k := by
  induction n generalizing k with
  | equal l r | member l r => rfl
  | not n ih | forAll n ih => simp only [Node.bindFree, eliminate, ih hn]
  | implies a b iha ihb => simp only [Node.bindFree, eliminate, iha hn.1, ihb hn.2]
  | definedRelation s xs =>
    simp only [Node.bindFree, eliminate]
    exact instantiate_bind hn.2.2

theorem resolved_bindFree {n : DefinedNode} (f : FreeVariable → Option ℕ) (k : ℕ) :
    Resolved resolver bodyOf (n.bindFree f k) ↔ Resolved resolver bodyOf n := by
  induction n generalizing k with
  | equal l r | member l r => rfl
  | not n ih => exact ih k
  | forAll n ih => exact ih (k + 1)
  | implies a b iha ihb => exact and_congr (iha k) (ihb k)
  | definedRelation s xs => simp only [Node.bindFree, Resolved, List.length_map]

theorem expansionCost_bindFree (n : DefinedNode) (f : FreeVariable → Option ℕ) (k : ℕ) :
    expansionCost bodyOf (n.bindFree f k) = expansionCost bodyOf n := by
  induction n generalizing k <;> simp_all [Node.bindFree, expansionCost]

variable {M : Type*} {E : M → M → Prop} {R : DefinitionId → List M → Prop}

/-- The value of a formal variable: the value of its argument outside the body. -/
def formalValue (arguments : List (Variable FreeVariable)) (ρ : FreeVariable → M) (env : ℕ → M)
    (p : FreeVariable) : M :=
  match arguments[p.identifier.toNat]? with
  | some a => a.value ρ env
  | none => ρ p

theorem value_argument {arguments : List (Variable FreeVariable)} {ρ : FreeVariable → M}
    {env outer : ℕ → M} {d : ℕ} (he : ∀ i, env (i + d) = outer i) (x : Variable FreeVariable) :
    (argument arguments d x).value ρ env = x.value (formalValue arguments ρ outer) env := by
  cases x with
  | bound i => rfl
  | free p =>
    simp only [argument, Variable.value, formalValue]
    cases arguments[p.identifier.toNat]? with
    | none => rfl
    | some a =>
      cases a with
      | bound i => exact he i
      | free v => rfl

/-- An instantiated body is read with each formal variable at its argument. -/
theorem holds_instantiate {arguments : List (Variable FreeVariable)} {ρ : FreeVariable → M}
    {env : ℕ → M} (outer : ℕ → M) {d : ℕ} (he : ∀ i, env (i + d) = outer i) (n : DefinedNode) :
    (instantiate arguments d n).Holds E R ρ env ↔
      n.Holds E R (formalValue arguments ρ outer) env := by
  induction n generalizing d env with
  | equal l r | member l r => simp only [instantiate, Node.Holds, value_argument he]
  | not n ih => simp only [instantiate, Node.Holds, ih he]
  | implies a b iha ihb => simp only [instantiate, Node.Holds, iha he, ihb he]
  | forAll n ih =>
    have hpush : ∀ a i, push a env (i + (d + 1)) = outer i := fun a i => he i
    exact forall_congr' fun a => ih (hpush a)
  | definedRelation s xs =>
    simp only [instantiate, Node.Holds, List.map_map, Function.comp_def, value_argument he]

/-- A definition read as a relation: its body under every assignment that gives formal
variable `i` the value of argument `i`. -/
def definitionRelation (E : M → M → Prop) (bodyOf : DefinitionId → DefinedFormula) :
    DefinitionId → List M → Prop := fun s values =>
  ∀ σ : FreeVariable → M, (∀ v a, values[v.identifier.toNat]? = some a → σ v = a) →
    (bodyOf s).node.Holds E (fun _ _ => False) σ fun _ => σ ⟨0⟩

theorem holds_eliminate {n : DefinedNode} (hn : Resolved resolver bodyOf n)
    (ρ : FreeVariable → M) (env : ℕ → M) :
    (eliminate bodyOf n).Holds E R ρ env ↔
      n.Holds E (definitionRelation E bodyOf) ρ env := by
  induction n generalizing env with
  | equal l r | member l r => rfl
  | not n ih => simp only [eliminate, Node.Holds, ih hn]
  | implies a b iha ihb => simp only [eliminate, Node.Holds, iha hn.1, ihb hn.2]
  | forAll n ih => exact forall_congr' fun a => ih hn (push a env)
  | definedRelation s xs =>
    obtain ⟨-, hprim, hvars⟩ := hn
    rw [eliminate, holds_instantiate env fun i => rfl,
      Node.holds_of_symbols_eq_nil hprim fun _ _ => False]
    constructor
    · intro h σ hσ
      refine (Node.holds_congr (bodyOf s).wellScoped ?_ fun i hi => absurd hi (Nat.not_lt_zero i)).mp
        h
      intro v hv
      have hlt := hvars v hv
      rw [formalValue, List.getElem?_eq_getElem hlt]
      refine (hσ v _ ?_).symm
      rw [List.getElem?_map, List.getElem?_eq_getElem hlt]
      rfl
    · intro h
      refine (Node.holds_env (bodyOf s).wellScoped _ _ _).mp (h (formalValue xs ρ env) ?_)
      intro v a ha
      rw [List.getElem?_map] at ha
      obtain ⟨x, hx, rfl⟩ := Option.map_eq_some_iff.mp ha
      simp [formalValue, hx]

end DefinitionExpansion

open DefinitionExpansion

namespace DefinedFormula

/-- Truth of a formula whose definitions have the given bodies. -/
def Holds {M : Type*} (E : M → M → Prop) (bodyOf : DefinitionId → DefinedFormula)
    (ρ : FreeVariable → M) (f : DefinedFormula) : Prop :=
  f.node.Holds E (definitionRelation E bodyOf) ρ fun _ => ρ ⟨0⟩

variable {f : DefinedFormula} {resolver : DefinitionResolver}
  {bodyOf : DefinitionId → DefinedFormula} {maximumNodes : ℕ}

/-- Expansion succeeds exactly with room for the visited nodes and the depth of the result. -/
theorem expandWithNodeLimit_eq_ok_iff (hf : Resolved resolver bodyOf f.node) {formula : Formula}
    {used : ℕ} :
    f.expandWithNodeLimit resolver maximumNodes = .ok (formula, used) ↔
      formula.node.embed = eliminate bodyOf f.node ∧ used = expansionCost bodyOf f.node ∧
        Room 0 (NodeBudget.new maximumNodes) (expansionCost bodyOf f.node)
          (eliminate bodyOf f.node).depth := by
  have hl := limitOr_expandNode hf 255 0 (NodeBudget.new maximumNodes)
  have hmax : 255 + 1 = formulaMaxDepth := rfl
  rw [hmax] at hl
  rw [expandWithNodeLimit_eq_ok]
  constructor
  · rintro ⟨b, hb, rfl⟩
    rcases hl with ⟨e, -, he, -⟩ | ⟨⟨n, b'⟩, he, hroom, hn, hs⟩
    · rw [he] at hb
      cases hb
    · rw [he] at hb
      cases hb
      exact ⟨hn, used_of_spent_new hs, hroom⟩
  · rintro ⟨hn, rfl, hroom⟩
    rcases hl with ⟨e, -, -, hno⟩ | ⟨⟨n, b'⟩, he, -, hn', hs⟩
    · exact absurd hroom hno
    · dsimp only at hn' hs
      exact ⟨b', by rw [he, hn, hn'], (used_of_spent_new hs).symm⟩

/-- Without room the error is one of the two limits. -/
theorem expandWithNodeLimit_limit (maximumNodes : ℕ) (hf : Resolved resolver bodyOf f.node) :
    (∃ e, IsLimit e ∧ f.expandWithNodeLimit resolver maximumNodes = .error e) ∨
      ∃ r, f.expandWithNodeLimit resolver maximumNodes = .ok r := by
  have hl := limitOr_expandNode hf 255 0 (NodeBudget.new maximumNodes)
  rcases hl with ⟨e, he, hx, -⟩ | ⟨⟨n, b⟩, hx, -⟩
  · refine .inl ⟨e, he, ?_⟩
    have hx' : expandNode resolver formulaMaxDepth [] none 0 0 f.node
        (NodeBudget.new maximumNodes) = .error e := hx
    rw [expandWithNodeLimit, hx']
    rfl
  · obtain ⟨formula, -, h⟩ := exists_formula_of_expandNode hx
    exact .inr ⟨_, h⟩

theorem holds_of_expandWithNodeLimit (hf : Resolved resolver bodyOf f.node) {formula : Formula}
    {used : ℕ} (h : f.expandWithNodeLimit resolver maximumNodes = .ok (formula, used))
    {M : Type*} (E : M → M → Prop) (ρ : FreeVariable → M) :
    formula.Holds E ρ ↔ f.Holds E bodyOf ρ := by
  obtain ⟨hn, -, -⟩ := (expandWithNodeLimit_eq_ok_iff hf).mp h
  rw [Formula.Holds, ← Node.holds_embed (R := fun _ _ => False), hn, holds_eliminate hf, Holds]

theorem expandWithNodeLimit_forAll (hf : Resolved resolver bodyOf f.node) (v : FreeVariable)
    {formula : Formula} {used : ℕ}
    (h : (forAll v f).expandWithNodeLimit resolver maximumNodes = .ok (formula, used)) :
    ∃ body cost, f.expandWithNodeLimit resolver maximumNodes = .ok (body, cost) ∧
      formula = Formula.forAll v body ∧ used = cost + 1 := by
  have hf' : Resolved resolver bodyOf (forAll v f).node := (resolved_bindFree _ _).mpr hf
  obtain ⟨hn, hu, hroom⟩ := (expandWithNodeLimit_eq_ok_iff hf').mp h
  have helim : eliminate bodyOf (forAll v f).node =
      .forAll ((eliminate bodyOf f.node).bindFree (bindOne v) 0) := by
    rw [forAll, eliminate, eliminate_bindFree hf]
  have hcost : expansionCost bodyOf (forAll v f).node = expansionCost bodyOf f.node + 1 := by
    rw [forAll, expansionCost, expansionCost_bindFree]
  rw [helim, hcost] at hroom
  have hroom' : Room 0 (NodeBudget.new maximumNodes) (expansionCost bodyOf f.node)
      (eliminate bodyOf f.node).depth := by
    simp only [Room, Node.depth, Node.depth_bindFree] at hroom ⊢
    omega
  rcases expandWithNodeLimit_limit maximumNodes hf with ⟨e, he, hx⟩ | ⟨⟨body, cost⟩, hx⟩
  · rcases limitOr_expandNode hf 255 0 (NodeBudget.new maximumNodes) with
      ⟨_, -, -, hno⟩ | ⟨⟨n, b⟩, hx', -⟩
    · exact absurd hroom' hno
    · obtain ⟨_, -, hok⟩ := exists_formula_of_expandNode hx'
      rw [hok] at hx
      cases hx
  · obtain ⟨hbody, hcost', -⟩ := (expandWithNodeLimit_eq_ok_iff hf).mp hx
    refine ⟨body, cost, hx, ?_, by rw [hu, hcost, hcost']⟩
    apply Formula.ext
    apply Node.embed_injective (D := DefinitionId)
    rw [hn, helim, ← hbody, Node.bindFree_embed]
    rfl

/-- What elimination of definitions guarantees: limits are its only failures, truth is
kept in every structure, and it commutes with the operations on the outer formula. -/
structure ExpansionLaws.{u} (f : DefinedFormula) (resolver : DefinitionResolver)
    (bodyOf : DefinitionId → DefinedFormula) (maximumNodes : ℕ) : Prop where
  meaning : (∃ m, f.expandWithNodeLimit resolver maximumNodes = .error (.nodeLimitExceeded m)) ∨
    (∃ m, f.expandWithNodeLimit resolver maximumNodes = .error (.depthLimitExceeded m)) ∨
    ∃ formula used, f.expandWithNodeLimit resolver maximumNodes = .ok (formula, used) ∧
      ∀ (M : Type u) (E : M → M → Prop) (ρ : FreeVariable → M),
        formula.Holds E ρ ↔ f.Holds E bodyOf ρ
  rename : ∀ g formula used,
    (f.mapFreeVariables g).expandWithNodeLimit resolver maximumNodes = .ok (formula, used) ↔
      ∃ body, f.expandWithNodeLimit resolver maximumNodes = .ok (body, used) ∧
        formula = body.mapFreeVariables g
  substitute : ∀ source target formula used,
    (f.substituteFree source target).expandWithNodeLimit resolver maximumNodes =
        .ok (formula, used) ↔
      ∃ body, f.expandWithNodeLimit resolver maximumNodes = .ok (body, used) ∧
        formula = body.substituteFree source target
  quantify : ∀ v formula used,
    (forAll v f).expandWithNodeLimit resolver maximumNodes = .ok (formula, used) →
      ∃ body cost, f.expandWithNodeLimit resolver maximumNodes = .ok (body, cost) ∧
        formula = Formula.forAll v body ∧ used = cost + 1
  quantify_limit : ∀ v e,
    (forAll v f).expandWithNodeLimit resolver maximumNodes = .error e → IsLimit e

theorem expandWithNodeLimit_mapFreeVariables_iff (f : DefinedFormula)
    (g : FreeVariable → FreeVariable) (formula : Formula) (used : ℕ) :
    (f.mapFreeVariables g).expandWithNodeLimit resolver maximumNodes = .ok (formula, used) ↔
      ∃ body, f.expandWithNodeLimit resolver maximumNodes = .ok (body, used) ∧
        formula = body.mapFreeVariables g := by
  constructor
  · exact exists_of_expandWithNodeLimit_mapFreeVariables g
  · rintro ⟨body, h, rfl⟩
    exact expandWithNodeLimit_mapFreeVariables g h

theorem substituteFree_eq_map (source target : FreeVariable) (f : DefinedFormula) :
    f.substituteFree source target = f.mapFreeVariables (Formula.substitution source target) := by
  unfold substituteFree
  split_ifs with h
  · subst h
    apply DefinedFormula.ext
    simp only [mapFreeVariables, Formula.substitution_self, Node.mapFree_id]
  · rfl

theorem resolved_of_certificates {sha256 : List UInt8 → Digest}
    {certificates : DefinitionId → DefinitionCertificate}
    (n : DefinedNode)
    (hvalid : ∀ s ∈ n.symbols, ∃ kind body,
      DefinitionCertificate.new sha256 kind body = .ok (certificates s))
    (hresolve : ∀ s ∈ n.symbols, resolver s = .ok (some (certificates s).resolution))
    (harity : ∀ p ∈ n.applications, p.2.length = (certificates p.1).relationArity) :
    Resolved resolver (fun s => (certificates s).body) n := by
  induction n with
  | equal l r | member l r => trivial
  | not n ih | forAll n ih => exact ih hvalid hresolve harity
  | implies a b iha ihb =>
    simp only [Node.symbols, Node.applications, List.mem_append] at hvalid hresolve harity
    exact ⟨iha (fun s h => hvalid s (.inl h)) (fun s h => hresolve s (.inl h))
        fun p h => harity p (.inl h),
      ihb (fun s h => hvalid s (.inr h)) (fun s h => hresolve s (.inr h))
        fun p h => harity p (.inr h)⟩
  | definedRelation s xs =>
    simp only [Node.symbols, Node.applications, List.mem_singleton, forall_eq] at hvalid hresolve harity
    obtain ⟨kind, body, hnew⟩ := hvalid
    obtain ⟨hv, hc⟩ := DefinitionCertificate.new_eq_ok.1 hnew
    have hbody : (certificates s).body = body := by rw [hc]; rfl
    have hkind : (certificates s).relationArity = kind.graphArity := by rw [hc]; rfl
    refine ⟨?_, ?_, ?_⟩
    · rw [hresolve, DefinitionCertificate.resolution, ← harity]
    · simp only [hbody]
      exact hv.primitive
    · simp only [hbody, harity, hkind]
      exact hv.declared

/-- Elimination with resolved certificates of matching arity obeys the expansion laws. -/
theorem expansion_laws.{u} (sha256 : List UInt8 → Digest) (f : DefinedFormula)
    (resolver : DefinitionResolver) (certificates : DefinitionId → DefinitionCertificate)
    (maximumNodes : ℕ)
    (hvalid : ∀ s ∈ f.definitionReferences, ∃ kind body,
      DefinitionCertificate.new sha256 kind body = .ok (certificates s))
    (hresolve : ∀ s ∈ f.definitionReferences, resolver s = .ok (some (certificates s).resolution))
    (harity : ∀ p ∈ f.node.applications, p.2.length = (certificates p.1).relationArity) :
    ExpansionLaws.{u} f resolver (fun s => (certificates s).body) maximumNodes := by
  have hf := resolved_of_certificates f.node hvalid hresolve harity
  refine ⟨?_, expandWithNodeLimit_mapFreeVariables_iff f, ?_, ?_, ?_⟩
  · rcases expandWithNodeLimit_limit maximumNodes hf with
      ⟨_, ⟨m⟩ | ⟨m⟩, he⟩ | ⟨⟨formula, used⟩, h⟩
    · exact .inl ⟨m, he⟩
    · exact .inr (.inl ⟨m, he⟩)
    · exact .inr (.inr ⟨formula, used, h, fun M E ρ => holds_of_expandWithNodeLimit hf h E ρ⟩)
  · intro source target formula used
    simp only [substituteFree_eq_map, Formula.substituteFree_eq_map]
    exact expandWithNodeLimit_mapFreeVariables_iff f _ formula used
  · intro v formula used h
    exact expandWithNodeLimit_forAll hf v h
  · intro v e he
    have hf' : Resolved resolver (fun s => (certificates s).body) (forAll v f).node :=
      (resolved_bindFree _ _).mpr hf
    rcases expandWithNodeLimit_limit maximumNodes hf' with
      ⟨e', hlimit, he'⟩ | ⟨r, hr⟩
    · rw [he] at he'
      cases he'
      exact hlimit
    · rw [hr] at he
      cases he

/-- The relation `v ∈ v`, as a certificate with a constant hash. -/
def selfMembership : DefinitionCertificate :=
  .fromParts (fun _ => 0) (.relation 1) (member ⟨0⟩ ⟨0⟩)
    (DefinitionCertificate.bytesOf (.relation 1) (member ⟨0⟩ ⟨0⟩))

theorem selfMembership_new :
    DefinitionCertificate.new (fun _ => 0) (.relation 1) (member ⟨0⟩ ⟨0⟩) = .ok selfMembership := by
  refine DefinitionCertificate.new_eq_ok.2 ⟨⟨by decide, by decide, rfl, by decide, ?_,
    ⟨by decide, by decide, by decide⟩⟩, rfl⟩
  intro i hi
  have : i = 0 := Nat.lt_one_iff.mp hi
  subst this
  exact ⟨⟨0⟩, by decide, rfl⟩

/-- The laws at a quantified application: the bound argument is lifted into the body. -/
theorem expansion_laws_selfMembership :
    ExpansionLaws.{0} (forAll ⟨7⟩ (definedRelation 0 [⟨7⟩]))
      (fun _ => .ok (some selfMembership.resolution)) (fun _ => selfMembership.body)
      formulaMaxNodes :=
  expansion_laws (fun _ => 0) _ _ (fun _ => selfMembership) _
    (fun _ _ => ⟨_, _, selfMembership_new⟩) (fun _ _ => rfl) (by decide)

end DefinedFormula
end Naome
