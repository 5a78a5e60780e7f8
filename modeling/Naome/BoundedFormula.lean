import Naome.Materialization

/-!
# Bounded materialization of a formula graph

A graph is written out in prefix order until a limit of the tree codec is passed; a complete walk
is then read back by the codec. The walk counts the root as depth zero and the codec counts it as
depth one, so that one depth passes the walk and fails in the codec.
-/
namespace Naome
open LocallyNameless Outcome FormulaCodec

def hexadecimal (byte : UInt8) : String :=
  String.ofList ['0', 'x', Nat.digitChar (byte.toNat / 16), Nat.digitChar (byte.toNat % 16)]

/-- The texts of the foundation codec. The two errors about definitions are those of defined
formulas. -/
def FormulaCodecError.message : FormulaCodecError → String
  | .inputTooLong actual maximum =>
    s!"canonical formula has {actual} bytes; the limit is {maximum}"
  | .nodeLimitExceeded maximum => s!"formula exceeds the limit of {maximum} nodes"
  | .depthLimitExceeded maximum => s!"formula nesting exceeds the limit of {maximum}"
  | .tooManyDefinitionArguments actual =>
    s!"defined relation has {actual} arguments; the count must fit u32"
  | .unexpandedDefinition _ => "primitive formula encoding contains a definition"
  | .unexpectedEnd => "canonical formula ended unexpectedly"
  | .unknownFormulaTag tag => s!"unknown canonical formula tag {hexadecimal tag}"
  | .unknownVariableTag tag => s!"unknown canonical variable tag {hexadecimal tag}"
  | .danglingBoundVariable index binderDepth =>
    s!"bound-variable index {index} is invalid at binder depth {binderDepth}"
  | .trailingBytes remaining => s!"canonical formula has {remaining} trailing bytes"

namespace BoundedFormula

variable {I : Type}

/-- Writes the variables of an atom; a bound index must fit 32 bits. -/
def pushVariables (bytes : List UInt8) : List (Variable FreeVariable) → Option (List UInt8)
  | [] => some bytes
  | .free v :: xs => pushVariables (bytes ++ variableBytes (.free v)) xs
  | .bound i :: xs =>
    if i < 2 ^ 32 then pushVariables (bytes ++ variableBytes (.bound i)) xs else none

/-- The walk with the number of nodes it may still load; the top of the stack is its head. -/
def walk (load : I → Except String (GraphNode I)) :
    ℕ → List (I × ℕ) → List UInt8 → Except String (Option Formula)
  | _, [], bytes => ((Formula.decodeCanonical bytes).map some).mapError FormulaCodecError.message
  | 0, _ :: _, _ => .ok none
  | left + 1, (id, depth) :: pending, bytes =>
    if depth > formulaMaxDepth then .ok none
    else do
      let node ← load id
      match pushVariables (bytes ++ [node.tag]) node.operands with
      | none => return none
      | some bytes =>
        if bytes.length > formulaMaxBytes then return none
        else walk load left (node.children.map (·, depth + 1) ++ pending) bytes

end BoundedFormula

/-- The tree of a graph, when the tree codec admits it. -/
def boundedFormula {I : Type} (root : I) (load : I → Except String (GraphNode I)) :
    Except String (Option Formula) :=
  BoundedFormula.walk load formulaMaxNodes [(root, 0)] []

namespace BoundedFormula
open TreeProjection

variable {I : Type} {load : I → Except String (GraphNode I)}

/-- The tree at a node of an acyclic graph all of whose loads succeed. -/
inductive Unfolds (load : I → Except String (GraphNode I)) : I → PrimitiveNode → Prop
  | intro {id : I} {node : GraphNode I} {n : PrimitiveNode} {subtree : I → PrimitiveNode} :
    load id = .ok node → graphNodeOf n = node.map subtree →
    (∀ i ∈ node.children, Unfolds load i (subtree i)) → Unfolds load id n

/-- The nodes on the stack with the trees below them. -/
abbrev Pends (load : I → Except String (GraphNode I)) (pending : List (I × ℕ))
    (trees : List (PrimitiveNode × ℕ)) : Prop :=
  List.Forall₂ (fun p t => Unfolds load p.1 t.1 ∧ p.2 = t.2) pending trees

/-- The nodes that are still to be loaded. -/
def pendingNodes (trees : List (PrimitiveNode × ℕ)) : ℕ :=
  (trees.map fun t => t.1.nodeCount).sum

def pendingBytes (trees : List (PrimitiveNode × ℕ)) : List UInt8 :=
  trees.flatMap fun t => nodeBytes primitiveFormat t.1

/-- The deepest node is still one that the walk loads. -/
def Shallow (trees : List (PrimitiveNode × ℕ)) : Prop :=
  ∀ t ∈ trees, t.2 + t.1.depth ≤ formulaMaxDepth + 1

theorem pushVariables_eq {xs : List (Variable FreeVariable)} (bytes : List UInt8)
    (h : ∀ x ∈ xs, x.Scoped (2 ^ 32)) :
    pushVariables bytes xs = some (bytes ++ xs.flatMap variableBytes) := by
  induction xs generalizing bytes with
  | nil => simp [pushVariables]
  | cons x xs ih =>
    have hxs : ∀ x ∈ xs, x.Scoped (2 ^ 32) := fun x hx => h x (List.mem_cons_of_mem _ hx)
    cases x with
    | free v =>
      rw [pushVariables, ih _ hxs]
      simp
    | bound i =>
      have hi : i < 2 ^ 32 := h (.bound i) List.mem_cons_self
      rw [pushVariables, if_pos hi, ih _ hxs]
      simp

/-- The subtrees of a tree at the next depth. -/
def subtrees (n : PrimitiveNode) (depth : ℕ) : List (PrimitiveNode × ℕ) :=
  (graphNodeOf n).children.map (·, depth + 1)

theorem pends_subtrees {node : GraphNode I} {n : PrimitiveNode} {subtree : I → PrimitiveNode}
    (hnode : graphNodeOf n = node.map subtree)
    (hsub : ∀ i ∈ node.children, Unfolds load i (subtree i)) {depth : ℕ} :
    Pends load (node.children.map (·, depth + 1)) (subtrees n depth) := by
  rw [subtrees, hnode, GraphNode.children_map, List.map_map, Pends, List.forall₂_map_left_iff,
    List.forall₂_map_right_iff, List.forall₂_same]
  intro i hi
  exact ⟨hsub i hi, rfl⟩

theorem pendingNodes_cons (n : PrimitiveNode) (depth : ℕ) (trees : List (PrimitiveNode × ℕ)) :
    pendingNodes ((n, depth) :: trees) = pendingNodes (subtrees n depth ++ trees) + 1 := by
  have hcount := nodeCount_graphNodeOf n
  have hsubtrees : (subtrees n depth).map (fun t => t.1.nodeCount) =
      (graphNodeOf n).children.map Node.nodeCount := by
    rw [subtrees, List.map_map]
    rfl
  rw [remaining] at hcount
  simp only [pendingNodes, List.map_cons, List.map_append, List.sum_cons, List.sum_append, hsubtrees]
  omega

theorem pendingBytes_cons (n : PrimitiveNode) (depth : ℕ) (trees : List (PrimitiveNode × ℕ)) :
    pendingBytes ((n, depth) :: trees) = (graphNodeOf n).tag ::
      ((graphNodeOf n).operands.flatMap variableBytes ++
        pendingBytes (subtrees n depth ++ trees)) := by
  simp [pendingBytes, subtrees, nodeBytes_graphNodeOf n, List.flatMap_map]

theorem depth_graphNodeOf_le {n : PrimitiveNode} {d : ℕ} :
    n.depth ≤ d + 1 ↔ ∀ m ∈ (graphNodeOf n).children, m.depth ≤ d := by
  cases n with
  | definedRelation s => exact s.elim
  | _ => simp [graphNodeOf, GraphNode.children, Node.depth]

theorem shallow_cons {n : PrimitiveNode} {depth : ℕ} {trees : List (PrimitiveNode × ℕ)}
    (hdepth : depth ≤ formulaMaxDepth) :
    Shallow ((n, depth) :: trees) ↔ Shallow (subtrees n depth ++ trees) := by
  have hhead : depth + n.depth ≤ formulaMaxDepth + 1 ↔
      ∀ m ∈ (graphNodeOf n).children, depth + 1 + m.depth ≤ formulaMaxDepth + 1 := by
    have hdepths := @depth_graphNodeOf_le n (formulaMaxDepth - depth)
    constructor
    · intro h m hm
      have := hdepths.mp (by omega) m hm
      omega
    · intro h
      have := hdepths.mpr fun m hm => by
        have := h m hm
        omega
      omega
  simp only [Shallow, List.forall_mem_cons, List.forall_mem_append, subtrees, List.forall_mem_map,
    hhead]

/-- A walk within its limits hands the bytes of the trees to the codec. -/
theorem walk_of_shallow {left : ℕ} {pending : List (I × ℕ)} {bytes : List UInt8}
    {trees : List (PrimitiveNode × ℕ)} (hpends : Pends load pending trees)
    (hshallow : Shallow trees) (hnodes : pendingNodes trees ≤ left)
    (hnarrow : ∀ t ∈ trees, Narrow t.1)
    (hbytes : (bytes ++ pendingBytes trees).length ≤ formulaMaxBytes) :
    walk load left pending bytes =
      ((Formula.decodeCanonical (bytes ++ pendingBytes trees)).map some).mapError
        FormulaCodecError.message := by
  induction left generalizing pending bytes trees with
  | zero =>
    cases hpends with
    | nil => simp [walk, pendingBytes]
    | @cons _ t _ _ hhead _ =>
      have := t.1.nodeCount_pos
      simp only [pendingNodes, List.map_cons, List.sum_cons] at hnodes
      omega
  | succ left ih =>
    cases hpends with
    | nil => simp [walk, pendingBytes]
    | @cons p t pending trees hhead hrest =>
      obtain ⟨id, depth⟩ := p
      obtain ⟨n, depth'⟩ := t
      obtain ⟨⟨hload, hnode, hsub⟩, hdepths⟩ := hhead
      dsimp only at hload hdepths
      subst hdepths
      rename_i node subtree
      have hpos := n.depth_pos
      have hdepth : depth ≤ formulaMaxDepth := by
        have := hshallow _ List.mem_cons_self
        dsimp only at this
        omega
      obtain ⟨hoperands, hchildren⟩ := (hnarrow (n, depth) List.mem_cons_self).children
      have htag : node.tag = (graphNodeOf n).tag := by rw [hnode, GraphNode.tag_map]
      have hvars : node.operands = (graphNodeOf n).operands := by
        rw [hnode, GraphNode.operands_map]
      have htotal : bytes ++ pendingBytes ((n, depth) :: trees) =
          bytes ++ [node.tag] ++ node.operands.flatMap variableBytes ++
            pendingBytes (subtrees n depth ++ trees) := by
        rw [pendingBytes_cons, htag, hvars]
        simp
      rw [htotal] at hbytes ⊢
      have hwritten : ¬(bytes ++ [node.tag] ++ node.operands.flatMap variableBytes).length >
          formulaMaxBytes := by
        rw [List.length_append] at hbytes
        omega
      rw [walk, if_neg (by omega), hload]
      simp only [ok_bind, pushVariables_eq _ (hvars ▸ hoperands), if_neg hwritten]
      refine ih (List.rel_append (pends_subtrees hnode hsub) hrest) ((shallow_cons hdepth).mp hshallow)
        ?_ ?_ hbytes
      · rw [pendingNodes_cons] at hnodes
        omega
      · simp only [List.forall_mem_append, subtrees, List.forall_mem_map]
        exact ⟨hchildren, fun t ht => hnarrow t (List.mem_cons_of_mem _ ht)⟩

/-- Every other walk ends at one of its limits. -/
theorem walk_of_not_shallow {left : ℕ} {pending : List (I × ℕ)} {bytes : List UInt8}
    {trees : List (PrimitiveNode × ℕ)} (hpends : Pends load pending trees)
    (hlarge : ¬(Shallow trees ∧ pendingNodes trees ≤ left)) :
    walk load left pending bytes = .ok none := by
  induction left generalizing pending bytes trees with
  | zero =>
    cases hpends with
    | nil => exact absurd ⟨by simp [Shallow], by simp [pendingNodes]⟩ hlarge
    | cons hhead _ => rfl
  | succ left ih =>
    cases hpends with
    | nil => exact absurd ⟨by simp [Shallow], by simp [pendingNodes]⟩ hlarge
    | @cons p t pending trees hhead hrest =>
      obtain ⟨id, depth⟩ := p
      obtain ⟨n, depth'⟩ := t
      obtain ⟨⟨hload, hnode, hsub⟩, hdepths⟩ := hhead
      dsimp only at hload hdepths
      subst hdepths
      by_cases hdepth : depth > formulaMaxDepth
      · rw [walk, if_pos hdepth]
      · rw [walk, if_neg hdepth, hload]
        simp only [ok_bind]
        split
        · rfl
        · split_ifs with hlong
          · rfl
          · refine ih (List.rel_append (pends_subtrees hnode hsub) hrest) ?_
            rw [pendingNodes_cons, shallow_cons (not_lt.mp hdepth)] at hlarge
            intro h
            exact hlarge ⟨h.1, Nat.succ_le_succ h.2⟩

/-- The codec refuses the bytes of a tree that is one level too deep. -/
theorem decodeCanonical_of_deep {n : PrimitiveNode} (hscoped : n.Scoped 0)
    (hdepth : n.depth = formulaMaxDepth + 1) :
    ∃ e, Formula.decodeCanonical (nodeBytes primitiveFormat n) = .error e := by
  cases hdecoded : Formula.decodeCanonical (nodeBytes primitiveFormat n) with
  | error e => exact ⟨e, rfl⟩
  | ok f =>
    obtain ⟨hlimits, hbytes⟩ := Formula.decodeCanonical_eq_ok.mp hdecoded
    have hwide : formulaMaxDepth + 1 ≤ 2 ^ 32 := by decide
    have hnode : n = f.node := (nodeBytes_append_inj primitiveFormat_lawful hscoped f.wellScoped
      (PrimitiveNode.reads _) (PrimitiveNode.reads _) (hdepth.le.trans hwide)
      (by have := hlimits.2; omega) (congrArg (· ++ []) hbytes)).1
    have := hlimits.2
    rw [← hnode] at this
    omega

/-- The walk and the codec together, by the size of the tree. -/
theorem boundedFormula_eq {root : I} {n : PrimitiveNode} (hunfolds : Unfolds load root n)
    (hscoped : n.Scoped 0) :
    (n.nodeCount ≤ formulaMaxNodes → n.depth ≤ formulaMaxDepth →
      boundedFormula root load = .ok (some ⟨n, hscoped⟩)) ∧
    (n.nodeCount ≤ formulaMaxNodes → n.depth = formulaMaxDepth + 1 →
      ∃ message, boundedFormula root load = .error message) ∧
    (¬(n.nodeCount ≤ formulaMaxNodes ∧ n.depth ≤ formulaMaxDepth + 1) →
      boundedFormula root load = .ok none) := by
  have hpends : Pends load [(root, 0)] [(n, 0)] := .cons ⟨hunfolds, rfl⟩ .nil
  have hpending : pendingBytes [(n, 0)] = nodeBytes primitiveFormat n := by simp [pendingBytes]
  have hnodes : pendingNodes [(n, 0)] = n.nodeCount := by simp [pendingNodes]
  have hshallow : Shallow [(n, 0)] ↔ n.depth ≤ formulaMaxDepth + 1 := by simp [Shallow]
  have hwide : formulaMaxDepth + 1 ≤ 2 ^ 32 := by decide
  have hcomplete : n.nodeCount ≤ formulaMaxNodes → n.depth ≤ formulaMaxDepth + 1 →
      boundedFormula root load =
        ((Formula.decodeCanonical (nodeBytes primitiveFormat n)).map some).mapError
          FormulaCodecError.message := by
    intro hcount hdepth
    have hlength := length_nodeBytes_le primitiveFormat (PrimitiveNode.symbols_eq_nil n) hcount
    rw [← List.nil_append (nodeBytes primitiveFormat n), ← hpending] at hlength ⊢
    exact walk_of_shallow hpends (hshallow.mpr hdepth) (hnodes.trans_le hcount)
      (by simpa using ⟨0, hscoped, by omega⟩) hlength
  refine ⟨?_, ?_, ?_⟩
  · intro hcount hdepth
    have hdecoded : Formula.decodeCanonical (nodeBytes primitiveFormat n) = .ok ⟨n, hscoped⟩ :=
      Formula.decodeCanonical_eq_ok.mpr ⟨⟨hcount, hdepth⟩, rfl⟩
    rw [hcomplete hcount (by omega), hdecoded]
    rfl
  · intro hcount hdepth
    obtain ⟨e, he⟩ := decodeCanonical_of_deep hscoped hdepth
    rw [hcomplete hcount hdepth.le, he]
    exact ⟨_, rfl⟩
  · intro hlarge
    apply walk_of_not_shallow hpends
    rw [hshallow, hnodes]
    tauto

/-- Materialization tells a tree outside the codec's limits from a corrupt graph, except for the
trees that are exactly one level too deep and have an admissible number of nodes. -/
theorem boundedFormula_separates_iff {root : I} {n : PrimitiveNode}
    (hunfolds : Unfolds load root n) (hscoped : n.Scoped 0) :
    ((n.nodeCount ≤ 65536 ∧ n.depth ≤ 256 ∧ (nodeBytes primitiveFormat n).length ≤ 393216 →
        boundedFormula root load = .ok (some ⟨n, hscoped⟩)) ∧
      (¬(n.nodeCount ≤ 65536 ∧ n.depth ≤ 256 ∧ (nodeBytes primitiveFormat n).length ≤ 393216) →
        boundedFormula root load = .ok none) ∧
      (∀ message, boundedFormula root load ≠ .error message) ∧
      ((∃ f, boundedFormula root load = .ok (some f)) ↔ (foldGraph Shape.of n).fits = true)) ↔
    ¬(n.nodeCount ≤ 65536 ∧ n.depth = 257) := by
  obtain ⟨hsome, herror, hnone⟩ := boundedFormula_eq hunfolds hscoped
  have hbytes : n.nodeCount ≤ 65536 → (nodeBytes primitiveFormat n).length ≤ 393216 :=
    length_nodeBytes_le _ (PrimitiveNode.symbols_eq_nil n)
  have hfits : (foldGraph Shape.of n).fits = true ↔ n.nodeCount ≤ 65536 ∧ n.depth ≤ 256 := by
    rw [foldGraph_shapeOf, fits_treeShape]
    exact ⟨fun h => ⟨h.1, h.2.2⟩, fun h => ⟨h.1, hbytes h.1, h.2⟩⟩
  simp only [formulaMaxNodes, formulaMaxDepth] at hsome herror hnone
  constructor
  · rintro ⟨_, _, hnever, _⟩ ⟨hcount, hdepth⟩
    obtain ⟨message, hmessage⟩ := herror hcount hdepth
    exact hnever message hmessage
  · intro hlevel
    rw [hfits]
    by_cases hwithin : n.nodeCount ≤ 65536 ∧ n.depth ≤ 256
    · have hresult := hsome hwithin.1 hwithin.2
      refine ⟨fun _ => hresult, fun h => absurd ⟨hwithin.1, hwithin.2, hbytes hwithin.1⟩ h, ?_, ?_⟩
      · simp [hresult]
      · simp [hresult, hwithin]
    · have hresult := hnone (by omega)
      refine ⟨fun h => absurd ⟨h.1, h.2.1⟩ hwithin, fun _ => hresult, ?_, ?_⟩
      · simp [hresult]
      · simp only [hresult, Except.ok.injEq, reduceCtorEq, exists_false, hwithin]

/-- A negation above every node and one equation at the bottom. -/
def negations : ℕ → Except String (GraphNode ℕ)
  | 0 => .ok (.equal (.free ⟨0⟩) (.free ⟨0⟩))
  | k + 1 => .ok (.not k)

def negated : ℕ → PrimitiveNode
  | 0 => .equal (.free ⟨0⟩) (.free ⟨0⟩)
  | k + 1 => .not (negated k)

theorem unfolds_negated (k : ℕ) : Unfolds negations k (negated k) := by
  induction k with
  | zero => exact @Unfolds.intro _ _ _ _ _ (fun _ => negated 0) rfl rfl (by simp [GraphNode.children])
  | succ k ih =>
    have hnode : graphNodeOf (negated (k + 1)) = (GraphNode.not k).map fun _ => negated k := rfl
    exact .intro rfl hnode (by simpa [GraphNode.children] using ih)

theorem negated_properties (k : ℕ) :
    (negated k).Scoped 0 ∧ (negated k).nodeCount = k + 1 ∧ (negated k).depth = k + 1 := by
  induction k with
  | zero => simp [negated, Node.Scoped, Node.nodeCount, Node.depth, Variable.Scoped]
  | succ k ih =>
    obtain ⟨hscoped, hcount, hdepth⟩ := ih
    exact ⟨hscoped, by simp [negated, Node.nodeCount, hcount], by simp [negated, Node.depth, hdepth]⟩

/-- The tree at depth 257 is reported as corrupt. -/
theorem boundedFormula_negations_256 :
    ∃ n, Unfolds negations 256 n ∧ n.Scoped 0 ∧ n.nodeCount = 257 ∧ n.depth = 257 ∧
      ∃ message, boundedFormula 256 negations = .error message := by
  obtain ⟨hscoped, hcount, hdepth⟩ := negated_properties 256
  have hunfolds := unfolds_negated 256
  obtain ⟨-, herror, -⟩ := boundedFormula_eq hunfolds hscoped
  refine ⟨_, hunfolds, hscoped, hcount, hdepth, herror ?_ hdepth⟩
  rw [hcount]
  decide

theorem boundedFormula_separates_negations_1 :
    ∃ f, boundedFormula 1 negations = .ok (some f) := by
  obtain ⟨hscoped, hcount, hdepth⟩ := negated_properties 1
  have hseparates := (boundedFormula_separates_iff (unfolds_negated 1) hscoped).mpr (by omega)
  refine ⟨_, hseparates.1 ⟨by omega, by omega, ?_⟩⟩
  exact length_nodeBytes_le _ (PrimitiveNode.symbols_eq_nil _) (by rw [hcount]; decide)

end BoundedFormula
end Naome
