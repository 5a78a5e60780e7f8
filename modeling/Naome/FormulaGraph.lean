import Naome.Checker

/-!
# Formula graphs

Constant-size nodes for formulas whose trees do not fit in memory. A node's children are handles
of any type. Structural properties, tree costs and addresses are computed from the children's.
-/
namespace Naome
open LocallyNameless ByteCursor

inductive GraphNode (I : Type)
  | equal (left right : Variable FreeVariable)
  | member (element set : Variable FreeVariable)
  | not (body : I)
  | implies (antecedent consequent : I)
  | forAll (body : I)
  deriving DecidableEq

namespace GraphNode

variable {I J K : Type}

def map (f : I → J) : GraphNode I → GraphNode J
  | .equal a b => .equal a b
  | .member a b => .member a b
  | .not a => .not (f a)
  | .implies a b => .implies (f a) (f b)
  | .forAll a => .forAll (f a)

/-- Visits the children from left to right. -/
def mapM {ε : Type} (f : I → Except ε J) : GraphNode I → Except ε (GraphNode J)
  | .equal a b => .ok (.equal a b)
  | .member a b => .ok (.member a b)
  | .not a => do return .not (← f a)
  | .implies a b => do
    let a ← f a
    let b ← f b
    return .implies a b
  | .forAll a => do return .forAll (← f a)

def children : GraphNode I → List I
  | .equal _ _ => []
  | .member _ _ => []
  | .not a => [a]
  | .implies a b => [a, b]
  | .forAll a => [a]

def tag : GraphNode I → UInt8
  | .equal _ _ => 0
  | .member _ _ => 1
  | .not _ => 2
  | .implies _ _ => 3
  | .forAll _ => 4

/-- The variables of an atom. -/
def operands : GraphNode I → List (Variable FreeVariable)
  | .equal a b => [a, b]
  | .member a b => [a, b]
  | _ => []

@[simp] theorem map_map (f : I → J) (g : J → K) (node : GraphNode I) :
    (node.map f).map g = node.map (g ∘ f) := by
  cases node <;> rfl

theorem map_congr {f g : I → J} {node : GraphNode I} (h : ∀ i ∈ node.children, f i = g i) :
    node.map f = node.map g := by
  cases node with
  | equal | member => rfl
  | not a | forAll a => simp [map, h a (by simp [children])]
  | implies a b => simp [map, h a (by simp [children]), h b (by simp [children])]

@[simp] theorem children_map (f : I → J) (node : GraphNode I) :
    (node.map f).children = node.children.map f := by
  cases node <;> rfl

@[simp] theorem tag_map (f : I → J) (node : GraphNode I) : (node.map f).tag = node.tag := by
  cases node <;> rfl

@[simp] theorem operands_map (f : I → J) (node : GraphNode I) :
    (node.map f).operands = node.operands := by
  cases node <;> rfl

theorem mapM_eq_ok {ε : Type} {f : I → Except ε J} {node : GraphNode I} {result : GraphNode J}
    (h : node.mapM f = .ok result) : ∀ i ∈ node.children, ∃ j, f i = .ok j := by
  intro i hi
  cases node with
  | equal | member => simp [children] at hi
  | not a | forAll a =>
    simp only [children, List.mem_singleton] at hi
    simp only [mapM, Outcome.bind_eq_ok] at h
    obtain ⟨j, hj, _⟩ := h
    exact ⟨j, hi ▸ hj⟩
  | implies a b =>
    simp only [mapM, Outcome.bind_eq_ok] at h
    obtain ⟨j, hj, k, hk, _⟩ := h
    simp only [children, List.mem_cons, List.not_mem_nil, or_false] at hi
    rcases hi with rfl | rfl
    · exact ⟨j, hj⟩
    · exact ⟨k, hk⟩

theorem mapM_of_children {ε : Type} {f : I → Except ε J} {g : I → J} {node : GraphNode I}
    (h : ∀ i ∈ node.children, f i = .ok (g i)) : node.mapM f = .ok (node.map g) := by
  cases node with
  | equal | member => rfl
  | not a | forAll a => simp [mapM, map, h a (by simp [children]), pure, Except.pure]
  | implies a b =>
    simp [mapM, map, h a (by simp [children]), h b (by simp [children]), pure, Except.pure]

end GraphNode

/-- `requiredBinders` counts the enclosing binders that make all bound indices valid. -/
structure Properties where
  hasFreeVariables : Bool
  requiredBinders : ℕ
  deriving DecidableEq, Repr

namespace Properties

def closed (p : Properties) : Bool := !p.hasFreeVariables && p.requiredBinders = 0

def ofVariable : Variable FreeVariable → Properties
  | .free _ => ⟨true, 0⟩
  | .bound i => ⟨false, i + 1⟩

def combine (a b : Properties) : Properties :=
  ⟨a.hasFreeVariables || b.hasFreeVariables, max a.requiredBinders b.requiredBinders⟩

end Properties

/-- The properties of a node from those of its children. -/
def GraphNode.properties : GraphNode Properties → Properties
  | .equal a b => (Properties.ofVariable a).combine (Properties.ofVariable b)
  | .member a b => (Properties.ofVariable a).combine (Properties.ofVariable b)
  | .not p => p
  | .implies p q => p.combine q
  | .forAll p => ⟨p.hasFreeVariables, p.requiredBinders - 1⟩

/-- The cost of the unfolded tree, saturated one above each limit. -/
structure Shape where
  nodes : ℕ
  bytes : ℕ
  depth : ℕ
  deriving DecidableEq, Repr

namespace Shape

/-- Adds one child. -/
def add (shape child : Shape) : Shape :=
  ⟨min (shape.nodes + child.nodes) (formulaMaxNodes + 1),
    min (shape.bytes + child.bytes) (formulaMaxBytes + 1),
    max shape.depth (min (child.depth + 1) (formulaMaxDepth + 1))⟩

def of (node : GraphNode Shape) : Shape :=
  node.children.foldl add
    ⟨1, match node with
      | .equal _ _ => 11
      | .member _ _ => 11
      | _ => 1, 1⟩

def fits (shape : Shape) : Bool :=
  decide (shape.nodes ≤ formulaMaxNodes) && decide (shape.bytes ≤ formulaMaxBytes) &&
    decide (shape.depth ≤ formulaMaxDepth)

end Shape

def graphNodeDomain : List UInt8 := asciiBytes "naome:formula-graph" ++ [0]

def graphVariableBytes : Variable FreeVariable → List UInt8
  | .free v => 0 :: bigEndian 8 v.identifier.toNat
  | .bound i => 1 :: bigEndian 8 i

/-- The constant-size encoding of a node; its children are content addresses. -/
def graphNodeBytes (node : GraphNode Digest) (p : Properties) : List UInt8 :=
  graphNodeDomain ++ node.children.flatMap digestBytes ++ [node.tag] ++
    node.operands.flatMap graphVariableBytes ++ [if p.hasFreeVariables then 1 else 0] ++
    bigEndian 8 p.requiredBinders

section

variable (sha256 : List UInt8 → Digest)

def graphNodeHash (node : GraphNode Digest) (p : Properties) : Digest :=
  sha256 (graphNodeBytes node p)

/-- The identity of a conclusion that does not fit the certificate codec. -/
def graphStatementId (root : Digest) : StatementId :=
  sha256 (asciiBytes "naome:graph-statement" ++ [0] ++ foundationId ++ digestBytes root)

end

/-- What the evaluator derives for a node from its authenticated children. -/
structure Representation where
  hash : Digest
  properties : Properties
  shape : Shape
  deriving DecidableEq

def represent (sha256 : List UInt8 → Digest) (node : GraphNode Representation) : Representation :=
  let p := (node.map Representation.properties).properties
  ⟨graphNodeHash sha256 (node.map Representation.hash) p, p, Shape.of (node.map Representation.shape)⟩

/-- The outer node of a tree over its subtrees. -/
def graphNodeOf : PrimitiveNode → GraphNode PrimitiveNode
  | .equal l r => .equal l r
  | .member l r => .member l r
  | .not n => .not n
  | .implies a b => .implies a b
  | .forAll n => .forAll n
  | .definedRelation s _ => s.elim

/-- Folds a tree through the vocabulary of graph nodes. -/
def foldGraph {α : Type} (emit : GraphNode α → α) : PrimitiveNode → α
  | .equal l r => emit (.equal l r)
  | .member l r => emit (.member l r)
  | .not n => emit (.not (foldGraph emit n))
  | .implies a b => emit (.implies (foldGraph emit a) (foldGraph emit b))
  | .forAll n => emit (.forAll (foldGraph emit n))
  | .definedRelation s _ => s.elim

theorem foldGraph_eq {α : Type} (emit : GraphNode α → α) (n : PrimitiveNode) :
    foldGraph emit n = emit ((graphNodeOf n).map (foldGraph emit)) := by
  cases n with
  | definedRelation s => exact s.elim
  | _ => rfl

/-- The address of a formula in every graph. -/
def formulaHash (sha256 : List UInt8 → Digest) (n : PrimitiveNode) : Digest :=
  (foldGraph (represent sha256) n).hash

variable {sha256 : List UInt8 → Digest}

theorem graphNodeOf_injective : Function.Injective graphNodeOf := by
  intro n m h
  cases n with
  | definedRelation s => exact s.elim
  | _ =>
    cases m with
    | definedRelation s => exact s.elim
    | _ => cases h <;> rfl

/-- The properties say which names occur and how many binders are missing. -/
theorem foldGraph_properties (n : PrimitiveNode) :
    (foldGraph (represent sha256) n).properties.hasFreeVariables = !n.occurrences.isEmpty ∧
      ∀ d, n.Scoped d ↔ (foldGraph (represent sha256) n).properties.requiredBinders ≤ d := by
  have hatom : ∀ l r : Variable FreeVariable,
      ((Properties.ofVariable l).combine (Properties.ofVariable r)).hasFreeVariables =
        !(l.occurrences ++ r.occurrences).isEmpty ∧
      ∀ d, (l.Scoped d ∧ r.Scoped d) ↔
        ((Properties.ofVariable l).combine (Properties.ofVariable r)).requiredBinders ≤ d := by
    intro l r
    cases l <;> cases r <;>
      simp [Properties.ofVariable, Properties.combine, Variable.occurrences, Variable.Scoped]
  induction n with
  | equal l r | member l r => exact hatom l r
  | not n ih => exact ih
  | implies a b iha ihb =>
    refine ⟨?_, fun d => ?_⟩
    · change (_ || _) = _
      rw [iha.1, ihb.1]
      cases ha : a.occurrences <;> cases hb : b.occurrences <;> simp [Node.occurrences, ha, hb]
    · change _ ↔ max _ _ ≤ d
      rw [Nat.max_le, ← iha.2 d, ← ihb.2 d]
      rfl
  | forAll n ih =>
    refine ⟨ih.1, fun d => ?_⟩
    change n.Scoped (d + 1) ↔ _ - 1 ≤ d
    rw [ih.2]
    omega
  | definedRelation s => exact s.elim

/-- A closed node has a tree without names and dangling indices. -/
theorem closed_foldGraph {n : PrimitiveNode} :
    (foldGraph (represent sha256) n).properties.closed = true ↔ n.occurrences = [] ∧ n.Scoped 0 := by
  obtain ⟨hfree, hscoped⟩ := @foldGraph_properties sha256 n
  rw [hscoped 0, Properties.closed, hfree]
  simp

/-- The cost of a tree, saturated. -/
def treeShape (n : PrimitiveNode) : Shape :=
  ⟨min n.nodeCount (formulaMaxNodes + 1),
    min (FormulaCodec.nodeBytes primitiveFormat n).length (formulaMaxBytes + 1),
    min n.depth (formulaMaxDepth + 1)⟩

theorem foldGraph_shapeOf (n : PrimitiveNode) : foldGraph Shape.of n = treeShape n := by
  induction n with
  | equal l r | member l r =>
    simp [foldGraph, Shape.of, GraphNode.children, treeShape, Node.nodeCount, Node.depth,
      FormulaCodec.nodeBytes, formulaMaxNodes, formulaMaxBytes, formulaMaxDepth]
  | not n ih | forAll n ih =>
    simp only [foldGraph, ih, Shape.of, GraphNode.children, List.foldl_cons, List.foldl_nil,
      Shape.add, treeShape, Node.nodeCount, Node.depth, FormulaCodec.nodeBytes, List.length_cons,
      Shape.mk.injEq]
    have := n.depth_pos
    refine ⟨?_, ?_, ?_⟩ <;> omega
  | implies a b iha ihb =>
    simp only [foldGraph, iha, ihb, Shape.of, GraphNode.children, List.foldl_cons, List.foldl_nil,
      Shape.add, treeShape, Node.nodeCount, Node.depth, FormulaCodec.nodeBytes, List.length_cons,
      List.length_append, Shape.mk.injEq]
    refine ⟨?_, ?_, ?_⟩ <;> omega
  | definedRelation s => exact s.elim

/-- The evaluator derives the same cost beside the address. -/
theorem foldGraph_shape (n : PrimitiveNode) :
    (foldGraph (represent sha256) n).shape = treeShape n := by
  rw [← foldGraph_shapeOf]
  induction n with
  | equal l r | member l r => rfl
  | not n ih | forAll n ih => simp only [foldGraph, represent, GraphNode.map, ih]
  | implies a b iha ihb => simp only [foldGraph, represent, GraphNode.map, iha, ihb]
  | definedRelation s => exact s.elim

/-- Saturation loses nothing at the limits. -/
theorem fits_treeShape {n : PrimitiveNode} : (treeShape n).fits = true ↔
    n.nodeCount ≤ formulaMaxNodes ∧
      (FormulaCodec.nodeBytes primitiveFormat n).length ≤ formulaMaxBytes ∧
      n.depth ≤ formulaMaxDepth := by
  simp only [Shape.fits, Bool.and_eq_true, decide_eq_true_eq]
  simp only [treeShape]
  omega

end Naome
