import Naome.NodeInterning

/-!
# Binding and substitution on formula graphs

A shared node has one image for each binder depth. The images are computed with an explicit stack
that lives between calls; every image is also saved as an equation, and a later run of the same
operation first checks the saved equations in their order.
-/
namespace Naome
open LocallyNameless Outcome Formula

inductive Transform
  | bind (v : FreeVariable)
  | substitute (source target : FreeVariable)
  deriving DecidableEq

namespace Transform

def onVariable : Transform → ℕ → Variable FreeVariable → Variable FreeVariable
  | .bind target, depth, .free v => if v = target then .bound depth else .free v
  | .substitute source target, _, .free v => if v = source then .free target else .free v
  | _, _, .bound i => .bound i

/-- The pass over trees: the binding pass of a quantifier, or the replacement of a name. -/
def onTree : Transform → ℕ → PrimitiveNode → PrimitiveNode
  | .bind v, depth, n => n.bindFree (bindOne v) depth
  | .substitute source target, _, n => n.mapFree (substitution source target)

/-- The tree that the operation on formulas gives, for a quantifier the one below its binder. -/
def Gives (f : Formula) (m : PrimitiveNode) : Transform → Prop
  | .bind v => (Formula.forAll v f).node = .forAll m
  | .substitute source target => (f.substituteFree source target).node = m

end Transform

namespace GraphNode

variable {I J : Type}

/-- The binder depth of the children. -/
def nestedDepth (depth : ℕ) : GraphNode I → Option ℕ
  | .forAll _ => if depth + 1 < 2 ^ 64 then some (depth + 1) else none
  | _ => some depth

/-- The image of a node from the images of its children, left to right. -/
def transformed (pass : Transform) (depth : ℕ) (image : I → Option J) :
    GraphNode I → Option (GraphNode J)
  | .equal a b => some (.equal (pass.onVariable depth a) (pass.onVariable depth b))
  | .member a b => some (.member (pass.onVariable depth a) (pass.onVariable depth b))
  | .not a => do return .not (← image a)
  | .implies a b => do
    let a ← image a
    let b ← image b
    return .implies a b
  | .forAll a => do return .forAll (← image a)

end GraphNode

/-- A row of the tables of saved and of verified images. -/
structure Equation where
  source : ℕ
  depth : ℕ
  result : ℕ
  deriving DecidableEq

def Equation.key (e : Equation) : ℕ × ℕ := (e.source, e.depth)

/-- What an operation keeps between calls: saved equations survive the evaluator, the verified ones
and the stack do not. The rows of an operation are numbered in the order of their insertion. -/
structure TransformState where
  store : NodeStore
  equations : List Equation
  verified : List Equation := []
  stack : List (ℕ × ℕ) := []
  replayed : ℕ := 0
  restoring : Bool := true

namespace TransformState

/-- The verified image of a node at a depth. -/
def memo (verified : List Equation) (source depth : ℕ) : Option ℕ :=
  (verified.find? fun e => decide (e.key = (source, depth))).map Equation.result

/-- Adds a row to a table whose key is the node with its depth. -/
def record (table : List Equation) (e : Equation) : Except String (List Equation) := do
  require (e.key ∉ table.map Equation.key) "UNIQUE constraint failed"
  return table ++ [e]

section

variable (sha256 : List UInt8 → Digest) (shortcut : Bool) (pass : Transform) (root : ℕ)

/-- The image of a node when the images of its children are known. A node without free variables
is its own image; without the shortcut it is treated like every other node. -/
def transformedNode (store : NodeStore) (verified : List Equation) (source depth : ℕ) :
    Except String (Option (GraphNode ℕ) × NodeStore) := do
  let ((node, _, p), store) ← store.load sha256 source
  if shortcut && !p.hasFreeVariables then
    return (some node, store)
  else
    let nested ← orError "physical binder address exhausted" (node.nestedDepth depth)
    return (node.transformed pass depth (memo verified · nested), store)

/-- One call after the saved equations were checked. -/
def advance (t : TransformState) : Except String (Option ℕ × TransformState) :=
  match memo t.verified root 0 with
  | some result => .ok (some result, t)
  | none =>
    match t.stack with
    | [] => .ok (none, { t with stack := [(root, 0)] })
    | (input, depth) :: rest =>
      if (memo t.verified input depth).isSome then .ok (none, { t with stack := rest })
      else do
        let (node, store) ← transformedNode sha256 shortcut pass t.store t.verified input depth
        match node with
        | some node =>
          let (result, store) ← store.intern sha256 node
          let equations ← record t.equations ⟨input, depth, result⟩
          let verified ← record t.verified ⟨input, depth, result⟩
          return (none, { t with store, equations, verified, stack := rest })
        | none =>
          let ((node, _, _), store) ← store.load sha256 input
          let nested ← orError "physical binder address exhausted" (node.nestedDepth depth)
          match node.children.find? fun child => (memo t.verified child nested).isNone with
          | some child => return (none, { t with store, stack := (child, nested) :: t.stack })
          | none => return (none, { t with store })

/-- One call: checks one saved equation, or works on the top of the stack. -/
def transform (t : TransformState) : Except String (Option ℕ × TransformState) :=
  if t.restoring then
    match t.equations[t.replayed]? with
    | some e => do
      let (node, store) ← transformedNode sha256 shortcut pass t.store t.verified e.source e.depth
      let node ← orError "saved transformation is not dependency ordered" node
      let (expected, store) ← store.intern sha256 node
      require (expected = e.result) "saved formula transformation failed replay"
      let verified ← record t.verified e
      return (none, { t with store, verified, replayed := t.replayed + 1 })
    | none => advance sha256 shortcut pass root { t with restoring := false }
  else advance sha256 shortcut pass root t

/-- Calls until one returns the image, at most the given number of times. -/
def repeated : ℕ → TransformState → Except String (Option ℕ × TransformState)
  | 0, t => .ok (none, t)
  | calls + 1, t => do
    let (result, t) ← transform sha256 shortcut pass root t
    match result with
    | some id => return (some id, t)
    | none => repeated calls t

end

end TransformState

/-- The binder depth of the subtrees. -/
def nestedDepth (depth : ℕ) : PrimitiveNode → ℕ
  | .forAll _ => depth + 1
  | _ => depth

/-- The subtrees of a formula with their binder depths. -/
inductive Part (n : PrimitiveNode) : ℕ → PrimitiveNode → Prop
  | self : Part n 0 n
  | child {depth : ℕ} {m c : PrimitiveNode} : Part n depth m → c ∈ (graphNodeOf m).children →
    Part n (nestedDepth depth m) c

namespace Transform

variable {pass : Transform}

theorem onVariable_bind (v : FreeVariable) (depth : ℕ) (x : Variable FreeVariable) :
    (Transform.bind v).onVariable depth x = x.bind (bindOne v) depth := by
  cases x with
  | bound i => rfl
  | free w =>
    simp only [onVariable, Variable.bind, bindOne]
    split_ifs with h
    · simp
    · rfl

theorem onVariable_substitute (source target : FreeVariable) (depth : ℕ)
    (x : Variable FreeVariable) :
    (Transform.substitute source target).onVariable depth x = x.map (substitution source target) := by
  cases x with
  | bound i => rfl
  | free w =>
    simp only [onVariable, Variable.map, substitution]
    split_ifs with h <;> rfl

/-- A formula without free variables is its own image. -/
theorem onTree_of_closed {n : PrimitiveNode} (h : n.occurrences = []) (depth : ℕ) :
    pass.onTree depth n = n := by
  cases pass with
  | substitute source target =>
    have hid : n.mapFree (substitution source target) = n.mapFree id :=
      Node.mapFree_congr (by simp [h])
    exact hid.trans n.mapFree_id
  | bind v =>
    change n.bindFree (bindOne v) depth = n
    have hx : ∀ (d : ℕ) (x : Variable FreeVariable), x.occurrences = [] →
        x.bind (bindOne v) d = x := by
      intro d x hx
      cases x with
      | bound i => rfl
      | free w => simp [Variable.occurrences] at hx
    induction n generalizing depth with
    | equal l r | member l r =>
      simp only [Node.occurrences, List.append_eq_nil_iff] at h
      simp only [Node.bindFree, hx depth l h.1, hx depth r h.2]
    | not n ih | forAll n ih => simp only [Node.bindFree, ih h]
    | implies a b iha ihb =>
      simp only [Node.occurrences, List.append_eq_nil_iff] at h
      simp only [Node.bindFree, iha h.1, ihb h.2]
    | definedRelation s => exact s.elim

theorem gives_onTree (f : Formula) : pass.Gives f (pass.onTree 0 f.node) := by
  cases pass with
  | bind v => rfl
  | substitute source target =>
    change (f.substituteFree source target).node = f.node.mapFree (substitution source target)
    rw [substituteFree_eq_map]
    rfl

/-- The image of a tree from the images of its subtrees. -/
theorem graphNodeOf_onTree (depth : ℕ) (n : PrimitiveNode) :
    graphNodeOf (pass.onTree depth n) =
      match graphNodeOf n with
      | .equal a b => .equal (pass.onVariable depth a) (pass.onVariable depth b)
      | .member a b => .member (pass.onVariable depth a) (pass.onVariable depth b)
      | .not a => .not (pass.onTree depth a)
      | .implies a b => .implies (pass.onTree depth a) (pass.onTree depth b)
      | .forAll a => .forAll (pass.onTree (depth + 1) a) := by
  cases pass with
  | bind v =>
    cases n with
    | definedRelation s => exact s.elim
    | _ => simp only [onTree, Node.bindFree, graphNodeOf, onVariable_bind]
  | substitute source target =>
    cases n with
    | definedRelation s => exact s.elim
    | _ => simp only [onTree, Node.mapFree, graphNodeOf, onVariable_substitute]

end Transform

end Naome
