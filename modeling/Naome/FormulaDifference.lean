import Naome.CheckDiagnostics
import Naome.NodeInterning

/-!
# First differences

A report names the first place at which two formulas differ. In trees the search backtracks; in
graphs it follows one child, chosen by the hashes, for a bounded number of nodes.
-/
namespace Naome.Checker
open LocallyNameless Outcome

def maxInspectionNodes : ℕ := 256

def maxInspectionPath : ℕ := 256

/-- A node under its content address. -/
structure NodeRecord where
  id : Digest
  node : GraphNode Digest
  hasFreeVariables : Bool
  requiredBinders : ℕ
  deriving DecidableEq

def NodeRecord.new (node : GraphNode Digest) (id : Digest) (p : Properties) : NodeRecord :=
  ⟨id, node, p.hasFreeVariables, p.requiredBinders⟩

/-- An incomplete difference only says where the bounded search stopped. -/
structure Difference where
  path : List FormulaPathSegment
  expected : NodeRecord
  actual : NodeRecord
  complete : Bool
  deriving DecidableEq

section

variable (sha256 : List UInt8 → Digest)

/-- The record of a node over the addresses and properties of its children. -/
def addressed (node : GraphNode (Digest × Properties)) : NodeRecord :=
  let p := (node.map Prod.snd).properties
  .new (node.map Prod.fst) (graphNodeHash sha256 (node.map Prod.fst) p) p

/-- Keeps a place for a node before its children, while there is room. -/
def reserve (maximum : ℕ) (nodes : List (Option NodeRecord)) : List (Option NodeRecord) :=
  if nodes.length < maximum then nodes ++ [none] else nodes

/-- Fills the place that was kept for a node at `slot`. -/
def settle (maximum slot : ℕ) (node : GraphNode (Digest × Properties))
    (nodes : List (Option NodeRecord)) : (Digest × Properties) × List (Option NodeRecord) :=
  let r := addressed sha256 node
  ((r.id, (node.map Prod.snd).properties),
    if slot < maximum then nodes.set slot (some r) else nodes)

/-- Hashes a tree and retains its first nodes in preorder. -/
def walk (maximum : ℕ) : PrimitiveNode → List (Option NodeRecord) →
    (Digest × Properties) × List (Option NodeRecord)
  | .equal l r, nodes => settle sha256 maximum nodes.length (.equal l r) (reserve maximum nodes)
  | .member l r, nodes => settle sha256 maximum nodes.length (.member l r) (reserve maximum nodes)
  | .not n, nodes =>
    let (c, after) := walk maximum n (reserve maximum nodes)
    settle sha256 maximum nodes.length (.not c) after
  | .implies a b, nodes =>
    let (c, after) := walk maximum a (reserve maximum nodes)
    let (d, after) := walk maximum b after
    settle sha256 maximum nodes.length (.implies c d) after
  | .forAll n, nodes =>
    let (c, after) := walk maximum n (reserve maximum nodes)
    settle sha256 maximum nodes.length (.forAll c) after
  | .definedRelation s _, _ => s.elim

/-- Drops the nodes whose address was retained before. -/
def firstRecords (seen : List Digest) : List NodeRecord → List NodeRecord
  | [] => []
  | r :: records =>
    if r.id ∈ seen then firstRecords seen records else r :: firstRecords (r.id :: seen) records

structure FormulaFragment where
  root : Digest
  nodes : List NodeRecord

namespace FormulaFragment

def node? (fragment : FormulaFragment) (id : Digest) : Option NodeRecord :=
  fragment.nodes.find? fun r => decide (r.id = id)

def rootNode (fragment : FormulaFragment) : Option NodeRecord := fragment.node? fragment.root

end FormulaFragment

def treeFragment (n : PrimitiveNode) (maximum : ℕ) : FormulaFragment :=
  let (root, nodes) := walk sha256 (max maximum 1) n []
  ⟨root.1, firstRecords [] (nodes.filterMap id)⟩

inductive InspectionError
  | invalidQuery
  | invalidPath
  deriving DecidableEq, Repr

/-- The node at the end of a path, which may end with a variable of an atom. -/
def follow : PrimitiveNode → List FormulaPathSegment → Except InspectionError PrimitiveNode
  | n, [] => .ok n
  | .not n, .negated :: path => follow n path
  | .forAll n, .quantified :: path => follow n path
  | .implies a _, .antecedent :: path => follow a path
  | .implies _ b, .consequent :: path => follow b path
  | .equal l r, [.leftVariable] => .ok (.equal l r)
  | .equal l r, [.rightVariable] => .ok (.equal l r)
  | .member l r, [.leftVariable] => .ok (.member l r)
  | .member l r, [.rightVariable] => .ok (.member l r)
  | _, _ => .error .invalidPath

def treeQuery (n : PrimitiveNode) (path : List FormulaPathSegment) (maximumNodes : ℕ) :
    Except InspectionError FormulaFragment := do
  require (0 < maximumNodes ∧ maximumNodes ≤ maxInspectionNodes ∧
    path.length ≤ maxInspectionPath) .invalidQuery
  return treeFragment sha256 (← follow n path) maximumNodes

/-- The two nodes at the end of a comparison; without a value the process ends. -/
def treeDifference (expected actual : Formula) (comparison : FormulaMismatch) :
    Option Difference := do
  let node (f : Formula) : Option NodeRecord := do
    (← (treeQuery sha256 f.node comparison.path 1).toOption).rootNode
  return ⟨comparison.path, ← node expected, ← node actual, true⟩

end

abbrev GraphRecord (H : Type) : Type := GraphNode H × Digest × Properties

section

variable {H ε : Type} (read : H → Except ε (GraphRecord H))

def graphRecord (r : GraphRecord H) : Except ε NodeRecord := do
  let node ← r.1.mapM fun child => do return (← read child).2.1
  return .new node r.2.1 r.2.2

def graphFinish (e a : GraphRecord H) (path : List FormulaPathSegment) (complete : Bool) :
    Except ε Difference := do
  return ⟨path, ← graphRecord read e, ← graphRecord read a, complete⟩

/-- Compares two handles below a path of nodes that agree. -/
def graphDifference (path : List FormulaPathSegment) (expected actual : H) :
    Except ε Difference := do
  let e ← read expected
  let a ← read actual
  if _h : maxInspectionPath ≤ path.length then graphFinish read e a path false
  else
    match e.1, a.1 with
    | .equal l r, .equal l' _ =>
      graphFinish read e a (path ++ [if l ≠ l' then .leftVariable else .rightVariable]) true
    | .member l r, .member l' _ =>
      graphFinish read e a (path ++ [if l ≠ l' then .leftVariable else .rightVariable]) true
    | .not n, .not m => graphDifference (path ++ [.negated]) n m
    | .forAll n, .forAll m => graphDifference (path ++ [.quantified]) n m
    | .implies n m, .implies n' m' => do
      let hash := (← read n).2.1
      let hash' := (← read n').2.1
      if hash ≠ hash' then graphDifference (path ++ [.antecedent]) n n'
      else graphDifference (path ++ [.consequent]) m m'
    | _, _ => graphFinish read e a path true
termination_by maxInspectionPath - path.length
decreasing_by all_goals (rw [List.length_append, List.length_singleton]; omega)

end

/-- The child at an edge. -/
def child : PrimitiveNode → FormulaPathSegment → Option PrimitiveNode
  | .not n, .negated => some n
  | .forAll n, .quantified => some n
  | .implies a _, .antecedent => some a
  | .implies _ b, .consequent => some b
  | _, _ => none

/-- The subformula at a path of edges. -/
def subformula (n : PrimitiveNode) : List FormulaPathSegment → Option PrimitiveNode
  | [] => some n
  | edge :: path => (child n edge).bind fun m => subformula m path

/-- A variable of an atom. -/
def atomVariable : FormulaPathSegment → PrimitiveNode → Option (Variable FreeVariable)
  | .leftVariable, .equal l _ => some l
  | .leftVariable, .member l _ => some l
  | .rightVariable, .equal _ r => some r
  | .rightVariable, .member _ r => some r
  | _, _ => none

/-- The connective of a node. -/
def connective (n : PrimitiveNode) : UInt8 := (graphNodeOf n).tag

/-- Two nodes that differ themselves: in their connectives, or in the named variable of two atoms
of one kind, whose variables before it agree. -/
def Distinct (e a : PrimitiveNode) : Option FormulaPathSegment → Prop
  | none => connective e ≠ connective a
  | some v => connective e = connective a ∧
      (∃ x y, atomVariable v e = some x ∧ atomVariable v a = some y ∧ x ≠ y) ∧
      (v = .rightVariable → atomVariable .leftVariable e = atomVariable .leftVariable a)

/-- The first difference in prefix order lies at the end of the edges. -/
structure FirstDifference (expected actual : PrimitiveNode) (edges : List FormulaPathSegment)
    (last : Option FormulaPathSegment) : Prop where
  ends : ∃ e a, subformula expected edges = some e ∧ subformula actual edges = some a ∧
    Distinct e a last
  agrees : ∀ before edge after, edges = before ++ edge :: after →
    ∃ e a, subformula expected before = some e ∧ subformula actual before = some a ∧
      connective e = connective a
  precedes : ∀ before after other, edges = before ++ .consequent :: after →
    subformula expected (before ++ .antecedent :: other) =
      subformula actual (before ++ .antecedent :: other)

attribute [local simp] different connective graphNodeOf GraphNode.tag

theorem different_self (n : PrimitiveNode) : different n n = none := by
  induction n with
  | equal l r | member l r => simp
  | not n ih | forAll n ih => simp [ih]
  | implies a b iha ihb => simp [iha, ihb]
  | definedRelation s => exact s.elim

theorem different_of_connective {e a : PrimitiveNode} (h : connective e ≠ connective a) :
    different e a = some [] := by
  cases e with
  | definedRelation s => exact s.elim
  | _ =>
    cases a with
    | definedRelation s => exact s.elim
    | _ => first | rfl | exact absurd rfl h

/-- Two trees are compared at nodes with one connective. -/
theorem pair_induction {motive : PrimitiveNode → PrimitiveNode → Prop}
    (other : ∀ e a, connective e ≠ connective a → motive e a)
    (equal : ∀ l r l' r', motive (.equal l r) (.equal l' r'))
    (member : ∀ l r l' r', motive (.member l r) (.member l' r'))
    (not : ∀ n m, motive n m → motive (.not n) (.not m))
    (implies : ∀ n m n' m', motive n n' → motive m m' → motive (.implies n m) (.implies n' m'))
    (forAll : ∀ n m, motive n m → motive (.forAll n) (.forAll m))
    (e a : PrimitiveNode) : motive e a := by
  induction e generalizing a with
  | equal l r =>
    cases a with
    | definedRelation s => exact s.elim
    | equal => exact equal ..
    | _ => exact other _ _ (by simp)
  | member l r =>
    cases a with
    | definedRelation s => exact s.elim
    | member => exact member ..
    | _ => exact other _ _ (by simp)
  | not n ih =>
    cases a with
    | definedRelation s => exact s.elim
    | not m => exact not n m (ih m)
    | _ => exact other _ _ (by simp)
  | implies n m ihn ihm =>
    cases a with
    | definedRelation s => exact s.elim
    | implies n' m' => exact implies n m n' m' (ihn n') (ihm m')
    | _ => exact other _ _ (by simp)
  | forAll n ih =>
    cases a with
    | definedRelation s => exact s.elim
    | forAll m => exact forAll n m (ih m)
    | _ => exact other _ _ (by simp)
  | definedRelation s => exact s.elim

theorem different_eq_none {e a : PrimitiveNode} : different e a = none ↔ e = a := by
  constructor
  · intro h
    induction e, a using pair_induction with
    | other e a hne =>
      rw [different_of_connective hne] at h
      cases h
    | equal l r l' r' | member l r l' r' =>
      simp only [different] at h
      split_ifs at h with hl hr
      rw [not_not.mp hl, not_not.mp hr]
    | not n m ih | forAll n m ih =>
      simp only [different, Option.map_eq_none_iff] at h
      rw [ih h]
    | implies n m n' m' ihn ihm =>
      simp only [different] at h
      cases hn : different n n' with
      | none =>
        rw [hn] at h
        simp only [Option.map_eq_none_iff] at h
        rw [ihn hn, ihm h]
      | some path =>
        rw [hn] at h
        cases h
  · rintro rfl
    exact different_self e

theorem firstDifference_nil {e a : PrimitiveNode} {last : Option FormulaPathSegment}
    (h : Distinct e a last) : FirstDifference e a [] last := by
  constructor
  · exact ⟨e, a, rfl, rfl, h⟩
  · intro before edge after heq
    simp at heq
  · intro before after other heq
    simp at heq

/-- A difference below two nodes that agree, first among the children that differ. -/
theorem FirstDifference.cons {e a n m : PrimitiveNode} {edge : FormulaPathSegment}
    {edges : List FormulaPathSegment} {last : Option FormulaPathSegment}
    (h : FirstDifference n m edges last) (hn : child e edge = some n) (hm : child a edge = some m)
    (hagree : connective e = connective a)
    (hantecedent : edge = .consequent → child e .antecedent = child a .antecedent) :
    FirstDifference e a (edge :: edges) last := by
  have hsub : ∀ path, subformula e (edge :: path) = subformula n path ∧
      subformula a (edge :: path) = subformula m path := by
    intro path
    rw [subformula, subformula, hn, hm]
    exact ⟨rfl, rfl⟩
  constructor
  · rw [(hsub edges).1, (hsub edges).2]
    exact h.ends
  · intro before other after heq
    cases before with
    | nil => exact ⟨e, a, rfl, rfl, hagree⟩
    | cons first before =>
      rw [List.cons_append, List.cons.injEq] at heq
      obtain ⟨rfl, heq⟩ := heq
      rw [(hsub before).1, (hsub before).2]
      exact h.agrees before other after heq
  · intro before after other heq
    cases before with
    | nil =>
      rw [List.nil_append, List.cons.injEq] at heq
      rw [List.nil_append, subformula, subformula, hantecedent heq.1]
    | cons first before =>
      rw [List.cons_append, List.cons.injEq] at heq
      obtain ⟨rfl, heq⟩ := heq
      rw [List.cons_append, (hsub _).1, (hsub _).2]
      exact h.precedes before after other heq

/-- A path that leads to the first difference. -/
def Locates (e a : PrimitiveNode) (path : List FormulaPathSegment) : Prop :=
  ∃ edges last, path = edges ++ last.toList ∧ FirstDifference e a edges last

theorem Locates.cons {e a n m : PrimitiveNode} {edge : FormulaPathSegment}
    {path : List FormulaPathSegment} (h : Locates n m path) (hn : child e edge = some n)
    (hm : child a edge = some m) (hagree : connective e = connective a)
    (hantecedent : edge = .consequent → child e .antecedent = child a .antecedent) :
    Locates e a (edge :: path) := by
  obtain ⟨edges, last, rfl, hfirst⟩ := h
  exact ⟨edge :: edges, last, rfl, hfirst.cons hn hm hagree hantecedent⟩

theorem different_eq_some {e a : PrimitiveNode} {path : List FormulaPathSegment}
    (h : different e a = some path) : Locates e a path := by
  induction e, a using pair_induction generalizing path with
  | other e a hne =>
    rw [different_of_connective hne] at h
    cases h
    exact ⟨[], none, rfl, firstDifference_nil hne⟩
  | equal l r l' r' | member l r l' r' =>
    simp only [different] at h
    split_ifs at h with hl hr
    · cases h
      refine ⟨[], some .leftVariable, rfl, firstDifference_nil ⟨rfl, ⟨l, l', rfl, rfl, hl⟩, ?_⟩⟩
      intro heq
      cases heq
    · cases h
      refine ⟨[], some .rightVariable, rfl, firstDifference_nil ⟨rfl, ⟨r, r', rfl, rfl, hr⟩, ?_⟩⟩
      intro _
      exact congrArg some (not_not.mp hl)
  | not n m ih | forAll n m ih =>
    simp only [different, Option.map_eq_some_iff] at h
    obtain ⟨rest, hrest, rfl⟩ := h
    exact (ih hrest).cons rfl rfl rfl fun heq => by cases heq
  | implies n m n' m' ihn ihm =>
    simp only [different] at h
    cases hn : different n n' with
    | none =>
      rw [hn] at h
      simp only [Option.map_eq_some_iff] at h
      obtain ⟨rest, hrest, rfl⟩ := h
      have hsame : n = n' := different_eq_none.1 hn
      exact (ihm hrest).cons rfl rfl rfl fun _ => congrArg some hsame
    | some rest =>
      rw [hn] at h
      cases h
      exact (ihn hn).cons rfl rfl rfl fun heq => by cases heq

end Naome.Checker
