import Naome.LocallyNamelessSemantics

/-!
# Primitive first-order formulas for set theory

`Formula` is the valid-by-construction formula type of the foundation crate: a tree
over equality and membership whose bound indices all have a binder. Free variables are
32-bit identifiers. A De Bruijn index is a natural number here; the source keeps it in
32 bits and stops the process when nesting would overflow that width.
-/
namespace Naome
open LocallyNameless

/-- Identifies a free object-language variable. -/
structure FreeVariable where
  identifier : UInt32
  deriving DecidableEq, Inhabited, Repr

namespace FreeVariable

instance : Ord FreeVariable := ⟨fun a b => compare a.identifier b.identifier⟩

instance : Std.TransOrd FreeVariable where
  eq_swap := Std.OrientedOrd.eq_swap (α := UInt32)
  isLE_trans := Std.TransOrd.isLE_trans (α := UInt32)

instance : Std.LawfulEqOrd FreeVariable where
  eq_of_compare := by
    intro a b h
    cases a
    cases b
    congr
    exact Std.LawfulEqOrd.eq_of_compare (α := UInt32) h
  compare_self := Std.ReflOrd.compare_self (α := UInt32)

theorem identifier_injective : Function.Injective identifier := by
  intro a b h
  cases a
  cases b
  congr

instance : Finite FreeVariable := by
  have : Finite UInt32 := Finite.of_injective UInt32.toFin fun a b h => UInt32.toFin_inj.mp h
  exact Finite.of_injective _ identifier_injective

end FreeVariable

/-- The binding of one variable to the innermost binder. -/
def bindOne (v : FreeVariable) (candidate : FreeVariable) : Option ℕ :=
  if candidate = v then some 0 else none

theorem bindOne_lt {v w : FreeVariable} {i : ℕ} (h : bindOne v w = some i) : i < 1 := by
  unfold bindOne at h
  split_ifs at h
  cases h
  exact Nat.one_pos

/-- Primitive trees have no defined relation symbols. -/
abbrev PrimitiveNode := Node FreeVariable Empty

@[ext]
structure Formula where
  node : PrimitiveNode
  wellScoped : node.Scoped 0
  deriving DecidableEq

namespace Formula

theorem node_injective : Function.Injective node := fun _ _ h => Formula.ext h

def equal (left right : FreeVariable) : Formula :=
  ⟨.equal (.free left) (.free right), trivial, trivial⟩

def member (element set : FreeVariable) : Formula :=
  ⟨.member (.free element) (.free set), trivial, trivial⟩

def negate (f : Formula) : Formula := ⟨.not f.node, f.wellScoped⟩

def implies (antecedent consequent : Formula) : Formula :=
  ⟨.implies antecedent.node consequent.node, antecedent.wellScoped, consequent.wellScoped⟩

def conjunction (left right : Formula) : Formula := negate (implies left (negate right))

def disjunction (left right : Formula) : Formula := implies (negate left) right

def biconditional (left right : Formula) : Formula :=
  conjunction (implies left right) (implies right left)

/-- Universally quantifies a free variable: its occurrences become references to the
new binder, existing bound references keep theirs. -/
def forAll (v : FreeVariable) (body : Formula) : Formula :=
  ⟨.forAll (body.node.bindFree (bindOne v) 0),
    Node.scoped_bindFree (fun _ _ h => bindOne_lt h) body.wellScoped⟩

/-- Records the binder index of a variable at a position of the list. -/
def insertBinder (total : ℕ) (binders : FreeVariable → Option ℕ) (p : FreeVariable × ℕ) :
    FreeVariable → Option ℕ :=
  Function.update binders p.1 (some (total - p.2 - 1))

/-- The binder map of `forAllMany`: the first listed variable is the outermost binder,
a repeated variable keeps its last position. -/
def binderIndices (vars : List FreeVariable) : FreeVariable → Option ℕ :=
  vars.zipIdx.foldl (insertBinder vars.length) fun _ => none

/-- Wraps a tree in `k` nameless binders. -/
def wrapForAll : ℕ → PrimitiveNode → PrimitiveNode
  | 0, n => n
  | k + 1, n => wrapForAll k (.forAll n)

theorem scoped_wrapForAll {k d : ℕ} {n : PrimitiveNode} (h : n.Scoped (d + k)) :
    (wrapForAll k n).Scoped d := by
  induction k generalizing n with
  | zero => exact h
  | succ k ih => exact ih h

theorem foldl_insertBinder_lt {total : ℕ} {ps : List (FreeVariable × ℕ)}
    {binders : FreeVariable → Option ℕ} (hp : ∀ p ∈ ps, p.2 < total)
    (hb : ∀ v i, binders v = some i → i < total) {v : FreeVariable} {i : ℕ}
    (h : ps.foldl (insertBinder total) binders v = some i) : i < total := by
  induction ps generalizing binders with
  | nil => exact hb v i h
  | cons p ps ih =>
    refine ih (fun q hq => hp q (List.mem_cons_of_mem p hq)) ?_ h
    intro w j hw
    have := hp p List.mem_cons_self
    by_cases hwp : w = p.1
    · subst hwp
      simp only [insertBinder, Function.update_self, Option.some.injEq] at hw
      omega
    · rw [insertBinder, Function.update_of_ne hwp] at hw
      exact hb w j hw

theorem binderIndices_lt {vars : List FreeVariable} {v : FreeVariable} {i : ℕ}
    (h : binderIndices vars v = some i) : i < vars.length := by
  refine foldl_insertBinder_lt ?_ (by simp) h
  intro p hp
  have := List.snd_lt_of_mem_zipIdx hp
  omega

def forAllMany (vars : List FreeVariable) (body : Formula) : Formula :=
  ⟨wrapForAll vars.length (body.node.bindFree (binderIndices vars) 0),
    scoped_wrapForAll
      (Node.scoped_bindFree (fun _ _ h => binderIndices_lt h) body.wellScoped)⟩

def existsOne (v : FreeVariable) (body : Formula) : Formula := negate (forAll v (negate body))

def mapFreeVariables (g : FreeVariable → FreeVariable) (f : Formula) : Formula :=
  ⟨f.node.mapFree g, (Node.scoped_mapFree g 0 f.node).mpr f.wellScoped⟩

/-- The map of one substitution. -/
def substitution (source target : FreeVariable) (v : FreeVariable) : FreeVariable :=
  if v = source then target else v

def substituteFree (source target : FreeVariable) (f : Formula) : Formula :=
  if source = target then f else f.mapFreeVariables (substitution source target)

/-- The free variables in ascending order. -/
def freeVariables (f : Formula) : Std.TreeSet FreeVariable := Std.TreeSet.ofList f.node.occurrences

def isClosed (f : Formula) : Bool := !f.node.occurrences.any fun _ => true

/-- Opens the outer universal binder with a variable that is not yet free. -/
def openOuterUniversal (f : Formula) (v : FreeVariable) : Option Formula :=
  if f.freeVariables.contains v then none
  else
    match f with
    | ⟨.forAll body, h⟩ => some ⟨body.openBinder v 0, Node.scoped_openBinder h⟩
    | _ => none

def vacuousForAll (body : Formula) : Formula :=
  ⟨.forAll body.node, Node.scoped_mono (Nat.zero_le 1) body.wellScoped⟩

def negated : Formula → Option Formula
  | ⟨.not body, h⟩ => some ⟨body, h⟩
  | _ => none

/-- The free variable operands of an outer equality. -/
def equalityVariables : Formula → Option (FreeVariable × FreeVariable)
  | ⟨.equal (.free left) (.free right), _⟩ => some (left, right)
  | _ => none

def implicationParts : Formula → Option (Formula × Formula)
  | ⟨.implies left right, h⟩ => some (⟨left, h.1⟩, ⟨right, h.2⟩)
  | _ => none

def nodeCountAndDepth (f : Formula) : ℕ × ℕ := (f.node.nodeCount, f.node.depth)

theorem mem_freeVariables {f : Formula} {v : FreeVariable} :
    v ∈ f.freeVariables ↔ v ∈ f.node.occurrences := by
  simp [freeVariables, Std.TreeSet.mem_ofList]

theorem isClosed_iff {f : Formula} : f.isClosed = true ↔ f.node.occurrences = [] := by
  unfold isClosed
  cases f.node.occurrences <;> simp

theorem isClosed_iff_freeVariables {f : Formula} :
    f.isClosed = true ↔ ∀ v, v ∉ f.freeVariables := by
  simp only [isClosed_iff, mem_freeVariables, List.eq_nil_iff_forall_not_mem]

theorem mem_freeVariables_forAll {f : Formula} {v w : FreeVariable} :
    w ∈ (forAll v f).freeVariables ↔ w ∈ f.freeVariables ∧ w ≠ v := by
  simp only [mem_freeVariables, forAll, Node.occurrences, Node.mem_occurrences_bindFree, bindOne]
  simp

theorem implicationParts_eq_some {f a b : Formula} :
    f.implicationParts = some (a, b) ↔ f = implies a b := by
  obtain ⟨n, hn⟩ := f
  constructor
  · intro h
    cases n <;> simp only [implicationParts, reduceCtorEq, Option.some.injEq, Prod.mk.injEq] at h
    obtain ⟨rfl, rfl⟩ := h
    rfl
  · intro h
    cases h
    rfl

@[simp] theorem implicationParts_implies (a b : Formula) :
    (implies a b).implicationParts = some (a, b) := rfl

theorem substitution_self (v : FreeVariable) : substitution v v = id := by
  funext w
  unfold substitution
  split_ifs with hw
  · exact hw.symm
  · rfl

theorem substituteFree_eq_map (source target : FreeVariable) (f : Formula) :
    f.substituteFree source target = f.mapFreeVariables (substitution source target) := by
  unfold substituteFree
  split_ifs with h
  · subst h
    apply node_injective
    simp only [mapFreeVariables, substitution_self, Node.mapFree_id]
  · rfl

/-- Truth of a formula in a structure under an assignment of its free vars. -/
def Holds {M : Type*} (E : M → M → Prop) (ρ : FreeVariable → M) (f : Formula) : Prop :=
  f.node.Holds E (fun s => s.elim) ρ fun _ => ρ ⟨0⟩

/-- Truth in a structure: under every assignment. -/
def Models {M : Type*} (E : M → M → Prop) (f : Formula) : Prop := ∀ ρ, f.Holds E ρ

variable {M : Type*} {E : M → M → Prop} {ρ σ : FreeVariable → M}

theorem holds_of_env (env : ℕ → M) (f : Formula) :
    f.node.Holds E (fun s => s.elim) ρ env ↔ f.Holds E ρ := Node.holds_env f.wellScoped _ _ _

@[simp] theorem holds_equal (a b : FreeVariable) : (equal a b).Holds E ρ ↔ ρ a = ρ b := Iff.rfl

@[simp] theorem holds_member (a b : FreeVariable) :
    (member a b).Holds E ρ ↔ E (ρ a) (ρ b) := Iff.rfl

@[simp] theorem holds_negate (f : Formula) : f.negate.Holds E ρ ↔ ¬ f.Holds E ρ := Iff.rfl

@[simp] theorem holds_implies (f g : Formula) :
    (implies f g).Holds E ρ ↔ (f.Holds E ρ → g.Holds E ρ) := Iff.rfl

@[simp] theorem holds_conjunction (f g : Formula) :
    (conjunction f g).Holds E ρ ↔ f.Holds E ρ ∧ g.Holds E ρ := by
  simp only [conjunction, holds_negate, holds_implies]
  tauto

@[simp] theorem holds_disjunction (f g : Formula) :
    (disjunction f g).Holds E ρ ↔ f.Holds E ρ ∨ g.Holds E ρ := by
  simp only [disjunction, holds_negate, holds_implies]
  tauto

@[simp] theorem holds_biconditional (f g : Formula) :
    (biconditional f g).Holds E ρ ↔ (f.Holds E ρ ↔ g.Holds E ρ) := by
  simp only [biconditional, holds_conjunction, holds_implies]
  tauto

theorem holds_congr {f : Formula} (h : ∀ v ∈ f.freeVariables, ρ v = σ v) :
    f.Holds E ρ ↔ f.Holds E σ :=
  Node.holds_congr f.wellScoped (fun v hv => h v (mem_freeVariables.2 hv))
    (fun _ hi => absurd hi (Nat.not_lt_zero _))

@[simp] theorem holds_forAll (v : FreeVariable) (f : Formula) :
    (forAll v f).Holds E ρ ↔ ∀ a, f.Holds E (Function.update ρ v a) := by
  refine forall_congr' fun a => ?_
  rw [Node.holds_bindFree, holds_of_env]
  apply holds_congr
  intro w _
  unfold bindValue bindOne
  by_cases hw : w = v
  · subst hw
    simp [push]
  · simp [hw]

@[simp] theorem holds_existsOne (v : FreeVariable) (f : Formula) :
    (existsOne v f).Holds E ρ ↔ ∃ a, f.Holds E (Function.update ρ v a) := by
  simp [existsOne]

@[simp] theorem holds_vacuousForAll (f : Formula) :
    (vacuousForAll f).Holds E ρ ↔ f.Holds E ρ := by
  constructor
  · intro h
    exact (holds_of_env _ f).mp (h (ρ ⟨0⟩))
  · intro h a
    exact (holds_of_env _ f).mpr h

theorem holds_mapFreeVariables (g : FreeVariable → FreeVariable) (f : Formula) :
    (f.mapFreeVariables g).Holds E ρ ↔ f.Holds E (ρ ∘ g) := by
  unfold mapFreeVariables
  rw [Holds, Node.holds_mapFree, holds_of_env]

@[simp] theorem holds_substituteFree (source target : FreeVariable) (f : Formula) :
    (f.substituteFree source target).Holds E ρ ↔
      f.Holds E (Function.update ρ source (ρ target)) := by
  rw [substituteFree_eq_map, holds_mapFreeVariables]
  apply holds_congr
  intro v _
  unfold substitution
  by_cases hv : v = source
  · subst hv
    simp
  · simp [hv]

/-- Closed formulas do not depend on the assignment. -/
theorem models_iff_holds {f : Formula} (h : f.isClosed = true) :
    f.Models E ↔ f.Holds E ρ := by
  have hc := isClosed_iff_freeVariables.1 h
  exact ⟨fun hm => hm ρ, fun hr σ => (holds_congr fun v hv => absurd hv (hc v)).mp hr⟩

end Formula
end Naome
