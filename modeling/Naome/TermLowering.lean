import Naome.DefinitionMeaning
import Naome.SourceTerms

/-!
# The meaning of lowered terms

The constraints of a lowered term hold exactly where its witnesses carry the values of the functions
that it applies, so that an atom keeps its meaning.
-/
namespace Naome
open LocallyNameless Outcome

universe u

namespace DefinedFormula
open DefinitionExpansion

section

variable {M : Type*} {E : M → M → Prop} {bodyOf : DefinitionId → DefinedFormula}
  {ρ σ : FreeVariable → M} {f g : DefinedFormula}

theorem holds_of_env (env : ℕ → M) (f : DefinedFormula) :
    f.node.Holds E (definitionRelation E bodyOf) ρ env ↔ f.Holds E bodyOf ρ :=
  Node.holds_env f.wellScoped _ _ _

theorem holds_congr (h : ∀ x ∈ f.node.occurrences, ρ x = σ x) :
    f.Holds E bodyOf ρ ↔ f.Holds E bodyOf σ :=
  Node.holds_congr f.wellScoped h fun _ hi => absurd hi (Nat.not_lt_zero _)

theorem holds_negate : f.negate.Holds E bodyOf ρ ↔ ¬ f.Holds E bodyOf ρ := Iff.rfl

theorem holds_conjunction :
    (conjunction f g).Holds E bodyOf ρ ↔ f.Holds E bodyOf ρ ∧ g.Holds E bodyOf ρ := by
  have himplies : (conjunction f g).Holds E bodyOf ρ ↔
      ¬ (f.Holds E bodyOf ρ → ¬ g.Holds E bodyOf ρ) := Iff.rfl
  rw [himplies]
  tauto

theorem holds_forAll (v : FreeVariable) :
    (forAll v f).Holds E bodyOf ρ ↔ ∀ a, f.Holds E bodyOf (Function.update ρ v a) := by
  apply forall_congr'
  intro a
  rw [Node.holds_bindFree, holds_of_env]
  apply holds_congr
  intro w _
  unfold bindValue bindOne
  by_cases hw : w = v
  · subst hw
    simp [push]
  · simp [hw]

theorem holds_existsOne (v : FreeVariable) :
    (existsOne v f).Holds E bodyOf ρ ↔ ∃ a, f.Holds E bodyOf (Function.update ρ v a) := by
  rw [existsOne, holds_negate, holds_forAll, not_forall]
  apply exists_congr
  intro a
  rw [holds_negate, not_not]

theorem holds_definedRelation {id : DefinitionId} {xs : List FreeVariable} :
    (definedRelation id xs).Holds E bodyOf ρ ↔ definitionRelation E bodyOf id (xs.map ρ) := by
  have hmap : (xs.map Variable.free).map (Variable.value ρ fun _ => ρ ⟨0⟩) = xs.map ρ := by
    rw [List.map_map]
    rfl
  rw [Holds, definedRelation, Node.Holds, hmap]

theorem holds_foldr_conjunction (constraints : List DefinedFormula) :
    (constraints.foldr conjunction f).Holds E bodyOf ρ ↔
      (∀ c ∈ constraints, c.Holds E bodyOf ρ) ∧ f.Holds E bodyOf ρ := by
  induction constraints with
  | nil => simp
  | cons c constraints ih =>
    rw [List.foldr_cons, holds_conjunction, ih, List.forall_mem_cons, and_assoc]

/-- Quantified witnesses may take any values. -/
theorem holds_foldr_existsOne (witnesses : List FreeVariable) :
    (witnesses.foldr existsOne f).Holds E bodyOf ρ ↔
      ∃ σ, (∀ x, x ∉ witnesses → σ x = ρ x) ∧ f.Holds E bodyOf σ := by
  induction witnesses generalizing ρ with
  | nil =>
    constructor
    · intro h
      exact ⟨ρ, fun _ _ => rfl, h⟩
    · rintro ⟨σ, hσ, h⟩
      have hsame : σ = ρ := funext fun x => hσ x (by simp)
      rwa [hsame] at h
  | cons w witnesses ih =>
    rw [List.foldr_cons, holds_existsOne]
    constructor
    · rintro ⟨a, h⟩
      obtain ⟨σ, hσ, h⟩ := ih.mp h
      refine ⟨σ, ?_, h⟩
      intro x hx
      rw [List.mem_cons, not_or] at hx
      rw [hσ x hx.2, Function.update_of_ne hx.1]
    · rintro ⟨σ, hσ, h⟩
      refine ⟨σ w, ih.mpr ⟨σ, ?_, h⟩⟩
      intro x hx
      by_cases hw : x = w
      · rw [hw, Function.update_self]
      · rw [Function.update_of_ne hw]
        apply hσ
        simp [hw, hx]

end

section

variable {f : DefinedFormula} {x : FreeVariable}

theorem mem_occurrences_definedRelation {id : DefinitionId} {xs : List FreeVariable} :
    x ∈ (definedRelation id xs).node.occurrences ↔ x ∈ xs := by
  simp only [definedRelation, Node.occurrences, List.mem_flatMap, List.mem_map]
  constructor
  · rintro ⟨_, ⟨y, hy, rfl⟩, hx⟩
    rw [Variable.occurrences, List.mem_singleton] at hx
    rwa [hx]
  · intro hx
    exact ⟨.free x, ⟨x, hx, rfl⟩, List.mem_singleton_self x⟩

theorem mem_occurrences_foldr_conjunction (constraints : List DefinedFormula) :
    x ∈ (constraints.foldr conjunction f).node.occurrences ↔
      (∃ c ∈ constraints, x ∈ c.node.occurrences) ∨ x ∈ f.node.occurrences := by
  induction constraints with
  | nil => simp
  | cons c constraints ih =>
    have hcons : x ∈ (conjunction c (constraints.foldr conjunction f)).node.occurrences ↔
        x ∈ c.node.occurrences ∨ x ∈ (constraints.foldr conjunction f).node.occurrences :=
      List.mem_append
    rw [List.foldr_cons, hcons, ih, ← or_assoc]
    simp only [List.mem_cons, exists_eq_or_imp]

theorem mem_occurrences_foldr_existsOne (witnesses : List FreeVariable) :
    x ∈ (witnesses.foldr existsOne f).node.occurrences ↔
      x ∈ f.node.occurrences ∧ x ∉ witnesses := by
  induction witnesses with
  | nil => simp
  | cons w witnesses ih =>
    have hcons : x ∈ (existsOne w (witnesses.foldr existsOne f)).node.occurrences ↔
        x ∈ ((witnesses.foldr existsOne f).node.bindFree (bindOne w) 0).occurrences := Iff.rfl
    have hnone : bindOne w x = none ↔ x ≠ w := by
      unfold bindOne
      split_ifs with h <;> simp [h]
    rw [List.foldr_cons, hcons, Node.mem_occurrences_bindFree, ih, hnone, List.mem_cons, not_or]
    tauto

end

end DefinedFormula

namespace Authoring

namespace Variables

/-- Some later allocations lead from one to the other. -/
inductive Later (v : Variables) : Variables → Prop
  | refl : Later v v
  | named {u w : Variables} {name : List UInt8} {x : FreeVariable} (h : Later v u)
    (hnamed : u.named name = some (x, w)) : Later v w
  | fresh {u w : Variables} {x : FreeVariable} (h : Later v u)
    (hfresh : u.fresh = some (x, w)) : Later v w

def Ordered (v : Variables) : Prop :=
  ∀ name x, v.names.lookup name = some x → x.identifier.toNat < v.next

/-- A variable that was allocated without a name. -/
def Hidden (v : Variables) (x : FreeVariable) : Prop :=
  x.identifier.toNat < v.next ∧ ∀ name, v.names.lookup name ≠ some x

variable {u v w : Variables} {name : List UInt8} {x : FreeVariable}

theorem fresh_eq_some (h : v.fresh = some (x, w)) :
    x.identifier.toNat = v.next ∧ w = ⟨v.names, v.next + 1⟩ := by
  unfold fresh at h
  split_ifs at h with hlt
  cases h
  refine ⟨?_, rfl⟩
  rw [UInt32.toNat_ofNat']
  omega

theorem named_eq_some (h : v.named name = some (x, w)) :
    (v.names.lookup name = some x ∧ w = v) ∨ (v.names.lookup name = none ∧
      x.identifier.toNat = v.next ∧ w = ⟨(name, x) :: v.names, v.next + 1⟩) := by
  unfold named at h
  cases hlookup : v.names.lookup name with
  | some y =>
    rw [hlookup] at h
    cases h
    exact .inl ⟨rfl, rfl⟩
  | none =>
    rw [hlookup] at h
    cases hfresh : v.fresh with
    | none =>
      rw [hfresh] at h
      cases h
    | some r =>
      obtain ⟨y, u⟩ := r
      rw [hfresh] at h
      cases h
      obtain ⟨hx, rfl⟩ := fresh_eq_some hfresh
      exact .inr ⟨rfl, hx, rfl⟩

theorem lookup_cons {names : List (List UInt8 × FreeVariable)} {other : List UInt8} :
    ((name, x) :: names).lookup other = if other = name then some x else names.lookup other := by
  rw [List.lookup_cons]
  by_cases h : other = name
  · rw [if_pos h, beq_iff_eq.mpr h]
  · rw [if_neg h, beq_eq_false_iff_ne.mpr h]

theorem lookup_named (h : v.named name = some (x, w)) : w.names.lookup name = some x := by
  rcases named_eq_some h with ⟨hlookup, rfl⟩ | ⟨-, -, rfl⟩
  · exact hlookup
  · rw [lookup_cons, if_pos rfl]

namespace Later

theorem trans (h : v.Later u) (h' : u.Later w) : v.Later w := by
  induction h' with
  | refl => exact h
  | named _ hnamed ih => exact .named ih hnamed
  | fresh _ hfresh ih => exact .fresh ih hfresh

/-- Names keep their variables. -/
theorem lookup (h : v.Later w) (hlookup : v.names.lookup name = some x) :
    w.names.lookup name = some x := by
  induction h with
  | refl => exact hlookup
  | named _ hnamed ih =>
    rcases named_eq_some hnamed with ⟨-, rfl⟩ | ⟨hnone, -, rfl⟩
    · exact ih
    · rw [lookup_cons]
      split_ifs with hname
      · rw [hname, hnone] at ih
        cases ih
      · exact ih
  | fresh _ hfresh ih =>
    obtain ⟨-, rfl⟩ := fresh_eq_some hfresh
    exact ih

theorem next_le (h : v.Later w) : v.next ≤ w.next := by
  induction h with
  | refl => exact le_rfl
  | named _ hnamed ih =>
    rcases named_eq_some hnamed with ⟨-, rfl⟩ | ⟨-, -, rfl⟩
    · exact ih
    · exact Nat.le_succ_of_le ih
  | fresh _ hfresh ih =>
    obtain ⟨-, rfl⟩ := fresh_eq_some hfresh
    exact Nat.le_succ_of_le ih

theorem ordered (h : v.Later w) (hv : v.Ordered) : w.Ordered := by
  induction h with
  | refl => exact hv
  | named _ hnamed ih =>
    rcases named_eq_some hnamed with ⟨-, rfl⟩ | ⟨-, hx, rfl⟩
    · exact ih
    · intro other y hy
      rw [lookup_cons] at hy
      split_ifs at hy
      · cases hy
        exact hx ▸ Nat.lt_succ_self _
      · exact Nat.lt_succ_of_lt (ih other y hy)
  | fresh _ hfresh ih =>
    obtain ⟨-, rfl⟩ := fresh_eq_some hfresh
    intro other y hy
    exact Nat.lt_succ_of_lt (ih other y hy)

/-- A hidden variable never gets a name. -/
theorem hidden (h : v.Later w) (hx : v.Hidden x) : w.Hidden x := by
  induction h with
  | refl => exact hx
  | named _ hnamed ih =>
    rcases named_eq_some hnamed with ⟨-, rfl⟩ | ⟨-, hy, rfl⟩
    · exact ih
    · refine ⟨Nat.lt_succ_of_lt ih.1, ?_⟩
      intro other hother
      rw [lookup_cons] at hother
      split_ifs at hother
      · cases hother
        exact absurd ih.1 (by omega)
      · exact ih.2 other hother
  | fresh _ hfresh ih =>
    obtain ⟨-, rfl⟩ := fresh_eq_some hfresh
    exact ⟨Nat.lt_succ_of_lt ih.1, ih.2⟩

end Later

theorem ordered_empty : empty.Ordered := by
  intro name x h
  cases h

theorem hidden_fresh (hv : v.Ordered) (h : v.fresh = some (x, w)) : w.Hidden x := by
  obtain ⟨hx, rfl⟩ := fresh_eq_some h
  refine ⟨hx ▸ Nat.lt_succ_self _, ?_⟩
  intro name hname
  exact absurd (hv name x hname) (by omega)

end Variables

inductive Term
  | free (word : List UInt8)
  | call (function : DefinitionId) (arguments : List Term)

/-- A structure with the bodies of the definitions and with functions for some of them. -/
structure Interpretation (M : Type u) where
  membership : M → M → Prop
  bodyOf : DefinitionId → DefinedFormula
  functions : DefinitionId → List M → M

namespace Interpretation

variable {M : Type u} (I : Interpretation M)

def Relates (id : DefinitionId) (values : List M) : Prop :=
  DefinitionExpansion.definitionRelation I.membership I.bodyOf id values

def Holds (σ : FreeVariable → M) (f : DefinedFormula) : Prop := f.Holds I.membership I.bodyOf σ

end Interpretation

namespace Term

variable {M : Type u} (I : Interpretation M) (names : List UInt8 → M)

mutual

def value : Term → M
  | .free word => names word
  | .call function arguments => I.functions function (values arguments)

def values : List Term → List M
  | [] => []
  | t :: ts => t.value :: values ts

end

mutual

/-- Each applied definition has one output for all inputs: the value of its function. -/
def Functional : Term → Prop
  | .free _ => True
  | .call function arguments =>
    (∀ inputs : List M, inputs.length = arguments.length →
      ∀ y, I.Relates function (inputs ++ [y]) ↔ y = I.functions function inputs) ∧
    AllFunctional arguments

def AllFunctional : List Term → Prop
  | [] => True
  | t :: ts => t.Functional ∧ AllFunctional ts

end

variable {I names}

theorem values_append (ts us : List Term) :
    values I names (ts ++ us) = values I names ts ++ values I names us := by
  induction ts with
  | nil => rw [values, List.nil_append, List.nil_append]
  | cons t ts ih => rw [List.cons_append, values, values, ih, List.cons_append]

theorem allFunctional_append {ts us : List Term} :
    AllFunctional I (ts ++ us) ↔ AllFunctional I ts ∧ AllFunctional I us := by
  induction ts with
  | nil => simp [AllFunctional]
  | cons t ts ih => rw [List.cons_append, AllFunctional, AllFunctional, ih, and_assoc]

end Term

/-- What the constraints and witnesses of lowered terms say. -/
structure Lowered (v w : Variables) (terms : List Term) (xs : List FreeVariable)
    (constraints : List DefinedFormula) (witnesses : List FreeVariable) : Prop where
  later : v.Later w
  length : xs.length = terms.length
  hidden : ∀ x ∈ witnesses, v.next ≤ x.identifier.toNat ∧ w.Hidden x
  results : ∀ x ∈ xs, x ∈ witnesses ∨ ∃ name, w.names.lookup name = some x
  occurrences : ∀ c ∈ constraints, ∀ x ∈ c.node.occurrences,
    x ∈ witnesses ∨ ∃ name, w.names.lookup name = some x
  graphs : ∀ c ∈ constraints, ∃ id ys, c = .definedRelation id ys
  sound : ∀ (M : Type u) (I : Interpretation M), Term.AllFunctional I terms → ∀ σ names,
    (∀ word x, w.names.lookup word = some x → names word = σ x) →
    (∀ c ∈ constraints, I.Holds σ c) → xs.map σ = Term.values I names terms
  complete : ∀ (M : Type u) (I : Interpretation M), Term.AllFunctional I terms →
    ∀ ρ : FreeVariable → M, ∃ σ, (∀ x, x ∉ witnesses → σ x = ρ x) ∧ ∀ c ∈ constraints, I.Holds σ c

namespace Lowered

variable {v v' w : Variables} {terms terms' : List Term} {xs ys witnesses witnesses' :
  List FreeVariable} {constraints constraints' : List DefinedFormula} {x : FreeVariable}

theorem nil : Lowered.{u} v v [] [] [] [] where
  later := .refl
  length := rfl
  hidden := by simp
  results := by simp
  occurrences := by simp
  graphs := by simp
  sound := by
    intro M I _ σ names _ _
    rw [Term.values, List.map_nil]
  complete := by
    intro M I _ ρ
    exact ⟨ρ, fun _ _ => rfl, by simp⟩

theorem free {word : List UInt8} (h : v.named word = some (x, w)) :
    Lowered.{u} v w [.free word] [x] [] [] where
  later := .named .refl h
  length := rfl
  hidden := by simp
  results := by
    intro y hy
    rw [List.mem_singleton] at hy
    exact .inr ⟨word, hy ▸ Variables.lookup_named h⟩
  occurrences := by simp
  graphs := by simp
  sound := by
    intro M I _ σ names hnames _
    rw [Term.values, Term.values, Term.value, hnames word x (Variables.lookup_named h)]
    rfl
  complete := by
    intro M I _ ρ
    exact ⟨ρ, fun _ _ => rfl, by simp⟩

/-- Variables that a constraint mentions were allocated. -/
theorem lt_next (h : Lowered.{u} v v' terms xs constraints witnesses) (hv : v'.Ordered)
    {x : FreeVariable} (hx : x ∈ witnesses ∨ ∃ name, v'.names.lookup name = some x) :
    x.identifier.toNat < v'.next := by
  rcases hx with hwitness | ⟨name, hname⟩
  · exact (h.hidden x hwitness).2.1
  · exact hv name x hname

theorem append (h : Lowered.{u} v v' terms xs constraints witnesses) (hv : v'.Ordered)
    (h' : Lowered.{u} v' w terms' ys constraints' witnesses') :
    Lowered.{u} v w (terms ++ terms') (xs ++ ys) (constraints ++ constraints')
      (witnesses ++ witnesses') where
  later := h.later.trans h'.later
  length := by rw [List.length_append, List.length_append, h.length, h'.length]
  hidden := by
    intro x hx
    rcases List.mem_append.mp hx with hx | hx
    · exact ⟨(h.hidden x hx).1, h'.later.hidden (h.hidden x hx).2⟩
    · exact ⟨h.later.next_le.trans (h'.hidden x hx).1, (h'.hidden x hx).2⟩
  results := by
    intro x hx
    rw [List.mem_append]
    rcases List.mem_append.mp hx with hx | hx
    · rcases h.results x hx with hwitness | ⟨name, hname⟩
      · exact .inl (.inl hwitness)
      · exact .inr ⟨name, h'.later.lookup hname⟩
    · rcases h'.results x hx with hwitness | hname
      · exact .inl (.inr hwitness)
      · exact .inr hname
  occurrences := by
    intro c hc x hx
    rw [List.mem_append]
    rcases List.mem_append.mp hc with hc | hc
    · rcases h.occurrences c hc x hx with hwitness | ⟨name, hname⟩
      · exact .inl (.inl hwitness)
      · exact .inr ⟨name, h'.later.lookup hname⟩
    · rcases h'.occurrences c hc x hx with hwitness | hname
      · exact .inl (.inr hwitness)
      · exact .inr hname
  graphs := by
    intro c hc
    rcases List.mem_append.mp hc with hc | hc
    · exact h.graphs c hc
    · exact h'.graphs c hc
  sound := by
    intro M I hfunctional σ names hnames hσ
    obtain ⟨hfirst, hsecond⟩ := Term.allFunctional_append.1 hfunctional
    rw [List.map_append, Term.values_append,
      h.sound M I hfirst σ names (fun word x hx => hnames word x (h'.later.lookup hx))
        fun c hc => hσ c (List.mem_append_left _ hc),
      h'.sound M I hsecond σ names hnames fun c hc => hσ c (List.mem_append_right _ hc)]
  complete := by
    intro M I hfunctional ρ
    obtain ⟨hfirst, hsecond⟩ := Term.allFunctional_append.1 hfunctional
    obtain ⟨σ, hσ, hholds⟩ := h.complete M I hfirst ρ
    obtain ⟨τ, hτ, hholds'⟩ := h'.complete M I hsecond σ
    refine ⟨τ, ?_, ?_⟩
    · intro x hx
      rw [List.mem_append, not_or] at hx
      rw [hτ x hx.2, hσ x hx.1]
    · intro c hc
      rcases List.mem_append.mp hc with hc | hc
      · -- Later witnesses do not occur in earlier constraints.
        apply (DefinedFormula.holds_congr ?_).mp (hholds c hc)
        intro x hx
        have hlt := h.lt_next hv (h.occurrences c hc x hx)
        refine (hτ x fun hmem => ?_).symm
        exact absurd (h'.hidden x hmem).1 (by omega)
      · exact hholds' c hc

theorem call {id : DefinitionId} (h : Lowered.{u} v v' terms xs constraints witnesses)
    (hv : v'.Ordered) (hfresh : v'.fresh = some (x, w)) :
    Lowered.{u} v w [.call id terms] [x] (constraints ++ [.definedRelation id (xs ++ [x])])
      (witnesses ++ [x]) := by
  obtain ⟨hx, -⟩ := Variables.fresh_eq_some hfresh
  have hlater : v'.Later w := .fresh .refl hfresh
  have hold : ∀ y, (y ∈ witnesses ∨ ∃ name, v'.names.lookup name = some y) →
      y ∈ witnesses ++ [x] ∨ ∃ name, w.names.lookup name = some y := by
    intro y hy
    rcases hy with hwitness | ⟨name, hname⟩
    · exact .inl (List.mem_append_left _ hwitness)
    · exact .inr ⟨name, hlater.lookup hname⟩
  have hlast : x ∈ witnesses ++ [x] := by simp
  constructor
  · exact h.later.trans hlater
  · rfl
  · intro y hy
    rcases List.mem_append.mp hy with hy | hy
    · exact ⟨(h.hidden y hy).1, hlater.hidden (h.hidden y hy).2⟩
    · rw [List.mem_singleton] at hy
      subst hy
      exact ⟨hx ▸ h.later.next_le, Variables.hidden_fresh hv hfresh⟩
  · intro y hy
    rw [List.mem_singleton] at hy
    exact .inl (hy ▸ hlast)
  · intro c hc y hy
    rcases List.mem_append.mp hc with hc | hc
    · exact hold y (h.occurrences c hc y hy)
    · rw [List.mem_singleton] at hc
      subst hc
      rw [DefinedFormula.mem_occurrences_definedRelation, List.mem_append,
        List.mem_singleton] at hy
      rcases hy with hy | rfl
      · exact hold y (h.results y hy)
      · exact .inl hlast
  · intro c hc
    rcases List.mem_append.mp hc with hc | hc
    · exact h.graphs c hc
    · exact ⟨id, xs ++ [x], List.mem_singleton.mp hc⟩
  · intro M I hfunctional σ names hnames hσ
    rw [Term.AllFunctional, Term.Functional] at hfunctional
    obtain ⟨⟨hgraph, harguments⟩, -⟩ := hfunctional
    have hvalues := h.sound M I harguments σ names
      (fun word y hy => hnames word y (hlater.lookup hy))
      fun c hc => hσ c (List.mem_append_left _ hc)
    have hrelates : I.Relates id (xs.map σ ++ [σ x]) := by
      have hlastHolds := hσ _ (List.mem_append_right _ (List.mem_singleton_self _))
      rw [Interpretation.Holds, DefinedFormula.holds_definedRelation, List.map_append] at hlastHolds
      exact hlastHolds
    have houtput := (hgraph (xs.map σ) (by rw [List.length_map, h.length]) (σ x)).mp hrelates
    rw [List.map_singleton, Term.values, Term.value, Term.values, houtput, hvalues]
  · intro M I hfunctional ρ
    rw [Term.AllFunctional, Term.Functional] at hfunctional
    obtain ⟨⟨hgraph, harguments⟩, -⟩ := hfunctional
    obtain ⟨σ, hσ, hholds⟩ := h.complete M I harguments ρ
    -- The output is new, so that its value changes nothing before.
    have hne : ∀ y, (y ∈ witnesses ∨ ∃ name, v'.names.lookup name = some y) → y ≠ x := by
      intro y hy heq
      have hlt := h.lt_next hv hy
      rw [heq, hx] at hlt
      exact lt_irrefl _ hlt
    refine ⟨Function.update σ x (I.functions id (xs.map σ)), ?_, ?_⟩
    · intro y hy
      rw [List.mem_append, not_or, List.mem_singleton] at hy
      rw [Function.update_of_ne hy.2, hσ y hy.1]
    · intro c hc
      rcases List.mem_append.mp hc with hc | hc
      · apply (DefinedFormula.holds_congr ?_).mp (hholds c hc)
        intro y hy
        rw [Function.update_of_ne (hne y (h.occurrences c hc y hy))]
      · rw [List.mem_singleton] at hc
        subst hc
        have hmap : xs.map (Function.update σ x (I.functions id (xs.map σ))) = xs.map σ := by
          apply List.map_congr_left
          intro y hy
          rw [Function.update_of_ne (hne y (h.results y hy))]
        rw [Interpretation.Holds, DefinedFormula.holds_definedRelation, List.map_append, hmap,
          List.map_singleton, Function.update_self]
        exact (hgraph (xs.map σ) (by rw [List.length_map, h.length]) _).mpr rfl

end Lowered

end Authoring
end Naome
