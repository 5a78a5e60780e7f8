import Naome.LocallyNameless

/-!
# Truth of locally nameless formulas

A formula is read in a carrier `M` with one binary relation `E`, an interpretation `R`
of its further relation symbols, an assignment of the free names and an environment
for the bound indices. Equality is identity.
-/
namespace Naome.LocallyNameless

variable {V W D : Type} {M : Type*} {E : M → M → Prop} {R : D → List M → Prop}

/-- Entering a binder shifts the environment and puts the new value at index zero. -/
def push (a : M) (env : ℕ → M) : ℕ → M
  | 0 => a
  | i + 1 => env i

def Variable.value (ρ : V → M) (env : ℕ → M) : Variable V → M
  | .bound i => env i
  | .free v => ρ v

namespace Node

def Holds (E : M → M → Prop) (R : D → List M → Prop) (ρ : V → M) :
    (ℕ → M) → Node V D → Prop
  | env, .equal l r => l.value ρ env = r.value ρ env
  | env, .member l r => E (l.value ρ env) (r.value ρ env)
  | env, .not n => ¬ n.Holds E R ρ env
  | env, .implies a b => a.Holds E R ρ env → b.Holds E R ρ env
  | env, .forAll n => ∀ a, n.Holds E R ρ (push a env)
  | env, .definedRelation s xs => R s (xs.map (Variable.value ρ env))

attribute [local simp] Holds

end Node

/-- The assignment under which a formula with bound names is read: a name with a
binding index takes its value from the environment. -/
def bindValue (f : V → Option ℕ) (d : ℕ) (ρ : V → M) (env : ℕ → M) (v : V) : M :=
  match f v with
  | some i => env (i + d)
  | none => ρ v

theorem bindValue_push (f : V → Option ℕ) (d : ℕ) (ρ : V → M) (env : ℕ → M) (a : M) :
    bindValue f (d + 1) ρ (push a env) = bindValue f d ρ env := by
  funext v
  unfold bindValue
  cases f v <;> rfl

theorem Variable.value_bind (f : V → Option ℕ) (d : ℕ) (ρ : V → M) (env : ℕ → M)
    (x : Variable V) : (x.bind f d).value ρ env = x.value (bindValue f d ρ env) env := by
  cases x with
  | bound i => rfl
  | free v => simp only [Variable.bind, Variable.value, bindValue]; cases f v <;> rfl

theorem Variable.value_map (g : V → W) (ρ : W → M) (env : ℕ → M) (x : Variable V) :
    (x.map g).value ρ env = x.value (ρ ∘ g) env := by
  cases x <;> rfl

theorem Variable.value_congr {ρ σ : V → M} {env env' : ℕ → M} {d : ℕ} {x : Variable V}
    (hx : x.Scoped d) (hρ : ∀ v ∈ x.occurrences, ρ v = σ v) (he : ∀ i < d, env i = env' i) :
    x.value ρ env = x.value σ env' := by
  cases x with
  | bound i => exact he i hx
  | free v => exact hρ v (by simp [Variable.occurrences])

namespace Node

theorem holds_bindFree (f : V → Option ℕ) (d : ℕ) (ρ : V → M) (env : ℕ → M) (n : Node V D) :
    (n.bindFree f d).Holds E R ρ env ↔ n.Holds E R (bindValue f d ρ env) env := by
  induction n generalizing d env with
  | equal l r | member l r => simp only [bindFree, Holds, Variable.value_bind]
  | not n ih => simp only [bindFree, Holds, ih]
  | implies a b iha ihb => simp only [bindFree, Holds, iha, ihb]
  | forAll n ih => simp only [bindFree, Holds, ih, bindValue_push]
  | definedRelation s xs =>
    simp only [bindFree, Holds, List.map_map, Function.comp_def, Variable.value_bind]

theorem holds_mapFree (g : V → W) (ρ : W → M) (env : ℕ → M) (n : Node V D) :
    (n.mapFree g).Holds E R ρ env ↔ n.Holds E R (ρ ∘ g) env := by
  induction n generalizing env with
  | equal l r | member l r => simp only [mapFree, Holds, Variable.value_map]
  | not n ih | forAll n ih => simp only [mapFree, Holds, ih]
  | implies a b iha ihb => simp only [mapFree, Holds, iha, ihb]
  | definedRelation s xs =>
    simp only [mapFree, Holds, List.map_map, Function.comp_def, Variable.value_map]

/-- Truth depends on the values of the free names and of the indices in scope only. -/
theorem holds_congr {ρ σ : V → M} {env env' : ℕ → M} {d : ℕ} {n : Node V D}
    (hn : n.Scoped d) (hρ : ∀ v ∈ n.occurrences, ρ v = σ v) (he : ∀ i < d, env i = env' i) :
    n.Holds E R ρ env ↔ n.Holds E R σ env' := by
  induction n generalizing d env env' with
  | equal l r | member l r =>
    simp only [occurrences, List.mem_append] at hρ
    simp only [Holds, Variable.value_congr hn.1 (fun v hv => hρ v (.inl hv)) he,
      Variable.value_congr hn.2 (fun v hv => hρ v (.inr hv)) he]
  | not n ih => simp only [Holds, ih hn hρ he]
  | implies a b iha ihb =>
    simp only [occurrences, List.mem_append] at hρ
    simp only [Holds, iha hn.1 (fun v hv => hρ v (.inl hv)) he,
      ihb hn.2 (fun v hv => hρ v (.inr hv)) he]
  | forAll n ih =>
    refine forall_congr' fun a => ih hn hρ ?_
    intro i hi
    cases i with
    | zero => rfl
    | succ i => exact he i (Nat.lt_of_succ_lt_succ hi)
  | definedRelation s xs =>
    have hxs : xs.map (Variable.value ρ env) = xs.map (Variable.value σ env') := by
      apply List.map_congr_left
      intro x hx
      exact Variable.value_congr (hn x hx)
        (fun v hv => hρ v (List.mem_flatMap.mpr ⟨x, hx, hv⟩)) he
    simp only [Holds, hxs]

/-- A formula in scope of no binder is read independently of the environment. -/
theorem holds_env {n : Node V D} (hn : n.Scoped 0) (ρ : V → M) (env env' : ℕ → M) :
    n.Holds E R ρ env ↔ n.Holds E R ρ env' :=
  holds_congr hn (fun _ _ => rfl) (fun _ h => absurd h (Nat.not_lt_zero _))

theorem holds_embed (R' : Empty → List M → Prop) (ρ : V → M) (env : ℕ → M)
    (n : Node V Empty) : n.embed.Holds E R ρ env ↔ n.Holds E R' ρ env := by
  induction n generalizing env with
  | equal l r | member l r => rfl
  | not n ih | forAll n ih => simp only [embed, Holds, ih]
  | implies a b iha ihb => simp only [embed, Holds, iha, ihb]
  | definedRelation s xs => exact s.elim

/-- Without relation symbols their reading does not matter. -/
theorem holds_of_symbols_eq_nil {n : Node V D} (hn : n.symbols = []) (R' : D → List M → Prop)
    (ρ : V → M) (env : ℕ → M) : n.Holds E R ρ env ↔ n.Holds E R' ρ env := by
  obtain ⟨m, rfl⟩ := exists_embed hn
  rw [holds_embed (fun s => s.elim), holds_embed (fun s => s.elim)]

end Node
end Naome.LocallyNameless
