import Mathlib

/-!
# Reasoning about fallible computations

Inversion rules for `Except`: a sequence succeeds exactly when each of its parts does.
-/
namespace Naome.Outcome

universe u

variable {ε ε' : Type*} {α β γ σ : Type u}

/-- How a computation stops without a result: a reported error, or a violated
assertion that ends the process. -/
inductive Stop (ε : Type*)
  | error (reason : ε)
  | panic
  deriving DecidableEq, Repr

/-- Translates the reported error. -/
def Stop.map (f : ε → ε') : Stop ε → Stop ε'
  | .error reason => .error (f reason)
  | .panic => .panic

theorem bind_eq_ok {x : Except ε α} {f : α → Except ε β} {b : β} :
    x >>= f = .ok b ↔ ∃ a, x = .ok a ∧ f a = .ok b := by
  cases x with
  | error e => simp [bind, Except.bind]
  | ok a => simp [bind, Except.bind]

theorem bind_eq_error {x : Except ε α} {f : α → Except ε β} {e : ε} :
    x >>= f = .error e ↔ x = .error e ∨ ∃ a, x = .ok a ∧ f a = .error e := by
  cases x with
  | error e => simp [bind, Except.bind]
  | ok a => simp [bind, Except.bind]

@[simp] theorem ok_bind (a : α) (f : α → Except ε β) : (Except.ok a >>= f) = f a := rfl

@[simp] theorem error_bind (e : ε) (f : α → Except ε β) : (Except.error e >>= f) = .error e := rfl

theorem pure_eq_ok {a b : α} : (pure a : Except ε α) = .ok b ↔ a = b := Except.ok.injEq a b ▸ Iff.rfl

/-- A guard that fails with `e`. -/
def require (p : Prop) [Decidable p] (e : ε) : Except ε Unit := if p then .ok () else .error e

@[simp] theorem require_eq_ok {p : Prop} [Decidable p] {e : ε} {u : Unit} :
    require p e = .ok u ↔ p := by
  unfold require
  split_ifs with h <;> simp [h]

@[simp] theorem require_eq_error {p : Prop} [Decidable p] {e e' : ε} :
    require p e = .error e' ↔ ¬ p ∧ e = e' := by
  unfold require
  split_ifs with h <;> simp [h]

/-- An optional value that fails with `e` when absent. -/
def orError (e : ε) : Option α → Except ε α
  | some a => .ok a
  | none => .error e

@[simp] theorem orError_eq_ok {e : ε} {o : Option α} {a : α} :
    orError e o = .ok a ↔ o = some a := by
  cases o <;> simp [orError]

theorem toOption_eq_some {x : Except ε α} {a : α} : x.toOption = some a ↔ x = .ok a := by
  cases x <;> simp [Except.toOption]

theorem map_eq_ok {f : α → β} {x : Except ε α} {b : β} :
    x.map f = .ok b ↔ ∃ a, x = .ok a ∧ f a = b := by
  cases x <;> simp [Except.map]

theorem mapError_eq_ok {f : ε → ε'} {x : Except ε α} {a : α} :
    x.mapError f = .ok a ↔ x = .ok a := by
  cases x <;> simp [Except.mapError]

theorem forM_eq_ok {f : α → Except ε Unit} {xs : List α} {a : Unit} :
    xs.forM f = .ok a ↔ ∀ x ∈ xs, f x = .ok () := by
  induction xs with
  | nil => simp [List.forM, pure, Except.pure]
  | cons x xs ih =>
    rw [List.forM, bind_eq_ok, List.forall_mem_cons, ← ih]
    constructor
    · rintro ⟨_, h⟩
      exact h
    · exact fun h => ⟨_, h⟩

theorem mapM_eq_ok {f : α → Except ε β} {xs : List α} {ys : List β} :
    xs.mapM f = .ok ys ↔ List.Forall₂ (fun x y => f x = .ok y) xs ys := by
  induction xs generalizing ys with
  | nil =>
    rw [List.mapM_nil, pure_eq_ok, List.forall₂_nil_left_iff, eq_comm]
  | cons x xs ih =>
    simp only [List.mapM_cons, bind_eq_ok, pure_eq_ok, ih, List.forall₂_cons_left_iff]
    constructor
    · rintro ⟨y, hy, ys, hys, rfl⟩
      exact ⟨y, ys, hy, hys, rfl⟩
    · rintro ⟨y, ys, hy, hys, rfl⟩
      exact ⟨y, hy, ys, hys, rfl⟩

theorem exists_of_mem_mapM {f : α → Except ε β} {xs : List α} {ys : List β}
    (h : xs.mapM f = .ok ys) {y : β} (hy : y ∈ ys) : ∃ x ∈ xs, f x = .ok y := by
  have hall := mapM_eq_ok.1 h
  clear h
  induction hall with
  | nil => cases hy
  | cons hx _ ih =>
    cases hy with
    | head => exact ⟨_, List.mem_cons_self, hx⟩
    | tail _ hy =>
      obtain ⟨x, hm, hx⟩ := ih hy
      exact ⟨x, List.mem_cons_of_mem _ hm, hx⟩

theorem map_bind (g : β → γ) (x : Except ε α) (f : α → Except ε β) :
    (x >>= f).map g = x >>= fun a => (f a).map g := by
  cases x <;> rfl

theorem bind_map (g : α → β) (x : Except ε α) (f : β → Except ε γ) :
    (x.map g >>= f) = x >>= fun a => f (g a) := by
  cases x <;> rfl

theorem mapM_map_of_map {f' : β → Except ε γ} {f : α → Except ε σ} {h : α → β} {k : σ → γ}
    (hf : ∀ x, f' (h x) = (f x).map k) (xs : List α) :
    (xs.map h).mapM f' = (xs.mapM f).map (List.map k) := by
  induction xs with
  | nil => rfl
  | cons x xs ih =>
    rw [List.map_cons, List.mapM_cons, List.mapM_cons, hf, ih, bind_map, map_bind]
    congr
    funext y
    rw [bind_map, map_bind]
    rfl

theorem foldlM_cons_eq_ok {f : σ → α → Except ε σ} {x : α} {xs : List α} {s t : σ} :
    (x :: xs).foldlM f s = .ok t ↔ ∃ m, f s x = .ok m ∧ xs.foldlM f m = .ok t := by
  rw [List.foldlM_cons, bind_eq_ok]

/-- What one step of a loop preserves holds of the state after the loop. -/
theorem foldlM_invariant {f : σ → α → Except ε σ} {I : σ → Prop} {xs : List α} {s t : σ}
    (step : ∀ s x t, x ∈ xs → I s → f s x = .ok t → I t) (hs : I s)
    (h : xs.foldlM f s = .ok t) : I t := by
  induction xs generalizing s with
  | nil =>
    cases h
    exact hs
  | cons x xs ih =>
    obtain ⟨m, hm, ht⟩ := foldlM_cons_eq_ok.1 h
    exact ih (fun s y t hy => step s y t (List.mem_cons_of_mem x hy))
      (step s x m List.mem_cons_self hs hm) ht

/-- Two computations that end alike: with related results, or with related errors. -/
inductive Related {δ : Type u} (E : ε → ε' → Prop) (P : α → δ → Prop) :
    Except ε α → Except ε' δ → Prop
  | ok {a : α} {b : δ} (h : P a b) : Related E P (.ok a) (.ok b)
  | error {e : ε} {e' : ε'} (h : E e e') : Related E P (.error e) (.error e')

namespace Related

variable {δ ζ τ : Type u} {E : ε → ε' → Prop} {P : α → δ → Prop} {Q : β → ζ → Prop}

theorem bind {x : Except ε α} {y : Except ε' δ} {f : α → Except ε β} {g : δ → Except ε' ζ}
    (h : Related E P x y) (hnext : ∀ a b, P a b → Related E Q (f a) (g b)) :
    Related E Q (x >>= f) (y >>= g) := by
  cases h with
  | ok h => exact hnext _ _ h
  | error h => exact .error h

theorem pure {a : α} {b : δ} (h : P a b) :
    Related E P (Pure.pure a : Except ε α) (Pure.pure b : Except ε' δ) :=
  .ok h

theorem map {x : Except ε α} {y : Except ε' δ} {f : α → β} {g : δ → ζ} (h : Related E P x y)
    (hnext : ∀ a b, P a b → Q (f a) (g b)) : Related E Q (x.map f) (y.map g) := by
  cases h with
  | ok h => exact .ok (hnext _ _ h)
  | error h => exact .error h

theorem exists_of_ok {x : Except ε α} {y : Except ε' δ} (h : Related E P x y) {a : α}
    (hx : x = .ok a) : ∃ b, y = .ok b ∧ P a b := by
  cases h with
  | ok h =>
    cases hx
    exact ⟨_, rfl, h⟩
  | error h => cases hx

theorem exists_of_error {x : Except ε α} {y : Except ε' δ} (h : Related E P x y) {e : ε}
    (hx : x = .error e) : ∃ e', y = .error e' ∧ E e e' := by
  cases h with
  | ok h => cases hx
  | error h =>
    cases hx
    exact ⟨_, rfl, h⟩

theorem symm {x : Except ε α} {y : Except ε' δ} (h : Related E P x y) :
    Related (fun e' e => E e e') (fun b a => P a b) y x := by
  cases h with
  | ok h => exact .ok h
  | error h => exact .error h

/-- Adds what is known about the first result. -/
theorem and_left {x : Except ε α} {y : Except ε' δ} {I : α → Prop} (h : Related E P x y)
    (hI : ∀ a, x = .ok a → I a) : Related E (fun a b => P a b ∧ I a) x y := by
  cases h with
  | ok h => exact .ok ⟨h, hI _ rfl⟩
  | error h => exact .error h

/-- Two runs over one numbered list, with an invariant of the position. -/
theorem foldlM {R : ℕ → σ → τ → Prop} {f : σ → γ × ℕ → Except ε σ} {g : τ → γ × ℕ → Except ε' τ}
    {xs : List γ} {n : ℕ} {s : σ} {t : τ} (h : R n s t)
    (hstep : ∀ x k s t, (x, k) ∈ xs.zipIdx n → R k s t →
      Related E (R (k + 1)) (f s (x, k)) (g t (x, k))) :
    Related E (R (n + xs.length)) ((xs.zipIdx n).foldlM f s) ((xs.zipIdx n).foldlM g t) := by
  induction xs generalizing n s t with
  | nil => exact .ok h
  | cons x xs ih =>
    rw [List.zipIdx_cons, List.foldlM_cons, List.foldlM_cons, List.length_cons, Nat.add_comm _ 1,
      ← Nat.add_assoc]
    refine bind (hstep x n s t (by simp [List.zipIdx_cons]) h) fun s' t' h' => ?_
    refine ih h' fun y k u v hmem => hstep y k u v ?_
    rw [List.zipIdx_cons]
    exact List.mem_cons_of_mem _ hmem

end Related

end Naome.Outcome
