import Mathlib

/-!
# Computations that fail and keep their effects

A step of a long-lived process changes its state and may stop with an error. The changes it made
before the error stay, and what runs next starts from them.
-/
namespace Naome

/-- A computation on a state `σ` with a result or an error. -/
structure Effect (σ ε α : Type) where
  run : σ → Except ε α × σ

namespace Effect

variable {σ ε α β : Type}

def pure (a : α) : Effect σ ε α := ⟨fun s => (.ok a, s)⟩

def throw (e : ε) : Effect σ ε α := ⟨fun s => (.error e, s)⟩

def bind (m : Effect σ ε α) (f : α → Effect σ ε β) : Effect σ ε β := ⟨fun s =>
  match m.run s with
  | (.ok a, t) => (f a).run t
  | (.error e, t) => (.error e, t)⟩

instance : Monad (Effect σ ε) where
  pure := pure
  bind := bind

/-- The state itself. -/
def state : Effect σ ε σ := ⟨fun s => (.ok s, s)⟩

def modify (f : σ → σ) : Effect σ ε Unit := ⟨fun s => (.ok (), f s)⟩

/-- The outcome of a computation as a value: an error does not stop what follows. -/
def attempt (m : Effect σ ε α) : Effect σ ε (Except ε α) :=
  ⟨fun s => (.ok (m.run s).1, (m.run s).2)⟩

def mapError (g : ε → ε) (m : Effect σ ε α) : Effect σ ε α :=
  ⟨fun s => ((m.run s).1.mapError g, (m.run s).2)⟩

/-- A guard that fails with `e`. -/
def require (p : Prop) [Decidable p] (e : ε) : Effect σ ε Unit := if p then pure () else throw e

def orThrow (e : ε) : Option α → Effect σ ε α
  | some a => pure a
  | none => throw e

def onlyIf (c : Bool) (m : Effect σ ε Unit) : Effect σ ε Unit := if c then m else pure ()

/-- The body for every element in order, until one fails. -/
def forEach (f : α → Effect σ ε Unit) : List α → Effect σ ε Unit
  | [] => pure ()
  | x :: xs => bind (f x) fun _ => forEach f xs

theorem run_bind (m : Effect σ ε α) (f : α → Effect σ ε β) (s : σ) :
    (m >>= f).run s = match m.run s with
      | (.ok a, t) => (f a).run t
      | (.error e, t) => (.error e, t) := rfl

theorem run_pure (a : α) (s : σ) : (Pure.pure a : Effect σ ε α).run s = (.ok a, s) := rfl

theorem run_throw (e : ε) (s : σ) : (throw e : Effect σ ε α).run s = (.error e, s) := rfl

theorem run_state (s : σ) : (state : Effect σ ε σ).run s = (.ok s, s) := rfl

theorem run_modify (g : σ → σ) (s : σ) : (modify g : Effect σ ε Unit).run s = (.ok (), g s) := rfl

theorem run_require (p : Prop) [Decidable p] (e : ε) (s : σ) :
    (require p e : Effect σ ε Unit).run s = if p then (.ok (), s) else (.error e, s) := by
  unfold require
  split_ifs <;> rfl

/-- From a state with `P`, the outcome and the state it leaves satisfy `Q`. -/
def Spec (P : σ → Prop) (m : Effect σ ε α) (Q : Except ε α → σ → Prop) : Prop :=
  ∀ s, P s → Q (m.run s).1 (m.run s).2

/-- Whatever the outcome, `I` holds again. -/
def Keeps (I : σ → Prop) (m : Effect σ ε α) : Prop := ∀ s, I s → I (m.run s).2

variable {I J : σ → Prop} {m : Effect σ ε α} {f : α → Effect σ ε β}

/-- A sequence whose first part keeps `J`: an error of the first part is the outcome. -/
theorem Spec.bind {Q : Except ε β → σ → Prop} (h : Keeps J m)
    (herror : ∀ e s, J s → Q (.error e) s) (hnext : ∀ a, Spec J (f a) Q) : Spec J (m >>= f) Q := by
  intro s hs
  have hfirst := h s hs
  rw [run_bind]
  rcases hm : m.run s with ⟨r, t⟩
  rw [hm] at hfirst
  cases r with
  | ok a => exact hnext a t hfirst
  | error e => exact herror e t hfirst

theorem Keeps.bind (h : Keeps I m) (hnext : ∀ a, Keeps I (f a)) : Keeps I (m >>= f) := by
  intro s hs
  have hfirst := h s hs
  rw [run_bind]
  rcases hm : m.run s with ⟨r, t⟩
  rw [hm] at hfirst
  cases r with
  | ok a => exact hnext a t hfirst
  | error e => exact hfirst

/-- The state that was read is the state the continuation starts from. -/
theorem keeps_state_bind {f : σ → Effect σ ε β} (h : ∀ s, I s → I ((f s).run s).2) :
    Keeps I (state >>= f) := h

theorem keeps_pure (I : σ → Prop) (a : α) : Keeps I (Pure.pure a : Effect σ ε α) := fun _ h => h

theorem keeps_throw (I : σ → Prop) (e : ε) : Keeps I (throw e : Effect σ ε α) := fun _ h => h

theorem keeps_state (I : σ → Prop) : Keeps I (state : Effect σ ε σ) := fun _ h => h

theorem keeps_modify {g : σ → σ} (h : ∀ s, I s → I (g s)) :
    Keeps I (modify g : Effect σ ε Unit) := h

theorem keeps_require (I : σ → Prop) (p : Prop) [Decidable p] (e : ε) :
    Keeps I (require p e : Effect σ ε Unit) := by
  unfold require
  split_ifs
  · exact keeps_pure I ()
  · exact keeps_throw I e

theorem keeps_orThrow (I : σ → Prop) (e : ε) (o : Option α) :
    Keeps I (orThrow e o : Effect σ ε α) := by
  cases o with
  | none => exact keeps_throw I e
  | some a => exact keeps_pure I a

theorem Keeps.attempt (h : Keeps I m) : Keeps I m.attempt := h

theorem Keeps.mapError {g : ε → ε} (h : Keeps I m) : Keeps I (m.mapError g) := h

theorem Keeps.ite {c : Prop} [Decidable c] {m' : Effect σ ε α} (h : Keeps I m) (h' : Keeps I m') :
    Keeps I (if c then m else m') := by
  split_ifs
  · exact h
  · exact h'

theorem Keeps.onlyIf {m : Effect σ ε Unit} (h : Keeps I m) (c : Bool) : Keeps I (onlyIf c m) :=
  Keeps.ite h (keeps_pure I ())

theorem Keeps.and (h : Keeps I m) (h' : Keeps J m) : Keeps (fun s => I s ∧ J s) m :=
  fun s hs => ⟨h s hs.1, h' s hs.2⟩

theorem keeps_forEach {g : α → Effect σ ε Unit} {xs : List α} (h : ∀ x ∈ xs, Keeps I (g x)) :
    Keeps I (forEach g xs) := by
  induction xs with
  | nil => exact keeps_pure I ()
  | cons x xs ih =>
    apply Keeps.bind (h x List.mem_cons_self)
    intro _
    exact ih fun y hy => h y (List.mem_cons_of_mem x hy)

end Effect

end Naome
