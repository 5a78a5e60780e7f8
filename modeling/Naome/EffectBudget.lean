import Naome.Effect

/-!
# Computations on a budget

A computation draws on amounts kept in its state and stops with one error when they do not suffice.
Apart from that error it has one result, and a large enough budget lets it reach this result.
-/
namespace Naome.Effect

variable {σ ε α β B : Type}

section

variable (measure : σ → B) [AddCommMonoid B] [PartialOrder B]

/-- With some budget the result is `a`, and no more than this budget is used up. -/
def Affords (m : Effect σ ε α) (a : α) : Prop :=
  ∃ cost : B, ∀ s, cost ≤ measure s → ∃ t, m.run s = (.ok a, t) ∧ measure s ≤ measure t + cost

/-- The result is `a` or the error `limit`, and under the condition `fits` a budget decides. -/
structure Settles (limit : ε) (fits : Prop) (m : Effect σ ε α) (a : α) : Prop where
  outcome : ∀ s, (m.run s).1 = .ok a ∨ (m.run s).1 = .error limit
  affords : fits → Affords measure m a

end

theorem run_bind_eq_ok {m : Effect σ ε α} {f : α → Effect σ ε β} {s u : σ} {b : β} :
    (m >>= f).run s = (.ok b, u) ↔ ∃ a t, m.run s = (.ok a, t) ∧ (f a).run t = (.ok b, u) := by
  rw [run_bind]
  rcases m.run s with ⟨r, t⟩
  cases r with
  | ok a => simp
  | error e => simp

theorem run_pure_eq_ok {a b : α} {s t : σ} :
    (Pure.pure a : Effect σ ε α).run s = (.ok b, t) ↔ a = b ∧ s = t := by
  rw [run_pure, Prod.mk.injEq, Except.ok.injEq]

theorem run_throw_eq_ok {e : ε} {b : α} {s t : σ} :
    (throw e : Effect σ ε α).run s = (.ok b, t) ↔ False := by
  rw [run_throw]
  simp

theorem run_require_eq_ok {p : Prop} [Decidable p] {e : ε} {u : Unit} {s t : σ} :
    (require p e : Effect σ ε Unit).run s = (.ok u, t) ↔ p ∧ s = t := by
  rw [run_require]
  split_ifs with h
  · simp [h]
  · simp [h]

theorem run_orThrow_eq_ok {o : Option α} {e : ε} {a : α} {s t : σ} :
    (orThrow e o : Effect σ ε α).run s = (.ok a, t) ↔ o = some a ∧ s = t := by
  cases o with
  | none => exact run_throw_eq_ok.trans (by simp)
  | some b => exact run_pure_eq_ok.trans (by simp)

section

variable {measure : σ → B} [AddCommMonoid B] [PartialOrder B] {limit : ε} {fits fits' : Prop}
  {m : Effect σ ε α} {a : α}

theorem affords_pure (a : α) : Affords measure (Pure.pure a : Effect σ ε α) a :=
  ⟨0, fun s _ => ⟨s, rfl, by simp⟩⟩

theorem settles_pure (limit : ε) (fits : Prop) (a : α) :
    Settles measure limit fits (Pure.pure a : Effect σ ε α) a :=
  ⟨fun _ => .inl rfl, fun _ => affords_pure a⟩

theorem Settles.mono (h : Settles measure limit fits m a) (himp : fits' → fits) :
    Settles measure limit fits' m a := ⟨h.outcome, fun hfits => h.affords (himp hfits)⟩

theorem settles_require (p : Prop) [Decidable p] :
    Settles measure limit p (require p limit : Effect σ ε Unit) () := by
  constructor
  · intro s
    rw [run_require]
    split_ifs
    · exact .inl rfl
    · exact .inr rfl
  · intro hp
    rw [require, if_pos hp]
    exact affords_pure ()

/-- A guard that holds anyway. -/
theorem settles_of_holds {p : Prop} [Decidable p] {e : ε} (hp : p) :
    Settles measure limit fits (require p e : Effect σ ε Unit) () := by
  rw [require, if_pos hp]
  exact settles_pure limit fits ()

theorem settles_orThrow {e : ε} {o : Option α} (ho : o = some a) :
    Settles measure limit fits (orThrow e o : Effect σ ε α) a := by
  subst ho
  exact settles_pure limit fits a

/-- A run that did not end in the limit ended in the result. -/
theorem Settles.eq_of_run (h : Settles measure limit fits m a) {s t : σ} {a' : α}
    (hrun : m.run s = (.ok a', t)) : a' = a := by
  have hout := h.outcome s
  rw [hrun] at hout
  rcases hout with hout | hout
  · exact Except.ok.inj hout
  · cases hout

end

section

variable {measure : σ → B} [AddCommMonoid B] [PartialOrder B] [IsOrderedCancelAddMonoid B]
  [CanonicallyOrderedAdd B] {limit : ε} {fits : Prop} {m : Effect σ ε α} {f : α → Effect σ ε β}
  {a : α} {b : β}

/-- A sequence costs what its parts cost. -/
theorem Affords.bind (h : Affords measure m a) (hf : Affords measure (f a) b) :
    Affords measure (m >>= f) b := by
  obtain ⟨first, h⟩ := h
  obtain ⟨second, hf⟩ := hf
  refine ⟨second + first, fun s hs => ?_⟩
  have hfirst : first ≤ measure s := le_trans le_add_self hs
  obtain ⟨t, ht, hspent⟩ := h s hfirst
  have hsecond : second ≤ measure t := le_of_add_le_add_right (hs.trans hspent)
  obtain ⟨u, hu, hspent'⟩ := hf t hsecond
  refine ⟨u, run_bind_eq_ok.2 ⟨a, t, ht, hu⟩, ?_⟩
  calc measure s ≤ measure t + first := hspent
    _ ≤ measure u + second + first := by gcongr
    _ = measure u + (second + first) := add_assoc _ _ _

theorem Settles.bind (h : Settles measure limit fits m a)
    (hf : Settles measure limit fits (f a) b) : Settles measure limit fits (m >>= f) b := by
  constructor
  · intro s
    rw [run_bind]
    have hfirst := h.outcome s
    rcases hm : m.run s with ⟨r, t⟩
    rw [hm] at hfirst
    change r = .ok a ∨ r = .error limit at hfirst
    rcases hfirst with rfl | rfl
    · exact hf.outcome t
    · exact .inr rfl
  · intro hfits
    exact (h.affords hfits).bind (hf.affords hfits)

end

end Naome.Effect
