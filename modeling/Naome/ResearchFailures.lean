import Naome.ResearchJournal

/-!
# Failures of the validation

The validation of a journal names what it finds; it never reads like a save that found no room.
-/
namespace Naome.Jobs
open Outcome

/-- An error with its own text. -/
def Distinct {α : Type} (x : Except String α) : Prop :=
  x ≠ .error "research reserved result byte capacity"

section Distinct

variable {α β : Type} {x : Except String α} {f : α → Except String β}

theorem distinct_ok (a : α) : Distinct (.ok a : Except String α) := by simp [Distinct]

theorem Distinct.bind (h : Distinct x) (hf : ∀ a, Distinct (f a)) : Distinct (x >>= f) := by
  cases x with
  | ok a => exact hf a
  | error e => exact fun heq => h (by rw [Except.error.inj heq])

theorem distinct_require (p : Prop) [Decidable p] {e : String}
    (he : e ≠ "research reserved result byte capacity") : Distinct (require p e) := by
  unfold require
  split_ifs
  · exact distinct_ok _
  · exact fun heq => he (Except.error.inj heq)

theorem distinct_orError {e : String} (he : e ≠ "research reserved result byte capacity")
    (o : Option α) : Distinct (orError e o) := by
  cases o with
  | some a => exact distinct_ok a
  | none => exact fun heq => he (Except.error.inj heq)

theorem distinct_forM {g : α → Except String Unit} (hg : ∀ a, Distinct (g a)) (xs : List α) :
    Distinct (xs.forM g) := by
  induction xs with
  | nil => exact distinct_ok ()
  | cons x xs ih => exact (hg x).bind fun _ => ih

end Distinct

theorem distinct_validateRecord (host : Host) (id : ℕ) (r : Record) (observedMs nextId nextCursor : ℕ)
    (account : Option Account) :
    Distinct (host.validateRecord id r observedMs nextId nextCursor account) := by
  have hinput : Distinct (host.validateInput r.input) := by
    refine (distinct_require _ (by simp)).bind fun _ => ?_
    unfold Host.validateRoot
    split
    · exact distinct_require _ (by simp)
    · exact distinct_ok _
  have hbinding : Distinct (host.validateBinding r.binding) :=
    (distinct_require _ (by simp)).bind fun _ => distinct_require _ (by simp)
  have hresult : Distinct (validateResult r) := by
    unfold validateResult
    split
    · exact distinct_ok _
    · refine Distinct.bind ?_ fun _ => ?_
      · unfold Output.validateRetained Output.validateWithLimits
        split
        · exact distinct_require _ (by simp)
        · exact distinct_require _ (by simp)
        · exact distinct_require _ (by simp)
        · exact distinct_ok _
        · exact distinct_ok _
        · simp [Distinct]
      · split
        · exact distinct_require _ (by simp)
        · exact distinct_ok _
  have hobligation : Distinct (validateObligation r account) := by
    unfold validateObligation
    split_ifs
    · exact distinct_ok _
    · split
      · simp [Distinct]
      · exact distinct_require _ (by simp)
  have hcursor : Distinct (validateCursor r.input nextCursor) := by
    unfold validateCursor
    split
    · exact distinct_require _ (by simp)
    · exact distinct_ok _
  exact hinput.bind fun _ => hbinding.bind fun _ => (distinct_require _ (by simp)).bind fun _ =>
    (distinct_require _ (by simp)).bind fun _ => (distinct_orError (by simp) _).bind fun _ =>
    (distinct_require _ (by simp)).bind fun _ => (distinct_require _ (by simp)).bind fun _ =>
    hresult.bind fun _ => hobligation.bind fun _ => hcursor

theorem distinct_validateDelta (host : Host) (j : Journal) : Distinct (host.validateDelta j) := by
  have haccount : ∀ a, Distinct (host.validateAccount a) := fun a =>
    (distinct_require _ (by simp)).bind fun _ => distinct_require _ (by simp)
  have htotals : Distinct (requireTotals j.accounts.values j.totalReservedUnits j.totalSpentMs
      "research aggregate units overflow" "research aggregate time overflow"
      "research aggregate original allowance differs") :=
    (distinct_orError (by simp) _).bind fun _ => (distinct_orError (by simp) _).bind fun _ =>
      distinct_require _ (by simp)
  refine (distinct_require _ (by simp)).bind fun _ => (distinct_require _ (by simp)).bind fun _ =>
    htotals.bind fun _ => (distinct_forM (fun e => ?_) _).bind fun _ => distinct_forM (fun e => ?_) _
  · split_ifs
    · exact distinct_validateRecord _ _ _ _ _ _ _
    · exact distinct_ok _
  · split_ifs
    · exact haccount _
    · exact distinct_ok _

end Naome.Jobs
