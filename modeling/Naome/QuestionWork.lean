import Naome.EffectBudget
import Naome.Outcome
import Naome.Checker

/-!
# The work of an assessment

Every step of an assessment is paid from one budget of operations and bytes before it is taken. A
certificate is reserved as a whole before it is built, normalized and checked.
-/
namespace Naome.Question
open Outcome

inductive RejectionReason
  | invalidPolicy
  | foundationMismatch
  | invalidTarget
  | missingDependency
  | duplicateDependency
  | invalidRegistry
  | invalidEvidence
  | inputLimit
  | dependencyLimit
  | executionLimit
  | exactDuplicate
  | knownProof
  | knownRefutation
  | provenEquivalent
  | knownLemmaInstance
  | staleContext
  | receivingLimit
  deriving DecidableEq, Repr

abbrev Failure := RejectionReason × String

namespace Failure

def limit : Failure := (.executionLimit, "Q08_EXECUTION")

def invalid : Failure := (.invalidEvidence, "Q02_CHECKED_CONTEXT")

end Failure

/-- What is left of the budget, and the limits on one certificate. -/
@[ext]
structure Work where
  operations : ℕ
  bytes : ℕ
  certificateSteps : ℕ
  certificateBytes : ℕ

/-- Computations on a budget. A violated assertion ends the process. -/
abbrev WorkM := Effect Work (Stop Failure)

/-- Sizes in memory that the reservations depend on. -/
structure MemorySizes where
  proofStep : ℕ
  plannedStep : ℕ

namespace Work

/-- The budget as amounts that can be added. -/
def amounts (w : Work) : ℕ × ℕ × ℕ × ℕ :=
  (w.operations, w.bytes, w.certificateSteps, w.certificateBytes)

def limit : Stop Failure := .error .limit

def invalid : Stop Failure := .error .invalid

/-- Pays for one operation and then for its bytes. -/
def charge (bytes : ℕ) : WorkM Unit := ⟨fun w =>
  if w.operations < 1 then (.error limit, w)
  else if w.bytes < bytes then (.error limit, { w with operations := w.operations - 1 })
  else (.ok (), { w with operations := w.operations - 1, bytes := w.bytes - bytes })⟩

def indexWorkBytes : ℕ := 256 * 64

def index : WorkM Unit := charge indexWorkBytes

def formula (bytes multiplier : ℕ) : WorkM Unit := charge (bytes * multiplier)

def certificateLimits (steps bytes : ℕ) : WorkM Unit := do
  let w ← Effect.state
  Effect.require (¬ (steps = 0 ∨ w.certificateSteps < steps ∨ certificateMaxSteps < steps ∨
    w.certificateBytes < bytes ∨ certificateMaxBytes < bytes)) limit

/-- Pays for operations that are no charge of their own. -/
def takeOperations (operations : ℕ) : WorkM Unit := ⟨fun w =>
  if w.operations < operations then (.error limit, w)
  else (.ok (), { w with operations := w.operations - operations })⟩

/-- Reserves the construction, the normalization and the check of one certificate. -/
def reserveCertificate (sizes : MemorySizes) (steps bytes checkerWork references : ℕ) :
    WorkM Unit := do
  certificateLimits steps bytes
  Effect.require (checkerWork ≤ checkerMaxFormulaWorkBytes) limit
  -- the bit length of the number of steps bounds the depth of every search tree over them
  let levels := Nat.log2 (max steps 2) + 1
  takeOperations (steps * (levels + 2) + references * 3)
  let metadata := steps * (sizes.proofStep * 8 + 128)
  charge (bytes * 16 + checkerWork * 8 + metadata + references * (indexWorkBytes * 3))

theorem settles_charge (fits : Prop) (n : ℕ) : (charge n).Settles amounts limit fits () := by
  constructor
  · intro w
    unfold charge
    dsimp only
    split_ifs
    · exact .inr rfl
    · exact .inr rfl
    · exact .inl rfl
  · intro _
    refine ⟨(1, n, 0, 0), fun w hw => ?_⟩
    obtain ⟨hoperations, hbytes, -, -⟩ := hw
    change 1 ≤ w.operations at hoperations
    change n ≤ w.bytes at hbytes
    refine ⟨{ w with operations := w.operations - 1, bytes := w.bytes - n }, ?_, ?_⟩
    · unfold charge
      dsimp only
      rw [if_neg (by omega), if_neg (by omega)]
    · refine ⟨?_, ?_, le_rfl, le_rfl⟩
      · change w.operations ≤ w.operations - 1 + 1
        omega
      · change w.bytes ≤ w.bytes - n + n
        omega

theorem settles_formula (fits : Prop) (bytes multiplier : ℕ) :
    (formula bytes multiplier).Settles amounts limit fits () := settles_charge fits _

/-- The fixed limits of a certificate. -/
structure FitsCertificate (steps bytes : ℕ) : Prop where
  nonempty : steps ≠ 0
  steps_le : steps ≤ certificateMaxSteps
  bytes_le : bytes ≤ certificateMaxBytes

theorem settles_certificateLimits (steps bytes : ℕ) :
    (certificateLimits steps bytes).Settles amounts limit (FitsCertificate steps bytes) () := by
  have hrun : ∀ w, (certificateLimits steps bytes).run w =
      if ¬ (steps = 0 ∨ w.certificateSteps < steps ∨ certificateMaxSteps < steps ∨
        w.certificateBytes < bytes ∨ certificateMaxBytes < bytes) then (.ok (), w)
      else (.error limit, w) := by
    intro w
    exact Effect.run_require _ _ _
  constructor
  · intro w
    rw [hrun]
    split
    · exact .inl rfl
    · exact .inr rfl
  · intro hfits
    refine ⟨(0, 0, steps, bytes), fun w hw => ⟨w, ?_, ?_⟩⟩
    · obtain ⟨-, -, hsteps, hbytes⟩ := hw
      change steps ≤ w.certificateSteps at hsteps
      change bytes ≤ w.certificateBytes at hbytes
      have hnonempty := hfits.nonempty
      have hle := hfits.steps_le
      have hle' := hfits.bytes_le
      rw [hrun, if_pos (by omega)]
    · exact le_add_right le_rfl

theorem settles_takeOperations (fits : Prop) (n : ℕ) :
    (takeOperations n).Settles amounts limit fits () := by
  constructor
  · intro w
    unfold takeOperations
    dsimp only
    split_ifs
    · exact .inr rfl
    · exact .inl rfl
  · intro _
    refine ⟨(n, 0, 0, 0), fun w hw => ?_⟩
    have hoperations : n ≤ w.operations := hw.1
    refine ⟨{ w with operations := w.operations - n }, ?_, ?_, le_rfl, le_rfl, le_rfl⟩
    · unfold takeOperations
      dsimp only
      rw [if_neg (by omega)]
    · change w.operations ≤ w.operations - n + n
      omega

theorem settles_reserveCertificate (sizes : MemorySizes) (steps bytes checkerWork references : ℕ) :
    (reserveCertificate sizes steps bytes checkerWork references).Settles amounts limit
      (FitsCertificate steps bytes ∧ checkerWork ≤ checkerMaxFormulaWorkBytes) () := by
  apply Effect.Settles.bind
  · exact (settles_certificateLimits steps bytes).mono And.left
  apply Effect.Settles.bind
  · exact (Effect.settles_require _).mono And.right
  apply Effect.Settles.bind
  · exact settles_takeOperations _ _
  exact settles_charge _ _

/-- A successful reservation is within the fixed limits. -/
theorem fits_of_reserveCertificate {sizes : MemorySizes} {steps bytes checkerWork references : ℕ}
    {w w' : Work} {u : Unit}
    (h : (reserveCertificate sizes steps bytes checkerWork references).run w = (.ok u, w')) :
    FitsCertificate steps bytes ∧ checkerWork ≤ checkerMaxFormulaWorkBytes := by
  obtain ⟨_, w₁, hlimits, h⟩ := Effect.run_bind_eq_ok.mp h
  obtain ⟨_, w₂, hwork, -⟩ := Effect.run_bind_eq_ok.mp h
  obtain ⟨s, w₃, hstate, hlimits⟩ := Effect.run_bind_eq_ok.mp hlimits
  cases hstate
  obtain ⟨hsome, -⟩ := Effect.run_require_eq_ok.mp hlimits
  obtain ⟨hwork, -⟩ := Effect.run_require_eq_ok.mp hwork
  exact ⟨⟨by omega, by omega, by omega⟩, hwork⟩

end Work
end Naome.Question
