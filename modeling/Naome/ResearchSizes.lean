import Naome.ResearchService

/-!
# Sizes of research rows

The lengths of the JSON rows of jobs and obligations, as `serde_json` writes them, and their lengths
once every number that changes later has its full width.
-/
namespace Naome.Jobs

namespace Size

def decimal (n : ℕ) : ℕ := (toString n).length

def boolean (b : Bool) : ℕ := if b then 4 else 5

/-- A byte of a string: quote, backslash and five control characters have short escapes, the other
control characters are written as `\u00xx`. -/
def byte (b : UInt8) : ℕ :=
  if b ∈ [34, 92, 8, 9, 10, 12, 13] then 2 else if b < 32 then 6 else 1

def text (s : String) : ℕ := 2 + (s.toByteArray.data.toList.map byte).sum

def optional {α : Type} (size : α → ℕ) : Option α → ℕ
  | none => 4
  | some a => size a

/-- The names of an object with their quotes, colons and commas, and its braces. -/
def names (fields : List String) : ℕ := 1 + (fields.map fun name => name.utf8ByteSize + 4).sum

/-- An object with at least one field. -/
def object (fields : List (String × ℕ)) : ℕ :=
  names (fields.map Prod.fst) + (fields.map Prod.snd).sum

/-- An array: brackets, and a comma between two elements. -/
def array (elements : List ℕ) : ℕ := 2 + elements.sum + (elements.length - 1)

theorem decimal_eq (n : ℕ) : decimal n = (Nat.toDigits 10 n).length := by
  unfold decimal
  rw [Nat.toString_eq_repr, ← String.length_toList, Nat.toList_repr]

theorem decimal_le_iff {n k : ℕ} (hk : 0 < k) : decimal n ≤ k ↔ n < 10 ^ k := by
  rw [decimal_eq]
  exact Nat.length_toDigits_le_iff (by norm_num) hk

theorem decimal_pos (n : ℕ) : 0 < decimal n := by
  rw [decimal_eq]
  exact Nat.length_toDigits_pos

theorem decimal_mono {m n : ℕ} (h : m ≤ n) : decimal m ≤ decimal n := by
  rw [decimal_le_iff (decimal_pos n)]
  exact h.trans_lt ((decimal_le_iff (decimal_pos n)).mp le_rfl)

/-- The widest number of 64 bits. -/
def wide (n : ℕ) : ℕ := max 20 (decimal n)

theorem decimal_le_wide (n : ℕ) : decimal n ≤ wide n := le_max_right _ _

theorem wide_of_lt {n : ℕ} (h : n < u64Limit) : wide n = 20 := by
  apply max_eq_left
  rw [decimal_le_iff (by norm_num)]
  exact h.trans (by norm_num [u64Limit])

end Size

open Size

def MockOutcome.size : MockOutcome → ℕ
  | .success => 9
  | .failed => 8
  | .malformed => 11
  | .wrongTarget => 14

def MockWork.size (m : MockWork) : ℕ := object
  [("step_ms", decimal m.stepMs), ("steps", decimal m.steps), ("cpu_ms", decimal m.cpuMs),
    ("outcome", m.outcome.size), ("descendant", boolean m.descendant),
    ("proof_padding_bytes", decimal m.proofPaddingBytes),
    ("result_delay_ms", decimal m.resultDelayMs), ("program_units", decimal m.programUnits)]

def Limits.size (l : Limits) : ℕ :=
  object [("horizon_ms", decimal l.horizonMs), ("work_units", decimal l.workUnits)]

def RecoveryPolicy.size : RecoveryPolicy → ℕ
  | .deterministicCheckpoint => 26
  | .holdInFlight => 16

def RoleSettings.size (s : RoleSettings) : ℕ :=
  object [("limits", s.limits.size), ("mock", s.mock.size), ("recovery", s.recovery.size)]

def Binding.size (b : Binding) : ℕ := object
  [("snapshot", text b.snapshot), ("policy", text b.policy),
    ("compatibility", text b.compatibility), ("selection", text b.selection)]

def Purpose.size : Purpose → ℕ
  | .assessment => 12
  | .admission => 11
  | .initial => 9
  | .final => 7
  | .publication => 13

def Input.size : Input → ℕ
  | .find cursor question =>
    object [("role", 6), ("cursor", decimal cursor), ("question", text question)]
  | .solve question => object [("role", 7), ("question", text question)]
  | .select question purpose root => object
    [("role", 8), ("question", text question), ("purpose", purpose.size), ("root", optional text root)]

def Output.size : Output → ℕ
  | .question source => object [("kind", 10), ("value", text source)]
  | .proof source helpers => object [("kind", 7),
    ("value", object [("source", text source), ("helpers", array (helpers.map text))])]
  | .program units => object [("kind", 9), ("value", object [("units", decimal units)])]
  | .selected choice => object [("kind", 10), ("value", boolean choice)]
  | .noCandidate => object [("kind", 14)]

def State.size : State → ℕ
  | .queued => 8
  | .running => 9
  | .suspended => 11
  | .complete => 10
  | .failed => 8
  | .cancelled => 11
  | .expired => 9
  | .inDoubt => 10

def requestSize (input : Input) (binding : Binding) (settings : RoleSettings) : ℕ :=
  array [input.size, binding.size, settings.size]

def recordNames : ℕ := names
  ["id", "input", "binding", "provider", "configuration", "settings", "created_ms", "expires_ms",
    "accounted_ms", "spent_ms", "reserved_units", "checkpoint", "state", "result", "acknowledged",
    "failure"]

/-- What a job never changes, with its numbers at the given width; a configuration is 64 digits. -/
def Record.fixed (r : Record) (number : ℕ → ℕ) : ℕ :=
  recordNames + number r.id + r.input.size + r.binding.size + text r.provider + 66 +
    r.settings.size + number r.createdMs + number r.expiresMs

/-- The result and the failure text of a record. -/
def Record.body (r : Record) : ℕ := optional Output.size r.result + optional text r.failure

/-- A record whose numbers, state and flag take the given widths. -/
def Record.sized (r : Record) (number unit : ℕ → ℕ) (state acknowledged : ℕ) : ℕ :=
  r.fixed number + number r.accountedMs + number r.spentMs + unit r.reservedUnits +
    unit r.checkpoint + state + acknowledged + r.body

def Record.jsonLen (r : Record) : ℕ := r.sized decimal decimal r.state.size (boolean r.acknowledged)

/-- The units of a job never get wider than its work units, unless they are already. -/
def Record.unitWidth (r : Record) : ℕ :=
  decimal (max r.settings.limits.workUnits (max r.reservedUnits r.checkpoint))

def Record.fullLen (r : Record) : ℕ := r.sized wide (fun _ => r.unitWidth) 11 5

def heldSize : Option ℕ → ℕ
  | none => 0
  | some id => 8 + decimal id

def Account.sized (a : Account) (number unit : ℕ → ℕ) (held : ℕ) : ℕ :=
  names ["settings", "created_ms", "expires_ms", "spent_ms", "reserved_units"] + a.settings.size +
    number a.createdMs + number a.expiresMs + number a.spentMs + unit a.reservedUnits + held

def Account.jsonLen (a : Account) : ℕ := a.sized decimal decimal (heldSize a.held)

def Account.fullLen (a : Account) : ℕ :=
  a.sized wide (fun n => decimal (max a.settings.limits.workUnits n)) (max 28 (heldSize a.held))

/-- The host measures rows as `serde_json` writes them. -/
structure Host.Serializes (host : Host) : Prop where
  recordLen : host.recordLen = Record.jsonLen
  accountLen : host.accountLen = Account.jsonLen
  requestLen : host.requestLen = requestSize

theorem Record.jsonLen_le (r : Record) : r.jsonLen ≤ r.fullLen := by
  have hstate : r.state.size ≤ 11 := by cases r.state <;> decide
  have hflag : boolean r.acknowledged ≤ 5 := by cases r.acknowledged <;> decide
  have hunits : decimal r.reservedUnits ≤ r.unitWidth :=
    decimal_mono ((le_max_left _ _).trans (le_max_right _ _))
  have hcheckpoint : decimal r.checkpoint ≤ r.unitWidth :=
    decimal_mono ((le_max_right _ _).trans (le_max_right _ _))
  have hid := decimal_le_wide r.id
  have hcreated := decimal_le_wide r.createdMs
  have hexpires := decimal_le_wide r.expiresMs
  have haccounted := decimal_le_wide r.accountedMs
  have hspent := decimal_le_wide r.spentMs
  unfold jsonLen fullLen sized fixed
  dsimp only
  omega

theorem Account.jsonLen_le (a : Account) : a.jsonLen ≤ a.fullLen := by
  have hunits : decimal a.reservedUnits ≤ decimal (max a.settings.limits.workUnits a.reservedUnits) :=
    decimal_mono (le_max_right _ _)
  have hcreated := decimal_le_wide a.createdMs
  have hexpires := decimal_le_wide a.expiresMs
  have hspent := decimal_le_wide a.spentMs
  have hheld : heldSize a.held ≤ max 28 (heldSize a.held) := le_max_right _ _
  unfold jsonLen fullLen sized
  dsimp only
  omega

end Naome.Jobs
