import Naome.FinalizationReads
import Naome.ProgramEngine

/-!
# Runs of the program evaluator

In every run that appends no empty group to an accepted program, the owner has accepted exactly the
sealed programs that it has checked to their end.
-/
namespace Naome.Program
open LocallyNameless Outcome

section

variable (sha256 : List UInt8 → Digest) (serde : Serialization)

/-- The forward hash of a sequence of records. -/
def chain (records : List (List UInt8)) : Digest := records.foldl (commandHash sha256) 0

/-- A program that evaluators have written. -/
inductive StoredProgram.Written : StoredProgram → Prop
  | empty : Written .empty
  | append {database : Database} {command : Command} {e e' : Engine} (h : Written e.program)
    (hrun : Engine.appendRecord sha256 serde database command e = .ok e') : Written e'.program

/-- What the rows of a written program have in common. -/
structure StoredProgram.Coherent (p : StoredProgram) : Prop where
  commands_eq : p.commands = p.input.length
  commands_lt : p.commands < 2 ^ 63
  bytes_le : (p.records.map List.length).sum ≤ 2 ^ 48
  hash_eq : p.hash = chain sha256 p.records
  rows : ∀ (i : ℕ) row, p.input[i]? = some row →
    row.2 = chain sha256 (p.records.take (i + 1)) ∧ row.1.length ≤ recordBytes
  seals : ∀ (i : ℕ) row command, p.input[i]? = some row → decodeCommand serde row.1 = .ok command →
    (command.isSeal = true ↔ p.sealed = true ∧ i + 1 = p.commands)
  decodes : ∀ (i : ℕ) row, p.input[i]? = some row → ∃ command, decodeCommand serde row.1 = .ok command
  nonempty : p.sealed = true → p.commands ≠ 0

end

variable {sha256 : List UInt8 → Digest} {serde : Serialization} {database : Database} {e e' : Engine}

theorem decodeCommand_encodeCommand (hserde : serde.RoundTrip) {command : Command}
    {bytes : List UInt8} (h : encodeCommand serde.json command = .ok bytes) :
    bytes.length ≤ recordBytes ∧ decodeCommand serde bytes = .ok command := by
  have hbytes := h
  simp only [encodeCommand, bind_eq_ok, require_eq_ok, pure_eq_ok, exists_and_left,
    exists_const] at hbytes
  obtain ⟨hlength, rfl⟩ := hbytes
  refine ⟨hlength, ?_⟩
  simp only [decodeCommand, bind_eq_ok, require_eq_ok, pure_eq_ok, exists_and_left, exists_const]
  exact ⟨hlength, command, hserde.parse_json command, _, h, rfl, rfl⟩

/-- What an appended record changes. -/
structure Engine.Appends (sha256 : List UInt8 → Digest) (serde : Serialization) (database : Database)
    (command : Command) (e e' : Engine) : Prop where
  intro ::
  exists_bytes : ∃ bytes, encodeCommand serde.json command = .ok bytes ∧
    (e.program.records.map List.length).sum + bytes.length ≤ database.bytes ∧
    e' = { e with program := ⟨e.program.commands + 1, command.isSeal,
      commandHash sha256 e.program.hash bytes,
      e.program.input ++ [(bytes, commandHash sha256 e.program.hash bytes)]⟩ }
  inactive : e.active = none
  unsealed : e.program.sealed = false
  commands_lt : e.program.commands + 1 < 2 ^ 63

theorem Engine.appends_of_ok {command : Command}
    (h : appendRecord sha256 serde database command e = .ok e') : e.Appends sha256 serde database command e' := by
  simp only [appendRecord, bind_eq_ok, require_eq_ok, pure_eq_ok, mapError_eq_ok, exists_and_left,
    exists_const] at h
  obtain ⟨hactive, hsealed, bytes, hbytes, hfits, hcommands, rfl⟩ := h
  exact ⟨⟨bytes, hbytes, hfits, rfl⟩, hactive, hsealed, hcommands⟩

theorem StoredProgram.records_append (input : List (List UInt8 × Digest)) (bytes : List UInt8)
    (hash : Digest) : (input ++ [(bytes, hash)]).map Prod.fst = input.map Prod.fst ++ [bytes] := by
  simp

theorem Engine.Appends.coherent (hserde : serde.RoundTrip) {command : Command}
    (h : e.Appends sha256 serde database command e') (he : e.program.Coherent sha256 serde) :
    e'.program.Coherent sha256 serde := by
  obtain ⟨⟨bytes, hbytes, hfits, rfl⟩, -, hsealed, hcommands⟩ := h
  obtain ⟨hlength, hdecode⟩ := decodeCommand_encodeCommand hserde hbytes
  have hchain : commandHash sha256 e.program.hash bytes =
      chain sha256 (e.program.records ++ [bytes]) := by
    rw [chain, List.foldl_append, he.hash_eq]
    rfl
  have hrow : ∀ {i : ℕ} {row}, (e.program.input ++
      [(bytes, commandHash sha256 e.program.hash bytes)])[i]? = some row →
      (i < e.program.input.length ∧ e.program.input[i]? = some row) ∨
        (i = e.program.input.length ∧ row = (bytes, commandHash sha256 e.program.hash bytes)) := by
    intro i row hi
    rcases lt_or_ge i e.program.input.length with hlt | hge
    · rw [List.getElem?_append_left hlt] at hi
      exact .inl ⟨hlt, hi⟩
    · rw [List.getElem?_append_right hge, List.getElem?_singleton] at hi
      split_ifs at hi with hzero
      cases hi
      exact .inr ⟨by omega, rfl⟩
  constructor
  · simp [he.commands_eq]
  · exact hcommands
  · simpa [StoredProgram.records] using hfits.trans database.bytes_le
  · simpa [StoredProgram.records] using hchain
  · intro i row hi
    have htake : (e.program.records ++ [bytes]).length = e.program.input.length + 1 := by
      simp [StoredProgram.records]
    rw [StoredProgram.records, StoredProgram.records_append]
    change row.2 = chain sha256 ((e.program.records ++ [bytes]).take (i + 1)) ∧ _
    rcases hrow hi with ⟨hlt, hold⟩ | ⟨rfl, rfl⟩
    · obtain ⟨hhash, hle⟩ := he.rows i row hold
      rw [List.take_append_of_le_length (by simpa [StoredProgram.records] using hlt)]
      exact ⟨hhash, hle⟩
    · rw [← htake, List.take_length]
      exact ⟨hchain, hlength⟩
  · intro i row c hi hc
    change c.isSeal = true ↔ command.isSeal = true ∧ i + 1 = e.program.commands + 1
    rw [he.commands_eq]
    rcases hrow hi with ⟨hlt, hold⟩ | ⟨rfl, rfl⟩
    · have hold' := he.seals i row c hold hc
      rw [hsealed] at hold'
      constructor
      · intro hseal
        exact absurd (hold'.mp hseal).1 (by simp)
      · rintro ⟨_, heq⟩
        omega
    · rw [hdecode] at hc
      cases hc
      simp
  · intro i row hi
    rcases hrow hi with ⟨-, hold⟩ | ⟨-, rfl⟩
    · exact he.decodes i row hold
    · exact ⟨command, hdecode⟩
  · intro _
    exact Nat.succ_ne_zero _

theorem StoredProgram.Written.coherent (hserde : serde.RoundTrip) {p : StoredProgram}
    (h : p.Written sha256 serde) : p.Coherent sha256 serde := by
  induction h with
  | empty =>
    constructor
    · rfl
    · exact Nat.two_pow_pos 63
    · exact Nat.zero_le _
    · rfl
    all_goals simp [StoredProgram.empty]
  | append _ hrun ih => exact (Engine.appends_of_ok hrun).coherent hserde ih

section

variable (sha256 : List UInt8 → Digest) (serde : Serialization) (database : Database) (entryBytes : ℕ)

/-- The stores after any successful reads and insertions. -/
inductive Works : NodeStore → NodeStore → Prop
  | refl (s : NodeStore) : Works s s
  | load {s t t' : NodeStore} {id : ℕ} {loaded : GraphNode ℕ × Digest × Properties} :
    Works s t → t.load sha256 id = .ok (loaded, t') → Works s t'
  | intern {s t t' : NodeStore} {node : GraphNode ℕ} {id : ℕ} :
    Works s t → t.intern sha256 node = .ok (id, t') → Works s t'

/-- Operations read and insert nodes. The result of a command is authenticated, and that of a seal
is closed. -/
def Work.Sound (isSeal : Bool) (s : NodeStore) : Work → Prop
  | .fails _ => True
  | .works t => Works sha256 s t
  | .completes t node => Works sha256 s t ∧
      ∃ r, t.child node = .ok r ∧ (isSeal = true → r.properties.closed = true)

/-- Sound answers along a batch. -/
def SoundBatch : List Work → Engine → Prop
  | [], _ => True
  | work :: rest, e =>
    (∀ a, e.current sha256 serde = .ok (some a) → work.Sound sha256 a.isSeal e.store) ∧
      ∀ e', e.step sha256 serde work = .ok (some e') → SoundBatch rest e'

inductive Call
  | append (commands : List Command)
  | advance (cacheBytes : ℕ) (work : List Work) (commits : Bool)
  | suspendCache
  | prepareExport (q : Quantum)

namespace Call

def perform (e : Engine) : Call → Engine
  | .append commands => (e.appendGroup sha256 serde database commands).2
  | .advance cacheBytes work commits => (e.advance sha256 serde entryBytes cacheBytes work commits).2
  | .suspendCache => e.restrictCache entryBytes 0
  | .prepareExport q => (e.prepareExport sha256 entryBytes q).2

/-- The answers that the environment of a call can give without storage faults. -/
def Lawful (e : Engine) : Call → Prop
  | .append _ => True
  | .advance cacheBytes work _ => SoundBatch sha256 serde work (e.restrictCache entryBytes cacheBytes)
  | .suspendCache => True
  | .prepareExport q => q.Faultless e.store

/-- No empty group is appended to an accepted program. -/
def Permitted (e : Engine) (call : Call) : Prop := call = .append [] → e.accepted = none

def isExport : Call → Bool
  | .prepareExport q => decide (q.steps ≠ 0)
  | _ => false

end Call

/-- Runs whose calls meet the condition. -/
inductive Runs : Engine → List Call → Engine → Prop
  | nil (e : Engine) : Runs e [] e
  | cons {e e' : Engine} {call : Call} {calls : List Call}
    (hlawful : call.Lawful sha256 serde entryBytes e) (hpermitted : call.Permitted e)
    (hrest : Runs (call.perform sha256 serde database entryBytes e) calls e') : Runs e (call :: calls) e'

/-- The fields of an owner agree. -/
structure Engine.Exact (e : Engine) : Prop where
  coherent : e.program.Coherent sha256 serde
  reached : NodeStore.Reached sha256 e.store
  cursor_le : e.cursor ≤ e.program.commands
  checkedHash_eq : e.checkedHash = chain sha256 (e.program.records.take e.cursor)
  fetched : ∀ a, e.active = some a → e.fetch sha256 serde = .ok (some a)
  accepted_iff : e.accepted.isSome = true ↔
    e.program.sealed = true ∧ e.cursor = e.program.commands
  root : ∀ root, e.accepted = some root →
    ∃ r, e.store.child root = .ok r ∧ r.properties.closed = true
  unexported : e.accepted = none → e.exported = none ∧ e.finalization = none

end

variable {entryBytes : ℕ}

theorem Works.reached {s t : NodeStore} (h : Works sha256 s t) (hs : NodeStore.Reached sha256 s) :
    NodeStore.Reached sha256 t := by
  induction h with
  | refl => exact hs
  | load _ hload ih => exact .load ih hload
  | intern _ hintern ih => exact .intern ih hintern

theorem Engine.fetch_eq_some {a : Active} (h : e.fetch sha256 serde = .ok (some a)) :
    ∃ row command, e.program.input[e.cursor]? = some row ∧
      decodeCommand serde row.1 = .ok command ∧ a.isSeal = command.isSeal ∧
      a.sourceHash = row.2 := by
  unfold Engine.fetch at h
  split at h
  · cases h
  · rename_i bytes stored hrow
    simp only [bind_eq_ok, require_eq_ok, pure_eq_ok, mapError_eq_ok, exists_and_left,
      exists_const, Option.some.injEq] at h
    obtain ⟨-, hhash, command, hdecode, rfl⟩ := h
    exact ⟨_, command, hrow, hdecode, rfl, hhash.symm⟩

/-- The command to work on is the one at the cursor. -/
theorem Engine.Exact.current (h : e.Exact sha256 serde) :
    e.current sha256 serde = e.fetch sha256 serde := by
  unfold Engine.current
  cases hactive : e.active with
  | none => rfl
  | some a => exact (h.fetched a hactive).symm

/-- Behind the last record there is no command. -/
theorem Engine.Exact.fetch_end (h : e.Exact sha256 serde)
    (hcursor : e.cursor = e.program.commands) : e.fetch sha256 serde = .ok none := by
  have hnone : e.program.input[e.cursor]? = none := by
    rw [List.getElem?_eq_none_iff, hcursor, h.coherent.commands_eq]
  unfold Engine.fetch
  rw [hnone]

theorem Engine.Exact.inactive (h : e.Exact sha256 serde)
    (hcursor : e.cursor = e.program.commands) : e.active = none := by
  cases hactive : e.active with
  | none => rfl
  | some a =>
    have hfetch := h.fetched a hactive
    rw [h.fetch_end hcursor] at hfetch
    cases hfetch

/-- Work in progress and its stores do not affect the other fields. -/
theorem Engine.Exact.work (h : e.Exact sha256 serde) {a : Active}
    (ha : e.current sha256 serde = .ok (some a)) {t : NodeStore} (ht : Works sha256 e.store t) :
    Engine.Exact sha256 serde { e with store := t, active := some a } := by
  rw [h.current] at ha
  have hnone : e.accepted = none := by
    by_contra hne
    have hsome := Option.isSome_iff_ne_none.mpr hne
    rw [h.fetch_end (h.accepted_iff.mp hsome).2] at ha
    cases ha
  constructor
  · exact h.coherent
  · exact ht.reached h.reached
  · exact h.cursor_le
  · exact h.checkedHash_eq
  · intro a' ha'
    cases ha'
    exact ha
  · exact h.accepted_iff
  · intro root hroot
    rw [hnone] at hroot
    cases hroot
  · exact h.unexported

/-- A checked command moves the cursor; the seal of the whole program accepts it. -/
theorem Engine.Exact.conclude (h : e.Exact sha256 serde) {a : Active}
    (ha : e.current sha256 serde = .ok (some a)) {t : NodeStore} {node : ℕ}
    (hsound : (Work.completes t node).Sound sha256 a.isSeal e.store)
    (hrun : e.conclude a t node = .ok e') : e'.Exact sha256 serde := by
  obtain ⟨hworks, r, hchild, hclosed⟩ := hsound
  rw [h.current] at ha
  obtain ⟨row, command, hrow, hdecode, hseal, hhash⟩ := fetch_eq_some ha
  have hlt : e.cursor < e.program.commands := by
    rw [h.coherent.commands_eq]
    exact (List.getElem?_eq_some_iff.mp hrow).1
  have hnone : e.accepted = none := by
    by_contra hne
    have hsome := Option.isSome_iff_ne_none.mpr hne
    have := (h.accepted_iff.mp hsome).2
    omega
  have hsealed := h.coherent.seals e.cursor row command hrow hdecode
  have hchecked : a.sourceHash = chain sha256 (e.program.records.take (e.cursor + 1)) := by
    rw [hhash]
    exact (h.coherent.rows e.cursor row hrow).1
  simp only [Engine.conclude, bind_eq_ok, require_eq_ok, exists_and_left, exists_const] at hrun
  obtain ⟨-, hrun⟩ := hrun
  split_ifs at hrun with hisSeal
  · simp only [bind_eq_ok, require_eq_ok, pure_eq_ok, exists_and_left, exists_const] at hrun
    obtain ⟨⟨hprogram, hcommands, -⟩, rfl⟩ := hrun
    constructor
    · exact h.coherent
    · exact hworks.reached h.reached
    · exact hlt
    · exact hchecked
    · intro a' ha'
      cases ha'
    · simp only [Option.isSome_some, true_iff]
      exact ⟨hprogram, hcommands.symm⟩
    · intro root hroot
      cases hroot
      exact ⟨r, hchild, hclosed hisSeal⟩
    · intro hfalse
      cases hfalse
  · rw [pure_eq_ok] at hrun
    subst hrun
    constructor
    · exact h.coherent
    · exact hworks.reached h.reached
    · exact hlt
    · exact hchecked
    · intro a' ha'
      cases ha'
    · simp only [hnone, Option.isSome_none, Bool.false_eq_true, false_iff]
      intro hfalse
      exact hisSeal (hseal.trans (hsealed.mpr hfalse))
    · intro root hroot
      cases hnone.symm.trans hroot
    · exact h.unexported

theorem Engine.Exact.step (h : e.Exact sha256 serde) {work : Work}
    (hsound : ∀ a, e.current sha256 serde = .ok (some a) → work.Sound sha256 a.isSeal e.store)
    (hrun : e.step sha256 serde work = .ok (some e')) :
    e'.Exact sha256 serde ∧ e'.program = e.program ∧ e'.exported = e.exported ∧
      e'.finalization = e.finalization ∧ e.accepted = none := by
  simp only [Engine.step, bind_eq_ok] at hrun
  obtain ⟨current, hcurrent, hrun⟩ := hrun
  cases current with
  | none => cases hrun
  | some a =>
    have ha := hsound a hcurrent
    have hnone : e.accepted = none := by
      by_contra hne
      have hsome := Option.isSome_iff_ne_none.mpr hne
      have hfetch := hcurrent
      rw [h.current, h.fetch_end (h.accepted_iff.mp hsome).2] at hfetch
      cases hfetch
    cases work with
    | fails error => cases hrun
    | works t =>
      rw [pure_eq_ok] at hrun
      cases hrun
      exact ⟨h.work hcurrent ha, rfl, rfl, rfl, hnone⟩
    | completes t node =>
      simp only [bind_eq_ok, pure_eq_ok, Option.some.injEq] at hrun
      obtain ⟨e'', hconclude, rfl⟩ := hrun
      have hexact := h.conclude hcurrent ha hconclude
      simp only [Engine.conclude, bind_eq_ok, require_eq_ok, exists_and_left,
        exists_const] at hconclude
      obtain ⟨-, hconclude⟩ := hconclude
      split_ifs at hconclude
      · simp only [bind_eq_ok, require_eq_ok, pure_eq_ok, exists_and_left,
          exists_const] at hconclude
        obtain ⟨-, rfl⟩ := hconclude
        exact ⟨hexact, rfl, rfl, rfl, hnone⟩
      · rw [pure_eq_ok] at hconclude
        subst hconclude
        exact ⟨hexact, rfl, rfl, rfl, hnone⟩

/-- A batch keeps the owner exact, and it leaves an accepted owner as it is. -/
theorem Engine.Exact.advanceBatch (h : e.Exact sha256 serde) {work : List Work} {progress : Bool}
    (hsound : SoundBatch sha256 serde work e)
    (hrun : e.advanceBatch sha256 serde work = .ok (progress, e')) :
    e'.Exact sha256 serde ∧ e'.program = e.program ∧ e'.exported = e.exported ∧
      e'.finalization = e.finalization ∧ (e.accepted ≠ none → e' = e) := by
  induction work generalizing e progress with
  | nil =>
    cases hrun
    exact ⟨h, rfl, rfl, rfl, fun _ => rfl⟩
  | cons work rest ih =>
    simp only [Engine.advanceBatch, bind_eq_ok] at hrun
    obtain ⟨next, hstep, hrun⟩ := hrun
    cases next with
    | none =>
      rw [pure_eq_ok] at hrun
      cases hrun
      exact ⟨h, rfl, rfl, rfl, fun _ => rfl⟩
    | some e₁ =>
      simp only [bind_eq_ok, pure_eq_ok] at hrun
      obtain ⟨⟨_, e₂⟩, hrest, heq⟩ := hrun
      cases heq
      obtain ⟨h₁, hprogram, hexported, hfinal, hnone⟩ := h.step hsound.1 hstep
      obtain ⟨h₂, hprogram', hexported', hfinal', -⟩ := ih h₁ (hsound.2 e₁ hstep) hrest
      exact ⟨h₂, hprogram'.trans hprogram, hexported'.trans hexported, hfinal'.trans hfinal,
        fun hne => absurd hnone hne⟩

theorem Engine.Exact.restrictCache (h : e.Exact sha256 serde) (budget : ℕ) :
    (e.restrictCache entryBytes budget).Exact sha256 serde := by
  unfold Engine.restrictCache
  split_ifs
  · exact h
  · refine ⟨h.coherent, h.reached, h.cursor_le, h.checkedHash_eq, h.fetched, h.accepted_iff, h.root,
      fun hnone => ?_⟩
    obtain ⟨hexported, hfinal⟩ := h.unexported hnone
    refine ⟨hexported, ?_⟩
    rw [hfinal]
    rfl

theorem Engine.Exact.deactivate (h : e.Exact sha256 serde) :
    Engine.Exact sha256 serde { e with active := none } := by
  refine ⟨h.coherent, h.reached, h.cursor_le, h.checkedHash_eq, ?_, h.accepted_iff, h.root,
    h.unexported⟩
  intro a ha
  cases ha

/-- Only an owner that has not accepted is appended to. -/
theorem Engine.Exact.appendRecord (hserde : serde.RoundTrip) (h : e.Exact sha256 serde)
    {command : Command} (hrun : e.appendRecord sha256 serde database command = .ok e') :
    e'.Exact sha256 serde ∧ e.accepted = none ∧ e'.accepted = none := by
  have happends := appends_of_ok hrun
  have hcoherent := happends.coherent hserde h.coherent
  obtain ⟨⟨bytes, -, -, rfl⟩, hactive, hsealed, -⟩ := happends
  have hnone : e.accepted = none := by
    by_contra hne
    have hsome := Option.isSome_iff_ne_none.mpr hne
    have htrue := (h.accepted_iff.mp hsome).1
    rw [hsealed] at htrue
    cases htrue
  have hle := h.cursor_le
  refine ⟨⟨hcoherent, h.reached, ?_, ?_, ?_, ?_, h.root, h.unexported⟩, hnone, hnone⟩
  · change e.cursor ≤ e.program.commands + 1
    omega
  · rw [h.coherent.commands_eq] at hle
    change e.checkedHash = chain sha256 (((e.program.input ++ [_]).map Prod.fst).take e.cursor)
    rw [StoredProgram.records_append, List.take_append_of_le_length (by simpa using hle)]
    exact h.checkedHash_eq
  · intro a ha
    cases hactive.symm.trans ha
  · rw [hnone]
    simp only [Option.isSome_none, Bool.false_eq_true, false_iff]
    rintro ⟨_, hcursor⟩
    omega

theorem Engine.Exact.appendGroup (hserde : serde.RoundTrip) (h : e.Exact sha256 serde)
    {commands : List Command} (hpermitted : commands = [] → e.accepted = none) :
    (e.appendGroup sha256 serde database commands).2.Exact sha256 serde ∧
      (e.accepted ≠ none → (e.appendGroup sha256 serde database commands).2 = e) ∧
      (e.accepted = none → (e.appendGroup sha256 serde database commands).2.accepted = none) := by
  have hfold : ∀ (commands : List Command) (e e' : Engine), e.Exact sha256 serde →
      commands.foldlM (fun e command => e.appendRecord sha256 serde database command) e = .ok e' →
      e'.Exact sha256 serde ∧ (e.accepted = none → e'.accepted = none) ∧
        (commands ≠ [] → e.accepted = none) := by
    intro commands
    induction commands with
    | nil =>
      intro e e' h hrun
      cases hrun
      exact ⟨h, id, fun hne => absurd rfl hne⟩
    | cons command commands ih =>
      intro e e' h hrun
      rw [List.foldlM_cons, bind_eq_ok] at hrun
      obtain ⟨e₁, happend, hrun⟩ := hrun
      obtain ⟨h₁, hnone, hnone₁⟩ := h.appendRecord hserde happend
      obtain ⟨h', hkeep, -⟩ := ih e₁ e' h₁ hrun
      exact ⟨h', fun _ => hkeep hnone₁, fun _ => hnone⟩
  unfold Engine.appendGroup
  cases hrun : commands.foldlM (fun e command => e.appendRecord sha256 serde database command) e with
  | error error => exact ⟨h, fun _ => rfl, id⟩
  | ok e' =>
    obtain ⟨h', hkeep, hnonempty⟩ := hfold commands e e' h hrun
    have hnone : e.accepted = none := by
      by_cases hnil : commands = []
      · exact hpermitted hnil
      · exact hnonempty hnil
    obtain ⟨hexported, hfinal⟩ := h'.unexported (hkeep hnone)
    have hsame : { e' with accepted := none, finalization := none, exported := none } = e' := by
      obtain ⟨program, store, cursor, hash, active, accepted, budget, exported, final⟩ := e'
      dsimp only at hexported hfinal hkeep
      rw [hexported, hfinal, hkeep hnone]
    dsimp only
    refine ⟨?_, fun hne => absurd hnone hne, fun _ => rfl⟩
    rw [hsame]
    exact h'

/-- The reverse commitment to a suffix of the records. -/
def streamRoot (sha256 : List UInt8 → Digest) (records : List (List UInt8)) : Digest :=
  records.foldr (streamHash sha256) 0

/-- An export covers a suffix of the records. -/
structure Export.Covers (sha256 : List UInt8 → Digest) (p : StoredProgram) (x : Export) : Prop where
  before_le : x.before ≤ p.commands
  hash_eq : x.hash = streamRoot sha256 (p.records.drop x.before)
  bytes_eq : x.bytes = ((p.records.drop x.before).map List.length).sum

/-- An export loop without faults goes back one record with every step. -/
theorem exportLoop_eq {p : StoredProgram} (hp : p.Coherent sha256 serde) {steps : ℕ} {x : Export}
    (hx : x.Covers sha256 p) : ∃ x', Engine.exportLoop sha256 p.input steps x = .ok x' ∧
      x'.Covers sha256 p ∧ x'.before = x.before - steps := by
  induction steps generalizing x with
  | zero => exact ⟨x, rfl, hx, rfl⟩
  | succ steps ih =>
    by_cases hzero : x.before = 0
    · refine ⟨x, ?_, hx, by omega⟩
      rw [Engine.exportLoop, if_pos hzero]
    · have hlt : x.before - 1 < p.input.length := by
        have := hx.before_le
        rw [hp.commands_eq] at this
        omega
      have hrow : p.input[x.before - 1]? = some p.input[x.before - 1] :=
        List.getElem?_eq_getElem hlt
      obtain ⟨-, hlength⟩ := hp.rows _ _ hrow
      have hdrop : p.records.drop (x.before - 1) =
          p.input[x.before - 1].1 :: p.records.drop x.before := by
        have hrecords : x.before - 1 < p.records.length := by
          simpa [StoredProgram.records] using hlt
        rw [List.drop_eq_getElem_cons hrecords, Nat.sub_add_cancel (by omega)]
        simp [StoredProgram.records]
      have hsum : x.bytes + p.input[x.before - 1].1.length =
          ((p.records.drop (x.before - 1)).map List.length).sum := by
        rw [hdrop, List.map_cons, List.sum_cons, hx.bytes_eq, Nat.add_comm]
      have hfits : x.bytes + p.input[x.before - 1].1.length < u64Limit := by
        have hle : ((p.records.drop (x.before - 1)).map List.length).sum ≤
            (p.records.map List.length).sum :=
          List.Sublist.sum_le_sum ((List.drop_sublist _ _).map _) (fun _ _ => Nat.zero_le _)
        have hbytes := hp.bytes_le
        rw [hsum]
        refine (hle.trans hbytes).trans_lt ?_
        rw [u64Limit]
        norm_num
      have hnext : Export.Covers sha256 p ⟨x.before - 1,
          streamHash sha256 p.input[x.before - 1].1 x.hash,
          x.bytes + p.input[x.before - 1].1.length⟩ := by
        refine ⟨?_, ?_, hsum⟩
        · have := hx.before_le
          dsimp only
          omega
        · dsimp only
          rw [hdrop, streamRoot, List.foldr_cons, hx.hash_eq]
          rfl
      obtain ⟨x', hrun, hcovers, hbefore⟩ := ih hnext
      refine ⟨x', ?_, hcovers, ?_⟩
      · rw [Engine.exportLoop, if_neg hzero]
        simp only [bind_eq_ok, orError_eq_ok, require_eq_ok, mapError_eq_ok, exists_and_left,
          exists_const]
        refine ⟨_, hrow, hlength, _, ?_, hrun⟩
        rw [checkedAdd, if_pos hfits]
      · rw [hbefore]
        dsimp only
        omega

/-- The export in progress, or the one that the next call starts. -/
def Engine.pendingExport (e : Engine) : Export := e.exported.getD ⟨e.cursor, 0, 0⟩

/-- The conclusion of an accepted owner, with a bound on the export calls that it still needs. -/
structure Engine.Owes (sha256 : List UInt8 → Digest) (root : ℕ) (r : Representation)
    (formula : Formula) (e : Engine) (k : ℕ) : Prop where
  accepted : e.accepted = some root
  child : e.store.child root = .ok r
  unfolds : e.store.Unfolds root formula.node
  withinLimits : r.shape.fits = true → formula.WithinLimits
  narrow : r.shape.fits = true → TreeProjection.Narrow formula.node
  covers : e.pendingExport.Covers sha256 e.program
  progress : match e.finalization with
    | none => e.pendingExport.before + Finalization.bound root formula ≤ k
    | some f => e.exported.isSome = true ∧ e.pendingExport.before = 0 ∧
        Finalization.Advances e.store root formula r.shape f k

variable {root k : ℕ} {r : Representation} {formula : Formula}

theorem Engine.Owes.restrictCache (h : Owes sha256 root r formula e k) (budget : ℕ) :
    Owes sha256 root r formula (e.restrictCache entryBytes budget) k := by
  unfold Engine.restrictCache
  split_ifs
  · exact h
  · refine ⟨h.accepted, h.child, h.unfolds, h.withinLimits, h.narrow, h.covers, ?_⟩
    have hprogress := h.progress
    cases hfinal : e.finalization with
    | none =>
      rw [hfinal] at hprogress
      exact hprogress
    | some f =>
      rw [hfinal] at hprogress
      exact ⟨hprogress.1, hprogress.2.1, hprogress.2.2.restrictCache _⟩

/-- An accepted owner has the conclusion and owes a bounded number of export calls. -/
theorem Engine.Exact.status (h : e.Exact sha256 serde) (hroot : e.accepted = some root) :
    ∃ r node, e.store.child root = .ok r ∧
      e.store.load sha256 root = .ok ((node, r.hash, r.properties), e.store) ∧
      e.status sha256 = .ok ⟨e.program.commands, e.cursor, true, true, e.program.hash, some r.hash⟩ := by
  obtain ⟨r, hchild, -⟩ := h.root root hroot
  obtain ⟨node, -, hload⟩ := (NodeStore.sound_of_reached h.reached).load_of_child hchild
  refine ⟨r, node, hchild, hload, ?_⟩
  obtain ⟨hsealed, hcursor⟩ := h.accepted_iff.mp (by rw [hroot]; rfl)
  simp only [Engine.status, Engine.conclusionHash, hroot, hload, hsealed, hcursor]
  simp [Except.mapError, Bind.bind, Except.bind, pure, Except.pure]

theorem Engine.Exact.prepareExport (h : e.Exact sha256 serde) (hroot : e.accepted = some root)
    (q : Quantum) : e.prepareExport sha256 entryBytes q =
      if e.exported.isSome = true ∧ e.pendingExport.before = 0 then e.prepareConclusion entryBytes q
      else
        match Engine.exportLoop sha256 e.program.input q.steps e.pendingExport with
        | .error error => (.error error, { e with exported := some e.pendingExport })
        | .ok cursor =>
          if q.commits = true then (.ok false, { e with exported := some cursor })
          else (.error (.storage "export not committed"),
            { e with exported := some e.pendingExport }) := by
  obtain ⟨r, node, -, -, hstatus⟩ := h.status hroot
  unfold Engine.prepareExport
  rw [hstatus]
  rfl

/-- A quantum of the finalization comes closer to its end. -/
theorem Engine.Owes.prepareConclusion (h : Owes sha256 root r formula e k) {q : Quantum}
    (hq : q.Faultless e.store) (hexported : e.exported.isSome = true)
    (hbefore : e.pendingExport.before = 0) :
    (∃ done, (e.prepareConclusion entryBytes q).1 = .ok done) ∧
      Owes sha256 root r formula (e.prepareConclusion entryBytes q).2
        (if q.steps = 0 then k else k - 1) ∧
      ∃ finalization, (e.prepareConclusion entryBytes q).2 = { e with finalization } := by
  obtain ⟨hauth, node, hraw⟩ := NodeStore.child_eq_ok.mp h.child
  have hprogress := h.progress
  have howes : ∀ (f : Finalization) (j : ℕ),
      Finalization.Advances e.store root formula r.shape f j →
      Owes sha256 root r formula { e with finalization := some f } j := by
    intro f j hf
    exact ⟨h.accepted, h.child, h.unfolds, h.withinLimits, h.narrow, h.covers,
      ⟨hexported, hbefore, hf⟩⟩
  have hrun : e.prepareConclusion entryBytes q =
      ((Naome.prepareConclusion root (cacheEntries entryBytes (e.cacheBudget.getD 0)) r.shape q
        e.finalization).1, { e with finalization := (Naome.prepareConclusion root
          (cacheEntries entryBytes (e.cacheBudget.getD 0)) r.shape q e.finalization).2 }) := by
    simp only [Engine.prepareConclusion, h.accepted, hauth]
  rw [hrun]
  unfold Naome.prepareConclusion
  by_cases hsteps : q.steps = 0
  · rw [if_pos hsteps, if_pos hsteps]
    dsimp only
    exact ⟨⟨false, rfl⟩, h, e.finalization, rfl⟩
  · rw [if_neg hsteps, if_neg hsteps]
    cases hfinal : e.finalization with
    | some f =>
      rw [hfinal] at hprogress
      dsimp only
      obtain ⟨hok, hnext⟩ := hprogress.2.2.resume h.withinLimits hq hsteps
      exact ⟨hok, howes _ _ hnext, _, rfl⟩
    | none =>
      rw [hfinal] at hprogress
      obtain ⟨node, hread⟩ := hq.load.fetches 0 root _ h.unfolds
      dsimp only
      rw [hread]
      dsimp only
      rw [if_pos hq.opens]
      dsimp only
      have hbegin := Finalization.Advances.begin h.unfolds h.narrow
        (cacheEntries entryBytes (e.cacheBudget.getD 0))
      obtain ⟨hok, hnext⟩ := hbegin.resume h.withinLimits hq hsteps
      dsimp only at hprogress
      refine ⟨hok, howes _ _ ⟨hnext.stage.mono ?_, hnext.live⟩, _, rfl⟩
      omega

/-- Without faults an export call succeeds and comes closer to the end of the export. -/
theorem Engine.Owes.prepareExport (hexact : e.Exact sha256 serde)
    (h : Owes sha256 root r formula e k) {q : Quantum} (hq : q.Faultless e.store) :
    (∃ done, (e.prepareExport sha256 entryBytes q).1 = .ok done) ∧
      Owes sha256 root r formula (e.prepareExport sha256 entryBytes q).2
        (if q.steps = 0 then k else k - 1) ∧
      ∃ exported finalization, (e.prepareExport sha256 entryBytes q).2 =
        { e with exported, finalization } := by
  rw [hexact.prepareExport h.accepted]
  by_cases hdone : e.exported.isSome = true ∧ e.pendingExport.before = 0
  · rw [if_pos hdone]
    obtain ⟨hok, howes, finalization, heq⟩ := h.prepareConclusion hq hdone.1 hdone.2
    exact ⟨hok, howes, e.exported, finalization, heq⟩
  · obtain ⟨x, hrun, hcovers, hbefore⟩ := exportLoop_eq hexact.coherent h.covers
    rw [if_neg hdone, hrun]
    dsimp only
    rw [if_pos hq.commits]
    dsimp only
    have hprogress := h.progress
    have hfinal : e.finalization = none := by
      cases hf : e.finalization with
      | none => rfl
      | some f =>
        rw [hf] at hprogress
        exact absurd ⟨hprogress.1, hprogress.2.1⟩ hdone
    have hpositive : e.pendingExport.before ≠ 0 := by
      intro hzero
      obtain ⟨hsealed, hcursor⟩ := hexact.accepted_iff.mp (by rw [h.accepted]; rfl)
      have hnone : e.exported = none := by
        by_contra hne
        exact hdone ⟨Option.isSome_iff_ne_none.mpr hne, hzero⟩
      rw [Engine.pendingExport, hnone, Option.getD_none] at hzero
      exact hexact.coherent.nonempty hsealed (hcursor.symm.trans hzero)
    rw [hfinal] at hprogress
    dsimp only at hprogress
    refine ⟨⟨false, rfl⟩, ?_, some x, e.finalization, rfl⟩
    refine ⟨h.accepted, h.child, h.unfolds, h.withinLimits, h.narrow, hcovers, ?_⟩
    dsimp only
    rw [hfinal]
    change x.before + _ ≤ _
    split_ifs with hsteps
    · omega
    · omega

/-- An exact owner whose export, once it has accepted, ends after finitely many calls. -/
structure Engine.Invariant (sha256 : List UInt8 → Digest) (serde : Serialization) (e : Engine) :
    Prop where
  exact : e.Exact sha256 serde
  owes : ∀ root, e.accepted = some root → ∃ r formula k, Owes sha256 root r formula e k

/-- An owner that has just accepted owes the whole export. -/
theorem Engine.Exact.owes (h : e.Exact sha256 serde) (hroot : e.accepted = some root)
    (hexported : e.exported = none) (hfinal : e.finalization = none) :
    ∃ r formula, Owes sha256 root r formula e
      (e.program.commands + Finalization.bound root formula) := by
  obtain ⟨r, hchild, hclosed⟩ := h.root root hroot
  obtain ⟨formula, hunfolds, -, hlimits, hnarrow, -⟩ :=
    exists_conclusion (NodeStore.sound_of_reached h.reached) hchild hclosed
  obtain ⟨-, hcursor⟩ := h.accepted_iff.mp (by rw [hroot]; rfl)
  have hpending : e.pendingExport = ⟨e.cursor, 0, 0⟩ := by
    rw [Engine.pendingExport, hexported]
    rfl
  have hdrop : e.program.records.drop e.program.commands = [] := by
    rw [List.drop_eq_nil_iff, StoredProgram.records, List.length_map, h.coherent.commands_eq]
  refine ⟨r, formula, hroot, hchild, hunfolds, hlimits, hnarrow, ?_, ?_⟩
  · rw [hpending, hcursor]
    refine ⟨le_rfl, ?_, ?_⟩
    · rw [hdrop]
      rfl
    · rw [hdrop]
      rfl
  · rw [hfinal, hpending, hcursor]

theorem Engine.Exact.prepareExport_none (h : e.accepted = none) (q : Quantum) :
    (e.prepareExport sha256 entryBytes q).2 = e := by
  simp only [Engine.prepareExport, Engine.status, Engine.conclusionHash, h, ok_bind,
    Option.isSome_none, Bool.false_and]
  rfl

theorem Engine.restrictCache_fields (e : Engine) (entryBytes budget : ℕ) :
    (e.restrictCache entryBytes budget).accepted = e.accepted ∧
      (e.restrictCache entryBytes budget).program = e.program := by
  unfold Engine.restrictCache
  split_ifs
  · exact ⟨rfl, rfl⟩
  · exact ⟨rfl, rfl⟩

/-- A quantum restricts the cache. Beyond that it does nothing to an accepted owner, and what an
owner accepts is not exported yet. -/
theorem Engine.Exact.advance (h : e.Exact sha256 serde) {cacheBytes : ℕ} {work : List Work}
    {commits : Bool}
    (hsound : SoundBatch sha256 serde work (e.restrictCache entryBytes cacheBytes)) :
    (e.advance sha256 serde entryBytes cacheBytes work commits).2.Exact sha256 serde ∧
      (e.accepted ≠ none → (e.advance sha256 serde entryBytes cacheBytes work commits).2 = e ∨
        (e.advance sha256 serde entryBytes cacheBytes work commits).2 =
          e.restrictCache entryBytes cacheBytes) ∧
      (e.accepted = none →
        (e.advance sha256 serde entryBytes cacheBytes work commits).2.exported = none ∧
        (e.advance sha256 serde entryBytes cacheBytes work commits).2.finalization = none) := by
  have h₁ : (e.restrictCache entryBytes cacheBytes).Exact sha256 serde := h.restrictCache cacheBytes
  obtain ⟨haccepted, -⟩ := e.restrictCache_fields entryBytes cacheBytes
  have hnone : e.accepted = none →
      (e.restrictCache entryBytes cacheBytes).exported = none ∧
        (e.restrictCache entryBytes cacheBytes).finalization = none :=
    fun hnone => h₁.unexported (haccepted.trans hnone)
  have hdeactivate : e.accepted ≠ none →
      { e.restrictCache entryBytes cacheBytes with active := none } =
        e.restrictCache entryBytes cacheBytes := by
    intro hne
    have hsome := Option.isSome_iff_ne_none.mpr hne
    rw [← haccepted] at hsome
    have hinactive := h₁.inactive (h₁.accepted_iff.mp hsome).2
    rw [← hinactive]
  unfold Engine.advance
  by_cases hbudget : cacheBytes < 4096
  · rw [if_pos hbudget]
    exact ⟨h, fun _ => .inl rfl, h.unexported⟩
  rw [if_neg hbudget]
  by_cases hwork : work = []
  · dsimp only
    rw [if_pos hwork]
    exact ⟨h₁, fun _ => .inr rfl, hnone⟩
  · dsimp only
    rw [if_neg hwork]
    cases hrun : (e.restrictCache entryBytes cacheBytes).advanceBatch sha256 serde work with
    | error error => exact ⟨h₁.deactivate, fun hne => .inr (hdeactivate hne), hnone⟩
    | ok result =>
      obtain ⟨progress, e'⟩ := result
      obtain ⟨h', -, hexported, hfinal, hkeep⟩ := h₁.advanceBatch hsound hrun
      dsimp only
      split_ifs
      · refine ⟨h', fun hne => .inr (hkeep (by rwa [haccepted])), fun heq => ?_⟩
        rw [hexported, hfinal]
        exact hnone heq
      · exact ⟨h₁.deactivate, fun hne => .inr (hdeactivate hne), hnone⟩

/-- What a call makes of an accepted owner. -/
structure Call.Preserves (sha256 : List UInt8 → Digest) (call : Call) (e e' : Engine) : Prop where
  accepted : e'.accepted = e.accepted
  program : e'.program = e.program
  owes : ∀ root r formula k, e.Owes sha256 root r formula k →
    e'.Owes sha256 root r formula (if call.isExport = true then k - 1 else k)

theorem Call.Preserves.refl {call : Call} (h : call.isExport = false) (e : Engine) :
    call.Preserves sha256 e e := by
  refine ⟨rfl, rfl, fun root r formula k howes => ?_⟩
  rw [h]
  exact howes

theorem Call.Preserves.restrictCache {call : Call} (h : call.isExport = false) (e : Engine)
    (budget : ℕ) : call.Preserves sha256 e (e.restrictCache entryBytes budget) := by
  obtain ⟨haccepted, hprogram⟩ := e.restrictCache_fields entryBytes budget
  refine ⟨haccepted, hprogram, fun root r formula k howes => ?_⟩
  rw [h]
  exact howes.restrictCache budget

/-- A permitted call keeps the fields exact. It keeps an accepted owner accepted, with its program,
and an export call with positive steps comes closer to the end. -/
theorem Call.keeps (hserde : serde.RoundTrip) {call : Call} (h : e.Invariant sha256 serde)
    (hlawful : call.Lawful sha256 serde entryBytes e) (hpermitted : call.Permitted e) :
    (call.perform sha256 serde database entryBytes e).Exact sha256 serde ∧
      (e.accepted ≠ none → call.Preserves sha256 e (call.perform sha256 serde database entryBytes e)) ∧
      (e.accepted = none → (call.perform sha256 serde database entryBytes e).exported = none ∧
        (call.perform sha256 serde database entryBytes e).finalization = none) := by
  obtain ⟨hexact, howes⟩ := h
  cases call with
  | append commands =>
    have hempty : commands = [] → e.accepted = none := by
      intro hnil
      exact hpermitted (congrArg Call.append hnil)
    obtain ⟨hexact', hsame, hnone⟩ := hexact.appendGroup hserde hempty
    refine ⟨hexact', fun hne => ?_, fun heq => hexact'.unexported (hnone heq)⟩
    rw [Call.perform, hsame hne]
    exact .refl rfl e
  | advance cacheBytes work commits =>
    obtain ⟨hexact', hsame, hnone⟩ := @Engine.Exact.advance sha256 serde e entryBytes hexact cacheBytes work commits hlawful
    refine ⟨hexact', fun hne => ?_, hnone⟩
    rw [Call.perform]
    rcases hsame hne with heq | heq
    · rw [heq]
      exact .refl rfl e
    · rw [heq]
      exact .restrictCache rfl e cacheBytes
  | suspendCache =>
    have hexact' : (e.restrictCache entryBytes 0).Exact sha256 serde := hexact.restrictCache 0
    refine ⟨hexact', fun _ => .restrictCache rfl e 0, fun hnone => ?_⟩
    exact hexact'.unexported ((e.restrictCache_fields entryBytes 0).1.trans hnone)
  | prepareExport q =>
    rw [Call.perform]
    cases hroot : e.accepted with
    | none =>
      rw [Engine.Exact.prepareExport_none hroot]
      exact ⟨hexact, fun hne => absurd rfl hne, fun _ => hexact.unexported hroot⟩
    | some root =>
      obtain ⟨r, formula, k, howes⟩ := howes root hroot
      obtain ⟨-, -, exported, finalization, heq⟩ := howes.prepareExport hexact hlawful
      refine ⟨?_, fun _ => ⟨?_, ?_, fun root' r' formula' k' howes' => ?_⟩, fun hnone => by cases hnone⟩
      · rw [heq]
        refine ⟨hexact.coherent, hexact.reached, hexact.cursor_le, hexact.checkedHash_eq,
          hexact.fetched, hexact.accepted_iff, hexact.root, fun hnone => ?_⟩
        cases hroot.symm.trans hnone
      · rw [heq]
      · rw [heq]
      · obtain ⟨-, hnext, -⟩ := howes'.prepareExport hexact hlawful
        by_cases hsteps : q.steps = 0
        · simpa [Call.isExport, hsteps] using hnext
        · simpa [Call.isExport, hsteps] using hnext

theorem Call.invariant (hserde : serde.RoundTrip) {call : Call} (h : e.Invariant sha256 serde)
    (hlawful : call.Lawful sha256 serde entryBytes e) (hpermitted : call.Permitted e) :
    (call.perform sha256 serde database entryBytes e).Invariant sha256 serde := by
  obtain ⟨hexact, hpreserves, hnone⟩ := Call.keeps hserde h hlawful hpermitted
  refine ⟨hexact, fun root hroot => ?_⟩
  by_cases haccepted : e.accepted = none
  · obtain ⟨hexported, hfinal⟩ := hnone haccepted
    obtain ⟨r, formula, howes⟩ := hexact.owes hroot hexported hfinal
    exact ⟨r, formula, _, howes⟩
  · obtain ⟨hsame, -, howes⟩ := hpreserves haccepted
    obtain ⟨r, formula, k, hold⟩ := h.owes root (hsame.symm.trans hroot)
    exact ⟨r, formula, _, howes root r formula k hold⟩

theorem Engine.invariant_opened (hserde : serde.RoundTrip) {p : StoredProgram}
    (hp : p.Written sha256 serde) (rows : List (ℕ × NodeRow)) :
    (Engine.opened p rows).Invariant sha256 serde := by
  have hcoherent := hp.coherent hserde
  refine ⟨⟨hcoherent, .opened rows, Nat.zero_le _, rfl, ?_, ?_, ?_, fun _ => ⟨rfl, rfl⟩⟩, ?_⟩
  · intro a ha
    cases ha
  · simp only [Engine.opened, Option.isSome_none, Bool.false_eq_true, false_iff]
    rintro ⟨hsealed, hzero⟩
    exact hcoherent.nonempty hsealed hzero.symm
  · intro root hroot
    cases hroot
  · intro root hroot
    cases hroot

theorem Runs.invariant (hserde : serde.RoundTrip) {calls : List Call}
    (h : Runs sha256 serde database entryBytes e calls e') (he : e.Invariant sha256 serde) :
    e'.Invariant sha256 serde := by
  induction h with
  | nil => exact he
  | cons hlawful hpermitted _ ih => exact ih (Call.invariant hserde he hlawful hpermitted)

/-- A run keeps an accepted owner accepted, and its export calls add up. -/
theorem Runs.preserves (hserde : serde.RoundTrip) {calls : List Call}
    (h : Runs sha256 serde database entryBytes e calls e') (he : e.Invariant sha256 serde)
    (hroot : e.accepted = some root) (howes : e.Owes sha256 root r formula k) :
    e'.accepted = some root ∧ e'.program = e.program ∧
      e'.Owes sha256 root r formula (k - calls.countP Call.isExport) := by
  induction h generalizing k with
  | nil => exact ⟨hroot, rfl, howes⟩
  | @cons e e' call calls hlawful hpermitted _ ih =>
    obtain ⟨-, hpreserves, -⟩ := Call.keeps hserde he hlawful hpermitted
    obtain ⟨haccepted, hprogram, hnext⟩ := hpreserves (by rw [hroot]; simp)
    obtain ⟨haccepted', hprogram', howes'⟩ := ih (Call.invariant hserde he hlawful hpermitted)
      (haccepted.trans hroot) (hnext root r formula k howes)
    refine ⟨haccepted', hprogram'.trans hprogram, ?_⟩
    rw [List.countP_cons]
    split_ifs at howes' ⊢ with hexport
    · rwa [Nat.add_comm, ← Nat.sub_sub]
    · exact howes'

/-- A complete export is the manifest of the stored records. -/
theorem Engine.Owes.checked (hexact : e.Exact sha256 serde)
    (h : Owes sha256 root r formula e 0) : ∃ c, e.checked sha256 = .ok c ∧
      c.manifest.commands = e.program.commands ∧
      c.manifest.inputBytes = (e.program.records.map List.length).sum ∧
      c.manifest.programHash = chain sha256 e.program.records ∧
      c.manifest.streamRoot = streamRoot sha256 e.program.records ∧
      c.manifest.conclusion = r.hash ∧
      c.canonical = if r.shape.fits then some formula else none := by
  obtain ⟨r', node, hchild, hload, hstatus⟩ := hexact.status h.accepted
  cases h.child.symm.trans hchild
  obtain ⟨r', hroot, hclosed⟩ := hexact.root root h.accepted
  cases h.child.symm.trans hroot
  obtain ⟨formula', hunfolds, -, -, -, statement, hstatement⟩ :=
    exists_conclusion (NodeStore.sound_of_reached hexact.reached) hchild hclosed
  have hsame : formula' = formula := Formula.ext (hunfolds.unique h.unfolds)
  subst hsame
  have hprogress := h.progress
  cases hfinal : e.finalization with
  | none =>
    rw [hfinal] at hprogress
    dsimp only at hprogress
    rw [Finalization.bound] at hprogress
    omega
  | some f =>
    rw [hfinal] at hprogress
    obtain ⟨hsome, hbefore, hstage, -⟩ := hprogress
    obtain ⟨x, hx⟩ := Option.isSome_iff_exists.mp hsome
    have hcovers := h.covers
    rw [pendingExport, hx, Option.getD_some] at hcovers hbefore
    obtain ⟨-, hhash, hbytes⟩ := hcovers
    rw [hbefore, List.drop_zero] at hhash hbytes
    have hcanonical : f.canonical = some (if r.shape.fits then some formula' else none) := by
      cases hstage with
      | walking _ _ _ _ hle => omega
      | projecting _ _ _ hle => omega
      | complete _ hcanonical => exact hcanonical
    obtain ⟨-, hcursor⟩ := hexact.accepted_iff.mp (by rw [h.accepted]; rfl)
    have hlimits : e.program.commands < u64Limit ∧ x.bytes < u64Limit := by
      have hcommands := hexact.coherent.commands_lt
      have hle := hexact.coherent.bytes_le
      rw [← hbytes] at hle
      rw [u64Limit]
      omega
    have hchecked : e.checkedHash = chain sha256 e.program.records := by
      rw [hexact.checkedHash_eq, hcursor, List.take_of_length_le]
      rw [StoredProgram.records, List.length_map, hexact.coherent.commands_eq]
    refine ⟨⟨⟨e.program.commands, x.bytes, e.checkedHash, x.hash, r.hash, statement, hlimits.1,
      hlimits.2⟩, if r.shape.fits then some formula' else none⟩, ?_, rfl, hbytes, hchecked, hhash,
      rfl, rfl⟩
    simp only [Engine.checked, bind_eq_ok, orError_eq_ok, require_eq_ok, mapError_eq_ok,
      exists_and_left, exists_const]
    refine ⟨root, h.accepted, _, hstatus, rfl, _, ?_, _, hload, statement, hstatement, x, ?_, ?_⟩
    · rw [hfinal, Option.bind_some, hcanonical]
    · rw [hx, Option.filter_some, hbefore]
      rfl
    · rw [dif_pos hlimits]
      rfl

/-- In a run that appends no empty group to an accepted program, acceptance is exact at every state
reached, no further call loses it, and finitely many export calls end with the manifest of the
stored records. -/
theorem acceptance_exact (hserde : serde.RoundTrip) {p : StoredProgram}
    (hp : p.Written sha256 serde) {rows : List (ℕ × NodeRow)} {calls : List Call}
    (h : Runs sha256 serde database entryBytes (.opened p rows) calls e) :
    (e.accepted.isSome = true ↔ e.program.sealed = true ∧ e.cursor = e.program.commands ∧
      e.checkedHash = e.program.hash) ∧
    (∀ (call : Call), call.Lawful sha256 serde entryBytes e → call.Permitted e →
      e.accepted ≠ none → (call.perform sha256 serde database entryBytes e).accepted = e.accepted ∧
        (call.perform sha256 serde database entryBytes e).program = e.program) ∧
    (e.accepted ≠ none → ∃ bound, ∀ {calls' : List Call} {e' : Engine},
      Runs sha256 serde database entryBytes e calls' e' → bound ≤ calls'.countP Call.isExport →
      ∃ c, e'.checked sha256 = .ok c ∧ c.manifest.commands = e.program.commands ∧
        c.manifest.inputBytes = (e.program.records.map List.length).sum ∧
        c.manifest.programHash = e.program.hash ∧
        c.manifest.streamRoot = streamRoot sha256 e.program.records) := by
  have he := h.invariant hserde (Engine.invariant_opened hserde hp rows)
  refine ⟨?_, ?_, ?_⟩
  · rw [he.exact.accepted_iff]
    constructor
    · rintro ⟨hsealed, hcursor⟩
      refine ⟨hsealed, hcursor, ?_⟩
      rw [he.exact.checkedHash_eq, he.exact.coherent.hash_eq, hcursor, List.take_of_length_le]
      rw [StoredProgram.records, List.length_map, he.exact.coherent.commands_eq]
    · rintro ⟨hsealed, hcursor, _⟩
      exact ⟨hsealed, hcursor⟩
  · intro call hlawful hpermitted hne
    obtain ⟨-, hpreserves, -⟩ := Call.keeps hserde he hlawful hpermitted
    exact ⟨(hpreserves hne).accepted, (hpreserves hne).program⟩
  · intro hne
    obtain ⟨root, hroot⟩ := Option.ne_none_iff_exists'.mp hne
    obtain ⟨r, formula, k, howes⟩ := he.owes root hroot
    refine ⟨k, ?_⟩
    intro calls' e' h' hcount
    obtain ⟨-, hprogram, howes'⟩ := h'.preserves hserde he hroot howes
    rw [Nat.sub_eq_zero_of_le hcount] at howes'
    obtain ⟨c, hchecked, hcommands, hbytes, hhash, hstream, -⟩ :=
      howes'.checked (h'.invariant hserde he).exact
    rw [hprogram] at hcommands hbytes hhash hstream
    rw [← he.exact.coherent.hash_eq] at hhash
    exact ⟨c, hchecked, hcommands, hbytes, hhash, hstream⟩

theorem Engine.appendRecord_eq_ok {command : Command} {bytes : List UInt8}
    (hbytes : encodeCommand serde.json command = .ok bytes) (hactive : e.active = none)
    (hsealed : e.program.sealed = false)
    (hfits : (e.program.records.map List.length).sum + bytes.length ≤ database.bytes)
    (hcommands : e.program.commands + 1 < 2 ^ 63) :
    e.appendRecord sha256 serde database command = .ok { e with program :=
      ⟨e.program.commands + 1, command.isSeal, commandHash sha256 e.program.hash bytes,
        e.program.input ++ [(bytes, commandHash sha256 e.program.hash bytes)]⟩ } := by
  simp only [Engine.appendRecord, bind_eq_ok, require_eq_ok, pure_eq_ok, mapError_eq_ok,
    exists_and_left, exists_const]
  exact ⟨hactive, hsealed, bytes, hbytes, hfits, hcommands, rfl⟩

theorem Engine.current_eq_ok {command : Command} {bytes : List UInt8} {stored : Digest}
    (hserde : serde.RoundTrip) (hbytes : encodeCommand serde.json command = .ok bytes)
    (hactive : e.active = none) (hrow : e.program.input[e.cursor]? = some (bytes, stored))
    (hstored : stored = commandHash sha256 e.checkedHash bytes) :
    e.current sha256 serde = .ok (some ⟨command.isSeal, stored⟩) := by
  obtain ⟨hlength, hdecode⟩ := decodeCommand_encodeCommand hserde hbytes
  rw [Engine.current, hactive]
  dsimp only
  rw [Engine.fetch, hrow]
  simp only [bind_eq_ok, require_eq_ok, pure_eq_ok, mapError_eq_ok, exists_and_left, exists_const]
  exact ⟨hlength, hstored, command, hdecode, by rw [hstored]⟩

theorem Engine.advance_eq_ok {cacheBytes : ℕ} {work : List Work} {progress : Bool}
    (hbudget : ¬cacheBytes < 4096) (hwork : work ≠ [])
    (hrun : (e.restrictCache entryBytes cacheBytes).advanceBatch sha256 serde work =
      .ok (progress, e')) :
    e.advance sha256 serde entryBytes cacheBytes work true = (.ok progress, e') := by
  rw [Engine.advance, if_neg hbudget]
  dsimp only
  rw [if_neg hwork, hrun]
  rfl

/-- The rows of `∀ x, x = x`, authenticated from the leaf. -/
theorem exists_works (sha256 : List UInt8 → Digest) : ∃ (rows : List (ℕ × NodeRow)) (t : NodeStore)
    (r : Representation), Works sha256 ⟨rows, fun _ => none⟩ t ∧ t.child 2 = .ok r ∧
      r.properties.closed = true := by
  let leaf : PrimitiveNode := .equal (.bound 0) (.bound 0)
  let r₁ := foldGraph (represent sha256) leaf
  let r₂ := foldGraph (represent sha256) (.forAll leaf)
  let rows : List (ℕ × NodeRow) := [(1, ⟨some (.equal (.bound 0) (.bound 0)), r₁.hash, r₁.properties⟩),
    (2, ⟨some (.forAll 1), r₂.hash, r₂.properties⟩)]
  let s₀ : NodeStore := ⟨rows, fun _ => none⟩
  have hraw₁ : s₀.raw 1 = .ok (.equal (.bound 0) (.bound 0), r₁.hash, r₁.properties) :=
    NodeStore.raw_eq_ok.mpr ⟨rfl, by simp [GraphNode.children]⟩
  have hrepresentation₁ : s₀.representation sha256 (.equal (.bound 0) (.bound 0)) = .ok r₁ := rfl
  have hload₁ := NodeStore.load_eq_ok hraw₁ hrepresentation₁ rfl
  let s₁ : NodeStore := { s₀ with authenticated := Function.update s₀.authenticated 1 (some r₁) }
  have hraw₂ : s₁.raw 2 = .ok (.forAll 1, r₂.hash, r₂.properties) :=
    NodeStore.raw_eq_ok.mpr ⟨rfl, by simp [GraphNode.children]⟩
  have hchild₁ : s₁.child 1 = .ok r₁ := NodeStore.child_eq_ok.mpr ⟨rfl, _, hraw₁⟩
  have hrepresentation₂ : s₁.representation sha256 (.forAll 1) = .ok r₂ := by
    simp only [NodeStore.representation, GraphNode.mapM, hchild₁, ok_bind]
    rfl
  have hload₂ := NodeStore.load_eq_ok hraw₂ hrepresentation₂ rfl
  let s₂ : NodeStore := { s₁ with authenticated := Function.update s₁.authenticated 2 (some r₂) }
  have hchild₂ : s₂.child 2 = .ok r₂ := NodeStore.child_eq_ok.mpr ⟨rfl, _, hraw₂⟩
  exact ⟨rows, s₂, r₂, .load (.load (.refl s₀) hload₁) hload₂, hchild₂, rfl⟩

def Database.largest : Database := ⟨2 ^ 48, le_rfl⟩

set_option maxRecDepth 10000 in
/-- A program that cites a retained proof of `∀ x, x = x`, appended as one group and checked in one
quantum. -/
theorem exists_accepted : ∃ (sha256 : List UInt8 → Digest) (serde : Serialization)
    (rows : List (ℕ × NodeRow)) (calls : List Call) (e : Engine), serde.RoundTrip ∧
      serde.json (.proofReference 0) = asciiBytes "\x7b\"op\":\"proof_reference\",\"proof_id\":[" ++
        (List.replicate 31 (asciiBytes "0,")).flatten ++ asciiBytes "0]\x7d" ∧
      serde.json (.seal 0) = asciiBytes "\x7b\"op\":\"seal\",\"proof\":0\x7d" ∧
      Runs sha256 serde .largest 64 (.opened .empty rows) calls e ∧
      e.program.records = [serde.json (.proofReference 0), serde.json (.seal 0)] ∧
      e.accepted = some 2 ∧ e.program.commands = 2 ∧ e.program.sealed = true ∧ e.cursor = 2 ∧
      e.checkedHash = e.program.hash := by
  let sha256 : List UInt8 → Digest := fun bytes => BitVec.ofNat 256 bytes.length
  let x := asciiBytes "\x7b\"op\":\"proof_reference\",\"proof_id\":[" ++
    (List.replicate 31 (asciiBytes "0,")).flatten ++ asciiBytes "0]\x7d"
  let y := asciiBytes "\x7b\"op\":\"seal\",\"proof\":0\x7d"
  obtain ⟨json, hjson, hfirst, hsecond⟩ := exists_json (Command.proofReference 0) (.seal 0)
    (by decide) (x := x) (y := y) (by decide) ⟨123, by decide, by decide⟩
    ⟨123, by decide, by decide⟩
  obtain ⟨number, hnumber⟩ := exists_injective_nat Manifest
  have hmanifestJson : Function.Injective fun m : Manifest => List.replicate (number m) (0 : UInt8) := by
    intro m m' heq
    exact hnumber (by simpa using congrArg List.length heq)
  obtain ⟨serde, hserde, rfl, -⟩ := Staging.exists_roundTrip hjson hmanifestJson
  obtain ⟨rows, t, r, hworks, hchild, hclosed⟩ := exists_works sha256
  have hencode : encodeCommand serde.json (.proofReference 0) = .ok x := by
    rw [encodeCommand, hfirst]
    rfl
  have hencode' : encodeCommand serde.json (.seal 0) = .ok y := by
    rw [encodeCommand, hsecond]
    rfl
  let e₀ := Engine.opened .empty rows
  let hash := commandHash sha256 0 x
  let hash' := commandHash sha256 hash y
  let p : StoredProgram := ⟨2, true, hash', [(x, hash), (y, hash')]⟩
  let e₁ : Engine := { e₀ with program := p }
  have hx : x.length = 101 := by decide
  have hy : y.length = 23 := by decide
  have hfits : 0 + x.length ≤ Database.largest.bytes := by
    rw [hx]
    decide
  have hfits' : x.length + 0 + y.length ≤ Database.largest.bytes := by
    rw [hx, hy]
    decide
  have happend : (Call.append [.proofReference 0, .seal 0]).perform sha256 serde .largest 64 e₀ = e₁ := by
    have hrecord : e₀.appendRecord sha256 serde .largest (.proofReference 0) = .ok _ :=
      Engine.appendRecord_eq_ok hencode rfl rfl hfits (by norm_num [e₀, Engine.opened, StoredProgram.empty])
    have hrecord' := @Engine.appendRecord_eq_ok sha256 serde .largest
      { e₀ with program := ⟨1, false, hash, [(x, hash)]⟩ } (.seal 0) y hencode' rfl rfl
      hfits' (by norm_num)
    simp only [Call.perform, Engine.appendGroup, List.foldlM_cons, List.foldlM_nil, hrecord, ok_bind]
    erw [hrecord']
    rfl
  let e₂ : Engine := e₁.restrictCache 64 4096
  let e₃ : Engine := { e₂ with store := t, cursor := 1, checkedHash := hash }
  let e₄ : Engine := { e₃ with cursor := 2, checkedHash := hash', accepted := some 2 }
  have hcurrent : e₂.current sha256 serde = .ok (some ⟨false, hash⟩) :=
    Engine.current_eq_ok hserde hencode rfl rfl rfl
  have hcurrent' : e₃.current sha256 serde = .ok (some ⟨true, hash'⟩) :=
    Engine.current_eq_ok hserde hencode' rfl rfl rfl
  have hstep : e₂.step sha256 serde (.completes t 2) = .ok (some e₃) := by
    rw [Engine.step, hcurrent]
    rfl
  have hstep' : e₃.step sha256 serde (.completes t 2) = .ok (some e₄) := by
    have hconclude : e₃.conclude ⟨true, hash'⟩ t 2 = .ok e₄ := by
      simp only [Engine.conclude, bind_eq_ok, require_eq_ok, exists_and_left, exists_const]
      refine ⟨show 2 < u64Limit by decide, ?_⟩
      rw [if_pos trivial]
      simp only [bind_eq_ok, require_eq_ok, pure_eq_ok, exists_and_left, exists_const]
      exact ⟨⟨rfl, rfl, rfl⟩, rfl⟩
    rw [Engine.step, hcurrent']
    simp only [ok_bind, hconclude]
    rfl
  have hadvance : (Call.advance 4096 [.completes t 2, .completes t 2] true).perform sha256 serde .largest 64
      e₁ = e₄ := by
    have hbatch : e₂.advanceBatch sha256 serde [.completes t 2, .completes t 2] =
        .ok (true, e₄) := by
      simp only [Engine.advanceBatch, hstep, hstep', ok_bind]
      rfl
    rw [Call.perform, Engine.advance_eq_ok (by decide) (by simp) hbatch]
  have hsound : SoundBatch sha256 serde [.completes t 2, .completes t 2] e₂ := by
    refine ⟨?_, ?_⟩
    · intro a _
      exact ⟨hworks, r, hchild, fun _ => hclosed⟩
    · intro e' he'
      rw [hstep] at he'
      cases he'
      refine ⟨?_, ?_⟩
      · intro a _
        exact ⟨.refl t, r, hchild, fun _ => hclosed⟩
      · intro e' _
        trivial
  refine ⟨sha256, serde, rows, [.append [.proofReference 0, .seal 0],
    .advance 4096 [.completes t 2, .completes t 2] true], e₄, hserde, hfirst, hsecond, ?_, ?_, rfl,
    rfl, rfl, rfl, rfl⟩
  · refine .cons trivial ?_ ?_
    · intro hfalse
      cases hfalse
    rw [happend]
    refine .cons hsound ?_ ?_
    · intro hfalse
      cases hfalse
    rw [hadvance]
    exact .nil e₄
  · rw [hfirst, hsecond]
    rfl

theorem acceptance_exact_single :
    ∃ (sha256 : List UInt8 → Digest) (serde : Serialization) (e : Engine),
      serde.json (.proofReference 0) = asciiBytes "\x7b\"op\":\"proof_reference\",\"proof_id\":[" ++
        (List.replicate 31 (asciiBytes "0,")).flatten ++ asciiBytes "0]\x7d" ∧
      serde.json (.seal 0) = asciiBytes "\x7b\"op\":\"seal\",\"proof\":0\x7d" ∧
      e.program.records = [serde.json (.proofReference 0), serde.json (.seal 0)] ∧
      e.accepted = some 2 ∧ e.checkedHash = e.program.hash ∧
      ∃ bound, ∀ {calls' : List Call} {e' : Engine}, Runs sha256 serde .largest 64 e calls' e' →
        bound ≤ calls'.countP Call.isExport →
        ∃ c, e'.checked sha256 = .ok c ∧ c.manifest.commands = 2 := by
  obtain ⟨sha256, serde, rows, calls, e, hserde, hfirst, hsecond, hrun, hrecords, haccepted,
    hcommands, -, -, -⟩ := exists_accepted
  obtain ⟨hexact, -, hexport⟩ := acceptance_exact hserde .empty hrun
  obtain ⟨bound, hbound⟩ := hexport (by rw [haccepted]; simp)
  refine ⟨sha256, serde, e, hfirst, hsecond, hrecords, haccepted,
    (hexact.mp (by rw [haccepted]; rfl)).2.2, bound, ?_⟩
  intro calls' e' h' hcount
  obtain ⟨c, hchecked, hcount, -⟩ := hbound h' hcount
  exact ⟨c, hchecked, hcount.trans hcommands⟩

/-- An empty group appended to an accepted program takes its acceptance back, and no later call of
`advance` finds a record to check. -/
theorem acceptance_lost :
    ∃ (sha256 : List UInt8 → Digest) (serde : Serialization) (rows : List (ℕ × NodeRow))
      (calls : List Call) (e e' : Engine), serde.RoundTrip ∧
      Runs sha256 serde .largest 64 (.opened .empty rows) calls e ∧ e.accepted = some 2 ∧
      (Call.append []).Lawful sha256 serde 64 e ∧
      (Call.append []).perform sha256 serde .largest 64 e = e' ∧
      e'.program.sealed = true ∧ e'.cursor = e'.program.commands ∧
      e'.checkedHash = e'.program.hash ∧ e'.accepted = none ∧
      ∀ work, e'.step sha256 serde work = .ok none := by
  obtain ⟨sha256, serde, rows, calls, e, hserde, -, -, hrun, hrecords, haccepted, hcommands, hsealed,
    hcursor, hhash⟩ := exists_accepted
  have he := (hrun.invariant hserde (Engine.invariant_opened hserde .empty rows)).exact
  refine ⟨sha256, serde, rows, calls, e, _, hserde, hrun, haccepted, trivial, rfl, hsealed,
    hcursor.trans hcommands.symm, hhash, rfl, ?_⟩
  intro work
  have hcurrent : e.current sha256 serde = .ok none :=
    he.current.trans (he.fetch_end (hcursor.trans hcommands.symm))
  have hcurrent' : ((Call.append []).perform sha256 serde .largest 64 e).current sha256 serde = .ok none :=
    hcurrent
  rw [Engine.step, hcurrent']
  rfl

end Naome.Program
