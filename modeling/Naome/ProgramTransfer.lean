import Naome.ProgramStream

/-!
# Program transfer

Whatever chunks a peer sends, the accepted ones deliver a program in order and complete.
-/
namespace Naome.Program
open Outcome ByteCursor

section

variable (sha256 : List UInt8 → Digest) (json : Command → List UInt8)

/-- The reverse commitment to a program. -/
def suffixHash : List Command → Digest
  | [] => 0
  | command :: rest => streamHash sha256 (json command) (suffixHash rest)

/-- The forward hash of a program. -/
def forwardHash (commands : List Command) : Digest :=
  commands.foldl (fun hash command => commandHash sha256 hash (json command)) 0

def totalBytes (commands : List Command) : ℕ := (commands.map fun c => (json c).length).sum

/-- The records of a part of a program, after the commands that precede it and before those that
follow. -/
def prepared (done : List Command) : List Command → List Command → List PreparedRecord
  | [], _ => []
  | command :: commands, rest =>
    ⟨done.length, json command, forwardHash sha256 json (done ++ [command]),
      suffixHash sha256 json (command :: commands ++ rest)⟩ ::
      prepared (done ++ [command]) commands rest

/-- The manifest of a program. -/
structure Describes (manifest : Manifest) (program : List Command) : Prop where
  commands : manifest.commands = program.length
  inputBytes : manifest.inputBytes = totalBytes json program
  streamRoot : manifest.streamRoot = suffixHash sha256 json program
  programHash : manifest.programHash = forwardHash sha256 json program

/-- Only the last record is a seal. -/
def SealedLast (program : List Command) : Prop :=
  ∃ body proof, program = body ++ [.seal proof] ∧ ∀ c ∈ body, c.isSeal = false

/-- No other input has a reverse commitment of the program. -/
def Committed (program : List Command) : Prop :=
  ∀ command rest, command :: rest <:+ program → ∀ bytes next,
    streamHash sha256 bytes next = streamHash sha256 (json command) (suffixHash sha256 json rest) →
    bytes = json command ∧ next = suffixHash sha256 json rest

/-- The progress after a part of a program. -/
def progressAt (done rest : List Command) : Progress :=
  ⟨done.length, totalBytes json done, forwardHash sha256 json done, suffixHash sha256 json rest⟩

/-- The progress of a program of which nothing has been received. -/
def Progress.initial (manifest : Manifest) : Progress := ⟨0, 0, 0, manifest.streamRoot⟩

/-- Appends a chunk to the received records. -/
def accept (manifest : Manifest) (state : Progress × List PreparedRecord) (chunk : Chunk) :
    Except String (Progress × List PreparedRecord) := do
  let (progress, records) ← state.1.prepareAppend sha256 json manifest chunk
  return (progress, state.2 ++ records)

/-- Offers a chunk; a refused one changes nothing. -/
def receive (manifest : Manifest) (state : Progress × List PreparedRecord) (chunk : Chunk) :
    Progress × List PreparedRecord :=
  match accept sha256 json manifest state chunk with
  | .ok state => state
  | .error _ => state

/-- The chunks that a source sends for the parts of its program after the first commands. -/
def chunksOf (done : List Command) : List (List Command) → List Chunk
  | [] => []
  | part :: parts =>
    ⟨done.length, forwardHash sha256 json done, suffixHash sha256 json parts.flatten, part⟩ ::
      chunksOf (done ++ part) parts

/-- A part of a program within the limits of a chunk. -/
structure WithinChunk (part : List Command) : Prop where
  ne_nil : part ≠ []
  length_le : part.length ≤ chunkRecords
  totalBytes_le : totalBytes json part ≤ chunkBytes

end

variable {sha256 : List UInt8 → Digest} {json : Command → List UInt8}

@[simp] theorem forwardHash_concat (done : List Command) (c : Command) :
    forwardHash sha256 json (done ++ [c]) =
      commandHash sha256 (forwardHash sha256 json done) (json c) := by
  simp [forwardHash]

@[simp] theorem totalBytes_append (a b : List Command) :
    totalBytes json (a ++ b) = totalBytes json a + totalBytes json b := by
  simp [totalBytes]

theorem prepared_append (done a b rest : List Command) :
    prepared sha256 json done (a ++ b) rest =
      prepared sha256 json done a (b ++ rest) ++ prepared sha256 json (done ++ a) b rest := by
  induction a generalizing done with
  | nil => simp [prepared]
  | cons c a ih =>
    simp only [List.cons_append, prepared, ih, List.append_assoc, List.nil_append]

theorem checkedAdd_eq_ok {a b c : ℕ} {e : String} :
    checkedAdd a b e = .ok c ↔ a + b < u64Limit ∧ a + b = c := by
  unfold checkedAdd
  split_ifs with h
  · simp [h]
  · simp [h]

theorem encodeRecords_eq_ok {total : ℕ} {commands : List Command} {bytes : List (List UInt8)} :
    encodeRecords json total commands = .ok bytes ↔
      bytes = commands.map json ∧ (∀ c ∈ commands, (json c).length ≤ recordBytes) ∧
        (commands ≠ [] → total + totalBytes json commands ≤ chunkBytes) := by
  induction commands generalizing total bytes with
  | nil =>
    simp only [encodeRecords, Except.ok.injEq, List.map_nil, List.not_mem_nil, false_implies,
      implies_true, ne_eq, not_true_eq_false, and_true]
    exact eq_comm
  | cons c commands ih =>
    have hcons : totalBytes json (c :: commands) = (json c).length + totalBytes json commands := by
      simp [totalBytes]
    simp only [encodeRecords, encodeCommand, bind_eq_ok, require_eq_ok, pure_eq_ok, exists_and_left,
      exists_const, ih, List.map_cons, List.forall_mem_cons, hcons]
    constructor
    · rintro ⟨_, ⟨hc, rfl⟩, htotal, rest, ⟨rfl, hall, hsum⟩, rfl⟩
      refine ⟨rfl, ⟨hc, hall⟩, fun _ => ?_⟩
      by_cases hnil : commands = []
      · subst hnil
        exact htotal
      · have := hsum hnil
        omega
    · rintro ⟨rfl, ⟨hc, hall⟩, hsum⟩
      have := hsum (List.cons_ne_nil _ _)
      exact ⟨_, ⟨hc, rfl⟩, by omega, _, ⟨rfl, hall, fun _ => by omega⟩, rfl⟩

section

variable (sha256 : List UInt8 → Digest) (json : Command → List UInt8)

/-- The reverse commitment of a part whose rest has the commitment `next`. -/
def suffixOver (next : Digest) : List Command → Digest
  | [] => next
  | command :: commands => streamHash sha256 (json command) (suffixOver next commands)

/-- The reverse commitments at the commands of a part. -/
def suffixList (next : Digest) : List Command → List Digest
  | [] => []
  | command :: commands =>
    suffixOver sha256 json next (command :: commands) :: suffixList next commands

/-- The records of a part, after the commands that precede it. -/
def preparedOver (next : Digest) (done : List Command) : List Command → List PreparedRecord
  | [] => []
  | command :: commands =>
    ⟨done.length, json command, forwardHash sha256 json (done ++ [command]),
      suffixOver sha256 json next (command :: commands)⟩ ::
      preparedOver next (done ++ [command]) commands

/-- The progress after a part. -/
def progressOver (next : Digest) (done : List Command) : Progress :=
  ⟨done.length, totalBytes json done, forwardHash sha256 json done, next⟩

end

theorem suffixOver_append (next : Digest) (a b : List Command) :
    suffixOver sha256 json next (a ++ b) =
      suffixOver sha256 json (suffixOver sha256 json next b) a := by
  induction a with
  | nil => rfl
  | cons c a ih => rw [List.cons_append, suffixOver, ih, suffixOver]

theorem suffixOver_suffixHash (commands rest : List Command) :
    suffixOver sha256 json (suffixHash sha256 json rest) commands =
      suffixHash sha256 json (commands ++ rest) := by
  induction commands with
  | nil => rfl
  | cons c commands ih => rw [suffixOver, ih, List.cons_append, suffixHash]

theorem preparedOver_suffixHash (done commands rest : List Command) :
    preparedOver sha256 json (suffixHash sha256 json rest) done commands =
      prepared sha256 json done commands rest := by
  induction commands generalizing done with
  | nil => rfl
  | cons c commands ih => rw [preparedOver, ih, suffixOver_suffixHash, prepared]

theorem preparedOver_append (next : Digest) (done a b : List Command) :
    preparedOver sha256 json next done (a ++ b) =
      preparedOver sha256 json (suffixOver sha256 json next b) done a ++
        preparedOver sha256 json next (done ++ a) b := by
  induction a generalizing done with
  | nil => simp [preparedOver]
  | cons c a ih =>
    have hsuffix : suffixOver sha256 json next (c :: (a ++ b)) =
        suffixOver sha256 json (suffixOver sha256 json next b) (c :: a) :=
      suffixOver_append next (c :: a) b
    rw [List.cons_append, preparedOver, ih, hsuffix, preparedOver, List.cons_append,
      List.append_assoc, List.singleton_append]

theorem suffixes_map (next : Digest) (commands : List Command) :
    suffixes sha256 next (commands.map json) =
      (suffixList sha256 json next commands, suffixOver sha256 json next commands) := by
  induction commands with
  | nil => rfl
  | cons c commands ih => simp only [List.map_cons, suffixes, ih, suffixList, suffixOver]

/-- A chunk whose commitment is that of the rest of the program is a part of it. -/
theorem exists_rest {program : List Command} (hjson : Function.Injective json)
    (hcommitted : Committed sha256 json program)
    (hzero : ∀ bytes next, streamHash sha256 bytes next ≠ 0) {commands rest : List Command}
    {next : Digest} (hrest : rest <:+ program)
    (h : (suffixes sha256 next (commands.map json)).2 = suffixHash sha256 json rest) :
    ∃ tail, rest = commands ++ tail ∧ next = suffixHash sha256 json tail := by
  induction commands generalizing rest with
  | nil => exact ⟨rest, rfl, h⟩
  | cons c commands ih =>
    cases rest with
    | nil => exact absurd h (hzero _ _)
    | cons d rest =>
      obtain ⟨hbytes, hnext⟩ := hcommitted d rest hrest _ _ h
      obtain ⟨tail, rfl, htail⟩ := ih ((List.suffix_cons d rest).trans hrest) hnext
      refine ⟨tail, ?_, htail⟩
      rw [List.cons_append, hjson hbytes]

theorem append_eq_ok {p q : Prefix} {bytes : List UInt8} :
    p.append sha256 bytes = .ok q ↔ bytes.length ≤ recordBytes ∧ p.commands + 1 < u64Limit ∧
      p.inputBytes + bytes.length < u64Limit ∧
      q = ⟨p.commands + 1, p.inputBytes + bytes.length, commandHash sha256 p.hash bytes⟩ := by
  simp only [Prefix.append, bind_eq_ok, require_eq_ok, checkedAdd_eq_ok, pure_eq_ok,
    exists_and_left, exists_const]
  constructor
  · rintro ⟨hlen, _, ⟨hc, rfl⟩, _, ⟨hb, rfl⟩, rfl⟩
    exact ⟨hlen, hc, hb, rfl⟩
  · rintro ⟨hlen, hc, hb, rfl⟩
    exact ⟨hlen, _, ⟨hc, rfl⟩, _, ⟨hb, rfl⟩, rfl⟩

/-- The prefix of a part of a program. -/
def prefixAt (sha256 : List UInt8 → Digest) (json : Command → List UInt8) (done : List Command) :
    Prefix := ⟨done.length, totalBytes json done, forwardHash sha256 json done⟩

theorem prefixAt_concat (done : List Command) (c : Command) :
    prefixAt sha256 json (done ++ [c]) = ⟨done.length + 1, totalBytes json done + (json c).length,
      commandHash sha256 (forwardHash sha256 json done) (json c)⟩ := by
  simp [prefixAt, totalBytes]

/-- The input of `appendRecords` for a part of a program. -/
def zipped (sha256 : List UInt8 → Digest) (json : Command → List UInt8) (next : Digest)
    (commands : List Command) : List (Command × List UInt8 × Digest) :=
  commands.zip ((commands.map json).zip (suffixList sha256 json next commands))

/-- When one more record can be appended. -/
structure Appendable (json : Command → List UInt8) (manifest : Manifest) (done : List Command)
    (c : Command) : Prop where
  atEnd : c.isSeal = true → done.length + 1 = manifest.commands
  length_le : (json c).length ≤ recordBytes
  commands_lt : done.length + 1 < u64Limit
  inputBytes_lt : totalBytes json (done ++ [c]) < u64Limit

/-- What appending a part of a program yields, and when it succeeds. -/
theorem appendRecords_eq_ok {manifest : Manifest} {next : Digest} {done commands : List Command}
    {last : Prefix} {records : List PreparedRecord} :
    appendRecords sha256 manifest (prefixAt sha256 json done) (zipped sha256 json next commands) =
      .ok (last, records) ↔
    (∀ a c b, commands = a ++ c :: b → Appendable json manifest (done ++ a) c) ∧
      last = prefixAt sha256 json (done ++ commands) ∧
      records = preparedOver sha256 json next done commands := by
  induction commands generalizing done last records with
  | nil =>
    simp only [zipped, List.zip_nil_left, appendRecords, Except.ok.injEq, Prod.mk.injEq, preparedOver,
      List.append_nil, List.nil_eq_append_iff, reduceCtorEq, and_false, false_implies, implies_true,
      true_and]
    constructor
    · rintro ⟨rfl, rfl⟩
      exact ⟨rfl, rfl⟩
    · rintro ⟨rfl, rfl⟩
      exact ⟨rfl, rfl⟩
  | cons c commands ih =>
    have hzip : zipped sha256 json next (c :: commands) =
        (c, json c, suffixOver sha256 json next (c :: commands)) ::
          zipped sha256 json next commands := rfl
    have hnext : ∀ q : Prefix, q = ⟨(prefixAt sha256 json done).commands + 1,
        (prefixAt sha256 json done).inputBytes + (json c).length,
        commandHash sha256 (prefixAt sha256 json done).hash (json c)⟩ ↔
        q = prefixAt sha256 json (done ++ [c]) := by
      intro q
      rw [prefixAt_concat]
      rfl
    have hbytes : totalBytes json (done ++ [c]) =
        (prefixAt sha256 json done).inputBytes + (json c).length := by
      simp [prefixAt, totalBytes]
    have hall : (∀ a d b, c :: commands = a ++ d :: b → Appendable json manifest (done ++ a) d) ↔
        Appendable json manifest done c ∧
        ∀ a d b, commands = a ++ d :: b → Appendable json manifest (done ++ [c] ++ a) d := by
      constructor
      · intro h
        have hhead := h [] c commands rfl
        rw [List.append_nil] at hhead
        refine ⟨hhead, fun a d b hab => ?_⟩
        rw [List.append_assoc]
        exact h (c :: a) d b (by rw [hab]; rfl)
      · rintro ⟨hhead, htail⟩ a d b hab
        cases a with
        | nil =>
          cases hab
          rw [List.append_nil]
          exact hhead
        | cons e a =>
          cases hab
          have := htail a d b rfl
          rw [List.append_assoc] at this
          exact this
    rw [hzip, appendRecords, hall]
    simp only [bind_eq_ok, require_eq_ok, append_eq_ok, hnext, exists_and_left, exists_const,
      pure_eq_ok, Prod.exists, Prod.mk.injEq]
    constructor
    · rintro ⟨hseal, _, ⟨hlen, hc, hb, rfl⟩, l, r, hrun, rfl, rfl⟩
      obtain ⟨hrest, rfl, rfl⟩ := ih.mp hrun
      refine ⟨⟨⟨fun hs => ?_, hlen, hc, by rw [hbytes]; exact hb⟩, hrest⟩, by simp, ?_⟩
      · by_contra hne
        exact hseal ⟨hs, hne⟩
      · rw [preparedOver]
        rfl
    · rintro ⟨⟨⟨hseal, hlen, hc, hb⟩, hrest⟩, rfl, rfl⟩
      rw [hbytes] at hb
      refine ⟨fun hs => hs.2 (hseal hs.1), _, ⟨hlen, hc, hb, rfl⟩, _, _,
        ih.mpr ⟨hrest, rfl, rfl⟩, by simp, ?_⟩
      rw [preparedOver]
      rfl

theorem ite_check_eq_ok {c : Prop} [Decidable c] {x : Except String Unit} {α : Type} {a b : α} :
    (if c then (do x; pure a) else pure a) = (.ok b : Except String α) ↔
      (c → x = .ok ()) ∧ a = b := by
  split_ifs with h
  · simp only [bind_eq_ok, pure_eq_ok, exists_and_right, h, true_implies]
    constructor
    · rintro ⟨⟨u, hu⟩, rfl⟩
      exact ⟨hu, rfl⟩
    · rintro ⟨hu, rfl⟩
      exact ⟨⟨(), hu⟩, rfl⟩
  · simp [h, pure_eq_ok]

/-- When a chunk is accepted after a part of a program, and what it yields. -/
theorem prepareAppend_eq_ok {manifest : Manifest} {done commands : List Command} {start : ℕ}
    {previous remaining next : Digest} {p : Progress} {records : List PreparedRecord} :
    (progressOver sha256 json remaining done).prepareAppend sha256 json manifest
        ⟨start, previous, next, commands⟩ = .ok (p, records) ↔
      (commands ≠ [] ∧ commands.length ≤ chunkRecords ∧ (∀ c ∈ commands, (json c).length ≤ recordBytes) ∧
        totalBytes json commands ≤ chunkBytes) ∧
      (done.length = start ∧ forwardHash sha256 json done = previous ∧
        remaining = suffixOver sha256 json next commands) ∧
      (∀ a c b, commands = a ++ c :: b → Appendable json manifest (done ++ a) c) ∧
      (done.length + commands.length < u64Limit ∧
        done.length + commands.length ≤ manifest.commands ∧
        totalBytes json (done ++ commands) ≤ manifest.inputBytes) ∧
      (done.length + commands.length = manifest.commands → next = 0 ∧
        (progressOver sha256 json next (done ++ commands)).requireComplete manifest = .ok ()) ∧
      p = progressOver sha256 json next (done ++ commands) ∧
      records = preparedOver sha256 json next done commands := by
  unfold Progress.prepareAppend
  simp only [bind_eq_ok, require_eq_ok, encodeRecords_eq_ok, exists_and_left, exists_const,
    Prod.exists, checkedAdd_eq_ok, ite_check_eq_ok]
  constructor
  · rintro ⟨⟨hne, hcount⟩, _, ⟨rfl, hlen, htotal⟩, ⟨hstart, hprevious, hremaining⟩, _, ⟨hwidth, rfl⟩,
      ⟨hend, hnext⟩, last, written, happend, ⟨_, hinput⟩, hcomplete, hresult⟩
    rw [suffixes_map] at hremaining happend
    obtain ⟨hall, rfl, rfl⟩ := appendRecords_eq_ok.1 happend
    obtain ⟨rfl, rfl⟩ := Prod.mk.inj hresult
    rw [List.length_map] at hwidth hend hnext
    have hcommands : (prefixAt sha256 json (done ++ commands)).commands =
        done.length + commands.length := List.length_append
    rw [hcommands] at hcomplete
    have hbytes := htotal hne
    rw [Nat.zero_add] at hbytes
    refine ⟨⟨hne, hcount, hlen, hbytes⟩, ⟨hstart, hprevious, hremaining⟩, hall,
      ⟨hwidth, hend, hinput⟩, fun h => ⟨hnext h, ?_⟩, rfl, rfl⟩
    have hdone := hcomplete h
    rw [← hcommands] at hdone
    exact hdone
  · rintro ⟨⟨hne, hcount, hlen, hbytes⟩, ⟨hstart, hprevious, hremaining⟩, hall,
      ⟨hwidth, hend, hinput⟩, hcomplete, rfl, rfl⟩
    refine ⟨⟨hne, hcount⟩, _, ⟨rfl, hlen, fun _ => by omega⟩, ⟨hstart, hprevious, ?_⟩, _,
      ⟨?_, rfl⟩, ⟨?_, ?_⟩, prefixAt sha256 json (done ++ commands), _, ?_, ⟨?_, hinput⟩, ?_, rfl⟩
    · rw [suffixes_map]
      exact hremaining
    · rw [List.length_map]
      exact hwidth
    · rw [List.length_map]
      exact hend
    · rw [List.length_map]
      exact fun h => (hcomplete h).1
    · rw [suffixes_map]
      exact appendRecords_eq_ok.2 ⟨hall, rfl, rfl⟩
    · rw [prefixAt, List.length_append]
      exact hend
    · rw [prefixAt, List.length_append]
      intro h
      rw [← List.length_append]
      exact (hcomplete h).2

theorem accept_eq_ok {manifest : Manifest} {state state' : Progress × List PreparedRecord}
    {chunk : Chunk} : accept sha256 json manifest state chunk = .ok state' ↔
      ∃ records, state.1.prepareAppend sha256 json manifest chunk = .ok (state'.1, records) ∧
        state'.2 = state.2 ++ records := by
  obtain ⟨p, delivered⟩ := state'
  simp only [accept, bind_eq_ok, Prod.exists, pure_eq_ok, Prod.mk.injEq]
  constructor
  · rintro ⟨_, records, h, rfl, rfl⟩
    exact ⟨records, h, rfl⟩
  · rintro ⟨records, h, rfl⟩
    exact ⟨p, records, h, rfl, rfl⟩

theorem remaining_of_prepareAppend {p q : Progress} {manifest : Manifest} {chunk : Chunk}
    {records : List PreparedRecord}
    (h : p.prepareAppend sha256 json manifest chunk = .ok (q, records)) :
    p.remaining = (suffixes sha256 chunk.next (chunk.records.map json)).2 := by
  unfold Progress.prepareAppend at h
  simp only [bind_eq_ok, require_eq_ok, encodeRecords_eq_ok, exists_and_left, exists_const] at h
  obtain ⟨_, bytes, ⟨rfl, _⟩, ⟨_, _, hremaining⟩, _⟩ := h
  exact hremaining

/-- The records of a program of which a part has been received. -/
def received (sha256 : List UInt8 → Digest) (json : Command → List UInt8)
    (done rest : List Command) : Progress × List PreparedRecord :=
  (progressAt sha256 json done rest, prepared sha256 json [] done rest)

section

variable {manifest : Manifest} {program : List Command}

/-- One chunk, accepted or refused, keeps the received records a part of the program. -/
theorem receive_received (manifest : Manifest) (hjson : Function.Injective json)
    (hcommitted : Committed sha256 json program)
    (hzero : ∀ bytes next, streamHash sha256 bytes next ≠ 0) {done rest : List Command}
    (hprogram : program = done ++ rest) (chunk : Chunk) :
    ∃ done' rest', program = done' ++ rest' ∧
      receive sha256 json manifest (received sha256 json done rest) chunk =
        received sha256 json done' rest' := by
  unfold receive
  split
  case h_2 => exact ⟨done, rest, hprogram, rfl⟩
  case h_1 state haccept =>
    obtain ⟨records, hprepare, hrecords⟩ := accept_eq_ok.1 haccept
    obtain ⟨start, previous, next, commands⟩ := chunk
    have hremaining := remaining_of_prepareAppend hprepare
    have hsuffix : rest <:+ program := ⟨done, hprogram.symm⟩
    obtain ⟨tail, rfl, rfl⟩ := exists_rest hjson hcommitted hzero hsuffix hremaining.symm
    obtain ⟨_, _, _, _, _, hp, rfl⟩ := prepareAppend_eq_ok.1 hprepare
    refine ⟨done ++ commands, tail, by rw [hprogram, List.append_assoc], ?_⟩
    refine Prod.ext hp ?_
    rw [hrecords, preparedOver_suffixHash]
    exact (prepared_append [] done commands tail).symm

/-- Any chunks at all deliver a part of the program. -/
theorem foldl_receive (manifest : Manifest) (hjson : Function.Injective json)
    (hcommitted : Committed sha256 json program)
    (hzero : ∀ bytes next, streamHash sha256 bytes next ≠ 0) (chunks : List Chunk)
    {done rest : List Command} (hprogram : program = done ++ rest) :
    ∃ done' rest', program = done' ++ rest' ∧
      chunks.foldl (receive sha256 json manifest) (received sha256 json done rest) =
        received sha256 json done' rest' := by
  induction chunks generalizing done rest with
  | nil => exact ⟨done, rest, hprogram, rfl⟩
  | cons chunk chunks ih =>
    obtain ⟨done', rest', hprogram', hstep⟩ :=
      receive_received manifest hjson hcommitted hzero hprogram chunk
    rw [List.foldl_cons, hstep]
    exact ih hprogram'

theorem requireComplete_progressAt (hdescribes : Describes sha256 json manifest program) :
    (progressAt sha256 json program []).requireComplete manifest = .ok () := by
  unfold Progress.requireComplete
  rw [require_eq_ok]
  exact ⟨hdescribes.commands.symm, hdescribes.inputBytes.symm, hdescribes.programHash.symm, rfl⟩

/-- A seal is followed by nothing. -/
theorem SealedLast.eq_nil (h : SealedLast program) {a b : List Command} {c : Command}
    (hprogram : program = a ++ c :: b) (hseal : c.isSeal = true) : b = [] := by
  obtain ⟨body, proof, rfl, hbody⟩ := h
  rcases List.eq_nil_or_concat b with rfl | ⟨b', d, rfl⟩
  · rfl
  · rw [List.concat_eq_append, ← List.cons_append, ← List.append_assoc] at hprogram
    have hinit : body = a ++ c :: b' := (List.append_inj' hprogram rfl).1
    have hopen := hbody c (by rw [hinit]; simp)
    rw [hseal] at hopen
    cases hopen

theorem appendable_of_program (hdescribes : Describes sha256 json manifest program)
    (hsealed : SealedLast program) (hlen : ∀ c ∈ program, (json c).length ≤ recordBytes)
    {done b : List Command} {c : Command} (hprogram : program = done ++ c :: b) :
    Appendable json manifest done c := by
  have hcommands := manifest.commands_lt
  have hbytes := manifest.inputBytes_lt
  rw [hdescribes.commands, hprogram, List.length_append, List.length_cons] at hcommands
  have hsplit : program = (done ++ [c]) ++ b := by
    rw [hprogram, List.append_assoc]
    rfl
  rw [hdescribes.inputBytes, hsplit, totalBytes_append] at hbytes
  constructor
  · intro hseal
    rw [hdescribes.commands, hprogram, hsealed.eq_nil hprogram hseal, List.length_append]
    rfl
  · exact hlen c (by rw [hprogram]; simp)
  · omega
  · omega

/-- The source's chunk for the next part of a program is accepted. -/
theorem accept_part (hdescribes : Describes sha256 json manifest program)
    (hsealed : SealedLast program) (hlen : ∀ c ∈ program, (json c).length ≤ recordBytes)
    {done part tail : List Command} (hprogram : program = done ++ (part ++ tail))
    (hpart : WithinChunk json part) :
    accept sha256 json manifest (received sha256 json done (part ++ tail))
        ⟨done.length, forwardHash sha256 json done, suffixHash sha256 json tail, part⟩ =
      .ok (received sha256 json (done ++ part) tail) := by
  have hcommands := manifest.commands_lt
  have hcount : manifest.commands = done.length + part.length + tail.length := by
    rw [hdescribes.commands, hprogram, List.length_append, List.length_append, Nat.add_assoc]
  have hbytes : manifest.inputBytes = totalBytes json (done ++ part) + totalBytes json tail := by
    rw [hdescribes.inputBytes, hprogram, ← List.append_assoc, totalBytes_append _ tail]
  rw [accept_eq_ok]
  refine ⟨prepared sha256 json done part tail, ?_, prepared_append [] done part tail⟩
  refine prepareAppend_eq_ok.2 ⟨⟨hpart.ne_nil, hpart.length_le, ?_, hpart.totalBytes_le⟩,
    ⟨rfl, rfl, (suffixOver_suffixHash part tail).symm⟩, ?_, ⟨by omega, by omega, by omega⟩, ?_, rfl,
    (preparedOver_suffixHash done part tail).symm⟩
  · intro c hc
    exact hlen c (by rw [hprogram]; simp [hc])
  · intro a c b hab
    refine appendable_of_program hdescribes hsealed hlen (b := b ++ tail) ?_
    rw [hprogram, hab]
    simp
  · intro hend
    have htail : tail = [] := List.eq_nil_of_length_eq_zero (by omega)
    rw [htail, List.append_nil] at hprogram
    rw [htail, ← hprogram]
    exact ⟨rfl, requireComplete_progressAt hdescribes⟩

/-- The source's chunks for any parts of a program deliver it. -/
theorem foldlM_accept_chunksOf (hdescribes : Describes sha256 json manifest program)
    (hsealed : SealedLast program) (hlen : ∀ c ∈ program, (json c).length ≤ recordBytes)
    {parts : List (List Command)} {done : List Command} (hprogram : program = done ++ parts.flatten)
    (hparts : ∀ part ∈ parts, WithinChunk json part) :
    (chunksOf sha256 json done parts).foldlM (accept sha256 json manifest)
        (received sha256 json done parts.flatten) = .ok (received sha256 json program []) := by
  induction parts generalizing done with
  | nil =>
    rw [hprogram]
    simp [chunksOf, pure, Except.pure]
  | cons part parts ih =>
    rw [List.flatten_cons] at hprogram
    have hstep := accept_part hdescribes hsealed hlen hprogram (hparts part List.mem_cons_self)
    rw [chunksOf, List.foldlM_cons, List.flatten_cons, hstep, ok_bind]
    refine ih (by rw [hprogram, List.append_assoc]) fun other hother => ?_
    exact hparts other (List.mem_cons_of_mem part hother)

/-- Whatever chunks are offered, the accepted ones deliver the first records of the program in
order; the declared count is reached with the whole program; and every split of the program into
chunks is accepted. -/
theorem transfer_authenticated (hjson : Function.Injective json)
    (hlen : ∀ c ∈ program, (json c).length ≤ recordBytes)
    (hzero : ∀ bytes next, streamHash sha256 bytes next ≠ 0)
    (hcommitted : Committed sha256 json program) (hdescribes : Describes sha256 json manifest program)
    (hsealed : SealedLast program) :
    (∀ chunks : List Chunk, ∃ done rest, program = done ++ rest ∧
      chunks.foldl (receive sha256 json manifest) (Progress.initial manifest, []) =
        received sha256 json done rest ∧
      (done.length = manifest.commands → done = program ∧
        (progressAt sha256 json done rest).requireComplete manifest = .ok ())) ∧
    ∀ parts : List (List Command), parts.flatten = program →
      (∀ part ∈ parts, WithinChunk json part) →
      (chunksOf sha256 json [] parts).foldlM (accept sha256 json manifest)
        (Progress.initial manifest, []) = .ok (received sha256 json program []) := by
  have hinitial : (Progress.initial manifest, []) = received sha256 json [] program := by
    rw [Progress.initial, hdescribes.streamRoot]
    rfl
  rw [hinitial]
  constructor
  · intro chunks
    obtain ⟨done, rest, hprogram, hrun⟩ :=
      foldl_receive manifest hjson hcommitted hzero chunks (List.nil_append program).symm
    refine ⟨done, rest, hprogram, hrun, fun hend => ?_⟩
    have hrest : rest = [] := by
      have hcount := hdescribes.commands
      rw [hprogram, List.length_append] at hcount
      exact List.eq_nil_of_length_eq_zero (by omega)
    rw [hrest, List.append_nil] at hprogram
    rw [hrest, ← hprogram]
    exact ⟨rfl, requireComplete_progressAt hdescribes⟩
  · rintro parts rfl hparts
    exact foldlM_accept_chunksOf hdescribes hsealed hlen (List.nil_append _).symm hparts

/-- A streamed record and the next commitment are read off the hashed bytes. -/
theorem streamInput_inj {tag bytes bytes' : List UInt8} {next next' : Digest}
    (h : tag ++ bigEndian 8 bytes.length ++ bytes ++ digestBytes next =
      tag ++ bigEndian 8 bytes'.length ++ bytes' ++ digestBytes next') :
    bytes = bytes' ∧ next = next' := by
  obtain ⟨hinit, hnext⟩ := List.append_inj' h (by simp)
  have hlength : bytes.length = bytes'.length := by
    have := congrArg List.length hinit
    simpa using this
  exact ⟨(List.append_inj' hinit hlength).2, digestBytes_injective hnext⟩

deriving instance Countable for ZfcAxiom
deriving instance Countable for Command

/-- An injective encoding that gives two records their own bytes. -/
theorem exists_json {α : Type} [Countable α] (a b : α) (hab : a ≠ b) {x y : List UInt8} (hxy : x ≠ y)
    (hx : ∃ z ∈ x, z ≠ 0) (hy : ∃ z ∈ y, z ≠ 0) :
    ∃ json : α → List UInt8, Function.Injective json ∧ json a = x ∧ json b = y := by
  classical
  obtain ⟨number, hnumber⟩ := exists_injective_nat α
  have hother : ∀ z : List UInt8, (∃ d ∈ z, d ≠ 0) → ∀ n, z ≠ List.replicate n 0 := by
    rintro z ⟨d, hd, hne⟩ n rfl
    exact hne (List.eq_of_mem_replicate hd)
  refine ⟨fun c => if c = a then x else if c = b then y else List.replicate (number c) 0,
    fun c d hcd => ?_, by simp, by simp [hab.symm]⟩
  dsimp only at hcd
  split_ifs at hcd with hc hd hd hc' hd hd hd hd
  · rw [hc, hd]
  · exact absurd hcd hxy
  · exact absurd hcd (hother x hx _)
  · exact absurd hcd.symm hxy
  · rw [hc', hd]
  · exact absurd hcd (hother y hy _)
  · exact absurd hcd.symm (hother x hx _)
  · exact absurd hcd.symm (hother y hy _)
  · exact hnumber (by simpa using congrArg List.length hcd)

set_option maxRecDepth 10000 in
/-- Two records, one chunk. -/
theorem transfer_authenticated_reflexivity :
    ∃ (sha256 : List UInt8 → Digest) (json : Command → List UInt8) (manifest : Manifest),
      json (.reflexivity 0) = asciiBytes "\x7b\"op\":\"reflexivity\",\"variable\":0\x7d" ∧
      json (.seal 0) = asciiBytes "\x7b\"op\":\"seal\",\"proof\":0\x7d" ∧
      Describes sha256 json manifest [.reflexivity 0, .seal 0] ∧
      (chunksOf sha256 json [] [[.reflexivity 0, .seal 0]]).foldlM (accept sha256 json manifest)
        (Progress.initial manifest, []) =
          .ok (received sha256 json [.reflexivity 0, .seal 0] []) := by
  obtain ⟨json, hjson, hfirst, hsecond⟩ := exists_json (Command.reflexivity 0) (.seal 0) (by decide)
    (x := asciiBytes "\x7b\"op\":\"reflexivity\",\"variable\":0\x7d")
    (y := asciiBytes "\x7b\"op\":\"seal\",\"proof\":0\x7d") (by decide)
    ⟨123, by decide, by decide⟩ ⟨123, by decide, by decide⟩
  let input := fun (bytes : List UInt8) (next : Digest) =>
    asciiBytes "naome:program-stream" ++ [0] ++ bigEndian 8 bytes.length ++ bytes ++
      digestBytes next
  let sha256 : List UInt8 → Digest := fun b =>
    if b = input (json (.seal 0)) 0 then 1
    else if b = input (json (.reflexivity 0)) 1 then 2 else 3
  have hvalue : ∀ bytes next, streamHash sha256 bytes next =
      if input bytes next = input (json (.seal 0)) 0 then 1
      else if input bytes next = input (json (.reflexivity 0)) 1 then 2 else 3 := fun _ _ => rfl
  have hseal : streamHash sha256 (json (.seal 0)) 0 = 1 := if_pos rfl
  have hne : input (json (.reflexivity 0)) 1 ≠ input (json (.seal 0)) 0 := by
    intro h
    have := hjson (streamInput_inj h).1
    cases this
  have hrefl : streamHash sha256 (json (.reflexivity 0)) 1 = 2 := by
    rw [hvalue, if_neg hne, if_pos rfl]
  have hzero : ∀ bytes next, streamHash sha256 bytes next ≠ 0 := by
    intro bytes next
    rw [hvalue]
    split_ifs
    · decide
    · decide
    · decide
  have hcommitted : Committed sha256 json [.reflexivity 0, .seal 0] := by
    intro command rest hsuffix bytes next h
    rcases List.suffix_cons_iff.mp hsuffix with heq | hsuffix
    · obtain ⟨rfl, rfl⟩ := List.cons.inj heq
      simp only [suffixHash] at h ⊢
      rw [hseal, hrefl, hvalue] at h
      rw [hseal]
      split_ifs at h with h₁ h₂
      · exact absurd h (by decide)
      · exact streamInput_inj h₂
      · exact absurd h (by decide)
    · rcases List.suffix_cons_iff.mp hsuffix with heq | hsuffix
      · obtain ⟨rfl, rfl⟩ := List.cons.inj heq
        simp only [suffixHash] at h ⊢
        rw [hseal, hvalue] at h
        split_ifs at h with h₁ h₂
        · exact streamInput_inj h₁
        · exact absurd h (by decide)
        · exact absurd h (by decide)
      · simp at hsuffix
  have hbytes : totalBytes json [.reflexivity 0, .seal 0] ≤ chunkBytes := by
    simp only [totalBytes, List.map_cons, List.map_nil, hfirst, hsecond]
    decide
  let manifest : Manifest := ⟨2, totalBytes json [.reflexivity 0, .seal 0],
    forwardHash sha256 json [.reflexivity 0, .seal 0],
    suffixHash sha256 json [.reflexivity 0, .seal 0], 0, 0, by decide, hbytes.trans_lt (by decide)⟩
  have hdescribes : Describes sha256 json manifest [.reflexivity 0, .seal 0] := ⟨rfl, rfl, rfl, rfl⟩
  have hlen : ∀ c ∈ [Command.reflexivity 0, .seal 0], (json c).length ≤ recordBytes := by
    simp only [List.forall_mem_cons, hfirst, hsecond]
    exact ⟨by decide, by decide, by simp⟩
  have hsealed : SealedLast [.reflexivity 0, .seal 0] := ⟨[.reflexivity 0], 0, rfl, by decide⟩
  have hpart : WithinChunk json [.reflexivity 0, .seal 0] := ⟨by decide, by decide, hbytes⟩
  refine ⟨sha256, json, manifest, hfirst, hsecond, hdescribes, ?_⟩
  refine (transfer_authenticated hjson hlen hzero hcommitted hdescribes hsealed).2 _ rfl ?_
  intro part hpart'
  rw [List.mem_singleton.mp hpart']
  exact hpart

end

end Naome.Program
