import Naome.ProgramStaging
import Naome.ArtifactHistory

/-!
# Staged input is reopened and relayed

Whatever other nodes send, the staged rows of a program are the records of some commands above
some commitment. Such rows pass the validation of a start, and any other store of the same
manifest accepts the chunks that are read from them.
-/
namespace Naome.Program
open Outcome

variable {sha256 : List UInt8 → Digest} {serde : Serialization} {m : Manifest}

theorem ordinal_eq_ok {value u : ℕ} : ordinal value = .ok u ↔ value < i64Limit ∧ value = u := by
  simp only [ordinal, bind_eq_ok, require_eq_ok, pure_eq_ok, exists_const]

theorem checked_eq_ok {α : Type} {x : Except String α} {a : α} : checked x = .ok a ↔ x = .ok a :=
  mapError_eq_ok

theorem Serialization.RoundTrip.json_injective (h : serde.RoundTrip) :
    Function.Injective serde.json := by
  intro c d hcd
  have hc := h.parse_json c
  rw [hcd, h.parse_json d] at hc
  exact (Except.ok.inj hc).symm

theorem decodeCommand_json (h : serde.RoundTrip) {c : Command}
    (hlength : (serde.json c).length ≤ recordBytes) :
    decodeCommand serde (serde.json c) = .ok c := by
  unfold decodeCommand encodeCommand
  simp only [bind_eq_ok, require_eq_ok, pure_eq_ok, exists_const]
  exact ⟨hlength, c, h.parse_json c, serde.json c, ⟨hlength, rfl⟩, rfl, rfl⟩

theorem manifestBytes_eq_ok {bytes : List UInt8} :
    manifestBytes serde m = .ok bytes ↔ (m.commands < i64Limit ∧ m.inputBytes < i64Limit) ∧
      m.canonicalBytes serde = .ok bytes := by
  simp only [manifestBytes, bind_eq_ok, ordinal_eq_ok, checked_eq_ok]
  constructor
  · rintro ⟨_, ⟨hc, -⟩, _, ⟨hb, -⟩, h⟩
    exact ⟨⟨hc, hb⟩, h⟩
  · rintro ⟨⟨hc, hb⟩, h⟩
    exact ⟨_, ⟨hc, rfl⟩, _, ⟨hb, rfl⟩, h⟩

theorem canonicalBytes_eq_ok {bytes : List UInt8} :
    m.canonicalBytes serde = .ok bytes ↔ ¬ (m.commands = 0 ∨ m.inputBytes = 0) ∧
      (serde.manifestJson m).length ≤ manifestLimit ∧ serde.manifestJson m = bytes := by
  simp only [Manifest.canonicalBytes, bind_eq_ok, require_eq_ok, pure_eq_ok, exists_const]

theorem decodeManifest_manifestBytes (h : serde.RoundTrip) {bytes : List UInt8}
    (hbytes : manifestBytes serde m = .ok bytes) : decodeManifest serde bytes = .ok m := by
  obtain ⟨⟨hcommands, hinput⟩, hcanonical⟩ := manifestBytes_eq_ok.1 hbytes
  obtain ⟨-, hlength, rfl⟩ := canonicalBytes_eq_ok.1 hcanonical
  have hdecode : Manifest.fromCanonicalBytes serde (serde.manifestJson m) = .ok m := by
    unfold Manifest.fromCanonicalBytes
    simp only [bind_eq_ok, require_eq_ok, pure_eq_ok, exists_const]
    exact ⟨hlength, m, h.parseManifest_json m, _, hcanonical, rfl, rfl⟩
  unfold decodeManifest
  simp only [bind_eq_ok, checked_eq_ok, ordinal_eq_ok, pure_eq_ok]
  exact ⟨m, hdecode, _, ⟨hcommands, rfl⟩, _, ⟨hinput, rfl⟩, rfl⟩

theorem manifestBytes_injective (h : serde.RoundTrip) {m' : Manifest} {bytes : List UInt8}
    (hm : manifestBytes serde m = .ok bytes) (hm' : manifestBytes serde m' = .ok bytes) : m = m' := by
  have heq := decodeManifest_manifestBytes h hm
  rw [decodeManifest_manifestBytes h hm'] at heq
  exact (Except.ok.inj heq).symm

section Rows

variable (sha256) (serde)

/-- Commands that a store has accepted for a manifest. -/
structure Acceptable (m : Manifest) (done : List Command) : Prop where
  appendable : ∀ a c b, done = a ++ c :: b → Appendable serde.json m a c
  nonempty : ∀ c ∈ done, serde.json c ≠ []
  commands_le : done.length ≤ m.commands
  inputBytes_le : totalBytes serde.json done ≤ m.inputBytes

/-- The row and the input of a program are those of some commands above a commitment. -/
structure Received (m : Manifest) (done : List Command) (row : ProgramRow)
    (input : List PreparedRecord) : Prop where
  manifest : manifestBytes serde m = .ok row.manifest
  progress : (⟨row.received, row.inputBytes, row.hash, row.remaining⟩ : Progress) =
    progressOver sha256 serde.json row.remaining done
  root : m.streamRoot = suffixOver sha256 serde.json row.remaining done
  input : input = preparedOver sha256 serde.json row.remaining [] done
  acceptable : Acceptable serde m done
  complete : done.length = m.commands →
    (progressOver sha256 serde.json row.remaining done).requireComplete m = .ok ()

end Rows

theorem Acceptable.length_le {done : List Command} (h : Acceptable serde m done) {c : Command}
    (hc : c ∈ done) : (serde.json c).length ≤ recordBytes := by
  obtain ⟨a, b, rfl⟩ := List.append_of_mem hc
  exact (h.appendable a c b rfl).length_le

theorem position_preparedOver {next : Digest} {done commands : List Command} {r : PreparedRecord}
    (h : r ∈ preparedOver sha256 serde.json next done commands) :
    done.length ≤ r.position ∧ r.position < done.length + commands.length := by
  induction commands generalizing done with
  | nil => cases h
  | cons c commands ih =>
    rw [preparedOver] at h
    rcases List.mem_cons.mp h with rfl | h
    · exact ⟨le_rfl, by simp⟩
    · have := ih h
      rw [List.length_append, List.length_singleton] at this
      rw [List.length_cons]
      omega

theorem pairwise_preparedOver (next : Digest) (done commands : List Command) :
    (preparedOver sha256 serde.json next done commands).Pairwise
      fun a b => a.position < b.position := by
  induction commands generalizing done with
  | nil => exact List.Pairwise.nil
  | cons c commands ih =>
    refine List.Pairwise.cons ?_ (ih (done ++ [c]))
    intro r hr
    have := (position_preparedOver hr).1
    rw [List.length_append, List.length_singleton] at this
    exact this

theorem length_preparedOver (next : Digest) (done commands : List Command) :
    (preparedOver sha256 serde.json next done commands).length = commands.length := by
  induction commands generalizing done with
  | nil => rfl
  | cons c commands ih => rw [preparedOver, List.length_cons, ih, List.length_cons]

theorem map_bytes_preparedOver (next : Digest) (done commands : List Command) :
    (preparedOver sha256 serde.json next done commands).map PreparedRecord.bytes =
      commands.map serde.json := by
  induction commands generalizing done with
  | nil => rfl
  | cons c commands ih => rw [preparedOver, List.map_cons, ih, List.map_cons]

/-- Commands after those that a store holds keep its rows those of acceptable commands. -/
theorem Received.append {row : ProgramRow} {done commands : List Command}
    {input : List PreparedRecord} {next : Digest} (h : Received sha256 serde m done row input)
    (hall : ∀ a c b, commands = a ++ c :: b → Appendable serde.json m (done ++ a) c)
    (hnonempty : ∀ c ∈ commands, serde.json c ≠ [])
    (hcommands : done.length + commands.length ≤ m.commands)
    (hinput : totalBytes serde.json (done ++ commands) ≤ m.inputBytes)
    (hremaining : row.remaining = suffixOver sha256 serde.json next commands)
    (hcomplete : done.length + commands.length = m.commands →
      (progressOver sha256 serde.json next (done ++ commands)).requireComplete m = .ok ()) :
    Received sha256 serde m (done ++ commands)
      ⟨row.manifest, (done ++ commands).length, totalBytes serde.json (done ++ commands),
        forwardHash sha256 serde.json (done ++ commands), next⟩
      (input ++ preparedOver sha256 serde.json next done commands) := by
  constructor
  · exact h.manifest
  · rfl
  · rw [suffixOver_append, ← hremaining]
    exact h.root
  · rw [h.input, preparedOver_append, hremaining]
    rfl
  · constructor
    · intro a c b hab
      rcases List.append_eq_append_iff.mp hab with ⟨a', rfl, hrest⟩ | ⟨b', hdone, hrest⟩
      · exact hall a' c b hrest
      · cases b' with
        | nil =>
          rw [List.append_nil] at hdone
          have := hall [] c b (by simpa using hrest.symm)
          rwa [List.append_nil, hdone] at this
        | cons d b' =>
          cases hrest
          exact h.acceptable.appendable a c b' hdone
    · intro c hc
      rcases List.mem_append.mp hc with hc | hc
      · exact h.acceptable.nonempty c hc
      · exact hnonempty c hc
    · rw [List.length_append]
      exact hcommands
    · exact hinput
  · rw [List.length_append]
    exact hcomplete

namespace Staging

/-- The input rows of a program in the order in which they were inserted. -/
def inputOf (s : Staging) (id : ArtifactId) : List PreparedRecord :=
  (s.input.filter fun r => decide (r.1 = id)).map Prod.snd

variable (sha256) (serde) in
/-- Every program has the rows of some commands, and no program has no rows. -/
structure Valid (s : Staging) : Prop where
  received : ∀ id row, s.programs[id]? = some row → ∃ m done, m.artifactId sha256 = id ∧
    Received sha256 serde m done row (s.inputOf id)
  missing : ∀ id, s.programs[id]? = none → s.inputOf id = []

theorem valid_empty : Valid sha256 serde .empty where
  received id row h := by cases h
  missing id _ := rfl

variable {s s' : Staging}

variable (sha256) (serde) in
/-- The store holds a row for the manifest, with the input of some commands. -/
structure Holds (s : Staging) (m : Manifest) (row : ProgramRow) (done : List Command) : Prop where
  stored : s.programs[m.artifactId sha256]? = some row
  received : Received sha256 serde m done row (s.inputOf (m.artifactId sha256))

/-- The progress of a manifest is that of its row, whose commands are those of the manifest. -/
theorem Valid.progress_eq_ok (hserde : serde.RoundTrip) (h : s.Valid sha256 serde) {p : Progress}
    (hp : s.progress sha256 serde m = .ok p) :
    ∃ row done, s.Holds sha256 serde m row done ∧
      p = progressOver sha256 serde.json row.remaining done := by
  unfold progress at hp
  cases hrow : s.programs[m.artifactId sha256]? with
  | none =>
    rw [hrow] at hp
    cases hp
  | some row =>
    rw [hrow] at hp
    simp only [bind_eq_ok, require_eq_ok, pure_eq_ok, exists_const] at hp
    obtain ⟨bytes, hbytes, rfl, -, rfl⟩ := hp
    obtain ⟨m', done, -, hreceived⟩ := h.received _ row hrow
    cases manifestBytes_injective hserde hreceived.manifest hbytes
    exact ⟨row, done, ⟨hrow, hreceived⟩, hreceived.progress⟩

variable {row : ProgramRow} {done : List Command}

theorem Holds.progress_eq (h : s.Holds sha256 serde m row done) :
    s.progress sha256 serde m = .ok (progressOver sha256 serde.json row.remaining done) := by
  have hprogress := h.received.progress
  have hreceived : row.received = done.length := congrArg Progress.commands hprogress
  have hinput : row.inputBytes = totalBytes serde.json done := congrArg Progress.inputBytes hprogress
  have hcommands := h.received.acceptable.commands_le
  have hbytes := h.received.acceptable.inputBytes_le
  unfold progress
  rw [h.stored]
  simp only [bind_eq_ok, require_eq_ok, pure_eq_ok, exists_const]
  exact ⟨row.manifest, h.received.manifest, rfl, by omega, hprogress⟩

theorem Holds.rows_eq (h : s.Holds sha256 serde m row done) :
    s.rows (m.artifactId sha256) = preparedOver sha256 serde.json row.remaining [] done := by
  have hinput := h.received.input
  have hsorted : (s.inputOf (m.artifactId sha256)).Pairwise
      fun a b => decide (a.position ≤ b.position) = true := by
    rw [hinput]
    exact (pairwise_preparedOver _ [] done).imp fun hlt => decide_eq_true hlt.le
  exact (List.mergeSort_of_pairwise hsorted).trans hinput

/-- A manifest that has been announced is within the row addresses. -/
theorem Holds.commands_lt (h : s.Holds sha256 serde m row done) : done.length < i64Limit := by
  obtain ⟨⟨hlt, -⟩, -⟩ := manifestBytes_eq_ok.1 h.received.manifest
  exact h.received.acceptable.commands_le.trans_lt hlt

theorem getElem?_insert_self {row : ProgramRow} (programs : DigestMap ProgramRow) (id : Digest) :
    (programs.insert id row)[id]? = some row := Std.TreeMap.getElem?_insert_self

theorem getElem?_insert_ne {row : ProgramRow} (programs : DigestMap ProgramRow) {id id' : Digest}
    (h : id ≠ id') : (programs.insert id row)[id']? = programs[id']? := by
  rw [Std.TreeMap.getElem?_insert, if_neg]
  exact fun heq => h (Std.LawfulEqCmp.eq_of_compare heq)

/-- The row of a program that was announced and of which nothing has arrived. -/
def announced (m : Manifest) (bytes : List UInt8) : ProgramRow := ⟨bytes, 0, 0, 0, m.streamRoot⟩

theorem received_announced {bytes : List UInt8} (hbytes : manifestBytes serde m = .ok bytes) :
    Received sha256 serde m [] (announced m bytes) [] := by
  obtain ⟨-, hcanonical⟩ := manifestBytes_eq_ok.1 hbytes
  obtain ⟨hpositive, -⟩ := canonicalBytes_eq_ok.1 hcanonical
  constructor
  · exact hbytes
  · rfl
  · rfl
  · rfl
  · constructor
    · intro a c b hab
      simp at hab
    · intro c hc
      cases hc
    · exact Nat.zero_le _
    · exact Nat.zero_le _
  · intro hzero
    exact absurd (Or.inl hzero.symm) hpositive

theorem Valid.startProgram (h : s.Valid sha256 serde) {p : Progress}
    (hstart : s.startProgram sha256 serde m = .ok (p, s')) : s'.Valid sha256 serde := by
  simp only [Staging.startProgram, bind_eq_ok, pure_eq_ok, Prod.mk.injEq] at hstart
  obtain ⟨bytes, hbytes, value, -, rfl, rfl⟩ := hstart
  unfold insertProgram
  split_ifs
  · exact h
  constructor
  · intro id row hrow
    rcases ArtifactState.getElem?_insertIfNew_cases hrow with hold | ⟨rfl, rfl⟩
    · exact h.received id row hold
    · by_cases hnew : s.programs[m.artifactId sha256]? = none
      · refine ⟨m, [], rfl, ?_⟩
        have hinput : s.inputOf (m.artifactId sha256) = [] := h.missing _ hnew
        change Received sha256 serde m [] _ (s.inputOf _)
        rw [hinput]
        exact received_announced hbytes
      · obtain ⟨old, hold⟩ := Option.ne_none_iff_exists'.mp hnew
        have hkept := ArtifactState.getElem?_insertIfNew_of_some (k := m.artifactId sha256)
          (v := announced m bytes) hold
        cases hkept.symm.trans hrow
        exact h.received _ _ hold
  · intro id hnone
    apply h.missing
    cases hold : s.programs[id]? with
    | none => rfl
    | some row =>
      rw [ArtifactState.getElem?_insertIfNew_of_some hold] at hnone
      cases hnone

theorem foldlM_insertInput {id : ArtifactId} {records : List PreparedRecord}
    (h : records.foldlM (insertInput id) s = .ok s') :
    s' = { s with input := s.input ++ records.map fun r => (id, r) } ∧
      ∀ r ∈ records, r.bytes ≠ [] := by
  induction records generalizing s with
  | nil =>
    cases pure_eq_ok.mp h
    simp
  | cons r records ih =>
    rw [List.foldlM_cons] at h
    obtain ⟨s₁, hs₁, h⟩ := bind_eq_ok.mp h
    simp only [insertInput, bind_eq_ok, ordinal_eq_ok, require_eq_ok, pure_eq_ok, exists_const] at hs₁
    obtain ⟨_, -, ⟨-, hbytes, -⟩, rfl⟩ := hs₁
    obtain ⟨rfl, hrest⟩ := ih h
    refine ⟨by simp, ?_⟩
    intro r' hr'
    rcases List.mem_cons.mp hr' with rfl | hr'
    · exact hbytes
    · exact hrest r' hr'

theorem inputOf_append_self (s : Staging) (programs : DigestMap ProgramRow) (id : ArtifactId)
    (records : List PreparedRecord) :
    inputOf ⟨programs, s.input ++ records.map fun r => (id, r)⟩ id = s.inputOf id ++ records := by
  simp [inputOf, List.filter_append, List.filter_map, Function.comp_def]

theorem inputOf_append_ne (s : Staging) (programs : DigestMap ProgramRow) {id id' : ArtifactId}
    (hne : id ≠ id') (records : List PreparedRecord) :
    inputOf ⟨programs, s.input ++ records.map fun r => (id, r)⟩ id' = s.inputOf id' := by
  simp [inputOf, List.filter_append, List.filter_map, Function.comp_def, hne]

theorem Valid.updated (h : s.Valid sha256 serde) {row : ProgramRow} {done : List Command}
    {records : List PreparedRecord} (hreceived : Received sha256 serde m done row
      (s.inputOf (m.artifactId sha256) ++ records)) :
    Valid sha256 serde ⟨s.programs.insert (m.artifactId sha256) row,
      s.input ++ records.map fun r => (m.artifactId sha256, r)⟩ := by
  constructor
  · intro id row' hrow'
    by_cases hid : m.artifactId sha256 = id
    · subst hid
      rw [getElem?_insert_self] at hrow'
      cases hrow'
      refine ⟨m, done, rfl, ?_⟩
      rw [inputOf_append_self]
      exact hreceived
    · rw [getElem?_insert_ne _ hid] at hrow'
      rw [inputOf_append_ne s _ hid]
      exact h.received id row' hrow'
  · intro id hnone
    by_cases hid : m.artifactId sha256 = id
    · subst hid
      rw [getElem?_insert_self] at hnone
      cases hnone
    · rw [getElem?_insert_ne _ hid] at hnone
      rw [inputOf_append_ne s _ hid]
      exact h.missing id hnone

theorem Valid.appendProgram (hserde : serde.RoundTrip) (h : s.Valid sha256 serde) {chunk : Chunk}
    {p : Progress} (happend : s.appendProgram sha256 serde m chunk = .ok (p, s')) :
    s'.Valid sha256 serde := by
  simp only [Staging.appendProgram, bind_eq_ok, checked_eq_ok, pure_eq_ok, Prod.exists,
    Prod.mk.injEq] at happend
  obtain ⟨p₀, hp₀, value, records, hprepare, s₁, hs₁, _, -, _, -, rfl, rfl⟩ := happend
  obtain ⟨row, done, ⟨hrow, hreceived⟩, rfl⟩ := h.progress_eq_ok hserde hp₀
  obtain ⟨start, previous, next, commands⟩ := chunk
  obtain ⟨-, ⟨-, -, hremaining⟩, hall, ⟨-, hcommands, hinput⟩, hcomplete, rfl, rfl⟩ :=
    prepareAppend_eq_ok.mp hprepare
  obtain ⟨rfl, hbytes⟩ := foldlM_insertInput hs₁
  have hnonempty : ∀ c ∈ commands, serde.json c ≠ [] := by
    intro c hc
    have hmem := List.mem_map_of_mem (f := serde.json) hc
    rw [← map_bytes_preparedOver next done commands] at hmem
    obtain ⟨r, hr, heq⟩ := List.mem_map.mp hmem
    rw [← heq]
    exact hbytes r hr
  have hnew := hreceived.append hall hnonempty hcommands hinput hremaining
    fun hend => (hcomplete hend).2
  unfold updateProgress
  simp only [hrow]
  exact h.updated hnew

theorem observe_preparedOver (hserde : serde.RoundTrip) {next : Digest} {done commands : List Command}
    (hall : ∀ a c b, commands = a ++ c :: b → Appendable serde.json m (done ++ a) c) :
    observe sha256 serde (prefixAt sha256 serde.json done)
      (preparedOver sha256 serde.json next done commands) =
        .ok (prefixAt sha256 serde.json (done ++ commands)) := by
  induction commands generalizing done with
  | nil =>
    rw [List.append_nil]
    rfl
  | cons c commands ih =>
    have hc := hall [] c commands rfl
    rw [List.append_nil] at hc
    have hrest : ∀ a d b, commands = a ++ d :: b → Appendable serde.json m (done ++ [c] ++ a) d := by
      intro a d b hab
      rw [List.append_assoc]
      exact hall (c :: a) d b (by rw [hab]; rfl)
    have happend : (prefixAt sha256 serde.json done).append sha256 (serde.json c) =
        .ok (prefixAt sha256 serde.json (done ++ [c])) := by
      have hbytes := hc.inputBytes_lt
      rw [totalBytes_append, show totalBytes serde.json [c] = (serde.json c).length by
        simp [totalBytes]] at hbytes
      rw [append_eq_ok, prefixAt_concat]
      exact ⟨hc.length_le, hc.commands_lt, hbytes, rfl⟩
    rw [preparedOver, observe]
    simp only [bind_eq_ok, require_eq_ok, checked_eq_ok, exists_const]
    refine ⟨⟨rfl, hc.length_le⟩, c, decodeCommand_json hserde hc.length_le, _, happend, rfl, ?_⟩
    rw [ih hrest, List.append_assoc, List.singleton_append]

theorem unwind_append (suffix : Digest) (a b : List PreparedRecord) :
    unwind sha256 suffix (a ++ b) = unwind sha256 suffix a >>= fun suffix => unwind sha256 suffix b := by
  induction a generalizing suffix with
  | nil => rfl
  | cons r a ih =>
    simp only [List.cons_append, unwind, ih, bind_assoc]

theorem unwind_preparedOver (next : Digest) (done commands : List Command) :
    unwind sha256 next (preparedOver sha256 serde.json next done commands).reverse =
      .ok (suffixOver sha256 serde.json next commands) := by
  induction commands generalizing done with
  | nil => rfl
  | cons c commands ih =>
    rw [preparedOver, List.reverse_cons, unwind_append, ih, ok_bind]
    simp [unwind, suffixOver, require]

/-- Whatever was sent, the next start accepts the staged rows. -/
theorem Valid.validateStaging (hserde : serde.RoundTrip) (h : s.Valid sha256 serde) :
    s.validateStaging sha256 serde = .ok () := by
  apply forM_eq_ok.mpr
  rintro ⟨id, row⟩ hmem
  have hrow := Std.TreeMap.mem_toList_iff_getElem?_eq_some.mp hmem
  obtain ⟨m, done, rfl, hreceived⟩ := h.received id row hrow
  have hholds : s.Holds sha256 serde m row done := ⟨hrow, hreceived⟩
  have hprogress := hholds.progress_eq
  have hrows := hholds.rows_eq
  have hobserve : observe sha256 serde (prefixAt sha256 serde.json [])
      (preparedOver sha256 serde.json row.remaining [] done) =
        .ok (prefixAt sha256 serde.json ([] ++ done)) :=
    observe_preparedOver hserde hreceived.acceptable.appendable
  change observe sha256 serde {} _ = .ok (prefixAt sha256 serde.json done) at hobserve
  have hunwind : unwind sha256 row.remaining
      (preparedOver sha256 serde.json row.remaining [] done).reverse =
        .ok (suffixOver sha256 serde.json row.remaining done) := unwind_preparedOver _ _ _
  have hroot : suffixOver sha256 serde.json row.remaining done = m.streamRoot := hreceived.root.symm
  unfold validateProgram
  simp only [decodeManifest_manifestBytes hserde hreceived.manifest, hprogress, hrows, ok_bind,
    hobserve, hunwind, progressOver, hroot, prefixAt, require, if_true]
  split_ifs with hend
  · exact checked_eq_ok.2 (hreceived.complete hend)
  · rfl

end Staging

/-- A reader that has taken a part after the commands before it. -/
def readerAt (sha256 : List UInt8 → Digest) (serde : Serialization) (a : List Command)
    (records maximum : ℕ) (part : List Command) : ChunkReader :=
  ⟨a.length, forwardHash sha256 serde.json a, part, records, maximum, totalBytes serde.json part,
    forwardHash sha256 serde.json (a ++ part)⟩

section Reader

variable {a part commands : List Command} {records maximum : ℕ} {next : Digest}

theorem push_readerAt (hserde : serde.RoundTrip) {c : Command}
    (hlength : (serde.json c).length ≤ recordBytes) (hcount : (a ++ part).length + 1 < u64Limit) :
    (readerAt sha256 serde a records maximum part).push sha256 serde (a ++ part).length
        (serde.json c) (forwardHash sha256 serde.json (a ++ part ++ [c])) =
      if part.length = records ∨ maximum - totalBytes serde.json part < (serde.json c).length then do
        require (part ≠ []) "program record exceeds chunk budget"
        return (false, readerAt sha256 serde a records maximum part)
      else .ok (true, readerAt sha256 serde a records maximum (part ++ [c])) := by
  have hfin : (a ++ part).length = (readerAt sha256 serde a records maximum part).fin :=
    List.length_append
  have hadd : checkedAdd (a ++ part).length 1 "program address exhausted" =
      .ok ((a ++ part).length + 1) := checkedAdd_eq_ok.mpr ⟨hcount, rfl⟩
  have hguard : require ((a ++ part).length = (readerAt sha256 serde a records maximum part).fin ∧
      (serde.json c).length ≤ recordBytes) "program record order or width differs" = .ok () :=
    require_eq_ok.mpr ⟨hfin, hlength⟩
  unfold ChunkReader.push
  rw [hguard, ok_bind]
  change (if part.length = records ∨ maximum - totalBytes serde.json part < (serde.json c).length
    then _ else _) = _
  split_ifs
  · rfl
  · rw [decodeCommand_json hserde hlength, ok_bind, forwardHash_concat]
    simp only [readerAt, require, if_true, ok_bind, hadd]
    simp [totalBytes, forwardHash, pure, Except.pure]

/-- What a reader takes of the rows after it is a first part of them, within its limits. -/
theorem pushAll_readerAt (hserde : serde.RoundTrip)
    (hlength : ∀ c ∈ commands, (serde.json c).length ≤ recordBytes)
    (hcount : (a ++ part).length + commands.length < u64Limit)
    (hrecords : part.length ≤ records) (hmaximum : totalBytes serde.json part ≤ maximum)
    {r : ChunkReader}
    (h : (readerAt sha256 serde a records maximum part).pushAll sha256 serde
      (preparedOver sha256 serde.json next (a ++ part) commands) = .ok r) :
    ∃ more tail, commands = more ++ tail ∧
      r = readerAt sha256 serde a records maximum (part ++ more) ∧
      (part ++ more).length ≤ records ∧ totalBytes serde.json (part ++ more) ≤ maximum := by
  induction commands generalizing part with
  | nil =>
    cases h
    exact ⟨[], [], rfl, by rw [List.append_nil], by rw [List.append_nil]; exact hrecords,
      by rw [List.append_nil]; exact hmaximum⟩
  | cons c commands ih =>
    rw [List.length_cons] at hcount
    rw [preparedOver, ChunkReader.pushAll,
      push_readerAt hserde (hlength c List.mem_cons_self) (by omega)] at h
    split_ifs at h with hfull
    · simp only [bind_eq_ok, require_eq_ok, pure_eq_ok, exists_const, Prod.exists, Prod.mk.injEq] at h
      obtain ⟨_, _, ⟨-, rfl, rfl⟩, h⟩ := h
      cases h
      exact ⟨[], c :: commands, rfl, by rw [List.append_nil], by rw [List.append_nil]; exact hrecords,
        by rw [List.append_nil]; exact hmaximum⟩
    · rw [ok_bind] at h
      simp only [if_true] at h
      have hbytes : totalBytes serde.json (part ++ [c]) =
          totalBytes serde.json part + (serde.json c).length := by simp [totalBytes]
      rw [List.append_assoc] at h
      obtain ⟨more, tail, rfl, rfl, hmore, htotal⟩ := @ih (part ++ [c])
        (fun d hd => hlength d (List.mem_cons_of_mem c hd))
        (by rw [← List.append_assoc, List.length_append, List.length_singleton]; omega)
        (by rw [List.length_append, List.length_singleton]; omega) (by omega) h
      rw [List.append_assoc, List.singleton_append] at hmore htotal ⊢
      exact ⟨c :: more, tail, rfl, rfl, hmore, htotal⟩

/-- A reader that may take one record ends, and takes one when there is one. -/
theorem exists_pushAll (hserde : serde.RoundTrip)
    (hlength : ∀ c ∈ commands, (serde.json c).length ≤ recordBytes)
    (hcount : (a ++ part).length + commands.length < u64Limit)
    (hfirst : part ≠ [] ∨ records ≠ 0 ∧ recordBytes ≤ maximum) :
    ∃ more tail, commands = more ++ tail ∧ (commands ≠ [] → part ++ more ≠ []) ∧
      (readerAt sha256 serde a records maximum part).pushAll sha256 serde
        (preparedOver sha256 serde.json next (a ++ part) commands) =
          .ok (readerAt sha256 serde a records maximum (part ++ more)) := by
  induction commands generalizing part with
  | nil => exact ⟨[], [], rfl, fun h => absurd rfl h, by rw [List.append_nil]; rfl⟩
  | cons c commands ih =>
    have hc := hlength c List.mem_cons_self
    rw [List.length_cons] at hcount
    rw [preparedOver, ChunkReader.pushAll, push_readerAt hserde hc (by omega)]
    split_ifs with hfull
    · have hpart : part ≠ [] := by
        rintro rfl
        rcases hfirst with hne | ⟨hrecords, hmaximum⟩
        · exact hne rfl
        · rcases hfull with hzero | hbytes
          · exact hrecords hzero.symm
          · simp only [totalBytes, List.map_nil, List.sum_nil] at hbytes
            omega
      rw [require, if_pos hpart]
      refine ⟨[], c :: commands, rfl, ?_, ?_⟩
      · rw [List.append_nil]
        exact fun _ => hpart
      · rw [List.append_nil]
        rfl
    · rw [ok_bind]
      simp only [if_true]
      obtain ⟨more, tail, rfl, -, hrun⟩ := @ih (part ++ [c])
        (fun d hd => hlength d (List.mem_cons_of_mem c hd))
        (by rw [← List.append_assoc, List.length_append, List.length_singleton]; omega)
        (Or.inl (by simp))
      refine ⟨c :: more, tail, rfl, by simp, ?_⟩
      rw [List.append_assoc, hrun, List.append_assoc, List.singleton_append]

end Reader

theorem filter_preparedOver (next : Digest) (a b : List Command) :
    (preparedOver sha256 serde.json next [] (a ++ b)).filter
      (fun r => decide (a.length ≤ r.position)) = preparedOver sha256 serde.json next a b := by
  rw [preparedOver_append, List.filter_append, List.filter_eq_nil_iff.mpr, List.filter_eq_self.mpr]
  · rfl
  · intro r hr
    exact decide_eq_true (position_preparedOver hr).1
  · intro r hr
    have := (position_preparedOver hr).2
    rw [List.length_nil, Nat.zero_add] at this
    simp only [decide_eq_true_eq]
    omega

theorem take_preparedOver (next : Digest) (a b : List Command) (n : ℕ) :
    (preparedOver sha256 serde.json next a b).take n =
      preparedOver sha256 serde.json (suffixOver sha256 serde.json next (b.drop n)) a (b.take n) := by
  conv_lhs => rw [← List.take_append_drop n b, preparedOver_append]
  rw [List.take_append, length_preparedOver]
  by_cases hn : n ≤ b.length
  · rw [List.length_take, min_eq_left hn, Nat.sub_self, List.take_zero, List.append_nil,
      List.take_of_length_le]
    rw [length_preparedOver, List.length_take, min_eq_left hn]
  · have hdrop : b.drop n = [] := List.drop_eq_nil_of_le (by omega)
    rw [hdrop, preparedOver, List.take_nil, List.append_nil, List.take_of_length_le]
    rw [length_preparedOver, List.length_take]
    omega

namespace Staging

variable {s s' : Staging} {row : ProgramRow} {done a b : List Command} {records maximum : ℕ}

theorem Holds.rowAt_eq (h : s.Holds sha256 serde m row done) {c : Command}
    (hdone : done = a ++ c :: b) :
    s.rowAt (m.artifactId sha256) a.length = .ok ⟨a.length, serde.json c,
      forwardHash sha256 serde.json (a ++ [c]),
      suffixOver sha256 serde.json row.remaining (c :: b)⟩ := by
  unfold rowAt
  rw [h.rows_eq, hdone, preparedOver_append, List.find?_append]
  have hbefore : (preparedOver sha256 serde.json
      (suffixOver sha256 serde.json row.remaining (c :: b)) [] a).find?
        (fun r => decide (r.position = a.length)) = none := by
    rw [List.find?_eq_none]
    intro r hr
    have := (position_preparedOver hr).2
    rw [List.length_nil, Nat.zero_add] at this
    simp only [decide_eq_true_eq]
    omega
  rw [hbefore, Option.none_or, List.nil_append, preparedOver, List.find?_cons_of_pos (by simp)]
  rfl

theorem Holds.ordinal_length (h : s.Holds sha256 serde m row done) (hdone : done = a ++ b) :
    ordinal a.length = .ok a.length := by
  have hlt := h.commands_lt
  rw [hdone, List.length_append] at hlt
  exact ordinal_eq_ok.2 ⟨by omega, rfl⟩

theorem Holds.hashBefore_eq (h : s.Holds sha256 serde m row done) (hdone : done = a ++ b) :
    s.hashBefore (m.artifactId sha256) a.length = .ok (forwardHash sha256 serde.json a) := by
  unfold hashBefore
  rcases List.eq_nil_or_concat a with rfl | ⟨a, c, rfl⟩
  · rfl
  · rw [List.concat_eq_append] at hdone ⊢
    rw [List.append_assoc, List.singleton_append] at hdone
    rw [if_neg (by simp), List.length_append, List.length_singleton, Nat.add_sub_cancel,
      h.ordinal_length hdone, ok_bind, h.rowAt_eq hdone]
    rfl

theorem Holds.suffixAt_eq (h : s.Holds sha256 serde m row done) (hdone : done = a ++ b) :
    s.suffixAt (m.artifactId sha256) (progressOver sha256 serde.json row.remaining done) a.length =
      .ok (suffixOver sha256 serde.json row.remaining b) := by
  have hcommands : (progressOver sha256 serde.json row.remaining done).commands =
      a.length + b.length := by
    rw [progressOver, hdone, List.length_append]
  unfold suffixAt
  rw [hcommands]
  cases b with
  | nil => exact if_pos rfl
  | cons c b =>
    rw [if_neg (by simp), h.ordinal_length hdone, ok_bind, h.rowAt_eq hdone]
    rfl

/-- What a request reads before it fills the chunk. -/
theorem Holds.programChunk_eq (h : s.Holds sha256 serde m row done) (hdone : done = a ++ b) :
    s.programChunk sha256 serde m a.length records maximum = (do
      let reader ← checked (ChunkReader.new a.length (forwardHash sha256 serde.json a) records maximum)
      let reader ← checked (reader.pushAll sha256 serde (preparedOver sha256 serde.json
        (suffixOver sha256 serde.json row.remaining (b.drop records)) a (b.take records)))
      let next ← s.suffixAt (m.artifactId sha256)
        (progressOver sha256 serde.json row.remaining done) reader.fin
      checked (reader.finish done.length next)) := by
  have hle : a.length ≤ (progressOver sha256 serde.json row.remaining done).commands := by
    change a.length ≤ done.length
    rw [hdone, List.length_append]
    omega
  unfold programChunk
  rw [h.progress_eq, ok_bind, require, if_pos hle, ok_bind, h.hashBefore_eq hdone, ok_bind,
    h.ordinal_length hdone, ok_bind, h.rows_eq, hdone, filter_preparedOver, take_preparedOver]
  rfl

theorem new_eq_ok {reader : ChunkReader} :
    ChunkReader.new a.length (forwardHash sha256 serde.json a) records maximum = .ok reader ↔
      ¬ (records = 0 ∨ chunkRecords < records ∨ maximum = 0 ∨ chunkBytes < maximum) ∧
        readerAt sha256 serde a records maximum [] = reader := by
  have hreader : readerAt sha256 serde a records maximum [] = ⟨a.length,
      forwardHash sha256 serde.json a, [], records, maximum, 0,
      forwardHash sha256 serde.json a⟩ := by
    rw [readerAt, List.append_nil]
    rfl
  simp only [ChunkReader.new, bind_eq_ok, require_eq_ok, pure_eq_ok, exists_const, hreader]

/-- The rows that a request reads are short and few. -/
theorem Holds.requested (h : s.Holds sha256 serde m row done) (hdone : done = a ++ b) (records : ℕ) :
    (∀ c ∈ b.take records, (serde.json c).length ≤ recordBytes) ∧
      (a ++ []).length + (b.take records).length < u64Limit := by
  have hcommands := h.received.acceptable.commands_le
  have hlimit := m.commands_lt
  rw [hdone, List.length_append] at hcommands
  constructor
  · intro c hc
    apply h.received.acceptable.length_le
    rw [hdone]
    exact List.mem_append_right a (List.mem_of_mem_take hc)
  · rw [List.append_nil, List.length_take]
    omega

/-- The chunk that a store serves is a part of what it holds. -/
theorem Holds.programChunk_eq_ok (hserde : serde.RoundTrip) (h : s.Holds sha256 serde m row done)
    (hdone : done = a ++ b) {chunk : Chunk}
    (hchunk : s.programChunk sha256 serde m a.length records maximum = .ok chunk) :
    ∃ part tail, b = part ++ tail ∧ (b ≠ [] → part ≠ []) ∧ part.length ≤ chunkRecords ∧
      totalBytes serde.json part ≤ chunkBytes ∧
      chunk = ⟨a.length, forwardHash sha256 serde.json a,
        suffixOver sha256 serde.json row.remaining tail, part⟩ := by
  rw [h.programChunk_eq hdone, ← List.append_nil a] at hchunk
  simp only [bind_eq_ok, checked_eq_ok] at hchunk
  obtain ⟨_, hnew, reader, hpush, next, hnext, hfinish⟩ := hchunk
  rw [List.append_nil] at hnew
  obtain ⟨hlimits, rfl⟩ := new_eq_ok.1 hnew
  obtain ⟨hwidth, hcount⟩ := h.requested hdone records
  obtain ⟨part, tail, htail, rfl, hrecords, hmaximum⟩ :=
    pushAll_readerAt hserde hwidth hcount (Nat.zero_le _) (Nat.zero_le _) hpush
  rw [List.nil_append] at hrecords hmaximum hfinish hnext
  have hb : b = part ++ (tail ++ b.drop records) := by
    rw [← List.append_assoc, ← htail, List.take_append_drop]
  have hsplit : done = (a ++ part) ++ (tail ++ b.drop records) := by
    rw [List.append_assoc, ← hb, hdone]
  have hfin : (readerAt sha256 serde a records maximum part).fin = (a ++ part).length :=
    List.length_append.symm
  rw [hfin, h.suffixAt_eq hsplit] at hnext
  cases hnext
  simp only [ChunkReader.finish, bind_eq_ok, require_eq_ok, pure_eq_ok, exists_const] at hfinish
  obtain ⟨hmissing, rfl⟩ := hfinish
  refine ⟨part, tail ++ b.drop records, hb, ?_, by omega, by omega, rfl⟩
  intro hne hnil
  apply hmissing
  refine Or.inr (Or.inr ⟨?_, hnil⟩)
  have hpos := List.length_pos_of_ne_nil hne
  change a.length < done.length
  rw [hdone, List.length_append]
  omega

/-- A request for at least one record of any width succeeds. -/
theorem Holds.records_ne_nil (hserde : serde.RoundTrip) (h : s.Holds sha256 serde m row done)
    {start : ℕ} (hlt : start < done.length) {chunk : Chunk}
    (hchunk : s.programChunk sha256 serde m start records maximum = .ok chunk) :
    chunk.records ≠ [] := by
  have hlength : (done.take start).length = start := List.length_take_of_le hlt.le
  rw [← hlength] at hchunk
  obtain ⟨part, tail, hrest, hne, -, -, rfl⟩ :=
    h.programChunk_eq_ok hserde (List.take_append_drop start done).symm hchunk
  apply hne
  intro hnil
  rw [List.drop_eq_nil_iff] at hnil
  exact absurd hlt (Nat.not_lt.mpr hnil)

theorem Holds.exists_programChunk (hserde : serde.RoundTrip) (h : s.Holds sha256 serde m row done)
    (hdone : done = a ++ b) (hrecords : records ≠ 0 ∧ records ≤ chunkRecords)
    (hmaximum : recordBytes ≤ maximum ∧ maximum ≤ chunkBytes) :
    ∃ chunk, s.programChunk sha256 serde m a.length records maximum = .ok chunk := by
  have hpositive : 0 < recordBytes := by decide
  have hnew : ChunkReader.new a.length (forwardHash sha256 serde.json a) records maximum =
      .ok (readerAt sha256 serde a records maximum []) := new_eq_ok.2 ⟨by omega, rfl⟩
  obtain ⟨hwidth, hcount⟩ := h.requested hdone records
  obtain ⟨part, tail, htail, hne, hpush⟩ := @exists_pushAll sha256 serde a [] _ records maximum
    (suffixOver sha256 serde.json row.remaining (b.drop records)) hserde hwidth hcount
    (Or.inr ⟨hrecords.1, hmaximum.1⟩)
  rw [List.append_nil, List.nil_append] at hpush
  have hb : b = part ++ (tail ++ b.drop records) := by
    rw [← List.append_assoc, ← htail, List.take_append_drop]
  have hsplit : done = (a ++ part) ++ (tail ++ b.drop records) := by
    rw [List.append_assoc, ← hb, hdone]
  have hfin : (readerAt sha256 serde a records maximum part).fin = (a ++ part).length :=
    List.length_append.symm
  have hlength : done.length = (a ++ part).length + (tail ++ b.drop records).length := by
    rw [hsplit, List.length_append]
  refine ⟨⟨a.length, forwardHash sha256 serde.json a,
    suffixOver sha256 serde.json row.remaining (tail ++ b.drop records), part⟩, ?_⟩
  rw [h.programChunk_eq hdone, hnew]
  simp only [bind_eq_ok, checked_eq_ok, ChunkReader.finish, require_eq_ok, pure_eq_ok, exists_const]
  refine ⟨_, rfl, _, hpush, _, by rw [hfin]; exact h.suffixAt_eq hsplit, ?_, rfl⟩
  rw [hfin]
  rintro (hstart | hend | ⟨hstart, hnil⟩)
  · have hstart : done.length < a.length := hstart
    rw [hdone, List.length_append] at hstart
    omega
  · omega
  · have hstart : a.length < done.length := hstart
    have htake : b.take records ≠ [] := by
      intro hempty
      rw [hdone, List.length_append] at hstart
      rcases List.take_eq_nil_iff.mp hempty with hzero | rfl
      · exact hrecords.1 hzero
      · simp at hstart
    exact hne htake hnil

theorem foldlM_insertInput_eq_ok {id : ArtifactId} {records : List PreparedRecord}
    (hprogram : s.programs.contains id = true)
    (hrecords : ∀ r ∈ records, r.position < i64Limit ∧ r.bytes ≠ [] ∧
      r.bytes.length ≤ recordBytes)
    (hnew : ∀ r ∈ s.inputOf id, ∀ r' ∈ records, r.position < r'.position)
    (hsorted : records.Pairwise fun r r' => r.position < r'.position) :
    records.foldlM (insertInput id) s =
      .ok { s with input := s.input ++ records.map fun r => (id, r) } := by
  induction records generalizing s with
  | nil => simp [pure, Except.pure]
  | cons r records ih =>
    obtain ⟨hlater, hsorted⟩ := List.pairwise_cons.mp hsorted
    obtain ⟨hposition, hbytes⟩ := hrecords r List.mem_cons_self
    have hinsert : insertInput id s r = .ok { s with input := s.input ++ [(id, r)] } := by
      simp only [insertInput, bind_eq_ok, ordinal_eq_ok, require_eq_ok, pure_eq_ok, exists_const]
      refine ⟨_, ⟨hposition, rfl⟩, ⟨hprogram, hbytes.1, hbytes.2, ?_⟩, trivial⟩
      rintro ⟨id', r'⟩ hr' ⟨hid, heq⟩
      have hmem : r' ∈ s.inputOf id :=
        List.mem_map.mpr ⟨(id', r'), List.mem_filter.mpr ⟨hr', decide_eq_true hid⟩, rfl⟩
      have hlt := hnew r' hmem r List.mem_cons_self
      simp only at heq
      omega
    have hone := inputOf_append_self s s.programs id [r]
    rw [List.map_singleton] at hone
    have hrest := @ih { s with input := s.input ++ [(id, r)] } hprogram
      (fun r' hr' => hrecords r' (List.mem_cons_of_mem r hr')) ?_ hsorted
    · rw [List.foldlM_cons, hinsert, ok_bind, hrest]
      simp
    · rw [hone]
      intro r₀ hr₀ r' hr'
      rcases List.mem_append.mp hr₀ with hr₀ | hr₀
      · exact hnew r₀ hr₀ r' (List.mem_cons_of_mem r hr')
      · cases List.mem_singleton.mp hr₀
        exact hlater r' hr'

/-- A store accepts a chunk of commands that may follow those it holds. -/
theorem Holds.append (h : s.Holds sha256 serde m row a) {part : List Command} {next : Digest}
    (hne : part ≠ []) (hrecords : part.length ≤ chunkRecords)
    (hbytes : totalBytes serde.json part ≤ chunkBytes)
    (hall : ∀ x c y, part = x ++ c :: y → Appendable serde.json m (a ++ x) c)
    (hnonempty : ∀ c ∈ part, serde.json c ≠ []) (hcount : a.length + part.length ≤ m.commands)
    (htotal : totalBytes serde.json (a ++ part) ≤ m.inputBytes)
    (hremaining : row.remaining = suffixOver sha256 serde.json next part)
    (hcomplete : a.length + part.length = m.commands → next = 0 ∧
      (progressOver sha256 serde.json next (a ++ part)).requireComplete m = .ok ()) :
    ∃ s' row', s.appendProgram sha256 serde m
        ⟨a.length, forwardHash sha256 serde.json a, next, part⟩ =
          .ok (progressOver sha256 serde.json next (a ++ part), s') ∧
      s'.Holds sha256 serde m row' (a ++ part) ∧ row'.remaining = next := by
  have hlimit := m.commands_lt
  obtain ⟨⟨hcommandsLimit, hinputLimit⟩, -⟩ := manifestBytes_eq_ok.1 h.received.manifest
  have hwidth : ∀ c ∈ part, (serde.json c).length ≤ recordBytes := by
    intro c hc
    obtain ⟨x, y, hpart⟩ := List.append_of_mem hc
    exact (hall x c y hpart).length_le
  have hprepare : (progressOver sha256 serde.json row.remaining a).prepareAppend sha256 serde.json m
      ⟨a.length, forwardHash sha256 serde.json a, next, part⟩ =
        .ok (progressOver sha256 serde.json next (a ++ part),
          preparedOver sha256 serde.json next a part) :=
    prepareAppend_eq_ok.mpr ⟨⟨hne, hrecords, hwidth, hbytes⟩, ⟨rfl, rfl, hremaining⟩, hall,
      ⟨by omega, hcount, htotal⟩, hcomplete, rfl, rfl⟩
  have hinsert := @foldlM_insertInput_eq_ok s (m.artifactId sha256)
    (preparedOver sha256 serde.json next a part)
    (by rw [Std.TreeMap.contains_eq_isSome_getElem?, h.stored]; rfl) ?_ ?_
    (pairwise_preparedOver _ _ _)
  · have hcommands : ordinal (a ++ part).length = .ok (a ++ part).length := by
      refine ordinal_eq_ok.2 ⟨?_, rfl⟩
      rw [List.length_append]
      omega
    have hinput : ordinal (totalBytes serde.json (a ++ part)) =
        .ok (totalBytes serde.json (a ++ part)) := ordinal_eq_ok.2 ⟨by omega, rfl⟩
    let row' : ProgramRow := ⟨row.manifest, (a ++ part).length, totalBytes serde.json (a ++ part),
      forwardHash sha256 serde.json (a ++ part), next⟩
    let input := s.input ++ (preparedOver sha256 serde.json next a part).map
      fun r => (m.artifactId sha256, r)
    refine ⟨⟨s.programs.insert (m.artifactId sha256) row', input⟩, row', ?_,
      ⟨getElem?_insert_self _ _, ?_⟩, rfl⟩
    · unfold Staging.appendProgram
      rw [h.progress_eq, ok_bind, hprepare]
      simp only [checked, Except.mapError, ok_bind, hinsert, progressOver, hcommands, hinput]
      unfold updateProgress
      simp only [h.stored]
      rfl
    · rw [inputOf_append_self]
      exact h.received.append hall hnonempty hcount htotal hremaining
        fun hend => (hcomplete hend).2
  · intro r hr
    have hposition := (position_preparedOver hr).2
    have hmem := List.mem_map_of_mem (f := PreparedRecord.bytes) hr
    rw [map_bytes_preparedOver] at hmem
    obtain ⟨c, hc, heq⟩ := List.mem_map.mp hmem
    rw [← heq]
    exact ⟨by omega, hnonempty c hc, hwidth c hc⟩
  · intro r hr r' hr'
    rw [h.received.input] at hr
    have hbefore := (position_preparedOver hr).2
    have hafter := (position_preparedOver hr').1
    rw [List.length_nil] at hbefore
    omega

/-- A store accepts the next part of the commands that another store holds. -/
theorem Holds.append_held {s₁ s₂ : Staging} {row₁ row₂ : ProgramRow} {part tail : List Command}
    (h₁ : s₁.Holds sha256 serde m row₁ (a ++ (part ++ tail))) (h₂ : s₂.Holds sha256 serde m row₂ a)
    (hremaining : row₂.remaining = suffixOver sha256 serde.json row₁.remaining (part ++ tail))
    (hne : part ≠ []) (hrecords : part.length ≤ chunkRecords)
    (hbytes : totalBytes serde.json part ≤ chunkBytes) :
    ∃ s₂' row₂', s₂.appendProgram sha256 serde m ⟨a.length, forwardHash sha256 serde.json a,
        suffixOver sha256 serde.json row₁.remaining tail, part⟩ =
          .ok (progressOver sha256 serde.json (suffixOver sha256 serde.json row₁.remaining tail)
            (a ++ part), s₂') ∧
      s₂'.Holds sha256 serde m row₂' (a ++ part) ∧
      row₂'.remaining = suffixOver sha256 serde.json row₁.remaining tail := by
  have hacceptable := h₁.received.acceptable
  have hcount := hacceptable.commands_le
  have htotal := hacceptable.inputBytes_le
  simp only [List.length_append] at hcount
  rw [← List.append_assoc, totalBytes_append _ tail] at htotal
  apply h₂.append hne hrecords hbytes
  · intro x c y hpart
    exact hacceptable.appendable (a ++ x) c (y ++ tail) (by rw [hpart]; simp)
  · exact fun c hc => hacceptable.nonempty c (by simp [hc])
  · omega
  · omega
  · rw [hremaining, suffixOver_append]
  · intro hend
    have htail : tail = [] := List.eq_nil_of_length_eq_zero (by omega)
    subst htail
    rw [List.append_nil] at h₁
    have hdone := h₁.received.complete (by rw [List.length_append]; exact hend)
    have hzero : row₁.remaining = 0 := by
      rw [Progress.requireComplete, require_eq_ok] at hdone
      exact hdone.2.2.2
    exact ⟨hzero, hdone⟩

/-- The inputs of the reverse commitments that a store holds for a program. -/
def hashed (s : Staging) (id : ArtifactId) : List (List UInt8 × Digest) :=
  match s.programs[id]? with
  | none => []
  | some row =>
    let rows := s.rows id
    (rows.map PreparedRecord.bytes).zip ((rows.map PreparedRecord.suffix).tail ++ [row.remaining])

end Staging

/-- The inputs of the reverse commitments of a part. -/
def inputsOver (sha256 : List UInt8 → Digest) (serde : Serialization) (next : Digest) :
    List Command → List (List UInt8 × Digest)
  | [] => []
  | c :: commands => (serde.json c, suffixOver sha256 serde.json next commands) ::
      inputsOver sha256 serde next commands

theorem zip_preparedOver (next : Digest) (done commands : List Command) :
    ((preparedOver sha256 serde.json next done commands).map PreparedRecord.bytes).zip
      (((preparedOver sha256 serde.json next done commands).map PreparedRecord.suffix).tail ++ [next]) =
        inputsOver sha256 serde next commands := by
  induction commands generalizing done with
  | nil => rfl
  | cons c commands ih =>
    have hrest := ih (done ++ [c])
    cases commands with
    | nil => rfl
    | cons d commands =>
      rw [preparedOver, List.map_cons, List.map_cons, List.tail_cons, inputsOver, ← hrest]
      rfl

/-- Parts with the same commitment are equal where their inputs are told apart. -/
theorem suffixOver_inj (hjson : Function.Injective serde.json) {next next' : Digest}
    {commands a : List Command} (hlength : a.length ≤ commands.length)
    (hinj : ∀ x ∈ inputsOver sha256 serde next commands, ∀ y ∈ inputsOver sha256 serde next' a,
      streamHash sha256 x.1 x.2 = streamHash sha256 y.1 y.2 → x = y)
    (h : suffixOver sha256 serde.json next commands = suffixOver sha256 serde.json next' a) :
    ∃ b, commands = a ++ b ∧ next' = suffixOver sha256 serde.json next b := by
  induction a generalizing commands with
  | nil => exact ⟨commands, rfl, h.symm⟩
  | cons c a ih =>
    cases commands with
    | nil => simp at hlength
    | cons d commands =>
      have heq := hinj _ List.mem_cons_self _ List.mem_cons_self h
      obtain ⟨hbytes, hsuffix⟩ := Prod.mk.inj heq
      obtain ⟨b, rfl, hb⟩ := ih (by simpa using hlength)
        (fun x hx y hy => hinj x (List.mem_cons_of_mem _ hx) y (List.mem_cons_of_mem _ hy)) hsuffix
      exact ⟨b, by rw [hjson hbytes]; rfl, hb⟩

namespace Staging

variable {s₁ s₂ : Staging} {row₁ row₂ : ProgramRow} {done a : List Command}

variable (sha256) in
/-- No two inputs that the stores hold for a program have the same commitment. -/
def Separate (s₁ s₂ : Staging) (id : ArtifactId) : Prop :=
  ∀ x ∈ s₁.hashed id, ∀ y ∈ s₂.hashed id,
    streamHash sha256 x.1 x.2 = streamHash sha256 y.1 y.2 → x = y

theorem Holds.hashed_eq (h : s₁.Holds sha256 serde m row₁ done) :
    s₁.hashed (m.artifactId sha256) = inputsOver sha256 serde row₁.remaining done := by
  unfold hashed
  rw [h.stored, h.rows_eq]
  exact zip_preparedOver _ _ _

/-- Stores of one manifest agree on the commands that both hold. -/
theorem Holds.agree (hserde : serde.RoundTrip) (h₁ : s₁.Holds sha256 serde m row₁ done)
    (h₂ : s₂.Holds sha256 serde m row₂ a) (hlength : a.length ≤ done.length)
    (hseparate : Separate sha256 s₁ s₂ (m.artifactId sha256)) :
    ∃ b, done = a ++ b ∧ row₂.remaining = suffixOver sha256 serde.json row₁.remaining b := by
  apply suffixOver_inj hserde.json_injective hlength
  · unfold Separate at hseparate
    rw [h₁.hashed_eq, h₂.hashed_eq] at hseparate
    exact hseparate
  · rw [← h₁.received.root, h₂.received.root]

variable (sha256) (serde) in
/-- One request to a source: the next chunk is read there and appended here. -/
def relay (source : Staging) (m : Manifest) (s : Staging) (limits : ℕ × ℕ) : Staging :=
  let appended : StagingM (Progress × Staging) := do
    let p ← s.progress sha256 serde m
    let chunk ← source.programChunk sha256 serde m p.commands limits.1 limits.2
    s.appendProgram sha256 serde m chunk
  match appended with
  | .ok (_, s') => s'
  | .error _ => s

/-- Limits under which every record fits into a chunk. -/
def WithinLimits (limits : ℕ × ℕ) : Prop :=
  (limits.1 ≠ 0 ∧ limits.1 ≤ chunkRecords) ∧ recordBytes ≤ limits.2 ∧ limits.2 ≤ chunkBytes

/-- One request brings a store closer to its source. -/
theorem Holds.relay {b : List Command} (hserde : serde.RoundTrip)
    (h₁ : s₁.Holds sha256 serde m row₁ (a ++ b)) (h₂ : s₂.Holds sha256 serde m row₂ a)
    (hremaining : row₂.remaining = suffixOver sha256 serde.json row₁.remaining b)
    {limits : ℕ × ℕ} (hlimits : WithinLimits limits) :
    ∃ a' b' row₂', a ++ b = a' ++ b' ∧
      (Staging.relay sha256 serde s₁ m s₂ limits).Holds sha256 serde m row₂' a' ∧
      row₂'.remaining = suffixOver sha256 serde.json row₁.remaining b' ∧
      b'.length ≤ b.length - 1 := by
  obtain ⟨chunk, hchunk⟩ := h₁.exists_programChunk hserde rfl hlimits.1 hlimits.2
  obtain ⟨part, tail, rfl, hne, hrecords, hbytes, rfl⟩ := h₁.programChunk_eq_ok hserde rfl hchunk
  have hstart : (progressOver sha256 serde.json row₂.remaining a).commands = a.length := rfl
  by_cases hpart : part = []
  · have htail : tail = [] := by
      by_contra hcontra
      exact hne (by simp [hcontra]) hpart
    subst hpart htail
    have hrefused : Staging.relay sha256 serde s₁ m s₂ limits = s₂ := by
      unfold Staging.relay
      simp only [h₂.progress_eq, ok_bind, hstart, hchunk, appendProgram]
      rfl
    rw [hrefused]
    exact ⟨a, [], row₂, rfl, h₂, hremaining, Nat.zero_le _⟩
  · obtain ⟨s₂', row₂', happend, hholds, hsuffix⟩ :=
      h₁.append_held h₂ hremaining hpart hrecords hbytes
    have haccepted : Staging.relay sha256 serde s₁ m s₂ limits = s₂' := by
      unfold Staging.relay
      simp only [h₂.progress_eq, ok_bind, hstart, hchunk, happend]
    rw [haccepted]
    refine ⟨a ++ part, tail, row₂', by rw [List.append_assoc], hholds, hsuffix, ?_⟩
    have hpos := List.length_pos_of_ne_nil hpart
    rw [List.length_append]
    omega

/-- Repeated requests bring a store to where its source is. -/
theorem Holds.foldl_relay {b : List Command} (hserde : serde.RoundTrip)
    (h₁ : s₁.Holds sha256 serde m row₁ (a ++ b)) (h₂ : s₂.Holds sha256 serde m row₂ a)
    (hremaining : row₂.remaining = suffixOver sha256 serde.json row₁.remaining b)
    {limits : List (ℕ × ℕ)} (hlimits : ∀ l ∈ limits, WithinLimits l) (hrounds : b.length ≤ limits.length) :
    ∃ row, (limits.foldl (Staging.relay sha256 serde s₁ m) s₂).Holds sha256 serde m row (a ++ b) ∧
      row.remaining = row₁.remaining := by
  induction limits generalizing a b s₂ row₂ with
  | nil =>
    have hb : b = [] := List.eq_nil_of_length_eq_zero (by simpa using hrounds)
    subst hb
    rw [List.append_nil]
    exact ⟨row₂, h₂, hremaining⟩
  | cons l limits ih =>
    obtain ⟨a', b', row', hsplit, hholds, hsuffix, hprogress⟩ :=
      h₁.relay hserde h₂ hremaining (hlimits l List.mem_cons_self)
    rw [List.length_cons] at hrounds
    rw [hsplit] at h₁ ⊢
    exact ih h₁ hholds hsuffix (fun l hl => hlimits l (List.mem_cons_of_mem _ hl))
      (by omega)

/-- A request of another node. An interrupted one fails at some statement. -/
inductive Request
  | start (m : Manifest)
  | append (m : Manifest) (chunk : Chunk)
  | interrupted

variable (sha256) (serde) in
/-- A failed request is rolled back. -/
def receive (s : Staging) : Request → Staging
  | .start m =>
    match s.startProgram sha256 serde m with
    | .ok (_, s') => s'
    | .error _ => s
  | .append m chunk =>
    match s.appendProgram sha256 serde m chunk with
    | .ok (_, s') => s'
    | .error _ => s
  | .interrupted => s

variable (sha256) (serde) in
def run (requests : List Request) : Staging := requests.foldl (receive sha256 serde) .empty

theorem Valid.receive (hserde : serde.RoundTrip) {s : Staging} (h : s.Valid sha256 serde)
    (request : Request) : (s.receive sha256 serde request).Valid sha256 serde := by
  cases request with
  | start m =>
    cases hstart : s.startProgram sha256 serde m with
    | error e =>
      simp only [Staging.receive, hstart]
      exact h
    | ok r =>
      simp only [Staging.receive, hstart]
      exact h.startProgram hstart
  | append m chunk =>
    cases happend : s.appendProgram sha256 serde m chunk with
    | error e =>
      simp only [Staging.receive, happend]
      exact h
    | ok r =>
      simp only [Staging.receive, happend]
      exact h.appendProgram hserde happend
  | interrupted => exact h

theorem valid_run (hserde : serde.RoundTrip) (requests : List Request) :
    (run sha256 serde requests).Valid sha256 serde := by
  have hfold : ∀ s : Staging, s.Valid sha256 serde →
      (requests.foldl (receive sha256 serde) s).Valid sha256 serde := by
    induction requests with
    | nil => exact fun s h => h
    | cons request requests ih => exact fun s h => ih _ (h.receive hserde request)
  exact hfold .empty valid_empty

/-- A manifest that a store announces is held with no commands. -/
theorem holds_start {bytes : List UInt8} (hbytes : manifestBytes serde m = .ok bytes)
    (hnonempty : bytes ≠ []) :
    (run sha256 serde [.start m]).Holds sha256 serde m (announced m bytes) [] := by
  obtain ⟨-, hcanonical⟩ := manifestBytes_eq_ok.1 hbytes
  obtain ⟨-, hlength, rfl⟩ := canonicalBytes_eq_ok.1 hcanonical
  have hinsert : Staging.empty.insertProgram (m.artifactId sha256)
      (announced m (serde.manifestJson m)) =
        ⟨(∅ : DigestMap ProgramRow).insertIfNew (m.artifactId sha256)
          (announced m (serde.manifestJson m)), []⟩ := by
    apply if_neg
    intro h
    rcases h with h | h
    · exact hnonempty h
    · exact absurd hlength (Nat.not_le.mpr h)
  have hholds : Holds sha256 serde (Staging.empty.insertProgram (m.artifactId sha256)
      (announced m (serde.manifestJson m))) m (announced m (serde.manifestJson m)) [] := by
    rw [hinsert]
    refine ⟨?_, received_announced hbytes⟩
    rw [Std.TreeMap.getElem?_insertIfNew]
    simp
  have hstart : Staging.empty.startProgram sha256 serde m =
      .ok (progressOver sha256 serde.json m.streamRoot [],
        Staging.empty.insertProgram (m.artifactId sha256)
          (announced m (serde.manifestJson m))) := by
    simp only [Staging.startProgram, bind_eq_ok, pure_eq_ok, Prod.mk.injEq]
    exact ⟨_, hbytes, _, hholds.progress_eq, rfl, rfl⟩
  simp only [run, List.foldl_cons, List.foldl_nil, Staging.receive, hstart]
  exact hholds

/-- Staged input, whatever was sent, is accepted by the next start; a store of the same manifest
accepts the chunks served from it, and repeated requests to a complete store finish. -/
theorem staging_relayed (sha256 : List UInt8 → Digest) {serde : Serialization}
    (hserde : serde.RoundTrip) :
    (∀ requests, (run sha256 serde requests).validateStaging sha256 serde = .ok ()) ∧
    (∀ requests m p start records maximum chunk,
      (run sha256 serde requests).progress sha256 serde m = .ok p → start < p.commands →
      (run sha256 serde requests).programChunk sha256 serde m start records maximum = .ok chunk →
      chunk.records ≠ []) ∧
    (∀ requests₁ requests₂ m p₁ p₂ records maximum chunk,
      (run sha256 serde requests₁).progress sha256 serde m = .ok p₁ →
      (run sha256 serde requests₂).progress sha256 serde m = .ok p₂ →
      p₂.commands < p₁.commands →
      Separate sha256 (run sha256 serde requests₁) (run sha256 serde requests₂)
        (m.artifactId sha256) →
      (run sha256 serde requests₁).programChunk sha256 serde m p₂.commands records maximum =
        .ok chunk →
      ∃ p s, (run sha256 serde requests₂).appendProgram sha256 serde m chunk = .ok (p, s) ∧
        p.commands = p₂.commands + chunk.records.length ∧
        s.rows (m.artifactId sha256) =
          ((run sha256 serde requests₁).rows (m.artifactId sha256)).take p.commands) ∧
    (∀ requests₁ requests₂ m p₁ p₂ (limits : List (ℕ × ℕ)),
      (run sha256 serde requests₁).progress sha256 serde m = .ok p₁ →
      (run sha256 serde requests₂).progress sha256 serde m = .ok p₂ →
      p₁.commands = m.commands →
      Separate sha256 (run sha256 serde requests₁) (run sha256 serde requests₂)
        (m.artifactId sha256) →
      (∀ l ∈ limits, WithinLimits l) → m.commands ≤ p₂.commands + limits.length →
      (limits.foldl (relay sha256 serde (run sha256 serde requests₁) m)
          (run sha256 serde requests₂)).progress sha256 serde m = .ok p₁ ∧
        p₁.requireComplete m = .ok () ∧
        (limits.foldl (relay sha256 serde (run sha256 serde requests₁) m)
          (run sha256 serde requests₂)).rows (m.artifactId sha256) =
            (run sha256 serde requests₁).rows (m.artifactId sha256)) := by
  refine ⟨fun requests => (valid_run hserde requests).validateStaging hserde, ?_, ?_, ?_⟩
  · intro requests m p start records maximum chunk hp hlt hchunk
    obtain ⟨row, done, h, rfl⟩ := (valid_run hserde requests).progress_eq_ok hserde hp
    exact h.records_ne_nil hserde hlt hchunk
  · intro requests₁ requests₂ m p₁ p₂ records maximum chunk hp₁ hp₂ hlt hseparate hchunk
    obtain ⟨row₁, done, h₁, rfl⟩ := (valid_run hserde requests₁).progress_eq_ok hserde hp₁
    obtain ⟨row₂, a, h₂, rfl⟩ := (valid_run hserde requests₂).progress_eq_ok hserde hp₂
    have hlt : a.length < done.length := hlt
    obtain ⟨b, rfl, hremaining⟩ := h₁.agree hserde h₂ hlt.le hseparate
    obtain ⟨part, tail, rfl, hne, hrecords, hbytes, rfl⟩ := h₁.programChunk_eq_ok hserde rfl hchunk
    have hpart : part ≠ [] := h₁.records_ne_nil hserde hlt hchunk
    obtain ⟨s, row, happend, hholds, hsuffix⟩ :=
      h₁.append_held h₂ hremaining hpart hrecords hbytes
    refine ⟨_, s, happend, List.length_append, ?_⟩
    have hlength : (progressOver sha256 serde.json (suffixOver sha256 serde.json row₁.remaining tail)
        (a ++ part)).commands = (preparedOver sha256 serde.json row.remaining [] (a ++ part)).length :=
      (length_preparedOver _ _ _).symm
    have hheld : preparedOver sha256 serde.json row₁.remaining [] (a ++ (part ++ tail)) =
        preparedOver sha256 serde.json row.remaining [] (a ++ part) ++
          preparedOver sha256 serde.json row₁.remaining (a ++ part) tail := by
      rw [hsuffix, ← List.append_assoc]
      exact preparedOver_append _ _ _ _
    rw [hlength, hholds.rows_eq, h₁.rows_eq, hheld, List.take_left]
  · intro requests₁ requests₂ m p₁ p₂ limits hp₁ hp₂ hcomplete hseparate hlimits hrounds
    obtain ⟨row₁, done, h₁, rfl⟩ := (valid_run hserde requests₁).progress_eq_ok hserde hp₁
    obtain ⟨row₂, a, h₂, rfl⟩ := (valid_run hserde requests₂).progress_eq_ok hserde hp₂
    have hcomplete : done.length = m.commands := hcomplete
    have hrounds : m.commands ≤ a.length + limits.length := hrounds
    have hle : a.length ≤ done.length := by
      rw [hcomplete]
      exact h₂.received.acceptable.commands_le
    obtain ⟨b, rfl, hremaining⟩ := h₁.agree hserde h₂ hle hseparate
    rw [List.length_append] at hcomplete
    obtain ⟨row, hholds, hrow⟩ := h₁.foldl_relay hserde h₂ hremaining hlimits (by omega)
    refine ⟨?_, h₁.received.complete (by rw [List.length_append]; exact hcomplete), ?_⟩
    · rw [hholds.progress_eq, hrow]
    · rw [hholds.rows_eq, h₁.rows_eq, hrow]

deriving instance Countable for Manifest

/-- A library that reads what two injective encodings write. -/
theorem exists_roundTrip {json : Command → List UInt8} (hjson : Function.Injective json)
    {manifestJson : Manifest → List UInt8} (hmanifestJson : Function.Injective manifestJson) :
    ∃ serde : Serialization, serde.RoundTrip ∧ serde.json = json ∧
      serde.manifestJson = manifestJson := by
  classical
  have hinverse : ∀ {α : Type} {encode : α → List UInt8}, Function.Injective encode →
      ∃ decode : List UInt8 → Except String α, ∀ a, decode (encode a) = .ok a := by
    intro α encode hencode
    refine ⟨fun bytes => if h : ∃ a, encode a = bytes then .ok h.choose else .error "", ?_⟩
    intro a
    have h : ∃ a', encode a' = encode a := ⟨a, rfl⟩
    simp only [dif_pos h]
    exact congrArg _ (hencode h.choose_spec)
  obtain ⟨parse, hparse⟩ := hinverse hjson
  obtain ⟨parseManifest, hparseManifest⟩ := hinverse hmanifestJson
  exact ⟨⟨json, parse, manifestJson, parseManifest⟩, ⟨hparse, hparseManifest⟩, rfl, rfl⟩

set_option maxRecDepth 10000 in
/-- A library that writes the two commands and the manifest of a program as JSON does. -/
theorem exists_serialization {m m' : Manifest} (hne : m ≠ m') (text : List UInt8)
    (htext : ∃ z ∈ text, z ≠ 0) (hother : text ≠ [1]) :
    ∃ serde : Serialization, serde.RoundTrip ∧
      serde.json (.reflexivity 0) = asciiBytes "\x7b\"op\":\"reflexivity\",\"variable\":0\x7d" ∧
      serde.json (.seal 0) = asciiBytes "\x7b\"op\":\"seal\",\"proof\":0\x7d" ∧
      serde.manifestJson m = text := by
  obtain ⟨json, hjson, hfirst, hsecond⟩ := exists_json (Command.reflexivity 0) (.seal 0) (by decide)
    (x := asciiBytes "\x7b\"op\":\"reflexivity\",\"variable\":0\x7d")
    (y := asciiBytes "\x7b\"op\":\"seal\",\"proof\":0\x7d") (by decide)
    ⟨123, by decide, by decide⟩ ⟨123, by decide, by decide⟩
  obtain ⟨manifestJson, hmanifestJson, hmanifest, -⟩ :=
    exists_json m m' hne hother htext ⟨1, by simp, by decide⟩
  obtain ⟨serde, hserde, hserdeJson, hserdeManifest⟩ := exists_roundTrip hjson hmanifestJson
  subst hserdeJson hserdeManifest
  exact ⟨serde, hserde, hfirst, hsecond, hmanifest⟩

set_option maxRecDepth 10000 in
/-- Two commands, relayed one by one to a store that only knows their manifest. -/
theorem staging_relayed_reflexivity :
    ∃ (sha256 : List UInt8 → Digest) (serde : Serialization) (m : Manifest) (chunk : Chunk)
      (p : Progress),
      serde.RoundTrip ∧
      serde.json (.reflexivity 0) = asciiBytes "\x7b\"op\":\"reflexivity\",\"variable\":0\x7d" ∧
      serde.json (.seal 0) = asciiBytes "\x7b\"op\":\"seal\",\"proof\":0\x7d" ∧
      chunk.records = [.reflexivity 0, .seal 0] ∧
      (run sha256 serde [.start m, .append m chunk]).validateStaging sha256 serde = .ok () ∧
      ([(1, recordBytes), (1, recordBytes)].foldl
        (relay sha256 serde (run sha256 serde [.start m, .append m chunk]) m)
        (run sha256 serde [.start m])).progress sha256 serde m = .ok p ∧
      p.requireComplete m = .ok () := by
  let sha256 : List UInt8 → Digest := fun bytes => BitVec.ofNat 256 bytes.length
  let zeros := (List.replicate 31 (asciiBytes "0,")).flatten
  let text := asciiBytes "\x7b\"commands\":2,\"input_bytes\":56,\"program_hash\":[" ++ zeros ++
    asciiBytes "82],\"stream_root\":[" ++ zeros ++ asciiBytes "94],\"conclusion\":[" ++ zeros ++
    asciiBytes "0],\"statement\":[" ++ zeros ++ asciiBytes "0]\x7d"
  let m : Manifest := ⟨2, 56, 82, 94, 0, 0, by decide, by decide⟩
  let m' : Manifest := ⟨1, 1, 0, 0, 0, 0, by decide, by decide⟩
  have hm : m ≠ m' := fun h => absurd (congrArg Manifest.commands h) (by decide)
  obtain ⟨serde, hserde, hfirst, hsecond, hmanifest⟩ :=
    exists_serialization hm text ⟨123, by decide, by decide⟩ (by decide)
  have hbytes : manifestBytes serde m = .ok text := by
    rw [manifestBytes_eq_ok, canonicalBytes_eq_ok, hmanifest]
    exact ⟨by decide, by decide, by decide, rfl⟩
  have hnonempty : text ≠ [] := by decide
  have hstart : (run sha256 serde [.start m]).Holds sha256 serde m (announced m text) [] :=
    holds_start hbytes hnonempty
  have htotal : totalBytes serde.json [.reflexivity 0, .seal 0] = 56 := by
    simp only [totalBytes, List.map_cons, List.map_nil, hfirst, hsecond]
    decide
  have hforward : forwardHash sha256 serde.json [.reflexivity 0, .seal 0] = 82 := by
    simp only [forwardHash, List.foldl_cons, List.foldl_nil, hfirst, hsecond]
    decide +kernel
  have hsuffix : m.streamRoot = suffixOver sha256 serde.json 0 [.reflexivity 0, .seal 0] := by
    simp only [suffixOver, hfirst, hsecond]
    decide +kernel
  have hlength : ∀ c ∈ [Command.reflexivity 0, .seal 0], (serde.json c).length ≤ recordBytes ∧
      serde.json c ≠ [] := by
    simp only [List.forall_mem_cons, hfirst, hsecond]
    exact ⟨by decide, by decide, by simp⟩
  have happendable : ∀ x c y, [Command.reflexivity 0, .seal 0] = x ++ c :: y →
      Appendable serde.json m ([] ++ x) c := by
    intro x c y hxy
    have hc : c ∈ [Command.reflexivity 0, .seal 0] := by simp [hxy]
    have hsub : (x ++ [c]).Sublist [.reflexivity 0, .seal 0] := by
      rw [hxy]
      exact List.Sublist.append_left (by simp) x
    have hcount : x.length + 1 ≤ 2 := by simpa using hsub.length_le
    have hsum : totalBytes serde.json (x ++ [c]) ≤ 56 := by
      rw [← htotal]
      exact (hsub.map _).sum_le_sum (by simp)
    constructor
    · intro hseal
      rcases List.append_eq_cons_iff.mp hxy.symm with ⟨rfl, hnil⟩ | ⟨x', rfl, hrest⟩
      · cases hnil
        cases hseal
      · rcases List.append_eq_cons_iff.mp hrest.symm with ⟨rfl, -⟩ | ⟨x'', rfl, -⟩
        · rfl
        · simp at hcount
    · exact (hlength c hc).1
    · exact Nat.lt_of_le_of_lt hcount (by decide)
    · exact Nat.lt_of_le_of_lt hsum (by decide)
  have hcomplete : (progressOver sha256 serde.json 0 [.reflexivity 0, .seal 0]).requireComplete m =
      .ok () := by
    rw [Progress.requireComplete, require_eq_ok]
    exact ⟨rfl, htotal, hforward, rfl⟩
  obtain ⟨s, row, happend, hholds, hrow⟩ := hstart.append (by simp) (by decide)
    (htotal.trans_le (by decide)) happendable (fun c hc => (hlength c hc).2) (by decide)
    htotal.le hsuffix (fun _ => ⟨rfl, hcomplete⟩)
  let chunk : Chunk := ⟨0, 0, 0, [.reflexivity 0, .seal 0]⟩
  have hrun : run sha256 serde [.start m, .append m chunk] = s := by
    have happend : (run sha256 serde [.start m]).appendProgram sha256 serde m chunk = _ := happend
    change (run sha256 serde [.start m]).receive sha256 serde (.append m chunk) = s
    simp only [receive, happend]
  obtain ⟨hvalid, -, -, hrelay⟩ := staging_relayed sha256 hserde
  have hseparate : Separate sha256 s (run sha256 serde [.start m]) (m.artifactId sha256) := by
    intro x _ y hy
    rw [hstart.hashed_eq] at hy
    cases hy
  have hlimits : ∀ l ∈ [(1, recordBytes), (1, recordBytes)], WithinLimits l := by
    simp only [List.forall_mem_cons, WithinLimits]
    decide
  obtain ⟨hprogress, hdone, -⟩ := hrelay [.start m, .append m chunk] [.start m] m _ _
    [(1, recordBytes), (1, recordBytes)] (hrun ▸ hholds.progress_eq) hstart.progress_eq rfl
    (hrun ▸ hseparate) hlimits le_rfl
  exact ⟨sha256, serde, m, chunk, _, hserde, hfirst, hsecond, rfl, hvalid _, hprogress, hdone⟩

end Staging
end Naome.Program
