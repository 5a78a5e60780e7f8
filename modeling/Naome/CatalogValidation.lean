import Naome.CatalogRows

/-!
# Valid catalogs pass validation

The invariant of the tables: replay orders are consecutive, every record can be read, the members
are divided among the commits and every commit is the digest of its members. Validation accepts
such tables and returns their totals.
-/
namespace Naome.Catalog
open Outcome Program Fingerprint

variable {sha256 : List UInt8 → Digest} {serde : Serialization} {c : Catalog} {databaseId : Digest}

variable (sha256) in
/-- The root of the set of some artifacts, given in ascending order. -/
def setRoot (ids : List ArtifactId) : Digest := corpusRoot sha256 ids.length (ofKeys sha256 ids)

variable (sha256) (serde) in
/-- The payload of an artifact is that of a program, or it parses as stored artifacts do. -/
def Retained (object : BinaryArtifact) : Prop :=
  object.program sha256 serde = .ok none → ∃ candidate, object.prepareRetained sha256 = .ok candidate

variable (sha256) (serde) in
/-- The members of a commit, which its identity is the digest of. -/
structure Complete (c : Catalog) (commit : Digest) (row : CommitRow) (records : List Record) :
    Prop where
  read : List.Forall₂ (fun id record => c.readRecord sha256 serde id = .ok (some record) ∧
    record.origin = commit) (c.memberIds commit) records
  count : row.memberCount = (c.memberIds commit).length
  root : row.root ∈ c.memberIds commit
  digest : commitDigest sha256 row.root (records.map Record.member) = .ok commit

def replayOrders (c : Catalog) : List ℕ := c.artifacts.toList.map fun entry => entry.2.replayOrder

variable (sha256) (serde) in
structure Valid (databaseId : Digest) (c : Catalog) : Prop where
  identity : c.metadata.databaseId = databaseId
  root : c.metadata.corpusRoot =
    if c.metadata.active = true then some (setRoot sha256 c.artifacts.keys) else none
  inactive : c.metadata.active = false → c.artifacts.toList = []
  count : c.metadata.count = c.artifacts.size
  count_lt : c.metadata.count < i64Limit
  bytes : c.metadata.bytes = c.payloadBytes
  bytes_lt : c.metadata.bytes < i64Limit
  keys : c.ForeignKeys
  staging : c.staging.Valid sha256 serde
  readable : ∀ id, c.artifacts.contains id = true → ∃ record,
    c.readRecord sha256 serde id = .ok (some record) ∧ Retained sha256 serde record.object
  orders : c.replayOrders.Perm (List.range' 1 c.artifacts.size)
  members : (c.members.map MemberRow.artifactId).Perm c.artifacts.keys
  commits : ∀ (commit : Digest) (row : CommitRow), c.commits[commit]? = some row →
    ∃ records, Complete sha256 serde c commit row records

variable (sha256) in
/-- What the metadata says about the artifacts. -/
def summary (c : Catalog) : Summary :=
  ⟨setRoot sha256 c.artifacts.keys, c.metadata.count, c.metadata.bytes⟩

theorem perm_memberIds (c : Catalog) (commit : Digest) : (c.memberIds commit).Perm
    ((c.members.filter fun row => decide (row.commitId = commit)).map MemberRow.artifactId) :=
  List.mergeSort_perm _ _

theorem Valid.nodup_members (h : Valid sha256 serde databaseId c) :
    (c.members.map MemberRow.artifactId).Nodup := by
  apply h.members.nodup_iff.mpr
  exact (pairwise_keys c.artifacts).imp fun hlt => hlt.ne

theorem Valid.pairwise_memberIds (h : Valid sha256 serde databaseId c) (commit : Digest) :
    (c.memberIds commit).Pairwise (· < ·) := by
  have hnodup : (c.memberIds commit).Nodup := by
    apply (perm_memberIds c commit).nodup_iff.mpr
    exact h.nodup_members.sublist (List.filter_sublist.map _)
  have hsorted : (c.memberIds commit).Pairwise fun a b => decide (a ≤ b) = true := by
    apply List.pairwise_mergeSort
    · intro a b d hab hbd
      exact decide_eq_true ((of_decide_eq_true hab).trans (of_decide_eq_true hbd))
    · intro a b
      simpa using le_total a b
  exact hsorted.imp₂ (fun a b hle hne => lt_of_le_of_ne (of_decide_eq_true hle) hne) hnodup

section Visit

variable {σ : Type} {visit : σ → ArtifactId → KnowledgeM σ}

theorem visitMembers_of_foldlM {ids : List ArtifactId} {previous : Option ArtifactId} {count : ℕ}
    {s s' : σ} (hprevious : ∀ last ∈ previous, ∀ id ∈ ids, last < id)
    (hsorted : ids.Pairwise (· < ·)) (hcount : count + ids.length < u32Limit)
    (hfold : ids.foldlM visit s = .ok s') :
    visitMembers visit previous count s ids = .ok (count + ids.length, s') := by
  induction ids generalizing previous count s with
  | nil =>
    cases pure_eq_ok.mp hfold
    rfl
  | cons id ids ih =>
    obtain ⟨s₁, hvisit, hfold⟩ := foldlM_cons_eq_ok.mp hfold
    obtain ⟨hlt, hsorted⟩ := List.pairwise_cons.mp hsorted
    rw [List.length_cons] at hcount
    have hnext : visitMembers visit (some id) (count + 1) s₁ ids =
        .ok (count + 1 + ids.length, s') := ih
      (fun last hlast other hother => by
        cases hlast
        exact hlt other hother) hsorted (by omega) hfold
    simp only [visitMembers, bind_eq_ok, require_eq_ok, exists_const]
    refine ⟨fun last hlast => hprevious last hlast id List.mem_cons_self, by omega, s₁, hvisit, ?_⟩
    rw [hnext, List.length_cons]
    congr 2
    omega

theorem foldlM_of_visitMembers {ids : List ArtifactId} {previous : Option ArtifactId}
    {count n : ℕ} {s s' : σ} (h : visitMembers visit previous count s ids = .ok (n, s')) :
    ids.foldlM visit s = .ok s' ∧ n = count + ids.length := by
  induction ids generalizing previous count s with
  | nil =>
    cases h
    exact ⟨rfl, rfl⟩
  | cons id ids ih =>
    simp only [visitMembers, bind_eq_ok, require_eq_ok, exists_const] at h
    obtain ⟨-, -, s₁, hvisit, h⟩ := h
    obtain ⟨hfold, hn⟩ := ih h
    refine ⟨foldlM_cons_eq_ok.mpr ⟨s₁, hvisit, hfold⟩, ?_⟩
    rw [hn, List.length_cons]
    omega

end Visit

theorem requireRetained_eq_ok {object : BinaryArtifact}
    (hprogram : c.requireProgram sha256 serde object = .ok ())
    (hretained : Retained sha256 serde object) : c.requireRetained sha256 serde object = .ok () := by
  obtain ⟨manifest, hmanifest, hcomplete⟩ := requireProgram_eq_ok.1 hprogram
  unfold requireRetained
  rw [hmanifest]
  cases manifest with
  | none =>
    obtain ⟨candidate, hcandidate⟩ := hretained hmanifest
    simp only [ok_bind, hcandidate]
    rfl
  | some m => exact hcomplete m rfl

theorem Valid.verifyMember_eq (h : Valid sha256 serde databaseId c) {id : ArtifactId}
    {record : Record} (hread : c.readRecord sha256 serde id = .ok (some record)) {commit : Digest}
    (horigin : record.origin = commit) (digest : CommitDigest) :
    c.verifyMember sha256 serde commit digest id = digest.push record.member := by
  obtain ⟨row, dependencies, hstored, rfl⟩ := readRecord_eq_some.1 hread
  obtain ⟨record', hread', hretained⟩ := h.readable id (contains_eq_true.2 ⟨row, hstored.stored⟩)
  cases hread.symm.trans hread'
  unfold verifyMember
  rw [hread]
  simp only [ok_bind, orError, requireRetained_eq_ok hstored.program hretained, require, horigin, if_true]

theorem Valid.verifyStoredCommit_eq_ok (h : Valid sha256 serde databaseId c) {commit : Digest}
    {row : CommitRow} (hrow : c.commits[commit]? = some row) :
    c.verifyStoredCommit sha256 serde (commit, row) = .ok () := by
  obtain ⟨records, hcomplete⟩ := h.commits commit row hrow
  have hlength := hcomplete.read.length_eq
  have hdigest := hcomplete.digest
  simp only [commitDigest, bind_eq_ok, List.length_map] at hdigest
  obtain ⟨d₀, hnew, d, hfold, hfinish⟩ := hdigest
  have hwidth : records.length < u32Limit := by
    simp only [CommitDigest.new, bind_eq_ok, require_eq_ok, exists_const] at hnew
    exact hnew.1
  have hpush : ∀ (ids : List ArtifactId) (records : List Record) (d : CommitDigest),
      List.Forall₂ (fun id record => c.readRecord sha256 serde id = .ok (some record) ∧
        record.origin = commit) ids records →
      ids.foldlM (c.verifyMember sha256 serde commit) d =
        (records.map Record.member).foldlM CommitDigest.push d := by
    intro ids records d hall
    induction hall generalizing d with
    | nil => rfl
    | cons hread _ ih =>
      rw [List.map_cons, List.foldlM_cons, List.foldlM_cons, h.verifyMember_eq hread.1 hread.2]
      exact bind_congr fun d => ih d
  have hvisit : visitMembers (c.verifyMember sha256 serde commit) none 0 d₀ (c.memberIds commit) =
      .ok (0 + (c.memberIds commit).length, d) := visitMembers_of_foldlM (by simp)
    (h.pairwise_memberIds commit) (by omega)
    ((hpush _ _ d₀ hcomplete.read).trans hfold)
  unfold verifyStoredCommit
  simp only [bind_eq_ok, require_eq_ok, Prod.exists]
  rw [hcomplete.count, hlength]
  exact ⟨d₀, hnew, _, d, hvisit, commit, hfinish, rfl⟩

theorem fold_fingerprint (sha256 : List UInt8 → Digest) {keys : List Digest}
    (hsorted : keys.Pairwise (· < ·)) :
    ∃ s, keys.foldlM (SetFingerprint.push sha256) {} = .ok s ∧ s.finish sha256 = ofKeys sha256 keys := by
  obtain ⟨s, hs, hempty, -⟩ := SetFingerprint.finish_eq_hash (V := Unit) sha256 hsorted
  refine ⟨s, hs, ?_⟩
  cases keys with
  | nil => exact hempty rfl
  | cons key keys => exact DiskMap.finish_ofKeys sha256 hs (by simp)

theorem Valid.payload_fits (h : Valid sha256 serde databaseId c) {entry : ArtifactId × ArtifactRow}
    (hentry : entry ∈ c.artifacts.toList) :
    entry.2.payloadLength = entry.2.payload.length ∧ 1 ≤ entry.2.payload.length ∧
      entry.2.payload.length ≤ artifactPayloadMaxBytes := by
  have hrow := mem_toList.1 hentry
  obtain ⟨record, hread, -⟩ := h.readable entry.1 (contains_eq_true.2 ⟨_, hrow⟩)
  obtain ⟨row, dependencies, hstored, -⟩ := readRecord_eq_some.1 hread
  cases hrow.symm.trans hstored.stored
  have hchecked := hstored.checked
  simp only [checkRow, bind_eq_ok, require_eq_ok, exists_const] at hchecked
  obtain ⟨-, -, -, ⟨hne, hmaximum, hlength, -⟩, -⟩ := hchecked
  exact ⟨hlength, List.length_pos_iff.mpr hne, hmaximum⟩

theorem Valid.corpusSummary_eq_ok (h : Valid sha256 serde databaseId c) :
    c.corpusSummary sha256 = .ok (c.summary sha256) := by
  obtain ⟨s, hs, hfinish⟩ := fold_fingerprint sha256 (pairwise_keys c.artifacts)
  simp only [corpusSummary, bind_eq_ok, sqlWidth_eq_ok, require_eq_ok, pure_eq_ok, exists_const,
    mapError_eq_ok]
  refine ⟨_, ⟨?_, rfl⟩, _, ⟨?_, rfl⟩, fun entry hentry => h.payload_fits hentry, s, hs, ?_⟩
  · rw [← h.count]
    exact h.count_lt
  · rw [← h.bytes]
    exact h.bytes_lt
  · rw [summary, setRoot, hfinish, h.count, h.bytes, Std.TreeMap.length_keys]

theorem max?_of_perm_range' {orders : List ℕ} {n : ℕ} (h : orders.Perm (List.range' 1 n)) :
    orders.max?.getD 0 = n := by
  cases n with
  | zero =>
    rw [List.range'_zero, List.perm_nil] at h
    rw [h]
    rfl
  | succ n =>
    have hmax : orders.max? = some (n + 1) := by
      rw [List.max?_eq_some_iff]
      constructor
      · rw [h.mem_iff, List.mem_range'_1]
        omega
      · intro order horder
        rw [h.mem_iff, List.mem_range'_1] at horder
        omega
    rw [hmax]
    rfl

theorem min?_of_perm_range' {orders : List ℕ} {n : ℕ} (h : orders.Perm (List.range' 1 n)) :
    orders.min?.getD 0 = if n = 0 then 0 else 1 := by
  cases n with
  | zero =>
    rw [List.range'_zero, List.perm_nil] at h
    rw [h]
    rfl
  | succ n =>
    have hmin : orders.min? = some 1 := by
      rw [List.min?_eq_some_iff]
      constructor
      · rw [h.mem_iff, List.mem_range'_1]
        omega
      · intro order horder
        rw [h.mem_iff, List.mem_range'_1] at horder
        omega
    rw [hmin]
    rfl

theorem mem_of_originOf {id : ArtifactId} {commit : Digest} (h : c.originOf id = some commit) :
    ⟨commit, id⟩ ∈ c.members := by
  obtain ⟨member, hfind, rfl⟩ := Option.map_eq_some_iff.mp h
  have hmem := List.mem_of_find?_eq_some hfind
  have hid := List.find?_some hfind
  rw [← of_decide_eq_true hid]
  exact hmem

theorem Valid.ordered (h : Valid sha256 serde databaseId c) {row : DependencyRow}
    (hrow : row ∈ c.dependencies) {owner target : ArtifactRow}
    (howner : c.artifacts[row.artifactId]? = some owner)
    (htarget : c.artifacts[row.target]? = some target) :
    target.replayOrder < owner.replayOrder := by
  obtain ⟨record, hread, -⟩ := h.readable row.artifactId (contains_eq_true.2 ⟨owner, howner⟩)
  obtain ⟨owner', dependencies, hstored, -⟩ := readRecord_eq_some.1 hread
  cases howner.symm.trans hstored.stored
  by_contra hle
  refine hstored.ordered ⟨row, hrow, rfl, ?_⟩
  intro target' htarget'
  cases htarget.symm.trans htarget'
  exact Nat.le_of_not_lt hle

theorem Valid.verifySummaryFields_eq_ok (h : Valid sha256 serde databaseId c) :
    c.verifySummaryFields c.metadata (c.summary sha256) = .ok (c.summary sha256) := by
  simp only [verifySummaryFields, bind_eq_ok, require_eq_ok, pure_eq_ok, exists_const,
    verifyForeignKeys]
  refine ⟨⟨rfl, rfl, ?_⟩, ?_, ⟨?_, ?_⟩, ⟨?_, ?_⟩, h.keys, ?_, ?_, trivial⟩
  · intro hactive
    rw [h.root, if_pos hactive]
    rfl
  · have hlength := h.members.length_eq
    rw [List.length_map, Std.TreeMap.length_keys] at hlength
    rw [hlength]
    exact h.count.symm
  · exact (max?_of_perm_range' h.orders).trans h.count.symm
  · exact (min?_of_perm_range' h.orders).trans (by rw [summary, h.count])
  · intro entry hentry
    obtain ⟨records, hcomplete⟩ := h.commits _ _ (mem_toList.1 hentry)
    exact ⟨hcomplete.count, hcomplete.root⟩
  · intro entry hentry
    have hrow := mem_toList.1 hentry
    obtain ⟨record, hread, -⟩ := h.readable entry.1 (contains_eq_true.2 ⟨_, hrow⟩)
    obtain ⟨row, dependencies, hstored, -⟩ := readRecord_eq_some.1 hread
    cases hrow.symm.trans hstored.stored
    exact mem_of_originOf hstored.origin
  · intro row hrow
    exact (h.keys.2.2.1 row hrow).2
  · intro row hrow owner howner target htarget
    exact h.ordered hrow howner htarget

theorem replayRows_orders (h : Valid sha256 serde databaseId c) :
    c.replayRows.map Prod.snd = List.range' 1 c.artifacts.size := by
  have hperm : (c.replayRows.map Prod.snd).Perm (List.range' 1 c.artifacts.size) := by
    refine ((List.mergeSort_perm _ _).map _).trans ?_
    rw [List.map_map]
    exact h.orders
  have hsorted : c.replayRows.Pairwise fun a b => decide (a.2 ≤ b.2) = true := by
    apply List.pairwise_mergeSort
    · intro a b d hab hbd
      exact decide_eq_true ((of_decide_eq_true hab).trans (of_decide_eq_true hbd))
    · intro a b
      simpa using le_total a.2 b.2
  apply hperm.eq_of_pairwise (fun a b _ _ (hab : a ≤ b) (hba : b ≤ a) => le_antisymm hab hba)
  · rw [List.pairwise_map]
    exact hsorted.imp of_decide_eq_true
  · exact (List.pairwise_lt_range' 1).imp le_of_lt

theorem countReplay_eq_ok {rows : List (ArtifactId × ℕ)} {observed : ℕ}
    (hstored : ∀ row ∈ rows, ∃ stored, c.artifacts[row.1]? = some stored ∧ stored.replayOrder = row.2)
    (horders : rows.map Prod.snd = List.range' (observed + 1) rows.length)
    (hcount : observed + rows.length < u64Limit) :
    c.countReplay observed rows = .ok (observed + rows.length) := by
  induction rows generalizing observed with
  | nil => rfl
  | cons row rows ih =>
    obtain ⟨id, order⟩ := row
    rw [List.forall_mem_cons] at hstored
    obtain ⟨⟨stored, hrow, horder⟩, hstored⟩ := hstored
    rw [List.map_cons, List.length_cons, List.range'_succ, List.cons.injEq] at horders
    obtain ⟨rfl, horders⟩ := horders
    rw [List.length_cons] at hcount ⊢
    simp only [countReplay, bind_eq_ok, replayOrdinal, require_eq_ok, pure_eq_ok, exists_const,
      mapError_eq_ok, orError_eq_ok, checkedAdd_eq_ok]
    refine ⟨_, ⟨by omega, rfl⟩, _, ⟨by omega, rfl⟩, rfl, stored, hrow, _, ⟨?_, rfl⟩, horder, ?_⟩
    · rw [horder]
      omega
    · rw [ih hstored horders (by omega)]
      congr 1
      omega

theorem Valid.countReplay_eq_ok (h : Valid sha256 serde databaseId c) :
    c.countReplay 0 c.replayRows = .ok c.metadata.count := by
  have hlength : c.replayRows.length = c.artifacts.size := by
    have hmap := congrArg List.length (replayRows_orders h)
    rwa [List.length_map, List.length_range'] at hmap
  have hstored : ∀ row ∈ c.replayRows, ∃ stored, c.artifacts[row.1]? = some stored ∧
      stored.replayOrder = row.2 := by
    intro row hrow
    rw [replayRows, (List.mergeSort_perm _ _).mem_iff, List.mem_map] at hrow
    obtain ⟨entry, hentry, rfl⟩ := hrow
    exact ⟨entry.2, mem_toList.1 hentry, rfl⟩
  have hlimit : c.metadata.count < u64Limit := h.count_lt.trans (by decide)
  have horders : c.replayRows.map Prod.snd = List.range' (0 + 1) c.replayRows.length := by
    rw [hlength]
    exact replayRows_orders h
  rw [Catalog.countReplay_eq_ok hstored horders (by rw [hlength, ← h.count]; omega), hlength, h.count,
    Nat.zero_add]

/-- Validation accepts valid tables and returns their totals. -/
theorem Valid.validateCatalog_eq_ok (hserde : serde.RoundTrip)
    (h : Valid sha256 serde databaseId c) :
    c.validateCatalog sha256 serde databaseId = .ok (c.summary sha256) := by
  have hmeta : c.readMeta (some databaseId) = .ok c.metadata := by
    simp only [readMeta, bind_eq_ok, require_eq_ok, pure_eq_ok, exists_const]
    refine ⟨?_, ?_, ?_, trivial⟩
    · intro expected hexpected
      cases hexpected
      exact h.identity.symm
    · rw [h.root]
      cases c.metadata.active <;> rfl
    · intro hinactive
      have hnil := h.inactive hinactive.1
      have hcount : c.metadata.count = 0 := by
        rw [h.count, ← Std.TreeMap.length_toList, hnil]
        rfl
      have hbytes : c.metadata.bytes = 0 := by
        rw [h.bytes, payloadBytes, hnil]
        rfl
      rcases hinactive.2 with hne | hne
      · exact hne hcount
      · exact hne hbytes
  simp only [validateCatalog, bind_eq_ok, require_eq_ok, pure_eq_ok, exists_const, verifyForeignKeys,
    mapError_eq_ok]
  refine ⟨h.keys, c.metadata, hmeta, _, h.corpusSummary_eq_ok, _, h.verifySummaryFields_eq_ok, (),
    h.staging.validateStaging hserde, _, h.countReplay_eq_ok, rfl, (), ?_, rfl⟩
  rw [forM_eq_ok]
  intro entry hentry
  exact h.verifyStoredCommit_eq_ok (mem_toList.1 hentry)

end Naome.Catalog
