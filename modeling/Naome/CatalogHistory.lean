import Naome.CatalogValidation

/-!
# Catalogs over whole histories

The invariant of the tables survives every call: the creation and the activation of a catalog,
commits of arbitrary batches that are cut at any point, and the input of programs.
-/
namespace Naome.Catalog
open Outcome Program

variable {sha256 : List UInt8 → Digest} {serde : Serialization} {c c' : Catalog}
  {databaseId : Digest}

theorem programs_updateProgress {s : Staging} {id id' : ArtifactId} {value : Progress}
    (h : id ≠ id') : (s.updateProgress id value).programs[id']? = s.programs[id']? := by
  unfold Staging.updateProgress
  cases s.programs[id]? with
  | none => rfl
  | some row => exact Staging.getElem?_insert_ne _ h

/-- A program whose input is complete stays so. -/
theorem complete_receive (hserde : serde.RoundTrip) {s : Staging} (h : s.Valid sha256 serde)
    {m : Manifest} {p : Progress} (hp : s.progress sha256 serde m = .ok p)
    (hcomplete : p.commands = m.commands) (request : Staging.Request) :
    (s.receive sha256 serde request).progress sha256 serde m = .ok p := by
  obtain ⟨row, done, hholds, rfl⟩ := h.progress_eq_ok hserde hp
  have hkept : ∀ s' : Staging, s'.programs[m.artifactId sha256]? = s.programs[m.artifactId sha256]? →
      s'.progress sha256 serde m = .ok (progressOver sha256 serde.json row.remaining done) := by
    intro s' hs'
    rw [← hp, Staging.progress, Staging.progress, hs']
  cases request with
  | start m' =>
    simp only [Staging.receive]
    split
    · next value s' hstart =>
      simp only [Staging.startProgram, bind_eq_ok, pure_eq_ok, Prod.mk.injEq] at hstart
      obtain ⟨bytes, -, _, -, -, rfl⟩ := hstart
      apply hkept
      unfold Staging.insertProgram
      split_ifs
      · rfl
      · rw [hholds.stored]
        exact ArtifactState.getElem?_insertIfNew_of_some hholds.stored
    · exact hp
  | append m' chunk =>
    simp only [Staging.receive]
    split
    · next value s' happend =>
      simp only [Staging.appendProgram, bind_eq_ok, checked_eq_ok, pure_eq_ok, Prod.exists,
        Prod.mk.injEq] at happend
      obtain ⟨p', hp', value', records, hprepare, s₁, hs₁, _, -, _, -, -, rfl⟩ := happend
      obtain ⟨rfl, -⟩ := Staging.foldlM_insertInput hs₁
      by_cases hid : m'.artifactId sha256 = m.artifactId sha256
      · -- the manifest of the row is that of both, and nothing can be appended
        obtain ⟨row', done', hholds', rfl⟩ := h.progress_eq_ok hserde hp'
        have hrow := hholds'.stored
        rw [hid] at hrow
        cases hrow.symm.trans hholds.stored
        obtain rfl := manifestBytes_injective hserde hholds'.received.manifest
          hholds.received.manifest
        obtain ⟨start, previous, next, commands⟩ := chunk
        obtain ⟨⟨hne, -⟩, -, -, ⟨-, hle, -⟩, -⟩ := prepareAppend_eq_ok.mp hprepare
        have hdone : done'.length = done.length :=
          congrArg Progress.commands (Except.ok.inj (hp'.symm.trans hp))
        have hlength : done'.length = m'.commands := hdone.trans hcomplete
        have hpos := List.length_pos_iff.mpr hne
        omega
      · apply hkept
        exact programs_updateProgress hid
    · exact hp
  | interrupted => exact hp

theorem extends_receive (hserde : serde.RoundTrip) (h : c.staging.Valid sha256 serde)
    (request : Staging.Request) :
    Extends sha256 serde c { c with staging := c.staging.receive sha256 serde request } := by
  constructor
  · exact fun _ _ hrow => hrow
  · exact fun _ _ => rfl
  · exact ⟨[], (List.append_nil _).symm⟩
  · exact fun _ _ hrow => hrow
  · intro m hm
    simp only [requireComplete, bind_eq_ok, mapError_eq_ok] at hm ⊢
    obtain ⟨p, hp, hcomplete⟩ := hm
    have hcommands : p.commands = m.commands := by
      rw [Progress.requireComplete, require_eq_ok] at hcomplete
      exact hcomplete.1
    exact ⟨p, complete_receive hserde h hp hcommands request, hcomplete⟩

section Batch

variable {objects : List BinaryArtifact} {prepared : DigestMap Prepared}

theorem mem_preparedObjects {o : Prepared} :
    o ∈ preparedObjects prepared ↔ ∃ id : ArtifactId, prepared[id]? = some o := by
  unfold preparedObjects
  rw [List.mem_map]
  constructor
  · rintro ⟨entry, hentry, rfl⟩
    exact ⟨entry.1, mem_toList.1 hentry⟩
  · rintro ⟨id, hid⟩
    exact ⟨(id, o), mem_toList.2 hid, rfl⟩

theorem Positioned.keys_eq (h : Positioned sha256 objects prepared) :
    prepared.keys = (preparedObjects prepared).map fun o => o.member.id := by
  rw [← map_fst_toList, preparedObjects, List.map_map]
  apply List.map_congr_left
  intro entry hentry
  obtain ⟨object, i, -, hid, hentry'⟩ := (h.entry _ _).mp (mem_toList.1 hentry)
  rw [Function.comp_apply, hentry', ← hid]
  rfl

theorem Positioned.exists_object (h : Positioned sha256 objects prepared) {o : Prepared}
    (ho : o ∈ preparedObjects prepared) :
    ∃ object i, objects[i]? = some object ∧ o = preparedAt sha256 object i := by
  obtain ⟨id, hid⟩ := mem_preparedObjects.1 ho
  obtain ⟨object, i, hobject, -, rfl⟩ := (h.entry _ _).mp hid
  exact ⟨object, i, hobject, rfl⟩

theorem Positioned.mem_objects (h : Positioned sha256 objects prepared) {object : BinaryArtifact}
    {i : ℕ} (hobject : objects[i]? = some object) :
    preparedAt sha256 object i ∈ preparedObjects prepared :=
  mem_preparedObjects.2 ⟨object.id, (h.entry _ _).mpr ⟨object, i, hobject, rfl, rfl⟩⟩

theorem Positioned.perm_inputOrder (h : Positioned sha256 objects prepared) :
    ((preparedObjects prepared).map Prepared.inputOrder).Perm (List.range objects.length) := by
  have hnodup : (preparedObjects prepared).Nodup := by
    have hkeys : ((preparedObjects prepared).map fun o => o.member.id).Nodup := by
      rw [← h.keys_eq]
      exact (pairwise_keys prepared).imp fun hlt => hlt.ne
    exact hkeys.of_map _
  rw [List.perm_ext_iff_of_nodup]
  · intro i
    rw [List.mem_map, List.mem_range]
    constructor
    · rintro ⟨o, ho, rfl⟩
      obtain ⟨object, i, hobject, rfl⟩ := h.exists_object ho
      exact (List.getElem?_eq_some_iff.mp hobject).1
    · intro hi
      exact ⟨_, h.mem_objects (List.getElem?_eq_getElem hi), rfl⟩
  · apply hnodup.map_on
    intro a ha b hb hab
    obtain ⟨object, i, hobject, rfl⟩ := h.exists_object ha
    obtain ⟨object', i', hobject', rfl⟩ := h.exists_object hb
    obtain rfl : i = i' := hab
    cases hobject.symm.trans hobject'
    rfl
  · exact List.nodup_range

theorem length_preparedObjects (prepared : DigestMap Prepared) :
    (preparedObjects prepared).length = prepared.size := by
  rw [preparedObjects, List.length_map, Std.TreeMap.length_toList]

end Batch

theorem exists_forall₂ {α β : Type} {R : α → β → Prop} {l : List α} (h : ∀ a ∈ l, ∃ b, R a b) :
    ∃ l', List.Forall₂ R l l' := by
  induction l with
  | nil => exact ⟨[], .nil⟩
  | cons a l ih =>
    rw [List.forall_mem_cons] at h
    obtain ⟨b, hb⟩ := h.1
    obtain ⟨l', hl'⟩ := ih h.2
    exact ⟨b :: l', .cons hb hl'⟩

section Commit

variable {limits : BatchLimits} {test : Bool} {root : ArtifactId} {objects : List BinaryArtifact}
  {arguments : Commit} {result : Summary} {prepared : DigestMap Prepared} {commit : Digest}

/-- The tables with the row of a new commit. -/
def withCommit (c : Catalog) (commit : Digest) (row : CommitRow) : Catalog :=
  { c with commits := c.commits.insert commit row }

variable (sha256) (serde) in
/-- A transaction that adds the commit of a batch. -/
structure Added (c : Catalog) (root : ArtifactId) (objects : List BinaryArtifact)
    (nextRoot : Option Digest) (expected : Summary) (test : Bool) (prepared : DigestMap Prepared)
    (commit : Digest) (c₂ : Catalog) (result : Summary) (c' : Catalog) : Prop where
  positioned : Positioned sha256 objects prepared
  digest : commitDigest sha256 root ((preparedObjects prepared).map Prepared.member) = .ok commit
  current : checkExpectedSummary c.metadata expected = .ok ()
  fresh : c.commits.contains commit = false
  appended : Appended commit c.metadata.count (preparedObjects prepared)
    (c.withCommit commit ⟨root, prepared.size⟩) c₂
  verified : c₂.verifyCommit sha256 serde commit root prepared = .ok ()
  summarized : c₂.commitSummary sha256 expected prepared nextRoot test = .ok (result, c')

/-- A transaction leaves the tables as they are or adds the commit of its batch. -/
theorem transact_eq_ok (h : c.transact sha256 serde databaseId limits test root objects arguments =
    .ok (result, c')) :
    (c' = c ∧ result = arguments.expected ∧
      checkExpectedSummary c.metadata arguments.expected = .ok ()) ∨
    ∃ prepared commit c₂, Added sha256 serde c root objects arguments.nextRoot arguments.expected test
      prepared commit c₂ result c' := by
  simp only [transact, bind_eq_ok, require_eq_ok, pure_eq_ok, exists_const, Prod.exists] at h
  obtain ⟨prepared, hprepared, commit, hdigest, _, -, metadata, hmeta, _, hexpected, _, -, inserted,
    c₂, hinsert, result', c'', hbranch, _, -, -, _, -, hresult⟩ := h
  cases hresult
  obtain rfl : c.metadata = metadata := by
    simp only [readMeta, bind_eq_ok, require_eq_ok, pure_eq_ok, exists_const] at hmeta
    exact hmeta.2.2.2
  unfold insertCommit at hinsert
  split_ifs at hinsert with hcontains
  · simp only [bind_eq_ok, pure_eq_ok, Prod.mk.injEq] at hinsert
    obtain ⟨_, -, _, -, rfl, rfl⟩ := hinsert
    simp only [conclude, Bool.false_eq_true, if_false, Except.ok.injEq, Prod.mk.injEq] at hbranch
    exact .inl ⟨hbranch.2.symm, hbranch.1.symm, hexpected⟩
  · simp only [bind_eq_ok, require_eq_ok, sqlWidth_eq_ok, insertCommitRow, pure_eq_ok, exists_const,
      Prod.mk.injEq] at hinsert
    obtain ⟨-, _, ⟨-, rfl⟩, _, ⟨-, rfl⟩, c₁, hobjects, rfl, rfl⟩ := hinsert
    simp only [conclude, if_true, bind_eq_ok] at hbranch
    obtain ⟨_, hverified, hsummarized⟩ := hbranch
    exact .inr ⟨prepared, commit, c₁, positioned_prepare hprepared, hdigest, hexpected,
      Bool.not_eq_true _ ▸ hcontains, foldlM_insertObject hobjects, hverified, hsummarized⟩

theorem verifyCommit_eq_ok (h : c.verifyCommit sha256 serde commit root prepared = .ok ()) :
    c.memberIds commit = prepared.keys ∧ prepared.contains root = true ∧
    ∀ o ∈ preparedObjects prepared, ∃ record,
      c.readRecord sha256 serde o.member.id = .ok (some record) ∧ record.member = o.member ∧
        record.object.bytes = o.payload ∧ record.origin = commit := by
  simp only [verifyCommit, bind_eq_ok, require_eq_ok, orError_eq_ok, exists_const, Prod.exists,
    forM_eq_ok] at h
  obtain ⟨row, -, n, rest, hvisit, ⟨-, -, hn, hroot⟩, hproofs⟩ := h
  obtain ⟨hfold, hcount⟩ := foldlM_of_visitMembers hvisit
  have hexpected : ∀ ids expected : List ArtifactId, ids.foldlM expectMember expected = .ok rest →
      expected = ids ++ rest := by
    intro ids
    induction ids with
    | nil =>
      intro expected h
      cases pure_eq_ok.mp h
      rfl
    | cons id ids ih =>
      intro expected h
      obtain ⟨expected', hid, h⟩ := foldlM_cons_eq_ok.mp h
      simp only [expectMember, bind_eq_ok, require_eq_ok, pure_eq_ok, exists_const] at hid
      obtain ⟨hhead, rfl⟩ := hid
      obtain ⟨tail, rfl⟩ := List.head?_eq_some_iff.mp hhead
      rw [List.cons_append, ← ih _ h]
      rfl
  have hkeys := hexpected _ _ hfold
  refine ⟨?_, hroot, ?_⟩
  · have hlength := congrArg List.length hkeys
    rw [List.length_append, Std.TreeMap.length_keys] at hlength
    have hrest : rest = [] := List.length_eq_zero_iff.mp (by omega)
    rw [hkeys, hrest, List.append_nil]
  · intro o ho
    have hproof := hproofs o ho
    simp only [verifyProof, bind_eq_ok, require_eq_ok, orError_eq_ok] at hproof
    obtain ⟨_, hread, record, rfl, hmatch⟩ := hproof
    exact ⟨record, hread, hmatch⟩

theorem corpusSummary_root {s : Summary} (h : c.corpusSummary sha256 = .ok s) :
    s.root = setRoot sha256 c.artifacts.keys := by
  simp only [corpusSummary, bind_eq_ok, sqlWidth_eq_ok, require_eq_ok, pure_eq_ok, exists_const,
    mapError_eq_ok] at h
  obtain ⟨_, ⟨-, rfl⟩, _, ⟨-, rfl⟩, -, f, hf, rfl⟩ := h
  obtain ⟨f', hf', hfinish⟩ := fold_fingerprint sha256 (pairwise_keys c.artifacts)
  cases hf.symm.trans hf'
  rw [setRoot, hfinish, Std.TreeMap.length_keys]

/-- The identities after a batch, in ascending order. -/
def idsWith (c : Catalog) (objects : List BinaryArtifact) : List ArtifactId :=
  (c.artifacts.keys ++ objects.map BinaryArtifact.id).toFinset.sort (· ≤ ·)

/-- The totals that the successor of the tables has to have. -/
theorem commitSummary_eq_ok {expected : Summary} {nextRoot : Option Digest}
    (h : c.commitSummary sha256 expected prepared nextRoot test = .ok (result, c')) :
    result.count = expected.count + prepared.size ∧
    result.bytes = expected.bytes + ((preparedObjects prepared).map fun o => o.member.length).sum ∧
    (nextRoot = some result.root ∨ nextRoot = none ∧ result.root = setRoot sha256 c.artifacts.keys) ∧
    result.count < i64Limit ∧ result.bytes < i64Limit ∧
    c' = { c with metadata := { c.metadata with
      corpusRoot := some result.root, count := result.count, bytes := result.bytes } } := by
  have hbytes : ∀ (objects : List Prepared) (total total' : ℕ),
      objects.foldlM (fun total object => (checkedAdd total object.member.length
        "catalog byte overflow").mapError KnowledgeError.message) total = .ok total' →
      total' = total + (objects.map fun o => o.member.length).sum := by
    intro objects
    induction objects with
    | nil =>
      intro total total' h
      cases pure_eq_ok.mp h
      rfl
    | cons o objects ih =>
      intro total total' h
      obtain ⟨total₁, hadd, h⟩ := foldlM_cons_eq_ok.mp h
      rw [mapError_eq_ok, checkedAdd_eq_ok] at hadd
      rw [ih _ _ h, ← hadd.2, List.map_cons, List.sum_cons]
      omega
  simp only [commitSummary, bind_eq_ok, mapError_eq_ok, checkedAdd_eq_ok, sqlWidth_eq_ok, pure_eq_ok,
    Prod.mk.injEq] at h
  obtain ⟨_, ⟨-, rfl⟩, total, htotal, next, hnext, _, ⟨hcount, rfl⟩, _, ⟨hlimit, rfl⟩, _, -, _, -, rfl,
    rfl⟩ := h
  refine ⟨rfl, hbytes _ _ _ htotal, ?_, hcount, hlimit, rfl⟩
  unfold successorRoot at hnext
  cases nextRoot with
  | some r => exact .inl (congrArg some (Except.ok.inj hnext))
  | none =>
    right
    dsimp only at hnext
    split_ifs at hnext
    · simp only [bind_eq_ok, pure_eq_ok] at hnext
      obtain ⟨s, hs, rfl⟩ := hnext
      have hroot := corpusSummary_root hs
      exact ⟨rfl, hroot⟩

variable {nextRoot : Option Digest} {expected : Summary} {c₂ : Catalog}

variable (h : Added sha256 serde c root objects nextRoot expected test prepared commit c₂ result c')

include h

theorem Added.eq_totals : c' = { c₂ with metadata := { c.metadata with
      corpusRoot := some result.root, count := result.count, bytes := result.bytes } } := by
  obtain ⟨-, -, -, -, -, htables⟩ := commitSummary_eq_ok h.summarized
  rw [htables, h.appended.metadata]
  rfl

theorem Added.artifacts_perm : c'.artifacts.toList.Perm
      ((preparedObjects prepared).map (fun o => (o.member.id, rowOf commit c.metadata.count o)) ++
        c.artifacts.toList) := by
  rw [h.eq_totals]
  exact h.appended.artifacts

theorem Added.fresh_objects {o : Prepared} (ho : o ∈ preparedObjects prepared) :
    c.artifacts.contains o.member.id = false := h.appended.fresh o ho

theorem Added.extends : Extends sha256 serde c c' := by
  have hfresh := fun o ho => h.fresh_objects (o := o) ho
  have hartifacts := h.artifacts_perm
  have htables := h.eq_totals
  constructor
  · intro id row hrow
    have hmem : (id, row) ∈ c.artifacts.toList := mem_toList.2 hrow
    exact mem_toList.1 (hartifacts.mem_iff.mpr (List.mem_append_right _ hmem))
  · intro id hid
    have hdependencies : c'.dependencies = c.dependencies ++
        (preparedObjects prepared).flatMap fun o => dependencyRowsOf o.member := by
      rw [htables]
      exact h.appended.dependencies
    have hnone : ((preparedObjects prepared).flatMap fun o => dependencyRowsOf o.member).filter
        (fun row => decide (row.artifactId = id)) = [] := by
      apply List.filter_eq_nil_iff.mpr
      intro row hrow
      obtain ⟨o, ho, hrow⟩ := List.mem_flatMap.mp hrow
      obtain ⟨entry, -, rfl⟩ := List.mem_map.mp hrow
      intro hid'
      rw [decide_eq_true_eq] at hid'
      rw [← hid', hfresh o ho] at hid
      cases hid
    rw [hdependencies, List.filter_append, hnone, List.append_nil]
  · refine ⟨(preparedObjects prepared).map fun o => ⟨commit, o.member.id⟩, ?_⟩
    rw [htables]
    exact h.appended.members
  · intro commit' row hrow
    have hcommits : c'.commits = c.commits.insert commit ⟨root, prepared.size⟩ := by
      rw [htables]
      exact h.appended.commits
    rw [hcommits, getElem?_insert]
    split_ifs with heq
    · rw [← heq, contains_eq_false.1 h.fresh] at hrow
      cases hrow
    · exact hrow
  · intro m hm
    have hstaging : c'.staging = c.staging := by
      rw [htables]
      exact h.appended.staging
    rw [requireComplete, hstaging]
    exact hm

theorem Added.readRecord_object {o : Prepared} (ho : o ∈ preparedObjects prepared) :
    ∃ record, c'.readRecord sha256 serde o.member.id = .ok (some record) ∧ record.member = o.member ∧
      record.object.bytes = o.payload ∧ record.origin = commit := by
  rw [h.eq_totals]
  exact (verifyCommit_eq_ok h.verified).2.2 o ho

theorem Added.memberIds_commit : c'.memberIds commit = prepared.keys := by
  rw [h.eq_totals]
  exact (verifyCommit_eq_ok h.verified).1

theorem Added.memberIds_other {commit' : Digest} (hne : commit' ≠ commit) :
    c'.memberIds commit' = c.memberIds commit' := by
  have hmembers : c'.members = c.members ++ (preparedObjects prepared).map
      fun o => ⟨commit, o.member.id⟩ := by
    rw [h.eq_totals]
    exact h.appended.members
  have hnone : ((preparedObjects prepared).map fun o => (⟨commit, o.member.id⟩ : MemberRow)).filter
      (fun row => decide (row.commitId = commit')) = [] := by
    apply List.filter_eq_nil_iff.mpr
    intro row hrow
    obtain ⟨o, -, rfl⟩ := List.mem_map.mp hrow
    simpa using hne.symm
  unfold memberIds
  rw [hmembers, List.filter_append, hnone, List.append_nil]

/-- The stored object of a batch is the one that was passed in. -/
theorem Added.object_eq {object : BinaryArtifact} {i : ℕ} (hobject : objects[i]? = some object) :
    ∃ record, c'.readRecord sha256 serde object.id = .ok (some record) ∧ record.object = object ∧
      record.origin = commit := by
  obtain ⟨record, hread, hmember, hbytes, horigin⟩ :=
    h.readRecord_object (h.positioned.mem_objects hobject)
  refine ⟨record, hread, ?_, horigin⟩
  obtain ⟨row, dependencies, -, rfl⟩ := readRecord_eq_some.1 hread
  simp only [recordOf, preparedAt, memberOf, Member.mk.injEq] at hmember hbytes ⊢
  obtain ⟨-, hstatement, hobligation, -, -, -, hdependencies⟩ := hmember
  rw [hstatement, hobligation, hbytes, hdependencies, Finset.sort_toFinset]

theorem Added.keys_eq : c'.artifacts.keys = c.idsWith objects := by
  have hsorted : (c.idsWith objects).Pairwise (· < ·) := Finset.sortedLT_sort _ |>.pairwise
  refine (pairwise_keys c'.artifacts).eq_of_mem_iff hsorted ?_
  intro id
  rw [← map_fst_toList, idsWith, Finset.mem_sort, List.mem_toFinset, (h.artifacts_perm.map _).mem_iff,
    List.map_append, List.map_map, map_fst_toList, List.mem_append, List.mem_append, or_comm]
  apply or_congr_right
  rw [List.mem_map, List.mem_map]
  constructor
  · rintro ⟨o, ho, rfl⟩
    obtain ⟨object, i, hobject, rfl⟩ := h.positioned.exists_object ho
    exact ⟨object, List.mem_of_getElem? hobject, rfl⟩
  · rintro ⟨object, hobject, rfl⟩
    obtain ⟨i, hi⟩ := List.mem_iff_getElem?.mp hobject
    exact ⟨_, h.positioned.mem_objects hi, rfl⟩

theorem Added.size_eq : c'.artifacts.size = c.artifacts.size + prepared.size := by
  have hlength := h.artifacts_perm.length_eq
  rw [List.length_append, List.length_map, length_preparedObjects, Std.TreeMap.length_toList,
    Std.TreeMap.length_toList] at hlength
  omega

theorem Added.payloadBytes_eq : c'.payloadBytes =
    c.payloadBytes + ((preparedObjects prepared).map fun o => o.member.length).sum := by
  have hsum := (h.artifacts_perm.map fun entry => entry.2.payloadLength).sum_eq
  rw [List.map_append, List.sum_append, List.map_map] at hsum
  exact hsum.trans (Nat.add_comm _ _)

/-- The replay orders of a batch follow those of the artifacts before it. -/
theorem Added.perm_orders (hcount : c.metadata.count = c.artifacts.size)
    (horders : c.replayOrders.Perm (List.range' 1 c.artifacts.size)) :
    c'.replayOrders.Perm (List.range' 1 c'.artifacts.size) := by
  have hnew : ((preparedObjects prepared).map fun o => c.artifacts.size + o.inputOrder + 1).Perm
      (List.range' (1 + c.artifacts.size) prepared.size) := by
    have hperm := h.positioned.perm_inputOrder.map fun i => c.artifacts.size + i + 1
    rw [List.map_map] at hperm
    refine hperm.trans (.of_eq ?_)
    rw [List.range'_eq_map_range, h.positioned.size]
    apply List.map_congr_left
    intro i _
    omega
  have happended : c'.replayOrders.Perm
      (((preparedObjects prepared).map fun o => c.artifacts.size + o.inputOrder + 1) ++
        c.replayOrders) := by
    have hperm := h.artifacts_perm.map fun entry => entry.2.replayOrder
    rw [List.map_append, List.map_map, hcount] at hperm
    exact hperm
  rw [h.size_eq, ← List.range'_append_1]
  exact happended.trans ((hnew.append horders).trans List.perm_append_comm)

theorem Added.complete_commit :
    ∃ records, Complete sha256 serde c' commit ⟨root, prepared.size⟩ records := by
  obtain ⟨hmembers, hroot, -⟩ := verifyCommit_eq_ok h.verified
  obtain ⟨records, hrecords⟩ := exists_forall₂ fun o ho => h.readRecord_object (o := o) ho
  refine ⟨records, ?_, ?_, ?_, ?_⟩
  · rw [h.memberIds_commit, h.positioned.keys_eq, List.forall₂_map_left_iff]
    exact hrecords.imp fun _ _ hrecord => ⟨hrecord.1, hrecord.2.2.2⟩
  · rw [h.memberIds_commit, Std.TreeMap.length_keys]
  · rw [h.memberIds_commit, Std.TreeMap.mem_keys, Std.TreeMap.mem_iff_contains]
    exact hroot
  · have hmap : (preparedObjects prepared).map Prepared.member = records.map Record.member := by
      rw [← List.forall₂_eq_eq_eq, List.forall₂_map_left_iff, List.forall₂_map_right_iff]
      exact hrecords.imp fun _ _ hrecord => hrecord.2.1.symm
    rw [← hmap]
    exact h.digest

theorem Added.complete_other {commit' : Digest} {row : CommitRow} {records : List Record}
    (hne : commit' ≠ commit) (hcomplete : Complete sha256 serde c commit' row records) :
    Complete sha256 serde c' commit' row records := by
  constructor
  · rw [h.memberIds_other hne]
    exact hcomplete.read.imp fun _ _ hread => ⟨h.extends.readRecord hread.1, hread.2⟩
  · rw [h.memberIds_other hne]
    exact hcomplete.count
  · rw [h.memberIds_other hne]
    exact hcomplete.root
  · exact hcomplete.digest

/-- A commit whose batch is well formed and whose root is that of the new set keeps the invariant. -/
theorem Added.valid (hvalid : Valid sha256 serde databaseId c) (hkeys : c'.ForeignKeys)
    (hretained : ∀ object ∈ objects, Retained sha256 serde object)
    (hroot : ∀ r ∈ nextRoot, r = setRoot sha256 (c.idsWith objects)) :
    Valid sha256 serde databaseId c' ∧ result = c'.summary sha256 := by
  obtain ⟨hcount, hbytes, hnext, hcountLimit, hbytesLimit, -⟩ := commitSummary_eq_ok h.summarized
  have hcurrent := h.current
  simp only [checkExpectedSummary, bind_eq_ok, require_eq_ok, exists_const] at hcurrent
  obtain ⟨hactive, -, hexpectedCount, hexpectedBytes⟩ := hcurrent
  have htables := h.eq_totals
  have hmeta : c'.metadata = { c.metadata with
      corpusRoot := some result.root, count := result.count, bytes := result.bytes } := by
    rw [htables]
  have hresultRoot : result.root = setRoot sha256 c'.artifacts.keys := by
    rcases hnext with hsome | ⟨-, hrows⟩
    · rw [hroot _ hsome, h.keys_eq]
    · rw [hrows, htables]
  have hresultCount : result.count = c'.artifacts.size := by
    rw [hcount, h.size_eq, ← hvalid.count, hexpectedCount]
  have hresultBytes : result.bytes = c'.payloadBytes := by
    rw [hbytes, h.payloadBytes_eq, ← hvalid.bytes, hexpectedBytes]
  have hmembers : c'.members = c.members ++
      (preparedObjects prepared).map fun o => ⟨commit, o.member.id⟩ := by
    rw [htables]
    exact h.appended.members
  refine ⟨⟨?_, ?_, ?_, ?_, ?_, ?_, ?_, hkeys, ?_, ?_, ?_, ?_, ?_⟩, ?_⟩
  · rw [hmeta]
    exact hvalid.identity
  · rw [hmeta]
    dsimp only
    rw [if_pos hactive, hresultRoot]
  · intro hinactive
    rw [hmeta] at hinactive
    exact absurd hactive (by rw [hinactive]; decide)
  · rw [hmeta]
    exact hresultCount
  · rw [hmeta]
    exact hcountLimit
  · rw [hmeta]
    exact hresultBytes
  · rw [hmeta]
    exact hbytesLimit
  · rw [htables]
    change c₂.staging.Valid sha256 serde
    rw [h.appended.staging]
    exact hvalid.staging
  · intro id hid
    obtain ⟨row, hrow⟩ := contains_eq_true.1 hid
    have hmem : (id, row) ∈ c'.artifacts.toList := mem_toList.2 hrow
    rw [h.artifacts_perm.mem_iff, List.mem_append, List.mem_map] at hmem
    rcases hmem with ⟨o, ho, heq⟩ | hold
    · obtain ⟨object, i, hobject, rfl⟩ := h.positioned.exists_object ho
      obtain ⟨record, hread, hsame, -⟩ := h.object_eq hobject
      obtain rfl : object.id = id := congrArg Prod.fst heq
      exact ⟨record, hread, hsame ▸ hretained object (List.mem_of_getElem? hobject)⟩
    · obtain ⟨record, hread, hrecord⟩ :=
        hvalid.readable id (contains_eq_true.2 ⟨row, mem_toList.1 hold⟩)
      exact ⟨record, h.extends.readRecord hread, hrecord⟩
  · exact h.perm_orders hvalid.count hvalid.orders
  · rw [hmembers, List.map_append, List.map_map, ← map_fst_toList]
    refine List.Perm.trans ?_ (h.artifacts_perm.map _).symm
    rw [List.map_append, List.map_map, map_fst_toList]
    exact (hvalid.members.append_right _).trans List.perm_append_comm
  · intro commit' row hrow
    have hcommits : c'.commits = c.commits.insert commit ⟨root, prepared.size⟩ := by
      rw [htables]
      exact h.appended.commits
    rw [hcommits, getElem?_insert] at hrow
    split_ifs at hrow with heq
    · subst heq
      cases hrow
      exact h.complete_commit
    · obtain ⟨records, hcomplete⟩ := hvalid.commits commit' row hrow
      exact ⟨records, h.complete_other (Ne.symm heq) hcomplete⟩
  · rw [summary, hmeta, ← hresultRoot]

/-- No dependency of an object of a committed batch comes later in the batch. -/
theorem Added.dependency_earlier {i j : ℕ} {owner target : BinaryArtifact}
    (howner : objects[i]? = some owner) (htarget : objects[j]? = some target)
    (hdependency : target.id ∈ owner.dependencies) : j < i := by
  by_contra hle
  have hrow : ∀ {k : ℕ} {object : BinaryArtifact}, objects[k]? = some object →
      c'.artifacts[object.id]? = some (rowOf commit c.metadata.count (preparedAt sha256 object k)) := by
    intro k object hobject
    have hmem : (object.id, rowOf commit c.metadata.count (preparedAt sha256 object k)) ∈
        c'.artifacts.toList := by
      rw [h.artifacts_perm.mem_iff]
      exact List.mem_append_left _ (List.mem_map_of_mem (h.positioned.mem_objects hobject))
    exact mem_toList.1 hmem
  obtain ⟨record, hread, -⟩ := h.object_eq howner
  obtain ⟨row, dependencies, hstored, -⟩ := readRecord_eq_some.1 hread
  cases (hrow howner).symm.trans hstored.stored
  have hmem : target.id ∈ (memberOf sha256 owner).dependencies := (Finset.mem_sort _).mpr hdependency
  obtain ⟨k, hk⟩ := List.mem_iff_getElem?.mp hmem
  have hdependencies : c'.dependencies = c.dependencies ++
      (preparedObjects prepared).flatMap fun o => dependencyRowsOf o.member := by
    rw [h.eq_totals]
    exact h.appended.dependencies
  refine hstored.ordered ⟨⟨owner.id, k, target.id⟩, ?_, rfl, ?_⟩
  · rw [hdependencies]
    apply List.mem_append_right
    refine List.mem_flatMap.mpr ⟨_, h.positioned.mem_objects howner, ?_⟩
    exact List.mem_map.mpr ⟨(target.id, k), List.mem_zipIdx_iff_getElem?.mpr hk, rfl⟩
  · intro stored hsome
    cases (hrow htarget).symm.trans hsome
    simp only [rowOf, preparedAt]
    omega

end Commit

/-- A call of `persist` with all that decides its outcome. -/
structure Call where
  limits : BatchLimits
  test : Bool
  root : ArtifactId
  objects : List BinaryArtifact
  arguments : Commit
  ending : CommitEnd

variable (sha256) (serde) in
/-- The answer to a call and the tables after it. -/
def perform (databaseId : Digest) (c : Catalog) (call : Call) : KnowledgeM Summary × Catalog :=
  c.persist sha256 serde databaseId call.limits call.test call.root call.objects call.arguments
    call.ending

variable (sha256) (serde) in
/-- The objects are such as the constructors of artifacts make them, and the root that comes with a
batch of new artifacts is the one of the set with these artifacts. -/
structure Call.WellFormed (c : Catalog) (call : Call) : Prop where
  retained : ∀ object ∈ call.objects, Retained sha256 serde object
  root : ∀ r ∈ call.arguments.nextRoot,
    (∀ object ∈ call.objects, c.artifacts.contains object.id = false) →
      r = setRoot sha256 (c.idsWith call.objects)

variable (sha256) (serde) in
/-- The states of a catalog: created, activated, extended by commits of batches, which may fail or be
cut at any point, and by the input of programs. -/
inductive Reached (databaseId : Digest) : Catalog → Prop
  | created : Reached databaseId (initializeSchema databaseId)
  | activated {c c' : Catalog} {root : Digest} (h : Reached databaseId c)
      (hactivate : c.activate sha256 serde databaseId root = .ok c') : Reached databaseId c'
  | staged {c : Catalog} (h : Reached databaseId c) (request : Staging.Request) :
      Reached databaseId { c with staging := c.staging.receive sha256 serde request }
  | persisted {c : Catalog} (h : Reached databaseId c) (call : Call)
      (hcall : call.WellFormed sha256 serde c) :
      Reached databaseId (perform sha256 serde databaseId c call).2

theorem valid_initializeSchema (databaseId : Digest) :
    Valid sha256 serde databaseId (initializeSchema databaseId) := by
  have hcontains : ∀ id, (∅ : DigestMap ArtifactRow).contains id = false := fun id => rfl
  refine ⟨rfl, rfl, fun _ => rfl, rfl, Nat.two_pow_pos 63, rfl, Nat.two_pow_pos 63, ?_,
    Staging.valid_empty, ?_, .refl _,
    .refl _, ?_⟩
  · exact ⟨by simp [initializeSchema], by simp [initializeSchema], by simp [initializeSchema],
      by simp [initializeSchema], by simp [initializeSchema, Staging.empty]⟩
  · intro id hid
    rw [show (initializeSchema databaseId).artifacts = ∅ from rfl, hcontains] at hid
    cases hid
  · intro commit row hrow
    cases hrow

theorem Valid.activate (hserde : serde.RoundTrip) (h : Valid sha256 serde databaseId c) {root : Digest}
    (hactivate : c.activate sha256 serde databaseId root = .ok c') :
    Valid sha256 serde databaseId c' := by
  simp only [Catalog.activate, h.validateCatalog_eq_ok hserde, ok_bind, bind_eq_ok, require_eq_ok,
    exists_const] at hactivate
  obtain ⟨rfl, metadata, -, hactivate⟩ := hactivate
  split_ifs at hactivate
  · cases pure_eq_ok.mp hactivate
    exact h
  · cases pure_eq_ok.mp hactivate
    exact ⟨h.identity, rfl, (fun hinactive => by cases hinactive), h.count, h.count_lt, h.bytes,
      h.bytes_lt, h.keys, h.staging, h.readable, h.orders, h.members, fun commit row hrow => by
        obtain ⟨records, hcomplete⟩ := h.commits commit row hrow
        exact ⟨records, hcomplete.read, hcomplete.count, hcomplete.root, hcomplete.digest⟩⟩

/-- The tables of a new catalog after its activation. -/
def activeSchema (databaseId root : Digest) : Catalog :=
  { initializeSchema databaseId with metadata := ⟨databaseId, true, some root, 0, 0⟩ }

theorem activate_initializeSchema (hserde : serde.RoundTrip) (databaseId : Digest) :
    (initializeSchema databaseId).activate sha256 serde databaseId (setRoot sha256 []) =
      .ok (activeSchema databaseId (setRoot sha256 [])) := by
  have hmeta : (initializeSchema databaseId).readMeta (some databaseId) =
      .ok ⟨databaseId, false, none, 0, 0⟩ := by
    simp only [readMeta, bind_eq_ok, require_eq_ok, pure_eq_ok, exists_const]
    exact ⟨fun expected hexpected => (Option.some.inj hexpected).symm, rfl, by simp [initializeSchema],
      rfl⟩
  simp only [Catalog.activate, (valid_initializeSchema databaseId).validateCatalog_eq_ok hserde, ok_bind,
    bind_eq_ok, require_eq_ok, exists_const]
  exact ⟨rfl, _, hmeta, rfl⟩

/-- Tables that keep every record stay valid when only the input of programs changes. -/
theorem Valid.receive (hserde : serde.RoundTrip) (h : Valid sha256 serde databaseId c)
    (request : Staging.Request) :
    Valid sha256 serde databaseId { c with staging := c.staging.receive sha256 serde request } := by
  have hextends := extends_receive hserde h.staging request
  have hstaging := h.staging.receive hserde request
  refine ⟨h.identity, h.root, h.inactive, h.count, h.count_lt, h.bytes, h.bytes_lt, ?_, hstaging, ?_,
    h.orders, h.members, ?_⟩
  · obtain ⟨hcommits, hartifacts, hdependencies, hmembers, -⟩ := h.keys
    refine ⟨hcommits, hartifacts, hdependencies, hmembers, ?_⟩
    intro row hrow
    by_contra hmissing
    rw [Bool.not_eq_true, contains_eq_false] at hmissing
    have hnil := hstaging.missing row.1 hmissing
    have hmem : row.2 ∈ (c.staging.receive sha256 serde request).inputOf row.1 :=
      List.mem_map_of_mem (List.mem_filter.mpr ⟨hrow, by simp⟩)
    rw [hnil] at hmem
    cases hmem
  · intro id hid
    obtain ⟨record, hread, hretained⟩ := h.readable id hid
    exact ⟨record, hextends.readRecord hread, hretained⟩
  · intro commit row hrow
    obtain ⟨records, hcomplete⟩ := h.commits commit row hrow
    exact ⟨records, hcomplete.read.imp fun _ _ hread => ⟨hextends.readRecord hread.1, hread.2⟩,
      hcomplete.count, hcomplete.root, hcomplete.digest⟩

/-- A call leaves the tables as they are, or it ends with the tables of its transaction. -/
theorem perform_cases (sha256 : List UInt8 → Digest) (serde : Serialization) (databaseId : Digest)
    (c : Catalog) (call : Call) :
    (perform sha256 serde databaseId c call).2 = c ∧
      (∃ e, (perform sha256 serde databaseId c call).1 = .error e) ∨
    ∃ result c', c.transact sha256 serde databaseId call.limits call.test call.root call.objects
        call.arguments = .ok (result, c') ∧ c'.ForeignKeys ∧
      (perform sha256 serde databaseId c call).2 = c' ∧
      ((perform sha256 serde databaseId c call).1 = .ok result ∨
        (perform sha256 serde databaseId c call).1 = .error .uncertainDurability ∨
        call.test = true ∧ call.arguments.cut = some .afterCommit ∧
          ∃ e, (perform sha256 serde databaseId c call).1 = .error e) := by
  unfold perform persist
  cases htransact : c.transact sha256 serde databaseId call.limits call.test call.root call.objects
      call.arguments with
  | error e => exact .inl ⟨rfl, e, rfl⟩
  | ok value =>
    obtain ⟨result, c'⟩ := value
    dsimp only
    by_cases hkeys : c'.ForeignKeys
    · rw [if_neg (not_not_intro hkeys)]
      cases call.ending with
      | refused => exact .inl ⟨rfl, _, rfl⟩
      | unreported => exact .inr ⟨result, c', rfl, hkeys, rfl, .inr (.inl rfl)⟩
      | committed =>
        refine .inr ⟨result, c', rfl, hkeys, rfl, ?_⟩
        unfold failAt
        split_ifs with hcut
        · exact .inr (.inr ⟨hcut.1, hcut.2, _, rfl⟩)
        · exact .inl rfl
    · rw [if_pos hkeys]
      exact .inl ⟨rfl, _, rfl⟩

theorem Valid.perform (h : Valid sha256 serde databaseId c) {call : Call}
    (hcall : call.WellFormed sha256 serde c) :
    Valid sha256 serde databaseId (perform sha256 serde databaseId c call).2 ∧
      ∀ result, (Catalog.perform sha256 serde databaseId c call).1 = .ok result →
        result = (Catalog.perform sha256 serde databaseId c call).2.summary sha256 := by
  rcases perform_cases sha256 serde databaseId c call with
    ⟨hsame, e, herror⟩ | ⟨result, c', htransact, hkeys, hafter, hanswer⟩
  · rw [hsame, herror]
    exact ⟨h, fun result hresult => by cases hresult⟩
  · have hvalid : Valid sha256 serde databaseId c' ∧ result = c'.summary sha256 := by
      rcases transact_eq_ok htransact with ⟨rfl, rfl, hcurrent⟩ | ⟨prepared, commit, c₂, hadded⟩
      · refine ⟨h, ?_⟩
        simp only [checkExpectedSummary, bind_eq_ok, require_eq_ok, exists_const] at hcurrent
        obtain ⟨hactive, hexpected, hcount, hbytes⟩ := hcurrent
        rw [h.root, if_pos hactive, Option.some.injEq] at hexpected
        rw [summary, hexpected, hcount, hbytes]
      · refine hadded.valid h hkeys hcall.retained fun r hr => hcall.root r hr ?_
        intro object hobject
        obtain ⟨i, hi⟩ := List.mem_iff_getElem?.mp hobject
        exact hadded.fresh_objects (hadded.positioned.mem_objects hi)
    rw [hafter]
    refine ⟨hvalid.1, ?_⟩
    intro result' hresult'
    rcases hanswer with hok | hlost | ⟨-, -, e, hcut⟩
    · cases hok.symm.trans hresult'
      exact hvalid.2
    · cases hlost.symm.trans hresult'
    · cases hcut.symm.trans hresult'

theorem Reached.valid (hserde : serde.RoundTrip) (h : Reached sha256 serde databaseId c) :
    Valid sha256 serde databaseId c := by
  induction h with
  | created => exact valid_initializeSchema databaseId
  | activated _ hactivate ih => exact ih.activate hserde hactivate
  | staged _ request ih => exact ih.receive hserde request
  | persisted _ call hcall ih => exact (ih.perform hcall).1

variable (sha256) (serde) in
/-- The relations between the tables. -/
structure Consistent (c : Catalog) : Prop where
  orders : c.replayOrders.Perm (List.range' 1 c.metadata.count)
  earlier : ∀ row ∈ c.dependencies, ∃ owner target, c.artifacts[row.artifactId]? = some owner ∧
    c.artifacts[row.target]? = some target ∧ target.replayOrder < owner.replayOrder
  divided : ∀ id, c.artifacts.contains id = true → ∃! commit, ⟨commit, id⟩ ∈ c.members
  members : ∀ row ∈ c.members, c.commits.contains row.commitId = true ∧
    c.artifacts.contains row.artifactId = true
  commits : ∀ (commit : Digest) (row : CommitRow), c.commits[commit]? = some row →
    (c.memberIds commit).Pairwise (· < ·) ∧ ∃ records, Complete sha256 serde c commit row records
  totals : c.metadata.count = c.artifacts.size ∧ c.metadata.bytes = c.payloadBytes ∧
    c.metadata.corpusRoot =
      if c.metadata.active = true then some (setRoot sha256 c.artifacts.keys) else none

theorem Valid.consistent (h : Valid sha256 serde databaseId c) : Consistent sha256 serde c := by
  constructor
  · rw [h.count]
    exact h.orders
  · intro row hrow
    obtain ⟨howner, htarget⟩ := h.keys.2.2.1 row hrow
    obtain ⟨owner, howner⟩ := contains_eq_true.1 howner
    obtain ⟨target, htarget⟩ := contains_eq_true.1 htarget
    exact ⟨owner, target, howner, htarget, h.ordered hrow howner htarget⟩
  · intro id hid
    have hmem : id ∈ c.members.map MemberRow.artifactId := by
      rw [h.members.mem_iff, Std.TreeMap.mem_keys, Std.TreeMap.mem_iff_contains]
      exact hid
    obtain ⟨member, hmember, rfl⟩ := List.mem_map.mp hmem
    refine ⟨member.commitId, hmember, ?_⟩
    intro commit hcommit
    have hsame := List.inj_on_of_nodup_map h.nodup_members hcommit hmember rfl
    exact congrArg MemberRow.commitId hsame
  · exact h.keys.2.2.2.1
  · intro commit row hrow
    exact ⟨h.pairwise_memberIds commit, h.commits commit row hrow⟩
  · exact ⟨h.count, h.bytes, h.root⟩

/-- Some object of a batch depends on itself or on a later one. -/
def Misordered (objects : List BinaryArtifact) : Prop :=
  ∃ (i j : ℕ) (owner target : BinaryArtifact), i ≤ j ∧ objects[i]? = some owner ∧ objects[j]? = some target ∧
    target.id ∈ owner.dependencies

/-- In every state that calls lead to, the tables are consistent, validation accepts them and no call
that fails before its commit, or whose batch is out of order, changes them. -/
theorem catalog_survives (hserde : serde.RoundTrip) (h : Reached sha256 serde databaseId c) :
    Consistent sha256 serde c ∧
    c.validateCatalog sha256 serde databaseId = .ok (c.summary sha256) ∧
    ∀ call : Call,
      (∀ e, c.transact sha256 serde databaseId call.limits call.test call.root call.objects
          call.arguments = .error e → perform sha256 serde databaseId c call = (.error e, c)) ∧
      (∀ e, (perform sha256 serde databaseId c call).1 = .error e →
        (perform sha256 serde databaseId c call).2 = c ∨ e = .uncertainDurability ∨
          call.test = true ∧ call.arguments.cut = some .afterCommit) ∧
      (Misordered call.objects → (perform sha256 serde databaseId c call).2 = c) ∧
      (call.WellFormed sha256 serde c → ∀ result,
        (perform sha256 serde databaseId c call).1 = .ok result →
        (perform sha256 serde databaseId c call).2.validateCatalog sha256 serde databaseId =
          .ok result) := by
  have hvalid := h.valid hserde
  refine ⟨hvalid.consistent, hvalid.validateCatalog_eq_ok hserde, fun call => ⟨?_, ?_, ?_, ?_⟩⟩
  · intro e he
    simp only [perform, persist, he]
  · intro e he
    rcases perform_cases sha256 serde databaseId c call with
      ⟨hsame, -⟩ | ⟨result, c', -, -, -, hok | hlost | ⟨htest, hcut, -⟩⟩
    · exact .inl hsame
    · cases hok.symm.trans he
    · cases hlost.symm.trans he
      exact .inr (.inl rfl)
    · exact .inr (.inr ⟨htest, hcut⟩)
  · rintro ⟨i, j, owner, target, hij, howner, htarget, hdependency⟩
    rcases perform_cases sha256 serde databaseId c call with
      ⟨hsame, -⟩ | ⟨result, c', htransact, -, hafter, -⟩
    · exact hsame
    · rcases transact_eq_ok htransact with ⟨hsame, -⟩ | ⟨prepared, commit, c₂, hadded⟩
      · rw [hafter, hsame]
      · have hlt := hadded.dependency_earlier howner htarget hdependency
        omega
  · intro hcall result hresult
    obtain ⟨hafter, hsummary⟩ := hvalid.perform hcall
    rw [hafter.validateCatalog_eq_ok hserde, hsummary result hresult]

/-- A catalog that was activated and then given the proof that every set equals itself. -/
theorem catalog_survives_reflexivity :
    ∃ (sha256 : List UInt8 → Digest) (serde : Serialization) (c : Catalog) (call : Call),
      serde.RoundTrip ∧ Reached sha256 serde 0 c ∧ c.metadata.active = true ∧
      call.WellFormed sha256 serde c ∧
      call.objects = [⟨56, some 7, none, [0, 0, 0, 0, 2, 6, 0, 0, 0, 0, 33, 0, 0, 0, 0, 0, 0, 0, 0], ∅⟩] ∧
      Consistent sha256 serde (perform sha256 serde 0 c call).2 ∧
      (perform sha256 serde 0 c call).2.validateCatalog sha256 serde 0 =
        .ok ((perform sha256 serde 0 c call).2.summary sha256) := by
  let sha256 : List UInt8 → Digest := fun bytes => BitVec.ofNat 256 bytes.length
  let object : BinaryArtifact :=
    ⟨56, some 7, none, [0, 0, 0, 0, 2, 6, 0, 0, 0, 0, 33, 0, 0, 0, 0, 0, 0, 0, 0], ∅⟩
  let m : Manifest := ⟨1, 1, 0, 0, 0, 0, by decide, by decide⟩
  let m' : Manifest := ⟨2, 2, 0, 0, 0, 0, by decide, by decide⟩
  have hm : m ≠ m' := fun h => absurd (congrArg Manifest.commands h) (by decide)
  obtain ⟨serde, hserde, -⟩ := Staging.exists_serialization hm [2]
    ⟨2, by simp, by decide⟩ (by decide)
  let c : Catalog := activeSchema 0 (setRoot sha256 [])
  have hreached : Reached sha256 serde 0 c := .activated .created (activate_initializeSchema hserde 0)
  let call : Call := ⟨⟨4096, 64 * 1024 * 1024⟩, false, 56, [object],
    ⟨⟨setRoot sha256 [], 0, 0⟩, false, none, some (setRoot sha256 (c.idsWith [object])), .ok ()⟩,
    .committed⟩
  have hretained : (object.prepareRetained sha256).isOk = true := by decide +kernel
  have hcall : call.WellFormed sha256 serde c := by
    constructor
    · intro other hother _
      rw [List.mem_singleton.mp hother]
      cases hprepared : object.prepareRetained sha256 with
      | error e =>
        rw [hprepared] at hretained
        cases hretained
      | ok candidate => exact ⟨candidate, rfl⟩
    · intro r hr _
      exact (Option.some.inj hr).symm
  obtain ⟨hconsistent, hvalidated, -⟩ := catalog_survives hserde (.persisted hreached call hcall)
  exact ⟨sha256, serde, c, call, hserde, hreached, rfl, hcall, rfl, hconsistent, hvalidated⟩

end Naome.Catalog
