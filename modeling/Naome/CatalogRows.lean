import Naome.Catalog
import Naome.ProgramRelay
import Naome.ContextOrder

/-!
# Rows that a batch adds

What a record is read from, and that adding rows changes no record that is stored. The rows of a
batch are those of its objects, with the replay orders of their positions.
-/
namespace Naome.Catalog
open Outcome Program

section Maps

variable {V : Type} {m : DigestMap V} {k : Digest} {v : V}

theorem contains_eq_true : m.contains k = true ↔ ∃ v, m[k]? = some v := by
  rw [← Std.TreeMap.mem_iff_contains, Std.TreeMap.mem_iff_isSome_getElem?, Option.isSome_iff_exists]

theorem contains_eq_false : m.contains k = false ↔ m[k]? = none := by
  rw [← Bool.not_eq_true, contains_eq_true, Option.eq_none_iff_forall_ne_some]
  simp

theorem mem_toList {entry : Digest × V} : entry ∈ m.toList ↔ m[entry.1]? = some entry.2 :=
  Std.TreeMap.mem_toList_iff_getElem?_eq_some

theorem getElem?_insert (k' : Digest) :
    (m.insert k v)[k']? = if k = k' then some v else m[k']? := by
  rw [Std.TreeMap.getElem?_insert]
  simp only [compare_eq_iff_eq]

theorem perm_toList_insert (h : m.contains k = false) :
    (m.insert k v).toList.Perm ((k, v) :: m.toList) := by
  have hfilter : m.toList.filter (fun entry => !(k == entry.1)) = m.toList := by
    apply List.filter_eq_self.mpr
    intro entry hentry
    have hsome := mem_toList.1 hentry
    have hne : k ≠ entry.1 := by
      intro heq
      rw [← heq, contains_eq_false.1 h] at hsome
      cases hsome
    simpa using hne
  have hperm := Std.TreeMap.toList_insert_perm (t := m) (k := k) (v := v)
  simp only [decide_not, Bool.decide_eq_true] at hperm
  rwa [hfilter] at hperm

theorem size_insert_of_new (h : m.contains k = false) : (m.insert k v).size = m.size + 1 := by
  rw [← Std.TreeMap.length_toList, (perm_toList_insert h).length_eq, List.length_cons,
    Std.TreeMap.length_toList]

theorem map_fst_toList (m : DigestMap V) : m.toList.map Prod.fst = m.keys :=
  Std.TreeMap.map_fst_toList_eq_keys

end Maps

variable {sha256 : List UInt8 → Digest} {serde : Serialization} {c c' : Catalog}

/-- The commit that the members name for an artifact. -/
def originOf (c : Catalog) (id : ArtifactId) : Option Digest :=
  (c.members.find? fun member => decide (member.artifactId = id)).map MemberRow.commitId

theorem requireProgram_eq_ok {object : BinaryArtifact} :
    c.requireProgram sha256 serde object = .ok () ↔
      ∃ manifest, object.program sha256 serde = .ok manifest ∧
        ∀ m ∈ manifest, c.requireComplete sha256 serde m = .ok () := by
  unfold requireProgram
  rw [bind_eq_ok]
  apply exists_congr
  intro manifest
  cases manifest with
  | none => simp [pure_eq_ok]
  | some m => simp

variable (sha256) (serde) in
/-- A stored artifact whose row, dependencies, program and commit are complete. -/
structure Stored (c : Catalog) (id : ArtifactId) (row : ArtifactRow)
    (dependencies : List ArtifactId) : Prop where
  stored : c.artifacts[id]? = some row
  checked : checkRow sha256 serde id row = .ok ()
  read : c.readDependencies id = .ok dependencies
  program : c.requireProgram sha256 serde (recordOf id row dependencies).object = .ok ()
  origin : c.originOf id = some row.originCommit
  commit : c.commits.contains row.originCommit = true
  ordered : ¬ c.Unordered id row.replayOrder

theorem readRecord_eq_some {id : ArtifactId} {record : Record} :
    c.readRecord sha256 serde id = .ok (some record) ↔
      ∃ row dependencies, Stored sha256 serde c id row dependencies ∧
        record = recordOf id row dependencies := by
  unfold readRecord
  cases hrow : c.artifacts[id]? with
  | none =>
    simp only [reduceCtorEq, Except.ok.injEq, false_iff]
    rintro ⟨row, dependencies, h, -⟩
    rw [h.stored] at hrow
    cases hrow
  | some row =>
    simp only [bind_eq_ok, require_eq_ok, pure_eq_ok, exists_const, Option.some.injEq]
    constructor
    · rintro ⟨_, hchecked, dependencies, hread, _, hprogram, horigin, hcommit, hordered, rfl⟩
      exact ⟨row, dependencies, ⟨hrow, hchecked, hread, hprogram, horigin, hcommit, hordered⟩, rfl⟩
    · rintro ⟨row', dependencies, h, rfl⟩
      obtain rfl : row = row' := Option.some.inj (hrow.symm.trans h.stored)
      exact ⟨(), h.checked, dependencies, h.read, (), h.program, h.origin, h.commit, h.ordered, rfl⟩

variable (sha256) (serde) in
/-- The later tables hold the rows of the earlier ones, and nothing more about their artifacts. -/
structure Extends (c c' : Catalog) : Prop where
  artifacts : ∀ (id : ArtifactId) (row : ArtifactRow), c.artifacts[id]? = some row → c'.artifacts[id]? = some row
  dependencies : ∀ id, c.artifacts.contains id = true →
    (c'.dependencies.filter fun row => decide (row.artifactId = id)) =
      c.dependencies.filter fun row => decide (row.artifactId = id)
  members : ∃ rows, c'.members = c.members ++ rows
  commits : ∀ (commit : Digest) (row : CommitRow), c.commits[commit]? = some row → c'.commits[commit]? = some row
  complete : ∀ m, c.requireComplete sha256 serde m = .ok () → c'.requireComplete sha256 serde m = .ok ()

theorem Extends.contains_commits (h : Extends sha256 serde c c') {commit : Digest}
    (hcommit : c.commits.contains commit = true) : c'.commits.contains commit = true := by
  obtain ⟨row, hrow⟩ := contains_eq_true.1 hcommit
  exact contains_eq_true.2 ⟨row, h.commits commit row hrow⟩

theorem Extends.originOf (h : Extends sha256 serde c c') {id : ArtifactId} {commit : Digest}
    (horigin : c.originOf id = some commit) : c'.originOf id = some commit := by
  obtain ⟨rows, hrows⟩ := h.members
  obtain ⟨member, hmember, rfl⟩ := Option.map_eq_some_iff.mp horigin
  unfold Catalog.originOf
  rw [hrows, List.find?_append, hmember]
  rfl

theorem Extends.mem_dependencies (h : Extends sha256 serde c c') {id : ArtifactId}
    (hid : c.artifacts.contains id = true) {row : DependencyRow} (hrow : row.artifactId = id) :
    row ∈ c'.dependencies ↔ row ∈ c.dependencies := by
  have hfilter := h.dependencies id hid
  have hmem : ∀ rows : List DependencyRow,
      row ∈ rows ↔ row ∈ rows.filter fun row => decide (row.artifactId = id) := by
    intro rows
    simp [hrow]
  rw [hmem c'.dependencies, hmem c.dependencies, hfilter]

/-- Nothing that is added changes a stored record. -/
theorem Extends.stored (h : Extends sha256 serde c c') {id : ArtifactId} {row : ArtifactRow}
    {dependencies : List ArtifactId} (hstored : Stored sha256 serde c id row dependencies) :
    Stored sha256 serde c' id row dependencies := by
  have hid : c.artifacts.contains id = true := contains_eq_true.2 ⟨row, hstored.stored⟩
  constructor
  · exact h.artifacts id row hstored.stored
  · exact hstored.checked
  · rw [← hstored.read, readDependencies, dependencyRows, h.dependencies id hid]
    rfl
  · obtain ⟨manifest, hprogram, hcomplete⟩ := requireProgram_eq_ok.1 hstored.program
    exact requireProgram_eq_ok.2 ⟨manifest, hprogram, fun m hm => h.complete m (hcomplete m hm)⟩
  · exact h.originOf hstored.origin
  · exact h.contains_commits hstored.commit
  · intro hunordered
    obtain ⟨dependency, hdependency, hartifact, htarget⟩ := hunordered
    refine hstored.ordered ⟨dependency, (h.mem_dependencies hid hartifact).mp hdependency, hartifact, ?_⟩
    intro target hsome
    exact htarget target (h.artifacts _ _ hsome)

theorem Extends.readRecord (h : Extends sha256 serde c c') {id : ArtifactId} {record : Record}
    (hread : c.readRecord sha256 serde id = .ok (some record)) :
    c'.readRecord sha256 serde id = .ok (some record) := by
  obtain ⟨row, dependencies, hstored, rfl⟩ := readRecord_eq_some.1 hread
  exact readRecord_eq_some.2 ⟨row, dependencies, h.stored hstored, rfl⟩

/-- The rows of the dependencies of a member. -/
def dependencyRowsOf (member : Member) : List DependencyRow :=
  member.dependencies.zipIdx.map fun entry => ⟨member.id, entry.2, entry.1⟩

theorem sqlWidth_eq_ok {value u : ℕ} : sqlWidth value = .ok u ↔ value < i64Limit ∧ value = u := by
  simp only [sqlWidth, bind_eq_ok, require_eq_ok, pure_eq_ok, exists_const]

theorem insertDependencies_eq_ok {member : Member} (h : c.insertDependencies member = .ok c') :
    c' = { c with dependencies := c.dependencies ++ dependencyRowsOf member } := by
  have hfold : ∀ (entries : List (ArtifactId × ℕ)) (c : Catalog),
      entries.foldlM (fun c entry => do
        let ordinal ← sqlWidth entry.2
        c.insertDependencyRow ⟨member.id, ordinal, entry.1⟩) c = .ok c' →
      c' = { c with dependencies :=
        c.dependencies ++ entries.map (fun entry => ⟨member.id, entry.2, entry.1⟩) } := by
    intro entries
    induction entries with
    | nil =>
      intro c h
      cases pure_eq_ok.mp h
      simp
    | cons entry entries ih =>
      intro c h
      obtain ⟨c₁, hc₁, h⟩ := foldlM_cons_eq_ok.mp h
      simp only [insertDependencyRow, bind_eq_ok, sqlWidth_eq_ok, require_eq_ok, pure_eq_ok,
        exists_const] at hc₁
      obtain ⟨_, ⟨-, rfl⟩, -, rfl⟩ := hc₁
      rw [ih _ h]
      simp
  exact hfold _ _ h

/-- The tables after the rows of some objects were added. -/
structure Appended (commit : Digest) (precedingCount : ℕ) (objects : List Prepared)
    (c c' : Catalog) : Prop where
  metadata : c'.metadata = c.metadata
  commits : c'.commits = c.commits
  staging : c'.staging = c.staging
  artifacts : c'.artifacts.toList.Perm
    (objects.map (fun o => (o.member.id, rowOf commit precedingCount o)) ++ c.artifacts.toList)
  dependencies : c'.dependencies = c.dependencies ++ objects.flatMap fun o => dependencyRowsOf o.member
  members : c'.members = c.members ++ objects.map fun o => ⟨commit, o.member.id⟩
  fresh : ∀ o ∈ objects, c.artifacts.contains o.member.id = false

variable {commit : Digest} {precedingCount : ℕ} {test : Bool} {cut : Option BatchCut}

theorem insertObject_eq_ok {object : Prepared}
    (h : insertObject commit precedingCount test cut c object = .ok c') :
    Appended commit precedingCount [object] c c' := by
  simp only [insertObject, bind_eq_ok, require_eq_ok, sqlWidth_eq_ok, pure_eq_ok, insertArtifactRow,
    insertMemberRow, exists_const, mapError_eq_ok] at h
  obtain ⟨hfresh, order, -, order', -, _, -, _, -, _, ⟨-, rfl⟩, c₂, hc₂, _, ⟨-, rfl⟩, _, -, rfl⟩ := h
  rw [insertDependencies_eq_ok hc₂]
  refine ⟨rfl, rfl, rfl, perm_toList_insert hfresh, by simp, rfl, ?_⟩
  intro o ho
  rw [List.mem_singleton.mp ho]
  exact hfresh

theorem Appended.mem_toList_of_mem {objects : List Prepared}
    (h : Appended commit precedingCount objects c c') {id : ArtifactId}
    (hid : c.artifacts.contains id = true) : c'.artifacts.contains id = true := by
  obtain ⟨row, hrow⟩ := contains_eq_true.1 hid
  have hmem : (id, row) ∈ c.artifacts.toList := mem_toList.2 hrow
  have hmem' := h.artifacts.mem_iff.mpr (List.mem_append_right _ hmem)
  exact contains_eq_true.2 ⟨row, mem_toList.1 hmem'⟩

theorem Appended.trans {c₁ c₂ : Catalog} {a b : List Prepared}
    (h : Appended commit precedingCount a c c₁) (h' : Appended commit precedingCount b c₁ c₂) :
    Appended commit precedingCount (a ++ b) c c₂ := by
  constructor
  · rw [h'.metadata, h.metadata]
  · rw [h'.commits, h.commits]
  · rw [h'.staging, h.staging]
  · rw [List.map_append, List.append_assoc]
    refine h'.artifacts.trans ((List.Perm.append_left _ h.artifacts).trans ?_)
    rw [← List.append_assoc, ← List.append_assoc]
    exact List.perm_append_comm.append_right _
  · rw [h'.dependencies, h.dependencies, List.flatMap_append, List.append_assoc]
  · rw [h'.members, h.members, List.map_append, List.append_assoc]
  · intro o ho
    rcases List.mem_append.mp ho with ho | ho
    · exact h.fresh o ho
    · by_contra hold
      rw [Bool.not_eq_false] at hold
      have hcontains := h.mem_toList_of_mem hold
      rw [h'.fresh o ho] at hcontains
      cases hcontains

theorem foldlM_insertObject {objects : List Prepared}
    (h : objects.foldlM (insertObject commit precedingCount test cut) c = .ok c') :
    Appended commit precedingCount objects c c' := by
  induction objects generalizing c with
  | nil =>
    cases pure_eq_ok.mp h
    exact ⟨rfl, rfl, rfl, .refl _, by simp, by simp, by simp⟩
  | cons object objects ih =>
    obtain ⟨c₁, hc₁, h⟩ := foldlM_cons_eq_ok.mp h
    exact (insertObject_eq_ok hc₁).trans (ih h)

variable (sha256) in
/-- The object at a position of a batch, as it is prepared. -/
def preparedAt (object : BinaryArtifact) (position : ℕ) : Prepared :=
  ⟨memberOf sha256 object, object.bytes, position⟩

variable (sha256) in
/-- Every object of a batch is prepared under its identity, with its position. -/
structure Positioned (objects : List BinaryArtifact) (prepared : DigestMap Prepared) : Prop where
  size : prepared.size = objects.length
  entry : ∀ id p, prepared[id]? = some p ↔
    ∃ object i, objects[i]? = some object ∧ object.id = id ∧ p = preparedAt sha256 object i

variable {limits : BatchLimits} {objects : List BinaryArtifact} {prepared : DigestMap Prepared}

theorem Positioned.prepareObject (h : Positioned sha256 objects prepared) {object : BinaryArtifact}
    {bytes : ℕ} {state : DigestMap Prepared × ℕ}
    (hstep : prepareObject sha256 limits (prepared, bytes) object = .ok state) :
    Positioned sha256 (objects ++ [object]) state.1 := by
  simp only [Catalog.prepareObject, bind_eq_ok, require_eq_ok, pure_eq_ok, exists_const,
    mapError_eq_ok] at hstep
  obtain ⟨-, total, -, -, hfresh, rfl⟩ := hstep
  constructor
  · rw [size_insert_of_new hfresh, h.size, List.length_append, List.length_singleton]
  · intro id p
    rw [getElem?_insert]
    split_ifs with hid
    · subst hid
      rw [Option.some.injEq]
      constructor
      · rintro rfl
        exact ⟨object, objects.length, by simp, rfl, by rw [preparedAt, h.size]⟩
      · rintro ⟨other, i, hi, hother, rfl⟩
        rcases Nat.lt_or_ge i objects.length with hlt | hge
        · rw [List.getElem?_append_left hlt] at hi
          have hsome := (h.entry _ _).mpr ⟨other, i, hi, hother, rfl⟩
          rw [contains_eq_false.1 hfresh] at hsome
          cases hsome
        · rw [List.getElem?_append_right hge, List.getElem?_singleton] at hi
          split_ifs at hi with hzero
          cases hi
          rw [preparedAt, h.size]
          congr 1
          omega
    · rw [h.entry]
      apply exists_congr
      intro other
      apply exists_congr
      intro i
      rcases Nat.lt_or_ge i objects.length with hlt | hge
      · rw [List.getElem?_append_left hlt]
      · rw [List.getElem?_append_right hge, List.getElem?_singleton,
          List.getElem?_eq_none hge]
        constructor
        · rintro ⟨hnone, -⟩
          cases hnone
        · rintro ⟨hsome, hother, -⟩
          split_ifs at hsome
          cases hsome
          exact absurd hother hid

theorem positioned_prepare (h : prepare sha256 limits objects = .ok prepared) :
    Positioned sha256 objects prepared := by
  have hfold : ∀ (rest done : List BinaryArtifact) (state state' : DigestMap Prepared × ℕ),
      Positioned sha256 done state.1 →
      rest.foldlM (Catalog.prepareObject sha256 limits) state = .ok state' →
      Positioned sha256 (done ++ rest) state'.1 := by
    intro rest
    induction rest with
    | nil =>
      intro done state state' hdone hrest
      cases pure_eq_ok.mp hrest
      rwa [List.append_nil]
    | cons object rest ih =>
      intro done state state' hdone hrest
      obtain ⟨state₁, hstep, hrest⟩ := foldlM_cons_eq_ok.mp hrest
      have hnext := ih (done ++ [object]) state₁ state' (hdone.prepareObject hstep) hrest
      rwa [List.append_assoc, List.singleton_append] at hnext
  simp only [prepare, bind_eq_ok, require_eq_ok, pure_eq_ok, exists_const, Prod.exists] at h
  obtain ⟨prepared', bytes, hfolded, -, rfl⟩ := h
  refine hfold objects [] (∅, 0) _ ?_ hfolded
  constructor
  · rfl
  · intro id p
    simp

end Naome.Catalog
