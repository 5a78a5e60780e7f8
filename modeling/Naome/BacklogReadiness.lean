import Naome.DependencyScheduler
import Naome.ProofBacklog

/-!
# Readiness of the proof backlog

The index of a scheduled backlog is a function of its rows and of the checked context, and paging
comes around to every ready row.
-/
namespace Naome
open Effect Outcome

namespace PendingStore

variable {s : PendingStore} {context : Finset ArtifactId}

/-- Rows in the order of their keys. -/
abbrev Ascending (rows : List (ℕ × Candidate)) : Prop := rows.Pairwise fun r r' => r.1 < r'.1

theorem Ascending.unique {rows : List (ℕ × Candidate)} (h : Ascending rows) {sequence : ℕ}
    {c c' : Candidate} (hc : (sequence, c) ∈ rows) (hc' : (sequence, c') ∈ rows) : c = c' := by
  induction rows with
  | nil => cases hc
  | cons r rows ih =>
    rw [Ascending, List.pairwise_cons] at h
    obtain ⟨hfirst, hrest⟩ := h
    rcases List.mem_cons.mp hc with heq | hmem
    · rcases List.mem_cons.mp hc' with heq' | hmem'
      · exact congrArg Prod.snd (heq.trans heq'.symm)
      · have hlt := hfirst _ hmem'
        rw [← heq] at hlt
        exact absurd hlt (lt_irrefl _)
    · rcases List.mem_cons.mp hc' with heq' | hmem'
      · have hlt := hfirst _ hmem
        rw [← heq'] at hlt
        exact absurd hlt (lt_irrefl _)
      · exact ih hrest hmem hmem'

/-- The other rows, when one is taken out by its key. -/
theorem Ascending.perm_filter {rows : List (ℕ × Candidate)} (h : Ascending rows) {sequence : ℕ}
    {c : Candidate} (hc : (sequence, c) ∈ rows) :
    rows.Perm ((sequence, c) :: rows.filter fun r => r.1 ≠ sequence) := by
  classical
  have hnodup : rows.Nodup := by
    apply h.imp
    intro r r' hlt heq
    rw [heq] at hlt
    exact lt_irrefl _ hlt
  have herase : rows.erase (sequence, c) = rows.filter fun r => r.1 ≠ sequence := by
    rw [hnodup.erase_eq_filter]
    apply List.filter_congr
    rintro ⟨k, c'⟩ hr
    rw [Bool.eq_iff_iff, bne_iff_ne, decide_eq_true_eq]
    constructor
    · intro hne hk
      dsimp only at hk
      subst hk
      exact hne (by rw [h.unique hr hc])
    · intro hne heq
      exact hne (congrArg Prod.fst heq)
  rw [← herase]
  exact List.perm_cons_erase hc

theorem row_eq_some (h : Ascending s.pending) {sequence : ℕ} {c : Candidate} :
    s.row sequence = some c ↔ (sequence, c) ∈ s.pending := by
  unfold row
  constructor
  · intro hrow
    obtain ⟨⟨k, c'⟩, hfind, rfl⟩ := Option.map_eq_some_iff.mp hrow
    have hkey := List.find?_some hfind
    have hmem := List.mem_of_find?_eq_some hfind
    simp only [decide_eq_true_eq] at hkey
    subst hkey
    exact hmem
  · intro hmem
    cases hfind : s.pending.find? fun r => r.1 = sequence with
    | none =>
      have := List.find?_eq_none.mp hfind _ hmem
      simp at this
    | some r =>
      obtain ⟨k, c'⟩ := r
      have hkey := List.find?_some hfind
      have hmem' := List.mem_of_find?_eq_some hfind
      simp only [decide_eq_true_eq] at hkey
      subst hkey
      rw [h.unique hmem hmem']
      rfl

/-- A row behind all others is put at the end. -/
theorem put_eq_append {rows : List (ℕ × Candidate)} {sequence : ℕ}
    (h : ∀ r ∈ rows, r.1 < sequence) (c : Candidate) :
    put rows sequence c = rows ++ [(sequence, c)] := by
  unfold put
  rw [List.filter_eq_self.mpr (by simpa using h), List.filter_eq_nil_iff.mpr]
  intro r hr
  have := h r hr
  simp only [decide_eq_true_eq, not_lt]
  omega

/-- The tables hold the readiness of these rows. -/
structure Indexes (rows : List (ℕ × Candidate)) (context : Finset ArtifactId) (ready : Finset ℕ)
    (waiting : Finset (ArtifactId × ℕ)) : Prop where
  ready_iff : ∀ sequence, sequence ∈ ready ↔
    ∃ c, (sequence, c) ∈ rows ∧ c.dependencies ⊆ context
  waiting_iff : ∀ id sequence, (id, sequence) ∈ waiting ↔
    ∃ c, (sequence, c) ∈ rows ∧ id ∈ c.dependencies ∧ id ∉ context

theorem Indexes.empty (context : Finset ArtifactId) : Indexes [] context ∅ ∅ := by
  constructor
  · simp
  · simp

/-- A row that is not in the tables is entered. -/
theorem run_scheduleOne {rows : List (ℕ × Candidate)}
    (h : Indexes rows context s.ready s.waiting) {sequence : ℕ} {c : Candidate}
    (hnew : ∀ r ∈ rows, r.1 ≠ sequence) :
    ∃ ready waiting, (scheduleOne sequence c.dependencies context).run s =
      (.ok (), { s with ready, waiting }) ∧
      Indexes (rows ++ [(sequence, c)]) context ready waiting := by
  have hready : sequence ∉ s.ready := by
    intro hmem
    obtain ⟨c', hc', -⟩ := (h.ready_iff sequence).mp hmem
    exact hnew _ hc' rfl
  have hwaiting : ∀ id, (id, sequence) ∉ s.waiting := by
    intro id hmem
    obtain ⟨c', hc', -⟩ := (h.waiting_iff id sequence).mp hmem
    exact hnew _ hc' rfl
  have hmem : ∀ k c', (k, c') ∈ rows ++ [(sequence, c)] ↔
      (k, c') ∈ rows ∨ (k = sequence ∧ c' = c) := by simp
  by_cases hmissing : c.dependencies \ context = ∅
  · have hsubset : c.dependencies ⊆ context := Finset.sdiff_eq_empty_iff_subset.mp hmissing
    refine ⟨Insert.insert sequence s.ready, s.waiting, ?_, ?_, ?_⟩
    · simp only [scheduleOne, run_bind, run_state, hmissing, if_true, run_require, run_modify,
        if_pos hready]
    · intro k
      rw [Finset.mem_insert, h.ready_iff]
      constructor
      · rintro (rfl | ⟨c', hc', hsub⟩)
        · exact ⟨c, (hmem _ _).mpr (.inr ⟨rfl, rfl⟩), hsubset⟩
        · exact ⟨c', (hmem _ _).mpr (.inl hc'), hsub⟩
      · rintro ⟨c', hc', hsub⟩
        rcases (hmem _ _).mp hc' with hold | ⟨rfl, rfl⟩
        · exact .inr ⟨c', hold, hsub⟩
        · exact .inl rfl
    · intro id k
      rw [h.waiting_iff]
      constructor
      · rintro ⟨c', hc', hrest⟩
        exact ⟨c', (hmem _ _).mpr (.inl hc'), hrest⟩
      · rintro ⟨c', hc', hid, hcontext⟩
        rcases (hmem _ _).mp hc' with hold | ⟨rfl, rfl⟩
        · exact ⟨c', hold, hid, hcontext⟩
        · exact absurd (hsubset hid) hcontext
  · have hsubset : ¬c.dependencies ⊆ context := by
      intro hsub
      exact hmissing (Finset.sdiff_eq_empty_iff_subset.mpr hsub)
    refine ⟨s.ready, s.waiting ∪ (c.dependencies \ context).image fun id => (id, sequence), ?_, ?_,
      ?_⟩
    · have hfresh : ∀ id ∈ c.dependencies \ context, (id, sequence) ∉ s.waiting :=
        fun id _ => hwaiting id
      simp only [scheduleOne, run_bind, run_state, if_neg hmissing, run_require, run_modify,
        if_pos hfresh]
    · intro k
      rw [h.ready_iff]
      constructor
      · rintro ⟨c', hc', hsub⟩
        exact ⟨c', (hmem _ _).mpr (.inl hc'), hsub⟩
      · rintro ⟨c', hc', hsub⟩
        rcases (hmem _ _).mp hc' with hold | ⟨rfl, rfl⟩
        · exact ⟨c', hold, hsub⟩
        · exact absurd hsub hsubset
    · intro id k
      rw [Finset.mem_union, h.waiting_iff]
      constructor
      · rintro (⟨c', hc', hrest⟩ | himage)
        · exact ⟨c', (hmem _ _).mpr (.inl hc'), hrest⟩
        · obtain ⟨id', hid', heq⟩ := Finset.mem_image.mp himage
          cases heq
          obtain ⟨hin, hout⟩ := Finset.mem_sdiff.mp hid'
          exact ⟨c, (hmem _ _).mpr (.inr ⟨rfl, rfl⟩), hin, hout⟩
      · rintro ⟨c', hc', hid, hcontext⟩
        rcases (hmem _ _).mp hc' with hold | ⟨rfl, rfl⟩
        · exact .inl ⟨c', hold, hid, hcontext⟩
        · exact .inr (Finset.mem_image.mpr ⟨id, Finset.mem_sdiff.mpr ⟨hid, hcontext⟩, rfl⟩)

/-- Scheduling enters the rows one by one. -/
theorem run_schedule (h : Ascending s.pending) (hscheduled : s.scheduled = false) :
    ∃ ready waiting, (schedule context).run s =
      (.ok (), { s with scheduled := true, ready, waiting }) ∧
      Indexes s.pending context ready waiting := by
  have hloop : ∀ (rest rows : List (ℕ × Candidate)) (t : PendingStore),
      Ascending (rows ++ rest) → Indexes rows context t.ready t.waiting →
      ∃ ready waiting, (Effect.forEach (fun r => scheduleOne r.1 r.2.dependencies context) rest).run t
        = (.ok (), { t with ready, waiting }) ∧ Indexes (rows ++ rest) context ready waiting := by
    intro rest
    induction rest with
    | nil =>
      intro rows t _ ht
      refine ⟨t.ready, t.waiting, rfl, ?_⟩
      rwa [List.append_nil]
    | cons r rest ih =>
      intro rows t hordered ht
      have hnew : ∀ r' ∈ rows, r'.1 ≠ r.1 := by
        intro r' hr'
        have hlt := (List.pairwise_append.mp hordered).2.2 r' hr' r List.mem_cons_self
        omega
      obtain ⟨ready, waiting, hrun, hindexes⟩ := run_scheduleOne ht (c := r.2) hnew
      have happend : rows ++ r :: rest = (rows ++ [(r.1, r.2)]) ++ rest := by simp
      rw [happend] at hordered ⊢
      obtain ⟨ready', waiting', hrun', hindexes'⟩ :=
        ih (rows ++ [(r.1, r.2)]) { t with ready, waiting } hordered hindexes
      refine ⟨ready', waiting', ?_, hindexes'⟩
      change (scheduleOne r.1 r.2.dependencies context >>= fun _ => Effect.forEach _ rest).run t = _
      rw [run_bind, hrun]
      exact hrun'
  obtain ⟨ready, waiting, hrun, hindexes⟩ :=
    hloop s.pending [] { s with ready := ∅, waiting := ∅ } (by simpa using h) (.empty context)
  refine ⟨ready, waiting, ?_, by simpa using hindexes⟩
  rw [schedule, run_bind, run_state]
  dsimp only
  rw [if_neg (by simp [hscheduled]), run_bind, run_modify]
  dsimp only
  rw [run_bind, hrun]
  rfl

/-- An artifact that enters the context wakes exactly the rows that miss nothing else. -/
theorem Indexes.accepted {rows : List (ℕ × Candidate)} (hrows : Ascending rows) {ready : Finset ℕ}
    {waiting : Finset (ArtifactId × ℕ)} (h : Indexes rows context ready waiting) (id : ArtifactId) :
    Indexes rows (Insert.insert id context)
      (ready ∪ ((waiting.filter fun w : ArtifactId × ℕ => w.1 = id).image Prod.snd).filter
        fun sequence => ∀ w ∈ waiting.filter (fun w : ArtifactId × ℕ => w.1 ≠ id), w.2 ≠ sequence)
      (waiting.filter fun w : ArtifactId × ℕ => w.1 ≠ id) := by
  constructor
  · intro k
    rw [Finset.mem_union, Finset.mem_filter, Finset.mem_image, h.ready_iff]
    constructor
    · rintro (⟨c, hc, hsub⟩ | ⟨⟨⟨id', k'⟩, hnotified, hkey⟩, hnone⟩)
      · exact ⟨c, hc, hsub.trans (Finset.subset_insert _ _)⟩
      · obtain ⟨hmem, hid⟩ := Finset.mem_filter.mp hnotified
        dsimp only at hkey hid
        subst hkey hid
        obtain ⟨c, hc, -⟩ := (h.waiting_iff _ _).mp hmem
        refine ⟨c, hc, ?_⟩
        intro d hd
        by_contra hout
        rw [Finset.mem_insert, not_or] at hout
        have hwaits : (d, k') ∈ waiting := (h.waiting_iff _ _).mpr ⟨c, hc, hd, hout.2⟩
        exact hnone _ (Finset.mem_filter.mpr ⟨hwaits, hout.1⟩) rfl
    · rintro ⟨c, hc, hsub⟩
      by_cases hold : c.dependencies ⊆ context
      · exact .inl ⟨c, hc, hold⟩
      · obtain ⟨d, hd, hout⟩ := Finset.not_subset.mp hold
        have heq : d = id := by
          rcases Finset.mem_insert.mp (hsub hd) with heq | hin
          · exact heq
          · exact absurd hin hout
        subst heq
        have hwaits : (d, k) ∈ waiting := (h.waiting_iff _ _).mpr ⟨c, hc, hd, hout⟩
        refine .inr ⟨⟨(d, k), Finset.mem_filter.mpr ⟨hwaits, rfl⟩, rfl⟩, ?_⟩
        rintro ⟨d', k'⟩ hw hkey
        obtain ⟨hw, hne⟩ := Finset.mem_filter.mp hw
        dsimp only at hkey hne
        subst hkey
        obtain ⟨c', hc', hd', hout'⟩ := (h.waiting_iff _ _).mp hw
        obtain rfl := hrows.unique hc hc'
        rcases Finset.mem_insert.mp (hsub hd') with heq | hin
        · exact hne heq
        · exact hout' hin
  · intro d k
    rw [Finset.mem_filter, h.waiting_iff]
    constructor
    · rintro ⟨⟨c, hc, hd, hout⟩, hne⟩
      refine ⟨c, hc, hd, ?_⟩
      rw [Finset.mem_insert, not_or]
      exact ⟨hne, hout⟩
    · rintro ⟨c, hc, hd, hout⟩
      rw [Finset.mem_insert, not_or] at hout
      exact ⟨⟨c, hc, hd, hout.2⟩, hout.1⟩

theorem run_accepted (hrows : Ascending s.pending) (hscheduled : s.scheduled = true)
    (h : Indexes s.pending context s.ready s.waiting) (id : ArtifactId) :
    ∃ ready waiting, (accepted id).run s = (.ok (), { s with ready, waiting }) ∧
      Indexes s.pending (Insert.insert id context) ready waiting := by
  refine ⟨_, _, ?_, h.accepted hrows id⟩
  rw [PendingStore.accepted, run_bind, run_state]
  dsimp only
  rw [if_neg (by simp [hscheduled])]
  rfl

theorem Indexes.remove {rows : List (ℕ × Candidate)} {ready : Finset ℕ}
    {waiting : Finset (ArtifactId × ℕ)} (h : Indexes rows context ready waiting) (sequence : ℕ) :
    Indexes (rows.filter fun r => r.1 ≠ sequence) context (ready.erase sequence)
      (waiting.filter fun w => w.2 ≠ sequence) := by
  constructor
  · intro k
    rw [Finset.mem_erase, h.ready_iff]
    simp only [List.mem_filter, decide_eq_true_eq]
    constructor
    · rintro ⟨hne, c, hc, hsub⟩
      exact ⟨c, ⟨hc, hne⟩, hsub⟩
    · rintro ⟨c, ⟨hc, hne⟩, hsub⟩
      exact ⟨hne, c, hc, hsub⟩
  · intro id k
    rw [Finset.mem_filter, h.waiting_iff]
    simp only [List.mem_filter, decide_eq_true_eq]
    constructor
    · rintro ⟨⟨c, hc, hrest⟩, hne⟩
      exact ⟨c, ⟨hc, hne⟩, hrest⟩
    · rintro ⟨c, ⟨hc, hne⟩, hrest⟩
      exact ⟨⟨c, hc, hrest⟩, hne⟩

/-- The tables agree with the artifacts that are held. -/
structure Coherent (s : PendingStore) (held : List Candidate) : Prop where
  ascending : Ascending s.pending
  bounds : ∀ r ∈ s.pending, 0 < r.1 ∧ r.1 < s.header.next
  next_pos : 0 < s.header.next
  stored_next : s.stored.next = s.header.next
  identity : ∀ id sequence, s.proof[id]? = some sequence ↔
    ∃ c, (sequence, c) ∈ s.pending ∧ c.id = id
  edges : ∀ id dependency, (id, dependency) ∈ s.edge ↔
    ∃ c ∈ held, c.id = id ∧ dependency ∈ c.dependencies
  proof_size : s.proof.size = s.pending.length
  edge_card : s.edge.card = (s.pending.map fun r => r.2.dependencies.card).sum
  held_eq : s.pending.map Prod.snd = held

variable {held : List Candidate}

theorem Coherent.mem_held (h : s.Coherent held) {c : Candidate} :
    c ∈ held ↔ ∃ sequence, (sequence, c) ∈ s.pending := by
  rw [← h.held_eq, List.mem_map]
  constructor
  · rintro ⟨⟨k, c'⟩, hmem, heq⟩
    cases heq
    exact ⟨k, hmem⟩
  · rintro ⟨k, hmem⟩
    exact ⟨_, hmem, rfl⟩

theorem Coherent.created : PendingStore.created.Coherent [] := by
  constructor
  · exact List.Pairwise.nil
  · simp [PendingStore.created]
  · exact Nat.one_pos
  · rfl
  · simp [PendingStore.created]
  · simp [PendingStore.created]
  · rfl
  · rfl
  · rfl

/-- The volatile fields are not part of it. -/
theorem Coherent.volatile (h : s.Coherent held) (scheduled : Bool) (ready : Finset ℕ)
    (waiting : Finset (ArtifactId × ℕ)) (cursor : Option ℕ) :
    Coherent { s with scheduled, ready, waiting, header := { s.header with cursor } } held :=
  ⟨h.ascending, h.bounds, h.next_pos, h.stored_next, h.identity, h.edges, h.proof_size, h.edge_card,
    h.held_eq⟩

/-- The rows of a retained artifact. -/
theorem Coherent.insert (h : s.Coherent held) {c : Candidate} (hnew : s.contains c.id = false) :
    Coherent { s with
      pending := put s.pending s.header.next c
      proof := s.proof.insert c.id s.header.next
      edge := s.edge ∪ c.dependencies.image fun id => (c.id, id)
      stored := { s.header with next := s.header.next + 1 }
      header := { s.header with next := s.header.next + 1 } } (held ++ [c]) := by
  have hput := put_eq_append (fun r hr => (h.bounds r hr).2) c
  have hmem : c.id ∉ s.proof := by
    intro hmem
    rw [contains, Std.TreeMap.contains_iff_mem.mpr hmem] at hnew
    cases hnew
  have hnone : s.proof[c.id]? = none := Std.TreeMap.getElem?_eq_none hmem
  have hfresh : ∀ c' ∈ held, c'.id ≠ c.id := by
    intro c' hc' heq
    obtain ⟨k, hk⟩ := h.mem_held.mp hc'
    have hsome := (h.identity c.id k).mpr ⟨c', hk, heq⟩
    rw [hnone] at hsome
    cases hsome
  constructor
  · dsimp only
    rw [hput, Ascending, List.pairwise_append]
    refine ⟨h.ascending, List.pairwise_singleton _ _, ?_⟩
    intro r hr r' hr'
    rw [List.mem_singleton] at hr'
    subst hr'
    exact (h.bounds r hr).2
  · dsimp only
    rw [hput]
    intro r hr
    rcases List.mem_append.mp hr with hold | hlast
    · have := h.bounds r hold
      omega
    · rw [List.mem_singleton] at hlast
      subst hlast
      exact ⟨h.next_pos, Nat.lt_succ_self _⟩
  · exact Nat.succ_pos _
  · rfl
  · intro id k
    dsimp only
    rw [hput, Dependencies.getElem?_insert]
    by_cases hid : c.id = id
    · rw [if_pos hid]
      subst hid
      constructor
      · intro hk
        cases hk
        exact ⟨c, by simp, rfl⟩
      · rintro ⟨c', hmem, heq⟩
        rcases List.mem_append.mp hmem with hold | hlast
        · exact absurd heq (hfresh c' (h.mem_held.mpr ⟨k, hold⟩))
        · rw [List.mem_singleton] at hlast
          cases hlast
          rfl
    · rw [if_neg hid, h.identity]
      constructor
      · rintro ⟨c', hmem, heq⟩
        exact ⟨c', List.mem_append_left _ hmem, heq⟩
      · rintro ⟨c', hmem, heq⟩
        rcases List.mem_append.mp hmem with hold | hlast
        · exact ⟨c', hold, heq⟩
        · rw [List.mem_singleton] at hlast
          cases hlast
          exact absurd heq hid
  · intro id dependency
    rw [Finset.mem_union, h.edges, Finset.mem_image]
    constructor
    · rintro (⟨c', hc', hrest⟩ | ⟨d, hd, heq⟩)
      · exact ⟨c', List.mem_append_left _ hc', hrest⟩
      · cases heq
        exact ⟨c, by simp, rfl, hd⟩
    · rintro ⟨c', hc', heq, hd⟩
      rcases List.mem_append.mp hc' with hold | hlast
      · exact .inl ⟨c', hold, heq, hd⟩
      · rw [List.mem_singleton] at hlast
        subst hlast heq
        exact .inr ⟨dependency, hd, rfl⟩
  · dsimp only
    rw [hput, Std.TreeMap.size_insert, List.length_append, h.proof_size]
    simp [hmem]
  · dsimp only
    rw [hput, Finset.card_union_of_disjoint, Finset.card_image_of_injective, h.edge_card]
    · simp
    · intro a b hab
      exact congrArg Prod.snd hab
    · rw [Finset.disjoint_left]
      rintro ⟨id, dependency⟩ hold hnew
      obtain ⟨c', hc', heq, -⟩ := (h.edges id dependency).mp hold
      obtain ⟨d, -, heq'⟩ := Finset.mem_image.mp hnew
      cases heq'
      exact hfresh c' hc' heq
  · dsimp only
    rw [hput, List.map_append, h.held_eq]
    rfl

/-- A row has the sequence of an artifact where it holds that artifact. -/
theorem Coherent.sequence_ne_iff (h : s.Coherent held) {sequence : ℕ} {c : Candidate}
    (hc : (sequence, c) ∈ s.pending) {r : ℕ × Candidate} (hr : r ∈ s.pending) :
    r.1 ≠ sequence ↔ r.2.id ≠ c.id := by
  obtain ⟨k, c'⟩ := r
  rw [not_iff_not]
  constructor
  · intro heq
    dsimp only at heq
    subst heq
    rw [h.ascending.unique hr hc]
  · intro heq
    have hk := (h.identity c.id k).mpr ⟨c', hr, heq⟩
    have hsequence := (h.identity c.id sequence).mpr ⟨c, hc, rfl⟩
    rw [hk] at hsequence
    exact Option.some.inj hsequence

/-- The other artifacts keep their sequences. -/
theorem Coherent.identity_remove (h : s.Coherent held) {sequence : ℕ} {c : Candidate}
    (hc : (sequence, c) ∈ s.pending) (id : ArtifactId) (k : ℕ) :
    (s.proof.erase c.id)[id]? = some k ↔
      ∃ c', (k, c') ∈ s.pending.filter (fun r => r.1 ≠ sequence) ∧ c'.id = id := by
  rw [Dependencies.getElem?_erase]
  by_cases hid : c.id = id
  · rw [if_pos hid]
    constructor
    · intro hk
      cases hk
    · rintro ⟨c', hmem, heq⟩
      obtain ⟨hr, hne⟩ := List.mem_filter.mp hmem
      rw [decide_eq_true_eq, h.sequence_ne_iff hc hr] at hne
      exact absurd (heq.trans hid.symm) hne
  · rw [if_neg hid, h.identity]
    constructor
    · rintro ⟨c', hr, heq⟩
      refine ⟨c', List.mem_filter.mpr ⟨hr, ?_⟩, heq⟩
      rw [decide_eq_true_eq, h.sequence_ne_iff hc hr]
      intro heq'
      exact hid (heq'.symm.trans heq)
    · rintro ⟨c', hmem, heq⟩
      exact ⟨c', (List.mem_filter.mp hmem).1, heq⟩

/-- The edges of the other artifacts stay. -/
theorem Coherent.edges_remove (h : s.Coherent held) {sequence : ℕ} {c : Candidate}
    (hc : (sequence, c) ∈ s.pending) (id dependency : ArtifactId) :
    (id, dependency) ∈ s.edge \ c.dependencies.image (fun dependency => (c.id, dependency)) ↔
      ∃ c' ∈ held.filter (fun c' => c'.id ≠ c.id), c'.id = id ∧ dependency ∈ c'.dependencies := by
  have hheld : ∀ c', c' ∈ held.filter (fun c' => c'.id ≠ c.id) ↔ c' ∈ held ∧ c'.id ≠ c.id := by
    intro c'
    rw [List.mem_filter, decide_eq_true_eq]
  rw [Finset.mem_sdiff, h.edges, Finset.mem_image]
  constructor
  · rintro ⟨⟨c', hc', heq, hd⟩, hnot⟩
    refine ⟨c', (hheld c').mpr ⟨hc', ?_⟩, heq, hd⟩
    intro hid
    obtain ⟨k, hk⟩ := h.mem_held.mp hc'
    have hkey : k = sequence := by
      by_contra hne
      exact (h.sequence_ne_iff hc hk).mp hne hid
    subst hkey
    obtain rfl := h.ascending.unique hk hc
    exact hnot ⟨dependency, hd, by rw [heq]⟩
  · rintro ⟨c', hc', heq, hd⟩
    obtain ⟨hold, hne⟩ := (hheld c').mp hc'
    refine ⟨⟨c', hold, heq, hd⟩, ?_⟩
    rintro ⟨d, _, hpair⟩
    exact hne (heq.trans (congrArg Prod.fst hpair).symm)

/-- The rows after a removal. -/
theorem Coherent.remove (h : s.Coherent held) {sequence : ℕ} {c : Candidate}
    (hc : (sequence, c) ∈ s.pending) :
    Coherent { s with
      pending := s.pending.filter fun r => r.1 ≠ sequence
      proof := s.proof.erase c.id
      edge := s.edge \ c.dependencies.image fun dependency => (c.id, dependency)
      stored := s.header } (held.filter fun c' => c'.id ≠ c.id) := by
  have hperm := h.ascending.perm_filter hc
  constructor
  · exact h.ascending.filter _
  · intro r hr
    exact h.bounds r (List.mem_filter.mp hr).1
  · exact h.next_pos
  · rfl
  · exact h.identity_remove hc
  · exact h.edges_remove hc
  · have hmem : c.id ∈ s.proof := by
      rw [Std.TreeMap.mem_iff_isSome_getElem?, (h.identity c.id sequence).mpr ⟨c, hc, rfl⟩]
      rfl
    have hlength := hperm.length_eq
    dsimp only
    rw [Std.TreeMap.size_erase, if_pos (Std.TreeMap.contains_iff_mem.mpr hmem), h.proof_size,
      hlength, List.length_cons, Nat.add_sub_cancel]
  · have hsubset : (c.dependencies.image fun dependency => (c.id, dependency)) ⊆ s.edge := by
      intro e he
      obtain ⟨d, hd, rfl⟩ := Finset.mem_image.mp he
      exact (h.edges c.id d).mpr ⟨c, h.mem_held.mpr ⟨sequence, hc⟩, rfl, hd⟩
    have hsum := (hperm.map fun r => r.2.dependencies.card).sum_eq
    rw [List.map_cons, List.sum_cons] at hsum
    dsimp only
    rw [Finset.card_sdiff_of_subset hsubset, h.edge_card, hsum, Finset.card_image_of_injective,
      Nat.add_sub_cancel_left]
    intro a b hab
    exact congrArg Prod.snd hab
  · dsimp only
    rw [← h.held_eq, List.filter_map]
    congr 1
    apply List.filter_congr
    intro r hr
    exact decide_eq_decide.mpr (h.sequence_ne_iff hc hr)

/-- The durable rows pass the checks of a restart. -/
theorem Coherent.reopen (h : s.Coherent held) : s.reopen =
    .ok { s with header := s.stored, scheduled := false, ready := ∅, waiting := ∅ } := by
  have hrow : ∀ r ∈ s.pending, s.checkRow r = .ok () := by
    rintro ⟨k, c⟩ hr
    obtain ⟨hpos, hlt⟩ := h.bounds _ hr
    rw [← h.stored_next] at hlt
    simp only [checkRow, bind_eq_ok, require_eq_ok, exists_and_left, exists_const]
    refine ⟨⟨hpos.ne', hlt⟩, (h.identity c.id k).mpr ⟨c, hr, rfl⟩, ?_⟩
    intro d hd
    exact (h.edges c.id d).mpr ⟨c, h.mem_held.mpr ⟨k, hr⟩, rfl, hd⟩
  have hrows : s.pending.forM s.checkRow = .ok () := by
    have hall : ∀ rows : List (ℕ × Candidate), (∀ r ∈ rows, s.checkRow r = .ok ()) →
        rows.forM s.checkRow = .ok () := by
      intro rows hrows
      induction rows with
      | nil => rfl
      | cons r rows ih =>
        change (do s.checkRow r; rows.forM s.checkRow) = .ok ()
        rw [hrows r List.mem_cons_self]
        exact ih fun r' hr' => hrows r' (List.mem_cons_of_mem _ hr')
    exact hall _ hrow
  have hnext : s.stored.next ≠ 0 := by
    rw [h.stored_next]
    exact h.next_pos.ne'
  simp only [PendingStore.reopen, bind_eq_ok, require_eq_ok, pure_eq_ok, exists_and_left,
    exists_const]
  exact ⟨hnext, (), hrows, ⟨h.proof_size, h.edge_card⟩, trivial⟩

section

variable {width : Candidate → ℕ} {closureBytes : ℕ}

/-- A page consists of the first keys, and it moves the cursor to the last of them. -/
theorem run_takePage {keys : List ℕ} (hkeys : ∀ k ∈ keys, ∃ c, s.row k = some c) (used : ℕ)
    (result : List Candidate) : ∃ taken rest page, keys = taken ++ rest ∧
      (takePage width closureBytes keys used result).run s = (.ok (result ++ page),
        { s with header := { s.header with cursor := taken.getLast?.or s.header.cursor } }) ∧
      (result = [] → keys ≠ [] → taken ≠ []) ∧
      ∀ k ∈ taken, ∀ c, s.row k = some c → c ∈ page := by
  induction keys generalizing s used result with
  | nil => exact ⟨[], [], [], rfl, by rw [List.append_nil]; rfl, fun _ hne => absurd rfl hne, by simp⟩
  | cons k keys ih =>
    obtain ⟨c, hc⟩ := hkeys k List.mem_cons_self
    by_cases hfull : result ≠ [] ∧ closureBytes - used < width c
    · refine ⟨[], k :: keys, [], rfl, ?_, fun hnil => absurd hnil hfull.1, by simp⟩
      rw [takePage, run_bind, run_state]
      dsimp only
      rw [hc, List.append_nil]
      change (if _ then _ else _ : Call (List Candidate)).run s = _
      rw [if_pos hfull]
      rfl
    · obtain ⟨taken, rest, page, hsplit, hrun, -, hpage⟩ :=
        @ih { s with header := { s.header with cursor := some k } }
          (fun k' hk' => hkeys k' (List.mem_cons_of_mem _ hk')) (used + width c) (result ++ [c])
      refine ⟨k :: taken, rest, c :: page, by rw [hsplit]; rfl, ?_, by simp, ?_⟩
      · rw [takePage, run_bind, run_state]
        dsimp only
        rw [hc]
        change (if _ then _ else _ : Call (List Candidate)).run s = _
        rw [if_neg hfull, run_bind, run_modify]
        dsimp only
        rw [hrun, List.append_assoc]
        congr 3
        cases hlast : taken.getLast? with
        | none =>
          rw [List.getLast?_eq_none_iff] at hlast
          subst hlast
          rfl
        | some last =>
          rw [List.getLast?_cons, hlast]
          rfl
      · intro k' hk' c' hc'
        rcases List.mem_cons.mp hk' with rfl | hmem
        · cases hc.symm.trans hc'
          exact List.mem_cons_self
        · exact List.mem_cons_of_mem _ (hpage k' hmem c' hc')

/-- How many keys a page can still move the cursor to before it comes to this one. -/
def distance (keys : Finset ℕ) (cursor : Option ℕ) (sequence : ℕ) : ℕ :=
  (keys.filter fun k =>
    if ∀ a ∈ cursor, a < sequence then (∀ a ∈ cursor, a < k) ∧ k ≤ sequence
    else (∀ a ∈ cursor, a < k) ∨ k ≤ sequence).card

/-- The cursor moves on towards a key, or it starts again before it. -/
theorem distance_lt {keys : Finset ℕ} {cursor : Option ℕ} {last sequence : ℕ} (hlast : last ∈ keys)
    (h : ((∀ a ∈ cursor, a < last) ∧ ((∀ a ∈ cursor, a < sequence) → last < sequence)) ∨
      (¬∀ a ∈ cursor, a < sequence) ∧ last < sequence) :
    distance keys (some last) sequence < distance keys cursor sequence := by
  unfold distance
  apply Finset.card_lt_card
  have hmem : ∀ k, k ∈ (keys.filter fun k =>
      if ∀ a ∈ some last, a < sequence then (∀ a ∈ some last, a < k) ∧ k ≤ sequence
      else (∀ a ∈ some last, a < k) ∨ k ≤ sequence) ↔
      k ∈ keys ∧ if last < sequence then last < k ∧ k ≤ sequence else last < k ∨ k ≤ sequence := by
    intro k
    simp
  rw [Finset.ssubset_iff_of_subset]
  · refine ⟨last, ?_, ?_⟩
    · rw [Finset.mem_filter]
      refine ⟨hlast, ?_⟩
      split_ifs with hafter
      · rcases h with ⟨hpassed, hlt⟩ | ⟨hnot, -⟩
        · exact ⟨hpassed, (hlt hafter).le⟩
        · exact absurd hafter hnot
      · rcases h with ⟨hpassed, -⟩ | ⟨-, hlt⟩
        · exact .inl hpassed
        · exact .inr hlt.le
    · rw [hmem]
      rintro ⟨_, hk⟩
      cases cursor with
      | none =>
        have hlt : last < sequence := by simpa using h
        rw [if_pos hlt] at hk
        omega
      | some a =>
        simp only [Option.mem_def, Option.some.injEq, forall_eq'] at h
        split_ifs at hk
        · omega
        · omega
  · intro k hk
    obtain ⟨hkeys, hk⟩ := (hmem k).mp hk
    rw [Finset.mem_filter]
    refine ⟨hkeys, ?_⟩
    cases cursor with
    | none =>
      have hlt : last < sequence := by simpa using h
      rw [if_pos hlt] at hk
      simpa using hk.2
    | some a =>
      simp only [Option.mem_def, Option.some.injEq, forall_eq'] at h ⊢
      split_ifs at hk ⊢
      · omega
      · omega
      · omega
      · omega

theorem readReady_sublist (after : Option ℕ) (limit : ℕ) {k : ℕ}
    (hk : k ∈ s.readReady after limit) : k ∈ s.ready ∧ ∀ a ∈ after, a < k := by
  have hmem := List.mem_of_mem_take hk
  rw [Finset.mem_sort, Finset.mem_filter] at hmem
  exact hmem

theorem readReady_ne_nil {after : Option ℕ} {limit : ℕ} (hlimit : 0 < limit) {k : ℕ}
    (hk : k ∈ s.ready) (hafter : ∀ a ∈ after, a < k) : s.readReady after limit ≠ [] := by
  intro hnil
  rcases List.take_eq_nil_iff.mp hnil with hzero | hsort
  · omega
  · have hmem : k ∈ (s.ready.filter fun sequence => ∀ a ∈ after, a < sequence).sort (· ≤ ·) := by
      rw [Finset.mem_sort, Finset.mem_filter]
      exact ⟨hk, hafter⟩
    rw [hsort] at hmem
    cases hmem

/-- A read that leaves a ready row behind its cursor out ends before it. -/
theorem lt_of_not_mem_taken {after : Option ℕ} {limit : ℕ} {taken rest : List ℕ}
    (hsplit : s.readReady after limit = taken ++ rest) {sequence : ℕ} (hready : sequence ∈ s.ready)
    (hafter : ∀ a ∈ after, a < sequence) (hnot : sequence ∉ taken) {k : ℕ} (hk : k ∈ taken) :
    k < sequence := by
  set sorted := (s.ready.filter fun sequence => ∀ a ∈ after, a < sequence).sort (· ≤ ·) with hsorted
  have hmem : sequence ∈ sorted := by
    rw [hsorted, Finset.mem_sort, Finset.mem_filter]
    exact ⟨hready, hafter⟩
  have hwhole : sorted = taken ++ (rest ++ sorted.drop limit) := by
    rw [← List.append_assoc, ← hsplit]
    exact (List.take_append_drop limit sorted).symm
  have hpairwise : sorted.Pairwise (· < ·) := (Finset.sortedLT_sort _).pairwise
  rw [hwhole] at hmem hpairwise
  rcases List.mem_append.mp hmem with htaken | hrest
  · exact absurd htaken hnot
  · exact (List.pairwise_append.mp hpairwise).2.2 k hk sequence hrest

/-- A page of a scheduled store succeeds, and it returns a ready row or comes closer to it. -/
theorem run_nextPage (hscheduled : s.scheduled = true)
    (hrows : ∀ k ∈ s.ready, ∃ c, s.row k = some c) (limit : ℕ) :
    ∃ page cursor, (nextPage width closureBytes limit).run s =
        (.ok page, { s with header := { s.header with cursor } }) ∧
      (0 < limit → ∀ sequence ∈ s.ready, ∀ c, s.row sequence = some c → c ∈ page ∨
        ∀ keys : Finset ℕ, s.ready ⊆ keys →
          distance keys cursor sequence < distance keys s.header.cursor sequence) := by
  set read := if s.readReady s.header.cursor limit = [] then s.readReady none limit
    else s.readReady s.header.cursor limit with hread
  have hready : ∀ k ∈ read, k ∈ s.ready := by
    intro k hk
    rw [hread] at hk
    split_ifs at hk
    · exact (readReady_sublist _ _ hk).1
    · exact (readReady_sublist _ _ hk).1
  obtain ⟨taken, rest, page, hsplit, hrun, hne, hpage⟩ :=
    @run_takePage s width closureBytes read (fun k hk => hrows k (hready k hk)) 0 []
  refine ⟨page, taken.getLast?.or s.header.cursor, ?_, ?_⟩
  · rw [nextPage, run_bind, run_state]
    dsimp only
    rw [run_bind, run_require, if_pos hscheduled]
    exact hrun
  · intro hlimit sequence hsequence c hc
    by_cases htaken : sequence ∈ taken
    · exact .inl (hpage sequence htaken c hc)
    · refine .inr fun keys hkeys => ?_
      have hnonempty : taken ≠ [] := by
        apply hne rfl
        rw [hread]
        split_ifs with hempty
        · exact readReady_ne_nil hlimit hsequence (by simp)
        · exact hempty
      obtain ⟨last, hlast⟩ := Option.ne_none_iff_exists'.mp
        (fun hnone => hnonempty (List.getLast?_eq_none_iff.mp hnone))
      have hmem : last ∈ taken := List.mem_of_getLast? hlast
      have hlastRead : last ∈ read := by
        rw [hsplit]
        exact List.mem_append_left _ hmem
      have hlastKey : last ∈ keys := hkeys (hready last hlastRead)
      rw [hlast, Option.some_or]
      apply distance_lt hlastKey
      by_cases hempty : s.readReady s.header.cursor limit = []
      · rw [hread, if_pos hempty] at hsplit
        refine .inr ⟨fun hafter => ?_, ?_⟩
        · exact readReady_ne_nil hlimit hsequence hafter hempty
        · exact lt_of_not_mem_taken hsplit hsequence (by simp) htaken hmem
      · rw [hread, if_neg hempty] at hlastRead hsplit
        refine .inl ⟨(readReady_sublist _ _ hlastRead).2, fun hafter => ?_⟩
        exact lt_of_not_mem_taken hsplit hsequence hafter htaken hmem

end

/-- An insertion that passes its checks. -/
theorem run_insert_ok {c : Candidate} (hpath : s.hasPath c.dependencies c.id = false)
    (hnext : s.header.next + 1 < 2 ^ 64) : (insert c context true true).run s =
      (Effect.onlyIf s.scheduled (scheduleOne s.header.next c.dependencies context)).run { s with
        pending := put s.pending s.header.next c
        proof := s.proof.insert c.id s.header.next
        edge := s.edge ∪ c.dependencies.image fun id => (c.id, id)
        stored := { s.header with next := s.header.next + 1 }
        header := { s.header with next := s.header.next + 1 } } := by
  rw [PendingStore.insert, run_bind, run_state]
  dsimp only
  rw [run_bind, run_require, if_pos rfl]
  dsimp only
  rw [run_bind, run_require, if_pos rfl]
  dsimp only
  rw [run_bind, run_require, if_pos hpath]
  dsimp only
  rw [run_bind, run_require, if_pos hnext]
  rfl

/-- An insertion is refused and changes nothing, or it appends a row and indexes it. -/
theorem run_insert (h : s.Coherent held)
    (hindexed : s.scheduled = true → Indexes s.pending context s.ready s.waiting) (c : Candidate)
    (room timely : Bool) :
    (∃ e, (insert c context room timely).run s = (.error e, s)) ∨
    ∃ ready waiting, (insert c context room timely).run s = (.ok (), { s with
      pending := put s.pending s.header.next c
      proof := s.proof.insert c.id s.header.next
      edge := s.edge ∪ c.dependencies.image fun id => (c.id, id)
      stored := { s.header with next := s.header.next + 1 }
      header := { s.header with next := s.header.next + 1 }
      ready
      waiting }) ∧
      (s.scheduled = true →
        Indexes (s.pending ++ [(s.header.next, c)]) context ready waiting) := by
  cases room with
  | false => exact .inl ⟨_, rfl⟩
  | true =>
  cases timely with
  | false => exact .inl ⟨_, rfl⟩
  | true =>
  by_cases hpath : s.hasPath c.dependencies c.id = false
  swap
  · refine .inl ⟨.message "dependency cycle", ?_⟩
    rw [PendingStore.insert, run_bind, run_state]
    dsimp only
    rw [run_bind, run_require, if_pos rfl]
    dsimp only
    rw [run_bind, run_require, if_pos rfl]
    dsimp only
    rw [run_bind, run_require, if_neg hpath]
  by_cases hnext : s.header.next + 1 < 2 ^ 64
  swap
  · refine .inl ⟨.message "proof backlog FIFO exhausted", ?_⟩
    rw [PendingStore.insert, run_bind, run_state]
    dsimp only
    rw [run_bind, run_require, if_pos rfl]
    dsimp only
    rw [run_bind, run_require, if_pos rfl]
    dsimp only
    rw [run_bind, run_require, if_pos hpath]
    dsimp only
    rw [run_bind, run_require, if_neg hnext]
  refine .inr ?_
  rw [run_insert_ok hpath hnext]
  cases hscheduled : s.scheduled with
  | false => exact ⟨s.ready, s.waiting, rfl, fun hfalse => by cases hfalse⟩
  | true =>
    obtain ⟨ready, waiting, hrun, hindexes⟩ := @run_scheduleOne { s with
      pending := put s.pending s.header.next c
      proof := s.proof.insert c.id s.header.next
      edge := s.edge ∪ c.dependencies.image fun id => (c.id, id)
      stored := { s.header with next := s.header.next + 1 }
      header := { s.header with next := s.header.next + 1 } } context s.pending
      (hindexed hscheduled) s.header.next c (fun r hr => ((h.bounds r hr).2).ne)
    refine ⟨ready, waiting, ?_, fun _ => hindexes⟩
    rw [hscheduled] at hrun
    exact hrun

/-- A removal takes the row with its index entries out. -/
theorem run_remove (h : s.Coherent held)
    (hindexed : s.scheduled = true → Indexes s.pending context s.ready s.waiting)
    (id : ArtifactId) :
    ((remove id).run s = (.ok (), s) ∧ ∀ c ∈ held, c.id ≠ id) ∨
    ∃ sequence c ready waiting, (sequence, c) ∈ s.pending ∧ c.id = id ∧
      (remove id).run s = (.ok (), { s with
        pending := s.pending.filter fun r => r.1 ≠ sequence
        proof := s.proof.erase c.id
        edge := s.edge \ c.dependencies.image fun dependency => (c.id, dependency)
        stored := s.header
        ready
        waiting }) ∧
      (s.scheduled = true →
        Indexes (s.pending.filter fun r => r.1 ≠ sequence) context ready waiting) := by
  cases hproof : s.proof[id]? with
  | none =>
    refine .inl ⟨?_, ?_⟩
    · rw [remove, run_bind, run_state]
      dsimp only
      rw [hproof]
      rfl
    · intro c hc heq
      obtain ⟨k, hk⟩ := h.mem_held.mp hc
      have hsome := (h.identity id k).mpr ⟨c, hk, heq⟩
      rw [hproof] at hsome
      cases hsome
  | some sequence =>
    obtain ⟨c, hc, rfl⟩ := (h.identity id sequence).mp hproof
    have hrow : s.row sequence = some c := (row_eq_some h.ascending).mpr hc
    have hrun : (remove c.id).run s = (Effect.onlyIf s.scheduled (Effect.modify fun s => { s with
        ready := s.ready.erase sequence
        waiting := s.waiting.filter fun w => w.2 ≠ sequence })).run { s with
          pending := s.pending.filter fun r => r.1 ≠ sequence
          proof := s.proof.erase c.id
          edge := s.edge \ c.dependencies.image fun dependency => (c.id, dependency)
          stored := s.header } := by
      rw [remove, run_bind, run_state]
      dsimp only
      rw [hproof]
      dsimp only
      rw [hrow]
      rfl
    refine .inr ⟨sequence, c, ?_⟩
    rw [hrun]
    cases hscheduled : s.scheduled with
    | false => exact ⟨s.ready, s.waiting, hc, rfl, rfl, fun hfalse => by cases hfalse⟩
    | true => exact ⟨_, _, hc, rfl, rfl, fun _ => (hindexed hscheduled).remove sequence⟩

end PendingStore

namespace Backlog
open PendingStore

variable {width : Candidate → ℕ} {w : Backlog}

/-- The rows agree with what is held, and a scheduled index with the rows and the context. -/
structure Invariant (w : Backlog) : Prop where
  coherent : w.store.Coherent w.held
  indexed : w.store.scheduled = true →
    Indexes w.store.pending w.context w.store.ready w.store.waiting

theorem Invariant.rows (h : w.Invariant) (hscheduled : w.store.scheduled = true) :
    ∀ k ∈ w.store.ready, ∃ c, w.store.row k = some c := by
  intro k hk
  obtain ⟨c, hc, -⟩ := ((h.indexed hscheduled).ready_iff k).mp hk
  exact ⟨c, (row_eq_some h.coherent.ascending).mpr hc⟩

/-- Admissions one after the other index the rows for all of them. -/
theorem run_accepted_forEach {s : PendingStore} {context : Finset ArtifactId}
    (hrows : Ascending s.pending)
    (hindexed : s.scheduled = true → Indexes s.pending context s.ready s.waiting)
    (ids : List ArtifactId) : ∃ ready waiting,
      (Effect.forEach accepted ids).run s = (.ok (), { s with ready, waiting }) ∧
      (s.scheduled = true → Indexes s.pending (context ∪ ids.toFinset) ready waiting) := by
  induction ids generalizing s context with
  | nil =>
    refine ⟨s.ready, s.waiting, rfl, fun hscheduled => ?_⟩
    rw [List.toFinset_nil, Finset.union_empty]
    exact hindexed hscheduled
  | cons id ids ih =>
    have hstep : ∃ ready waiting, (accepted id).run s = (.ok (), { s with ready, waiting }) ∧
        (s.scheduled = true → Indexes s.pending (Insert.insert id context) ready waiting) := by
      cases hscheduled : s.scheduled with
      | false =>
        refine ⟨s.ready, s.waiting, ?_, fun hfalse => by cases hfalse⟩
        rw [accepted, run_bind, run_state]
        dsimp only
        rw [if_pos hscheduled, ← hscheduled]
        rfl
      | true =>
        obtain ⟨ready, waiting, hrun, hindexes⟩ :=
          run_accepted hrows hscheduled (hindexed hscheduled) id
        refine ⟨ready, waiting, ?_, fun _ => hindexes⟩
        rw [hrun, ← hscheduled]
    obtain ⟨ready, waiting, hrun, hindexes⟩ := hstep
    obtain ⟨ready', waiting', hrun', hindexes'⟩ :=
      @ih { s with ready, waiting } (Insert.insert id context) hrows hindexes
    refine ⟨ready', waiting', ?_, fun hscheduled => ?_⟩
    · change (accepted id >>= fun _ => Effect.forEach accepted ids).run s = _
      rw [run_bind, hrun]
      exact hrun'
    · have hunion : context ∪ (id :: ids).toFinset = Insert.insert id context ∪ ids.toFinset := by
        ext d
        simp only [List.toFinset_cons, Finset.mem_union, Finset.mem_insert]
        tauto
      rw [hunion]
      exact hindexes' hscheduled

/-- Scheduling changes the volatile tables only. -/
theorem perform_schedule (h : Ascending w.store.pending) (hscheduled : w.store.scheduled = false) :
    ∃ ready waiting, w.perform width .schedule =
        { w with store := { w.store with scheduled := true, ready, waiting } } ∧
      Indexes w.store.pending w.context ready waiting := by
  obtain ⟨ready, waiting, hrun, hindexes⟩ := @run_schedule w.store w.context h hscheduled
  refine ⟨ready, waiting, ?_, hindexes⟩
  rw [Backlog.perform, hrun]

/-- An admission changes the context and the volatile tables only. -/
theorem perform_admission (h : Ascending w.store.pending) (hindexed : w.store.scheduled = true →
    Indexes w.store.pending w.context w.store.ready w.store.waiting) (ids : List ArtifactId) :
    ∃ ready waiting, w.perform width (.admission ids) = { w with
        context := w.context ∪ ids.toFinset
        store := { w.store with ready, waiting } } ∧
      (w.store.scheduled = true →
        Indexes w.store.pending (w.context ∪ ids.toFinset) ready waiting) := by
  obtain ⟨ready, waiting, hrun, hindexes⟩ := run_accepted_forEach h hindexed ids
  refine ⟨ready, waiting, ?_, hindexes⟩
  rw [Backlog.perform, hrun]

/-- One lemma per call. -/
theorem Invariant.perform (h : w.Invariant) (call : Call) : (w.perform width call).Invariant := by
  obtain ⟨hcoherent, hindexed⟩ := h
  cases call with
  | insert c room timely =>
    rw [Backlog.perform]
    split_ifs with hcontains
    · exact ⟨hcoherent, hindexed⟩
    rcases run_insert hcoherent hindexed c room timely with ⟨e, hrun⟩ | ⟨ready, waiting, hrun, hindexes⟩
    · rw [hrun]
      exact ⟨hcoherent, hindexed⟩
    · rw [hrun]
      have hinsert := hcoherent.insert (Bool.eq_false_iff.2 hcontains)
      refine ⟨hinsert.volatile w.store.scheduled ready waiting w.store.header.cursor, ?_⟩
      intro hscheduled
      dsimp only
      rw [put_eq_append fun r hr => (hcoherent.bounds r hr).2]
      exact hindexes hscheduled
  | remove id =>
    rw [Backlog.perform]
    rcases run_remove hcoherent hindexed id with
      ⟨hrun, hnone⟩ | ⟨sequence, c, ready, waiting, hc, rfl, hrun, hindexes⟩
    · rw [hrun]
      have hfilter : w.held.filter (fun c => c.id ≠ id) = w.held := by
        rw [List.filter_eq_self]
        intro c hc
        exact decide_eq_true (hnone c hc)
      refine ⟨?_, hindexed⟩
      dsimp only
      rw [hfilter]
      exact hcoherent
    · rw [hrun]
      have hremove := hcoherent.remove hc
      exact ⟨hremove.volatile w.store.scheduled ready waiting w.store.header.cursor, hindexes⟩
  | schedule =>
    cases hscheduled : w.store.scheduled with
    | true =>
      have hrun : (schedule w.context).run w.store = (.ok (), w.store) := by
        rw [schedule, run_bind, run_state]
        dsimp only
        rw [if_pos hscheduled]
        rfl
      rw [Backlog.perform, hrun]
      exact ⟨hcoherent, hindexed⟩
    | false =>
      obtain ⟨ready, waiting, hrun, hindexes⟩ :=
        @perform_schedule width w hcoherent.ascending hscheduled
      rw [hrun]
      exact ⟨hcoherent.volatile true ready waiting w.store.header.cursor, fun _ => hindexes⟩
  | admission ids =>
    obtain ⟨ready, waiting, hrun, hindexes⟩ :=
      @perform_admission width w hcoherent.ascending hindexed ids
    rw [hrun]
    exact ⟨hcoherent.volatile w.store.scheduled ready waiting w.store.header.cursor, hindexes⟩
  | nextPage limit closureBytes =>
    rw [Backlog.perform]
    by_cases hscheduled : w.store.scheduled = true
    · obtain ⟨page, cursor, hrun, -⟩ := @run_nextPage w.store width closureBytes hscheduled
        (Invariant.rows ⟨hcoherent, hindexed⟩ hscheduled) limit
      rw [hrun]
      exact ⟨hcoherent.volatile w.store.scheduled w.store.ready w.store.waiting cursor, hindexed⟩
    · have hrun : (nextPage width closureBytes limit).run w.store =
          (.error (.message "proof backlog readiness not initialized"), w.store) := by
        rw [nextPage, run_bind, run_state]
        dsimp only
        rw [run_bind, run_require, if_neg hscheduled]
      rw [hrun]
      exact ⟨hcoherent, hindexed⟩
  | reopen context =>
    rw [Backlog.perform, hcoherent.reopen]
    refine ⟨?_, fun hfalse => by cases hfalse⟩
    exact ⟨hcoherent.ascending, fun r hr => by
        dsimp only
        rw [hcoherent.stored_next]
        exact hcoherent.bounds r hr, by
        dsimp only
        rw [hcoherent.stored_next]
        exact hcoherent.next_pos, rfl, hcoherent.identity, hcoherent.edges, hcoherent.proof_size,
      hcoherent.edge_card, hcoherent.held_eq⟩

theorem Reached.invariant (h : Reached width w) : w.Invariant := by
  induction h with
  | created context => exact ⟨.created, fun hfalse => by cases hfalse⟩
  | perform _ call ih => exact ih.perform call

def Call.isPage : Call → Bool
  | .nextPage .. => true
  | _ => false

/-- No record is inserted, and that of this artifact is not removed. The limit of a page is
positive, as the operating limits are. -/
def Call.Quiet (id : ArtifactId) (w : Backlog) : Call → Prop
  | .insert c room timely => w.store.contains c.id = true ∨
    ∃ e s, (PendingStore.insert c w.context room timely).run w.store = (.error e, s)
  | .remove id' => id' ≠ id
  | .nextPage limit _ => 0 < limit
  | .reopen _ => False
  | _ => True

inductive QuietRuns (width : Candidate → ℕ) (id : ArtifactId) : Backlog → List Call → Backlog → Prop
  | nil (w : Backlog) : QuietRuns width id w [] w
  | cons {w w' : Backlog} {call : Call} {calls : List Call} (hquiet : call.Quiet id w)
    (hrest : QuietRuns width id (w.perform width call) calls w') :
    QuietRuns width id w (call :: calls) w'

def keys (w : Backlog) : Finset ℕ := (w.store.pending.map Prod.fst).toFinset

/-- What the cursor still has to pass. -/
def potential (w : Backlog) (sequence : ℕ) : ℕ := distance w.keys w.store.header.cursor sequence

variable {sequence : ℕ} {c : Candidate}

theorem mem_keys (h : (sequence, c) ∈ w.store.pending) : sequence ∈ w.keys := by
  rw [keys, List.mem_toFinset, List.mem_map]
  exact ⟨_, h, rfl⟩

theorem Invariant.keys_ready (h : w.Invariant) (hscheduled : w.store.scheduled = true) :
    w.store.ready ⊆ w.keys := by
  intro k hk
  obtain ⟨c, hc, -⟩ := ((h.indexed hscheduled).ready_iff k).mp hk
  exact mem_keys hc

/-- A quiet call keeps a ready row. A page returns it or comes closer to it. -/
theorem Invariant.quiet (h : w.Invariant) (hscheduled : w.store.scheduled = true)
    (hrow : (sequence, c) ∈ w.store.pending) (hready : sequence ∈ w.store.ready) {call : Call}
    (hquiet : call.Quiet c.id w) :
    (w.perform width call).store.scheduled = true ∧
      (sequence, c) ∈ (w.perform width call).store.pending ∧
      w.context ⊆ (w.perform width call).context ∧
      ∃ page, (w.perform width call).visited = w.visited ++ page ∧
        (c ∈ page ∨ (w.perform width call).potential sequence +
          (if call.isPage = true then 1 else 0) ≤ w.potential sequence) := by
  have hstill : w.visited = w.visited ++ [] := (List.append_nil _).symm
  cases call with
  | insert c' room timely =>
    rcases hquiet with hcontains | ⟨e, s, hrun⟩
    · rw [Backlog.perform, if_pos hcontains]
      exact ⟨hscheduled, hrow, subset_rfl, [], hstill, .inr le_rfl⟩
    have hsame : s = w.store := by
      rcases run_insert h.coherent h.indexed c' room timely with
        ⟨e', hrun'⟩ | ⟨ready, waiting, hrun', -⟩
      · rw [hrun] at hrun'
        exact congrArg Prod.snd hrun'
      · rw [hrun] at hrun'
        cases congrArg Prod.fst hrun'
    subst hsame
    rw [Backlog.perform, hrun, ite_self]
    exact ⟨hscheduled, hrow, subset_rfl, [], hstill, .inr le_rfl⟩
  | remove id =>
    rw [Backlog.perform]
    rcases run_remove h.coherent h.indexed id with
      ⟨hrun, -⟩ | ⟨sequence', c', ready, waiting, hc', rfl, hrun, -⟩
    · rw [hrun]
      exact ⟨hscheduled, hrow, subset_rfl, [], hstill, .inr le_rfl⟩
    · rw [hrun]
      have hne : sequence ≠ sequence' := by
        intro heq
        subst heq
        exact hquiet (by rw [h.coherent.ascending.unique hrow hc'])
      refine ⟨hscheduled, List.mem_filter.mpr ⟨hrow, decide_eq_true hne⟩, subset_rfl, [], hstill,
        .inr ?_⟩
      rw [if_neg (by simp [Call.isPage]), Nat.add_zero]
      unfold potential distance
      apply Finset.card_le_card
      apply Finset.filter_subset_filter
      intro k hk
      rw [keys, List.mem_toFinset, List.mem_map] at hk ⊢
      obtain ⟨r, hr, rfl⟩ := hk
      exact ⟨r, (List.mem_filter.mp hr).1, rfl⟩
  | schedule =>
    have hrun : (schedule w.context).run w.store = (.ok (), w.store) := by
      rw [schedule, run_bind, run_state]
      dsimp only
      rw [if_pos hscheduled]
      rfl
    rw [Backlog.perform, hrun]
    exact ⟨hscheduled, hrow, subset_rfl, [], hstill, .inr le_rfl⟩
  | admission ids =>
    obtain ⟨ready, waiting, hrun, -⟩ := @perform_admission width w h.coherent.ascending h.indexed ids
    rw [hrun]
    exact ⟨hscheduled, hrow, Finset.subset_union_left, [], hstill, .inr le_rfl⟩
  | nextPage limit closureBytes =>
    obtain ⟨page, cursor, hrun, hpage⟩ :=
      @run_nextPage w.store width closureBytes hscheduled (h.rows hscheduled) limit
    rw [Backlog.perform, hrun]
    refine ⟨hscheduled, hrow, subset_rfl, page, rfl, ?_⟩
    have hfound := (row_eq_some h.coherent.ascending).mpr hrow
    rcases hpage hquiet sequence hready c hfound with hmem | hlt
    · exact .inl hmem
    · exact .inr (hlt w.keys (h.keys_ready hscheduled))
  | reopen context => exact absurd hquiet id

/-- Along a quiet run a ready row stays ready, and every page that does not return it comes
closer to it. -/
theorem QuietRuns.potential {id : ArtifactId} {w' : Backlog} {calls : List Call}
    (h : QuietRuns width id w calls w') (hw : w.Invariant) (hscheduled : w.store.scheduled = true)
    (hrow : (sequence, c) ∈ w.store.pending) (hready : sequence ∈ w.store.ready) (hid : c.id = id) :
    ∃ pages, w'.visited = w.visited ++ pages ∧
      (c ∈ pages ∨ (sequence, c) ∈ w'.store.pending ∧
        w'.potential sequence + calls.countP Call.isPage ≤ w.potential sequence) := by
  induction h with
  | nil w => exact ⟨[], (List.append_nil _).symm, .inr ⟨hrow, le_rfl⟩⟩
  | @cons w w' call calls hquiet _ ih =>
    subst hid
    obtain ⟨hscheduled', hrow', hcontext, page, hpage, hprogress⟩ :=
      @Invariant.quiet width w sequence c hw hscheduled hrow hready call hquiet
    have hw' := @Invariant.perform width w hw call
    have hready' : sequence ∈ (w.perform width call).store.ready := by
      obtain ⟨c', hc', hsub⟩ := ((hw.indexed hscheduled).ready_iff sequence).mp hready
      obtain rfl := hw.coherent.ascending.unique hrow hc'
      exact ((hw'.indexed hscheduled').ready_iff sequence).mpr ⟨c, hrow', hsub.trans hcontext⟩
    obtain ⟨pages, hpages, hrest⟩ := ih hw' hscheduled' hrow' hready'
    refine ⟨page ++ pages, by rw [hpages, hpage, List.append_assoc], ?_⟩
    rcases hprogress with hmem | hle
    · exact .inl (List.mem_append_left _ hmem)
    · rcases hrest with hmem | ⟨hstill, hle'⟩
      · exact .inl (List.mem_append_right _ hmem)
      · refine .inr ⟨hstill, ?_⟩
        rw [List.countP_cons]
        omega

end Backlog
end Naome
