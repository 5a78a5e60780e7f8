import Naome.DiskMapAccess

/-!
# Traversing disk maps

The stack of a traversal lists the trees that are still to be visited. One step visits the
root of the first tree and puts its children in its place.
-/
namespace Naome.DiskMap
open Outcome Fingerprint StorageM

def children : ValueTree → List ValueTree
  | .leaf _ _ => []
  | .branch _ left right => [left, right]

def size : ValueTree → ℕ
  | .leaf _ _ => 1
  | .branch _ left right => size left + size right + 1

def forestEntries (rest : List ValueTree) : List (Digest × List UInt8) :=
  rest.flatMap PatriciaTree.entries

def forestSize (rest : List ValueTree) : ℕ := (rest.map size).sum

theorem forestEntries_children (t : ValueTree) (rest : List ValueTree) :
    forestEntries (t :: rest) = match t with
      | .leaf key value => (key, value) :: forestEntries rest
      | .branch _ _ _ => forestEntries (children t ++ rest) := by
  cases t with
  | leaf key value => rfl
  | branch i left right =>
    simp only [forestEntries, children, List.flatMap_cons, List.cons_append, List.nil_append,
      PatriciaTree.entries, List.append_assoc]

theorem forestSize_children (t : ValueTree) (rest : List ValueTree) :
    forestSize (t :: rest) = forestSize (children t ++ rest) + 1 := by
  cases t with
  | leaf key value =>
    simp only [forestSize, children, List.map_cons, List.sum_cons, size, List.nil_append]
    omega
  | branch i left right =>
    simp only [forestSize, children, List.map_cons, List.sum_cons, size, List.cons_append,
      List.nil_append]
    omega

section

variable (sha256 : List UInt8 → Digest)

/-- What a walk reports for the root of a tree. -/
def visitOf (t : ValueTree) : Visit where
  address := (treeChild sha256 t).root.address
  bytes := (treeNode sha256 t).encode
  entry := match t with
    | .leaf key value => some (key, value)
    | .branch _ _ _ => none

/-- The visits of all nodes, a branch before its children. -/
def visits : ValueTree → List Visit
  | .leaf key value => [visitOf sha256 (.leaf key value)]
  | .branch i left right => visitOf sha256 (.branch i left right) :: (visits left ++ visits right)

def forestVisits (rest : List ValueTree) : List Visit := rest.flatMap (visits sha256)

theorem forestVisits_cons (t : ValueTree) (rest : List ValueTree) :
    forestVisits sha256 (t :: rest) = visitOf sha256 t :: forestVisits sha256 (children t ++ rest) := by
  cases t with
  | leaf key value => rfl
  | branch i left right =>
    simp only [forestVisits, children, List.flatMap_cons, List.cons_append, List.nil_append,
      visits, List.append_assoc]

theorem length_forestVisits (rest : List ValueTree) :
    (forestVisits sha256 rest).length = forestSize rest := by
  have hone : ∀ t : ValueTree, (visits sha256 t).length = size t := by
    intro t
    induction t with
    | leaf key value => rfl
    | branch i left right ihl ihr =>
      simp only [visits, size, List.length_cons, List.length_append, ihl, ihr]
  induction rest with
  | nil => rfl
  | cons t rest ih =>
    rw [forestVisits, List.flatMap_cons, List.length_append, hone]
    exact congrArg (size t + ·) ih

/-- A stack of references and the trees that it stands for. -/
structure Forest (log : WriteLog) (pending : List Pending) (rest : List ValueTree) : Prop where
  trees : List.Forall₂ (fun p t => Stored sha256 log t ∧ At sha256 p t) pending rest
  ascending : (forestEntries rest).Pairwise fun e e' => e.1 < e'.1

variable {sha256} {log log' : WriteLog} {pending : List Pending} {rest : List ValueTree}

theorem Forest.mono (h : Forest sha256 log pending rest) (hlog : log ⊆ log') :
    Forest sha256 log' pending rest where
  trees := h.trees.imp fun _ _ ht => ⟨ht.1.mono hlog, ht.2⟩
  ascending := h.ascending

theorem Forest.tail {p : Pending} {t : ValueTree}
    (h : Forest sha256 log (p :: pending) (t :: rest)) : Forest sha256 log pending rest := by
  obtain ⟨htrees, hascending⟩ := h
  rw [List.forall₂_cons] at htrees
  refine ⟨htrees.2, ?_⟩
  rw [forestEntries, List.flatMap_cons, List.pairwise_append] at hascending
  exact hascending.2.1

theorem forest_ofRoot {m : DiskMap} {t : Option ValueTree} (h : Holds sha256 log m.root t) :
    Forest sha256 log (m.root.map Pending.ofRoot).toList t.toList := by
  rw [h.root_eq]
  cases t with
  | none => exact ⟨List.Forall₂.nil, List.Pairwise.nil⟩
  | some t =>
    refine ⟨List.Forall₂.cons ⟨h.stored t rfl, at_ofRoot t⟩ List.Forall₂.nil, ?_⟩
    have hpairwise := PatriciaTree.pairwise_keys (h.stored t rfl).wellFormed
    rw [PatriciaTree.keys, List.pairwise_map] at hpairwise
    simpa [forestEntries] using hpairwise

/-- The references of the children take the place of a branch. -/
theorem Forest.branch {p : Pending} {i : ℕ} {left right : ValueTree}
    (h : Forest sha256 log (p :: pending) (.branch i left right :: rest)) :
    ∃ l r, p.child (treeChild sha256 left) i = .ok l ∧ p.child (treeChild sha256 right) i = .ok r ∧
      l.depth = p.depth + 1 ∧ r.depth = p.depth + 1 ∧
      Forest sha256 log (l :: r :: pending) (left :: right :: rest) := by
  obtain ⟨htrees, hascending⟩ := h
  rw [List.forall₂_cons] at htrees
  obtain ⟨⟨hstored, hat⟩, htail⟩ := htrees
  obtain ⟨l, hl, hldepth, hlat⟩ := hat.child hstored.wellFormed false
  obtain ⟨r, hr, hrdepth, hrat⟩ := hat.child hstored.wellFormed true
  refine ⟨l, r, hl, hr, hldepth, hrdepth, ?_, ?_⟩
  · exact List.Forall₂.cons ⟨hstored.left, hlat⟩ (List.Forall₂.cons ⟨hstored.right, hrat⟩ htail)
  · rw [forestEntries_children] at hascending
    exact hascending

/-- A walk that still has to visit the listed trees. -/
structure WalkAt (sha256 : List UInt8 → Digest) (log : WriteLog) (walk : Walk)
    (rest : List ValueTree) : Prop where
  failed : walk.failed = false
  forest : Forest sha256 log walk.pending rest
  previous : ∀ k, walk.previousKey = some k → ∀ e ∈ forestEntries rest, k < e.1

theorem walkAt_walk {m : DiskMap} {t : Option ValueTree} (h : Holds sha256 log m.root t) :
    WalkAt sha256 log m.walk t.toList := ⟨rfl, forest_ofRoot h, by rintro k ⟨⟩⟩

variable {σ : Type} {S : ContextStorage σ} {I : World σ → Prop} {Safe : WriteLog → Prop}
  {w : World σ} (hA : Authentic S (storageAddress sha256) I Safe)

include hA

theorem ensures_walkStepFrom {walk : Walk} {p : Pending} {t : ValueTree} (hw : I w)
    (h : WalkAt sha256 w.written walk (t :: rest)) (hp : walk.pending = p :: pending) :
    Ensures S I Safe (walk.stepFrom sha256 p pending) w fun r w' =>
      r.1 = visitOf sha256 t ∧ WalkAt sha256 w'.written r.2 (children t ++ rest) := by
  have hforest := h.forest
  rw [hp] at hforest
  obtain ⟨⟨hstored, hat⟩, _⟩ := List.forall₂_cons.mp hforest.trees
  unfold Walk.stepFrom
  apply Ensures.bind hA hw (ensures_loadNodeInner hA hw hstored hat)
  intro n w' _ _ hn
  obtain ⟨hlog, rfl⟩ := hn
  have hsub : w.written ⊆ w'.written := by rw [hlog]; exact List.Subset.refl _
  cases t with
  | leaf key value =>
    have hprevious : walk.previousKey.all (fun previous => decide (previous < key)) = true := by
      cases hk : walk.previousKey with
      | none => rfl
      | some k => exact decide_eq_true (h.previous k hk (key, value) List.mem_cons_self)
    simp only [treeNode]
    rw [lift_require_bind hprevious]
    refine Ensures.pure ⟨?_, h.failed, hforest.tail.mono hsub, ?_⟩
    · rw [hat.root]
      rfl
    · rintro k ⟨⟩ e he
      have hpairwise := hforest.ascending
      rw [forestEntries_children, List.pairwise_cons] at hpairwise
      exact hpairwise.1 e he
  | branch i left right =>
    obtain ⟨l, r, hl, hr, _, _, hnext⟩ := hforest.branch
    simp only [treeNode, hl, hr, lift_ok_bind]
    refine Ensures.pure ⟨?_, h.failed, hnext.mono hsub, ?_⟩
    · rw [hat.root]
      rfl
    · intro k hk e he
      refine h.previous k hk e ?_
      rw [forestEntries_children]
      exact he

/-- A step of a walk visits the next tree, or fails with the storage. -/
theorem ensures_walkStep {walk : Walk} {t : ValueTree} (hw : I w)
    (h : WalkAt sha256 w.written walk (t :: rest)) :
    Ensures S I Safe (walk.step sha256) w fun r w' =>
      (∃ e, r.1 = .error e) ∧ ¬ Reliable S I Safe ∨
      r.1 = .ok (some (visitOf sha256 t)) ∧ WalkAt sha256 w'.written r.2 (children t ++ rest) := by
  unfold Walk.step
  rw [if_neg (by rw [h.failed]; exact Bool.false_ne_true)]
  cases hp : walk.pending with
  | nil =>
    have htrees := h.forest.trees
    rw [hp] at htrees
    cases htrees
  | cons p pending =>
    apply Ensures.bind hA hw (Ensures.recording (ensures_walkStepFrom hA hw h hp)).attempt
    intro r w' _ _ hr
    rcases hr with ⟨⟨visit, next⟩, rfl, hvisit, hnext⟩ | ⟨⟨e, rfl⟩, hfault⟩
    · exact Ensures.pure (Or.inr ⟨congrArg (fun v => Except.ok (some v)) hvisit, hnext⟩)
    · exact Ensures.pure (Or.inl ⟨⟨e, rfl⟩, hfault⟩)

omit hA in
theorem run_walkStep_nil {walk : Walk} {log : WriteLog} (h : WalkAt sha256 log walk []) :
    walk.step sha256 = pure (.ok none, walk) := by
  unfold Walk.step
  rw [if_neg (by rw [h.failed]; exact Bool.false_ne_true)]
  have htrees := h.forest.trees
  cases hp : walk.pending with
  | nil => rfl
  | cons p pending =>
    rw [hp] at htrees
    cases htrees

end

/-- All visits of a walk, up to a number of steps. -/
def Walk.collect (sha256 : List UInt8 → Digest) : ℕ → Walk → StorageM (List Visit)
  | 0, _ => pure []
  | steps + 1, walk => do
    let (result, walk) ← walk.step sha256
    match ← lift result with
    | none => return []
    | some visit => do
      let visits ← Walk.collect sha256 steps walk
      return visit :: visits

section

variable {sha256 : List UInt8 → Digest} {σ : Type} {S : ContextStorage σ} {I : World σ → Prop}
  {Safe : WriteLog → Prop} {w : World σ} (hA : Authentic S (storageAddress sha256) I Safe)

include hA

/-- A walk visits every node once, or fails with the storage. -/
theorem ensures_walkCollect {walk : Walk} {rest : List ValueTree} {steps : ℕ} (hw : I w)
    (h : WalkAt sha256 w.written walk rest) (hsteps : forestSize rest < steps) :
    Ensures S I Safe (Walk.collect sha256 steps walk) w fun visits _ =>
      visits = forestVisits sha256 rest := by
  induction steps generalizing walk rest w with
  | zero => omega
  | succ steps ih =>
    unfold Walk.collect
    cases rest with
    | nil =>
      rw [run_walkStep_nil h]
      exact Ensures.pure rfl
    | cons t rest =>
      apply Ensures.bind hA hw (ensures_walkStep hA hw h)
      intro r w' hw' _ hr
      obtain ⟨outcome, next⟩ := r
      rcases hr with ⟨⟨e, rfl⟩, hfault⟩ | ⟨rfl, hnext⟩
      · exact Ensures.error hfault
      · rw [forestSize_children] at hsteps
        simp only [lift_ok_bind]
        apply Ensures.bind hA hw' (ih hw' hnext (by omega))
        intro visits w'' _ _ hvisits
        refine Ensures.pure ?_
        rw [hvisits, forestVisits_cons]

omit hA in
def above (after : Option Digest) (e : Digest × List UInt8) : Bool :=
  after.all fun a => decide (a < e.1)

omit hA in
/-- The entries that an iterator over the listed trees still has to yield. -/
def entriesAbove (after : Option Digest) (rest : List ValueTree) : List (Digest × List UInt8) :=
  (forestEntries rest).filter (above after)

omit hA in
/-- An iterator that still has to visit the listed trees. -/
structure EntriesAt (sha256 : List UInt8 → Digest) (log : WriteLog) (it : Entries)
    (rest : List ValueTree) : Prop where
  forest : Forest sha256 log it.pending rest
  previous : ∀ k, it.previousKey = some k → ∀ e ∈ entriesAbove it.after rest, k < e.1

omit hA in
theorem entriesAt_entriesAfter {log : WriteLog} {m : DiskMap} {t : Option ValueTree}
    (h : Holds sha256 log m.root t) (after : Option Digest) :
    EntriesAt sha256 log (m.entriesAfter after) t.toList := by
  refine ⟨forest_ofRoot h, ?_⟩
  intro k hk e he
  have hk : after = some k := hk
  have := (List.mem_filter.mp he).2
  change above after e = true at this
  rw [hk] at this
  exact of_decide_eq_true this

omit hA in
/-- A pruned tree has no entries above the key. -/
theorem entriesAbove_of_prunes {log : WriteLog} {p : Pending} {after : Option Digest}
    {t : ValueTree} {rest : List ValueTree} (hstored : Stored sha256 log t)
    (hat : At sha256 p t) (h : Entries.prunes after p = true) :
    entriesAbove after (t :: rest) = entriesAbove after rest := by
  unfold Entries.prunes at h
  cases after with
  | none => cases h
  | some a =>
    cases hr : p.range with
    | none =>
      rw [hr] at h
      cases h
    | some range =>
      rw [hr] at h
      have hrange := hat.range
      rw [hr, Option.all_some, decide_eq_true_eq, range_treeNode] at hrange
      have hmax : t.maxKey ≤ a := by
        have := of_decide_eq_true h
        rw [hrange] at this
        exact this
      have hnone : t.entries.filter (above (some a)) = [] := by
        refine List.filter_eq_nil_iff.mpr fun e he => ?_
        have hle := PatriciaTree.le_maxKey hstored.wellFormed (List.mem_map_of_mem he)
        have : ¬ a < e.1 := not_lt.mpr (hle.trans hmax)
        simpa [above] using this
      unfold entriesAbove forestEntries
      rw [List.flatMap_cons, List.filter_append, hnone, List.nil_append]

/-- One visit of the iterator: the next entry above the key, if the node is such a leaf. -/
theorem ensures_visit {it : Entries} {p : Pending} {pending : List Pending} {t : ValueTree}
    {rest : List ValueTree} (hw : I w) (h : EntriesAt sha256 w.written it (t :: rest))
    (hp : it.pending = p :: pending) :
    Ensures S I Safe (it.visit sha256 p pending) w fun r w' =>
      EntriesAt sha256 w'.written r.2 (children t ++ rest) ∧ r.2.after = it.after ∧
        entriesAbove it.after (t :: rest) =
          r.1.toList ++ entriesAbove it.after (children t ++ rest) := by
  have hforest := h.forest
  have hprevious := h.previous
  rw [hp] at hforest
  obtain ⟨⟨hstored, hat⟩, _⟩ := List.forall₂_cons.mp hforest.trees
  unfold Entries.visit
  apply Ensures.bind hA hw (ensures_loadNode hA hw hstored hat)
  intro n w' _ _ hn
  obtain ⟨hlog, rfl⟩ := hn
  have hsub : w.written ⊆ w'.written := by rw [hlog]; exact List.Subset.refl _
  cases t with
  | leaf key value =>
    have hentries : entriesAbove it.after (.leaf key value :: rest) =
        if above it.after (key, value) then (key, value) :: entriesAbove it.after rest
        else entriesAbove it.after rest := by
      unfold entriesAbove
      rw [forestEntries_children, List.filter_cons]
    simp only [treeNode]
    by_cases hskip : it.after.any (fun after => decide (key ≤ after)) = true
    · have habove : above it.after (key, value) = false := by
        cases ha : it.after with
        | none =>
          rw [ha] at hskip
          cases hskip
        | some a =>
          rw [ha] at hskip
          exact decide_eq_false (not_lt.mpr (of_decide_eq_true hskip))
      rw [habove] at hentries
      rw [if_pos hskip]
      refine Ensures.pure ⟨⟨hforest.tail.mono hsub, ?_⟩, rfl, hentries⟩
      intro k hk e he
      refine hprevious k hk e ?_
      rw [hentries]
      exact he
    · have habove : above it.after (key, value) = true := by
        cases ha : it.after with
        | none => rfl
        | some a =>
          rw [ha] at hskip
          exact decide_eq_true (not_le.mp fun hle => hskip (decide_eq_true hle))
      rw [habove, if_pos rfl] at hentries
      rw [if_neg hskip]
      have hall : it.previousKey.all (fun previous => decide (previous < key)) = true := by
        cases hk : it.previousKey with
        | none => rfl
        | some k =>
          refine decide_eq_true (hprevious k hk (key, value) ?_)
          rw [hentries]
          exact List.mem_cons_self
      rw [lift_require_bind hall]
      refine Ensures.pure ⟨⟨hforest.tail.mono hsub, ?_⟩, rfl, hentries⟩
      rintro k ⟨⟩ e he
      have hpairwise := hforest.ascending
      rw [forestEntries_children, List.pairwise_cons] at hpairwise
      exact hpairwise.1 e (List.mem_filter.mp he).1
  | branch i left right =>
    obtain ⟨l, r, hl, hr, _, _, hnext⟩ := hforest.branch
    have hentries : entriesAbove it.after (.branch i left right :: rest) =
        entriesAbove it.after (children (.branch i left right) ++ rest) := by
      unfold entriesAbove
      rw [forestEntries_children]
    simp only [treeNode, hl, hr, lift_ok_bind]
    refine Ensures.pure ⟨⟨hnext.mono hsub, ?_⟩, rfl, hentries⟩
    intro k hk e he
    refine hprevious k hk e ?_
    rw [hentries]
    exact he

/-- One call of the iterator yields the next entry, or ends. -/
theorem ensures_nextWithin {it : Entries} {rest : List ValueTree} {nodes : ℕ} (hw : I w)
    (h : EntriesAt sha256 w.written it rest) (hnodes : forestSize rest < nodes) :
    Ensures S I Safe (Entries.nextWithin sha256 nodes it) w fun r w' =>
      (∃ e, r.1 = some (.error e)) ∧ r.2.pending = [] ∧ ¬ Reliable S I Safe ∨
      r.1 = none ∧ entriesAbove it.after rest = [] ∨
      ∃ e rest', r.1 = some (.ok e) ∧ EntriesAt sha256 w'.written r.2 rest' ∧
        r.2.after = it.after ∧ entriesAbove it.after rest = e :: entriesAbove it.after rest' := by
  induction nodes generalizing it rest w with
  | zero => omega
  | succ nodes ih =>
    unfold Entries.nextWithin
    have htrees := h.forest.trees
    cases hp : it.pending with
    | nil =>
      rw [hp] at htrees
      rw [List.forall₂_nil_left_iff.mp htrees]
      exact Ensures.pure (Or.inr (Or.inl ⟨rfl, rfl⟩))
    | cons p pending =>
      rw [hp] at htrees
      obtain ⟨t, rest', ⟨hstored, hat⟩, htail, rfl⟩ := List.forall₂_cons_left_iff.mp htrees
      rw [forestSize_children] at hnodes
      simp only
      by_cases hprune : Entries.prunes it.after p = true
      · rw [if_pos hprune]
        have hentries : entriesAbove it.after (t :: rest') = entriesAbove it.after rest' :=
          entriesAbove_of_prunes hstored hat hprune
        have hnext : EntriesAt sha256 w.written { it with pending := pending } rest' := by
          have hforest := h.forest
          rw [hp] at hforest
          refine ⟨hforest.tail, ?_⟩
          intro k hk e he
          refine h.previous k hk e ?_
          rw [hentries]
          exact he
        have hsize : forestSize rest' < nodes := by
          have : forestSize (children t ++ rest') = forestSize (children t) + forestSize rest' := by
            unfold forestSize
            rw [List.map_append, List.sum_append]
          omega
        rw [hentries]
        exact ih hw hnext hsize
      · rw [if_neg hprune]
        apply Ensures.bind hA hw (ensures_visit hA hw h hp).attempt
        intro r w' hw' _ hr
        rcases hr with ⟨⟨item, next⟩, rfl, hnext, hafter, hentries⟩ | ⟨⟨e, rfl⟩, hfault⟩
        · cases item with
          | some e =>
            exact Ensures.pure (Or.inr (Or.inr ⟨e, _, rfl, hnext, hafter, hentries⟩))
          | none =>
            have hentries' : entriesAbove it.after (t :: rest') =
                entriesAbove next.after (children t ++ rest') := by
              rw [show next.after = it.after from hafter]
              exact hentries
            refine (ih hw' hnext (by omega)).mono ?_
            intro v w'' hv
            rw [hentries']
            rcases hv with hv | hv | ⟨e, rest'', hv, hat', hafter', hlist⟩
            · exact Or.inl hv
            · exact Or.inr (Or.inl hv)
            · exact Or.inr (Or.inr ⟨e, rest'', hv, hat', hafter'.trans hafter, by
                rw [hlist, show next.after = it.after from hafter]⟩)
        · intro _
          exact Or.inl ⟨_, rfl, Or.inl ⟨⟨e, rfl⟩, rfl, hfault⟩⟩

omit hA in
theorem size_lt_two_pow {p : Pending} {t : ValueTree} {log : WriteLog}
    (hstored : Stored sha256 log t) (hat : At sha256 p t) : size t < 2 ^ (257 - p.depth) := by
  induction t generalizing p with
  | leaf key value =>
    have := hat.depth_le
    exact Nat.one_lt_two_pow (by omega)
  | branch i left right ihl ihr =>
    obtain ⟨l, _, hldepth, hlat⟩ := hat.child hstored.wellFormed false
    obtain ⟨r, _, hrdepth, hrat⟩ := hat.child hstored.wellFormed true
    have hleft := ihl hstored.left hlat
    have hright := ihr hstored.right hrat
    obtain ⟨hdepth, _⟩ := hat.branch hstored.wellFormed
    have hi : i < 256 := hstored.wellFormed.2.2.1
    rw [hldepth] at hleft
    rw [hrdepth] at hright
    have hpow : 257 - p.depth = (257 - (p.depth + 1)) + 1 := by omega
    rw [hpow, pow_succ, size]
    omega

omit hA in
/-- The bound of the loop exceeds the number of nodes that are left. -/
theorem forestSize_le_remaining {it : Entries} {rest : List ValueTree} {log : WriteLog}
    (h : EntriesAt sha256 log it rest) : forestSize rest ≤ it.remaining := by
  have htrees := h.forest.trees
  unfold forestSize Entries.remaining
  clear h
  generalize it.pending = pending at htrees
  induction htrees with
  | nil => exact le_rfl
  | cons hhead _ ih =>
    simp only [List.map_cons, List.sum_cons]
    exact Nat.add_le_add (size_lt_two_pow hhead.1 hhead.2).le ih

omit hA in
theorem run_next_nil {it : Entries} (h : it.pending = []) : it.next sha256 = pure (none, it) := by
  unfold Entries.next Entries.nextWithin
  rw [h]

/-- The iterator yields exactly the entries above the key, in ascending order, or an error. -/
theorem ensures_collect {it : Entries} {rest : List ValueTree} {calls : ℕ} (hw : I w)
    (h : EntriesAt sha256 w.written it rest)
    (hcalls : (entriesAbove it.after rest).length < calls) :
    Ensures S I Safe (Entries.collect sha256 calls it) w fun items _ =>
      items = (entriesAbove it.after rest).map .ok ∨
        (∃ e, .error e ∈ items) ∧ ¬ Reliable S I Safe := by
  induction calls generalizing it rest w with
  | zero => omega
  | succ calls ih =>
    unfold Entries.collect
    have hnodes : forestSize rest < it.remaining + 1 :=
      Nat.lt_succ_of_le (forestSize_le_remaining h)
    apply Ensures.bind hA hw (ensures_nextWithin hA hw h hnodes)
    intro r w' hw' _ hr
    obtain ⟨item, next⟩ := r
    rcases hr with ⟨⟨e, rfl⟩, hpending, hfault⟩ | ⟨rfl, hnil⟩ | ⟨e, rest', rfl, hnext, hafter, hlist⟩
    · -- A failed iterator is exhausted: at most this error follows.
      cases calls with
      | zero => exact Ensures.pure (Or.inr ⟨⟨e, List.mem_cons_self⟩, hfault⟩)
      | succ calls =>
        simp only [Entries.collect]
        rw [run_next_nil hpending]
        exact Ensures.pure (Or.inr ⟨⟨e, List.mem_cons_self⟩, hfault⟩)
    · rw [hnil]
      exact Ensures.pure (Or.inl rfl)
    · have hafter : next.after = it.after := hafter
      have hlength : (entriesAbove next.after rest').length < calls := by
        rw [hlist, List.length_cons] at hcalls
        rw [hafter]
        omega
      simp only
      apply Ensures.bind hA hw' (ih hw' hnext hlength)
      intro items w'' _ _ hitems
      refine Ensures.pure ?_
      rcases hitems with hitems | ⟨⟨e', he'⟩, hfault⟩
      · left
        rw [hitems, hlist, hafter]
        rfl
      · exact Or.inr ⟨⟨e', List.mem_cons_of_mem _ he'⟩, hfault⟩

end
end Naome.DiskMap
