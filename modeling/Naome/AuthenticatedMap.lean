import Naome.DiskMapTraversal

/-!
# Disk maps are authenticated finite maps

A handle reached by successful writes answers every read with the associations written
through it, or with an error, whatever the storage returns.
-/
namespace Naome.DiskMap
open Outcome Fingerprint StorageM

variable {σ : Type} {sha256 : List UInt8 → Digest}

/-- Content-addressed records. -/
def Addressed (sha256 : List UInt8 → Digest) (address : Digest) (bytes : List UInt8) : Prop :=
  address = storageAddress sha256 bytes

/-- No logged node shares its address with other bytes. -/
def Unforgeable (sha256 : List UInt8 → Digest) (log : WriteLog) : Prop :=
  ∀ b, (storageAddress sha256 b, b) ∈ log →
    ∀ b', storageAddress sha256 b' = storageAddress sha256 b → b' = b

theorem unforgeable_of_injective (h : Function.Injective (storageAddress sha256)) (log : WriteLog) :
    Unforgeable sha256 log := fun _ _ _ he => h he

theorem Unforgeable.functional {log : WriteLog} (h : Unforgeable sha256 log)
    (haddressed : ∀ r ∈ log, Addressed sha256 r.1 r.2) : Functional log := by
  intro a b b' hb hb'
  have ha : a = storageAddress sha256 b := haddressed _ hb
  have ha' : a = storageAddress sha256 b' := haddressed _ hb'
  rw [ha] at hb
  exact (h b hb b' (ha'.symm.trans ha)).symm

/-- Any storage at all is relied on for unforgeable records. -/
theorem authentic_of_unforgeable (S : ContextStorage σ) :
    Authentic S (storageAddress sha256) (fun _ => True) (Unforgeable sha256) where
  read _ _ _ _ := trivial
  write _ _ _ _ := trivial
  failure _ _ _ := trivial
  antitone hsub h b hb := h b (hsub hb)
  authentic _ h hmem _ he := h _ hmem _ he
  injective h hb _ he := (h _ hb _ he.symm).symm

variable {P : Digest → List UInt8 → Prop}

theorem writesOnly_lift {α : Type} (r : Except ContextError α) : (lift r).WritesOnly P := trivial

theorem writesOnly_loadNodeSized (pending : Pending) :
    (loadNodeSized sha256 pending).WritesOnly P := by
  unfold loadNodeSized
  refine WritesOnly.bind (writesOnly_lift _) fun _ => ?_
  refine WritesOnly.bind (fun _ => trivial) fun bytes => ?_
  refine WritesOnly.bind (writesOnly_lift _) fun _ => ?_
  refine WritesOnly.bind (writesOnly_lift _) fun _ => ?_
  refine WritesOnly.bind (writesOnly_lift _) fun node => ?_
  refine WritesOnly.bind (writesOnly_lift _) fun _ => ?_
  trivial

theorem writesOnly_loadNodeInner (pending : Pending) :
    (loadNodeInner sha256 pending).WritesOnly P := by
  unfold loadNodeInner
  refine WritesOnly.bind (writesOnly_loadNodeSized pending) fun r => ?_
  trivial

theorem writesOnly_loadNode (pending : Pending) : (loadNode sha256 pending).WritesOnly P :=
  WritesOnly.recording (writesOnly_loadNodeInner pending)

theorem writesOnly_saveNode (n : Node) : (saveNode sha256 n).WritesOnly (Addressed sha256) := by
  unfold saveNode
  refine WritesOnly.bind (writesOnly_lift _) fun _ => ?_
  refine WritesOnly.bind (writesOnly_lift _) fun _ => ?_
  refine WritesOnly.bind ⟨rfl, fun _ => trivial⟩ fun _ => ?_
  trivial

theorem writesOnly_descend (key : Digest) (loads : ℕ) (pending : Pending) :
    (descend sha256 key loads pending).WritesOnly (Addressed sha256) := by
  induction loads generalizing pending with
  | zero => trivial
  | succ loads ih =>
    unfold descend
    refine WritesOnly.bind (writesOnly_loadNode pending) fun node => ?_
    cases node with
    | leaf k v => trivial
    | branch bit left right =>
      refine WritesOnly.bind (writesOnly_lift _) fun next => ?_
      exact (ih next).bind fun _ => trivial

theorem writesOnly_rebuild (path : List Frame) (changed : Child) :
    (rebuild sha256 path changed).WritesOnly (Addressed sha256) := by
  induction path generalizing changed with
  | nil => trivial
  | cons frame path ih => exact (ih changed).bind fun c => writesOnly_saveNode _

theorem writesOnly_attach (key oldKey : Digest) (path : List Frame) (terminal changed : Child) :
    (attach sha256 key oldKey path terminal changed).WritesOnly (Addressed sha256) := by
  unfold attach
  refine WritesOnly.bind (writesOnly_lift _) fun bit => ?_
  refine WritesOnly.bind (writesOnly_saveNode _) fun _ => ?_
  trivial

theorem writesOnly_writeRoot (root : Option Root) (key : Digest) (value : List UInt8)
    (replace : Bool) : (writeRoot sha256 root key value replace).WritesOnly (Addressed sha256) := by
  unfold writeRoot
  refine WritesOnly.bind (writesOnly_lift _) fun _ => ?_
  cases root with
  | none => exact (writesOnly_saveNode _).bind fun _ => trivial
  | some root =>
    refine WritesOnly.bind (writesOnly_descend key 257 _) fun r => ?_
    obtain ⟨path, terminal, oldKey, oldValue⟩ := r
    simp only
    split
    · trivial
    · refine WritesOnly.bind (writesOnly_saveNode _) fun changed => ?_
      split
      · rw [pure_bind']
        refine WritesOnly.bind (writesOnly_rebuild _ _) fun _ => ?_
        trivial
      · refine WritesOnly.bind (writesOnly_attach _ _ _ _ _) fun r => ?_
        refine WritesOnly.bind (writesOnly_rebuild _ _) fun _ => ?_
        trivial

theorem writesOnly_writeValue (m : DiskMap) (key : Digest) (value : List UInt8) (replace : Bool) :
    (writeValue sha256 m key value replace).WritesOnly (Addressed sha256) := by
  refine WritesOnly.bind (writesOnly_writeRoot m.root key value replace).attempt fun r => ?_
  cases r with
  | ok r => trivial
  | error e => trivial

theorem writesOnly_lookupStep (l : Lookup) : (l.step sha256).WritesOnly P := by
  unfold Lookup.step
  split
  · trivial
  · cases l.pending with
    | none => trivial
    | some pending =>
      refine WritesOnly.bind (WritesOnly.attempt (WritesOnly.recording ?_)) fun r => ?_
      · unfold Lookup.stepFrom
        refine WritesOnly.bind (writesOnly_loadNodeSized pending) fun r => ?_
        obtain ⟨node, bytes⟩ := r
        cases node with
        | leaf key value => trivial
        | branch bit left right =>
          refine WritesOnly.bind (writesOnly_lift _) fun _ => ?_
          trivial
      · cases r with
        | ok r => trivial
        | error e => trivial

theorem writesOnly_finish (steps : ℕ) (l : Lookup) :
    (Lookup.finish sha256 steps l).WritesOnly P := by
  induction steps generalizing l with
  | zero => trivial
  | succ steps ih =>
    unfold Lookup.finish
    refine WritesOnly.bind (writesOnly_lookupStep l) fun r => ?_
    refine WritesOnly.bind (writesOnly_lift _) fun bytes => ?_
    cases bytes with
    | some b => exact ih r.2
    | none => trivial

theorem writesOnly_get (m : DiskMap) (key : Digest) : (get sha256 m key).WritesOnly P := by
  unfold get
  refine WritesOnly.bind (writesOnly_finish 258 _) fun l => ?_
  exact writesOnly_lift _

theorem writesOnly_walkStep (walk : Walk) : (walk.step sha256).WritesOnly P := by
  unfold Walk.step
  split
  · trivial
  · cases walk.pending with
    | nil => trivial
    | cons pending rest =>
      refine WritesOnly.bind (WritesOnly.attempt (WritesOnly.recording ?_)) fun r => ?_
      · unfold Walk.stepFrom
        refine WritesOnly.bind (writesOnly_loadNodeInner pending) fun node => ?_
        cases node with
        | leaf key value =>
          refine WritesOnly.bind (writesOnly_lift _) fun _ => ?_
          trivial
        | branch bit left right =>
          refine WritesOnly.bind (writesOnly_lift _) fun _ => ?_
          refine WritesOnly.bind (writesOnly_lift _) fun _ => ?_
          trivial
      · cases r with
        | ok r => trivial
        | error e => trivial

theorem writesOnly_walkCollect (steps : ℕ) (walk : Walk) :
    (walk.collect sha256 steps).WritesOnly P := by
  induction steps generalizing walk with
  | zero => trivial
  | succ steps ih =>
    unfold Walk.collect
    refine WritesOnly.bind (writesOnly_walkStep walk) fun r => ?_
    refine WritesOnly.bind (writesOnly_lift _) fun visit => ?_
    cases visit with
    | none => trivial
    | some visit =>
      refine WritesOnly.bind (ih r.2) fun _ => ?_
      trivial

theorem writesOnly_visit (it : Entries) (pending : Pending) (rest : List Pending) :
    (it.visit sha256 pending rest).WritesOnly P := by
  unfold Entries.visit
  refine WritesOnly.bind (writesOnly_loadNode pending) fun node => ?_
  cases node with
  | leaf key value =>
    simp only
    split
    · trivial
    · refine WritesOnly.bind (writesOnly_lift _) fun _ => ?_
      trivial
  | branch bit left right =>
    refine WritesOnly.bind (writesOnly_lift _) fun _ => ?_
    refine WritesOnly.bind (writesOnly_lift _) fun _ => ?_
    trivial

theorem writesOnly_nextWithin (nodes : ℕ) (it : Entries) :
    (it.nextWithin sha256 nodes).WritesOnly P := by
  induction nodes generalizing it with
  | zero => trivial
  | succ nodes ih =>
    unfold Entries.nextWithin
    cases it.pending with
    | nil => trivial
    | cons pending rest =>
      simp only
      split
      · exact ih _
      · refine WritesOnly.bind (writesOnly_visit it pending rest).attempt fun r => ?_
        rcases r with e | ⟨item, next⟩
        · trivial
        · cases item with
          | some e => trivial
          | none => exact ih next

theorem writesOnly_collect (calls : ℕ) (it : Entries) :
    (it.collect sha256 calls).WritesOnly P := by
  induction calls generalizing it with
  | zero => trivial
  | succ calls ih =>
    unfold Entries.collect
    refine WritesOnly.bind (writesOnly_nextWithin _ it) fun r => ?_
    obtain ⟨item, next⟩ := r
    cases item with
    | none => trivial
    | some item =>
      refine WritesOnly.bind (ih next) fun _ => ?_
      trivial

/-- A call of the iterator reports errors as items. -/
theorem run_nextWithin_ok (S : ContextStorage σ) (nodes : ℕ) (it : Entries) (w : World σ) :
    ∃ r w', (it.nextWithin sha256 nodes).run S w = (.ok r, w') := by
  induction nodes generalizing it w with
  | zero => exact ⟨_, _, rfl⟩
  | succ nodes ih =>
    unfold Entries.nextWithin
    cases it.pending with
    | nil => exact ⟨_, _, rfl⟩
    | cons pending rest =>
      simp only
      split
      · exact ih _ w
      · rw [run_bind, run_attempt]
        rcases (it.visit sha256 pending rest).run S w with ⟨r, w'⟩
        rcases r with e | ⟨item, next⟩
        · exact ⟨_, _, rfl⟩
        · cases item with
          | some e => exact ⟨_, _, rfl⟩
          | none => exact ih next w'

theorem run_collect_ok (S : ContextStorage σ) (calls : ℕ) (it : Entries) (w : World σ) :
    ∃ items w', (it.collect sha256 calls).run S w = (.ok items, w') := by
  induction calls generalizing it w with
  | zero => exact ⟨_, _, rfl⟩
  | succ calls ih =>
    obtain ⟨⟨item, next⟩, w', hnext⟩ := run_nextWithin_ok S (it.remaining + 1) it w
    unfold Entries.collect
    rw [run_bind, Entries.next, hnext]
    cases item with
    | none => exact ⟨_, _, rfl⟩
    | some item =>
      obtain ⟨items, w'', hitems⟩ := ih next w'
      simp only
      rw [run_bind, hitems]
      exact ⟨_, _, rfl⟩

/-- The associations after a write: an existing key keeps its value unless it is replaced. -/
def assign (f : Digest → Option (List UInt8)) (key : Digest) (value : List UInt8) (replace : Bool) :
    Digest → Option (List UInt8) :=
  if replace = false ∧ (f key).isSome then f else Function.update f key (some value)

/-- A handle with the associations written through it. Between its writes the storage may change
in any way, and other maps may add records. -/
inductive Reached (S : ContextStorage σ) (sha256 : List UInt8 → Digest) :
    World σ → DiskMap → (Digest → Option (List UInt8)) → Prop
  | empty {w : World σ} : (∀ r ∈ w.written, Addressed sha256 r.1 r.2) →
      Reached S sha256 w {} fun _ => none
  | write {w w' : World σ} {m m' : DiskMap} {f : Digest → Option (List UInt8)} {key : Digest}
      {value : List UInt8} {replace added : Bool} : Reached S sha256 w m f →
      (writeValue sha256 m key value replace).run S w = (.ok (.ok added, m'), w') →
      Reached S sha256 w' m' (assign f key value replace)
  | other {w w' : World σ} {m : DiskMap} {f : Digest → Option (List UInt8)} :
      Reached S sha256 w m f → w.written ⊆ w'.written →
      (∀ r ∈ w'.written, r ∈ w.written ∨ Addressed sha256 r.1 r.2) → Reached S sha256 w' m f

theorem findIn_writeTree {log : WriteLog} {root : Option Root} {t : Option ValueTree}
    (h : Holds sha256 log root t) (key : Digest) (value : List UInt8) (replace : Bool) (k : Digest) :
    findIn k (some (writeTree key value replace t)) =
      assign (fun k => findIn k t) key value replace k := by
  unfold assign
  cases t with
  | none =>
    have hnone : (findIn key (none : Option ValueTree)).isSome = false := rfl
    rw [hnone, if_neg (fun hc => absurd hc.2 Bool.false_ne_true)]
    by_cases hk : k = key
    · subst hk
      rw [Function.update_self]
      exact if_pos rfl
    · rw [Function.update_of_ne hk]
      exact if_neg (Ne.symm hk)
  | some t =>
    have hwf := (h.stored t rfl).wellFormed
    have hsome : (findIn key (some t)).isSome = true ↔ (t.terminal key).1 = key := by
      change (t.find key).isSome = true ↔ _
      unfold PatriciaTree.find
      by_cases hkey : (t.terminal key).1 = key
      · simp [hkey]
      · simp [hkey]
    simp only [writeTree]
    by_cases hkeep : replace = false ∧ (t.terminal key).1 = key
    · rw [if_pos hkeep, if_pos ⟨hkeep.1, hsome.mpr hkeep.2⟩]
    · rw [if_neg hkeep, if_neg fun hc => hkeep ⟨hc.1, hsome.mp hc.2⟩]
      change (t.write key value).find k = _
      rw [PatriciaTree.find_write hwf]
      by_cases hk : k = key
      · subst hk
        rw [if_pos rfl, Function.update_self]
      · rw [if_neg hk, Function.update_of_ne hk]
        rfl

theorem run_writeValue (S : ContextStorage σ) (m : DiskMap) (key : Digest) (value : List UInt8)
    (replace : Bool) (w : World σ) :
    (writeValue sha256 m key value replace).run S w =
      match (writeRoot sha256 m.root key value replace).run S w with
      | (.ok (root, added), w') => (.ok (.ok added, ⟨root⟩), w')
      | (.error e, w') => (.ok (.error e, m), w') := by
  unfold writeValue
  rw [run_bind, run_attempt]
  rcases (writeRoot sha256 m.root key value replace).run S w with ⟨r, w'⟩
  cases r with
  | ok r => rfl
  | error e => rfl

theorem length_le_of_writeRoot {S : ContextStorage σ} {root : Option Root} {key : Digest}
    {value : List UInt8} {replace : Bool} {w w' : World σ} {r : Option Root × Bool}
    (h : (writeRoot sha256 root key value replace).run S w = (.ok r, w')) :
    value.length ≤ maxValueBytes := by
  by_contra hlong
  unfold writeRoot at h
  rw [lift_require_bind_of_not hlong] at h
  cases h

/-- A write that succeeds on a stored map, or fails and leaves the handle as it was. -/
theorem writeValue_spec {S : ContextStorage σ} {I : World σ → Prop} {Safe : WriteLog → Prop}
    (hA : Authentic S (storageAddress sha256) I Safe) {w w' : World σ} {m m' : DiskMap}
    {t : Option ValueTree} {key : Digest} {value : List UInt8} {replace : Bool}
    {r : Except ContextError Bool} (hw : I w) (h : Holds sha256 w.written m.root t)
    (hrun : (writeValue sha256 m key value replace).run S w = (.ok (r, m'), w'))
    (hsafe : Safe w'.written) :
    (∃ added, r = .ok added ∧ added = (findIn key t).isNone ∧
      Holds sha256 w'.written m'.root (some (writeTree key value replace t))) ∨
    (∃ e, r = .error e) ∧ m' = m ∧ (value.length ≤ maxValueBytes → ¬ Reliable S I Safe) := by
  rw [run_writeValue] at hrun
  rcases hroot : (writeRoot sha256 m.root key value replace).run S w with ⟨outcome, w₁⟩
  rw [hroot] at hrun
  cases outcome with
  | error e =>
    cases hrun
    refine Or.inr ⟨⟨e, rfl⟩, rfl, fun hvalue => ?_⟩
    have hensures : Ensures S I Safe (writeRoot sha256 m.root key value replace) w _ :=
      ensures_writeRoot hA replace hw h hvalue
    unfold Ensures at hensures
    rw [hroot] at hensures
    rcases hensures hsafe with ⟨v, hv, _⟩ | ⟨_, hfault⟩
    · cases hv
    · exact hfault
  | ok r =>
    cases hrun
    have hvalue := length_le_of_writeRoot hroot
    have hensures : Ensures S I Safe (writeRoot sha256 m.root key value replace) w _ :=
      ensures_writeRoot hA replace hw h hvalue
    unfold Ensures at hensures
    rw [hroot] at hensures
    rcases hensures hsafe with ⟨v, hv, hholds, hadded⟩ | ⟨⟨e, he⟩, _⟩
    · cases hv
      exact Or.inl ⟨_, rfl, hadded, hholds⟩
    · cases he

theorem run_writeValue_ok (S : ContextStorage σ) (m : DiskMap) (key : Digest) (value : List UInt8)
    (replace : Bool) (w : World σ) :
    ∃ r m' w', (writeValue sha256 m key value replace).run S w = (.ok (r, m'), w') := by
  rw [run_writeValue]
  rcases (writeRoot sha256 m.root key value replace).run S w with ⟨outcome, w'⟩
  cases outcome with
  | ok r => exact ⟨_, _, _, rfl⟩
  | error e => exact ⟨_, _, _, rfl⟩

theorem Reached.addressed {S : ContextStorage σ} {w : World σ} {m : DiskMap}
    {f : Digest → Option (List UInt8)} (h : Reached S sha256 w m f) :
    ∀ r ∈ w.written, Addressed sha256 r.1 r.2 := by
  induction h with
  | empty haddressed => exact haddressed
  | @write w w' m m' f key value replace added _ hrun ih =>
    intro r hr
    have hwrites : (writeValue sha256 m key value replace).WritesOnly (Addressed sha256) :=
      writesOnly_writeValue m key value replace
    have hr' : r ∈ ((writeValue sha256 m key value replace).run S w).2.written := by
      rw [hrun]
      exact hr
    rcases hwrites.mem_written S hr' with hold | hnew
    · exact ih r hold
    · exact hnew
  | other _ _ hnew ih =>
    intro r hr
    rcases hnew r hr with hold | hnew
    · exact ih r hold
    · exact hnew

/-- Behind a reached handle stands a stored tree with exactly its associations. -/
theorem Reached.exists_tree {S : ContextStorage σ} {w : World σ} {m : DiskMap}
    {f : Digest → Option (List UInt8)} (h : Reached S sha256 w m f)
    (hsafe : Unforgeable sha256 w.written) :
    ∃ t, Holds sha256 w.written m.root t ∧ ∀ k, f k = findIn k t := by
  have hA : Authentic S (storageAddress sha256) (fun _ => True) (Unforgeable sha256) :=
    authentic_of_unforgeable S
  induction h with
  | empty _ => exact ⟨none, holds_none _, fun _ => rfl⟩
  | @write w w' m m' f key value replace added _ hrun ih =>
    have hgrow := written_subset_run S (writeValue sha256 m key value replace) w
    rw [hrun] at hgrow
    obtain ⟨t, hholds, hf⟩ := ih (hA.antitone hgrow hsafe)
    rcases writeValue_spec hA trivial hholds hrun hsafe with ⟨_, _, _, hnew⟩ | ⟨⟨e, he⟩, _⟩
    · refine ⟨_, hnew, fun k => ?_⟩
      rw [findIn_writeTree hholds, show f = fun k => findIn k t from funext hf]
    · cases he
  | other _ hsub _ ih =>
    obtain ⟨t, hholds, hf⟩ := ih (hA.antitone hsub hsafe)
    exact ⟨t, hholds.mono hsub, hf⟩

/-- The logged nodes that can be reached from the root of a handle. -/
inductive Reachable (sha256 : List UInt8 → Digest) (log : WriteLog) (m : DiskMap) :
    Digest → List UInt8 → Prop
  | root {r : Root} {b : List UInt8} : m.root = some r → r.address = storageAddress sha256 b →
      (r.address, b) ∈ log → Reachable sha256 log m r.address b
  | child {a : Digest} {b b' : List UInt8} {bit : ℕ} {left right c : Child} :
      Reachable sha256 log m a b → Node.decode b = .ok (.branch bit left right) →
      c = left ∨ c = right → c.root.address = storageAddress sha256 b' →
      (c.root.address, b') ∈ log → Reachable sha256 log m c.root.address b'

theorem Reachable.mem_log {log : WriteLog} {m : DiskMap} {a : Digest} {b : List UInt8}
    (h : Reachable sha256 log m a b) : (a, b) ∈ log := by
  cases h with
  | root _ _ hmem => exact hmem
  | child _ _ _ _ hmem => exact hmem

/-- The subtrees of a tree, itself included. -/
def subtrees : ValueTree → List ValueTree
  | .leaf key value => [.leaf key value]
  | .branch i left right => .branch i left right :: (subtrees left ++ subtrees right)

theorem visits_eq_map (t : ValueTree) : visits sha256 t = (subtrees t).map (visitOf sha256) := by
  induction t with
  | leaf key value => rfl
  | branch i left right ihl ihr =>
    rw [visits, subtrees, List.map_cons, List.map_append, ihl, ihr]

theorem mem_subtrees_self (t : ValueTree) : t ∈ subtrees t := by
  cases t with
  | leaf key value => exact List.mem_cons_self
  | branch i left right => exact List.mem_cons_self

theorem stored_of_mem_subtrees {log : WriteLog} {t s : ValueTree} (h : Stored sha256 log t)
    (hs : s ∈ subtrees t) : Stored sha256 log s := by
  induction t with
  | leaf key value =>
    rw [List.mem_singleton.mp hs]
    exact h
  | branch i left right ihl ihr =>
    rcases List.mem_cons.mp hs with rfl | hs
    · exact h
    · rcases List.mem_append.mp hs with hs | hs
      · exact ihl h.left hs
      · exact ihr h.right hs

theorem child_mem_subtrees {t left right : ValueTree} {i : ℕ}
    (h : PatriciaTree.branch i left right ∈ subtrees t) :
    left ∈ subtrees t ∧ right ∈ subtrees t := by
  induction t with
  | leaf key value => exact absurd (List.mem_singleton.mp h) (by rintro ⟨⟩)
  | branch j l r ihl ihr =>
    rcases List.mem_cons.mp h with heq | h
    · cases heq
      exact ⟨List.mem_cons_of_mem _ (List.mem_append_left _ (mem_subtrees_self _)),
        List.mem_cons_of_mem _ (List.mem_append_right _ (mem_subtrees_self _))⟩
    · rcases List.mem_append.mp h with h | h
      · exact ⟨List.mem_cons_of_mem _ (List.mem_append_left _ (ihl h).1),
          List.mem_cons_of_mem _ (List.mem_append_left _ (ihl h).2)⟩
      · exact ⟨List.mem_cons_of_mem _ (List.mem_append_right _ (ihr h).1),
          List.mem_cons_of_mem _ (List.mem_append_right _ (ihr h).2)⟩

theorem maxKey_le_of_mem_subtrees {t s : ValueTree} (h : t.WellFormed) (hs : s ∈ subtrees t) :
    t.minKey ≤ s.minKey ∧ s.maxKey ≤ t.maxKey := by
  induction t with
  | leaf key value =>
    rw [List.mem_singleton.mp hs]
    exact ⟨le_rfl, le_rfl⟩
  | branch i left right ihl ihr =>
    rcases List.mem_cons.mp hs with rfl | hs
    · exact ⟨le_rfl, le_rfl⟩
    · rcases List.mem_append.mp hs with hs | hs
      · obtain ⟨hmin, hmax⟩ := ihl h.1 hs
        exact ⟨hmin, hmax.trans (PatriciaTree.lt_of_branch h left.maxKey_mem right.maxKey_mem).le⟩
      · obtain ⟨hmin, hmax⟩ := ihr h.2.1 hs
        exact ⟨(PatriciaTree.lt_of_branch h left.minKey_mem right.minKey_mem).le.trans hmin, hmax⟩

section

variable {S : ContextStorage σ} {I : World σ → Prop} {Safe : WriteLog → Prop}
  (hA : Authentic S (storageAddress sha256) I Safe)

include hA

/-- Stored trees with one address are equal in their key ranges. -/
theorem range_eq_of_address {log : WriteLog} (hsafe : Safe log) {s s' : ValueTree}
    (hs : Stored sha256 log s) (hs' : Stored sha256 log s')
    (he : (treeChild sha256 s).root.address = (treeChild sha256 s').root.address) :
    s.minKey = s'.minKey ∧ s.maxKey = s'.maxKey := by
  rw [treeChild_eq, treeChild_eq] at he
  have hencode := hA.injective hsafe hs.saved.record_mem hs'.saved.record_mem he
  have hnode := Node.encode_injective (fits_treeNode hs.wellFormed hs.fits)
    (fits_treeNode hs'.wellFormed hs'.fits) hencode
  have hrange := congrArg Node.range hnode
  rw [range_treeNode, range_treeNode] at hrange
  exact ⟨(KeyRange.mk.inj hrange).1, (KeyRange.mk.inj hrange).2⟩

/-- No node of a stored tree is visited twice. -/
theorem nodup_addresses {log : WriteLog} (hsafe : Safe log) {t : ValueTree}
    (h : Stored sha256 log t) : ((visits sha256 t).map Visit.address).Nodup := by
  have hmem : ∀ {s : ValueTree} {a : Digest}, a ∈ (visits sha256 s).map Visit.address →
      ∃ s' ∈ subtrees s, (treeChild sha256 s').root.address = a := by
    intro s a ha
    rw [visits_eq_map, List.map_map] at ha
    obtain ⟨s', hs', rfl⟩ := List.mem_map.mp ha
    exact ⟨s', hs', rfl⟩
  induction t with
  | leaf key value => exact List.nodup_singleton _
  | branch i left right ihl ihr =>
    have hl := h.left
    have hr := h.right
    have hlt := PatriciaTree.lt_of_branch h.wellFormed left.maxKey_mem right.maxKey_mem
    rw [visits, List.map_cons, List.map_append, List.nodup_cons]
    constructor
    · intro ha
      rcases List.mem_append.mp ha with ha | ha
      · obtain ⟨s, hs, he⟩ := hmem ha
        have hrange := range_eq_of_address hA hsafe (stored_of_mem_subtrees hl hs) h he
        have hle := (maxKey_le_of_mem_subtrees hl.wellFormed hs).2
        rw [hrange.2] at hle
        exact absurd hlt (not_lt.mpr hle)
      · obtain ⟨s, hs, he⟩ := hmem ha
        have hrange := range_eq_of_address hA hsafe (stored_of_mem_subtrees hr hs) h he
        have hle := (maxKey_le_of_mem_subtrees hr.wellFormed hs).1
        rw [hrange.1] at hle
        exact absurd (PatriciaTree.lt_of_branch h.wellFormed left.minKey_mem right.minKey_mem)
          (not_lt.mpr hle)
    · refine List.nodup_append.mpr ⟨ihl hl, ihr hr, ?_⟩
      intro a ha b hb hab
      obtain ⟨s, hs, he⟩ := hmem ha
      obtain ⟨s', hs', he'⟩ := hmem hb
      have hrange := range_eq_of_address hA hsafe (stored_of_mem_subtrees hl hs)
        (stored_of_mem_subtrees hr hs') (he.trans (hab.trans he'.symm))
      have hle := (maxKey_le_of_mem_subtrees hl.wellFormed hs).2
      have hle' := (maxKey_le_of_mem_subtrees hr.wellFormed hs').1
      have hlt' := PatriciaTree.lt_of_branch h.wellFormed left.maxKey_mem right.minKey_mem
      have hminmax := PatriciaTree.minKey_le (stored_of_mem_subtrees hr hs').wellFormed
        s'.maxKey_mem
      rw [← hrange.2] at hminmax
      exact absurd (hminmax.trans hle) (not_le.mpr (lt_of_lt_of_le hlt' hle'))

/-- The visits of a walk are the reachable nodes. -/
theorem reachable_iff {log : WriteLog} (hsafe : Safe log) {m : DiskMap} {t : Option ValueTree}
    (h : Holds sha256 log m.root t) (a : Digest) (b : List UInt8) :
    Reachable sha256 log m a b ↔
      ∃ v ∈ forestVisits sha256 t.toList, v.address = a ∧ v.bytes = b := by
  constructor
  · intro hreach
    suffices hs : ∃ root, t = some root ∧ ∃ s ∈ subtrees root,
        (treeChild sha256 s).root.address = a ∧ (treeNode sha256 s).encode = b by
      obtain ⟨root, rfl, s, hs, rfl, rfl⟩ := hs
      refine ⟨visitOf sha256 s, ?_, rfl, rfl⟩
      simp only [forestVisits, Option.toList_some, List.flatMap_cons, List.flatMap_nil,
        List.append_nil, visits_eq_map]
      exact List.mem_map_of_mem hs
    induction hreach with
    | @root r b hroot haddress hmem =>
      cases t with
      | none =>
        rw [h.root_eq] at hroot
        cases hroot
      | some root =>
        rw [h.root_eq] at hroot
        cases hroot
        refine ⟨root, rfl, root, mem_subtrees_self root, rfl, ?_⟩
        have hrecord := (h.stored root rfl).saved.record_mem
        rw [haddress] at hmem
        change (treeChild sha256 root).root.address = _ at haddress
        rw [treeChild_eq] at haddress
        exact hA.injective hsafe hrecord hmem haddress
    | @child a b b' bit left right c _ hdecode hc haddress hmem ih =>
      obtain ⟨root, rfl, s, hs, rfl, rfl⟩ := ih
      have hstored := stored_of_mem_subtrees (h.stored root rfl) hs
      rw [Node.decode_encode (fits_treeNode hstored.wellFormed hstored.fits)
        (hstored.validate hA hsafe)] at hdecode
      cases s with
      | leaf key value => cases hdecode
      | branch i l r =>
        cases hdecode
        obtain ⟨hl, hr⟩ := child_mem_subtrees hs
        rw [haddress] at hmem
        rcases hc with rfl | rfl
        · refine ⟨root, rfl, l, hl, rfl, ?_⟩
          rw [treeChild_eq] at haddress
          exact hA.injective hsafe hstored.left.saved.record_mem hmem haddress
        · refine ⟨root, rfl, r, hr, rfl, ?_⟩
          rw [treeChild_eq] at haddress
          exact hA.injective hsafe hstored.right.saved.record_mem hmem haddress
  · rintro ⟨v, hv, rfl, rfl⟩
    cases t with
    | none => cases hv
    | some root =>
      simp only [forestVisits, Option.toList_some, List.flatMap_cons, List.flatMap_nil,
        List.append_nil, visits_eq_map] at hv
      obtain ⟨s, hs, rfl⟩ := List.mem_map.mp hv
      have hroot := h.stored root rfl
      have htop : Reachable sha256 log m (treeChild sha256 root).root.address
          (treeNode sha256 root).encode := by
        have hmem := hroot.saved.record_mem
        refine Reachable.root (by rw [h.root_eq]; rfl) (by rw [treeChild_eq]; rfl) ?_
        rw [treeChild_eq]
        exact hmem
      clear hv h
      induction root with
      | leaf key value =>
        rw [List.mem_singleton.mp hs]
        exact htop
      | branch i left right ihl ihr =>
        have hdecode := Node.decode_encode (fits_treeNode hroot.wellFormed hroot.fits)
          (hroot.validate hA hsafe)
        have hstep : ∀ c : ValueTree, c = left ∨ c = right → Stored sha256 log c →
            Reachable sha256 log m (treeChild sha256 c).root.address
              (treeNode sha256 c).encode := by
          intro c hc hstored
          refine Reachable.child htop hdecode ?_ (by rw [treeChild_eq]; rfl) ?_
          · rcases hc with rfl | rfl
            · exact Or.inl rfl
            · exact Or.inr rfl
          · have := hstored.saved.record_mem
            rw [treeChild_eq]
            exact this
        rcases List.mem_cons.mp hs with rfl | hs
        · exact htop
        · rcases List.mem_append.mp hs with hs | hs
          · exact ihl hs hroot.left (hstep left (Or.inl rfl) hroot.left)
          · exact ihr hs hroot.right (hstep right (Or.inr rfl) hroot.right)

/-- The answers of a handle over a storage that is relied on, and when they are errors. -/
theorem answers {w : World σ} {m : DiskMap} {t : Option ValueTree} (hw : I w)
    (h : Holds sha256 w.written m.root t) (hsafe : Safe w.written) :
    (∀ key, (∃ e, ((get sha256 m key).run S w).1 = .error e) ∧ ¬ Reliable S I Safe ∨
      ((get sha256 m key).run S w).1 = .ok (findIn key t)) ∧
    (∀ after calls, (entriesAbove after t.toList).length < calls →
      ∃ items, (((m.entriesAfter after).collect sha256 calls).run S w).1 = .ok items ∧
        ((∃ e, .error e ∈ items) ∧ ¬ Reliable S I Safe ∨
          items = (entriesAbove after t.toList).map .ok)) ∧
    (∀ steps, forestSize t.toList < steps →
      (∃ e, ((m.walk.collect sha256 steps).run S w).1 = .error e) ∧ ¬ Reliable S I Safe ∨
      ((m.walk.collect sha256 steps).run S w).1 = .ok (forestVisits sha256 t.toList)) := by
  have hreads : ∀ {α : Type} {p : StorageM α}, p.WritesOnly (fun _ _ => False) →
      Safe (p.run S w).2.written := by
    intro α p hp
    refine hA.antitone ?_ hsafe
    intro r hr
    rcases hp.mem_written S hr with hold | hnew
    · exact hold
    · exact hnew.elim
  refine ⟨?_, ?_, ?_⟩
  · intro key
    rcases ensures_get hA hw h (hreads (writesOnly_get m key)) with ⟨v, hv, rfl⟩ | herror
    · exact Or.inr hv
    · exact Or.inl herror
  · intro after calls hcalls
    obtain ⟨items, w', hitems⟩ := run_collect_ok S calls (m.entriesAfter after) w
    have hensures := ensures_collect hA hw (entriesAt_entriesAfter h after) hcalls
      (hreads (writesOnly_collect calls _))
    rw [hitems] at hensures ⊢
    refine ⟨items, rfl, ?_⟩
    rcases hensures with ⟨v, hv, hvalue⟩ | ⟨⟨e, he⟩, _⟩
    · cases hv
      exact hvalue.symm
    · cases he
  · intro steps hsteps
    rcases ensures_walkCollect hA hw (walkAt_walk h) hsteps
      (hreads (writesOnly_walkCollect steps _)) with ⟨v, hv, rfl⟩ | herror
    · exact Or.inr hv
    · exact Or.inl herror

end

theorem mem_entriesAbove {log : WriteLog} {root : Option Root} {t : Option ValueTree}
    (h : Holds sha256 log root t) (after : Option Digest) (k : Digest) (v : List UInt8) :
    (k, v) ∈ entriesAbove after t.toList ↔ findIn k t = some v ∧ ∀ a, after = some a → a < k := by
  have habove : above after (k, v) = true ↔ ∀ a, after = some a → a < k := by
    cases after with
    | none => simp [above]
    | some a => simp [above]
  unfold entriesAbove
  rw [List.mem_filter, habove]
  refine and_congr ?_ Iff.rfl
  cases t with
  | none => simp [forestEntries, findIn]
  | some t =>
    have hwf := (h.stored t rfl).wellFormed
    simp only [forestEntries, Option.toList_some, List.flatMap_cons, List.flatMap_nil,
      List.append_nil]
    exact (PatriciaTree.find_eq_some hwf).symm

theorem pairwise_entriesAbove {log : WriteLog} {m : DiskMap} {t : Option ValueTree}
    (h : Holds sha256 log m.root t) (after : Option Digest) :
    (entriesAbove after t.toList).Pairwise fun e e' => e.1 < e'.1 :=
  (forest_ofRoot h).ascending.sublist List.filter_sublist

section

variable {S : ContextStorage σ}

/-- A write changes the handle only where it succeeds. -/
theorem handle_of_error {m m' : DiskMap} {w w' : World σ} {key : Digest} {value : List UInt8}
    {replace : Bool} {e : ContextError}
    (h : (writeValue sha256 m key value replace).run S w = (.ok (.error e, m'), w')) : m' = m := by
  rw [run_writeValue] at h
  rcases hroot : (writeRoot sha256 m.root key value replace).run S w with ⟨outcome, w₁⟩
  rw [hroot] at h
  cases outcome with
  | ok r => cases h
  | error e =>
    cases h
    rfl

theorem mem_written_writeValue {m : DiskMap} {w w' : World σ} {key : Digest} {value : List UInt8}
    {replace : Bool} {o : Except ContextError (Except ContextError Bool × DiskMap)}
    (hrun : (writeValue sha256 m key value replace).run S w = (o, w')) {r : Digest × List UInt8}
    (hr : r ∈ w'.written) : r ∈ w.written ∨ Addressed sha256 r.1 r.2 := by
  have hr' : r ∈ ((writeValue sha256 m key value replace).run S w).2.written := by
    rw [hrun]
    exact hr
  exact (writesOnly_writeValue m key value replace).mem_written S hr'

/-- A failed write leaves a reached map as it was. -/
theorem Reached.refused {m m' : DiskMap} {w w' : World σ} {f : Digest → Option (List UInt8)}
    (h : Reached S sha256 w m f) {s : σ} {key : Digest} {value : List UInt8} {replace : Bool}
    {e : ContextError} (hrun : (writeValue sha256 m key value replace).run S ⟨s, w.written⟩ =
      (.ok (.error e, m'), w')) : m' = m ∧ Reached S sha256 w' m f := by
  have hgrow := written_subset_run S (writeValue sha256 m key value replace) ⟨s, w.written⟩
  rw [hrun] at hgrow
  exact ⟨handle_of_error hrun, h.other hgrow fun r hr => mem_written_writeValue hrun hr⟩

/-- A faithful storage makes no write of a value of admitted length fail. -/
theorem Reached.writes {m : DiskMap} {w : World σ} {f : Digest → Option (List UInt8)}
    (h : Reached S sha256 w m f) (hunforgeable : Unforgeable sha256 w.written)
    {records : σ → Digest → Option (List UInt8)} (hfaithful : Faithful S records)
    (hconsistent : Consistent records w) (key : Digest) {value : List UInt8} (replace : Bool)
    (hvalue : value.length ≤ maxValueBytes)
    (hfinal : Unforgeable sha256 ((writeValue sha256 m key value replace).run S w).2.written) :
    ∃ added m' w', (writeValue sha256 m key value replace).run S w = (.ok (.ok added, m'), w') := by
  obtain ⟨t, hholds, -⟩ := h.exists_tree hunforgeable
  obtain ⟨r, m', w', hrun⟩ := run_writeValue_ok S m key value replace w
  rw [hrun] at hfinal
  have haddressed : ∀ r ∈ w'.written, Addressed sha256 r.1 r.2 := by
    intro r hr
    rcases mem_written_writeValue hrun hr with hold | hnew
    · exact h.addressed r hold
    · exact hnew
  rcases writeValue_spec (hfaithful.authentic (storageAddress sha256)) hconsistent hholds hrun
    (hfinal.functional haddressed) with ⟨added, rfl, _⟩ | ⟨_, _, hfault⟩
  · exact ⟨added, m', w', hrun⟩
  · exact absurd hfaithful.reliable (hfault hvalue)

end

/-- A handle reached by successful writes is a finite map over untrusted storage: every answer
is an error or exact, a failed write changes nothing, and a faithful storage makes nothing fail
except an oversized value. -/
theorem finite_map (S : ContextStorage σ) (sha256 : List UInt8 → Digest) (w : World σ) (m : DiskMap)
    (f : Digest → Option (List UInt8)) (h : Reached S sha256 w m f)
    (hunforgeable : Unforgeable sha256 w.written) :
    (∀ s key, ((get sha256 m key).run S ⟨s, w.written⟩).1 = .ok (f key) ∨
      ∃ e, ((get sha256 m key).run S ⟨s, w.written⟩).1 = .error e) ∧
    (∀ after, ∃ l : List (Digest × List UInt8), l.Pairwise (fun e e' => e.1 < e'.1) ∧
      (∀ k v, (k, v) ∈ l ↔ f k = some v ∧ ∀ a, after = some a → a < k) ∧
      ∀ s calls, l.length < calls →
        ∃ items, (((m.entriesAfter after).collect sha256 calls).run S ⟨s, w.written⟩).1 =
          .ok items ∧ (items = l.map .ok ∨ ∃ e, .error e ∈ items)) ∧
    (∃ nodes : List Visit, (nodes.map Visit.address).Nodup ∧
      (∀ a b, Reachable sha256 w.written m a b ↔ ∃ v ∈ nodes, v.address = a ∧ v.bytes = b) ∧
      ∀ s steps, nodes.length < steps →
        ((m.walk.collect sha256 steps).run S ⟨s, w.written⟩).1 = .ok nodes ∨
        ∃ e, ((m.walk.collect sha256 steps).run S ⟨s, w.written⟩).1 = .error e) ∧
    (∀ s key value replace, ∃ r m' w',
      (writeValue sha256 m key value replace).run S ⟨s, w.written⟩ = (.ok (r, m'), w') ∧
      ((∃ e, r = .error e) → m' = m ∧ Reached S sha256 w' m f)) ∧
    (∀ records, Faithful S records → Consistent records w →
      (∀ key, ((get sha256 m key).run S w).1 = .ok (f key)) ∧
      (∀ after, ∃ n, ∀ calls > n, ∃ l : List (Digest × List UInt8),
        (((m.entriesAfter after).collect sha256 calls).run S w).1 = .ok (l.map .ok)) ∧
      (∃ n, ∀ steps > n, ∃ nodes, ((m.walk.collect sha256 steps).run S w).1 = .ok nodes) ∧
      ∀ key value replace, value.length ≤ maxValueBytes →
        Unforgeable sha256 ((writeValue sha256 m key value replace).run S w).2.written →
        ∃ added m' w',
          (writeValue sha256 m key value replace).run S w = (.ok (.ok added, m'), w')) := by
  obtain ⟨t, hholds, hf⟩ := h.exists_tree hunforgeable
  have hA : Authentic S (storageAddress sha256) (fun _ => True) (Unforgeable sha256) :=
    authentic_of_unforgeable S
  have hanswers : ∀ s : σ, _ := fun s =>
    answers hA (w := ⟨s, w.written⟩) trivial hholds hunforgeable
  refine ⟨?_, ?_, ?_, ?_, ?_⟩
  · intro s key
    rcases (hanswers s).1 key with ⟨herror, _⟩ | hok
    · exact Or.inr herror
    · rw [hf key]
      exact Or.inl hok
  · intro after
    refine ⟨entriesAbove after t.toList, pairwise_entriesAbove hholds after, ?_, ?_⟩
    · intro k v
      rw [mem_entriesAbove hholds, hf k]
    · intro s calls hcalls
      obtain ⟨items, hitems, hcases⟩ := (hanswers s).2.1 after calls hcalls
      refine ⟨items, hitems, ?_⟩
      rcases hcases with ⟨herror, _⟩ | hok
      · exact Or.inr herror
      · exact Or.inl hok
  · refine ⟨forestVisits sha256 t.toList, ?_, reachable_iff hA hunforgeable hholds, ?_⟩
    · cases t with
      | none => exact List.nodup_nil
      | some t =>
        simp only [forestVisits, Option.toList_some, List.flatMap_cons, List.flatMap_nil,
          List.append_nil]
        exact nodup_addresses hA hunforgeable (hholds.stored t rfl)
    · intro s steps hsteps
      rw [length_forestVisits] at hsteps
      rcases (hanswers s).2.2 steps hsteps with ⟨herror, _⟩ | hok
      · exact Or.inr herror
      · exact Or.inl hok
  · intro s key value replace
    obtain ⟨r, m', w', hrun⟩ := run_writeValue_ok S m key value replace ⟨s, w.written⟩
    refine ⟨r, m', w', hrun, ?_⟩
    rintro ⟨e, rfl⟩
    exact h.refused hrun
  · intro records hfaithful hconsistent
    have hA' := hfaithful.authentic (storageAddress sha256)
    have hreliable := hfaithful.reliable
    have hfunctional := hunforgeable.functional h.addressed
    obtain ⟨hget, hentries, hwalk⟩ := answers hA' hconsistent hholds hfunctional
    refine ⟨?_, ?_, ?_, ?_⟩
    · intro key
      rcases hget key with ⟨_, hfault⟩ | hok
      · exact absurd hreliable hfault
      · rw [hf key]
        exact hok
    · intro after
      refine ⟨(entriesAbove after t.toList).length, fun calls hcalls => ?_⟩
      obtain ⟨items, hitems, hcases⟩ := hentries after calls hcalls
      rcases hcases with ⟨_, hfault⟩ | rfl
      · exact absurd hreliable hfault
      · exact ⟨_, hitems⟩
    · refine ⟨forestSize t.toList, fun steps hsteps => ?_⟩
      rcases hwalk steps hsteps with ⟨_, hfault⟩ | hok
      · exact absurd hreliable hfault
      · exact ⟨_, hok⟩
    · intro key value replace hvalue hfinal
      exact h.writes hunforgeable hfaithful hconsistent key replace hvalue hfinal

namespace Pair

/-- The key with only the first bit. -/
def top : Digest := BitVec.ofNat 256 (2 ^ 255)

def nodes : List Node :=
  [.leaf 0 [7], .leaf top [9], .branch 0 ⟨⟨1, 4⟩, ⟨0, 0⟩⟩ ⟨⟨2, 5⟩, ⟨top, top⟩⟩]

def addressed (bytes : List UInt8) : List UInt8 :=
  asciiBytes "naome:checked-map:storage:v1" ++ [0] ++ bytes

/-- What is hashed for the fingerprint of one key. -/
def leafInput (key : Digest) : List UInt8 :=
  asciiBytes "naome:checked-map:leaf:v1" ++ [0] ++ digestBytes key

def inputs : List (List UInt8) :=
  (nodes.map fun n => addressed n.encode) ++ [leafInput 0, leafInput top]

/-- A digest without a collision with one of the nodes. -/
def digest (bytes : List UInt8) : Digest := BitVec.ofNat 256 (inputs.idxOf bytes + 1)

theorem toNat_digest (bytes : List UInt8) : (digest bytes).toNat = inputs.idxOf bytes + 1 := by
  have hle : inputs.idxOf bytes ≤ 5 := List.idxOf_le_length
  rw [digest, BitVec.toNat_ofNat, Nat.mod_eq_of_lt (by omega)]

theorem digest_inj {b b' : List UInt8} (hb : b ∈ nodes.map Node.encode)
    (h : storageAddress digest b' = storageAddress digest b) : b' = b := by
  have hmem : addressed b ∈ inputs := by
    obtain ⟨n, hn, rfl⟩ := List.mem_map.mp hb
    exact List.mem_append_left _ (List.mem_map_of_mem hn)
  have hsame : inputs.idxOf (addressed b) = inputs.idxOf (addressed b') := by
    have hnat := congrArg BitVec.toNat h
    rw [storageAddress, storageAddress, toNat_digest, toNat_digest] at hnat
    exact (Nat.add_right_cancel hnat).symm
  exact List.append_cancel_left ((List.idxOf_inj hmem).mp hsame).symm

/-- The handle and the storage after a successful write. -/
def wrote (r : Except ContextError (Except ContextError Bool × DiskMap) × World WriteLog) :
    Option (Bool × DiskMap × World WriteLog) :=
  match r with
  | (.ok (.ok added, m), w) => some (added, m, w)
  | _ => none

theorem wrote_eq_some {r : Except ContextError (Except ContextError Bool × DiskMap) × World WriteLog}
    {added : Bool} {m : DiskMap} {w : World WriteLog} (h : wrote r = some (added, m, w)) :
    r = (.ok (.ok added, m), w) := by
  unfold wrote at h
  split at h
  · cases h
    rfl
  · cases h

def write (m : DiskMap) (w : World WriteLog) (key : Digest) (value : List UInt8) :
    Option (Bool × DiskMap × World WriteLog) :=
  wrote ((writeValue digest m key value false).run memoryStorage w)

theorem isSome_first : (write {} ⟨[], []⟩ 0 [7]).isSome = true := by
  decide +kernel

def first : Bool × DiskMap × World WriteLog := Option.get _ isSome_first

theorem isSome_second : (write first.2.1 first.2.2 top [9]).isSome = true := by
  decide +kernel

/-- The map with two associations, below a branch. -/
def second : Bool × DiskMap × World WriteLog := Option.get _ isSome_second

theorem written_second : (∀ r ∈ second.2.2.written, r.2 ∈ nodes.map Node.encode) ∧
    second.2.2.written.length = 3 := by
  decide +kernel

theorem eq_ok_of_wrote {m : DiskMap} {w : World WriteLog} {key : Digest} {value : List UInt8}
    (h : (write m w key value).isSome = true) :
    (writeValue digest m key value false).run memoryStorage w =
      (.ok (.ok ((write m w key value).get h).1, ((write m w key value).get h).2.1),
        ((write m w key value).get h).2.2) :=
  wrote_eq_some (Option.some_get h).symm

theorem reached_second : Reached memoryStorage digest second.2.2 second.2.1
    (assign (assign (fun _ => none) 0 [7] false) top [9] false) := by
  have hfirst : Reached memoryStorage digest first.2.2 first.2.1 (assign (fun _ => none) 0 [7] false) :=
    .write (.empty (by rintro r ⟨⟩)) (eq_ok_of_wrote isSome_first)
  exact .write hfirst (eq_ok_of_wrote isSome_second)

theorem unforgeable_second : Unforgeable digest second.2.2.written :=
  fun _ hb _ he => digest_inj (written_second.1 _ hb) he

/-- The records of a storage in memory. -/
def held (s : WriteLog) (address : Digest) : Option (List UInt8) :=
  (s.find? fun r => decide (r.1 = address)).map Prod.snd

theorem consistent_write {m : DiskMap} {w : World WriteLog} {key : Digest} {value : List UInt8}
    (hw : Consistent held w) (h : (write m w key value).isSome = true) :
    Consistent held ((write m w key value).get h).2.2 := by
  have hkept : Consistent held ((writeValue digest m key value false).run memoryStorage w).2 :=
    Ensures.invariant (faithful_memoryStorage.authentic fun _ => 0) _ hw
  rwa [eq_ok_of_wrote h] at hkept

theorem consistent_second : Consistent held second.2.2 :=
  consistent_write (consistent_write (by rintro a b ⟨⟩) isSome_first) isSome_second

theorem top_ne : top ≠ 0 := by
  decide

/-- The branch and its two leaves. -/
def visited : List Visit :=
  [⟨3, (Node.branch 0 ⟨⟨1, 4⟩, ⟨0, 0⟩⟩ ⟨⟨2, 5⟩, ⟨top, top⟩⟩).encode, none⟩,
    ⟨1, (Node.leaf 0 [7]).encode, some (0, [7])⟩, ⟨2, (Node.leaf top [9]).encode, some (top, [9])⟩]

theorem collect_second :
    ((second.2.1.walk.collect digest 4).run memoryStorage second.2.2).1 = .ok visited := by
  decide +kernel

theorem assigned (key : Digest) :
    assign (assign (fun _ => none) 0 [7] false) top [9] false key =
      if key = top then some [9] else if key = 0 then some [7] else none := by
  have hfirst : assign (fun _ => none) 0 [7] false =
      Function.update (fun _ => none) (0 : Digest) (some [7]) := if_neg (by simp)
  have hnone : (Function.update (fun _ => none) (0 : Digest) (some ([7] : List UInt8)) top).isSome =
      false := by
    rw [Function.update_of_ne top_ne]
    rfl
  rw [hfirst, assign, if_neg (by rw [hnone]; decide), Function.update_apply, Function.update_apply]

end Pair

open Pair in
/-- Two keys below a branch of a storage in memory: both are found, another one is not, the entries
come in the order of the keys, and the walk visits the branch and its leaves. -/
theorem finite_map_branch :
    second.2.2.written.length = 3 ∧
      ((get digest second.2.1 0).run memoryStorage second.2.2).1 = .ok (some [7]) ∧
      ((get digest second.2.1 top).run memoryStorage second.2.2).1 = .ok (some [9]) ∧
      ((get digest second.2.1 1).run memoryStorage second.2.2).1 = .ok none ∧
      (∃ n, ∀ calls > n,
        (((second.2.1.entriesAfter none).collect digest calls).run memoryStorage second.2.2).1 =
          .ok [.ok (0, [7]), .ok (top, [9])]) ∧
      (∀ a b, Reachable digest second.2.2.written second.2.1 a b ↔
        ∃ v ∈ visited, v.address = a ∧ v.bytes = b) ∧
      ∃ n, ∀ steps > n,
        ((second.2.1.walk.collect digest steps).run memoryStorage second.2.2).1 = .ok visited := by
  obtain ⟨-, hentries, ⟨visits, hnodup, hreachable, hwalk⟩, -, hfaithful⟩ :=
    finite_map memoryStorage digest _ _ _ reached_second unforgeable_second
  obtain ⟨hget, hscan, ⟨n, hends⟩, -⟩ := hfaithful held faithful_memoryStorage consistent_second
  have hread : ∀ key, ((get digest second.2.1 key).run memoryStorage second.2.2).1 = _ :=
    fun key => (hget key).trans (by rw [assigned])
  have hvisits : visits = visited := by
    have hle : visits.length ≤ 3 := by
      have hsub : visits.map Visit.address ⊆ second.2.2.written.map Prod.fst := by
        intro a ha
        obtain ⟨v, hv, rfl⟩ := List.mem_map.mp ha
        exact List.mem_map_of_mem ((hreachable _ _).mpr ⟨v, hv, rfl, rfl⟩).mem_log
      have hlength := (List.subperm_of_subset hnodup hsub).length_le
      rwa [List.length_map, List.length_map, written_second.2] at hlength
    rcases hwalk second.2.2.storage 4 (by omega) with hok | ⟨e, herror⟩
    · exact Except.ok.inj (hok.symm.trans collect_second)
    · exact absurd (herror.symm.trans collect_second) (by simp)
  subst hvisits
  refine ⟨written_second.2, hread 0, hread top, hread 1, ?_, hreachable, max n visited.length, ?_⟩
  · obtain ⟨l, hsorted, hmem, hcollect⟩ := hentries none
    obtain ⟨n, hscan⟩ := hscan none
    have hl : l = [(0, [7]), (top, [9])] := by
      have hperm : l.Perm [(0, [7]), (top, [9])] := by
        rw [List.perm_ext_iff_of_nodup (hsorted.imp fun hlt heq => hlt.ne (congrArg Prod.fst heq))
          (by decide)]
        rintro ⟨key, value⟩
        rw [hmem, assigned]
        simp only [reduceCtorEq, false_implies, implies_true, and_true, List.mem_cons,
          Prod.mk.injEq, List.not_mem_nil, or_false]
        have htop := top_ne
        split_ifs <;> grind
      exact hperm.eq_of_pairwise (fun _ _ _ _ hab hba => absurd hab hba.asymm) hsorted (by decide)
    refine ⟨max n l.length, ?_⟩
    intro calls hcalls
    obtain ⟨l', hok⟩ := hscan calls (by omega)
    obtain ⟨items, hitems, hcases⟩ := hcollect second.2.2.storage calls (by omega)
    rcases hcases with rfl | ⟨e, he⟩
    · rw [hl] at hitems
      exact hitems
    · rw [hok] at hitems
      cases hitems
      simp at he
  · intro steps hsteps
    obtain ⟨nodes, hok⟩ := hends steps (by omega)
    rcases hwalk second.2.2.storage steps (by omega) with hvisits | ⟨e, herror⟩
    · exact hvisits
    · rw [hok] at herror
      cases herror

end Naome.DiskMap
