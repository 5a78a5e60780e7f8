import Naome.DiskMapSpec

/-!
# Reading and writing disk maps

Every operation on the root of a stored tree ends with what the tree determines, or fails
because the storage does.
-/
namespace Naome.DiskMap
open Outcome ByteCursor Fingerprint StorageM

section

variable {σ : Type} {S : ContextStorage σ} {sha256 : List UInt8 → Digest}
  {I : World σ → Prop} {Safe : WriteLog → Prop} {w : World σ} {t : ValueTree}

/-- A tree and the reference under which its root node is loaded. -/
structure At (sha256 : List UInt8 → Digest) (pending : Pending) (t : ValueTree) : Prop where
  root : pending.root = (treeChild sha256 t).root
  range : pending.range.all (fun range => decide (range = (treeNode sha256 t).range)) = true
  top : pending.previousBit = none → pending.depth = 0
  below : ∀ p, pending.previousBit = some p → p < 256 ∧ pending.depth ≤ p + 1 ∧
    ∀ k ∈ t.keys, ∀ k' ∈ t.keys, BitKey.AgreeBelow (p + 1) k k'

theorem at_ofRoot (t : ValueTree) : At sha256 (.ofRoot (treeChild sha256 t).root) t where
  root := rfl
  range := rfl
  top _ := rfl
  below _ h := by cases h

theorem At.depth_le {pending : Pending} (h : At sha256 pending t) : pending.depth ≤ 256 := by
  cases hp : pending.previousBit with
  | none =>
    rw [h.top hp]
    omega
  | some p =>
    have := h.below p hp
    omega

/-- The bit of a branch exceeds the bits above it, and there is one for each level. -/
theorem At.branch {pending : Pending} {i : ℕ} {left right : ValueTree}
    (h : At sha256 pending (.branch i left right))
    (hwf : PatriciaTree.WellFormed (.branch i left right)) :
    pending.depth ≤ i ∧ ∀ p, pending.previousBit = some p → p < i := by
  have hlt : ∀ p, pending.previousBit = some p → p < i := by
    intro p hp
    obtain ⟨_, _, hagree⟩ := h.below p hp
    by_contra hle
    have hmin := left.minKey_mem
    have hmax := right.maxKey_mem
    have hbit := hagree left.minKey (by rw [PatriciaTree.keys_branch]; exact List.mem_append_left _ hmin)
      right.maxKey (by rw [PatriciaTree.keys_branch]; exact List.mem_append_right _ hmax) i (by omega)
    rw [hwf.2.2.2.1 _ hmin, hwf.2.2.2.2.1 _ hmax] at hbit
    cases hbit
  refine ⟨?_, hlt⟩
  cases hp : pending.previousBit with
  | none =>
    rw [h.top hp]
    omega
  | some p =>
    have := h.below p hp
    have := hlt p hp
    omega

theorem agreeBelow_succ {i : ℕ} {k k' : Digest} (h : BitKey.AgreeBelow i k k')
    (hi : BitKey.bit k i = BitKey.bit k' i) : BitKey.AgreeBelow (i + 1) k k' := by
  intro j hj
  rcases Nat.lt_succ_iff_lt_or_eq.mp hj with hlt | rfl
  · exact h j hlt
  · exact hi

/-- The references that a branch gives to its children. -/
theorem At.child {pending : Pending} {i : ℕ} {left right : ValueTree}
    (h : At sha256 pending (.branch i left right))
    (hwf : PatriciaTree.WellFormed (.branch i left right)) (side : Bool) :
    ∃ next, pending.child (treeChild sha256 (if side then right else left)) i = .ok next ∧
      next.depth = pending.depth + 1 ∧ At sha256 next (if side then right else left) := by
  obtain ⟨hdepth, _⟩ := h.branch hwf
  have hi : i < 256 := hwf.2.2.1
  refine ⟨_, if_neg (by omega), rfl, rfl, ?_, by rintro ⟨⟩, ?_⟩
  · simp only [Option.all_some, decide_eq_true_eq, range_treeChild, range_treeNode]
  · intro p hp
    cases hp
    refine ⟨hi, Nat.succ_le_succ hdepth, ?_⟩
    intro k hk k' hk'
    cases side with
    | false =>
      refine agreeBelow_succ (hwf.2.2.2.2.2 k (List.mem_append_left _ hk) k'
        (List.mem_append_left _ hk')) ?_
      rw [hwf.2.2.2.1 k hk, hwf.2.2.2.1 k' hk']
    | true =>
      refine agreeBelow_succ (hwf.2.2.2.2.2 k (List.mem_append_right _ hk) k'
        (List.mem_append_right _ hk')) ?_
      rw [hwf.2.2.2.2.1 k hk, hwf.2.2.2.2.1 k' hk']

variable (hA : Authentic S (storageAddress sha256) I Safe)

include hA

/-- The subtrees of a stored branch have different addresses. -/
theorem address_ne {i : ℕ} {left right : ValueTree} {log : WriteLog} (hsafe : Safe log)
    (hwf : PatriciaTree.WellFormed (.branch i left right))
    (hl : Stored sha256 log left) (hr : Stored sha256 log right) :
    (treeChild sha256 left).root.address ≠ (treeChild sha256 right).root.address := by
  intro he
  rw [treeChild_eq, treeChild_eq] at he
  have hencode := hA.injective hsafe hl.saved.record_mem hr.saved.record_mem he
  have hnode := Node.encode_injective (fits_treeNode hl.wellFormed hl.fits)
    (fits_treeNode hr.wellFormed hr.fits) hencode
  have hrange := congrArg Node.range hnode
  rw [range_treeNode, range_treeNode] at hrange
  have hlt := PatriciaTree.lt_of_branch hwf left.minKey_mem right.minKey_mem
  rw [(KeyRange.mk.inj hrange).1] at hlt
  exact lt_irrefl _ hlt

theorem validate_treeNode {log : WriteLog} (hsafe : Safe log) (hwf : t.WellFormed)
    (hfits : ValuesFit t)
    (hsub : ∀ i left right, t = .branch i left right →
      Stored sha256 log left ∧ Stored sha256 log right) :
    (treeNode sha256 t).validate = .ok () := by
  cases t with
  | leaf key value => exact require_eq_ok.mpr (hfits _ List.mem_cons_self)
  | branch i left right =>
    obtain ⟨hl, hr⟩ := hsub i left right rfl
    exact require_eq_ok.mpr (branchValid_of_wellFormed hwf (address_ne hA hsafe hwf hl hr))

theorem Stored.validate {log : WriteLog} (hsafe : Safe log) (h : Stored sha256 log t) :
    (treeNode sha256 t).validate = .ok () := by
  refine validate_treeNode hA hsafe h.wellFormed h.fits ?_
  rintro i left right rfl
  exact ⟨h.left, h.right⟩

omit hA in
theorem length_encode_le (hfits : ValuesFit t) :
    (treeNode sha256 t).encode.length ≤ maxNodeBytes := by
  rw [Node.length_encode]
  cases t with
  | leaf key value =>
    have := hfits (key, value) List.mem_cons_self
    simp only [maxValueBytes] at this
    simp only [treeNode, maxNodeBytes]
    omega
  | branch i left right =>
    simp only [treeNode, maxNodeBytes]
    omega

omit hA in
theorem checkNode_treeNode {pending : Pending} (hat : At sha256 pending t) (hwf : t.WellFormed) :
    checkNode sha256 pending (treeNode sha256 t) = .ok () := by
  have hroot : (treeNode sha256 t).fingerprint sha256 = pending.root.fingerprint := by
    rw [hat.root, treeChild_eq]
    rfl
  have hreq : require ((treeNode sha256 t).fingerprint sha256 = pending.root.fingerprint ∧
      pending.range.all (fun range => decide (range = (treeNode sha256 t).range)) = true)
      ContextError.corrupt = .ok () := require_eq_ok.mpr ⟨hroot, hat.range⟩
  unfold checkNode
  rw [hreq]
  cases t with
  | leaf key value => rfl
  | branch i left right =>
    obtain ⟨hdepth, hlt⟩ := hat.branch hwf
    have hi : i < 256 := hwf.2.2.1
    refine require_eq_ok.mpr ⟨by omega, ?_⟩
    cases hp : pending.previousBit with
    | none => rfl
    | some p => exact decide_eq_true (hlt p hp)

theorem ensures_loadNodeSized {pending : Pending} (hw : I w) (h : Stored sha256 w.written t)
    (hat : At sha256 pending t) :
    Ensures S I Safe (loadNodeSized sha256 pending) w fun r w' =>
      w'.written = w.written ∧ r = (treeNode sha256 t, (treeNode sha256 t).encode.length) := by
  refine Ensures.of_safe hA fun hsafe => ?_
  have hvalid := h.validate hA hsafe
  have hdecode := Node.decode_encode (fits_treeNode h.wellFormed h.fits) hvalid
  have hlength : (treeNode sha256 t).encode.length ≤ maxNodeBytes := length_encode_le h.fits
  unfold loadNodeSized
  rw [lift_require_bind hat.depth_le]
  have hroot : pending.root.address = storageAddress sha256 (treeNode sha256 t).encode := by
    rw [hat.root, treeChild_eq]
    rfl
  rw [hroot]
  apply Ensures.bind hA hw (Ensures.readRecord hA hw h.saved.record_mem hlength)
  intro bytes w' hw' _ hbytes
  obtain ⟨hlog, haddress, hreliable⟩ := hbytes
  by_cases hbytes : bytes = (treeNode sha256 t).encode
  · subst hbytes
    rw [lift_require_bind hlength, lift_require_bind rfl, hdecode, lift_ok_bind,
      checkNode_treeNode hat h.wellFormed, lift_ok_bind]
    exact Ensures.pure ⟨hlog, rfl⟩
  · -- Other bytes have another address, so they are refused, and the storage is not reliable.
    have hne : storageAddress sha256 bytes ≠ storageAddress sha256 (treeNode sha256 t).encode :=
      fun he => hbytes (haddress he)
    by_cases hlen : bytes.length ≤ maxNodeBytes
    · rw [lift_require_bind hlen, lift_require_bind_of_not hne]
      exact Ensures.error fun hR => hbytes (hreliable hR)
    · rw [lift_require_bind_of_not hlen]
      exact Ensures.error fun hR => hbytes (hreliable hR)

theorem ensures_loadNodeInner {pending : Pending} (hw : I w) (h : Stored sha256 w.written t)
    (hat : At sha256 pending t) :
    Ensures S I Safe (loadNodeInner sha256 pending) w fun n w' =>
      w'.written = w.written ∧ n = treeNode sha256 t := by
  apply Ensures.bind hA hw (ensures_loadNodeSized hA hw h hat)
  intro r w' _ _ hr
  obtain ⟨hlog, rfl⟩ := hr
  exact Ensures.pure ⟨hlog, rfl⟩

theorem ensures_loadNode {pending : Pending} (hw : I w) (h : Stored sha256 w.written t)
    (hat : At sha256 pending t) :
    Ensures S I Safe (loadNode sha256 pending) w fun n w' =>
      w'.written = w.written ∧ n = treeNode sha256 t :=
  Ensures.recording (ensures_loadNodeInner hA hw h hat)

omit hA in
theorem ensures_saveNode {n : Node} (hw : I w) (hv : n.validate = .ok ())
    (hlength : n.encode.length ≤ maxNodeBytes) (hA : Authentic S (storageAddress sha256) I Safe) :
    Ensures S I Safe (saveNode sha256 n) w fun c w' => c = childOf sha256 n ∧
      (storageAddress sha256 n.encode, n.encode) ∈ w'.written := by
  unfold saveNode
  rw [hv, lift_ok_bind, lift_require_bind hlength]
  apply Ensures.bind hA hw (Ensures.writeRecord hw _ _)
  intro _ w' _ _ hmem
  exact Ensures.pure ⟨rfl, hmem⟩

/-- Saving a node above stored subtrees stores the tree. -/
theorem ensures_saveTree (hw : I w) (hwf : t.WellFormed) (hfits : ValuesFit t)
    (hsub : ∀ i left right, t = .branch i left right →
      Stored sha256 w.written left ∧ Stored sha256 w.written right) :
    Ensures S I Safe (saveNode sha256 (treeNode sha256 t)) w fun c w' =>
      c = treeChild sha256 t ∧ Stored sha256 w'.written t := by
  refine Ensures.of_safe hA fun hsafe => ?_
  have hv := validate_treeNode hA hsafe hwf hfits hsub
  have hgrow := written_subset_run S (saveNode sha256 (treeNode sha256 t)) w
  intro hsafe'
  rcases ensures_saveNode hw hv (length_encode_le hfits) hA hsafe' with
    ⟨c, hc, rfl, hmem⟩ | herror
  · refine Or.inl ⟨_, hc, (treeChild_eq sha256 t).symm, hwf, hfits, ?_⟩
    cases t with
    | leaf key value => exact List.cons_subset.mpr ⟨hmem, List.nil_subset _⟩
    | branch i left right =>
      obtain ⟨hl, hr⟩ := hsub i left right rfl
      exact saved_branch.2 ⟨hmem, hl.saved.mono hgrow, hr.saved.mono hgrow⟩
  · exact Or.inr herror

omit hA in
/-- The frames on the path to a key. -/
def frames (sha256 : List UInt8 → Digest) (key : Digest) : ValueTree → List Frame
  | .leaf _ _ => []
  | .branch i left right =>
    ⟨treeChild sha256 (.branch i left right), i, treeChild sha256 left, treeChild sha256 right,
      keyBit key i⟩ :: (if keyBit key i then frames sha256 key right else frames sha256 key left)

theorem ensures_descend {key : Digest} {loads : ℕ} {pending : Pending} (hw : I w)
    (h : Stored sha256 w.written t) (hat : At sha256 pending t)
    (hloads : 257 ≤ loads + pending.depth) :
    Ensures S I Safe (descend sha256 key loads pending) w fun r w' =>
      w'.written = w.written ∧ r = (frames sha256 key t,
        treeChild sha256 (.leaf (t.terminal key).1 (t.terminal key).2),
        (t.terminal key).1, (t.terminal key).2) := by
  induction loads generalizing w t pending with
  | zero =>
    have := hat.depth_le
    omega
  | succ loads ih =>
    unfold descend
    apply Ensures.bind hA hw (ensures_loadNode hA hw h hat)
    intro n w' hw' _ hn
    obtain ⟨hlog, rfl⟩ := hn
    have hsource : (⟨pending.root, (treeNode sha256 t).range⟩ : Child) = treeChild sha256 t := by
      rw [hat.root, treeChild_eq]
      rfl
    simp only [hsource]
    cases t with
    | leaf k v => exact Ensures.pure ⟨hlog, rfl⟩
    | branch i left right =>
      obtain ⟨next, hnext, hdepth, hat'⟩ := hat.child h.wellFormed (keyBit key i)
      have hside : Stored sha256 w'.written (if keyBit key i then right else left) := by
        rw [hlog]
        split
        · exact h.right
        · exact h.left
      have hchild : (if keyBit key i = true then treeChild sha256 right else treeChild sha256 left) =
          treeChild sha256 (if keyBit key i = true then right else left) := by
        split
        · rfl
        · rfl
      simp only [treeNode, hchild, hnext, lift_ok_bind]
      apply Ensures.bind hA hw' (ih hw' hside hat' (by omega))
      intro r w'' _ _ hr
      obtain ⟨hlog', rfl⟩ := hr
      refine Ensures.pure ⟨hlog'.trans hlog, ?_⟩
      simp only [frames, PatriciaTree.terminal, BitKey.bit]
      split
      · rfl
      · rfl

omit hA in
theorem length_frames (key : Digest) (t : ValueTree) :
    (frames sha256 key t).length = t.pathLength key := by
  induction t with
  | leaf k v => rfl
  | branch i left right ihl ihr =>
    simp only [frames, PatriciaTree.pathLength, List.length_cons, BitKey.bit]
    split
    · rw [ihr]
    · rw [ihl]

omit hA in
theorem findIdx_frames (key : Digest) (d : ℕ) (t : ValueTree) :
    (frames sha256 key t).findIdx (fun frame => decide (d ≤ frame.bit)) = t.pathAbove key d := by
  induction t with
  | leaf k v => rfl
  | branch i left right ihl ihr =>
    simp only [frames, PatriciaTree.pathAbove, List.findIdx_cons, BitKey.bit]
    by_cases hi : i < d
    · rw [if_pos hi, decide_eq_false (by omega), cond_false]
      split
      · rw [ihr]
      · rw [ihl]
    · rw [if_neg hi, decide_eq_true (by omega), cond_true]

omit hA in
/-- The subtree that a new branch is put above, as the path names it. -/
theorem source_frames (key : Digest) (d : ℕ) (t : ValueTree) :
    (((frames sha256 key t)[t.pathAbove key d]?).map Frame.source).getD
        (treeChild sha256 (.leaf (t.terminal key).1 (t.terminal key).2)) =
      treeChild sha256 (t.descendant key (t.pathAbove key d)) := by
  induction t with
  | leaf k v => rfl
  | branch i left right ihl ihr =>
    simp only [frames, PatriciaTree.pathAbove, PatriciaTree.terminal, BitKey.bit] at ihl ihr ⊢
    by_cases hi : i < d
    · simp only [if_pos hi, List.getElem?_cons_succ, PatriciaTree.descendant, BitKey.bit]
      split
      · exact ihr
      · exact ihl
    · simp only [if_neg hi, List.getElem?_cons_zero, PatriciaTree.descendant]
      rfl

omit hA in
theorem Stored.descendant {log : WriteLog} (key : Digest) (n : ℕ) (h : Stored sha256 log t) :
    Stored sha256 log (t.descendant key n) := by
  induction n generalizing t with
  | zero =>
    cases t with
    | leaf k v => exact h
    | branch i left right => exact h
  | succ n ih =>
    cases t with
    | leaf k v => exact h
    | branch i left right =>
      simp only [PatriciaTree.descendant]
      split
      · exact ih h.right
      · exact ih h.left

/-- Rebuilding the path above a stored tree. -/
theorem ensures_rebuild {key : Digest} {s : ValueTree} {n : ℕ} (hw : I w)
    (h : Stored sha256 w.written t) (hs : Stored sha256 w.written s)
    (hwf : (t.graft key n s).WellFormed) (hfits : ValuesFit (t.graft key n s)) :
    Ensures S I Safe (rebuild sha256 ((frames sha256 key t).take n) (treeChild sha256 s)) w
      fun c w' => c = treeChild sha256 (t.graft key n s) ∧
        Stored sha256 w'.written (t.graft key n s) := by
  induction n generalizing t with
  | zero =>
    have hgraft : t.graft key 0 s = s := by
      cases t with
      | leaf k v => rfl
      | branch i left right => rfl
    rw [hgraft, List.take_zero]
    exact Ensures.pure ⟨rfl, hs⟩
  | succ n ih =>
    cases t with
    | leaf k v => exact Ensures.pure ⟨rfl, hs⟩
    | branch i left right =>
      simp only [frames, List.take_succ_cons, rebuild, PatriciaTree.graft, BitKey.bit] at hwf hfits ⊢
      by_cases hbit : keyBit key i = true
      · simp only [if_pos hbit] at hwf hfits ⊢
        apply Ensures.bind hA hw (ih h.right hwf.2.1 (valuesFit_branch.1 hfits).2)
        intro c w' hw' hlog hc
        obtain ⟨rfl, hstored⟩ := hc
        refine ensures_saveTree hA hw' hwf hfits ?_
        intro i' l r he
        cases he
        exact ⟨h.left.mono hlog, hstored⟩
      · simp only [if_neg hbit] at hwf hfits ⊢
        apply Ensures.bind hA hw (ih h.left hwf.1 (valuesFit_branch.1 hfits).1)
        intro c w' hw' hlog hc
        obtain ⟨rfl, hstored⟩ := hc
        refine ensures_saveTree hA hw' hwf hfits ?_
        intro i' l r he
        cases he
        exact ⟨hstored, h.right.mono hlog⟩

/-- The branch that separates a new leaf. -/
theorem ensures_attach {key : Digest} {value : List UInt8} (hw : I w)
    (h : Stored sha256 w.written t) (hleaf : Stored sha256 w.written (.leaf key value))
    (hkey : (t.terminal key).1 ≠ key)
    (hwf : (t.insertAt (BitKey.diff (t.terminal key).1 key) key value).WellFormed)
    (hfits : ValuesFit (t.insertAt (BitKey.diff (t.terminal key).1 key) key value)) :
    let d := BitKey.diff (t.terminal key).1 key
    let s := (t.descendant key (t.pathAbove key d)).split d key value
    Ensures S I Safe (attach sha256 key (t.terminal key).1 (frames sha256 key t)
      (treeChild sha256 (.leaf (t.terminal key).1 (t.terminal key).2))
      (treeChild sha256 (.leaf key value))) w
      fun r w' => r = (treeChild sha256 s, t.pathAbove key d) ∧ Stored sha256 w'.written s := by
  intro d s
  have hdiffer : differingBit (t.terminal key).1 key = some d := by
    rw [differingBit, if_neg hkey]
    rfl
  rw [← PatriciaTree.graft_pathAbove] at hwf hfits
  have hswf : s.WellFormed := PatriciaTree.wellFormed_of_graft hwf
  have hsfits : ValuesFit s := fun e he => hfits e (PatriciaTree.mem_entries_graft he)
  have hbelow := h.descendant key (t.pathAbove key d)
  unfold attach
  rw [hdiffer]
  simp only [orError, lift_ok_bind, findIdx_frames, source_frames]
  have hnode : (Node.branch d
      (if keyBit key d = true then
        (treeChild sha256 (t.descendant key (t.pathAbove key d)), treeChild sha256 (.leaf key value))
      else (treeChild sha256 (.leaf key value),
        treeChild sha256 (t.descendant key (t.pathAbove key d)))).1
      (if keyBit key d = true then
        (treeChild sha256 (t.descendant key (t.pathAbove key d)), treeChild sha256 (.leaf key value))
      else (treeChild sha256 (.leaf key value),
        treeChild sha256 (t.descendant key (t.pathAbove key d)))).2) = treeNode sha256 s := by
    change _ = treeNode sha256 (PatriciaTree.split d key value _)
    simp only [PatriciaTree.split, BitKey.bit]
    split
    · rfl
    · rfl
  rw [hnode]
  have hsub : ∀ i left right, s = .branch i left right →
      Stored sha256 w.written left ∧ Stored sha256 w.written right := by
    intro i left right he
    change PatriciaTree.split d key value _ = _ at he
    unfold PatriciaTree.split at he
    split at he
    · cases he
      exact ⟨hbelow, hleaf⟩
    · cases he
      exact ⟨hleaf, hbelow⟩
  apply Ensures.bind hA hw (ensures_saveTree hA hw hswf hsfits hsub)
  intro c w' _ _ hc
  obtain ⟨rfl, hstored⟩ := hc
  exact Ensures.pure ⟨rfl, hstored⟩

omit hA in
/-- The tree after a write: an existing key keeps its value unless it is replaced. -/
def writeTree (key : Digest) (value : List UInt8) (replace : Bool) : Option ValueTree → ValueTree
  | none => .leaf key value
  | some t => if replace = false ∧ (t.terminal key).1 = key then t else t.write key value

omit hA in
/-- A root that stands for a stored tree, or for the empty map. -/
structure Holds (sha256 : List UInt8 → Digest) (log : WriteLog) (root : Option Root)
    (t : Option ValueTree) : Prop where
  root_eq : root = t.map fun t => (treeChild sha256 t).root
  stored : ∀ s, t = some s → Stored sha256 log s

omit hA in
theorem Holds.mono {log log' : WriteLog} {root : Option Root} {t : Option ValueTree}
    (h : Holds sha256 log root t) (hlog : log ⊆ log') : Holds sha256 log' root t :=
  ⟨h.root_eq, fun s hs => (h.stored s hs).mono hlog⟩

omit hA in
theorem holds_none (log : WriteLog) : Holds sha256 log none none :=
  ⟨rfl, by rintro s ⟨⟩⟩

omit hA in
theorem holds_some {log : WriteLog} (h : Stored sha256 log t) :
    Holds sha256 log (some (treeChild sha256 t).root) (some t) :=
  ⟨rfl, by rintro s ⟨⟩; exact h⟩

omit hA in
def findIn (key : Digest) (t : Option ValueTree) : Option (List UInt8) :=
  t.bind fun t => t.find key

omit hA in
theorem valuesFit_write {key : Digest} {value : List UInt8} (hwf : t.WellFormed)
    (h : ValuesFit t) (hvalue : value.length ≤ maxValueBytes) : ValuesFit (t.write key value) := by
  intro e he
  rcases (PatriciaTree.mem_entries_write hwf).mp he with rfl | ⟨_, hmem⟩
  · exact hvalue
  · exact h e hmem

omit hA in
theorem valuesFit_leaf {key : Digest} {value : List UInt8} (hvalue : value.length ≤ maxValueBytes) :
    ValuesFit (.leaf key value) := by
  intro e he
  rw [List.mem_singleton.mp he]
  exact hvalue

theorem ensures_saveLeaf {key : Digest} {value : List UInt8} (hw : I w)
    (hvalue : value.length ≤ maxValueBytes) :
    Ensures S I Safe (saveNode sha256 (.leaf key value)) w fun c w' =>
      c = treeChild sha256 (.leaf key value) ∧ Stored sha256 w'.written (.leaf key value) := by
  have htrivial : PatriciaTree.WellFormed (.leaf key value : ValueTree) := trivial
  exact ensures_saveTree hA hw htrivial (valuesFit_leaf hvalue) (by rintro i left right ⟨⟩)

theorem ensures_writeRoot {root : Option Root} {t : Option ValueTree} {key : Digest}
    {value : List UInt8} (replace : Bool) (hw : I w) (h : Holds sha256 w.written root t)
    (hvalue : value.length ≤ maxValueBytes) :
    Ensures S I Safe (writeRoot sha256 root key value replace) w fun r w' =>
      Holds sha256 w'.written r.1 (some (writeTree key value replace t)) ∧
        r.2 = (findIn key t).isNone := by
  unfold writeRoot
  rw [lift_require_bind hvalue]
  cases t with
  | none =>
    rw [h.root_eq]
    apply Ensures.bind hA hw (ensures_saveLeaf hA hw hvalue)
    intro c w' _ _ hc
    obtain ⟨rfl, hstored⟩ := hc
    exact Ensures.pure ⟨holds_some hstored, rfl⟩
  | some t =>
    have hstored := h.stored t rfl
    rw [h.root_eq, Option.map_some]
    apply Ensures.bind hA hw (ensures_descend hA hw hstored (at_ofRoot t) (Nat.le_add_right _ _))
    intro r w₁ hw₁ hlog₁ hr
    obtain ⟨_, rfl⟩ := hr
    have hstored₁ := hstored.mono hlog₁
    simp only
    by_cases hkeep : (t.terminal key).1 = key ∧ (replace = false ∨ (t.terminal key).2 = value)
    · rw [if_pos hkeep]
      have hfind : findIn key (some t) = some (t.terminal key).2 := if_pos hkeep.1
      have htree : writeTree key value replace (some t) = t := by
        simp only [writeTree]
        by_cases hreplace : replace = false
        · exact if_pos ⟨hreplace, hkeep.1⟩
        · have hvalue' : (t.terminal key).2 = value := hkeep.2.resolve_left hreplace
          rw [if_neg (fun hc => hreplace hc.1), PatriciaTree.write, if_pos hkeep.1]
          exact PatriciaTree.replaceAt_self (Prod.ext hkeep.1 hvalue')
      refine Ensures.pure ⟨?_, ?_⟩
      · rw [htree]
        exact holds_some hstored₁
      · rw [hfind]
        rfl
    · rw [if_neg hkeep]
      have htree : writeTree key value replace (some t) = t.write key value := by
        unfold writeTree
        refine if_neg fun hc => hkeep ⟨hc.2, Or.inl hc.1⟩
      have hwf := PatriciaTree.wellFormed_write hstored.wellFormed key value
      have hfits : ValuesFit (t.write key value) :=
        valuesFit_write hstored.wellFormed hstored.fits hvalue
      apply Ensures.bind hA hw₁ (ensures_saveLeaf hA hw₁ hvalue)
      intro c w₂ hw₂ hlog₂ hc
      obtain ⟨rfl, hleaf⟩ := hc
      have hstored₂ := hstored₁.mono hlog₂
      by_cases hkey : (t.terminal key).1 = key
      · simp only [if_pos hkey, pure_bind', length_frames]
        have hwrite : t.write key value = t.graft key (t.pathLength key) (.leaf key value) := by
          rw [PatriciaTree.graft_pathLength, PatriciaTree.write, if_pos hkey]
        rw [hwrite] at hwf hfits
        apply Ensures.bind hA hw₂ (ensures_rebuild hA hw₂ hstored₂ hleaf hwf hfits)
        intro c w₃ _ _ hc
        obtain ⟨rfl, hfinal⟩ := hc
        have hfind : findIn key (some t) = some (t.terminal key).2 := if_pos hkey
        refine Ensures.pure ⟨?_, ?_⟩
        · rw [htree, hwrite]
          exact holds_some hfinal
        · rw [hfind]
          exact decide_eq_false (not_not.mpr hkey)
      · simp only [if_neg hkey]
        have hwrite : t.write key value =
            t.insertAt (BitKey.diff (t.terminal key).1 key) key value := by
          rw [PatriciaTree.write, if_neg hkey]
        rw [hwrite] at hwf hfits
        apply Ensures.bind hA hw₂ (ensures_attach hA hw₂ hstored₂ hleaf hkey hwf hfits)
        intro r w₃ hw₃ hlog₃ hr
        obtain ⟨rfl, hsplit⟩ := hr
        rw [← PatriciaTree.graft_pathAbove] at hwf hfits
        apply Ensures.bind hA hw₃ (ensures_rebuild hA hw₃ (hstored₂.mono hlog₃) hsplit hwf hfits)
        intro c w₄ _ _ hc
        obtain ⟨rfl, hfinal⟩ := hc
        have hfind : findIn key (some t) = none := if_neg hkey
        refine Ensures.pure ⟨?_, ?_⟩
        · rw [htree, hwrite, ← PatriciaTree.graft_pathAbove]
          exact holds_some hfinal
        · rw [hfind]
          exact decide_eq_true hkey

omit hA in
/-- A lookup on its way: what it still has to find. -/
def LookupAt (sha256 : List UInt8 → Digest) (log : WriteLog) (l : Lookup)
    (result : Option (List UInt8)) : Prop :=
  l.failed = false ∧ match l.pending with
    | none => l.value = result
    | some pending => ∃ t, Stored sha256 log t ∧ At sha256 pending t ∧ result = t.find l.key

omit hA in
theorem find_branch {i : ℕ} {left right : ValueTree} (key : Digest) :
    (PatriciaTree.branch i left right).find key =
      (if keyBit key i = true then right else left).find key := by
  simp only [PatriciaTree.find, PatriciaTree.terminal, BitKey.bit]
  split
  · rfl
  · rfl

/-- One step of a pending lookup stays on the way to the result and goes one level down. -/
theorem ensures_stepFrom {l : Lookup} {pending : Pending} (hw : I w)
    (h : Stored sha256 w.written t) (hat : At sha256 pending t) (hfailed : l.failed = false) :
    Ensures S I Safe (l.stepFrom sha256 pending) w fun r w' =>
      LookupAt sha256 w'.written r.2 (t.find l.key) ∧ r.2.key = l.key ∧
        r.1 = (treeNode sha256 t).encode.length ∧
        ∀ next, r.2.pending = some next → next.depth = pending.depth + 1 := by
  unfold Lookup.stepFrom
  apply Ensures.bind hA hw (ensures_loadNodeSized hA hw h hat)
  intro r w' _ _ hr
  obtain ⟨hlog, rfl⟩ := hr
  simp only
  cases t with
  | leaf k v =>
    refine Ensures.pure ⟨⟨hfailed, rfl⟩, rfl, rfl, ?_⟩
    rintro next ⟨⟩
  | branch i left right =>
    obtain ⟨next, hnext, hdepth, hat'⟩ := hat.child h.wellFormed (keyBit l.key i)
    have hchild : (if keyBit l.key i = true then treeChild sha256 right
        else treeChild sha256 left) =
        treeChild sha256 (if keyBit l.key i = true then right else left) := by
      split
      · rfl
      · rfl
    have hside : Stored sha256 w'.written (if keyBit l.key i = true then right else left) := by
      rw [hlog]
      split
      · exact h.right
      · exact h.left
    simp only [treeNode, hchild, hnext, lift_ok_bind]
    refine Ensures.pure ⟨⟨hfailed, _, hside, hat', find_branch l.key⟩, rfl, rfl, ?_⟩
    intro next' he
    cases he
    exact hdepth

/-- A step of a lookup succeeds with the bytes it has read, or fails with the storage. -/
theorem ensures_lookupStep {l : Lookup} {result : Option (List UInt8)} (hw : I w)
    (h : LookupAt sha256 w.written l result) :
    Ensures S I Safe (l.step sha256) w fun r w' =>
      (∃ e, r.1 = .error e) ∧ ¬ Reliable S I Safe ∨
      (∃ bytes, r.1 = .ok bytes ∧ bytes.isSome = l.pending.isSome) ∧
        LookupAt sha256 w'.written r.2 result ∧
        (∀ b, r.1 = .ok (some b) → b ≤ maxNodeBytes) ∧ (l.pending = none → r.2 = l) ∧
        ∀ p, l.pending = some p → ∀ next, r.2.pending = some next → next.depth = p.depth + 1 := by
  obtain ⟨hfailed, hpending⟩ := h
  unfold Lookup.step
  rw [if_neg (by rw [hfailed]; exact Bool.false_ne_true)]
  cases hp : l.pending with
  | none =>
    rw [hp] at hpending
    refine Ensures.pure (Or.inr ⟨⟨none, rfl, rfl⟩, ⟨hfailed, ?_⟩, by rintro b ⟨⟩, fun _ => rfl,
      by rintro p ⟨⟩⟩)
    simp only [hp]
    exact hpending
  | some pending =>
    rw [hp] at hpending
    obtain ⟨t, hstored, hat, rfl⟩ := hpending
    apply Ensures.bind hA hw (Ensures.recording (ensures_stepFrom hA hw hstored hat hfailed)).attempt
    intro r w' _ _ hr
    rcases hr with ⟨⟨bytes, next⟩, rfl, hlookup, _, hbytes, hdepth⟩ | ⟨⟨e, rfl⟩, hfault⟩
    · refine Ensures.pure (Or.inr ⟨⟨some bytes, rfl, rfl⟩, hlookup, ?_, by rintro ⟨⟩, ?_⟩)
      · intro b hb
        cases hb
        exact le_of_eq_of_le hbytes (length_encode_le hstored.fits)
      · intro p hp next' hnext'
        cases hp
        exact hdepth next' hnext'
    · exact Ensures.pure (Or.inl ⟨⟨e, rfl⟩, hfault⟩)

/-- A lookup stops with its result after at most one step for each level and a last one. -/
theorem ensures_finish {l : Lookup} {result : Option (List UInt8)} {steps : ℕ} (hw : I w)
    (h : LookupAt sha256 w.written l result)
    (hsteps : 258 ≤ steps + (l.pending.map Pending.depth).getD 257) :
    Ensures S I Safe (Lookup.finish sha256 steps l) w fun l' _ => l'.intoValue = .ok result := by
  induction steps generalizing l w with
  | zero =>
    obtain ⟨_, hpending⟩ := h
    cases hp : l.pending with
    | none =>
      rw [hp] at hsteps
      exact absurd hsteps (by decide)
    | some pending =>
      rw [hp] at hpending hsteps
      obtain ⟨t, _, hat, _⟩ := hpending
      have := hat.depth_le
      rw [Option.map_some, Option.getD_some] at hsteps
      omega
  | succ steps ih =>
    unfold Lookup.finish
    apply Ensures.bind hA hw (ensures_lookupStep hA hw h)
    intro r w' hw' _ hr
    obtain ⟨outcome, next⟩ := r
    rcases hr with ⟨⟨e, rfl⟩, hfault⟩ | ⟨⟨bytes, rfl, hsome⟩, hnext, _, hsame, hdepth⟩
    · exact Ensures.error hfault
    · simp only [lift_ok_bind]
      cases hp : l.pending with
      | none =>
        rw [hp] at hsome
        cases bytes with
        | some b => cases hsome
        | none =>
          have hl : next = l := hsame hp
          subst hl
          obtain ⟨hfailed, hvalue⟩ := hnext
          rw [hp] at hvalue
          refine Ensures.pure ?_
          rw [Lookup.intoValue, Lookup.complete, hfailed, hp, hvalue]
          rfl
      | some pending =>
        rw [hp] at hsome hsteps
        cases bytes with
        | none => cases hsome
        | some b =>
          have hle : pending.depth ≤ 256 := by
            obtain ⟨_, hpending⟩ := h
            rw [hp] at hpending
            obtain ⟨t, _, hat, _⟩ := hpending
            exact hat.depth_le
          refine ih hw' hnext ?_
          rw [Option.map_some, Option.getD_some] at hsteps
          cases hq : next.pending with
          | none =>
            simp only [Option.map_none, Option.getD_none]
            omega
          | some p =>
            have := hdepth pending hp p hq
            simp only [Option.map_some, Option.getD_some]
            omega

/-- A lookup in a stored map returns what its tree holds. -/
theorem ensures_get {m : DiskMap} {t : Option ValueTree} {key : Digest} (hw : I w)
    (h : Holds sha256 w.written m.root t) :
    Ensures S I Safe (get sha256 m key) w fun v _ => v = findIn key t := by
  have hlookup : LookupAt sha256 w.written (m.lookup key) (findIn key t) := by
    refine ⟨rfl, ?_⟩
    unfold lookup
    rw [h.root_eq]
    cases t with
    | none => rfl
    | some t => exact ⟨t, h.stored t rfl, at_ofRoot t, rfl⟩
  have hsteps : 258 ≤ 258 + ((m.lookup key).pending.map Pending.depth).getD 257 :=
    Nat.le_add_right _ _
  unfold get
  apply Ensures.bind hA hw (ensures_finish hA hw hlookup hsteps)
  intro l w' _ _ hl
  rw [hl]
  exact Ensures.pure rfl

end
end Naome.DiskMap
