import Naome.AuthenticatedMap

/-!
# One fingerprint for a set of keys

Maps in memory, maps on disk and the streaming reconstruction compute the hash of the one
Patricia tree of their keys.
-/
namespace Naome
open Fingerprint

namespace PersistentMap

variable {V : Type}

inductive Operation (V : Type)
  | insert (key : Digest) (value : V)
  | set (key : Digest) (value : V)

namespace Operation

def key : Operation V → Digest
  | .insert key _ => key
  | .set key _ => key

def apply (sha256 : List UInt8 → Digest) (m : PersistentMap V) : Operation V → PersistentMap V
  | .insert key value => (m.insert sha256 key value).1
  | .set key value => m.set sha256 key value

end Operation

section

variable (sha256 : List UInt8 → Digest)

/-- The map after a sequence of calls on one handle. -/
def build (ops : List (Operation V)) : PersistentMap V := ops.foldl (Operation.apply sha256) {}

def keys (m : PersistentMap V) : List Digest := (m.root.map fun n => n.tree.keys).getD []

/-- What is hashed for the fingerprint of a map. -/
def hashed (m : PersistentMap V) : List (Digest ⊕ ℕ × Digest × Digest) :=
  (m.root.map fun n => n.tree.hashed (leaf sha256) (branch sha256)).getD []

variable {sha256}

theorem valid_empty : (({} : PersistentMap V)).Valid sha256 := by rintro root ⟨⟩

theorem valid_of_root {n : Node V} (hcached : n.Cached sha256) (hwf : n.tree.WellFormed) :
    (⟨some n⟩ : PersistentMap V).Valid sha256 := by
  rintro root ⟨⟩
  exact ⟨hcached, hwf⟩

/-- One call keeps the map valid and adds its key. -/
theorem valid_apply {m : PersistentMap V} (h : m.Valid sha256) (op : Operation V) :
    (op.apply sha256 m).Valid sha256 ∧ ∀ k, k ∈ (op.apply sha256 m).keys ↔ k = op.key ∨ k ∈ m.keys := by
  cases hroot : m.root with
  | none =>
    have hnil : m.keys = [] := by rw [keys, hroot]; rfl
    have hnew : ∀ (key : Digest) (value : V),
        (⟨some (Node.newLeaf sha256 key value)⟩ : PersistentMap V).Valid sha256 ∧
        ∀ k, k ∈ (⟨some (Node.newLeaf sha256 key value)⟩ : PersistentMap V).keys ↔
          k = key ∨ k ∈ m.keys := by
      intro key value
      refine ⟨valid_of_root rfl trivial, fun k => ?_⟩
      rw [hnil]
      simp [keys, Node.newLeaf, Node.tree]
    cases op with
    | insert key value =>
      have happly : (Operation.insert key value).apply sha256 m =
          ⟨some (Node.newLeaf sha256 key value)⟩ := by
        simp only [Operation.apply, PersistentMap.insert, hroot]
      rw [happly]
      exact hnew key value
    | set key value =>
      have happly : (Operation.set key value).apply sha256 m =
          ⟨some (Node.newLeaf sha256 key value)⟩ := by
        simp [Operation.apply, PersistentMap.set, containsKey, get, PersistentMap.insert, hroot]
      rw [happly]
      exact hnew key value
  | some root =>
    obtain ⟨hcached, hwf⟩ := h root hroot
    have hkeys : m.keys = root.tree.keys := by rw [keys, hroot]; rfl
    have hwrite : ∀ (key : Digest) (value : V) (root' : Node V), root'.Cached sha256 →
        root'.tree = root.tree.write key value →
        (⟨some root'⟩ : PersistentMap V).Valid sha256 ∧
        ∀ k, k ∈ (⟨some root'⟩ : PersistentMap V).keys ↔ k = key ∨ k ∈ m.keys := by
      intro key value root' hcached' htree
      refine ⟨valid_of_root hcached' ?_, fun k => ?_⟩
      · rw [htree]
        exact PatriciaTree.wellFormed_write hwf key value
      · rw [hkeys]
        change k ∈ root'.tree.keys ↔ _
        rw [htree]
        exact PatriciaTree.mem_keys_write hwf
    cases op with
    | set key value =>
      obtain ⟨root', hset, hcached', htree⟩ := set_root hroot h key value
      change (m.set sha256 key value).Valid sha256 ∧ ∀ k, k ∈ (m.set sha256 key value).keys ↔ _
      rw [hset]
      exact hwrite key value root' hcached' htree
    | insert key value =>
      obtain ⟨_, root', hinsert, hcached', htree⟩ := insert_root hroot h key value
      change (m.insert sha256 key value).1.Valid sha256 ∧
        ∀ k, k ∈ (m.insert sha256 key value).1.keys ↔ _
      rw [hinsert]
      by_cases hsome : (m.get key).isSome = true
      · rw [if_pos hsome] at htree
        refine ⟨valid_of_root hcached' (by rw [htree]; exact hwf), fun k => ?_⟩
        have hmem : key ∈ root.tree.keys := by
          by_contra hnot
          rw [get_eq_find, hroot] at hsome
          change (root.tree.find key).isSome = true at hsome
          rw [(PatriciaTree.find_eq_none hwf).mpr hnot] at hsome
          cases hsome
        rw [hkeys]
        change k ∈ root'.tree.keys ↔ k = key ∨ _
        rw [htree]
        constructor
        · exact Or.inr
        · rintro (rfl | hk)
          · exact hmem
          · exact hk
      · rw [if_neg hsome] at htree
        exact hwrite key value root' hcached' htree

/-- A built map is valid and holds the keys of its calls. -/
theorem valid_build (ops : List (Operation V)) :
    (build sha256 ops).Valid sha256 ∧
      ∀ k, k ∈ (build sha256 ops).keys ↔ k ∈ ops.map Operation.key := by
  have hrun : ∀ (ops : List (Operation V)) (m : PersistentMap V), m.Valid sha256 →
      (ops.foldl (Operation.apply sha256) m).Valid sha256 ∧
        ∀ k, k ∈ (ops.foldl (Operation.apply sha256) m).keys ↔
          k ∈ ops.map Operation.key ∨ k ∈ m.keys := by
    intro ops
    induction ops with
    | nil => exact fun m h => ⟨h, fun k => by simp⟩
    | cons op ops ih =>
      intro m h
      obtain ⟨hvalid, hkeys⟩ := valid_apply h op
      obtain ⟨hvalid', hkeys'⟩ := ih _ hvalid
      refine ⟨hvalid', fun k => ?_⟩
      rw [List.foldl_cons, hkeys', hkeys, List.map_cons, List.mem_cons]
      tauto
  obtain ⟨hvalid, hkeys⟩ := hrun ops {} valid_empty
  refine ⟨hvalid, fun k => ?_⟩
  rw [build, hkeys]
  simp [keys]

theorem root_isSome_iff {m : PersistentMap V} : m.root.isSome = true ↔ m.keys ≠ [] := by
  unfold keys
  cases m.root with
  | none => simp
  | some n =>
    have hmem := n.tree.minKey_mem
    simp only [Option.isSome_some, Option.map_some, Option.getD_some, true_iff]
    exact List.ne_nil_of_mem hmem

theorem keys_build_ne_nil {ops : List (Operation V)} (h : ops ≠ []) :
    (build sha256 ops).keys ≠ [] := by
  obtain ⟨op, rest, rfl⟩ := List.exists_cons_of_ne_nil h
  exact List.ne_nil_of_mem (((valid_build _).2 op.key).mpr List.mem_cons_self)

/-- Equal fingerprints of maps that hold keys stand for equal keys, unless two of the hashed nodes
collide. -/
theorem keys_of_fingerprint {V' : Type} {m : PersistentMap V} {m' : PersistentMap V'}
    (h : m.Valid sha256) (h' : m'.Valid sha256) (hne : m.keys ≠ []) (hne' : m'.keys ≠ [])
    (hinj : Set.InjOn (PatriciaTree.nodeHash (leaf sha256) (branch sha256))
      {x | x ∈ m.hashed sha256 ∨ x ∈ m'.hashed sha256})
    (heq : m.fingerprint = m'.fingerprint) (k : Digest) : k ∈ m.keys ↔ k ∈ m'.keys := by
  obtain ⟨n, hn⟩ := Option.isSome_iff_exists.mp (root_isSome_iff.2 hne)
  obtain ⟨n', hn'⟩ := Option.isSome_iff_exists.mp (root_isSome_iff.2 hne')
  rw [fingerprint, fingerprint, hn, hn'] at heq
  have hhash : n.tree.hash (leaf sha256) (branch sha256) =
      n'.tree.hash (leaf sha256) (branch sha256) := by
    rw [← Node.fingerprint_eq_hash (h n hn).1, ← Node.fingerprint_eq_hash (h' n' hn').1]
    exact heq
  rw [hashed, hashed, hn, hn'] at hinj
  have hshape := PatriciaTree.shape_eq_of_hash _ _ hinj hhash
  rw [keys, keys, hn, hn']
  change k ∈ n.tree.keys ↔ k ∈ n'.tree.keys
  rw [← PatriciaTree.keys_shape, hshape, PatriciaTree.keys_shape]

/-- What stands for a set of keys: zero, or the hash of every tree of these keys. -/
structure FingerprintOf (sha256 : List UInt8 → Digest) (K : Finset Digest)
    (fingerprint : Digest) : Prop where
  empty : (∀ k, k ∉ K) → fingerprint = 0
  tree : ∀ {V : Type} (t : PatriciaTree Digest V), t.WellFormed → (∀ k, k ∈ t.keys ↔ k ∈ K) →
    fingerprint = t.hash (leaf sha256) (branch sha256)

/-- The stream of the ascending keys computes it. -/
theorem exists_fingerprintOf (sha256 : List UInt8 → Digest) (K : Finset Digest) :
    ∃ s, (K.sort (· ≤ ·)).foldlM (SetFingerprint.push sha256) {} = .ok s ∧
      FingerprintOf sha256 K (s.finish sha256) := by
  have hsorted : (K.sort (· ≤ ·)).Pairwise (· < ·) := K.sortedLT_sort.pairwise
  obtain ⟨s, hs, hempty, _⟩ := SetFingerprint.finish_eq_hash (V := Unit) sha256 hsorted
  refine ⟨s, hs, fun hK => hempty ?_, fun {V} t hwf hkeys => ?_⟩
  · rw [Finset.eq_empty_of_forall_notMem hK]
    exact Finset.sort_empty _
  · obtain ⟨s', hs', _, hhash⟩ := SetFingerprint.finish_eq_hash (V := V) sha256 hsorted
    rw [hs] at hs'
    cases hs'
    exact hhash t hwf fun k => (hkeys k).trans (Finset.mem_sort _).symm

namespace FingerprintOf

variable {K : Finset Digest} {fingerprint : Digest}

/-- A map in memory caches it. -/
theorem memory (h : FingerprintOf sha256 K fingerprint) {m : PersistentMap V}
    (hvalid : m.Valid sha256) (hkeys : ∀ k, k ∈ m.keys ↔ k ∈ K) : m.fingerprint = fingerprint := by
  cases hroot : m.root with
  | none =>
    have hnil : m.keys = [] := by rw [keys, hroot]; rfl
    rw [h.empty fun k hk => ?_]
    · rw [PersistentMap.fingerprint, hroot]
      rfl
    · have := (hkeys k).mpr hk
      rw [hnil] at this
      cases this
  | some n =>
    obtain ⟨hcached, hwf⟩ := hvalid n hroot
    have hn : m.keys = n.tree.keys := by rw [keys, hroot]; rfl
    rw [h.tree n.tree hwf fun k => by rw [← hn, hkeys], PersistentMap.fingerprint, hroot]
    exact Node.fingerprint_eq_hash hcached

/-- A map on disk refers to it at its root. -/
theorem disk (h : FingerprintOf sha256 K fingerprint) {σ : Type} {S : ContextStorage σ}
    {w : World σ} {m : DiskMap} {f : Digest → Option (List UInt8)}
    (hreached : DiskMap.Reached S sha256 w m f) (hunforgeable : DiskMap.Unforgeable sha256 w.written)
    (hf : ∀ k, (f k).isSome = true ↔ k ∈ K) : m.fingerprint = fingerprint := by
  obtain ⟨t, hholds, hfind⟩ := hreached.exists_tree hunforgeable
  rw [DiskMap.fingerprint, hholds.root_eq]
  cases t with
  | none =>
    rw [h.empty fun k hk => ?_]
    · rfl
    · have := (hf k).mpr hk
      rw [hfind k] at this
      cases this
  | some t =>
    have hwf := (hholds.stored t rfl).wellFormed
    rw [h.tree t hwf]
    · exact DiskMap.fingerprint_treeChild sha256 t
    · intro k
      rw [← hf k, hfind k]
      change _ ↔ (t.find k).isSome = true
      rw [Option.isSome_iff_ne_none, ne_eq, PatriciaTree.find_eq_none hwf, not_not]

end FingerprintOf

end
end PersistentMap

open PersistentMap in
/-- The fingerprint depends on the key set only, in all three implementations, and determines a
nonempty key set unless two of the hashed nodes collide. -/
theorem fingerprint_agreement (sha256 : List UInt8 → Digest) :
    (∀ K : Finset Digest, ∃ fingerprint : Digest,
      (∀ (V : Type) (ops : List (Operation V)), (∀ k, k ∈ ops.map Operation.key ↔ k ∈ K) →
        (build sha256 ops).fingerprint = fingerprint) ∧
      (∀ (σ : Type) (S : ContextStorage σ) (w : World σ) (m : DiskMap)
        (f : Digest → Option (List UInt8)), DiskMap.Reached S sha256 w m f →
        DiskMap.Unforgeable sha256 w.written → (∀ k, (f k).isSome = true ↔ k ∈ K) →
        m.fingerprint = fingerprint) ∧
      ∃ s, (K.sort (· ≤ ·)).foldlM (SetFingerprint.push sha256) {} = .ok s ∧
        s.finish sha256 = fingerprint) ∧
    ∀ (V V' : Type) (ops : List (Operation V)) (ops' : List (Operation V')),
      ops ≠ [] → ops' ≠ [] →
      Set.InjOn (PatriciaTree.nodeHash (leaf sha256) (branch sha256))
        {x | x ∈ (build sha256 ops).hashed sha256 ∨ x ∈ (build sha256 ops').hashed sha256} →
      (build sha256 ops).fingerprint = (build sha256 ops').fingerprint →
      ∀ k, k ∈ ops.map Operation.key ↔ k ∈ ops'.map Operation.key := by
  constructor
  · intro K
    obtain ⟨s, hs, hfingerprint⟩ := exists_fingerprintOf sha256 K
    refine ⟨s.finish sha256, ?_, ?_, s, hs, rfl⟩
    · intro V ops hops
      obtain ⟨hvalid, hkeys⟩ : (build sha256 ops).Valid sha256 ∧ _ := valid_build ops
      exact hfingerprint.memory hvalid fun k => (hkeys k).trans (hops k)
    · intro σ S w m f hreached hunforgeable hf
      exact hfingerprint.disk hreached hunforgeable hf
  · intro V V' ops ops' hops hops' hinj heq k
    obtain ⟨hvalid, hkeys⟩ : (build sha256 ops).Valid sha256 ∧ _ := valid_build ops
    obtain ⟨hvalid', hkeys'⟩ : (build sha256 ops').Valid sha256 ∧ _ := valid_build ops'
    rw [← hkeys k, ← hkeys' k]
    exact keys_of_fingerprint hvalid hvalid' (keys_build_ne_nil hops) (keys_build_ne_nil hops')
      hinj heq k

namespace PersistentMap.Pair
open DiskMap.Pair

def words : List (Operation String) := [.insert 0 "zero", .insert top "top"]

/-- Another order, other values and a repeated key. -/
def numbers : List (Operation ℕ) := [.set top 1, .insert 0 2, .set top 3]

def shapes : List (Digest ⊕ ℕ × Digest × Digest) := [.inr (0, 4, 5), .inl 0, .inl top]

theorem hashed_words : (build digest words).hashed digest = shapes := by
  decide +kernel

theorem hashed_numbers : (build digest numbers).hashed digest = shapes := by
  decide +kernel

theorem nodeHash_inj : ∀ x ∈ shapes, ∀ y ∈ shapes,
    PatriciaTree.nodeHash (leaf digest) (branch digest) x =
      PatriciaTree.nodeHash (leaf digest) (branch digest) y → x = y := by
  decide +kernel

end PersistentMap.Pair

open PersistentMap PersistentMap.Pair DiskMap.Pair in
/-- Two histories of maps in memory, a map on disk and a stream of the same two keys, and the keys
that the one fingerprint stands for. -/
theorem fingerprint_agreement_branch : ∃ fingerprint s,
    (build digest words).fingerprint = fingerprint ∧
      (build digest numbers).fingerprint = fingerprint ∧
      second.2.1.fingerprint = fingerprint ∧
      [0, top].foldlM (SetFingerprint.push digest) {} = .ok s ∧ s.finish digest = fingerprint ∧
      ∀ k, k ∈ words.map Operation.key ↔
        k ∈ numbers.map Operation.key := by
  obtain ⟨hagree, hkeys⟩ := fingerprint_agreement digest
  obtain ⟨fingerprint, hbuild, hdisk, s, hs, hfinish⟩ := hagree [0, top].toFinset
  have hsort : [0, top].toFinset.sort (· ≤ ·) = [0, top] :=
    (List.toFinset_sort (· ≤ ·) (by decide)).2 (by decide)
  rw [hsort] at hs
  have hwords := hbuild String words (by simp [words, Operation.key])
  have hnumbers := hbuild ℕ numbers (by simp [numbers, Operation.key])
  refine ⟨fingerprint, s, hwords, hnumbers, ?_, hs, hfinish, ?_⟩
  · refine hdisk _ memoryStorage _ _ _ DiskMap.Pair.reached_second
      DiskMap.Pair.unforgeable_second fun k => ?_
    rw [DiskMap.Pair.assigned]
    split_ifs with htop hzero
    · simp [htop]
    · simp [hzero]
    · simpa [htop] using hzero
  · refine hkeys String ℕ _ _ (by simp [words]) (by simp [numbers]) ?_ (hwords.trans hnumbers.symm)
    rw [hashed_words, hashed_numbers]
    intro x hx y hy
    exact nodeHash_inj x (or_self_iff.1 hx) y (or_self_iff.1 hy)

end Naome
