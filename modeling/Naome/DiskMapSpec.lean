import Naome.DiskMap

/-!
# What a disk map stores

The tree behind a root: every node of a Patricia tree is logged at its content address. Each
operation of the map computes on that tree, or fails because the storage does.
-/
namespace Naome.DiskMap
open Outcome ByteCursor Fingerprint StorageM

abbrev ValueTree := PatriciaTree Digest (List UInt8)

theorem fixedKey_digestBytes (d : Digest) : fixedKey (digestBytes d) = .ok d := by
  unfold fixedKey
  rw [if_pos (length_digestBytes d)]
  congr 1
  unfold digestBytes
  rw [ofBigEndian_bigEndian]
  refine BitVec.eq_of_toNat_eq ?_
  rw [BitVec.toNat_ofNat]
  have := d.isLt
  omega

@[simp] theorem length_encodeChild (c : Child) : (encodeChild c).length = childBytes := by
  simp [encodeChild, childBytes]

theorem decodeChild_encodeChild (c : Child) : decodeChild (encodeChild c) = .ok c := by
  obtain ⟨⟨a, f⟩, ⟨lo, hi⟩⟩ := c
  have hlen : (encodeChild ⟨⟨a, f⟩, ⟨lo, hi⟩⟩).length = childBytes := length_encodeChild _
  have h₁ : (encodeChild ⟨⟨a, f⟩, ⟨lo, hi⟩⟩).take 32 = digestBytes a := by
    simp [encodeChild]
  have h₂ : ((encodeChild ⟨⟨a, f⟩, ⟨lo, hi⟩⟩).drop 32).take 32 = digestBytes f := by
    simp [encodeChild]
  have h₃ : ((encodeChild ⟨⟨a, f⟩, ⟨lo, hi⟩⟩).drop 64).take 32 = digestBytes lo := by
    simp [encodeChild, List.drop_append, List.take_append]
  have h₄ : (encodeChild ⟨⟨a, f⟩, ⟨lo, hi⟩⟩).drop 96 = digestBytes hi := by
    simp [encodeChild, List.drop_append, List.drop_of_length_le]
  simp only [decodeChild, hlen, h₁, h₂, h₃, h₄, fixedKey_digestBytes, require, if_true, ok_bind]
  rfl

namespace Node

theorem length_encode (n : Node) : n.encode.length = match n with
    | .leaf _ value => 36 + value.length
    | .branch _ _ _ => 259 := by
  cases n with
  | leaf key value =>
    simp only [encode, List.length_cons, List.length_append, length_digestBytes, length_bigEndian]
    omega
  | branch bit left right =>
    simp only [encode, List.length_cons, List.length_append, length_encodeChild, childBytes]

/-- The nodes that fit their encoding. -/
def Fits : Node → Prop
  | .leaf _ value => value.length ≤ maxValueBytes
  | .branch bit _ _ => bit < 256

theorem parse_encode {n : Node} (h : n.Fits) : parse n.encode = .ok n := by
  cases n with
  | leaf key value =>
    have hfits : value.length ≤ 2048 := h
    have hlen : (encode (.leaf key value)).length = 36 + value.length := length_encode _
    have htag : (encode (.leaf key value))[1]? = some leafTag := rfl
    have hkey : ((encode (.leaf key value)).drop 2).take 32 = digestBytes key := by
      simp [encode]
    have hlength : ((encode (.leaf key value)).drop 34).take 2 = bigEndian 2 value.length := by
      simp [encode]
    have hvalue : (encode (.leaf key value)).drop 36 = value := by
      simp [encode, List.drop_append]
    have hsize : ofBigEndian (bigEndian 2 value.length) = value.length := by
      rw [ofBigEndian_bigEndian]
      omega
    simp only [parse, htag, hlen, hkey, hlength, hvalue, hsize, fixedKey_digestBytes]
    rw [if_pos ⟨trivial, by omega⟩]
    have hreq : require (value.length ≤ maxValueBytes ∧ True) ContextError.corrupt = .ok () :=
      require_eq_ok.mpr ⟨h, trivial⟩
    rw [hreq]
    rfl
  | branch bit left right =>
    have hfits : bit < 256 := h
    have hlen : (encode (.branch bit left right)).length = 3 + 2 * childBytes := length_encode _
    have htag : (encode (.branch bit left right))[1]? = some branchTag := rfl
    have hleft : ((encode (.branch bit left right)).drop 3).take childBytes = encodeChild left := by
      have : (encode (.branch bit left right)).drop 3 = encodeChild left ++ encodeChild right := rfl
      rw [this, ← length_encodeChild left, List.take_left]
    have hright : (encode (.branch bit left right)).drop (3 + childBytes) = encodeChild right := by
      have : (encode (.branch bit left right)).drop 3 = encodeChild left ++ encodeChild right := rfl
      rw [← List.drop_drop, this, ← length_encodeChild left, List.drop_left]
    have hbit : ((encode (.branch bit left right))[2]?.map UInt8.toNat).getD 0 = bit := by
      have : (encode (.branch bit left right))[2]? = some (UInt8.ofNat bit) := rfl
      rw [this, Option.map_some, Option.getD_some, UInt8.toNat_ofNat']
      omega
    have hne : ¬ branchTag = leafTag := by decide
    simp only [parse, htag, hlen, hleft, hright, hbit, hne, false_and, if_false,
      decodeChild_encodeChild]
    rfl

theorem decode_encode {n : Node} (h : n.Fits) (hv : n.validate = .ok ()) :
    decode n.encode = .ok n := by
  have hversion : n.encode[0]? = some version := by
    cases n with
    | leaf key value => rfl
    | branch bit left right => rfl
  have hreq : require (n.encode[0]? = some version) ContextError.corrupt = .ok () :=
    require_eq_ok.mpr hversion
  unfold decode
  rw [hreq, parse_encode h]
  simp only [ok_bind, hv]
  rfl

theorem encode_injective {n n' : Node} (h : n.Fits) (h' : n'.Fits) (he : n.encode = n'.encode) :
    n = n' := by
  have hparse := parse_encode h
  rw [he, parse_encode h'] at hparse
  exact (Except.ok.inj hparse).symm

end Node

section Tree

variable (sha256 : List UInt8 → Digest)

def treeChild : ValueTree → Child
  | .leaf key value => childOf sha256 (.leaf key value)
  | .branch i left right => childOf sha256 (.branch i (treeChild left) (treeChild right))

def treeNode : ValueTree → Node
  | .leaf key value => .leaf key value
  | .branch i left right => .branch i (treeChild sha256 left) (treeChild sha256 right)

theorem treeChild_eq (t : ValueTree) : treeChild sha256 t = childOf sha256 (treeNode sha256 t) := by
  cases t with
  | leaf key value => rfl
  | branch i left right => rfl

theorem range_treeChild (t : ValueTree) : (treeChild sha256 t).range = ⟨t.minKey, t.maxKey⟩ := by
  induction t with
  | leaf key value => rfl
  | branch i left right ihl ihr =>
    simp only [treeChild, childOf, Node.range, ihl, ihr]
    rfl

theorem range_treeNode (t : ValueTree) : (treeNode sha256 t).range = ⟨t.minKey, t.maxKey⟩ := by
  rw [← range_treeChild sha256 t, treeChild_eq]
  rfl

theorem fingerprint_treeChild (t : ValueTree) :
    (treeChild sha256 t).root.fingerprint = t.hash (leaf sha256) (branch sha256) := by
  induction t with
  | leaf key value => rfl
  | branch i left right ihl ihr =>
    simp only [treeChild, childOf, Node.fingerprint, ihl, ihr]
    rfl

/-- The record of a tree's root. -/
def record (t : ValueTree) : Digest × List UInt8 :=
  (storageAddress sha256 (treeNode sha256 t).encode, (treeNode sha256 t).encode)

/-- The records of all nodes. -/
def records : ValueTree → List (Digest × List UInt8)
  | .leaf key value => [record sha256 (.leaf key value)]
  | .branch i left right => record sha256 (.branch i left right) :: (records left ++ records right)

/-- Every node of the tree is logged. -/
def Saved (log : WriteLog) (t : ValueTree) : Prop := records sha256 t ⊆ log

variable {sha256} {log log' : WriteLog} {t : ValueTree}

theorem record_mem_records : record sha256 t ∈ records sha256 t := by
  cases t with
  | leaf key value => exact List.mem_cons_self
  | branch i left right => exact List.mem_cons_self

theorem Saved.record_mem (h : Saved sha256 log t) : record sha256 t ∈ log :=
  h record_mem_records

theorem Saved.mono (h : Saved sha256 log t) (hlog : log ⊆ log') : Saved sha256 log' t :=
  List.Subset.trans h hlog

theorem saved_branch {i : ℕ} {left right : ValueTree} :
    Saved sha256 log (.branch i left right) ↔
      record sha256 (.branch i left right) ∈ log ∧ Saved sha256 log left ∧
        Saved sha256 log right := by
  simp only [Saved, records, List.cons_subset, List.append_subset]

/-- The values fit a leaf. -/
def ValuesFit (t : ValueTree) : Prop := ∀ e ∈ t.entries, e.2.length ≤ maxValueBytes

theorem valuesFit_branch {i : ℕ} {left right : ValueTree} :
    ValuesFit (.branch i left right) ↔ ValuesFit left ∧ ValuesFit right := by
  unfold ValuesFit
  simp only [PatriciaTree.entries, List.forall_mem_append]

/-- What is stored behind a root: a well-formed tree with fitting values, all logged. -/
structure Stored (sha256 : List UInt8 → Digest) (log : WriteLog) (t : ValueTree) : Prop where
  wellFormed : t.WellFormed
  fits : ValuesFit t
  saved : Saved sha256 log t

theorem Stored.mono (h : Stored sha256 log t) (hlog : log ⊆ log') : Stored sha256 log' t :=
  ⟨h.wellFormed, h.fits, h.saved.mono hlog⟩

theorem Stored.left {i : ℕ} {left right : ValueTree}
    (h : Stored sha256 log (.branch i left right)) : Stored sha256 log left :=
  ⟨h.wellFormed.1, (valuesFit_branch.1 h.fits).1, (saved_branch.1 h.saved).2.1⟩

theorem Stored.right {i : ℕ} {left right : ValueTree}
    (h : Stored sha256 log (.branch i left right)) : Stored sha256 log right :=
  ⟨h.wellFormed.2.1, (valuesFit_branch.1 h.fits).2, (saved_branch.1 h.saved).2.2⟩

theorem fits_treeNode (hwf : t.WellFormed) (hfits : ValuesFit t) : (treeNode sha256 t).Fits := by
  cases t with
  | leaf key value => exact hfits _ List.mem_cons_self
  | branch i left right => exact hwf.2.2.1

theorem differingBit_eq {a b : Digest} {i : ℕ} (h : BitKey.AgreeBelow i a b)
    (hi : BitKey.bit a i ≠ BitKey.bit b i) : differingBit a b = some i := by
  have hne : a ≠ b := by
    intro e
    exact hi (by rw [e])
  rw [differingBit, if_neg hne]
  exact congrArg some (BitKey.diff_eq h hi)

theorem samePrefix_of_agreeBelow {a b : Digest} {i : ℕ} (h : BitKey.AgreeBelow i a b) :
    samePrefix a b i = true := by
  unfold samePrefix differingBit
  split
  · rfl
  · rename_i hne
    exact decide_eq_true (BitKey.le_diff h hne)

/-- The twelve checks hold of two subtrees that are separated by a bit. -/
theorem branchValid_of_wellFormed {i : ℕ} {left right : ValueTree}
    (h : PatriciaTree.WellFormed (.branch i left right))
    (haddress : (treeChild sha256 left).root.address ≠ (treeChild sha256 right).root.address) :
    Node.branchValid i (treeChild sha256 left) (treeChild sha256 right) = true := by
  obtain ⟨hl, hr, hi, hleft, hright, hall⟩ := h
  have hlmin := left.minKey_mem
  have hlmax := left.maxKey_mem
  have hrmin := right.minKey_mem
  have hrmax := right.maxKey_mem
  have hagree : ∀ {k k' : Digest}, (k ∈ left.keys ∨ k ∈ right.keys) →
      (k' ∈ left.keys ∨ k' ∈ right.keys) → BitKey.AgreeBelow i k k' := by
    intro k k' hk hk'
    exact hall k (List.mem_append.mpr hk) k' (List.mem_append.mpr hk')
  have h₁ : ¬ left.maxKey < left.minKey := not_lt.mpr (PatriciaTree.minKey_le hl hlmax)
  have h₂ : ¬ right.maxKey < right.minKey := not_lt.mpr (PatriciaTree.minKey_le hr hrmax)
  have h₃ : ¬ right.minKey ≤ left.maxKey := not_le.mpr
    (BitKey.lt_of_bits (hagree (Or.inl hlmax) (Or.inr hrmin)) (hleft _ hlmax) (hright _ hrmin))
  have h₄ : differingBit left.minKey right.maxKey = some i := by
    refine differingBit_eq (hagree (Or.inl hlmin) (Or.inr hrmax)) ?_
    rw [hleft _ hlmin, hright _ hrmax]
    exact Bool.false_ne_true
  have h₅ : samePrefix left.minKey left.maxKey i = true :=
    samePrefix_of_agreeBelow (hagree (Or.inl hlmin) (Or.inl hlmax))
  have h₆ : samePrefix left.minKey right.minKey i = true :=
    samePrefix_of_agreeBelow (hagree (Or.inl hlmin) (Or.inr hrmin))
  have h₇ : samePrefix right.minKey right.maxKey i = true :=
    samePrefix_of_agreeBelow (hagree (Or.inr hrmin) (Or.inr hrmax))
  have h₈ : keyBit left.minKey i = false := hleft _ hlmin
  have h₉ : keyBit left.maxKey i = false := hleft _ hlmax
  have h₁₀ : keyBit right.minKey i = true := hright _ hrmin
  have h₁₁ : keyBit right.maxKey i = true := hright _ hrmax
  simp only [Node.branchValid, range_treeChild, h₁, h₂, h₃, h₄, h₅, h₆, h₇, h₈, h₉, h₁₀, h₁₁,
    haddress, ne_eq, not_true_eq_false, decide_false, Bool.not_true, Bool.or_false, Bool.not_false]

end Tree
end Naome.DiskMap
