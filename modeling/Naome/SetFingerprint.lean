import Naome.ArtifactState
import Naome.PatriciaTree

/-!
# Streaming fingerprints

The fingerprint of a set of keys read in ascending order. The pending branches are the
right edge of the Patricia tree of the keys read so far, so the digest is the hash of that tree.
-/
namespace Naome
open Fingerprint

def keyBit (key : Digest) (bit : ℕ) : Bool := key.getMsbD bit

instance : LinearOrder Digest where
  le_refl a := BitVec.le_refl a
  le_trans _ _ _ := BitVec.le_trans
  lt_iff_le_not_ge a b := by
    simp only [BitVec.lt_def, BitVec.le_def]
    omega
  le_antisymm _ _ h h' := BitVec.le_antisymm h h'
  le_total a b := BitVec.le_total a b
  toDecidableLE := inferInstance
  toDecidableLT := inferInstance
  toDecidableEq := inferInstance
  compare_eq_compareOfLessAndEq _ _ := rfl

theorem xor_toNat_ne_zero {a b : Digest} (h : a ≠ b) : (a ^^^ b).toNat ≠ 0 := by
  intro h0
  have : a ^^^ b = 0#256 := BitVec.eq_of_toNat_eq h0
  exact h (BitVec.xor_eq_zero_iff.mp this)

theorem log2_xor_lt {a b : Digest} (h : a ≠ b) : Nat.log2 (a ^^^ b).toNat < 256 :=
  (Nat.log2_lt (xor_toNat_ne_zero h)).mpr (a ^^^ b).isLt

theorem keyBit_eq_testBit {a : Digest} {i : ℕ} (hi : i < 256) :
    keyBit a i = a.toNat.testBit (255 - i) := by
  simp [keyBit, BitVec.getMsbD, BitVec.getLsbD, hi]

theorem testBit_xor_toNat (a b : Digest) (j : ℕ) :
    (a ^^^ b).toNat.testBit j = (a.toNat.testBit j ^^ b.toNat.testBit j) := by
  rw [BitVec.toNat_xor, Nat.testBit_xor]

theorem testBit_eq_of_log2_lt {a b : Digest} (h : a ≠ b) {j : ℕ}
    (hj : Nat.log2 (a ^^^ b).toNat < j) : a.toNat.testBit j = b.toNat.testBit j := by
  have hlt := (Nat.log2_lt (xor_toNat_ne_zero h)).mp hj
  have hbit := testBit_xor_toNat a b j
  rw [Nat.testBit_lt_two_pow hlt] at hbit
  simpa using hbit.symm

theorem testBit_log2_ne {a b : Digest} (h : a ≠ b) :
    a.toNat.testBit (Nat.log2 (a ^^^ b).toNat) ≠ b.toNat.testBit (Nat.log2 (a ^^^ b).toNat) := by
  have hbit := testBit_xor_toNat a b (Nat.log2 (a ^^^ b).toNat)
  rw [Nat.testBit_log2 (xor_toNat_ne_zero h)] at hbit
  intro heq
  rw [heq, Bool.xor_self] at hbit
  cases hbit

theorem keyBit_firstDifferingBit {a b c : Digest} (h : a ≠ b) :
    keyBit c (firstDifferingBit a b) = c.toNat.testBit (Nat.log2 (a ^^^ b).toNat) := by
  have := log2_xor_lt h
  unfold firstDifferingBit
  rw [keyBit_eq_testBit (by omega)]
  congr 1
  omega

instance : BitKey Digest where
  width := 256
  bit := keyBit
  diff := firstDifferingBit
  diff_lt_width _ := by
    unfold firstDifferingBit
    omega
  bit_of_lt_diff {a b i} h hi := by
    have hlog := log2_xor_lt h
    unfold firstDifferingBit at hi
    rw [keyBit_eq_testBit (by omega), keyBit_eq_testBit (by omega)]
    exact testBit_eq_of_log2_lt h (by omega)
  bit_diff {a b} h := by
    rw [keyBit_firstDifferingBit h, keyBit_firstDifferingBit h]
    exact testBit_log2_ne h
  lt_iff {a b} := by
    constructor
    · intro hlt
      have hne : a ≠ b := ne_of_lt hlt
      refine ⟨hne, ?_⟩
      rw [keyBit_firstDifferingBit hne]
      cases hbit : a.toNat.testBit (Nat.log2 (a ^^^ b).toNat) with
      | false => rfl
      | true =>
        have hb := testBit_log2_ne hne
        rw [hbit] at hb
        have hba := Nat.lt_of_testBit _ (Bool.eq_false_iff.mpr hb.symm) hbit
          fun j hj => (testBit_eq_of_log2_lt hne hj).symm
        exact absurd (BitVec.lt_def.mp hlt) (by omega)
    · rintro ⟨hne, hbit⟩
      rw [keyBit_firstDifferingBit hne] at hbit
      have hb := testBit_log2_ne hne
      rw [hbit] at hb
      exact BitVec.lt_def.mpr (Nat.lt_of_testBit _ hbit (Bool.ne_false_iff.mp hb.symm)
        fun j hj => testBit_eq_of_log2_lt hne hj)

/-- Streaming, order-checked reconstruction; the last pending branch is the first of the list. -/
structure SetFingerprint where
  previous : Option Digest := none
  pending : List (ℕ × Digest) := []
  current : Digest := 0
  deriving DecidableEq

namespace SetFingerprint

variable (sha256 : List UInt8 → Digest)

def push (s : SetFingerprint) (key : Digest) : Except ContextError SetFingerprint :=
  match s.previous with
  | none => .ok { s with current := leaf sha256 key, previous := some key }
  | some previous =>
    if key ≤ previous then .error .corrupt
    else
      let bit := firstDifferingBit previous key
      let (pending, current) := close sha256 bit s.pending s.current
      .ok ⟨some key, (bit, current) :: pending, leaf sha256 key⟩

def finish (s : SetFingerprint) : Digest := (close sha256 0 s.pending s.current).2

/-- The tree that a stack of pending branches and a current tree stand for. -/
def plug : List (ℕ × PatriciaTree Digest Unit) → PatriciaTree Digest Unit →
    PatriciaTree Digest Unit
  | [], t => t
  | (level, left) :: pending, t => plug pending (.branch level left t)

/-- Closing branches on trees instead of hashes. -/
def closeTree (bit : ℕ) : List (ℕ × PatriciaTree Digest Unit) → PatriciaTree Digest Unit →
    List (ℕ × PatriciaTree Digest Unit) × PatriciaTree Digest Unit
  | [], t => ([], t)
  | (level, left) :: pending, t =>
    if bit ≤ level then closeTree bit pending (.branch level left t)
    else ((level, left) :: pending, t)

def hashPending (pending : List (ℕ × PatriciaTree Digest Unit)) : List (ℕ × Digest) :=
  pending.map fun p => (p.1, p.2.hash (leaf sha256) (branch sha256))

theorem close_hashPending (bit : ℕ) (pending : List (ℕ × PatriciaTree Digest Unit))
    (t : PatriciaTree Digest Unit) :
    close sha256 bit (hashPending sha256 pending) (t.hash (leaf sha256) (branch sha256)) =
      (hashPending sha256 (closeTree bit pending t).1,
        (closeTree bit pending t).2.hash (leaf sha256) (branch sha256)) := by
  induction pending generalizing t with
  | nil => rfl
  | cons p pending ih =>
    obtain ⟨level, left⟩ := p
    simp only [hashPending, List.map_cons, close, closeTree]
    split
    · exact ih (.branch level left t)
    · rfl

theorem closeTree_zero (pending : List (ℕ × PatriciaTree Digest Unit))
    (t : PatriciaTree Digest Unit) : closeTree 0 pending t = ([], plug pending t) := by
  induction pending generalizing t with
  | nil => rfl
  | cons p pending ih =>
    simp only [closeTree, Nat.zero_le, if_true]
    exact ih _

theorem plug_closeTree (bit : ℕ) (pending : List (ℕ × PatriciaTree Digest Unit))
    (t : PatriciaTree Digest Unit) :
    plug (closeTree bit pending t).1 (closeTree bit pending t).2 = plug pending t := by
  induction pending generalizing t with
  | nil => rfl
  | cons p pending ih =>
    simp only [closeTree]
    split
    · exact ih _
    · rfl

/-- A tree whose root lies at or below a bit. -/
def RootFrom (bit : ℕ) : PatriciaTree Digest Unit → Prop
  | .leaf _ _ => True
  | .branch i _ _ => bit ≤ i

theorem rootFrom_closeTree {bit : ℕ} {pending : List (ℕ × PatriciaTree Digest Unit)}
    {t : PatriciaTree Digest Unit} (h : RootFrom bit t) :
    RootFrom bit (closeTree bit pending t).2 := by
  induction pending generalizing t with
  | nil => exact h
  | cons p pending ih =>
    simp only [closeTree]
    split
    · rename_i hle
      exact ih hle
    · exact h

theorem closeTree_suffix (bit : ℕ) (pending : List (ℕ × PatriciaTree Digest Unit))
    (t : PatriciaTree Digest Unit) : (closeTree bit pending t).1 <:+ pending := by
  induction pending generalizing t with
  | nil => exact List.suffix_rfl
  | cons p pending ih =>
    simp only [closeTree]
    split
    · exact (ih _).trans (List.suffix_cons _ _)
    · exact List.suffix_rfl

theorem lt_of_mem_closeTree {bit : ℕ} {pending : List (ℕ × PatriciaTree Digest Unit)}
    {t : PatriciaTree Digest Unit} (h : pending.Pairwise fun p q => q.1 < p.1)
    {p : ℕ × PatriciaTree Digest Unit} (hp : p ∈ (closeTree bit pending t).1) : p.1 < bit := by
  induction pending generalizing t with
  | nil => cases hp
  | cons q pending ih =>
    rw [List.pairwise_cons] at h
    simp only [closeTree] at hp
    split at hp
    · exact ih h.2 hp
    · rename_i hlt
      rcases List.mem_cons.mp hp with rfl | hp
      · exact Nat.lt_of_not_le hlt
      · exact (h.1 p hp).trans (Nat.lt_of_not_le hlt)

theorem insertAt_plug {d : ℕ} {key : Digest} {pending : List (ℕ × PatriciaTree Digest Unit)}
    (hlt : ∀ p ∈ pending, p.1 < d) (hbit : ∀ p ∈ pending, BitKey.bit key p.1 = true)
    (t : PatriciaTree Digest Unit) :
    (plug pending t).insertAt d key () = plug pending (t.insertAt d key ()) := by
  induction pending generalizing t with
  | nil => rfl
  | cons p pending ih =>
    obtain ⟨level, left⟩ := p
    rw [List.forall_mem_cons] at hlt hbit
    rw [plug, ih hlt.2 hbit.2, PatriciaTree.insertAt, if_pos hlt.1, if_pos hbit.1]
    rfl

theorem insertAt_of_rootFrom {d : ℕ} {key : Digest} {t : PatriciaTree Digest Unit}
    (h : RootFrom d t) (hbit : BitKey.bit key d = true) :
    t.insertAt d key () = .branch d t (.leaf key ()) := by
  cases t with
  | leaf k v => rw [PatriciaTree.insertAt, PatriciaTree.split, if_pos hbit]
  | branch i left right =>
    rw [PatriciaTree.insertAt, if_neg (Nat.not_lt.mpr h), PatriciaTree.split, if_pos hbit]

/-- The leaf at which a search ends agrees with the key as long as any key of the tree does. -/
theorem agreeBelow_terminal {t : PatriciaTree Digest Unit} (h : t.WellFormed) {key k : Digest}
    (hk : k ∈ t.keys) {d : ℕ} (hd : BitKey.AgreeBelow d k key) :
    BitKey.AgreeBelow d (t.terminal key).1 key := by
  induction t with
  | leaf k' v =>
    rw [List.mem_singleton.mp hk] at hd
    exact hd
  | branch i left right ihl ihr =>
    have hterminal := PatriciaTree.fst_terminal_mem key (.branch i left right)
    rw [PatriciaTree.keys_branch] at hk hterminal
    by_cases hi : d ≤ i
    · exact ((h.2.2.2.2.2 _ hterminal k hk).mono hi).trans hd
    · have hbit := hd i (by omega)
      simp only [PatriciaTree.terminal]
      rcases List.mem_append.mp hk with hk | hk
      · rw [h.2.2.2.1 k hk] at hbit
        rw [if_neg (by rw [← hbit]; exact Bool.false_ne_true)]
        exact ihl h.1 hk
      · rw [h.2.2.2.2.1 k hk] at hbit
        rw [if_pos hbit.symm]
        exact ihr h.2.1 hk

theorem diff_terminal_of_max {t : PatriciaTree Digest Unit} (h : t.WellFormed)
    {key last : Digest} (hlast : last ∈ t.keys) (hmax : ∀ k ∈ t.keys, k ≤ last) (hlt : last < key) :
    (t.terminal key).1 ≠ key ∧
      BitKey.diff (t.terminal key).1 key = BitKey.diff last key := by
  have hmem := PatriciaTree.fst_terminal_mem key t
  have hne : (t.terminal key).1 ≠ key := ne_of_lt (lt_of_le_of_lt (hmax _ hmem) hlt)
  refine ⟨hne, ?_⟩
  have hlastne : last ≠ key := ne_of_lt hlt
  have hagree := agreeBelow_terminal h hlast (BitKey.agreeBelow_diff hlastne)
  have hle := BitKey.le_diff hagree hne
  by_contra hdiff
  -- A later separation would put the reached leaf above the greatest key.
  have hbit : BitKey.bit (t.terminal key).1 (BitKey.diff last key) = true := by
    rw [BitKey.bit_of_lt_diff hne (by omega)]
    exact BitKey.bit_true_of_lt hlt
  have hgreater : last < (t.terminal key).1 :=
    BitKey.lt_of_bits ((BitKey.agreeBelow_diff hlastne).trans hagree.symm)
      (BitKey.lt_iff.mp hlt).2 hbit
  exact absurd (hmax _ hmem) (not_le.mpr hgreater)

/-- The right edge kept by the stream: the greatest key is current, and the pending levels
are bits in which it is set. -/
structure Edge (pending : List (ℕ × PatriciaTree Digest Unit)) (last : Digest) : Prop where
  wellFormed : (plug pending (.leaf last ())).WellFormed
  levels : pending.Pairwise fun p q => q.1 < p.1
  bits : ∀ p ∈ pending, BitKey.bit last p.1 = true
  mem : last ∈ (plug pending (.leaf last ())).keys
  max : ∀ k ∈ (plug pending (.leaf last ())).keys, k ≤ last

theorem edge_singleton (key : Digest) : Edge [] key where
  wellFormed := trivial
  levels := List.Pairwise.nil
  bits := by simp
  mem := List.mem_singleton_self key
  max k hk := (List.mem_singleton.mp hk).le

theorem Edge.push {pending : List (ℕ × PatriciaTree Digest Unit)} {last key : Digest}
    (h : Edge pending last) (hlt : last < key) :
    let c := closeTree (firstDifferingBit last key) pending (.leaf last ())
    Edge ((firstDifferingBit last key, c.2) :: c.1) key ∧
      ∀ k, k ∈ (plug ((firstDifferingBit last key, c.2) :: c.1) (.leaf key ())).keys ↔
        k = key ∨ k ∈ (plug pending (.leaf last ())).keys := by
  intro c
  have hne : last ≠ key := ne_of_lt hlt
  obtain ⟨hterminal, hdiff⟩ := diff_terminal_of_max h.wellFormed h.mem h.max hlt
  have hbit : BitKey.bit key (BitKey.diff last key) = true := BitKey.bit_true_of_lt hlt
  have hlevels : ∀ p ∈ c.1, p.1 < BitKey.diff last key := fun p hp => lt_of_mem_closeTree h.levels hp
  have hbits : ∀ p ∈ c.1, BitKey.bit key p.1 = true := by
    intro p hp
    rw [← BitKey.bit_of_lt_diff hne (hlevels p hp)]
    exact h.bits p ((closeTree_suffix _ _ _).subset hp)
  have hroot : RootFrom (BitKey.diff last key) c.2 := rootFrom_closeTree trivial
  have htree : (plug pending (.leaf last ())).insertAt (BitKey.diff last key) key () =
      plug ((BitKey.diff last key, c.2) :: c.1) (.leaf key ()) := by
    have hplug : plug c.1 c.2 = plug pending (.leaf last ()) := plug_closeTree _ _ _
    rw [← hplug, insertAt_plug hlevels hbits, insertAt_of_rootFrom hroot hbit]
    rfl
  have hkeys : ∀ k, k ∈ (plug ((BitKey.diff last key, c.2) :: c.1) (.leaf key ())).keys ↔
      k = key ∨ k ∈ (plug pending (.leaf last ())).keys := by
    intro k
    rw [← htree]
    exact PatriciaTree.mem_keys_insertAt
  refine ⟨⟨?_, ?_, ?_, ?_, ?_⟩, hkeys⟩
  · have := PatriciaTree.wellFormed_insertAt h.wellFormed () hterminal
    rw [hdiff, htree] at this
    exact this
  · refine List.pairwise_cons.mpr ⟨hlevels, ?_⟩
    exact h.levels.sublist (closeTree_suffix _ _ _).sublist
  · intro p hp
    rcases List.mem_cons.mp hp with rfl | hp
    · exact hbit
    · exact hbits p hp
  · exact (hkeys key).mpr (Or.inl rfl)
  · intro k hk
    rcases (hkeys k).mp hk with rfl | hk
    · exact le_rfl
    · exact (h.max k hk).trans hlt.le

/-- The state reached after a set of keys, the last of which is the greatest. -/
structure Reads (keys : List Digest) (s : SetFingerprint) : Prop where
  empty : keys = [] → s = {}
  edge : keys ≠ [] → ∃ pending last, Edge pending last ∧
    s = ⟨some last, hashPending sha256 pending, leaf sha256 last⟩ ∧
    ∀ k, k ∈ (plug pending (.leaf last ())).keys ↔ k ∈ keys

theorem Reads.push {keys : List Digest} {s : SetFingerprint} (h : Reads sha256 keys s)
    {key : Digest} (hkey : ∀ k ∈ keys, k < key) :
    ∃ s', s.push sha256 key = .ok s' ∧ Reads sha256 (keys ++ [key]) s' := by
  by_cases hnil : keys = []
  · subst hnil
    rw [h.empty rfl]
    refine ⟨_, rfl, by simp, fun _ => ⟨[], key, edge_singleton key, rfl, ?_⟩⟩
    intro k
    rfl
  · obtain ⟨pending, last, hedge, rfl, hkeys⟩ := h.edge hnil
    have hlt : last < key := hkey last ((hkeys last).mp hedge.mem)
    have hclose := close_hashPending sha256 (firstDifferingBit last key) pending (.leaf last ())
    obtain ⟨hedge', hkeys'⟩ := hedge.push hlt
    refine ⟨⟨some key, hashPending sha256 (_ :: _), leaf sha256 key⟩, ?_, by simp,
      fun _ => ⟨_, key, hedge', rfl, ?_⟩⟩
    · simp only [SetFingerprint.push, if_neg (not_le.mpr hlt)]
      rw [show leaf sha256 last = (PatriciaTree.leaf last ()).hash (leaf sha256) (branch sha256)
        from rfl, hclose]
      rfl
    · intro k
      rw [hkeys', hkeys, List.mem_append, List.mem_singleton]
      exact or_comm

theorem exists_foldlM_push {keys rest : List Digest} {s : SetFingerprint}
    (h : Reads sha256 keys s) (hsorted : (keys ++ rest).Pairwise (· < ·)) :
    ∃ s', rest.foldlM (SetFingerprint.push sha256) s = .ok s' ∧
      Reads sha256 (keys ++ rest) s' := by
  induction rest generalizing keys s with
  | nil => exact ⟨s, rfl, by rwa [List.append_nil]⟩
  | cons key rest ih =>
    have hkey : ∀ k ∈ keys, k < key := by
      intro k hk
      exact (List.pairwise_append.mp hsorted).2.2 k hk key List.mem_cons_self
    obtain ⟨s₁, hs₁, hreads⟩ := h.push sha256 hkey
    rw [List.append_cons] at hsorted
    obtain ⟨s', hs', hfinal⟩ := ih hreads hsorted
    refine ⟨s', ?_, ?_⟩
    · rw [List.foldlM_cons, hs₁]
      exact hs'
    · rwa [List.append_cons]

/-- The fingerprint of an ascending list of keys is the hash of the tree of these keys. -/
theorem finish_eq_hash {V : Type} {keys : List Digest} (hsorted : keys.Pairwise (· < ·)) :
    ∃ s, keys.foldlM (SetFingerprint.push sha256) {} = .ok s ∧
      (keys = [] → s.finish sha256 = 0) ∧
      ∀ t : PatriciaTree Digest V, t.WellFormed → (∀ k, k ∈ t.keys ↔ k ∈ keys) →
        s.finish sha256 = t.hash (leaf sha256) (branch sha256) := by
  have hstart : Reads sha256 [] {} := ⟨fun _ => rfl, fun h => absurd rfl h⟩
  obtain ⟨s, hs, hreads⟩ := exists_foldlM_push sha256 hstart hsorted
  rw [List.nil_append] at hreads
  refine ⟨s, hs, ?_, ?_⟩
  · intro hnil
    rw [hreads.empty hnil]
    rfl
  · intro t ht hkeys
    have hne : keys ≠ [] := List.ne_nil_of_mem ((hkeys _).mp t.minKey_mem)
    obtain ⟨pending, last, hedge, rfl, hplug⟩ := hreads.edge hne
    have hshape : (plug pending (.leaf last ())).shape = t.shape :=
      PatriciaTree.shape_eq_of_keys hedge.wellFormed ht fun k => (hplug k).trans (hkeys k).symm
    have hclose := close_hashPending sha256 0 pending (.leaf last ())
    rw [closeTree_zero] at hclose
    calc (close sha256 0 (hashPending sha256 pending) (leaf sha256 last)).2
        = (plug pending (.leaf last ())).hash (leaf sha256) (branch sha256) := by
          rw [show leaf sha256 last = (PatriciaTree.leaf last ()).hash (leaf sha256)
            (branch sha256) from rfl, hclose]
      _ = t.hash (leaf sha256) (branch sha256) := by
          rw [← PatriciaTree.hash_shape, hshape, PatriciaTree.hash_shape]

end SetFingerprint
end Naome
