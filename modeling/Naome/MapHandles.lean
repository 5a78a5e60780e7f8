import Naome.FingerprintAgreement

/-!
# Handles of persistent maps

Handles are cloned and written independently of each other. Each one answers with what its own
history of calls has put into it.
-/
namespace Naome
open Fingerprint ByteCursor

theorem ByteCursor.append_lt_append {as bs : List UInt8} (hlength : as.length = bs.length) (h : as < bs)
    (cs ds : List UInt8) : as ++ cs < bs ++ ds := by
  induction as generalizing bs with
  | nil =>
    rw [List.eq_nil_of_length_eq_zero hlength.symm] at h
    exact absurd h (List.lt_irrefl [])
  | cons a as ih =>
    cases bs with
    | nil => cases hlength
    | cons b bs =>
      rw [List.cons_lt_cons_iff] at h
      rw [List.cons_append, List.cons_append, List.cons_lt_cons_iff]
      rcases h with h | ⟨hab, h⟩
      · exact .inl h
      · exact .inr ⟨hab, ih (Nat.succ.inj hlength) h⟩

/-- Big-endian numbers of one width are ordered as their bytes. -/
theorem ByteCursor.bigEndian_lt {k n m : ℕ} (hm : m < 256 ^ k) (h : n < m) :
    bigEndian k n < bigEndian k m := by
  induction k generalizing n m with
  | zero => omega
  | succ k ih =>
    rw [pow_succ] at hm
    rw [bigEndian, bigEndian]
    by_cases hhigh : n / 256 = m / 256
    · have hlow : UInt8.ofNat n < UInt8.ofNat m := by
        rw [UInt8.lt_iff_toNat_lt, UInt8.toNat_ofNat', UInt8.toNat_ofNat']
        omega
      rw [hhigh]
      exact List.append_left_lt (List.cons_lt_cons_iff.mpr (.inl hlow))
    · have hlt : bigEndian k (n / 256) < bigEndian k (m / 256) := ih (by omega) (by omega)
      exact append_lt_append (by simp) hlt _ _

theorem digestBytes_lt {a b : Digest} (h : a < b) : digestBytes a < digestBytes b := by
  have hwidth : b.toNat < 256 ^ 32 := by
    have hlt := b.isLt
    rwa [show (2 : ℕ) ^ 256 = 256 ^ 32 by norm_num] at hlt
  unfold digestBytes
  exact bigEndian_lt (k := 32) hwidth (BitVec.lt_def.mp h)

namespace PersistentMap

variable {V : Type}

namespace Node

def keys : Node V → List Digest
  | .leaf key _ _ => [key]
  | .branch _ left right _ => left.keys ++ right.keys

/-- The branch bits below and at a node. -/
def bits : Node V → List ℕ
  | .leaf _ _ _ => []
  | .branch bit left right _ => bit :: (left.bits ++ right.bits)

/-- Branch bits increase along every path, and below a branch all keys agree on the earlier bits
and are divided by its own. -/
def Prefixed : Node V → Prop
  | .leaf _ _ _ => True
  | .branch bit left right _ =>
    bit < 256 ∧ (∀ b ∈ left.bits ++ right.bits, bit < b) ∧
      (∀ k ∈ left.keys ++ right.keys, ∀ k' ∈ left.keys ++ right.keys, ∀ j < bit,
        keyBit k j = keyBit k' j) ∧
      (∀ k ∈ left.keys, keyBit k bit = false) ∧ (∀ k ∈ right.keys, keyBit k bit = true) ∧
      left.Prefixed ∧ right.Prefixed

theorem keys_tree (n : Node V) : n.tree.keys = n.keys := by
  induction n with
  | leaf key value f => rfl
  | branch bit left right f ihl ihr => rw [tree, PatriciaTree.keys_branch, ihl, ihr, keys]

/-- Keys that agree up to a bit are divided by later bits only. -/
theorem lt_of_mem_bits {n : Node V} (h : n.tree.WellFormed) {i : ℕ}
    (hagree : ∀ k ∈ n.keys, ∀ k' ∈ n.keys, ∀ j ≤ i, keyBit k j = keyBit k' j) :
    ∀ b ∈ n.bits, i < b := by
  induction n with
  | leaf key value f => simp [bits]
  | branch bit left right f ihl ihr =>
    obtain ⟨hl, hr, -, hleft, hright, -⟩ := h
    rw [keys] at hagree
    intro b hb
    rw [bits, List.mem_cons, List.mem_append] at hb
    rcases hb with rfl | hb | hb
    · have hk := left.tree.minKey_mem
      have hk' := right.tree.minKey_mem
      have hfalse := hleft _ hk
      have htrue := hright _ hk'
      rw [keys_tree] at hk hk'
      have hsame := hagree _ (List.mem_append_left _ hk) _ (List.mem_append_right _ hk') b
      by_contra hnot
      have hbit := hsame (by omega)
      change keyBit _ b = false at hfalse
      change keyBit _ b = true at htrue
      rw [hfalse, htrue] at hbit
      cases hbit
    · exact ihl hl (fun k hk k' hk' => hagree k (List.mem_append_left _ hk) k'
        (List.mem_append_left _ hk')) b hb
    · exact ihr hr (fun k hk k' hk' => hagree k (List.mem_append_right _ hk) k'
        (List.mem_append_right _ hk')) b hb

theorem prefixed_of_wellFormed {n : Node V} (h : n.tree.WellFormed) : n.Prefixed := by
  induction n with
  | leaf key value f => trivial
  | branch bit left right f ihl ihr =>
    obtain ⟨hl, hr, hbit, hleft, hright, hagree⟩ := h
    simp only [keys_tree] at hleft hright hagree
    have hupTo : ∀ k ∈ left.keys ++ right.keys, ∀ k' ∈ left.keys ++ right.keys,
        keyBit k bit = keyBit k' bit → ∀ j ≤ bit, keyBit k j = keyBit k' j := by
      intro k hk k' hk' hsame j hj
      rcases Nat.lt_or_eq_of_le hj with hj | rfl
      · exact hagree k hk k' hk' j hj
      · exact hsame
    refine ⟨hbit, ?_, fun k hk k' hk' => hagree k hk k' hk', hleft, hright, ihl hl, ihr hr⟩
    intro b hb
    rcases List.mem_append.mp hb with hb | hb
    · refine lt_of_mem_bits hl (fun k hk k' hk' => ?_) b hb
      exact hupTo k (List.mem_append_left _ hk) k' (List.mem_append_left _ hk')
        ((hleft k hk).trans (hleft k' hk').symm)
    · refine lt_of_mem_bits hr (fun k hk k' hk' => ?_) b hb
      exact hupTo k (List.mem_append_right _ hk) k' (List.mem_append_right _ hk')
        ((hright k hk).trans (hright k' hk').symm)

end Node

namespace Operation

/-- The value that a call sets at a key. -/
def setAt (key : Digest) : Operation V → Option V
  | .set k value => if k = key then some value else none
  | .insert _ _ => none

/-- The value that a call inserts at a key, unless it is there. -/
def insertedAt (key : Digest) : Operation V → Option V
  | .insert k value => if k = key then some value else none
  | .set _ _ => none

end Operation

/-- The value last set at a key, or else the one first inserted. -/
def lastSetOrFirstInserted (history : List (Operation V)) (key : Digest) : Option V :=
  (history.filterMap (Operation.setAt key)).getLast?.or
    (history.filterMap (Operation.insertedAt key)).head?

/-- A handle with the calls that led to it, its clones' common past included. -/
structure Handle (V : Type) where
  map : PersistentMap V
  history : List (Operation V)

inductive Call (V : Type)
  | new
  | clone (handle : ℕ)
  | write (handle : ℕ) (operation : Operation V)

section

variable (sha256 : List UInt8 → Digest)

def Handle.write (h : Handle V) (operation : Operation V) : Handle V :=
  ⟨operation.apply sha256 h.map, h.history ++ [operation]⟩

/-- One call on one of the handles. -/
def Call.apply (handles : List (Handle V)) : Call V → List (Handle V)
  | .new => handles ++ [⟨{}, []⟩]
  | .clone handle => handles ++ handles[handle]?.toList
  | .write handle operation => handles.modify handle fun h => h.write sha256 operation

def handlesAfter (calls : List (Call V)) : List (Handle V) := calls.foldl (Call.apply sha256) []

variable {sha256}

theorem get_set {m : PersistentMap V} (h : m.Valid sha256) (key : Digest) (value : V) (k : Digest) :
    (m.set sha256 key value).get k = if k = key then some value else m.get k := by
  cases hroot : m.root with
  | none =>
    have hset : m.set sha256 key value = ⟨some (Node.newLeaf sha256 key value)⟩ := by
      simp [set, containsKey, get, insert, hroot]
    rw [hset]
    simp [get, hroot, Node.newLeaf, Node.get, eq_comm]
  | some root =>
    obtain ⟨root', hset, -, htree⟩ := set_root hroot h key value
    have hfind := PatriciaTree.find_write (h root hroot).2 key value k
    rw [hset, get_eq_find, get_eq_find, hroot, Option.bind_some, Option.bind_some, htree, hfind]

theorem insert_eq {m : PersistentMap V} (h : m.Valid sha256) (key : Digest) (value : V) :
    (m.insert sha256 key value).2 = (m.get key).isNone ∧
      (m.insert sha256 key value).1 =
        if (m.get key).isNone then m.set sha256 key value else m := by
  cases hroot : m.root with
  | none =>
    have hget : m.get key = none := by simp [get, hroot]
    simp [set, containsKey, insert, hroot, hget]
  | some root =>
    obtain ⟨hinserted, -⟩ := insert_root hroot h key value
    refine ⟨hinserted, ?_⟩
    cases hget : m.get key with
    | none => simp [set, containsKey, hget]
    | some v =>
      have hterminal : root.terminalKey key = key := by
        rw [get_eq_find, hroot, Option.bind_some, PatriciaTree.find] at hget
        rw [Node.terminalKey_eq]
        by_contra hne
        rw [if_neg hne] at hget
        cases hget
      simp [insert, hroot, hterminal]

theorem get_insert {m : PersistentMap V} (h : m.Valid sha256) (key : Digest) (value : V)
    (k : Digest) : (m.insert sha256 key value).1.get k =
      if k = key then some ((m.get key).getD value) else m.get k := by
  rw [(insert_eq h key value).2]
  cases hget : m.get key with
  | none => exact get_set h key value k
  | some v =>
    simp only [Option.isNone_some, Bool.false_eq_true, if_false, Option.getD_some]
    split_ifs with hk
    · rw [hk, hget]
    · rfl

theorem lastSetOrFirstInserted_concat (history : List (Operation V)) (op : Operation V)
    (key : Digest) : lastSetOrFirstInserted (history ++ [op]) key =
      if key = op.key then
        match op with
        | .set _ value => some value
        | .insert _ value => some ((lastSetOrFirstInserted history key).getD value)
      else lastSetOrFirstInserted history key := by
  unfold lastSetOrFirstInserted
  rw [List.filterMap_append, List.filterMap_append]
  cases op with
  | set k value =>
    by_cases hk : k = key
    · simp [Operation.setAt, Operation.insertedAt, Operation.key, hk]
    · simp [Operation.setAt, Operation.insertedAt, Operation.key, hk, Ne.symm hk]
  | insert k value =>
    by_cases hk : k = key
    · simp only [Operation.setAt, Operation.insertedAt, Operation.key, hk, List.filterMap_cons,
        List.filterMap_nil, if_true, List.append_nil]
      cases (history.filterMap (Operation.setAt key)).getLast? with
      | some v => simp
      | none =>
        cases history.filterMap (Operation.insertedAt key) with
        | nil => simp
        | cons v vs => simp
    · simp [Operation.setAt, Operation.insertedAt, Operation.key, hk, Ne.symm hk]

/-- A handle answers with its own history. -/
structure Handle.Faithful (sha256 : List UInt8 → Digest) (h : Handle V) : Prop where
  valid : h.map.Valid sha256
  get_eq : ∀ key, h.map.get key = lastSetOrFirstInserted h.history key

theorem Handle.Faithful.write {h : Handle V} (hh : h.Faithful sha256) (op : Operation V) :
    (h.write sha256 op).Faithful sha256 := by
  refine ⟨(valid_apply hh.valid op).1, ?_⟩
  intro key
  change (op.apply sha256 h.map).get key = lastSetOrFirstInserted (h.history ++ [op]) key
  rw [lastSetOrFirstInserted_concat, ← hh.get_eq]
  cases op with
  | set k value => exact get_set hh.valid k value key
  | insert k value =>
    rw [Operation.apply, get_insert hh.valid]
    by_cases hk : key = k
    · rw [hk]
      rfl
    · rw [if_neg hk]
      exact (if_neg hk).symm

theorem faithful_apply {handles : List (Handle V)} (h : ∀ x ∈ handles, x.Faithful sha256)
    (call : Call V) : ∀ x ∈ call.apply sha256 handles, x.Faithful sha256 := by
  intro x hx
  cases call with
  | new =>
    rcases List.mem_append.mp hx with hx | hx
    · exact h x hx
    · rw [List.mem_singleton] at hx
      subst hx
      exact ⟨valid_empty, fun key => rfl⟩
  | clone i =>
    rcases List.mem_append.mp hx with hx | hx
    · exact h x hx
    · rw [Option.mem_toList] at hx
      exact h x (List.mem_of_getElem? hx)
  | write i op =>
    obtain ⟨j, hj⟩ := List.mem_iff_getElem?.mp hx
    rw [Call.apply, List.getElem?_modify] at hj
    obtain ⟨y, hy, rfl⟩ := Option.map_eq_some_iff.mp hj
    have hfaithful := h y (List.mem_of_getElem? hy)
    split_ifs
    · exact hfaithful.write op
    · exact hfaithful

theorem faithful_handlesAfter (calls : List (Call V)) :
    ∀ x ∈ handlesAfter sha256 calls, x.Faithful sha256 := by
  induction calls using List.reverseRecOn with
  | nil => simp [handlesAfter]
  | append_singleton calls call ih =>
    rw [handlesAfter, List.foldl_concat]
    exact faithful_apply ih call

theorem entries_eq {m : PersistentMap V} :
    m.entries = (m.root.map fun root => root.tree.entries).getD [] := by
  rw [entries, Node.entriesFrom_eq]
  cases m.root with
  | none => rfl
  | some root => simp

theorem mem_entries {m : PersistentMap V} (h : m.Valid sha256) {key : Digest} {value : V} :
    (key, value) ∈ m.entries ↔ m.get key = some value := by
  rw [entries_eq, get_eq_find]
  cases hroot : m.root with
  | none => simp
  | some root => exact (PatriciaTree.find_eq_some (h root hroot).2).symm

theorem pairwise_entries {m : PersistentMap V} (h : m.Valid sha256) :
    (m.entries.map fun e => digestBytes e.1).Pairwise (· < ·) := by
  rw [entries_eq]
  cases hroot : m.root with
  | none => exact List.Pairwise.nil
  | some root =>
    have hkeys := PatriciaTree.pairwise_keys (h root hroot).2
    rw [PatriciaTree.keys, List.pairwise_map] at hkeys
    rw [List.pairwise_map]
    refine hkeys.imp ?_
    intro a b hab
    exact digestBytes_lt hab

end

end PersistentMap

open PersistentMap in
/-- Persistent maps are finite maps: whatever handles were cloned and written before, a handle
answers with its own history, lists its keys in ascending order and keeps its branches in order. -/
theorem persistentMap_finite_map {V : Type} (sha256 : List UInt8 → Digest)
    (calls : List (PersistentMap.Call V)) (i : ℕ) (h : Handle V)
    (hi : (handlesAfter sha256 calls)[i]? = some h) :
    (∀ key, h.map.get key = lastSetOrFirstInserted h.history key) ∧
      (∀ key value, ((h.map.insert sha256 key value).2 = true ↔ h.map.get key = none) ∧
        ((h.map.insert sha256 key value).2 = false → (h.map.insert sha256 key value).1 = h.map)) ∧
      (h.map.entries.map fun e => digestBytes e.1).Pairwise (· < ·) ∧
      (∀ key value, (key, value) ∈ h.map.entries ↔ h.map.get key = some value) ∧
      ∀ root ∈ h.map.root, root.Prefixed := by
  have hh := faithful_handlesAfter calls h (List.mem_of_getElem? hi)
  refine ⟨hh.get_eq, ?_, pairwise_entries hh.valid, fun key value => mem_entries hh.valid, ?_⟩
  · intro key value
    obtain ⟨hinserted, hmap⟩ := insert_eq hh.valid key value
    rw [hinserted, hmap]
    constructor
    · exact Option.isNone_iff_eq_none
    · intro hpresent
      rw [hpresent]
      rfl
  · intro root hroot
    exact Node.prefixed_of_wellFormed (hh.valid root hroot).2

open PersistentMap in
/-- A clone keeps the value that is replaced in the other handle. -/
theorem persistentMap_finite_map_clone : ∃ h : Handle ℕ,
    (handlesAfter (fun _ => 0) [.new, .write 0 (.insert 5 10), .clone 0, .write 0 (.set 5 11),
      .write 0 (.insert 5 12), .write 1 (.insert 7 1)])[1]? = some h ∧
      h.map.get 5 = some 10 ∧ (5, 10) ∈ h.map.entries := by
  refine ⟨_, rfl, ?_⟩
  obtain ⟨hget, -, -, hentries, -⟩ := persistentMap_finite_map (fun _ => 0)
    [.new, .write 0 (.insert 5 10), .clone 0, .write 0 (.set 5 11), .write 0 (.insert 5 12),
      .write 1 (.insert 7 1)] 1 _ rfl
  have hvalue := (hget 5).trans rfl
  exact ⟨hvalue, (hentries 5 10).mpr hvalue⟩

end Naome
