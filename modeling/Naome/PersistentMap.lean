import Naome.SetFingerprint

/-!
# Persistent maps

The in-memory Patricia map. Nodes keep their key-only fingerprint; an insertion rebuilds the
path to the new leaf and shares everything else.
-/
namespace Naome
open Fingerprint

namespace PersistentMap

inductive Node (V : Type)
  | leaf (key : Digest) (value : V) (fingerprint : Digest)
  | branch (bit : ℕ) (left right : Node V) (fingerprint : Digest)

end PersistentMap

/-- A handle: one optional root. -/
structure PersistentMap (V : Type) where
  root : Option (PersistentMap.Node V) := none

namespace PersistentMap

variable {V : Type}

namespace Node

def fingerprint : Node V → Digest
  | .leaf _ _ f => f
  | .branch _ _ _ f => f

section

variable (sha256 : List UInt8 → Digest)

def newLeaf (key : Digest) (value : V) : Node V := .leaf key value (Fingerprint.leaf sha256 key)

def newBranch (bit : ℕ) (left right : Node V) : Node V :=
  .branch bit left right (Fingerprint.branch sha256 bit left.fingerprint right.fingerprint)

def terminalKey (key : Digest) : Node V → Digest
  | .leaf k _ _ => k
  | .branch bit left right _ =>
    if keyBit key bit then right.terminalKey key else left.terminalKey key

def get (key : Digest) : Node V → Option V
  | .leaf k value _ => if k = key then some value else none
  | .branch bit left right _ => if keyBit key bit then right.get key else left.get key

def replaceAt (key : Digest) (value : V) : Node V → Node V
  | .leaf _ _ _ => newLeaf sha256 key value
  | .branch bit left right _ =>
    if keyBit key bit then newBranch sha256 bit left (right.replaceAt key value)
    else newBranch sha256 bit (left.replaceAt key value) right

/-- The new branch over a node and a new leaf. -/
def splitAt (differingBit : ℕ) (key : Digest) (value : V) (node : Node V) : Node V :=
  let leaf := newLeaf sha256 key value
  if keyBit key differingBit then newBranch sha256 differingBit node leaf
  else newBranch sha256 differingBit leaf node

def insertAt (differingBit : ℕ) (key : Digest) (value : V) : Node V → Node V
  | .leaf k v f => splitAt sha256 differingBit key value (.leaf k v f)
  | .branch bit left right f =>
    if bit < differingBit then
      if keyBit key bit then
        newBranch sha256 bit left (right.insertAt differingBit key value)
      else newBranch sha256 bit (left.insertAt differingBit key value) right
    else splitAt sha256 differingBit key value (.branch bit left right f)

def size : Node V → ℕ
  | .leaf _ _ _ => 1
  | .branch _ left right _ => left.size + right.size + 1

end
end Node

section

variable (sha256 : List UInt8 → Digest)

def fingerprint (m : PersistentMap V) : Digest := (m.root.map Node.fingerprint).getD 0

def get (m : PersistentMap V) (key : Digest) : Option V := m.root.bind (Node.get key)

def containsKey (m : PersistentMap V) (key : Digest) : Bool := (m.get key).isSome

/-- The traversal of `entries`: the stack of nodes still to visit. -/
def entriesFrom : List (Node V) → List (Digest × V)
  | [] => []
  | .leaf key value _ :: pending => (key, value) :: entriesFrom pending
  | .branch _ left right _ :: pending => entriesFrom (left :: right :: pending)
termination_by pending => (pending.map Node.size).sum
decreasing_by
  · simp only [List.map_cons, List.sum_cons, Node.size]
    omega
  · simp only [List.map_cons, List.sum_cons, Node.size]
    omega

def entries (m : PersistentMap V) : List (Digest × V) := entriesFrom m.root.toList

/-- Inserts an absent key; an existing key leaves the root unchanged. -/
def insert (m : PersistentMap V) (key : Digest) (value : V) : PersistentMap V × Bool :=
  match m.root with
  | none => (⟨some (Node.newLeaf sha256 key value)⟩, true)
  | some root =>
    let terminalKey := root.terminalKey key
    if terminalKey = key then (m, false)
    else
      let differingBit := firstDifferingBit terminalKey key
      (⟨some (root.insertAt sha256 differingBit key value)⟩, true)

def set (m : PersistentMap V) (key : Digest) (value : V) : PersistentMap V :=
  if m.containsKey key then ⟨m.root.map (Node.replaceAt sha256 key value)⟩
  else (m.insert sha256 key value).1

end

/-- The Patricia tree of a node. -/
def Node.tree : Node V → PatriciaTree Digest V
  | .leaf key value _ => .leaf key value
  | .branch bit left right _ => .branch bit left.tree right.tree

section

variable (sha256 : List UInt8 → Digest)

/-- Every cached fingerprint is the hash of its subtree. -/
def Node.Cached : Node V → Prop
  | .leaf key _ f => f = Fingerprint.leaf sha256 key
  | .branch bit left right f => left.Cached ∧ right.Cached ∧
      f = Fingerprint.branch sha256 bit left.fingerprint right.fingerprint

namespace Node

variable {sha256}

theorem fingerprint_eq_hash {n : Node V} (h : n.Cached sha256) :
    n.fingerprint = n.tree.hash (Fingerprint.leaf sha256) (Fingerprint.branch sha256) := by
  induction n with
  | leaf key value f => exact h
  | branch bit left right f ihl ihr =>
    obtain ⟨hl, hr, hf⟩ := h
    rw [fingerprint, hf, ihl hl, ihr hr]
    rfl

theorem terminalKey_eq (n : Node V) (key : Digest) :
    n.terminalKey key = (n.tree.terminal key).1 := by
  induction n with
  | leaf k v f => rfl
  | branch bit left right f ihl ihr =>
    simp only [terminalKey, tree, PatriciaTree.terminal, ihl, ihr, BitKey.bit]
    split
    · rfl
    · rfl

theorem get_eq (n : Node V) (key : Digest) : n.get key = n.tree.find key := by
  induction n with
  | leaf k v f => rfl
  | branch bit left right f ihl ihr =>
    simp only [get, tree, PatriciaTree.find, PatriciaTree.terminal, ihl, ihr, BitKey.bit]
    split
    · rfl
    · rfl

theorem entriesFrom_eq (pending : List (Node V)) :
    entriesFrom pending = pending.flatMap fun n => n.tree.entries := by
  fun_induction entriesFrom pending with
  | case1 => rfl
  | case2 pending key value f ih =>
    rw [ih, List.flatMap_cons]
    rfl
  | case3 pending bit left right f ih =>
    rw [ih, List.flatMap_cons, List.flatMap_cons, List.flatMap_cons, tree, PatriciaTree.entries,
      List.append_assoc]

theorem tree_replaceAt (n : Node V) (key : Digest) (value : V) :
    (n.replaceAt sha256 key value).tree = n.tree.replaceAt key value := by
  induction n with
  | leaf k v f => rfl
  | branch bit left right f ihl ihr =>
    simp only [replaceAt, tree, PatriciaTree.replaceAt, ← ihl, ← ihr, BitKey.bit]
    split
    · rfl
    · rfl

theorem cached_replaceAt {n : Node V} (h : n.Cached sha256) (key : Digest) (value : V) :
    (n.replaceAt sha256 key value).Cached sha256 := by
  induction n with
  | leaf k v f => rfl
  | branch bit left right f ihl ihr =>
    obtain ⟨hl, hr, _⟩ := h
    simp only [replaceAt]
    split
    · exact ⟨hl, ihr hr, rfl⟩
    · exact ⟨ihl hl, hr, rfl⟩

theorem tree_splitAt (n : Node V) (d : ℕ) (key : Digest) (value : V) :
    (n.splitAt sha256 d key value).tree = n.tree.split d key value := by
  simp only [splitAt, PatriciaTree.split, BitKey.bit]
  split
  · rfl
  · rfl

theorem cached_splitAt {n : Node V} (h : n.Cached sha256) (d : ℕ) (key : Digest) (value : V) :
    (n.splitAt sha256 d key value).Cached sha256 := by
  simp only [splitAt]
  split
  · exact ⟨h, rfl, rfl⟩
  · exact ⟨rfl, h, rfl⟩

theorem tree_insertAt (n : Node V) (d : ℕ) (key : Digest) (value : V) :
    (n.insertAt sha256 d key value).tree = n.tree.insertAt d key value := by
  induction n with
  | leaf k v f => exact tree_splitAt _ _ _ _
  | branch bit left right f ihl ihr =>
    simp only [insertAt, tree, PatriciaTree.insertAt, ← ihl, ← ihr, BitKey.bit]
    split
    · split
      · rfl
      · rfl
    · exact tree_splitAt _ _ _ _

theorem cached_insertAt {n : Node V} (h : n.Cached sha256) (d : ℕ) (key : Digest) (value : V) :
    (n.insertAt sha256 d key value).Cached sha256 := by
  induction n with
  | leaf k v f => exact cached_splitAt h d key value
  | branch bit left right f ihl ihr =>
    simp only [insertAt]
    split
    · split
      · exact ⟨h.1, ihr h.2.1, rfl⟩
      · exact ⟨ihl h.1, h.2.1, rfl⟩
    · exact cached_splitAt h d key value

end Node

/-- The maps that can be built: a well-formed tree with exact fingerprints. -/
def Valid (m : PersistentMap V) : Prop :=
  ∀ root, m.root = some root → root.Cached sha256 ∧ root.tree.WellFormed

variable {sha256} {m : PersistentMap V}

theorem get_eq_find (key : Digest) :
    m.get key = m.root.bind fun root => root.tree.find key := by
  unfold get
  cases m.root with
  | none => rfl
  | some root => exact Node.get_eq root key

/-- A written root is the root of the written tree. -/
theorem set_root {root : Node V} (hroot : m.root = some root) (h : m.Valid sha256) (key : Digest)
    (value : V) : ∃ root', m.set sha256 key value = ⟨some root'⟩ ∧ root'.Cached sha256 ∧
      root'.tree = root.tree.write key value := by
  obtain ⟨hcached, hwf⟩ := h root hroot
  have hget : m.get key = root.tree.find key := by rw [get_eq_find, hroot]; rfl
  unfold set containsKey
  rw [hget]
  by_cases hkey : (root.tree.terminal key).1 = key
  · rw [PatriciaTree.find, if_pos hkey]
    refine ⟨root.replaceAt sha256 key value, ?_, Node.cached_replaceAt hcached key value, ?_⟩
    · rw [hroot]
      rfl
    · rw [Node.tree_replaceAt, PatriciaTree.write, if_pos hkey]
  · rw [PatriciaTree.find, if_neg hkey]
    simp only [Option.isSome_none, Bool.false_eq_true, if_false, insert, hroot,
      Node.terminalKey_eq, if_neg hkey]
    exact ⟨_, rfl, Node.cached_insertAt hcached _ key value, by
      rw [Node.tree_insertAt, PatriciaTree.write, if_neg hkey]
      rfl⟩

theorem insert_root {root : Node V} (hroot : m.root = some root) (h : m.Valid sha256) (key : Digest)
    (value : V) : (m.insert sha256 key value).2 = (m.get key).isNone ∧
      ∃ root', (m.insert sha256 key value).1 = ⟨some root'⟩ ∧ root'.Cached sha256 ∧
      root'.tree = if (m.get key).isSome then root.tree else root.tree.write key value := by
  obtain ⟨hcached, hwf⟩ := h root hroot
  have hget : m.get key = root.tree.find key := by rw [get_eq_find, hroot]; rfl
  rw [hget]
  by_cases hkey : (root.tree.terminal key).1 = key
  · rw [PatriciaTree.find, if_pos hkey]
    simp only [insert, hroot, Node.terminalKey_eq, if_pos hkey]
    refine ⟨rfl, root, ?_, hcached, by simp⟩
    cases m
    cases hroot
    rfl
  · rw [PatriciaTree.find, if_neg hkey]
    simp only [insert, hroot, Node.terminalKey_eq, if_neg hkey]
    refine ⟨rfl, _, rfl, Node.cached_insertAt hcached _ key value, ?_⟩
    rw [Node.tree_insertAt, PatriciaTree.write, if_neg hkey]
    rfl

end
end PersistentMap
end Naome
