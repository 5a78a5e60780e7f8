import Naome.ContextStorage
import Naome.PersistentMap

/-!
# Authenticated maps on disk

Immutable Patricia nodes in untrusted storage. A node is read by its content address and is
refused unless its bytes, fingerprint, key range and position in the tree are the expected ones.
-/
namespace Naome
open Outcome ByteCursor Fingerprint

namespace DiskMap

def maxNodeBytes : ℕ := 4096

def maxValueBytes : ℕ := 2048

def version : UInt8 := 1

def leafTag : UInt8 := 0

def branchTag : UInt8 := 1

def childBytes : ℕ := 128

structure Root where
  address : Digest
  fingerprint : Digest
  deriving DecidableEq, Repr

structure KeyRange where
  minimum : Digest
  maximum : Digest
  deriving DecidableEq

structure Child where
  root : Root
  range : KeyRange
  deriving DecidableEq

/-- A node to load: what its parent says about it. -/
structure Pending where
  root : Root
  range : Option KeyRange
  previousBit : Option ℕ
  depth : ℕ
  deriving DecidableEq

namespace Pending

def ofRoot (root : Root) : Pending := ⟨root, none, none, 0⟩

def child (p : Pending) (child : Child) (bit : ℕ) : Except ContextError Pending :=
  let depth := p.depth + 1
  if 256 < depth then .error .corrupt else .ok ⟨child.root, some child.range, some bit, depth⟩

end Pending

structure Frame where
  source : Child
  bit : ℕ
  left : Child
  right : Child
  rightSide : Bool

inductive Node
  | leaf (key : Digest) (value : List UInt8)
  | branch (bit : ℕ) (left right : Child)
  deriving DecidableEq

/-- The first bit in which two keys differ, if there is one. -/
def differingBit (left right : Digest) : Option ℕ :=
  if left = right then none else some (firstDifferingBit left right)

def samePrefix (left right : Digest) (bit : ℕ) : Bool :=
  (differingBit left right).all fun differing => decide (bit ≤ differing)

def encodeChild (child : Child) : List UInt8 :=
  digestBytes child.root.address ++ digestBytes child.root.fingerprint ++
    digestBytes child.range.minimum ++ digestBytes child.range.maximum

def fixedKey (bytes : List UInt8) : Except ContextError Digest :=
  if bytes.length = 32 then .ok (BitVec.ofNat 256 (ofBigEndian bytes)) else .error .corrupt

def decodeChild (bytes : List UInt8) : Except ContextError Child := do
  require (bytes.length = childBytes) .corrupt
  let address ← fixedKey (bytes.take 32)
  let fingerprint ← fixedKey ((bytes.drop 32).take 32)
  let minimum ← fixedKey ((bytes.drop 64).take 32)
  let maximum ← fixedKey (bytes.drop 96)
  return ⟨⟨address, fingerprint⟩, ⟨minimum, maximum⟩⟩

namespace Node

def range : Node → KeyRange
  | .leaf key _ => ⟨key, key⟩
  | .branch _ left right => ⟨left.range.minimum, right.range.maximum⟩

def fingerprint (sha256 : List UInt8 → Digest) : Node → Digest
  | .leaf key _ => Fingerprint.leaf sha256 key
  | .branch bit left right =>
    Fingerprint.branch sha256 bit left.root.fingerprint right.root.fingerprint

/-- The checks of a branch, in the order of the source. -/
def branchValid (bit : ℕ) (left right : Child) : Bool :=
  !(decide (left.range.maximum < left.range.minimum) ||
    decide (right.range.maximum < right.range.minimum) ||
    decide (right.range.minimum ≤ left.range.maximum) ||
    decide (left.root.address = right.root.address) ||
    decide (differingBit left.range.minimum right.range.maximum ≠ some bit) ||
    !samePrefix left.range.minimum left.range.maximum bit ||
    !samePrefix left.range.minimum right.range.minimum bit ||
    !samePrefix right.range.minimum right.range.maximum bit ||
    keyBit left.range.minimum bit ||
    keyBit left.range.maximum bit ||
    !keyBit right.range.minimum bit ||
    !keyBit right.range.maximum bit)

def validate : Node → Except ContextError Unit
  | .leaf _ value => require (value.length ≤ maxValueBytes) .corrupt
  | .branch bit left right => require (branchValid bit left right = true) .corrupt

def encode : Node → List UInt8
  | .leaf key value =>
    version :: leafTag :: (digestBytes key ++ bigEndian 2 value.length ++ value)
  | .branch bit left right =>
    version :: branchTag :: UInt8.ofNat bit :: (encodeChild left ++ encodeChild right)

/-- The node that the bytes after the version stand for, before its validation. -/
def parse (bytes : List UInt8) : Except ContextError Node :=
  match bytes[1]? with
  | some tag =>
    if tag = leafTag ∧ 36 ≤ bytes.length then do
      let length := ofBigEndian ((bytes.drop 34).take 2)
      require (length ≤ maxValueBytes ∧ bytes.length = 36 + length) .corrupt
      let key ← fixedKey ((bytes.drop 2).take 32)
      return .leaf key (bytes.drop 36)
    else if tag = branchTag ∧ bytes.length = 3 + 2 * childBytes then do
      let left ← decodeChild ((bytes.drop 3).take childBytes)
      let right ← decodeChild (bytes.drop (3 + childBytes))
      return .branch ((bytes[2]?.map UInt8.toNat).getD 0) left right
    else .error .corrupt
  | none => .error .corrupt

def decode (bytes : List UInt8) : Except ContextError Node := do
  require (bytes[0]? = some version) .corrupt
  let node ← parse bytes
  node.validate
  return node

end Node

section

variable (sha256 : List UInt8 → Digest)

def storageAddress (bytes : List UInt8) : Digest :=
  sha256 (asciiBytes "naome:checked-map:storage:v1" ++ [0] ++ bytes)

/-- What a loaded node must look like at its place in the tree. -/
def checkNode (pending : Pending) (node : Node) : Except ContextError Unit := do
  require (node.fingerprint sha256 = pending.root.fingerprint ∧
    pending.range.all (fun range => decide (range = node.range)) = true) .corrupt
  match node with
  | .leaf _ _ => return
  | .branch bit _ _ =>
    require (pending.depth ≠ 256 ∧
      pending.previousBit.all (fun previous => decide (previous < bit)) = true) .corrupt

def loadNodeSized (pending : Pending) : StorageM (Node × ℕ) := do
  StorageM.lift (require (pending.depth ≤ 256) .corrupt)
  let bytes ← StorageM.readRecord pending.root.address maxNodeBytes
  StorageM.lift (require (bytes.length ≤ maxNodeBytes) .limit)
  StorageM.lift (require (storageAddress sha256 bytes = pending.root.address) .corrupt)
  let node ← StorageM.lift (Node.decode bytes)
  StorageM.lift (checkNode sha256 pending node)
  return (node, bytes.length)

def loadNodeInner (pending : Pending) : StorageM Node := do
  let (node, _) ← loadNodeSized sha256 pending
  return node

def loadNode (pending : Pending) : StorageM Node := (loadNodeInner sha256 pending).recording

/-- The reference to a node that is stored. -/
def childOf (node : Node) : Child :=
  ⟨⟨storageAddress sha256 node.encode, node.fingerprint sha256⟩, node.range⟩

def saveNode (node : Node) : StorageM Child := do
  StorageM.lift node.validate
  StorageM.lift (require (node.encode.length ≤ maxNodeBytes) .limit)
  StorageM.writeRecord (storageAddress sha256 node.encode) node.encode
  return childOf sha256 node

end
end DiskMap

/-- A handle of an authenticated map: one optional root. -/
structure DiskMap where
  root : Option DiskMap.Root := none
  deriving DecidableEq

namespace DiskMap

section

variable (sha256 : List UInt8 → Digest)

def fingerprint (m : DiskMap) : Digest := (m.root.map Root.fingerprint).getD 0

/-- The path to the leaf of a key. A branch at depth 256 is refused, so 257 loads suffice. -/
def descend (key : Digest) : ℕ → Pending → StorageM (List Frame × Child × Digest × List UInt8)
  | 0, _ => StorageM.lift (.error .corrupt)
  | loads + 1, pending => do
    let node ← loadNode sha256 pending
    let source : Child := ⟨pending.root, node.range⟩
    match node with
    | .leaf key value => return ([], source, key, value)
    | .branch bit left right =>
      let rightSide := keyBit key bit
      let next ← StorageM.lift (pending.child (if rightSide then right else left) bit)
      let (path, terminal, oldKey, oldValue) ← descend key loads next
      return (⟨source, bit, left, right, rightSide⟩ :: path, terminal, oldKey, oldValue)

/-- Rebuilds the listed frames, from the last one up. -/
def rebuild : List Frame → Child → StorageM Child
  | [], changed => pure changed
  | frame :: path, changed => do
    let changed ← rebuild path changed
    let (left, right) := if frame.rightSide then (frame.left, changed) else (changed, frame.right)
    saveNode sha256 (.branch frame.bit left right)

/-- The new branch above the changed leaf and how much of the path stays above it. -/
def attach (key oldKey : Digest) (path : List Frame) (terminal changed : Child) :
    StorageM (Child × ℕ) := do
  let bit ← StorageM.lift (orError .corrupt (differingBit oldKey key))
  let index := path.findIdx fun frame => decide (bit ≤ frame.bit)
  let existing := (path[index]?.map Frame.source).getD terminal
  let (left, right) := if keyBit key bit then (existing, changed) else (changed, existing)
  let changed ← saveNode sha256 (.branch bit left right)
  return (changed, index)

/-- The new root, if it changes, and whether a key was added. -/
def writeRoot (root : Option Root) (key : Digest) (value : List UInt8) (replace : Bool) :
    StorageM (Option Root × Bool) := do
  StorageM.lift (require (value.length ≤ maxValueBytes) .limit)
  match root with
  | none => do
    let leaf ← saveNode sha256 (.leaf key value)
    return (some leaf.root, true)
  | some root => do
    let (path, terminal, oldKey, oldValue) ← descend sha256 key 257 (.ofRoot root)
    if oldKey = key ∧ (replace = false ∨ oldValue = value) then return (some root, false)
    else
      let changed ← saveNode sha256 (.leaf key value)
      let (changed, prefixLength) ←
        if oldKey = key then pure (changed, path.length)
        else attach sha256 key oldKey path terminal changed
      let changed ← rebuild sha256 (path.take prefixLength) changed
      return (some changed.root, decide (oldKey ≠ key))

/-- Runs a write on a handle; the root is replaced only when every part has succeeded. -/
def writeValue (m : DiskMap) (key : Digest) (value : List UInt8) (replace : Bool) :
    StorageM (Except ContextError Bool × DiskMap) := do
  match ← (writeRoot sha256 m.root key value replace).attempt with
  | .ok (root, added) => return (.ok added, ⟨root⟩)
  | .error e => return (.error e, m)

def insert (m : DiskMap) (key : Digest) (value : List UInt8) :
    StorageM (Except ContextError Bool × DiskMap) := writeValue sha256 m key value false

def set (m : DiskMap) (key : Digest) (value : List UInt8) :
    StorageM (Except ContextError Unit × DiskMap) := do
  let (result, m) ← writeValue sha256 m key value true
  return (result.map fun _ => (), m)

end

/-- A point lookup with one node read per step. -/
structure Lookup where
  pending : Option Pending
  key : Digest
  value : Option (List UInt8) := none
  failed : Bool := false

/-- A cursor that reads one node per step. -/
structure Walk where
  pending : List Pending
  previousKey : Option Digest := none
  failed : Bool := false

structure Visit where
  address : Digest
  bytes : List UInt8
  entry : Option (Digest × List UInt8)
  deriving DecidableEq

/-- The iterator over the entries above a key. -/
structure Entries where
  pending : List Pending
  previousKey : Option Digest
  after : Option Digest

section

variable (sha256 : List UInt8 → Digest)

def lookup (m : DiskMap) (key : Digest) : Lookup := ⟨m.root.map .ofRoot, key, none, false⟩

def walk (m : DiskMap) : Walk := ⟨(m.root.map .ofRoot).toList, none, false⟩

def entriesAfter (m : DiskMap) (after : Option Digest) : Entries :=
  ⟨(m.root.map .ofRoot).toList, after, after⟩

namespace Lookup

def complete (l : Lookup) : Bool := !l.failed && l.pending.isNone

def intoValue (l : Lookup) : Except ContextError (Option (List UInt8)) :=
  if l.complete then .ok l.value else .error .corrupt

/-- Reads one node; returns the bytes read and the advanced cursor. -/
def stepFrom (l : Lookup) (pending : Pending) : StorageM (ℕ × Lookup) := do
  let (node, bytes) ← loadNodeSized sha256 pending
  match node with
  | .leaf key value =>
    return (bytes, { l with pending := none, value := if key = l.key then some value else none })
  | .branch bit left right =>
    let child := if keyBit l.key bit then right else left
    let next ← StorageM.lift (pending.child child bit)
    return (bytes, { l with pending := some next })

/-- A failed step leaves a cursor that fails from then on. -/
def step (l : Lookup) : StorageM (Except ContextError (Option ℕ) × Lookup) :=
  if l.failed then return (.error .corrupt, l)
  else match l.pending with
    | none => return (.ok none, l)
    | some pending => do
      match ← (l.stepFrom sha256 pending).recording.attempt with
      | .ok (bytes, next) => return (.ok (some bytes), next)
      | .error e => return (.error e, { l with pending := none, failed := true })

/-- Steps until the cursor stops. -/
def finish : ℕ → Lookup → StorageM Lookup
  | 0, l => pure l
  | steps + 1, l => do
    let (result, l) ← l.step sha256
    match ← StorageM.lift result with
    | some _ => finish steps l
    | none => return l

end Lookup

/-- A lookup reads at most 257 nodes, and stops at the next step. -/
def get (m : DiskMap) (key : Digest) : StorageM (Option (List UInt8)) := do
  let l ← Lookup.finish sha256 258 (m.lookup key)
  StorageM.lift l.intoValue

def containsKey (m : DiskMap) (key : Digest) : StorageM Bool := do
  let value ← get sha256 m key
  return value.isSome

namespace Walk

def complete (w : Walk) : Bool := !w.failed && w.pending.isEmpty

def stepFrom (w : Walk) (pending : Pending) (rest : List Pending) : StorageM (Visit × Walk) := do
  let node ← loadNodeInner sha256 pending
  match node with
  | .leaf key value =>
    StorageM.lift (require (w.previousKey.all (fun previous => decide (previous < key)) = true)
      .corrupt)
    return (⟨pending.root.address, node.encode, some (key, value)⟩,
      { w with pending := rest, previousKey := some key })
  | .branch bit left right =>
    let right ← StorageM.lift (pending.child right bit)
    let left ← StorageM.lift (pending.child left bit)
    return (⟨pending.root.address, node.encode, none⟩,
      { w with pending := left :: right :: rest })

/-- One node, or none when the stack is empty; the last pending node is the first of the list. -/
def step (w : Walk) : StorageM (Except ContextError (Option Visit) × Walk) :=
  if w.failed then return (.error .corrupt, w)
  else match w.pending with
    | [] => return (.ok none, w)
    | pending :: rest => do
      match ← (w.stepFrom sha256 pending rest).recording.attempt with
      | .ok (visit, next) => return (.ok (some visit), next)
      | .error e => return (.error e, { w with pending := [], failed := true })

end Walk

namespace Entries

/-- What the visit of one pending node yields. -/
def visit (it : Entries) (pending : Pending) (rest : List Pending) :
    StorageM (Option (Digest × List UInt8) × Entries) := do
  match ← loadNode sha256 pending with
  | .leaf key value =>
    if it.after.any (fun after => decide (key ≤ after)) then
      return (none, { it with pending := rest })
    else do
      StorageM.lift (require (it.previousKey.all (fun previous => decide (previous < key)) = true)
        .corrupt)
      return (some (key, value), { it with pending := rest, previousKey := some key })
  | .branch bit left right =>
    let right ← StorageM.lift (pending.child right bit)
    let left ← StorageM.lift (pending.child left bit)
    return (none, { it with pending := left :: right :: rest })

/-- A bound on the nodes below the pending ones: a branch at depth 256 is refused. -/
def remaining (it : Entries) : ℕ := (it.pending.map fun p => 2 ^ (257 - p.depth)).sum

def prunes (after : Option Digest) (pending : Pending) : Bool :=
  match after, pending.range with
  | some after, some range => decide (range.maximum ≤ after)
  | _, _ => false

/-- The loop of one call of the iterator, over at most the given number of nodes. -/
def nextWithin : ℕ → Entries → StorageM (Option (Except ContextError (Digest × List UInt8)) × Entries)
  | 0, it => pure (none, it)
  | nodes + 1, it =>
    match it.pending with
    | [] => pure (none, it)
    | pending :: rest =>
      if prunes it.after pending then nextWithin nodes { it with pending := rest }
      else do
        match ← (it.visit sha256 pending rest).attempt with
        | .ok (some entry, it) => return (some (.ok entry), it)
        | .ok (none, it) => nextWithin nodes it
        | .error e => StorageM.recordFailure e (pure (some (.error e), { it with pending := [] }))

def next (it : Entries) : StorageM (Option (Except ContextError (Digest × List UInt8)) × Entries) :=
  nextWithin sha256 (it.remaining + 1) it

/-- All items, in the order in which the iterator yields them. -/
def collect : ℕ → Entries → StorageM (List (Except ContextError (Digest × List UInt8)))
  | 0, _ => pure []
  | calls + 1, it => do
    match ← it.next sha256 with
    | (none, _) => return []
    | (some item, it) => do
      let items ← collect calls it
      return item :: items

end Entries
end
end DiskMap
end Naome
