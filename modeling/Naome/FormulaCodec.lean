import Naome.NodeCodecSpec

/-!
# Canonical encodings of complete formulas

A formula has one canonical byte string. Encoding succeeds exactly for formulas within
the node and depth limits, decoding exactly on the canonical bytes of such formulas.
-/
namespace Naome
open LocallyNameless Outcome ByteCursor FirstOccurrence

variable {D : Type}

namespace FormulaCodec

/-- Encodes a tree within a caller-supplied node limit and reports the nodes used. -/
def encodeTree (fmt : NodeFormat D) (encoding : FreeVariableEncoding) (maximumNodes : ℕ)
    (n : Node FreeVariable D) : Except FormulaCodecError (List UInt8 × ℕ) := do
  let s ← encodeNode fmt 0 n ⟨NodeBudget.new maximumNodes, encoding, []⟩
  return (s.output, s.nodes.used)

/-- Decodes one complete tree within a caller-supplied node limit. -/
def decodeTree (fmt : NodeFormat D) (maximumNodes : ℕ) (bytes : List UInt8) :
    Except FormulaCodecError (Node FreeVariable D × ℕ) := do
  require (bytes.length ≤ formulaMaxBytes) (.inputTooLong bytes.length formulaMaxBytes)
  let (n, nodes, rest) ← decodeNode fmt formulaMaxDepth 0 (NodeBudget.new maximumNodes) bytes
  require (rest = []) (.trailingBytes rest.length)
  return (n, nodes.used)

theorem spent_new {maximumNodes k : ℕ} :
    (∃ b, (NodeBudget.new maximumNodes).Spent b k) ↔ k ≤ min maximumNodes formulaMaxNodes := by
  constructor
  · rintro ⟨b, hm, hu⟩
    have := b.used_le
    simp only [NodeBudget.new] at hm hu
    omega
  · intro h
    exact ⟨⟨k, min maximumNodes formulaMaxNodes, h⟩, rfl, by simp [NodeBudget.new]⟩

theorem used_of_spent_new {maximumNodes k : ℕ} {b : NodeBudget}
    (h : (NodeBudget.new maximumNodes).Spent b k) : b.used = k := by
  rw [h.2]
  exact Nat.zero_add k

/-- A tree within the limits of a format. -/
structure Encodable (fmt : NodeFormat D) (maximumNodes : ℕ) (n : Node FreeVariable D) : Prop where
  depth_le : n.depth ≤ fmt.maximumDepth
  writes : fmt.Writes n
  fits : FitsBytes fmt (nodeBytes fmt n).length
  nodeCount_le : n.nodeCount ≤ min maximumNodes formulaMaxNodes

theorem encodeTree_eq_ok {fmt : NodeFormat D} {encoding : FreeVariableEncoding}
    {maximumNodes used : ℕ} {n : Node FreeVariable D} {bytes : List UInt8} :
    encodeTree fmt encoding maximumNodes n = .ok (bytes, used) ↔
      Encodable fmt maximumNodes n ∧ used = n.nodeCount ∧
        bytes = nodeBytes fmt (n.mapFreeState FreeVariableEncoding.identifier encoding).1 := by
  simp only [encodeTree, bind_eq_ok, encodeNode_eq_ok, pure_eq_ok, Prod.mk.injEq]
  constructor
  · rintro ⟨s, h, rfl, rfl⟩
    refine ⟨⟨by simpa using h.depth_le, h.writes, by simpa using h.fits,
      spent_new.1 ⟨_, h.spent⟩⟩, used_of_spent_new h.spent, by simpa using h.output⟩
  · rintro ⟨h, rfl, rfl⟩
    obtain ⟨b, hb⟩ := spent_new.2 h.nodeCount_le
    exact ⟨⟨b, _, _⟩, ⟨by simpa using h.depth_le, h.writes, by simpa using h.fits, hb, rfl,
      by simp⟩, rfl, used_of_spent_new hb⟩

theorem decodeTree_eq_ok {fmt : NodeFormat D} (hfmt : fmt.Lawful) {maximumNodes used : ℕ}
    {bytes : List UInt8} {n : Node FreeVariable D} :
    decodeTree fmt maximumNodes bytes = .ok (n, used) ↔
      n.depth ≤ formulaMaxDepth ∧ n.Scoped 0 ∧ fmt.Reads n ∧
        n.nodeCount ≤ min maximumNodes formulaMaxNodes ∧ used = n.nodeCount ∧
        bytes = nodeBytes fmt n ∧ bytes.length ≤ formulaMaxBytes := by
  have hdepth : 0 + formulaMaxDepth ≤ 2 ^ 32 := by decide
  simp only [decodeTree, bind_eq_ok, require_eq_ok, exists_const, pure_eq_ok, Prod.mk.injEq,
    Prod.exists, decodeNode_eq_ok hfmt hdepth]
  constructor
  · rintro ⟨hlen, n', b, rest, h, rfl, rfl, rfl⟩
    exact ⟨h.depth_le, h.inScope, h.reads, spent_new.1 ⟨_, h.spent⟩, used_of_spent_new h.spent,
      by simpa using h.bytes, hlen⟩
  · rintro ⟨hd, hs, hr, hc, rfl, rfl, hlen⟩
    obtain ⟨b, hb⟩ := spent_new.2 hc
    exact ⟨hlen, n, b, [], ⟨hd, hs, hr, hb, by simp⟩, rfl, rfl, used_of_spent_new hb⟩

/-- The names written by an encoder that renumbers free variables. -/
theorem mapFreeState_normalize (n : Node FreeVariable D) :
    (n.mapFreeState FreeVariableEncoding.identifier (.normalize .empty)).1 =
      n.mapFree (VariableNumbering.name (seeAll [] n.occurrences)) := by
  have hnum : Numbers FreeVariableEncoding.identifier VariableNumbering.name
      fun seen e => ∃ s, e = .normalize s ∧ VariableNumbering.Represents seen s := by
    refine ⟨?_, fun _ _ _ h hv => VariableNumbering.name_stable h hv⟩
    rintro seen _ v ⟨s, rfl, hs⟩
    obtain ⟨h₁, h₂⟩ := VariableNumbering.represents_visit v hs
    exact ⟨⟨_, rfl, h₁⟩, h₂⟩
  have h := hnum.mapFreeState n ⟨_, rfl, VariableNumbering.represents_empty⟩ List.prefix_rfl
  exact congrArg Prod.fst h.1

theorem mapFreeState_preserve (n : Node FreeVariable D) :
    (n.mapFreeState FreeVariableEncoding.identifier .preserve).1 = n := by
  have hnum : Numbers FreeVariableEncoding.identifier (fun _ v => v)
      fun _ e => e = .preserve := by
    refine ⟨?_, fun _ _ _ _ _ => rfl⟩
    rintro seen _ v rfl
    exact ⟨rfl, rfl⟩
  have hlater : seeAll [] n.occurrences <+: seeAll [] n.occurrences := List.prefix_rfl
  have h := hnum.mapFreeState n rfl hlater
  exact (congrArg Prod.fst h.1).trans n.mapFree_id

/-- A tree of `n` nodes without definitions has at most half of them as leaves. -/
theorem exists_leaves (fmt : NodeFormat D) {n : Node FreeVariable D} (h : n.symbols = []) :
    ∃ leaves, (nodeBytes fmt n).length = n.nodeCount + 10 * leaves ∧
      2 * leaves ≤ n.nodeCount + 1 := by
  induction n with
  | equal l r | member l r => exact ⟨1, by simp [nodeBytes, Node.nodeCount], by simp [Node.nodeCount]⟩
  | not n ih | forAll n ih =>
    obtain ⟨k, h₁, h₂⟩ := ih h
    refine ⟨k, ?_, ?_⟩ <;> simp only [nodeBytes, Node.nodeCount, List.length_cons] <;> omega
  | implies a b iha ihb =>
    simp only [Node.symbols, List.append_eq_nil_iff] at h
    obtain ⟨k, h₁, h₂⟩ := iha h.1
    obtain ⟨l, h₃, h₄⟩ := ihb h.2
    refine ⟨k + l, ?_, ?_⟩ <;>
      simp only [nodeBytes, Node.nodeCount, List.length_cons, List.length_append] <;> omega
  | definedRelation s xs => simp [Node.symbols] at h

/-- The byte limit follows from the node limit. -/
theorem length_nodeBytes_le (fmt : NodeFormat D) {n : Node FreeVariable D} (h : n.symbols = [])
    (hc : n.nodeCount ≤ formulaMaxNodes) : (nodeBytes fmt n).length ≤ formulaMaxBytes := by
  obtain ⟨k, h₁, h₂⟩ := exists_leaves fmt h
  unfold formulaMaxNodes at hc
  unfold formulaMaxBytes
  omega

end FormulaCodec

open FormulaCodec

/-- The format of the foundation crate. -/
def primitiveFormat : NodeFormat Empty where
  identifier := Empty.elim
  ofIdentifier := none
  allowDefinitions := false
  maximumDepth := formulaMaxDepth
  byteLimit := none

theorem primitiveFormat_lawful : primitiveFormat.Lawful := fun _ h => by cases h

theorem PrimitiveNode.symbols_eq_nil (n : PrimitiveNode) : n.symbols = [] := by
  cases h : n.symbols with
  | nil => rfl
  | cons s _ => exact s.elim

theorem PrimitiveNode.writes (n : PrimitiveNode) : primitiveFormat.Writes n := by
  induction n with
  | equal | member => trivial
  | not n ih | forAll n ih => exact ih
  | implies a b iha ihb => exact ⟨iha, ihb⟩
  | definedRelation s => exact s.elim

theorem PrimitiveNode.reads (n : PrimitiveNode) : primitiveFormat.Reads n := by
  induction n with
  | equal | member => trivial
  | not n ih | forAll n ih => exact ih
  | implies a b iha ihb => exact ⟨iha, ihb⟩
  | definedRelation s => exact s.elim

namespace Formula

def encodeCanonicalWithNodeLimit (f : Formula) (maximumNodes : ℕ) :
    Except FormulaCodecError (List UInt8 × ℕ) :=
  encodeTree primitiveFormat .preserve maximumNodes f.node

def encodeCanonical (f : Formula) : Except FormulaCodecError (List UInt8) :=
  (f.encodeCanonicalWithNodeLimit formulaMaxNodes).map Prod.fst

/-- Encodes with free variables renumbered by first occurrence. -/
def encodeFreeVariableNormalized (f : Formula) : Except FormulaCodecError (List UInt8) :=
  (encodeTree primitiveFormat (.normalize .empty) formulaMaxNodes f.node).map Prod.fst

def decodeCanonicalWithNodeLimit (bytes : List UInt8) (maximumNodes : ℕ) :
    Except FormulaCodecError (Formula × ℕ) :=
  match h : decodeTree primitiveFormat maximumNodes bytes with
  | .ok (n, used) => .ok (⟨n, ((decodeTree_eq_ok primitiveFormat_lawful).mp h).2.1⟩, used)
  | .error e => .error e

def decodeCanonical (bytes : List UInt8) : Except FormulaCodecError Formula :=
  (decodeCanonicalWithNodeLimit bytes formulaMaxNodes).map Prod.fst

/-- Node and depth limits of the codec. -/
def WithinLimits (f : Formula) : Prop :=
  f.node.nodeCount ≤ formulaMaxNodes ∧ f.node.depth ≤ formulaMaxDepth

def canonicalBytes (f : Formula) : List UInt8 := nodeBytes primitiveFormat f.node

theorem encodeCanonicalWithNodeLimit_eq_ok {f : Formula} {maximumNodes used : ℕ}
    {bytes : List UInt8} :
    f.encodeCanonicalWithNodeLimit maximumNodes = .ok (bytes, used) ↔
      f.WithinLimits ∧ f.node.nodeCount ≤ maximumNodes ∧ used = f.node.nodeCount ∧
        bytes = f.canonicalBytes := by
  rw [encodeCanonicalWithNodeLimit, encodeTree_eq_ok, mapFreeState_preserve]
  constructor
  · rintro ⟨h, hu, hb⟩
    have := h.nodeCount_le
    exact ⟨⟨by omega, h.depth_le⟩, by omega, hu, hb⟩
  · rintro ⟨⟨hc, hd⟩, hm, hu, hb⟩
    exact ⟨⟨hd, PrimitiveNode.writes _, fun _ h => (by cases h), by omega⟩, hu, hb⟩

theorem encodeCanonical_eq_ok {f : Formula} {bytes : List UInt8} :
    f.encodeCanonical = .ok bytes ↔ f.WithinLimits ∧ bytes = f.canonicalBytes := by
  rw [encodeCanonical, map_eq_ok, Prod.exists]
  simp only [encodeCanonicalWithNodeLimit_eq_ok]
  constructor
  · rintro ⟨_, _, ⟨hw, -, -, rfl⟩, rfl⟩
    exact ⟨hw, rfl⟩
  · rintro ⟨hw, rfl⟩
    exact ⟨_, _, ⟨hw, hw.1, rfl, rfl⟩, rfl⟩

theorem decodeCanonicalWithNodeLimit_eq_ok {bytes : List UInt8} {maximumNodes used : ℕ}
    {f : Formula} :
    decodeCanonicalWithNodeLimit bytes maximumNodes = .ok (f, used) ↔
      f.WithinLimits ∧ f.node.nodeCount ≤ maximumNodes ∧ used = f.node.nodeCount ∧
        bytes = f.canonicalBytes := by
  have hopen : decodeCanonicalWithNodeLimit bytes maximumNodes = .ok (f, used) ↔
      decodeTree primitiveFormat maximumNodes bytes = .ok (f.node, used) := by
    unfold decodeCanonicalWithNodeLimit
    split
    · next n used' h => simp only [h, Except.ok.injEq, Prod.mk.injEq, Formula.ext_iff]
    · next e h => simp only [h, reduceCtorEq]
  rw [hopen, decodeTree_eq_ok primitiveFormat_lawful]
  constructor
  · rintro ⟨hd, -, -, hc, hu, hb, -⟩
    exact ⟨⟨by omega, hd⟩, by omega, hu, hb⟩
  · rintro ⟨⟨hc, hd⟩, hm, hu, rfl⟩
    exact ⟨hd, f.wellScoped, PrimitiveNode.reads _, by omega, hu, rfl,
      length_nodeBytes_le _ (PrimitiveNode.symbols_eq_nil _) hc⟩

theorem decodeCanonical_eq_ok {bytes : List UInt8} {f : Formula} :
    decodeCanonical bytes = .ok f ↔ f.WithinLimits ∧ bytes = f.canonicalBytes := by
  rw [decodeCanonical, map_eq_ok, Prod.exists]
  simp only [decodeCanonicalWithNodeLimit_eq_ok]
  constructor
  · rintro ⟨_, _, ⟨hw, -, -, rfl⟩, rfl⟩
    exact ⟨hw, rfl⟩
  · rintro ⟨hw, rfl⟩
    exact ⟨_, _, ⟨hw, hw.1, rfl, rfl⟩, rfl⟩

theorem length_canonicalBytes_le {f : Formula} (h : f.WithinLimits) :
    f.canonicalBytes.length ≤ formulaMaxBytes :=
  length_nodeBytes_le _ (PrimitiveNode.symbols_eq_nil _) h.1

/-- The bytes of a formula determine it, also when further bytes follow. -/
theorem canonicalBytes_append_inj {f g : Formula} (hf : f.WithinLimits) (hg : g.WithinLimits)
    {rest rest' : List UInt8} (h : f.canonicalBytes ++ rest = g.canonicalBytes ++ rest') :
    f = g ∧ rest = rest' := by
  have hdepth : formulaMaxDepth ≤ 2 ^ 32 := by decide
  obtain ⟨hnode, hrest⟩ := nodeBytes_append_inj primitiveFormat_lawful f.wellScoped g.wellScoped
    (PrimitiveNode.reads _) (PrimitiveNode.reads _) (hf.2.trans hdepth) (hg.2.trans hdepth) h
  exact ⟨node_injective hnode, hrest⟩

/-- The codec accepts exactly the canonical encodings. Encoding succeeds on the formulas within the
node and depth limits, keeps the byte limit and is undone by decoding; what the decoder reads has no
dangling index and encodes to the bytes it was read from; and no accepted byte string extends
another. -/
theorem codec_exact :
    (∀ (f : Formula) (maximumNodes : ℕ),
      ((∃ encoded, f.encodeCanonicalWithNodeLimit maximumNodes = .ok encoded) ↔
        f.node.nodeCount ≤ min maximumNodes 65536 ∧ f.node.depth ≤ 256) ∧
      ∀ bytes used, f.encodeCanonicalWithNodeLimit maximumNodes = .ok (bytes, used) →
        bytes.length ≤ 393216 ∧ used = f.node.nodeCount ∧
          decodeCanonicalWithNodeLimit bytes maximumNodes = .ok (f, used)) ∧
    (∀ (bytes : List UInt8) (maximumNodes used : ℕ) (n : PrimitiveNode),
      decodeTree primitiveFormat maximumNodes bytes = .ok (n, used) → n.Scoped 0) ∧
    (∀ (bytes : List UInt8) (f : Formula),
      decodeCanonical bytes = .ok f → f.encodeCanonical = .ok bytes) ∧
    (∀ (f g : Formula) (bytes bytes' : List UInt8), f.encodeCanonical = .ok bytes →
      g.encodeCanonical = .ok bytes' → (bytes = bytes' ↔ f = g)) ∧
    ∀ (bytes rest : List UInt8) (f g : Formula), decodeCanonical bytes = .ok f →
      decodeCanonical (bytes ++ rest) = .ok g → rest = [] := by
  refine ⟨fun f maximumNodes => ⟨?_, ?_⟩, ?_, ?_, ?_, ?_⟩
  · rw [Prod.exists]
    simp only [encodeCanonicalWithNodeLimit_eq_ok]
    constructor
    · rintro ⟨_, _, hw, hm, -⟩
      exact ⟨le_min hm hw.1, hw.2⟩
    · rintro ⟨hc, hd⟩
      exact ⟨_, _, ⟨hc.trans (min_le_right _ _), hd⟩, hc.trans (min_le_left _ _), rfl, rfl⟩
  · intro bytes used h
    have hdecoded := decodeCanonicalWithNodeLimit_eq_ok.2
      (encodeCanonicalWithNodeLimit_eq_ok.1 h)
    obtain ⟨hw, -, hused, hbytes⟩ := encodeCanonicalWithNodeLimit_eq_ok.1 h
    refine ⟨?_, hused, hdecoded⟩
    rw [hbytes]
    exact length_canonicalBytes_le hw
  · intro bytes maximumNodes used n h
    exact ((decodeTree_eq_ok primitiveFormat_lawful).mp h).2.1
  · intro bytes f h
    exact encodeCanonical_eq_ok.2 (decodeCanonical_eq_ok.1 h)
  · intro f g bytes bytes' hf hg
    obtain ⟨hwf, hbytes⟩ := encodeCanonical_eq_ok.1 hf
    obtain ⟨hwg, hbytes'⟩ := encodeCanonical_eq_ok.1 hg
    rw [hbytes, hbytes']
    constructor
    · intro heq
      exact (canonicalBytes_append_inj hwf hwg (congrArg (· ++ []) heq)).1
    · intro heq
      rw [heq]
  · intro bytes rest f g hf hg
    obtain ⟨hwf, hbytes⟩ := decodeCanonical_eq_ok.1 hf
    obtain ⟨hwg, hextended⟩ := decodeCanonical_eq_ok.1 hg
    rw [hbytes, ← List.append_nil g.canonicalBytes] at hextended
    exact (canonicalBytes_append_inj hwf hwg hextended).2

end Formula
end Naome
