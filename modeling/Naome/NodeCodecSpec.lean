import Naome.NodeCodec

/-!
# Specification of the formula codec

Encoder and decoder succeed exactly within their limits, and both are described by the
same pure byte string `nodeBytes`.
-/
namespace Naome.FormulaCodec
open LocallyNameless Outcome ByteCursor FirstOccurrence

variable {D : Type}

/-- An output length within the byte limit of the format, if it has one. -/
def FitsBytes (fmt : NodeFormat D) (length : ℕ) : Prop :=
  ∀ maximum, fmt.byteLimit = some maximum → length ≤ maximum

theorem FitsBytes.mono {fmt : NodeFormat D} {k l : ℕ} (h : FitsBytes fmt l) (hkl : k ≤ l) :
    FitsBytes fmt k :=
  fun m hm => hkl.trans (h m hm)

theorem enterNode_eq_ok {maximumDepth depth : ℕ} {b b' : NodeBudget} :
    enterNode maximumDepth depth b = .ok b' ↔ depth < maximumDepth ∧ b.Spent b' 1 := by
  simp [enterNode, bind_eq_ok, NodeBudget.charge_eq_ok]

theorem leaveNode_eq_ok {fmt : NodeFormat D} {s s' : Encoder} :
    leaveNode fmt s = .ok s' ↔ s' = s ∧ FitsBytes fmt s.output.length := by
  unfold leaveNode FitsBytes
  cases fmt.byteLimit with
  | none => simp [eq_comm]
  | some maximum =>
    by_cases h : s.output.length > maximum
    · simp [h]
    · simp [h, eq_comm, Nat.le_of_not_lt h]

@[simp] theorem length_variableBytes (x : Variable FreeVariable) : (variableBytes x).length = 5 := by
  cases x <;> simp [variableBytes]

theorem length_flatMap_variableBytes (xs : List (Variable FreeVariable)) :
    (xs.flatMap variableBytes).length = 5 * xs.length := by
  simp [List.length_flatMap, Nat.mul_comm]

theorem encodeVariable_eq (x : Variable FreeVariable) (s : Encoder) :
    encodeVariable x s =
      { s with
        encoding := (x.mapState FreeVariableEncoding.identifier s.encoding).2
        output := s.output ++
          variableBytes (x.mapState FreeVariableEncoding.identifier s.encoding).1 } := by
  cases x <;> rfl

theorem foldl_encodeVariable_eq (xs : List (Variable FreeVariable)) (s : Encoder) :
    xs.foldl (fun s x => encodeVariable x s) s =
      { s with
        encoding := (Variable.mapStateList FreeVariableEncoding.identifier xs s.encoding).2
        output := s.output ++ (Variable.mapStateList FreeVariableEncoding.identifier xs
          s.encoding).1.flatMap variableBytes } := by
  induction xs generalizing s with
  | nil => simp [Variable.mapStateList]
  | cons x xs ih => rw [List.foldl_cons, ih, encodeVariable_eq]; simp [Variable.mapStateList]

theorem length_mapStateList {S : Type} (f : FreeVariable → S → FreeVariable × S)
    (xs : List (Variable FreeVariable)) (s : S) :
    (Variable.mapStateList f xs s).1.length = xs.length := by
  induction xs generalizing s with
  | nil => rfl
  | cons x xs ih => simp [Variable.mapStateList, ih]

/-- Renaming keeps the length of the encoding. -/
theorem length_nodeBytes_mapFreeState {S : Type} (fmt : NodeFormat D)
    (f : FreeVariable → S → FreeVariable × S) (n : Node FreeVariable D) (s : S) :
    (nodeBytes fmt (n.mapFreeState f s).1).length = (nodeBytes fmt n).length := by
  induction n generalizing s with
  | equal l r | member l r => simp [Node.mapFreeState, nodeBytes]
  | not n ih | forAll n ih => simp [Node.mapFreeState, nodeBytes, ih]
  | implies a b iha ihb => simp [Node.mapFreeState, nodeBytes, iha, ihb]
  | definedRelation symbol xs =>
    simp only [Node.mapFreeState, nodeBytes, List.length_cons, List.length_append,
      length_flatMap_variableBytes, length_mapStateList, length_u32Bytes]

/-- The result of a successful encoding. -/
structure Encodes (fmt : NodeFormat D) (depth : ℕ) (n : Node FreeVariable D)
    (s s' : Encoder) : Prop where
  depth_le : depth + n.depth ≤ fmt.maximumDepth
  writes : fmt.Writes n
  fits : FitsBytes fmt (s.output.length + (nodeBytes fmt n).length)
  spent : s.nodes.Spent s'.nodes n.nodeCount
  encoding : s'.encoding = (n.mapFreeState FreeVariableEncoding.identifier s.encoding).2
  output : s'.output = s.output ++
    nodeBytes fmt (n.mapFreeState FreeVariableEncoding.identifier s.encoding).1

theorem Encodes.length_output {fmt : NodeFormat D} {depth : ℕ} {n : Node FreeVariable D}
    {s s' : Encoder} (h : Encodes fmt depth n s s') :
    s'.output.length = s.output.length + (nodeBytes fmt n).length := by
  rw [h.output, List.length_append, length_nodeBytes_mapFreeState]

/-- A node with one subtree: `tag` is pushed, the subtree encoded one level deeper. -/
theorem encode_one {fmt : NodeFormat D} {depth : ℕ} {tag : UInt8} {n m : Node FreeVariable D}
    {s s' : Encoder} (hdepth : m.depth = n.depth + 1) (hcount : m.nodeCount = n.nodeCount + 1)
    (hwrites : fmt.Writes m ↔ fmt.Writes n)
    (hmap : ∀ e : FreeVariableEncoding,
      nodeBytes fmt (m.mapFreeState FreeVariableEncoding.identifier e).1 =
        tag :: nodeBytes fmt (n.mapFreeState FreeVariableEncoding.identifier e).1 ∧
      (m.mapFreeState FreeVariableEncoding.identifier e).2 =
        (n.mapFreeState FreeVariableEncoding.identifier e).2)
    (ih : ∀ {depth : ℕ} {s s' : Encoder},
      encodeNode fmt depth n s = .ok s' ↔ Encodes fmt depth n s s') :
    (∃ nodes, enterNode fmt.maximumDepth depth s.nodes = .ok nodes ∧
      ∃ t, encodeNode fmt (depth + 1) n ({ s with nodes }.push [tag]) = .ok t ∧
        leaveNode fmt t = .ok s') ↔ Encodes fmt depth m s s' := by
  have hlen : (nodeBytes fmt m).length = (nodeBytes fmt n).length + 1 := by
    have h := congrArg List.length (hmap .preserve).1
    simpa [length_nodeBytes_mapFreeState] using h
  simp only [enterNode_eq_ok, ih, leaveNode_eq_ok]
  constructor
  · rintro ⟨nodes, ⟨hd, hc⟩, t, ht, rfl, hf⟩
    have hout := ht.length_output
    simp only [Encoder.push, List.length_append, List.length_singleton] at hout
    refine ⟨?_, hwrites.mpr ht.writes, hf.mono (by omega), ?_, ?_, ?_⟩
    · have := ht.depth_le
      omega
    · have := hc.trans ht.spent
      rwa [hcount, Nat.add_comm]
    · rw [ht.encoding, (hmap _).2]
      rfl
    · rw [ht.output, (hmap _).1]
      simp [Encoder.push]
  · intro h
    have hd := h.depth_le
    have hspent := h.spent
    rw [hcount] at hspent
    obtain ⟨nodes, h1, h2⟩ := NodeBudget.exists_spent hspent (Nat.le_add_left 1 n.nodeCount)
    rw [Nat.add_sub_cancel] at h2
    refine ⟨nodes, ⟨by omega, h1⟩, s', ⟨by omega, hwrites.mp h.writes, ?_, h2, ?_, ?_⟩, rfl, ?_⟩
    · refine h.fits.mono ?_
      simp only [Encoder.push, List.length_append, List.length_singleton]
      omega
    · rw [h.encoding, (hmap _).2]
      rfl
    · rw [h.output, (hmap _).1]
      simp [Encoder.push]
    · exact h.fits.mono (by rw [h.length_output])

/-- A node without subtrees: its bytes are written at once. -/
theorem encode_leaf {fmt : NodeFormat D} {depth : ℕ} {n : Node FreeVariable D} {s s' : Encoder}
    {t : NodeBudget → Encoder} (hdepth : n.depth = 1) (hcount : n.nodeCount = 1)
    (hnodes : ∀ nodes, (t nodes).nodes = nodes)
    (hencoding : ∀ nodes, (t nodes).encoding =
      (n.mapFreeState FreeVariableEncoding.identifier s.encoding).2)
    (houtput : ∀ nodes, (t nodes).output = s.output ++
      nodeBytes fmt (n.mapFreeState FreeVariableEncoding.identifier s.encoding).1) :
    (∃ nodes, enterNode fmt.maximumDepth depth s.nodes = .ok nodes ∧ fmt.Writes n ∧
      leaveNode fmt (t nodes) = .ok s') ↔ Encodes fmt depth n s s' := by
  have hlen : ∀ nodes, (t nodes).output.length = s.output.length + (nodeBytes fmt n).length := by
    intro nodes
    rw [houtput, List.length_append, length_nodeBytes_mapFreeState]
  simp only [enterNode_eq_ok, leaveNode_eq_ok]
  constructor
  · rintro ⟨nodes, ⟨hd, hc⟩, hw, rfl, hf⟩
    refine ⟨by omega, hw, by rwa [← hlen nodes], ?_, hencoding nodes, houtput nodes⟩
    rwa [hcount, hnodes]
  · intro h
    have hd := h.depth_le
    have hspent := h.spent
    rw [hcount] at hspent
    refine ⟨s'.nodes, ⟨by omega, hspent⟩, h.writes, ?_, ?_⟩
    · refine Encoder.ext (hnodes _).symm ?_ ?_
      · rw [hencoding, h.encoding]
      · rw [houtput, h.output]
    · rw [hlen]
      exact h.fits

/-- The encoder succeeds exactly within its limits, and writes the bytes of the tree with
its free variables renamed by the chosen encoding. -/
theorem encodeNode_eq_ok {fmt : NodeFormat D} {depth : ℕ} {n : Node FreeVariable D}
    {s s' : Encoder} : encodeNode fmt depth n s = .ok s' ↔ Encodes fmt depth n s s' := by
  induction n generalizing depth s s' with
  | equal l r | member l r =>
    rw [← encode_leaf (t := fun nodes => encodeVariable r (encodeVariable l
      (({ s with nodes } : Encoder).push [_]))) rfl rfl (fun _ => by simp [encodeVariable_eq]; rfl)
      (fun _ => by simp [encodeVariable_eq, Node.mapFreeState]; rfl)
      (fun _ => by simp [encodeVariable_eq, Node.mapFreeState, nodeBytes, Encoder.push]; rfl)]
    simp only [encodeNode, bind_eq_ok, NodeFormat.Writes, true_and]
  | not n ih | forAll n ih =>
    simp only [encodeNode, bind_eq_ok]
    exact encode_one rfl rfl Iff.rfl (fun _ => ⟨rfl, rfl⟩) ih
  | definedRelation symbol xs =>
    rw [← encode_leaf (t := fun nodes => xs.foldl (fun s x => encodeVariable x s)
      (({ s with nodes } : Encoder).push (0x05 :: (digestBytes (fmt.identifier symbol) ++
        u32Bytes xs.length)))) rfl rfl (fun _ => by simp [foldl_encodeVariable_eq]; rfl)
      (fun _ => by simp [foldl_encodeVariable_eq, Node.mapFreeState]; rfl)
      (fun _ => by simp [foldl_encodeVariable_eq, Node.mapFreeState, nodeBytes, Encoder.push,
        length_mapStateList])]
    simp only [encodeNode, bind_eq_ok, require_eq_ok, exists_const, NodeFormat.Writes, and_assoc]
  | implies a b iha ihb =>
    have hlen : (nodeBytes fmt (.implies a b)).length =
        (nodeBytes fmt a).length + (nodeBytes fmt b).length + 1 := by
      simp [nodeBytes]
    have hdepth : (Node.implies a b).depth = max a.depth b.depth + 1 := rfl
    have hcount : (Node.implies a b).nodeCount = a.nodeCount + b.nodeCount + 1 := rfl
    simp only [encodeNode, bind_eq_ok, enterNode_eq_ok, leaveNode_eq_ok, iha, ihb]
    constructor
    · rintro ⟨nodes, ⟨hd, hc⟩, t, ht, u, hu, rfl, hf⟩
      have hout := hu.length_output
      rw [ht.length_output] at hout
      simp only [Encoder.push, List.length_append, List.length_singleton] at hout
      have hda := ht.depth_le
      have hdb := hu.depth_le
      refine ⟨by omega, ⟨ht.writes, hu.writes⟩, hf.mono (by omega), ?_, ?_, ?_⟩
      · have := (hc.trans ht.spent).trans hu.spent
        rwa [hcount, Nat.add_comm, ← Nat.add_assoc]
      · rw [hu.encoding, ht.encoding]
        rfl
      · rw [hu.output, ht.output, ht.encoding]
        simp [Encoder.push, Node.mapFreeState, nodeBytes]
    · intro h
      have hd := h.depth_le
      have hspent := h.spent
      rw [hcount] at hspent
      obtain ⟨nodes, h1, h2⟩ := NodeBudget.exists_spent hspent (Nat.le_add_left 1 _)
      rw [Nat.add_sub_cancel] at h2
      obtain ⟨nodes', h3, h4⟩ := NodeBudget.exists_spent h2 (Nat.le_add_right _ _)
      rw [Nat.add_sub_cancel_left] at h4
      let t : Encoder :=
        ⟨nodes', (a.mapFreeState FreeVariableEncoding.identifier s.encoding).2,
          s.output ++ [0x03] ++
            nodeBytes fmt (a.mapFreeState FreeVariableEncoding.identifier s.encoding).1⟩
      have ht : Encodes fmt (depth + 1) a (({ s with nodes } : Encoder).push [0x03]) t := by
        refine ⟨by omega, h.writes.1, h.fits.mono ?_, h3, rfl, rfl⟩
        simp only [Encoder.push, List.length_append, List.length_singleton]
        omega
      refine ⟨nodes, ⟨by omega, h1⟩, t, ht, s', ⟨by omega, h.writes.2, h.fits.mono ?_, h4,
        h.encoding, ?_⟩, rfl, h.fits.mono (by rw [h.length_output])⟩
      · rw [ht.length_output]
        simp only [Encoder.push, List.length_append, List.length_singleton]
        omega
      · rw [h.output]
        simp [t, Node.mapFreeState, nodeBytes]

theorem decodeVariable_eq_ok {binderDepth : ℕ} (hb : binderDepth ≤ 2 ^ 32)
    {bytes rest : List UInt8} {x : Variable FreeVariable} :
    decodeVariable binderDepth bytes = .ok (x, rest) ↔
      x.Scoped binderDepth ∧ bytes = variableBytes x ++ rest := by
  unfold decodeVariable
  constructor
  · intro h
    simp only [bind_eq_ok, Prod.exists, readU8_eq_ok, readU32_eq_ok] at h
    obtain ⟨tag, _, rfl, value, _, ⟨hlt, rfl⟩, h⟩ := h
    split_ifs at h with h0 h1 hd
    · cases h
      subst h0
      refine ⟨trivial, ?_⟩
      simp only [variableBytes, UInt32.toNat_ofNat_of_lt' hlt]
      rfl
    · cases h
      subst h1
      exact ⟨hd, rfl⟩
  · rintro ⟨hs, rfl⟩
    cases x with
    | free v =>
      refine bind_eq_ok.mpr ⟨(0x00, _), readU8_eq_ok.mpr rfl, ?_⟩
      refine bind_eq_ok.mpr ⟨(v.identifier.toNat, rest),
        readU32_eq_ok.mpr ⟨v.identifier.toNat_lt, rfl⟩, ?_⟩
      simp [pure, Except.pure]
    | bound i =>
      refine bind_eq_ok.mpr ⟨(0x01, _), readU8_eq_ok.mpr rfl, ?_⟩
      refine bind_eq_ok.mpr ⟨(i, rest), readU32_eq_ok.mpr ⟨lt_of_lt_of_le hs hb, rfl⟩, ?_⟩
      have hi : i < binderDepth := hs
      simp [pure, Except.pure, hi]

/-- The result of a successful decoding. -/
structure Decodes (fmt : NodeFormat D) (depthLeft binderDepth : ℕ) (b : NodeBudget)
    (bytes : List UInt8) (n : Node FreeVariable D) (b' : NodeBudget) (rest : List UInt8) :
    Prop where
  depth_le : n.depth ≤ depthLeft
  inScope : n.Scoped binderDepth
  reads : fmt.Reads n
  spent : b.Spent b' n.nodeCount
  bytes : bytes = nodeBytes fmt n ++ rest

theorem decodeNode_sound {fmt : NodeFormat D} (hfmt : fmt.Lawful) {depthLeft binderDepth : ℕ}
    (hb : binderDepth + depthLeft ≤ 2 ^ 32) {b b' : NodeBudget} {bytes rest : List UInt8}
    {n : Node FreeVariable D}
    (h : decodeNode fmt depthLeft binderDepth b bytes = .ok (n, b', rest)) :
    Decodes fmt depthLeft binderDepth b bytes n b' rest := by
  induction depthLeft generalizing binderDepth b b' bytes rest n with
  | zero => cases h
  | succ depthLeft ih =>
    have hvar : ∀ {bytes rest : List UInt8} {x : Variable FreeVariable},
        decodeVariable binderDepth bytes = .ok (x, rest) ↔
          x.Scoped binderDepth ∧ bytes = variableBytes x ++ rest :=
      decodeVariable_eq_ok (by omega)
    rw [decodeNode] at h
    simp only [bind_eq_ok, Prod.exists, readU8_eq_ok, NodeBudget.charge_eq_ok] at h
    obtain ⟨m, hm, tag, bytes₁, rfl, h⟩ := h
    split_ifs at h with h0 h1 h2 h3 h4 h5
    · simp only [bind_eq_ok, Prod.exists, hvar] at h
      obtain ⟨l, _, ⟨hsl, rfl⟩, r, _, ⟨hsr, rfl⟩, h⟩ := h
      cases h
      exact ⟨by simp [Node.depth], ⟨hsl, hsr⟩, trivial, hm, by simp [nodeBytes, h0]⟩
    · simp only [bind_eq_ok, Prod.exists, hvar] at h
      obtain ⟨l, _, ⟨hsl, rfl⟩, r, _, ⟨hsr, rfl⟩, h⟩ := h
      cases h
      exact ⟨by simp [Node.depth], ⟨hsl, hsr⟩, trivial, hm, by simp [nodeBytes, h1]⟩
    · simp only [bind_eq_ok, Prod.exists] at h
      obtain ⟨k, _, _, hk, h⟩ := h
      cases h
      have hk := ih (by omega) hk
      refine ⟨Nat.succ_le_succ hk.depth_le, hk.inScope, hk.reads, ?_, ?_⟩
      · rw [Node.nodeCount, Nat.add_comm]
        exact hm.trans hk.spent
      · rw [hk.bytes, h2]
        rfl
    · simp only [bind_eq_ok, Prod.exists] at h
      obtain ⟨k, _, _, hk, l, _, _, hl, h⟩ := h
      cases h
      have hk := ih (by omega) hk
      have hl := ih (by omega) hl
      refine ⟨Nat.succ_le_succ (max_le hk.depth_le hl.depth_le), ⟨hk.inScope, hl.inScope⟩,
        ⟨hk.reads, hl.reads⟩, ?_, ?_⟩
      · have := (hm.trans hk.spent).trans hl.spent
        rwa [Node.nodeCount, Nat.add_comm, ← Nat.add_assoc]
      · rw [hk.bytes, hl.bytes, h3]
        simp [nodeBytes]
    · simp only [bind_eq_ok, Prod.exists] at h
      obtain ⟨k, _, _, hk, h⟩ := h
      cases h
      have hk := ih (by omega) hk
      refine ⟨Nat.succ_le_succ hk.depth_le, hk.inScope, hk.reads, ?_, ?_⟩
      · rw [Node.nodeCount, Nat.add_comm]
        exact hm.trans hk.spent
      · rw [hk.bytes, h4]
        rfl
    · cases hof : fmt.ofIdentifier with
      | none => simp [hof] at h
      | some f =>
        simp only [hof, bind_eq_ok, Prod.exists, readDigest_eq_ok, readU32_eq_ok,
          readMany_eq_ok fun _ _ _ => hvar] at h
        obtain ⟨identifier, _, rfl, count, _, ⟨hclt, rfl⟩, _, -, xs, _, ⟨rfl, hsx, rfl⟩, h⟩ := h
        cases h
        refine ⟨by simp [Node.depth], hsx, ⟨by simp [hof], hclt⟩, hm, ?_⟩
        simp [nodeBytes, h5, (hfmt f hof).1]

theorem decodeNode_complete {fmt : NodeFormat D} (hfmt : fmt.Lawful) {depthLeft binderDepth : ℕ}
    (hb : binderDepth + depthLeft ≤ 2 ^ 32) {b b' : NodeBudget} {bytes rest : List UInt8}
    {n : Node FreeVariable D} (h : Decodes fmt depthLeft binderDepth b bytes n b' rest) :
    decodeNode fmt depthLeft binderDepth b bytes = .ok (n, b', rest) := by
  induction depthLeft generalizing binderDepth b b' bytes rest n with
  | zero => exact absurd h.depth_le (Nat.not_le_of_lt n.depth_pos)
  | succ depthLeft ih =>
    obtain ⟨hd, hs, hr, hc, rfl⟩ := h
    obtain ⟨m, hm, hmb⟩ := NodeBudget.exists_spent hc n.nodeCount_pos
    have hcharge := NodeBudget.charge_eq_ok.2 hm
    have hvar : ∀ {rest : List UInt8} {x : Variable FreeVariable}, x.Scoped binderDepth →
        decodeVariable binderDepth (variableBytes x ++ rest) = .ok (x, rest) :=
      fun hx => (decodeVariable_eq_ok (by omega)).mpr ⟨hx, rfl⟩
    cases n with
    | equal l r | member l r =>
      obtain rfl : m = b' := NodeBudget.ext hmb.2.symm hmb.1.symm
      simp [decodeNode, hcharge, nodeBytes, readU8, hvar hs.1, hvar hs.2, pure, Except.pure]
    | not n =>
      have : decodeNode fmt depthLeft binderDepth m (nodeBytes fmt n ++ rest) = .ok (n, b', rest) :=
        ih (by omega) ⟨Nat.le_of_succ_le_succ hd, hs, hr, hmb, rfl⟩
      simp [decodeNode, hcharge, nodeBytes, readU8, this, pure, Except.pure]
    | forAll n =>
      have : decodeNode fmt depthLeft (binderDepth + 1) m (nodeBytes fmt n ++ rest) =
          .ok (n, b', rest) :=
        ih (by omega) ⟨Nat.le_of_succ_le_succ hd, hs, hr, hmb, rfl⟩
      simp [decodeNode, hcharge, nodeBytes, readU8, this, pure, Except.pure]
    | implies k l =>
      have hd' := Nat.le_of_succ_le_succ hd
      rw [Node.nodeCount, Nat.add_sub_cancel] at hmb
      obtain ⟨m', h₁, h₂⟩ := NodeBudget.exists_spent hmb (Nat.le_add_right _ _)
      rw [Nat.add_sub_cancel_left] at h₂
      have hk : decodeNode fmt depthLeft binderDepth m
          (nodeBytes fmt k ++ (nodeBytes fmt l ++ rest)) = .ok (k, m', nodeBytes fmt l ++ rest) :=
        ih (by omega) ⟨(le_max_left _ _).trans hd', hs.1, hr.1, h₁, rfl⟩
      have hl : decodeNode fmt depthLeft binderDepth m' (nodeBytes fmt l ++ rest) =
          .ok (l, b', rest) :=
        ih (by omega) ⟨(le_max_right _ _).trans hd', hs.2, hr.2, h₂, rfl⟩
      simp [decodeNode, hcharge, nodeBytes, readU8, hk, hl, pure, Except.pure]
    | definedRelation symbol xs =>
      obtain rfl : m = b' := NodeBudget.ext hmb.2.symm hmb.1.symm
      obtain ⟨f, hf⟩ := Option.isSome_iff_exists.mp hr.1
      have hxs : readMany (decodeVariable binderDepth) xs.length
          (xs.flatMap variableBytes ++ rest) = .ok (xs, rest) :=
        (readMany_eq_ok fun _ _ _ => decodeVariable_eq_ok (by omega)).mpr ⟨rfl, hs, rfl⟩
      have hid : readDigest FormulaCodecError.unexpectedEnd
          (digestBytes (fmt.identifier symbol) ++ (u32Bytes xs.length ++
            (xs.flatMap variableBytes ++ rest))) = .ok (fmt.identifier symbol, _) :=
        readDigest_eq_ok.2 rfl
      have hcount : readU32 FormulaCodecError.unexpectedEnd
          (u32Bytes xs.length ++ (xs.flatMap variableBytes ++ rest)) = .ok (xs.length, _) :=
        readU32_eq_ok.mpr ⟨hr.2, rfl⟩
      have hguard : require (xs.length ≤ (xs.flatMap variableBytes ++ rest).length / 5)
          FormulaCodecError.unexpectedEnd = .ok () := by
        rw [require_eq_ok, List.length_append, length_flatMap_variableBytes]
        omega
      simp only [decodeNode, hcharge, nodeBytes, readU8, hf, ok_bind, List.cons_append,
        List.append_assoc, hid, hcount, hguard, hxs, (hfmt f hf).2]
      rfl

/-- The decoder accepts exactly the bytes of trees within its limits. -/
theorem decodeNode_eq_ok {fmt : NodeFormat D} (hfmt : fmt.Lawful) {depthLeft binderDepth : ℕ}
    (hb : binderDepth + depthLeft ≤ 2 ^ 32) {b b' : NodeBudget} {bytes rest : List UInt8}
    {n : Node FreeVariable D} :
    decodeNode fmt depthLeft binderDepth b bytes = .ok (n, b', rest) ↔
      Decodes fmt depthLeft binderDepth b bytes n b' rest :=
  ⟨decodeNode_sound hfmt hb, decodeNode_complete hfmt hb⟩

/-- Trees with the same bytes are equal, also when further bytes follow. -/
theorem nodeBytes_append_inj {fmt : NodeFormat D} (hfmt : fmt.Lawful)
    {n m : Node FreeVariable D} (hn : n.Scoped 0) (hm : m.Scoped 0) (hrn : fmt.Reads n)
    (hrm : fmt.Reads m) (hdn : n.depth ≤ 2 ^ 32) (hdm : m.depth ≤ 2 ^ 32)
    {rest rest' : List UInt8} (h : nodeBytes fmt n ++ rest = nodeBytes fmt m ++ rest') :
    n = m ∧ rest = rest' := by
  let b : NodeBudget := ⟨0, n.nodeCount + m.nodeCount, Nat.zero_le _⟩
  let bₙ : NodeBudget := ⟨n.nodeCount, n.nodeCount + m.nodeCount, by omega⟩
  let bₘ : NodeBudget := ⟨m.nodeCount, n.nodeCount + m.nodeCount, by omega⟩
  have h₁ : decodeNode fmt (2 ^ 32) 0 b (nodeBytes fmt n ++ rest) = .ok (n, bₙ, rest) :=
    decodeNode_complete hfmt (by omega) ⟨hdn, hn, hrn, ⟨rfl, by simp [b, bₙ]⟩, rfl⟩
  have h₂ : decodeNode fmt (2 ^ 32) 0 b (nodeBytes fmt m ++ rest') = .ok (m, bₘ, rest') :=
    decodeNode_complete hfmt (by omega) ⟨hdm, hm, hrm, ⟨rfl, by simp [b, bₘ]⟩, rfl⟩
  rw [h, h₂] at h₁
  simp only [Except.ok.injEq, Prod.mk.injEq] at h₁
  exact ⟨h₁.1.symm, h₁.2.2.symm⟩

end Naome.FormulaCodec
