import Naome.KnowledgeIndex
import Naome.FormulaLength

/-!
# Ranges of an encoded implication

The antecedent and the consequents of an implication spine are cut from one encoding at offsets that
come from a recursion of their own. Each range is the canonical encoding of its formula.
-/
namespace Naome
open LocallyNameless Outcome FormulaCodec

theorem PrimitiveNode.scoped_right {left right : PrimitiveNode}
    (h : (.implies left right : PrimitiveNode).Scoped 0) : right.Scoped 0 := h.2

/-- The consequents of an implication, down its right spine to the first that is no implication. -/
def PrimitiveNode.consequents : (n : PrimitiveNode) → n.Scoped 0 → List Formula
  | .implies _ right, h => ⟨right, scoped_right h⟩ :: PrimitiveNode.consequents right (scoped_right h)
  | _, _ => []

def Formula.consequents (f : Formula) : List Formula :=
  PrimitiveNode.consequents f.node f.wellScoped

/-- The width recursion computes the length of the encoding. -/
theorem PrimitiveNode.width_eq (n : PrimitiveNode) :
    PrimitiveNode.width n = (nodeBytes primitiveFormat n).length := by
  induction n with
  | equal l r | member l r => simp [PrimitiveNode.width, nodeBytes]
  | not n ih | forAll n ih =>
    rw [PrimitiveNode.width, ih, nodeBytes, List.length_cons, Nat.add_comm]
  | implies a b iha ihb =>
    rw [PrimitiveNode.width, iha, ihb, nodeBytes, List.length_cons, List.length_append]
    omega
  | definedRelation s => exact s.elim

/-- Wherever a spine stands in a buffer, the offsets cut out its consequents as long as nothing
follows the spine. -/
theorem PrimitiveNode.drop_consequentOffsets (n : PrimitiveNode) (h : n.Scoped 0)
    (before : List UInt8) :
    (PrimitiveNode.consequentOffsets before.length n).map
        (fun start => (before ++ nodeBytes primitiveFormat n).drop start) =
      (PrimitiveNode.consequents n h).map Formula.canonicalBytes := by
  induction n generalizing before with
  | implies left right _ ih =>
    have hbytes : before ++ nodeBytes primitiveFormat (.implies left right) =
        (before ++ 0x03 :: nodeBytes primitiveFormat left) ++ nodeBytes primitiveFormat right := by
      simp [nodeBytes]
    have hstart : before.length + 1 + PrimitiveNode.width left =
        (before ++ 0x03 :: nodeBytes primitiveFormat left).length := by
      rw [PrimitiveNode.width_eq, List.length_append, List.length_cons]
      omega
    rw [PrimitiveNode.consequentOffsets, PrimitiveNode.consequents, List.map_cons, List.map_cons,
      hbytes, hstart, List.drop_left, ih h.2]
    rfl
  | definedRelation s => exact s.elim
  | _ => rfl

namespace Formula

variable {f g : Formula}

theorem consequents_implies (f g : Formula) : (implies f g).consequents = g :: g.consequents := rfl

theorem WithinLimits.of_implies (h : (implies f g).WithinLimits) :
    f.WithinLimits ∧ g.WithinLimits := by
  obtain ⟨hcount, hdepth⟩ := h
  simp only [implies, Node.nodeCount, Node.depth] at hcount hdepth
  exact ⟨⟨by omega, by omega⟩, by omega, by omega⟩

/-- Consequents are within the limits of their implication. -/
theorem WithinLimits.consequents (h : f.WithinLimits) : ∀ c ∈ f.consequents, c.WithinLimits := by
  obtain ⟨n, hn⟩ := f
  induction n with
  | implies left right _ ih =>
    have hright : (⟨right, hn.2⟩ : Formula).WithinLimits :=
      (WithinLimits.of_implies (f := ⟨left, hn.1⟩) (g := ⟨right, hn.2⟩) h).2
    intro c hc
    rcases List.mem_cons.mp hc with rfl | hc
    · exact hright
    · exact ih hn.2 hright c hc
  | definedRelation s => exact s.elim
  | _ =>
    intro c hc
    cases hc

theorem encodeCanonical_of_withinLimits (h : f.WithinLimits) :
    f.encodeCanonical = .ok f.canonicalBytes := encodeCanonical_eq_ok.mpr ⟨h, rfl⟩

/-- The borrowed ranges of an implication within the codec limits are the encodings of its
antecedent and, in order, of its consequents. -/
theorem canonicalImplication_exact (antecedent consequent : Formula)
    (h : (implies antecedent consequent).WithinLimits) :
    ∃ ranges, (implies antecedent consequent).canonicalImplication = .ok (some ranges) ∧
      antecedent.encodeCanonical = .ok ranges.antecedent ∧
      List.Forall₂ (fun c bytes => c.encodeCanonical = .ok bytes)
        (consequent :: consequent.consequents) ranges.consequents := by
  obtain ⟨hantecedent, hconsequent⟩ := h.of_implies
  refine ⟨_, by rw [canonicalImplication, encodeCanonical_of_withinLimits h]; rfl, ?_, ?_⟩
  · have hend : 0 + 1 + PrimitiveNode.width antecedent.node =
        antecedent.canonicalBytes.length + 1 := by
      rw [PrimitiveNode.width_eq, canonicalBytes]
      omega
    have hbytes : (implies antecedent consequent).canonicalBytes =
        0x03 :: (antecedent.canonicalBytes ++ consequent.canonicalBytes) := rfl
    rw [encodeCanonical_of_withinLimits hantecedent, CanonicalImplication.antecedent]
    simp only [implies, PrimitiveNode.consequentOffsets, List.headD_cons, hend]
    change _ = Except.ok ((((implies antecedent consequent).canonicalBytes).take _).drop 1)
    rw [hbytes, List.take_succ_cons, List.take_left]
    rfl
  · have hall := WithinLimits.consequents h
    rw [consequents_implies] at hall
    have hcut := PrimitiveNode.drop_consequentOffsets (implies antecedent consequent).node
      (implies antecedent consequent).wellScoped []
    have hranges : List.map (fun start => (implies antecedent consequent).canonicalBytes.drop start)
        (PrimitiveNode.consequentOffsets 0 (implies antecedent consequent).node) =
          (consequent :: consequent.consequents).map canonicalBytes := hcut
    rw [CanonicalImplication.consequents]
    change List.Forall₂ _ _ (List.map
      (fun start => (implies antecedent consequent).canonicalBytes.drop start)
      (PrimitiveNode.consequentOffsets 0 (implies antecedent consequent).node))
    rw [hranges, List.forall₂_map_right_iff]
    exact List.forall₂_same.mpr fun c hc => encodeCanonical_of_withinLimits (hall c hc)

/-- The ranges of `x = x → (y = y → x = y)`. -/
theorem canonicalImplication_exact_spine :
    let x : FreeVariable := ⟨0⟩
    let y : FreeVariable := ⟨1⟩
    ∃ ranges, (implies (equal x x) (implies (equal y y) (equal x y))).canonicalImplication =
        .ok (some ranges) ∧ (equal x x).encodeCanonical = .ok ranges.antecedent ∧
      ranges.consequents.length = 2 := by
  intro x y
  obtain ⟨ranges, hranges, hantecedent, hconsequents⟩ :=
    canonicalImplication_exact (equal x x) (implies (equal y y) (equal x y)) ⟨by decide, by decide⟩
  exact ⟨ranges, hranges, hantecedent, hconsequents.length_eq.symm⟩

end Formula
end Naome
