import Naome.RuleRenaming

/-!
# Lengths of canonical encodings

Every variable takes five bytes, free or bound, so binding, opening and substitution keep the length
of a formula and each node adds one byte.
-/
namespace Naome
open LocallyNameless FormulaCodec ByteCursor

section

variable {D : Type} (fmt : NodeFormat D)

@[simp] theorem length_nodeBytes_bindFree (f : FreeVariable → Option ℕ) (depth : ℕ)
    (n : Node FreeVariable D) :
    (nodeBytes fmt (n.bindFree f depth)).length = (nodeBytes fmt n).length := by
  induction n generalizing depth with
  | equal l r | member l r => simp [Node.bindFree, nodeBytes]
  | not n ih | forAll n ih => simp [Node.bindFree, nodeBytes, ih]
  | implies a b iha ihb => simp [Node.bindFree, nodeBytes, iha, ihb]
  | definedRelation s xs =>
    simp only [Node.bindFree, nodeBytes, List.length_cons, List.length_append, List.length_map,
      length_flatMap_variableBytes]

end

namespace Formula

variable (f g : Formula) (v w : FreeVariable)

@[simp] theorem length_implies : (f.implies g).canonicalBytes.length =
    f.canonicalBytes.length + g.canonicalBytes.length + 1 := by
  simp [canonicalBytes, implies, nodeBytes]

@[simp] theorem length_forAll : (forAll v f).canonicalBytes.length = f.canonicalBytes.length + 1 := by
  simp [canonicalBytes, forAll, nodeBytes]

@[simp] theorem length_substituteFree :
    (f.substituteFree v w).canonicalBytes.length = f.canonicalBytes.length := by
  rw [substituteFree_eq_map]
  exact f.length_canonicalBytes_mapFreeVariables

end Formula
end Naome
