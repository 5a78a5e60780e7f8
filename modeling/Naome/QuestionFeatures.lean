import Naome.QuestionTarget
import Naome.FormulaGraph
import Naome.NodeCodec
import Naome.RuleRenaming

/-!
# Features of questions and the partition

The signals of a question are counted on its core. Questions with one group of signals are in one
part of the training split.
-/
namespace Naome
open LocallyNameless Outcome ByteCursor

namespace Training

/-- The number of signals; the first 25 count parents and children by their tags. -/
def signals : ℕ := 32

structure Features where
  counts : ℕ → ℕ
  nodes : ℕ
  depth : ℕ
  family : ℕ

namespace Features

def tally (counts : ℕ → ℕ) (signal : ℕ) : ℕ → ℕ := fun s =>
  if s = signal then counts s + 1 else counts s

/-- The tag of a node and the counts of its tree. -/
def count : GraphNode (ℕ × (ℕ → ℕ)) → ℕ × (ℕ → ℕ)
  | .equal a b => (0, tally (fun _ => 0) (25 + if a ≠ b then 1 else 0))
  | .member a b => (1, tally (fun _ => 0) (27 + if a ≠ b then 1 else 0))
  | .not a => (2, tally (tally a.2 (2 * 5 + a.1)) 31)
  | .implies a b =>
    (3, tally (tally (tally (fun s => a.2 s + b.2 s) (3 * 5 + a.1)) (3 * 5 + b.1)) 30)
  | .forAll a => (4, tally (tally a.2 (4 * 5 + a.1)) 29)

def of (question : QuestionTarget) : Features :=
  let counts := (foldGraph count question.core.node).2
  let (nodes, depth) := question.core.nodeCountAndDepth
  let atoms := (if 0 < counts 25 + counts 26 then 1 else 0) +
    2 * if 0 < counts 27 + counts 28 then 1 else 0
  { counts
    nodes
    depth
    family := atoms * 16 + min (counts 29) 3 * 4 + (if 0 < counts 30 then 1 else 0) +
      2 * if 0 < counts 31 then 1 else 0 }

end Features

def hexDigit (n : ℕ) : UInt8 := UInt8.ofNat (if n < 10 then 48 + n else 87 + n)

def hex (d : Digest) : List UInt8 :=
  (digestBytes d).flatMap fun byte => [hexDigit (byte.toNat / 16), hexDigit (byte.toNat % 16)]

inductive Partition
  | training
  | development
  | reserved
  deriving DecidableEq

section

variable (sha256 : List UInt8 → Digest)

/-- The text that names the structural group of a question. -/
def group (question : QuestionTarget) : List UInt8 :=
  let features := Features.of question
  hex (sha256 (asciiBytes "naome:training-structure" ++ [0] ++
    (List.range signals).flatMap (fun s => bigEndian 2 (features.counts s)) ++
    bigEndian 2 features.depth))

def partition (question : QuestionTarget) : Partition :=
  let digest := digestBytes (sha256 (group sha256 question))
  let value : ℕ := (digest.take 2).foldl (fun value byte => value * 256 + byte.toNat) 0
  if value % 5 = 0 then .development else if value % 5 = 1 then .reserved else .training

end

end Training

/-- Formulas that differ by names of bound variables. -/
inductive Formula.BoundRenaming : Formula → Formula → Prop
  | refl (f : Formula) : BoundRenaming f f
  | rename (v w : FreeVariable) (f : Formula) (hw : w ∉ f.node.occurrences) :
    BoundRenaming (.forAll v f) (.forAll w (f.substituteFree v w))
  | negate {f g : Formula} (h : BoundRenaming f g) : BoundRenaming f.negate g.negate
  | implies {f g f' g' : Formula} (h : BoundRenaming f g) (h' : BoundRenaming f' g') :
    BoundRenaming (.implies f f') (.implies g g')
  | forAll (v : FreeVariable) {f g : Formula} (h : BoundRenaming f g) :
    BoundRenaming (.forAll v f) (.forAll v g)
  | trans {f g k : Formula} (h : BoundRenaming f g) (h' : BoundRenaming g k) : BoundRenaming f k

theorem Formula.forAll_substituteFree {v w : FreeVariable} {f : Formula}
    (hw : w ∉ f.node.occurrences) : forAll w (f.substituteFree v w) = forAll v f := by
  by_cases hvw : v = w
  · rw [substituteFree, if_pos hvw, hvw]
  · have hswap : f.substituteFree v w = f.mapFreeVariables (Equiv.swap v w) := by
      rw [substituteFree, if_neg hvw]
      apply Formula.ext
      apply Node.mapFree_congr
      intro u hu
      have huw : u ≠ w := fun heq => hw (heq ▸ hu)
      rw [substitution]
      split_ifs with huv
      · rw [huv, Equiv.swap_apply_left]
      · rw [Equiv.swap_apply_of_ne_of_ne huv huw]
    have hname : w = Equiv.swap v w v := (Equiv.swap_apply_left v w).symm
    have hmap := mapFreeVariables_forAll (Equiv.swap v w).injective v f
    rw [← hname, ← hswap] at hmap
    rw [← hmap]
    apply Formula.ext
    change (forAll v f).node.mapFree _ = _
    have hid : (forAll v f).node.mapFree id = (forAll v f).node := Node.mapFree_id _
    rw [← hid, Node.mapFree_mapFree]
    apply Node.mapFree_congr
    intro u hu
    simp only [forAll, Node.occurrences, Node.mem_occurrences_bindFree, bindOne] at hu
    obtain ⟨hu, hnone⟩ := hu
    have huv : u ≠ v := by
      intro heq
      rw [if_pos heq] at hnone
      cases hnone
    have huw : u ≠ w := fun heq => hw (heq ▸ hu)
    exact Equiv.swap_apply_of_ne_of_ne huv huw

theorem Formula.BoundRenaming.eq {f g : Formula} (h : f.BoundRenaming g) : f = g := by
  induction h with
  | refl => rfl
  | rename v w f hw => exact (forAll_substituteFree hw).symm
  | negate _ ih => rw [ih]
  | implies _ _ ih ih' => rw [ih, ih']
  | forAll v _ ih => rw [ih]
  | trans _ _ ih ih' => rw [ih, ih']

namespace Training

/-- Leading negations and names of bound variables do not change the part of a question. -/
theorem partition_eq {sha256 : List UInt8 → Digest} {f f' core core' : Formula} {k k' : ℕ}
    {t t' : QuestionTarget} (hf : f = Formula.negate^[k] core)
    (hf' : f' = Formula.negate^[k'] core') (hcore : core.BoundRenaming core')
    (ht : QuestionTarget.fromFormula sha256 f = .ok t)
    (ht' : QuestionTarget.fromFormula sha256 f' = .ok t') :
    partition sha256 t = partition sha256 t' := by
  obtain rfl := hcore.eq
  obtain ⟨j, inner, hcore, hinner⟩ := core.exists_core
  rw [hcore, ← Function.iterate_add_apply] at hf hf'
  rw [hf] at ht
  rw [hf'] at ht'
  obtain ⟨-, -, -, -, rfl⟩ := (QuestionTarget.fromFormula_eq_ok hinner).mp ht
  obtain ⟨-, -, -, -, rfl⟩ := (QuestionTarget.fromFormula_eq_ok hinner).mp ht'
  rfl

end Training
end Naome
