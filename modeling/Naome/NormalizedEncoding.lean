import Naome.Reconstruction

/-!
# Formula bytes under normalized names

An encoder that renumbers free variables by first occurrence writes the same bytes exactly for
formulas that differ in the names of their free variables only.
-/
namespace Naome
open LocallyNameless FirstOccurrence Outcome VariableNumbering

variable {D : Type}

namespace FormulaCodec

/-- The same charges and the same amount of output. -/
def SameCharge (s t : Encoder) : Prop :=
  s.nodes = t.nodes ∧ s.output.length = t.output.length

variable {fmt : NodeFormat D} {s t : Encoder}

theorem SameCharge.push (h : SameCharge s t) (bytes : List UInt8) (nodes : NodeBudget) :
    SameCharge ({ s with nodes := nodes }.push bytes) ({ t with nodes := nodes }.push bytes) := by
  refine ⟨rfl, ?_⟩
  simp only [Encoder.push, List.length_append, h.2]

theorem SameCharge.encodeVariable (h : SameCharge s t) (x : Variable FreeVariable) :
    SameCharge (encodeVariable x s) (encodeVariable x t) := by
  rw [encodeVariable_eq, encodeVariable_eq]
  refine ⟨h.1, ?_⟩
  simp only [List.length_append, length_variableBytes, h.2]

theorem SameCharge.foldl (h : SameCharge s t) (xs : List (Variable FreeVariable)) :
    SameCharge (xs.foldl (fun s x => FormulaCodec.encodeVariable x s) s)
      (xs.foldl (fun s x => FormulaCodec.encodeVariable x s) t) := by
  induction xs generalizing s t with
  | nil => exact h
  | cons x xs ih => exact ih (h.encodeVariable x)

theorem SameCharge.leaveNode (h : SameCharge s t) :
    Related Eq SameCharge (leaveNode fmt s) (leaveNode fmt t) := by
  unfold FormulaCodec.leaveNode
  cases fmt.byteLimit with
  | none => exact .ok h
  | some maximum =>
    simp only [h.2]
    split_ifs
    · exact .error rfl
    · exact .ok h

theorem SameCharge.enterNode (h : SameCharge s t) (depth : ℕ) :
    Related Eq Eq (enterNode fmt.maximumDepth depth s.nodes)
      (enterNode fmt.maximumDepth depth t.nodes) := by
  rw [h.1]
  cases FormulaCodec.enterNode fmt.maximumDepth depth t.nodes with
  | ok nodes => exact .ok rfl
  | error e => exact .error rfl

/-- Whether and how an encoding fails does not depend on the names. -/
theorem SameCharge.encodeNode (h : SameCharge s t) (n : Node FreeVariable D) (depth : ℕ) :
    Related Eq SameCharge (encodeNode fmt depth n s) (encodeNode fmt depth n t) := by
  induction n generalizing depth s t with
  | equal l r | member l r =>
    refine (h.enterNode depth).bind ?_
    rintro nodes _ rfl
    exact (((h.push _ nodes).encodeVariable l).encodeVariable r).leaveNode
  | not n ih | forAll n ih =>
    refine (h.enterNode depth).bind ?_
    rintro nodes _ rfl
    exact (ih (h.push _ nodes) _).bind fun s t hst => hst.leaveNode
  | implies a b iha ihb =>
    refine (h.enterNode depth).bind ?_
    rintro nodes _ rfl
    refine (iha (h.push _ nodes) _).bind fun s t hst => ?_
    exact (ihb hst _).bind fun s t hst => hst.leaveNode
  | definedRelation symbol xs =>
    refine (h.enterNode depth).bind ?_
    rintro nodes _ rfl
    have hsame : ∀ (p : Prop) [Decidable p] (e : FormulaCodecError),
        Related Eq (fun _ _ => True) (require p e) (require p e) := by
      intro p _ e
      unfold require
      split_ifs
      · exact .ok trivial
      · exact .error rfl
    refine (hsame _ _).bind fun _ _ _ => (hsame _ _).bind fun _ _ _ => ?_
    exact ((h.push _ nodes).foldl xs).leaveNode

end FormulaCodec

open FormulaCodec

/-- Trees whose renamed trees agree differ in their names only. -/
theorem LocallyNameless.Node.exists_renaming {n m : Node FreeVariable D}
    {φ ψ : FreeVariable → FreeVariable} (h : n.mapFree φ = m.mapFree ψ)
    (hφ : Set.InjOn φ {v | v ∈ n.occurrences}) (hψ : Set.InjOn ψ {v | v ∈ m.occurrences}) :
    ∃ g : FreeVariable → FreeVariable, Function.Injective g ∧ n.mapFree g = m := by
  have hocc := congrArg Node.occurrences h
  rw [Node.occurrences_mapFree, Node.occurrences_mapFree] at hocc
  obtain ⟨f, hbij, hf⟩ := Derivation.exists_bijOn hocc hφ hψ
  obtain ⟨g, hg, hgf⟩ := Checker.exists_injective_extension hbij.injOn
  refine ⟨g, hg, ?_⟩
  -- undo the names of `m` on both sides
  let σ := Function.invFunOn ψ {v | v ∈ m.occurrences}
  have hσ : ∀ w ∈ m.occurrences, (σ ∘ ψ) w = id w := fun w hw => hψ.leftInvOn_invFunOn hw
  have himage : ∀ w ∈ (n.mapFree g).occurrences, (σ ∘ ψ) w = id w := by
    intro w hw
    rw [Node.occurrences_mapFree] at hw
    obtain ⟨v, hv, rfl⟩ := List.mem_map.mp hw
    rw [hgf v hv]
    exact hσ _ (hbij.mapsTo hv)
  have hψg : (n.mapFree g).mapFree ψ = m.mapFree ψ := by
    rw [Node.mapFree_mapFree, ← h]
    refine Node.mapFree_congr fun v hv => ?_
    rw [Function.comp_apply, hgf v hv, hf v hv]
  calc n.mapFree g = (n.mapFree g).mapFree (σ ∘ ψ) := by
        rw [Node.mapFree_congr himage, Node.mapFree_id]
    _ = m.mapFree (σ ∘ ψ) := by rw [← Node.mapFree_mapFree, hψg, Node.mapFree_mapFree]
    _ = m := by rw [Node.mapFree_congr hσ, Node.mapFree_id]

theorem VariableNumbering.name_injOn_seeAll (names : List FreeVariable) :
    Set.InjOn (name (seeAll [] names)) {v | v ∈ names} := by
  intro v hv w hw h
  have hnodup := nodup_seeAll List.nodup_nil names
  exact name_injOn hnodup (mem_seeAll.mpr (.inr hv)) (mem_seeAll.mpr (.inr hw)) h

/-- Numbering forgets the names it started from. -/
theorem LocallyNameless.Node.normalize_mapFree {g : FreeVariable → FreeVariable}
    (hg : Function.Injective g) (n : Node FreeVariable D) :
    (n.mapFree g).mapFree (name (seeAll [] (n.mapFree g).occurrences)) =
      n.mapFree (name (seeAll [] n.occurrences)) := by
  rw [Node.occurrences_mapFree, Node.mapFree_mapFree]
  have hseen : seeAll [] (n.occurrences.map g) = (seeAll [] n.occurrences).map g :=
    @seeAll_map _ _ _ _ g [] n.occurrences fun a _ b _ h => hg h
  refine Node.mapFree_congr fun v hv => ?_
  rw [hseen, Function.comp_apply, name, name,
    idxOf_map (fun a _ h => hg h) (mem_seeAll.mpr (.inr hv))]

namespace Formula

/-- The formula whose canonical bytes the normalizing encoder writes. -/
def normalized (f : Formula) : Formula :=
  f.mapFreeVariables (name (seeAll [] f.node.occurrences))

theorem normalizedBytes_eq (f : Formula) : f.normalizedBytes = f.normalized.canonicalBytes := rfl

theorem map_encodeTree (encoding : FreeVariableEncoding) (n : PrimitiveNode) :
    (encodeTree primitiveFormat encoding formulaMaxNodes n).map Prod.fst =
      (encodeNode primitiveFormat 0 n ⟨NodeBudget.new formulaMaxNodes, encoding, []⟩).map
        Encoder.output := by
  unfold encodeTree
  cases encodeNode primitiveFormat 0 n ⟨NodeBudget.new formulaMaxNodes, encoding, []⟩ with
  | ok s => rfl
  | error e => rfl

/-- Both encoders end alike, with outputs of one length. -/
theorem related_encodings (f : Formula) :
    Related Eq (fun a b : List UInt8 => a.length = b.length) f.encodeFreeVariableNormalized
      f.encodeCanonical := by
  have hstart : SameCharge ⟨NodeBudget.new formulaMaxNodes, .normalize .empty, []⟩
      ⟨NodeBudget.new formulaMaxNodes, .preserve, []⟩ := ⟨rfl, rfl⟩
  rw [encodeFreeVariableNormalized, encodeCanonical, encodeCanonicalWithNodeLimit,
    map_encodeTree, map_encodeTree]
  exact (hstart.encodeNode f.node 0).map fun a b h => h.2

theorem encodeFreeVariableNormalized_of_closed {f : Formula} (h : f.isClosed = true) :
    f.encodeFreeVariableNormalized = f.encodeCanonical := by
  have hsame : f.normalized = f := by
    apply Formula.ext
    refine (Node.mapFree_congr fun v hv => ?_).trans f.node.mapFree_id
    rw [isClosed_iff.mp h] at hv
    cases hv
  cases hcanonical : f.encodeCanonical with
  | ok bytes =>
    obtain ⟨hlimits, hbytes⟩ := encodeCanonical_eq_ok.mp hcanonical
    exact encodeFreeVariableNormalized_eq_ok.mpr ⟨hlimits, by rw [hbytes, normalizedBytes_eq, hsame]⟩
  | error e =>
    obtain ⟨e', herror, he⟩ := f.related_encodings.symm.exists_of_error hcanonical
    rw [herror, he]

/-- The normalized bytes are a complete invariant of a formula up to an injective renaming of its
free variables. They have the length of the canonical bytes and exist when these do, and for closed
formulas they are the canonical bytes. -/
theorem freeVariableNormalized_complete :
    (∀ f g : Formula, f.WithinLimits → g.WithinLimits →
      (f.encodeFreeVariableNormalized = g.encodeFreeVariableNormalized ↔
        ∃ rename : FreeVariable → FreeVariable,
          Function.Injective rename ∧ f.mapFreeVariables rename = g)) ∧
    (∀ f : Formula, f.isClosed = true → f.encodeFreeVariableNormalized = f.encodeCanonical) ∧
    ∀ f : Formula, f.encodeFreeVariableNormalized.map List.length =
      f.encodeCanonical.map List.length := by
  refine ⟨?_, fun f => encodeFreeVariableNormalized_of_closed, ?_⟩
  · intro f g hf hg
    have hencode : ∀ {f : Formula}, f.WithinLimits →
        f.encodeFreeVariableNormalized = .ok f.normalized.canonicalBytes :=
      fun h => encodeFreeVariableNormalized_eq_ok.mpr ⟨h, rfl⟩
    rw [hencode hf, hencode hg, Except.ok.injEq]
    constructor
    · intro hbytes
      obtain ⟨hsame, -⟩ := canonicalBytes_append_inj ((withinLimits_mapFreeVariables f).mpr hf)
        ((withinLimits_mapFreeVariables g).mpr hg) (congrArg (· ++ []) hbytes)
      obtain ⟨rename, hinjective, hrename⟩ := Node.exists_renaming (congrArg Formula.node hsame)
        (name_injOn_seeAll _) (name_injOn_seeAll _)
      exact ⟨rename, hinjective, Formula.ext hrename⟩
    · rintro ⟨rename, hinjective, rfl⟩
      have hsame : (f.mapFreeVariables rename).normalized = f.normalized :=
        Formula.ext (Node.normalize_mapFree hinjective f.node)
      rw [hsame]
  · intro f
    cases hcanonical : f.encodeCanonical with
    | ok bytes =>
      obtain ⟨bytes', hnormalized, hlength⟩ := f.related_encodings.symm.exists_of_ok hcanonical
      rw [hnormalized]
      exact congrArg Except.ok hlength
    | error e =>
      obtain ⟨e', herror, he⟩ := f.related_encodings.symm.exists_of_error hcanonical
      rw [herror]
      exact congrArg Except.error he

/-- Other names, the same bytes. -/
theorem freeVariableNormalized_complete_equation :
    (equal ⟨7⟩ ⟨42⟩).encodeFreeVariableNormalized =
      (equal ⟨900⟩ ⟨3⟩).encodeFreeVariableNormalized := by
  have hlimits : ∀ x y : FreeVariable, (equal x y).WithinLimits := by
    intro x y
    constructor
    · change 1 ≤ 65536
      omega
    · change 1 ≤ 256
      omega
  refine (freeVariableNormalized_complete.1 _ _ (hlimits ⟨7⟩ ⟨42⟩) (hlimits ⟨900⟩ ⟨3⟩)).mpr ?_
  let swap := (Equiv.swap (⟨7⟩ : FreeVariable) ⟨900⟩).trans (Equiv.swap ⟨42⟩ ⟨3⟩)
  exact ⟨swap, swap.injective, rfl⟩

end Formula
end Naome
