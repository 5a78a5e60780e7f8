import Naome.KnowledgeIndex
import Naome.LocallyNamelessSemantics

/-!
# Question targets

A question is a closed formula up to its leading negations. The core is cut out of the canonical
bytes; the parity of the negations says which of the core and its negation proves the question.
-/
namespace Naome
open LocallyNameless Outcome ByteCursor FormulaCodec

inductive QuestionError
  | truncated
  | trailingBytes
  | limit (name : String)
  | invalid (reason : String)
  | overflow
  | mathematical (reason : FormulaCodecError)
  deriving DecidableEq, Repr

/-- A bounded closed target and its resolution family. -/
structure QuestionTarget where
  formula : Formula
  core : Formula
  canonicalCore : List UInt8
  negativeTarget : Formula
  negationParity : Bool
  resolutionId : Digest

namespace QuestionTarget

/-- What is hashed for some fields: each one follows its length. -/
def hashInput (domain : List UInt8) (fields : List (List UInt8)) : List UInt8 :=
  domain ++ fields.flatMap fun field => bigEndian 8 field.length ++ field

/-- The message whose hash is the resolution id of a core. -/
def resolutionInput (canonicalCore : List UInt8) : List UInt8 :=
  hashInput (asciiBytes "naome:state:resolution:v1" ++ [0]) [foundationId, canonicalCore]

/-- The number of leading negation tags. -/
def leadingNegations (encoded : List UInt8) : ℕ := (encoded.takeWhile fun tag => tag = 0x02).length

def fromFormula (sha256 : List UInt8 → Digest) (formula : Formula) :
    Except QuestionError QuestionTarget := do
  require (formula.isClosed = true) (.invalid "question has free variables")
  let encoded ← formula.encodeCanonical.mapError .mathematical
  let (nodes, depth) := formula.nodeCountAndDepth
  let leading := leadingNegations encoded
  require (nodes - leading + 1 ≤ questionTargetMaxNodes) (.limit "question target nodes")
  require (depth - leading + 1 ≤ questionTargetMaxDepth) (.limit "question target depth")
  let canonicalCore := encoded.drop leading
  let (core, _) ← (Formula.decodeCanonicalWithNodeLimit canonicalCore questionTargetMaxNodes).mapError
    .mathematical
  return {
    formula
    core
    canonicalCore
    negativeTarget := core.negate
    negationParity := leading % 2 ≠ 0
    resolutionId := sha256 (resolutionInput canonicalCore) }

def positiveTarget (t : QuestionTarget) : Formula := t.core

/-- The formula whose proof answers the question. -/
def provedTarget (t : QuestionTarget) : Formula :=
  if t.negationParity then t.negativeTarget else t.core

/-- The formula whose proof refutes it. -/
def refutedTarget (t : QuestionTarget) : Formula :=
  if t.negationParity then t.core else t.negativeTarget

end QuestionTarget

namespace Formula

theorem exists_core (f : Formula) : ∃ (k : ℕ) (core : Formula),
    f = negate^[k] core ∧ core.negated = none := by
  obtain ⟨n, hn⟩ := f
  induction n with
  | not n ih =>
    obtain ⟨k, core, hf, hcore⟩ := ih hn
    refine ⟨k + 1, core, ?_, hcore⟩
    rw [Function.iterate_succ_apply', ← hf]
    rfl
  | equal l r | member l r | implies a b | forAll n => exact ⟨0, _, rfl, rfl⟩
  | definedRelation s => exact s.elim

theorem canonicalBytes_negate_iterate (k : ℕ) (core : Formula) :
    (negate^[k] core).canonicalBytes = List.replicate k 0x02 ++ core.canonicalBytes := by
  induction k with
  | zero => rfl
  | succ k ih =>
    rw [Function.iterate_succ_apply', List.replicate_succ, List.cons_append, ← ih]
    rfl

theorem takeWhile_canonicalBytes {core : Formula} (h : core.negated = none) :
    (core.canonicalBytes.takeWhile fun tag => tag = 0x02) = [] := by
  obtain ⟨n, hn⟩ := core
  cases n with
  | not n => cases h
  | definedRelation s => exact s.elim
  | equal l r | member l r | implies a b | forAll n => rfl

/-- The tags counted in the bytes are the leading negations. -/
theorem leadingNegations_canonicalBytes (k : ℕ) {core : Formula} (h : core.negated = none) :
    QuestionTarget.leadingNegations (negate^[k] core).canonicalBytes = k := by
  rw [QuestionTarget.leadingNegations, canonicalBytes_negate_iterate, List.takeWhile_append_of_pos,
    takeWhile_canonicalBytes h, List.append_nil, List.length_replicate]
  intro tag htag
  simp [List.eq_of_mem_replicate htag]

theorem nodeCountAndDepth_negate_iterate (k : ℕ) (core : Formula) :
    (negate^[k] core).nodeCountAndDepth = (core.node.nodeCount + k, core.node.depth + k) := by
  induction k with
  | zero => rfl
  | succ k ih =>
    have hnode : (negate^[k + 1] core).nodeCountAndDepth =
        ((negate^[k] core).nodeCountAndDepth.1 + 1, (negate^[k] core).nodeCountAndDepth.2 + 1) := by
      rw [Function.iterate_succ_apply']
      simp [nodeCountAndDepth, negate, Node.nodeCount, Node.depth, Nat.add_comm]
    rw [hnode, ih]
    simp [Nat.add_assoc]

theorem isClosed_negate_iterate (k : ℕ) (core : Formula) :
    (negate^[k] core).isClosed = core.isClosed := by
  induction k with
  | zero => rfl
  | succ k ih =>
    rw [Function.iterate_succ_apply', ← ih]
    rfl

/-- Negations cancel in pairs. -/
theorem holds_negate_iterate {M : Type*} {E : M → M → Prop} {ρ : FreeVariable → M} (k : ℕ)
    (core : Formula) : (negate^[k] core).Holds E ρ ↔ if k % 2 = 0 then core.Holds E ρ
      else ¬ core.Holds E ρ := by
  induction k with
  | zero => rfl
  | succ k ih =>
    rw [Function.iterate_succ_apply', holds_negate, ih]
    rcases Nat.mod_two_eq_zero_or_one k with hk | hk
    · rw [if_pos hk, if_neg (by omega)]
    · rw [if_neg (by omega), if_pos (by omega), not_not]

/-- Leading negations are determined by the formula. -/
theorem negate_iterate_inj {k k' : ℕ} {core core' : Formula} (h : core.negated = none)
    (h' : core'.negated = none) (heq : negate^[k] core = negate^[k'] core') :
    k = k' ∧ core = core' := by
  have hk : k = k' := by
    rw [← leadingNegations_canonicalBytes k h, ← leadingNegations_canonicalBytes k' h', heq]
  subst hk
  have hinjective : Function.Injective negate := by
    intro f g hfg
    exact Formula.ext (Node.not.inj (congrArg node hfg))
  exact ⟨rfl, hinjective.iterate k heq⟩

end Formula

namespace QuestionTarget

variable {sha256 : List UInt8 → Digest}

/-- The target of a formula with `k` leading negations. -/
def ofCore (sha256 : List UInt8 → Digest) (k : ℕ) (core : Formula) : QuestionTarget where
  formula := Formula.negate^[k] core
  core := core
  canonicalCore := core.canonicalBytes
  negativeTarget := core.negate
  negationParity := k % 2 ≠ 0
  resolutionId := sha256 (resolutionInput core.canonicalBytes)

theorem fromFormula_eq_ok {k : ℕ} {core : Formula} (h : core.negated = none) {t : QuestionTarget} :
    fromFormula sha256 (Formula.negate^[k] core) = .ok t ↔
      core.isClosed = true ∧ (Formula.negate^[k] core).WithinLimits ∧
        core.node.nodeCount + 1 ≤ questionTargetMaxNodes ∧
        core.node.depth + 1 ≤ questionTargetMaxDepth ∧ t = ofCore sha256 k core := by
  have hdrop : (Formula.negate^[k] core).canonicalBytes.drop k = core.canonicalBytes := by
    rw [Formula.canonicalBytes_negate_iterate, List.drop_left' (List.length_replicate ..)]
  simp only [fromFormula, bind_eq_ok, mapError_eq_ok, require_eq_ok, exists_const, pure_eq_ok,
    Formula.encodeCanonical_eq_ok, Formula.nodeCountAndDepth_negate_iterate, Prod.exists,
    Formula.decodeCanonicalWithNodeLimit_eq_ok, Formula.isClosed_negate_iterate]
  have hcore : (Formula.negate^[k] core).WithinLimits → core.WithinLimits := by
    intro hw
    have hpair := Formula.nodeCountAndDepth_negate_iterate k core
    simp only [Formula.nodeCountAndDepth, Prod.mk.injEq] at hpair
    rw [Formula.WithinLimits, hpair.1, hpair.2] at hw
    exact ⟨by omega, by omega⟩
  constructor
  · intro hrun
    obtain ⟨hclosed, _, ⟨hw, rfl⟩, hnodes, hdepth, core', _, ⟨hw', -, -, hbytes⟩, ht⟩ := hrun
    rw [Formula.leadingNegations_canonicalBytes k h] at hnodes hdepth hbytes ht
    rw [hdrop] at hbytes ht
    have heq : core = core' := by
      have happend : core.canonicalBytes ++ [] = core'.canonicalBytes ++ [] := by rw [hbytes]
      exact (Formula.canonicalBytes_append_inj (hcore hw) hw' happend).1
    subst heq ht
    rw [Nat.add_sub_cancel] at hnodes hdepth
    exact ⟨hclosed, hw, hnodes, hdepth, rfl⟩
  · rintro ⟨hclosed, hw, hnodes, hdepth, ht⟩
    refine ⟨hclosed, _, ⟨hw, rfl⟩, ?_⟩
    rw [Formula.leadingNegations_canonicalBytes k h, hdrop, Nat.add_sub_cancel, Nat.add_sub_cancel]
    exact ⟨hnodes, hdepth, core, _, ⟨hcore hw, by omega, rfl, rfl⟩, ht.symm⟩

/-- An accepted formula is a core behind leading negations. -/
theorem exists_of_fromFormula {f : Formula} {t : QuestionTarget}
    (h : fromFormula sha256 f = .ok t) : ∃ k core, core.negated = none ∧
      f = Formula.negate^[k] core ∧ core.isClosed = true ∧
      core.node.nodeCount + 1 ≤ questionTargetMaxNodes ∧
      core.node.depth + 1 ≤ questionTargetMaxDepth ∧ t = ofCore sha256 k core := by
  obtain ⟨k, core, rfl, hcore⟩ := f.exists_core
  obtain ⟨hclosed, -, hnodes, hdepth, ht⟩ := (fromFormula_eq_ok hcore).mp h
  exact ⟨k, core, hcore, rfl, hclosed, hnodes, hdepth, ht⟩

theorem parity_ofCore (k : ℕ) (core : Formula) :
    (ofCore sha256 k core).negationParity = decide (k % 2 ≠ 0) := rfl

/-- The target to prove is the core with the parity of the negations. -/
theorem targets_ofCore (sha256 : List UInt8 → Digest) (k : ℕ) (core : Formula) :
    (ofCore sha256 k core).provedTarget = (if k % 2 = 0 then core else core.negate) ∧
      (ofCore sha256 k core).refutedTarget = if k % 2 = 0 then core.negate else core := by
  rcases Nat.mod_two_eq_zero_or_one k with hk | hk
  · simp [provedTarget, refutedTarget, ofCore, hk]
  · simp [provedTarget, refutedTarget, ofCore, hk]

theorem resolutionInput_inj {b b' : List UInt8} (h : resolutionInput b = resolutionInput b') :
    b = b' := by
  simp only [resolutionInput, hashInput, List.flatMap_cons, List.flatMap_nil, List.append_nil,
    List.append_assoc] at h
  have htail := List.append_cancel_left (List.append_cancel_left (List.append_cancel_left
    (List.append_cancel_left h)))
  exact (List.append_inj htail (by simp)).2

/-- The targets are true where the formula is true and where it is false. -/
theorem holds_targets {M : Type*} (E : M → M → Prop) (ρ : FreeVariable → M) (k : ℕ)
    (core : Formula) :
    ((ofCore sha256 k core).provedTarget.Holds E ρ ↔ (Formula.negate^[k] core).Holds E ρ) ∧
      ((ofCore sha256 k core).refutedTarget.Holds E ρ ↔
        ¬ (Formula.negate^[k] core).Holds E ρ) := by
  obtain ⟨hproved, hrefuted⟩ := targets_ofCore sha256 k core
  rw [hproved, hrefuted, Formula.holds_negate_iterate]
  split_ifs
  · exact ⟨Iff.rfl, Iff.rfl⟩
  · exact ⟨Iff.rfl, not_not.symm⟩

/-- Every target is the core or its negation. -/
theorem mem_targets {k : ℕ} {core target : Formula}
    (h : target ∈ [(ofCore sha256 k core).positiveTarget, (ofCore sha256 k core).negativeTarget,
      (ofCore sha256 k core).provedTarget, (ofCore sha256 k core).refutedTarget]) :
    target = core ∨ target = core.negate := by
  obtain ⟨hproved, hrefuted⟩ := targets_ofCore sha256 k core
  rw [hproved, hrefuted] at h
  simp only [List.mem_cons, List.not_mem_nil, or_false] at h
  rcases h with rfl | rfl | rfl | rfl
  · exact .inl rfl
  · exact .inr rfl
  · split_ifs <;> simp
  · split_ifs <;> simp

theorem withinLimits_core {core : Formula} (hnodes : core.node.nodeCount + 1 ≤ questionTargetMaxNodes)
    (hdepth : core.node.depth + 1 ≤ questionTargetMaxDepth) : core.WithinLimits := by
  unfold questionTargetMaxNodes at hnodes
  unfold questionTargetMaxDepth at hdepth
  unfold Formula.WithinLimits formulaMaxNodes formulaMaxDepth
  omega

theorem isClosed_targets (sha256 : List UInt8 → Digest) (k : ℕ) {core : Formula}
    (hclosed : core.isClosed = true) :
    ∀ target ∈ [(ofCore sha256 k core).positiveTarget, (ofCore sha256 k core).negativeTarget,
      (ofCore sha256 k core).provedTarget, (ofCore sha256 k core).refutedTarget],
      target.isClosed = true := by
  intro target htarget
  rcases mem_targets htarget with rfl | rfl
  · exact hclosed
  · exact hclosed

/-- The four targets keep the limits of a question. -/
theorem limits_targets {k : ℕ} {core target : Formula}
    (hnodes : core.node.nodeCount + 1 ≤ questionTargetMaxNodes)
    (hdepth : core.node.depth + 1 ≤ questionTargetMaxDepth)
    (htarget : target ∈ [(ofCore sha256 k core).positiveTarget,
      (ofCore sha256 k core).negativeTarget, (ofCore sha256 k core).provedTarget,
      (ofCore sha256 k core).refutedTarget]) :
    target.node.nodeCount ≤ 1024 ∧ target.node.depth ≤ 32 := by
  have hsize : core.negate.node.nodeCount = core.node.nodeCount + 1 ∧
      core.negate.node.depth = core.node.depth + 1 := by
    simp [Formula.negate, Node.nodeCount, Node.depth, Nat.add_comm]
  unfold questionTargetMaxNodes at hnodes
  unfold questionTargetMaxDepth at hdepth
  rcases mem_targets htarget with rfl | rfl
  · exact ⟨by omega, by omega⟩
  · exact ⟨by omega, by omega⟩

/-- A structure is a model of one target where it is a model of the formula, and of the other where
it is none. -/
theorem models_targets {M : Type*} [Nonempty M] (E : M → M → Prop) (k : ℕ) {core : Formula}
    (hclosed : core.isClosed = true) :
    ((ofCore sha256 k core).provedTarget.Models E ↔ (Formula.negate^[k] core).Models E) ∧
      ((ofCore sha256 k core).refutedTarget.Models E ↔ ¬ (Formula.negate^[k] core).Models E) := by
  obtain ⟨a⟩ := ‹Nonempty M›
  have hmodels : ∀ {g : Formula}, g.isClosed = true → (g.Models E ↔ g.Holds E fun _ => a) :=
    fun hg => Formula.models_iff_holds hg
  have hcloses := isClosed_targets sha256 k hclosed
  have hproved := hcloses (ofCore sha256 k core).provedTarget (by simp)
  have hrefuted := hcloses (ofCore sha256 k core).refutedTarget (by simp)
  have hiterate := Formula.isClosed_negate_iterate k core
  rw [hclosed] at hiterate
  rw [hmodels hproved, hmodels hrefuted, hmodels hiterate]
  exact holds_targets E (fun _ => a) k core

/-- The resolution ids of formulas are equal where the formulas differ in leading negations only,
unless the two cores collide. -/
theorem resolutionId_eq_iff {f f' : Formula} {t t' : QuestionTarget}
    (h : fromFormula sha256 f = .ok t) (h' : fromFormula sha256 f' = .ok t')
    (hinj : Set.InjOn sha256 {resolutionInput t.canonicalCore, resolutionInput t'.canonicalCore}) :
    t.resolutionId = t'.resolutionId ↔
      ∃ k k' core, f = Formula.negate^[k] core ∧ f' = Formula.negate^[k'] core := by
  obtain ⟨k, core, hcore, rfl, -, hnodes, hdepth, rfl⟩ := exists_of_fromFormula h
  obtain ⟨k', core', hcore', rfl, -, hnodes', hdepth', rfl⟩ := exists_of_fromFormula h'
  constructor
  · intro hid
    have hinput := hinj (Set.mem_insert _ _) (Set.mem_insert_of_mem _ (Set.mem_singleton _)) hid
    have hbytes : core.canonicalBytes ++ [] = core'.canonicalBytes ++ [] :=
      congrArg (· ++ []) (resolutionInput_inj hinput)
    obtain ⟨rfl, -⟩ := Formula.canonicalBytes_append_inj (withinLimits_core hnodes hdepth)
      (withinLimits_core hnodes' hdepth') hbytes
    exact ⟨k, k', core, rfl, rfl⟩
  · rintro ⟨m, m', inner, hf, hf'⟩
    obtain ⟨j, innermost, rfl, hinnermost⟩ := inner.exists_core
    rw [← Function.iterate_add_apply] at hf hf'
    obtain ⟨-, rfl⟩ := Formula.negate_iterate_inj hcore hinnermost hf
    obtain ⟨-, rfl⟩ := Formula.negate_iterate_inj hcore' hinnermost hf'
    rfl

/-- Targets resolve consistently under negation: a formula and its negation have one core and one
resolution id, opposite parities and exchanged targets; the targets are true where the formula is
true and where it is false; formulas with one resolution id differ in leading negations only, and
the targets keep the limits of a question. -/
theorem targets_resolve.{u} (sha256 : List UInt8 → Digest) :
    (∀ f t t', fromFormula sha256 f = .ok t → fromFormula sha256 f.negate = .ok t' →
      t'.core = t.core ∧ t'.resolutionId = t.resolutionId ∧
      t'.negationParity = !t.negationParity ∧ t'.provedTarget = t.refutedTarget ∧
      t'.refutedTarget = t.provedTarget) ∧
    (∀ f t, fromFormula sha256 f = .ok t →
      (∀ (M : Type u) (E : M → M → Prop) (ρ : FreeVariable → M),
        (t.provedTarget.Holds E ρ ↔ f.Holds E ρ) ∧ (t.refutedTarget.Holds E ρ ↔ ¬ f.Holds E ρ)) ∧
      (∀ (M : Type u) [Nonempty M] (E : M → M → Prop),
        (t.provedTarget.Models E ↔ f.Models E) ∧ (t.refutedTarget.Models E ↔ ¬ f.Models E)) ∧
      ∀ target ∈ [t.positiveTarget, t.negativeTarget, t.provedTarget, t.refutedTarget],
        target.isClosed = true ∧ target.node.nodeCount ≤ 1024 ∧ target.node.depth ≤ 32) ∧
    ∀ f f' t t', fromFormula sha256 f = .ok t → fromFormula sha256 f' = .ok t' →
      Set.InjOn sha256 {resolutionInput t.canonicalCore, resolutionInput t'.canonicalCore} →
      (t.resolutionId = t'.resolutionId ↔
        ∃ k k' core, f = Formula.negate^[k] core ∧ f' = Formula.negate^[k'] core) := by
  refine ⟨?_, ?_, ?_⟩
  · intro f t t' h h'
    obtain ⟨k, core, hcore, rfl, -, -, -, rfl⟩ := exists_of_fromFormula h
    rw [← Function.iterate_succ_apply' Formula.negate] at h'
    obtain ⟨-, -, -, -, rfl⟩ := (fromFormula_eq_ok hcore).mp h'
    obtain ⟨hproved, hrefuted⟩ := targets_ofCore sha256 k core
    obtain ⟨hproved', hrefuted'⟩ := targets_ofCore sha256 (k + 1) core
    rw [hproved, hrefuted, hproved', hrefuted', parity_ofCore, parity_ofCore]
    refine ⟨rfl, rfl, ?_⟩
    rcases Nat.mod_two_eq_zero_or_one k with hk | hk
    · simp [hk, Nat.add_mod]
    · simp [hk, Nat.add_mod]
  · intro f t h
    obtain ⟨k, core, -, rfl, hclosed, hnodes, hdepth, rfl⟩ := exists_of_fromFormula h
    exact ⟨fun M E ρ => holds_targets E ρ k core, fun M _ E => models_targets E k hclosed,
      fun target htarget => ⟨isClosed_targets sha256 k hclosed target htarget,
        limits_targets hnodes hdepth htarget⟩⟩
  · intro f f' t t' h h' hinj
    exact resolutionId_eq_iff h h' hinj

namespace Opposed

/-- A digest that tells short messages apart. -/
def digest (bytes : List UInt8) : Digest :=
  BitVec.ofNat 256 (bytes.foldl (fun value byte => 31 * value + byte.toNat) 0)

/-- Every set is equal to itself. -/
def reflexivity : Formula := .forAll ⟨0⟩ (.equal ⟨0⟩ ⟨0⟩)

/-- No set is a member of itself. -/
def irreflexivity : Formula := .forAll ⟨0⟩ (.negate (.member ⟨0⟩ ⟨0⟩))

theorem fromFormula_negate :
    fromFormula digest (Formula.negate^[1] reflexivity) = .ok (ofCore digest 1 reflexivity) :=
  (fromFormula_eq_ok rfl).2 ⟨rfl, ⟨by decide, by decide⟩, by decide, by decide, rfl⟩

theorem fromFormula_negate_negate :
    fromFormula digest (Formula.negate^[2] reflexivity) = .ok (ofCore digest 2 reflexivity) :=
  (fromFormula_eq_ok rfl).2 ⟨rfl, ⟨by decide, by decide⟩, by decide, by decide, rfl⟩

theorem fromFormula_irreflexivity :
    fromFormula digest (Formula.negate^[0] irreflexivity) = .ok (ofCore digest 0 irreflexivity) :=
  (fromFormula_eq_ok rfl).2 ⟨rfl, ⟨by decide, by decide⟩, by decide, by decide, rfl⟩

theorem digest_ne : digest (resolutionInput irreflexivity.canonicalBytes) ≠
    digest (resolutionInput reflexivity.canonicalBytes) := by
  decide +kernel

end Opposed

open Opposed in
/-- A refuted question and its negation, and a question of another family. -/
theorem targets_resolve_negated : ∃ t t' other, fromFormula digest reflexivity.negate = .ok t ∧
    fromFormula digest reflexivity.negate.negate = .ok t' ∧ fromFormula digest irreflexivity = .ok other ∧
    t'.resolutionId = t.resolutionId ∧ t'.provedTarget = t.refutedTarget ∧
    (∀ E : ℕ → ℕ → Prop, t.refutedTarget.Models E ∧ ¬ t.provedTarget.Models E) ∧
    t.provedTarget.node.nodeCount ≤ 1024 ∧ other.resolutionId ≠ t.resolutionId ∧
    ¬ ∃ k k' core, irreflexivity = Formula.negate^[k] core ∧
      reflexivity.negate = Formula.negate^[k'] core := by
  obtain ⟨hnegate, hformula, hfamily⟩ := targets_resolve.{0} digest
  obtain ⟨-, hid, -, hproved, -⟩ :=
    hnegate reflexivity.negate _ _ fromFormula_negate fromFormula_negate_negate
  obtain ⟨-, hmodels, htargets⟩ := hformula reflexivity.negate _ fromFormula_negate
  have hne : (ofCore digest 0 irreflexivity).resolutionId ≠ (ofCore digest 1 reflexivity).resolutionId :=
    digest_ne
  refine ⟨_, _, _, fromFormula_negate, fromFormula_negate_negate, fromFormula_irreflexivity, hid,
    hproved, ?_, (htargets _ (by simp)).2.1, hne, ?_⟩
  · intro E
    have hmodel : ¬ reflexivity.negate.Models E := fun h => h (fun _ => 0) fun a => rfl
    exact ⟨(hmodels ℕ E).2.2 hmodel, fun h => hmodel ((hmodels ℕ E).1.1 h)⟩
  · rw [← hfamily irreflexivity reflexivity.negate _ _ fromFormula_irreflexivity fromFormula_negate]
    · exact hne
    · exact Set.injOn_pair.2 fun heq => absurd heq digest_ne

end QuestionTarget
end Naome
