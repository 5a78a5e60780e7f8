import Naome.ContextStorage
import Naome.TrainingSelection

/-!
# The closures of training examples

The examples of a selection are complete closures of checked artifacts within one part of the split,
and the pages of the selection come to every artifact.
-/
namespace Naome
namespace Training
open Outcome DeferredSearch

variable {sha256 : List UInt8 → Digest} {parse : Formula → Except String Formula}
  {limits : TrainingLimits} {g : TrainingGraph} {artifacts : List GraphArtifact}
  {witness : StatementId → Option ArtifactId}

namespace TrainingGraph

theorem map_toNat_ascending (ids : Finset ArtifactId) :
    (ascending ids).map BitVec.toNat = (ids.image BitVec.toNat).sort (· ≤ ·) := by
  rw [ascending, List.map_map]
  conv_rhs => rw [← List.map_id ((ids.image BitVec.toNat).sort (· ≤ ·))]
  apply List.map_congr_left
  intro n hn
  rw [Finset.mem_sort, Finset.mem_image] at hn
  obtain ⟨id, -, rfl⟩ := hn
  simp

theorem mem_ascending {ids : Finset ArtifactId} {id : ArtifactId} : id ∈ ascending ids ↔ id ∈ ids := by
  rw [ascending, List.mem_map]
  constructor
  · rintro ⟨n, hn, heq⟩
    rw [Finset.mem_sort, Finset.mem_image] at hn
    obtain ⟨id', hid', rfl⟩ := hn
    have hsame : id' = id := by simpa using heq
    rwa [← hsame]
  · intro hid
    refine ⟨id.toNat, ?_, by simp⟩
    rw [Finset.mem_sort]
    exact Finset.mem_image_of_mem _ hid

theorem pairwise_ascending (ids : Finset ArtifactId) :
    (ascending ids).Pairwise fun a b => a.toNat < b.toNat := by
  rw [← List.pairwise_map (R := (· < ·)) (f := BitVec.toNat), map_toNat_ascending]
  exact (Finset.sortedLT_sort _).pairwise

theorem nodup_ascending (ids : Finset ArtifactId) : (ascending ids).Nodup := by
  apply (pairwise_ascending ids).imp
  intro a b hlt heq
  rw [heq] at hlt
  exact lt_irrefl _ hlt

theorem ascending_eq {ids : Finset ArtifactId} (l : List ArtifactId)
    (hsorted : l.Pairwise fun a b => a.toNat < b.toNat) (hmem : ∀ id, id ∈ l ↔ id ∈ ids) :
    ascending ids = l := by
  have hnodup : l.Nodup := by
    apply hsorted.imp
    intro a b hlt heq
    rw [heq] at hlt
    exact lt_irrefl _ hlt
  have hperm : (ascending ids).Perm l := by
    rw [List.perm_ext_iff_of_nodup (nodup_ascending ids) hnodup]
    intro id
    rw [mem_ascending, hmem]
  apply hperm.eq_of_pairwise _ (pairwise_ascending ids) hsorted
  intro a b _ _ hab hba
  exact absurd hab (lt_asymm hba)

theorem artifact_eq_some {id : ArtifactId} {a : GraphArtifact} (h : g.artifact id = some a) :
    a ∈ g.artifacts ∧ a.object.id = id := by
  have hid := List.find?_some h
  exact ⟨List.mem_of_find?_eq_some h, of_decide_eq_true hid⟩

/-- What an artifact depends on, in the order in which it is pushed. -/
def children (g : TrainingGraph) (id : ArtifactId) : List ArtifactId :=
  match g.artifact id with
  | some a => ascending a.object.dependencies
  | none => []

def objectOf (g : TrainingGraph) (id : ArtifactId) : BinaryArtifact :=
  ((g.artifact id).map GraphArtifact.object).getD ⟨id, none, none, [], ∅⟩

theorem objectOf_id (g : TrainingGraph) (id : ArtifactId) : (g.objectOf id).id = id := by
  unfold objectOf
  cases h : g.artifact id with
  | none => rfl
  | some a => exact (artifact_eq_some h).2

end TrainingGraph

open TrainingGraph

theorem Admitted.checked (h : Admitted sha256 artifacts) : ∀ a ∈ artifacts, a.Checked sha256 := by
  induction h with
  | empty => simp
  | append _ hchecked _ _ ih =>
    intro b hb
    rcases List.mem_append.mp hb with hold | hlast
    · exact ih b hold
    · rw [List.mem_singleton] at hlast
      subst hlast
      exact hchecked

/-- Dependencies rank below their dependents. -/
theorem Admitted.exists_rank (h : Admitted sha256 artifacts) : ∃ rank : ArtifactId → ℕ,
    ∀ a ∈ artifacts, ∀ d ∈ a.object.dependencies,
      (∃ b ∈ artifacts, b.object.id = d) ∧ rank d < rank a.object.id := by
  induction h with
  | empty => exact ⟨fun _ => 0, by simp⟩
  | @append artifacts _ a _ hnew hdependencies ih =>
    obtain ⟨rank, hrank⟩ := ih
    let top := (artifacts.map fun b => rank b.object.id).sum + 1
    have htop : ∀ b ∈ artifacts, rank b.object.id < top := by
      intro b hb
      exact Nat.lt_succ_of_le (List.le_sum_of_mem (List.mem_map_of_mem hb))
    refine ⟨Function.update rank a.object.id top, ?_⟩
    intro b hb d hd
    rcases List.mem_append.mp hb with hold | hlast
    · obtain ⟨⟨b', hb', rfl⟩, hlt⟩ := hrank b hold d hd
      refine ⟨⟨b', List.mem_append_left _ hb', rfl⟩, ?_⟩
      rw [Function.update_of_ne (hnew b' hb'), Function.update_of_ne (hnew b hold)]
      exact hlt
    · rw [List.mem_singleton] at hlast
      subst hlast
      obtain ⟨b', hb', rfl⟩ := hdependencies d hd
      refine ⟨⟨b', List.mem_append_left _ hb', rfl⟩, ?_⟩
      rw [Function.update_of_ne (hnew b' hb'), Function.update_self]
      exact htop b' hb'

/-- A limit of dependencies does not change them. -/
theorem dependencies_eq {id : ArtifactId} {statement : Option StatementId}
    {obligation : Option ProofId} {bytes : List UInt8} {maximum maximum' : ℕ} {c c' : Candidate}
    (h : prepareCandidate sha256 id statement obligation bytes maximum = .ok c)
    (h' : prepareCandidate sha256 id statement obligation bytes maximum' = .ok c') :
    c'.dependencies = c.dependencies := by
  have hsame : ∀ {payload : CandidatePayload} {d d' : Finset ArtifactId},
      candidateDependencies sha256 id obligation maximum payload = .ok d →
      candidateDependencies sha256 id obligation maximum' payload = .ok d' → d' = d := by
    intro payload d d' hd hd'
    cases payload with
    | definition certificate =>
      cases hd
      cases hd'
      rfl
    | proof normal =>
      simp only [candidateDependencies, dependenciesWithLimit, bind_eq_ok, require_eq_ok,
        pure_eq_ok, exists_and_left, exists_const] at hd hd'
      rw [← hd.2.2, ← hd'.2.2]
  simp only [prepareCandidate, bind_eq_ok, require_eq_ok, pure_eq_ok, exists_and_left,
    exists_const] at h h'
  obtain ⟨payload, hpayload, -, -, -, d, hd, -, rfl⟩ := h
  obtain ⟨payload', hpayload', -, -, -, d', hd', -, rfl⟩ := h'
  rw [hpayload] at hpayload'
  cases hpayload'
  exact hsame hd hd'

/-- A proof of the training part. -/
def States (sha256 : List UInt8 → Digest) (parse : Formula → Except String Formula)
    (limits : TrainingLimits) (g : TrainingGraph) (id : ArtifactId) (m : Metadata)
    (question : QuestionTarget) : Prop :=
  describe sha256 limits g id = some m ∧ m.compile sha256 parse = .ok (m.statement, question) ∧
    partition sha256 question = .training

def Eligible (sha256 : List UInt8 → Digest) (parse : Formula → Except String Formula)
    (limits : TrainingLimits) (g : TrainingGraph) (id : ArtifactId) : Prop :=
  ∀ c normal, prepareObject sha256 (g.objectOf id) = .ok c → c.payload = .proof normal →
    ∃ m question, States sha256 parse limits g id m question

/-- What the search knows about what it has entered. -/
structure Loading (sha256 : List UInt8 → Digest) (parse : Formula → Except String Formula)
    (limits : TrainingLimits) (g : TrainingGraph) (root : ArtifactId) (state : LoadState)
    (seen : Finset ArtifactId) : Prop where
  eligible : ∀ id ∈ seen, Eligible sha256 parse limits g id
  present : ∀ id ∈ seen, (g.artifact id).isSome = true
  target : ∀ question refuted, state.target = some (question, refuted) →
    ∃ m positive, States sha256 parse limits g root m question ∧
      targetId sha256 question.positiveTarget = .ok positive ∧
      refuted = decide (m.statement ≠ positive)

theorem compile_statement {m : Metadata} {statement : StatementId} {question : QuestionTarget}
    (h : m.compile sha256 parse = .ok (statement, question)) : statement = m.statement := by
  simp only [Metadata.compile, bind_eq_ok, pure_eq_ok] at h
  obtain ⟨_, _, _, _, _, _, _, _, _, _, heq⟩ := h
  exact (congrArg Prod.fst heq).symm

/-- Entering an artifact checks it, and pushes what it depends on. -/
theorem enters_enter (hchecked : ∀ a ∈ g.artifacts, a.Checked sha256) (root : ArtifactId) :
    Enters (enter sha256 parse limits g root) g.objectOf g.children
      (Loading sha256 parse limits g root) := by
  constructor
  intro id state object cs state' hrun
  simp only [enter, bind_eq_ok, orError_eq_ok, require_eq_ok, mapError_eq_ok, pure_eq_ok,
    exists_and_left, exists_const] at hrun
  obtain ⟨a, ha, -, hprogram, c, hprepare, ⟨cost, target⟩, hpayload, -, heq⟩ := hrun
  cases heq
  have hobject : g.objectOf id = a.object := by
    rw [objectOf, ha]
    rfl
  have hid := (artifact_eq_some ha).2
  have hdependencies : c.dependencies = a.object.dependencies := by
    obtain ⟨maximum, c', hprepared, hrecord⟩ :=
      (hchecked a (artifact_eq_some ha).1).prepared hprogram
    simp only [prepareObject, bind_eq_ok, require_eq_ok, exists_and_left, exists_const] at hprepare
    rw [dependencies_eq hprepared hprepare.2, ← hrecord]
    rfl
  refine ⟨hobject.symm, ?_, ?_⟩
  · rw [children, ha, hdependencies]
  · intro seen hseen hloading
    have hpresent : ∀ x ∈ insert id seen, (g.artifact x).isSome = true := by
      intro x hx
      rcases Finset.mem_insert.mp hx with rfl | hold
      · rw [ha]
        rfl
      · exact hloading.present x hold
    cases hc : c.payload with
    | definition certificate =>
      rw [hc] at hpayload
      cases hpayload
      refine ⟨?_, hpresent, hloading.target⟩
      intro x hx
      rcases Finset.mem_insert.mp hx with rfl | hold
      · intro c' normal hc' hnormal
        rw [hobject, hprepare] at hc'
        cases hc'
        rw [hc] at hnormal
        cases hnormal
      · exact hloading.eligible x hold
    | proof normal =>
      rw [hc] at hpayload
      simp only [account, bind_eq_ok, orError_eq_ok, require_eq_ok, mapError_eq_ok,
        exists_and_left, exists_const] at hpayload
      obtain ⟨m, hm, ⟨statement, question⟩, hcompile, hpartition, hpayload⟩ := hpayload
      have hstatement := compile_statement hcompile
      subst hstatement
      have hstates : States sha256 parse limits g id m question := ⟨hm, hcompile, hpartition⟩
      refine ⟨?_, hpresent, ?_⟩
      · intro x hx
        rcases Finset.mem_insert.mp hx with rfl | hold
        · intro _ _ _ _
          exact ⟨m, question, hstates⟩
        · exact hloading.eligible x hold
      · intro question' refuted htarget
        dsimp only at hpayload htarget
        split_ifs at hpayload with hroot
        · subst hroot
          simp only [bind_eq_ok, mapError_eq_ok, pure_eq_ok] at hpayload
          obtain ⟨positive, hpositive, heq⟩ := hpayload
          cases heq
          cases htarget
          exact ⟨m, positive, hstates, hpositive, rfl⟩
        · rw [pure_eq_ok] at hpayload
          cases hpayload
          exact hloading.target question' refuted htarget

/-- A proof of the training part is entered within the limits. -/
theorem enter_proof {root id : ArtifactId} {state : LoadState} {a : GraphArtifact}
    {header : CheckedHeader} {c : Candidate} {normal : ProofNormalForm} {m : Metadata}
    {question : QuestionTarget} {positive : StatementId} (ha : g.artifact id = some a)
    (hheader : a.header = some header) (hprogram : a.object.bytes.head? ≠ some 0xff)
    (hc : prepareObject sha256 a.object = .ok c) (hnormal : c.payload = .proof normal)
    (hstates : States sha256 parse limits g id m question)
    (hpositive : targetId sha256 question.positiveTarget = .ok positive)
    (hbytes : state.bytes + header.canonicalLength ≤ limits.closureBytes ∧
      header.canonicalLength ≤ limits.proofBytes)
    (hcost : state.cost + normal.certificate.steps.length ≤ limits.closureSteps) :
    enter sha256 parse limits g root id state =
      .ok (a.object, ascending c.dependencies, ⟨state.bytes + header.canonicalLength,
        state.cost + normal.certificate.steps.length,
        if id = root then some (question, decide (m.statement ≠ positive)) else state.target⟩) := by
  obtain ⟨hdescribe, hcompile, htraining⟩ := hstates
  simp only [enter, bind_eq_ok, orError_eq_ok, require_eq_ok, mapError_eq_ok, pure_eq_ok,
    exists_and_left, exists_const]
  refine ⟨a, ha, ?_, hprogram, c, hc,
    ⟨state.cost + normal.certificate.steps.length,
      if id = root then some (question, decide (m.statement ≠ positive)) else state.target⟩,
    ?_, hcost, ?_⟩
  · rw [hheader]
    exact hbytes
  · rw [hnormal]
    simp only [account, bind_eq_ok, orError_eq_ok, require_eq_ok, mapError_eq_ok,
      exists_and_left, exists_const]
    refine ⟨m, hdescribe, _, hcompile, htraining, ?_⟩
    dsimp only
    split_ifs with hroot
    · simp only [hpositive, Except.mapError]
      rfl
    · rfl
  · rw [hheader]

/-- The relation between artifacts of a graph. -/
def DependsOn (g : TrainingGraph) (id d : ArtifactId) : Prop :=
  ∃ a, g.artifact id = some a ∧ d ∈ a.object.dependencies

theorem mem_children {id d : ArtifactId} : d ∈ g.children id ↔ DependsOn g id d := by
  unfold TrainingGraph.children DependsOn
  cases h : g.artifact id with
  | none => simp
  | some a => simp [mem_ascending]

/-- A closure of checked artifacts of the training part, dependencies first and the target last. -/
structure Example.Complete (sha256 : List UInt8 → Digest) (parse : Formula → Except String Formula)
    (limits : TrainingLimits) (g : TrainingGraph) (ex : Example) : Prop where
  objects : ∀ o ∈ ex.context ++ [ex.proof], ∃ a, g.artifact o.id = some a ∧ a.object = o
  nodup : ((ex.context ++ [ex.proof]).map BinaryArtifact.id).Nodup
  mem_iff : ∀ id, id ∈ (ex.context ++ [ex.proof]).map BinaryArtifact.id ↔
    Relation.ReflTransGen (DependsOn g) ex.proof.id id
  ordered : ∀ before o after, ex.context ++ [ex.proof] = before ++ o :: after →
    ∀ d ∈ o.dependencies, d ∈ before.map BinaryArtifact.id
  training : ∀ o ∈ ex.context ++ [ex.proof], ∀ c normal, prepareObject sha256 o = .ok c →
    c.payload = .proof normal → ∃ m question, States sha256 parse limits g o.id m question

/-- The target of an example answers its question. -/
structure Example.Answers (sha256 : List UInt8 → Digest) (parse : Formula → Except String Formula)
    (limits : TrainingLimits) (g : TrainingGraph) (ex : Example) (m : Metadata)
    (positive : StatementId) : Prop where
  states : States sha256 parse limits g ex.proof.id m ex.question
  positive_eq : targetId sha256 ex.question.positiveTarget = .ok positive
  refuted_eq : ex.refuted = decide (m.statement ≠ positive)

theorem load_complete (hadmitted : Admitted sha256 g.artifacts) {root : ArtifactId} {ex : Example}
    (h : load sha256 parse limits g root = .ok ex) : ex.proof.id = root ∧
      ex.Complete sha256 parse limits g ∧
      ∃ m positive, ex.Answers sha256 parse limits g m positive := by
  simp only [load, bind_eq_ok, orError_eq_ok, pure_eq_ok] at h
  obtain ⟨⟨ordered, state⟩, hsearch, ⟨question, refuted⟩, htarget, proof, hproof, rfl⟩ := h
  dsimp only at htarget hproof ⊢
  obtain ⟨rank, hrank⟩ := hadmitted.exists_rank
  have hlower : ∀ id, ∀ child ∈ g.children id, rank child < rank id := by
    intro id child hchild
    obtain ⟨a, ha, hd⟩ := mem_children.1 hchild
    obtain ⟨hmem, rfl⟩ := artifact_eq_some ha
    exact (hrank a hmem child hd).2
  obtain ⟨ids, hlists, hordered, hloading⟩ := search_lists
    (enters_enter hadmitted.checked root) hlower hsearch (.start root) rfl (by simp)
    ⟨by simp, by simp, by simp⟩
  dsimp only at hordered
  subst hordered
  have hmap : (ids.map g.objectOf).map BinaryArtifact.id = ids := by
    rw [List.map_map]
    conv_rhs => rw [← List.map_id ids]
    exact List.map_congr_left fun id _ => g.objectOf_id id
  have hsplit : (ids.map g.objectOf).dropLast ++ [proof] = ids.map g.objectOf :=
    List.dropLast_append_getLast? proof hproof
  have hroot : proof.id = root := by
    rw [List.getLast?_map, hlists.last] at hproof
    cases hproof
    exact g.objectOf_id root
  have hmem : ∀ o ∈ ids.map g.objectOf, o.id ∈ ids ∧ g.objectOf o.id = o := by
    intro o ho
    obtain ⟨id, hid, rfl⟩ := List.mem_map.mp ho
    rw [g.objectOf_id]
    exact ⟨hid, rfl⟩
  have hfound : ∀ id ∈ ids, ∃ a, g.artifact id = some a := by
    intro id hid
    exact Option.isSome_iff_exists.mp (hloading.present id (List.mem_toFinset.mpr hid))
  refine ⟨hroot, ?_, ?_⟩
  · constructor
    · dsimp only
      rw [hsplit]
      intro o ho
      obtain ⟨hid, hobject⟩ := hmem o ho
      obtain ⟨a, ha⟩ := hfound o.id hid
      refine ⟨a, ha, ?_⟩
      rw [objectOf, ha] at hobject
      exact hobject
    · dsimp only
      rw [hsplit, hmap]
      exact hlists.nodup
    · intro id
      dsimp only
      rw [hsplit, hmap, hlists.mem_iff, hroot, Reaches]
      have hsame : (fun a b => b ∈ g.children a) = DependsOn g := by
        funext a b
        exact propext mem_children
      rw [hsame]
    · dsimp only
      rw [hsplit]
      intro before o after heq d hd
      obtain ⟨before', rest, rfl, rfl, hrest⟩ := List.map_eq_append_iff.mp heq
      obtain ⟨id, after', rfl, rfl, rfl⟩ := List.map_eq_cons_iff.mp hrest
      obtain ⟨a, ha⟩ := hfound id (by simp)
      have hchild : d ∈ g.children id := by
        rw [objectOf, ha] at hd
        exact mem_children.2 ⟨a, ha, hd⟩
      have hbefore := hlists.closed before' id after' rfl d hchild
      rw [List.map_map]
      refine List.mem_map.mpr ⟨d, hbefore, g.objectOf_id d⟩
    · dsimp only
      rw [hsplit]
      intro o ho c normal hc hnormal
      obtain ⟨hid, hobject⟩ := hmem o ho
      rw [← hobject] at hc
      exact hloading.eligible o.id (List.mem_toFinset.mpr hid) c normal hc hnormal
  · obtain ⟨m, positive, hstates, hpositive, hrefuted⟩ := hloading.target question refuted htarget
    rw [← hroot] at hstates
    exact ⟨m, positive, hstates, hpositive, hrefuted⟩

theorem targetId_eq_ok {f : Formula} {id : StatementId} (h : targetId sha256 f = .ok id) :
    id = Checker.statementId sha256 f.canonicalBytes := by
  simp only [targetId, bind_eq_ok, mapError_eq_ok, pure_eq_ok,
    Formula.encodeCanonical_eq_ok] at h
  obtain ⟨bytes, ⟨-, rfl⟩, rfl⟩ := h
  rfl

/-- The statement of an answer is that of one of the two targets. -/
theorem Example.Answers.statement_eq {ex : Example} {m : Metadata} {p : StatementId}
    (h : ex.Answers sha256 parse limits g m p) :
    m.statement = Checker.statementId sha256 ex.question.positiveTarget.canonicalBytes ∨
      m.statement = Checker.statementId sha256 ex.question.negativeTarget.canonicalBytes := by
  obtain ⟨-, hcompile, -⟩ := h.states
  simp only [Metadata.compile, bind_eq_ok, pure_eq_ok, require_eq_ok, mapError_eq_ok,
    exists_and_left, exists_const, Prod.mk.injEq, true_and] at hcompile
  obtain ⟨formula, -, question, -, positive, hpositive, negative, hnegative, hstatement, rfl⟩ :=
    hcompile
  rw [targetId_eq_ok hpositive, targetId_eq_ok hnegative] at hstatement
  exact hstatement

theorem describe_statement {id : ArtifactId} {m : Metadata}
    (h : describe sha256 limits g id = some m) : ∃ a header conclusion, g.artifact id = some a ∧
      a.header = some header ∧ header.conclusion = some conclusion ∧
      m.statement = header.statement := by
  simp only [describe, Option.bind_eq_bind, Option.bind_eq_some_iff] at h
  obtain ⟨a, ha, header, hheader, -, -, conclusion, hconclusion, h⟩ := h
  refine ⟨a, header, conclusion, ha, hheader, hconclusion, ?_⟩
  split at h
  · cases h
  · simp only [Option.bind_eq_some_iff] at h
    obtain ⟨-, -, heq⟩ := h
    cases heq
    rfl

/-- The targets of a question differ. -/
theorem positiveTarget_ne {sha256 : List UInt8 → Digest} {f : Formula} {t : QuestionTarget}
    (h : QuestionTarget.fromFormula sha256 f = .ok t) : t.positiveTarget ≠ t.negativeTarget := by
  obtain ⟨k, core, -, -, -, -, -, rfl⟩ := QuestionTarget.exists_of_fromFormula h
  intro heq
  have hcount := congrArg (fun f : Formula => f.node.nodeCount) heq
  simp only [QuestionTarget.positiveTarget, QuestionTarget.ofCore, Formula.negate,
    LocallyNameless.Node.nodeCount] at hcount
  omega

/-- The conclusion of the target, and which of the two readings it is. -/
theorem Example.Answers.refuted_iff (hchecked : ∀ a ∈ g.artifacts, a.Checked sha256) {ex : Example}
    {m : Metadata} {p : StatementId} (h : ex.Answers sha256 parse limits g m p) :
    ∃ a header conclusion, g.artifact ex.proof.id = some a ∧ a.header = some header ∧
      header.conclusion = some conclusion ∧
      (Set.InjOn (fun f : Formula => Checker.statementId sha256 f.canonicalBytes)
        {conclusion, ex.question.positiveTarget, ex.question.negativeTarget} →
        (ex.refuted = true ↔ conclusion = ex.question.negativeTarget) ∧
        (ex.refuted = false ↔ conclusion = ex.question.positiveTarget)) := by
  obtain ⟨hdescribe, hcompile, -⟩ := h.states
  obtain ⟨a, header, conclusion, ha, hheader, hconclusion, hstatement⟩ :=
    describe_statement hdescribe
  refine ⟨a, header, conclusion, ha, hheader, hconclusion, fun hinj => ?_⟩
  have hhash := (hchecked a (artifact_eq_some ha).1).statement header conclusion hheader hconclusion
  rw [← hstatement] at hhash
  have hne : ex.question.positiveTarget ≠ ex.question.negativeTarget := by
    simp only [Metadata.compile, bind_eq_ok, pure_eq_ok, require_eq_ok, mapError_eq_ok,
      exists_and_left, exists_const, Prod.mk.injEq, true_and] at hcompile
    obtain ⟨formula, -, question, hquestion, -, -, -, -, -, rfl⟩ := hcompile
    exact positiveTarget_ne hquestion
  have hcases : conclusion = ex.question.positiveTarget ∨ conclusion = ex.question.negativeTarget := by
    rcases h.statement_eq with heq | heq
    · exact .inl (hinj (by simp) (by simp) (hhash.symm.trans heq))
    · exact .inr (hinj (by simp) (by simp) (hhash.symm.trans heq))
  have hrefuted : ex.refuted = true ↔ conclusion ≠ ex.question.positiveTarget := by
    rw [h.refuted_eq, decide_eq_true_iff, targetId_eq_ok h.positive_eq, hhash]
    constructor
    · intro hdiff heq
      exact hdiff (by rw [heq])
    · intro hdiff heq
      exact hdiff (hinj (by simp) (by simp) heq)
  have hfalse : ex.refuted = false ↔ ¬ex.refuted = true := by simp
  constructor
  · rw [hrefuted]
    constructor
    · intro hdiff
      rcases hcases with heq | heq
      · exact absurd heq hdiff
      · exact heq
    · intro heq hpos
      exact hne (hpos.symm.trans heq)
  · rw [hfalse, hrefuted, not_not]

def resolution (ex : Example) : Digest := ex.question.resolutionId

/-- The loaded examples of a page, with different resolutions. -/
theorem candidates_spec (hadmitted : Admitted sha256 g.artifacts) {ids : List ArtifactId}
    {seen : Finset Digest} {examples : List Example}
    (h : candidates sha256 parse limits g ids seen = .ok examples) :
    (∀ ex ∈ examples, resolution ex ∉ seen ∧ ∃ id ∈ ids, load sha256 parse limits g id = .ok ex) ∧
      (examples.map resolution).Nodup := by
  induction ids generalizing seen examples with
  | nil =>
    cases h
    simp
  | cons id ids ih =>
    have hskip : ∀ {seen' : Finset Digest} {examples : List Example}, seen ⊆ seen' →
        candidates sha256 parse limits g ids seen' = .ok examples →
        (∀ ex ∈ examples, resolution ex ∉ seen ∧
          ∃ id' ∈ id :: ids, load sha256 parse limits g id' = .ok ex) ∧
        (examples.map resolution).Nodup := by
      intro seen' examples hsub hrest
      obtain ⟨hloads, hnodup⟩ := ih hrest
      refine ⟨fun ex hex => ?_, hnodup⟩
      obtain ⟨hnew, id', hid', hload⟩ := hloads ex hex
      exact ⟨fun hold => hnew (hsub hold), id', List.mem_cons_of_mem _ hid', hload⟩
    unfold candidates at h
    cases hdescribe : describe sha256 limits g id with
    | none =>
      rw [hdescribe] at h
      exact hskip subset_rfl h
    | some m =>
      rw [hdescribe] at h
      dsimp only at h
      split_ifs at h with hcanonical
      · exact hskip subset_rfl h
      · simp only [bind_eq_ok] at h
        obtain ⟨⟨statement, question⟩, hcompile, h⟩ := h
        dsimp only at h
        split_ifs at h with hpartition hseen
        · exact hskip subset_rfl h
        · exact hskip subset_rfl h
        · cases hload : load sha256 parse limits g id with
          | error stop =>
            rw [hload] at h
            cases stop with
            | failed error => cases h
            | omitted omission => exact hskip (Finset.subset_insert _ _) h
          | ok ex =>
            rw [hload] at h
            simp only [bind_eq_ok, pure_eq_ok] at h
            obtain ⟨rest, hrest, rfl⟩ := h
            obtain ⟨hloads, hnodup⟩ := ih hrest
            have hresolution : resolution ex = question.resolutionId := by
              obtain ⟨hroot, -, m', p, hanswers⟩ := load_complete hadmitted hload
              obtain ⟨hdescribe', hcompile', -⟩ := hanswers.states
              rw [hroot, hdescribe] at hdescribe'
              cases hdescribe'
              rw [hcompile] at hcompile'
              cases hcompile'
              rfl
            refine ⟨?_, ?_⟩
            · intro ex' hex'
              rcases List.mem_cons.mp hex' with rfl | hold
              · rw [hresolution]
                exact ⟨hseen, id, List.mem_cons_self, hload⟩
              · obtain ⟨hnew, id', hid', hload'⟩ := hloads ex' hold
                exact ⟨fun hmem => hnew (Finset.mem_insert_of_mem hmem), id',
                  List.mem_cons_of_mem _ hid', hload'⟩
            · rw [List.map_cons, List.nodup_cons]
              refine ⟨?_, hnodup⟩
              intro hmem
              obtain ⟨ex', hex', heq⟩ := List.mem_map.mp hmem
              apply (hloads ex' hex').1
              rw [heq, hresolution]
              exact Finset.mem_insert_self _ _

/-- Drawing keeps examples apart. -/
theorem draw_spec {take : ℕ} {indices : List ℕ} {examples drawn : List Example}
    (h : draw take indices examples = .ok drawn) (hnodup : (examples.map resolution).Nodup) :
    (∀ ex ∈ drawn, ex ∈ examples) ∧ (drawn.map resolution).Nodup := by
  induction take generalizing indices examples drawn with
  | zero =>
    cases h
    simp
  | succ take ih =>
    unfold draw at h
    split_ifs at h with hempty
    · cases h
      simp
    · cases indices with
      | nil => cases h
      | cons index indices =>
        simp only [bind_eq_ok, orError_eq_ok, pure_eq_ok] at h
        obtain ⟨ex, hex, rest, hrest, rfl⟩ := h
        obtain ⟨hlt, rfl⟩ := List.getElem?_eq_some_iff.mp hex
        have hperm : (examples[index] :: examples.eraseIdx index).Perm examples :=
          List.getElem_cons_eraseIdx_perm hlt
        have hnodup' := ((hperm.map resolution).nodup_iff).mpr hnodup
        rw [List.map_cons, List.nodup_cons] at hnodup'
        obtain ⟨hmem, hdistinct⟩ := ih hrest hnodup'.2
        refine ⟨?_, ?_⟩
        · intro ex hex
          rcases List.mem_cons.mp hex with rfl | hold
          · exact List.getElem_mem hlt
          · exact hperm.mem_iff.mp (List.mem_cons_of_mem _ (hmem ex hold))
        · rw [List.map_cons, List.nodup_cons]
          refine ⟨?_, hdistinct⟩
          intro hin
          obtain ⟨ex, hex, heq⟩ := List.mem_map.mp hin
          exact hnodup'.1 (List.mem_map.mpr ⟨ex, hmem ex hex, heq⟩)

/-- The cursor after so many successful calls that were followed by another one, with what they
scanned. -/
inductive Scans (sha256 : List UInt8 → Digest) (parse : Formula → Except String Formula)
    (limits : TrainingLimits) (g : TrainingGraph) :
    Option ArtifactId → List ArtifactId → ℕ → Prop
  | start : Scans sha256 parse limits g none [] 0
  | next {after : Option ArtifactId} {scanned : List ArtifactId} {n : ℕ} {indices : List ℕ}
    {request : Request} {batch : Batch} {a : ArtifactId}
    (h : Scans sha256 parse limits g after scanned n) (hafter : request.after = after)
    (hselect : select sha256 parse limits g indices request = .ok batch)
    (hnext : batch.nextAfter = some a) :
    Scans sha256 parse limits g (some a) (scanned ++ batch.scanned) (n + 1)

theorem select_page {indices : List ℕ} {request : Request} {batch : Batch}
    (h : select sha256 parse limits g indices request = .ok batch) :
    batch.scanned = g.idsPage request.after request.scan ∧ request.scan ≠ 0 ∧
      batch.nextAfter = if batch.scanned.length = request.scan then batch.scanned.getLast?
        else none := by
  simp only [select, bind_eq_ok, require_eq_ok, pure_eq_ok, exists_and_left, exists_const] at h
  obtain ⟨⟨hscan, -⟩, -, -, -, -, rfl⟩ := h
  exact ⟨rfl, hscan, rfl⟩

theorem select_eq {indices : List ℕ} {request : Request} {ids : List ArtifactId}
    {examples drawn : List Example}
    (hrequest : request.scan ≠ 0 ∧ request.scan ≤ min limits.idPage 16 ∧ request.take ≠ 0 ∧
      request.take ≤ request.scan) (hids : g.idsPage request.after request.scan = ids)
    (hcandidates : candidates sha256 parse limits g ids ∅ = .ok examples)
    (hdraw : draw request.take indices examples = .ok drawn) :
    select sha256 parse limits g indices request =
      .ok ⟨ids, if ids.length = request.scan then ids.getLast? else none, drawn⟩ := by
  simp only [select, bind_eq_ok, require_eq_ok, pure_eq_ok, exists_and_left, exists_const]
  rw [hids]
  exact ⟨hrequest, _, hcandidates, _, hdraw, rfl⟩

/-- What is scanned, followed by what comes behind the cursor, is the inventory. -/
theorem Scans.split {after : Option ArtifactId} {scanned : List ArtifactId} {n : ℕ}
    (h : Scans sha256 parse limits g after scanned n) :
    scanned ++ (ascending g.ids).filter (fun id => ∀ a ∈ after, a.toNat < id.toNat) =
      ascending g.ids ∧ n ≤ scanned.length := by
  induction h with
  | start => exact ⟨by simp, le_rfl⟩
  | @next after scanned n indices request batch a _ hafter hselect hnext ih =>
    obtain ⟨hsplit, hle⟩ := ih
    obtain ⟨hpage, hscan, hcursor⟩ := select_page hselect
    rw [hafter, idsPage] at hpage
    rw [hcursor] at hnext
    split_ifs at hnext with hfull
    obtain ⟨behind, hbehind⟩ : ∃ behind, behind =
        (ascending g.ids).filter (fun id => ∀ a ∈ after, a.toNat < id.toNat) := ⟨_, rfl⟩
    rw [← hbehind] at hsplit hpage
    have hwhole : scanned ++ batch.scanned ++ behind.drop request.scan = ascending g.ids := by
      rw [hpage, List.append_assoc, List.take_append_drop]
      exact hsplit
    have hsorted := pairwise_ascending g.ids
    rw [← hwhole] at hsorted
    obtain ⟨init, hinit⟩ : ∃ init, batch.scanned = init ++ [a] :=
      ⟨_, (List.dropLast_append_getLast? a hnext).symm⟩
    obtain ⟨hfirst, -, hacross⟩ := List.pairwise_append.mp hsorted
    refine ⟨?_, ?_⟩
    · have hmem : a ∈ scanned ++ batch.scanned := by
        rw [hinit]
        simp
      have hnone : (scanned ++ batch.scanned).filter
          (fun id => ∀ b ∈ some a, b.toNat < id.toNat) = [] := by
        rw [List.filter_eq_nil_iff]
        intro id hid
        simp only [Option.mem_def, Option.some.injEq, forall_eq', decide_eq_true_eq, not_lt]
        rw [hinit, ← List.append_assoc] at hid hfirst
        rcases List.mem_append.mp hid with hold | hlast
        · exact ((List.pairwise_append.mp hfirst).2.2 id hold a (by simp)).le
        · rw [List.mem_singleton] at hlast
          rw [hlast]
      have hall : (behind.drop request.scan).filter
          (fun id => ∀ b ∈ some a, b.toNat < id.toNat) = behind.drop request.scan := by
        rw [List.filter_eq_self]
        intro id hid
        simpa using hacross a hmem id hid
      have hrest : (ascending g.ids).filter (fun id => ∀ b ∈ some a, b.toNat < id.toNat) =
          behind.drop request.scan := by
        rw [← hwhole, List.filter_append, hnone, hall, List.nil_append]
      rw [hrest]
      exact hwhole
    · rw [List.length_append, hfull]
      omega

/-- Selections return complete closures of the training part, with their answers and with different
resolutions; their pages come to every artifact once and end; and the part of a question does not
depend on names of bound variables or on leading negations. -/
theorem selection_closed (hadmitted : Admitted sha256 g.artifacts) :
    (∀ indices request batch, select sha256 parse limits g indices request = .ok batch →
      (∀ ex ∈ batch.examples, ex.Complete sha256 parse limits g ∧
        (∃ m, States sha256 parse limits g ex.proof.id m ex.question) ∧
        ∃ a header conclusion, g.artifact ex.proof.id = some a ∧ a.header = some header ∧
          header.conclusion = some conclusion ∧
          (Set.InjOn (fun f : Formula => Checker.statementId sha256 f.canonicalBytes)
            {conclusion, ex.question.positiveTarget, ex.question.negativeTarget} →
            (ex.refuted = true ↔ conclusion = ex.question.negativeTarget) ∧
            (ex.refuted = false ↔ conclusion = ex.question.positiveTarget))) ∧
      batch.examples.Pairwise fun ex ex' => ex.question.resolutionId ≠ ex'.question.resolutionId) ∧
    (∀ after scanned n, Scans sha256 parse limits g after scanned n → n ≤ g.ids.card ∧
      ∀ indices request batch, request.after = after →
        select sha256 parse limits g indices request = .ok batch → batch.nextAfter = none →
        (scanned ++ batch.scanned).Nodup ∧ ∀ id, id ∈ scanned ++ batch.scanned ↔ id ∈ g.ids) ∧
    ∀ (k k' : ℕ) (core core' : Formula) (t t' : QuestionTarget), core.BoundRenaming core' →
      QuestionTarget.fromFormula sha256 (Formula.negate^[k] core) = .ok t →
      QuestionTarget.fromFormula sha256 (Formula.negate^[k'] core') = .ok t' →
      partition sha256 t = partition sha256 t' := by
  refine ⟨?_, ?_, ?_⟩
  · intro indices request batch h
    simp only [select, bind_eq_ok, require_eq_ok, pure_eq_ok, exists_and_left, exists_const] at h
    obtain ⟨-, examples, hcandidates, drawn, hdraw, rfl⟩ := h
    obtain ⟨hloads, hnodup⟩ := candidates_spec hadmitted hcandidates
    obtain ⟨hmem, hdistinct⟩ := draw_spec hdraw hnodup
    refine ⟨?_, List.pairwise_map.mp hdistinct⟩
    intro ex hex
    obtain ⟨-, id, -, hload⟩ := hloads ex (hmem ex hex)
    obtain ⟨-, hcomplete, m, p, hanswers⟩ := load_complete hadmitted hload
    exact ⟨hcomplete, ⟨m, hanswers.states⟩, hanswers.refuted_iff hadmitted.checked⟩
  · intro after scanned n h
    obtain ⟨hsplit, hle⟩ := h.split
    have hcard : (ascending g.ids).length = g.ids.card := by
      rw [ascending, List.length_map, Finset.length_sort,
        Finset.card_image_of_injective _ BitVec.toNat_injective]
    refine ⟨?_, ?_⟩
    · rw [← hcard, ← hsplit, List.length_append]
      omega
    · intro indices request batch hafter hselect hnext
      obtain ⟨hpage, hscan, hcursor⟩ := select_page hselect
      have hall : batch.scanned =
          (ascending g.ids).filter (fun id => ∀ a ∈ after, a.toNat < id.toNat) := by
        rw [hafter, idsPage] at hpage
        rw [hpage]
        apply List.take_of_length_le
        rw [hcursor] at hnext
        split_ifs at hnext with hfull
        · rw [List.getLast?_eq_none_iff] at hnext
          rw [hnext] at hfull
          exact absurd hfull.symm hscan
        · rw [hpage, List.length_take] at hfull
          omega
      rw [hall, hsplit]
      exact ⟨nodup_ascending _, fun id => mem_ascending⟩
  · intro k k' core core' t t' hcore ht ht'
    exact partition_eq rfl rfl hcore ht ht'

namespace Cited

/-- A proof in normal form, and what it concludes. -/
structure Proof where
  conclusion : Formula
  steps : List ProofStep

namespace Proof

variable (p : Proof)

def statement : StatementId := Checker.statementId sampleDigest p.conclusion.canonicalBytes

def payload : List UInt8 := (ProofNormalForm.canonicalBytes ⟨⟨p.steps⟩⟩).toOption.getD []

def id : ProofId := Checker.proofId sampleDigest p.statement p.payload

def object : BinaryArtifact :=
  ⟨KnowledgeIndex.artifactIdOfProof sampleDigest p.id, some p.statement, none,
    ArtifactPayload.proofTag :: p.payload, citedArtifacts sampleDigest p.steps⟩

def header : CheckedHeader :=
  ⟨p.statement, p.conclusion.canonicalBytes.length, some p.conclusion⟩

def artifact : GraphArtifact := ⟨p.object, some p.header, none⟩

def candidate : Candidate :=
  ⟨p.object.id, p.object.statement, none, .proof ⟨⟨p.steps⟩⟩, p.object.dependencies, p.object.bytes⟩

/-- The encoding of the proof is that of its normal form, and it does not cite itself. -/
def Stored : Prop :=
  (ProofNormalForm.canonicalBytes ⟨⟨p.steps⟩⟩).toOption = some p.payload ∧
    (ProofCertificate.fromCanonicalBytes p.payload).toOption = some ⟨p.steps⟩ ∧
    (ProofCertificate.intoUncheckedNormalForm ⟨p.steps⟩).toOption = some ⟨⟨p.steps⟩⟩ ∧
    p.object.bytes.length ≤ artifactPayloadMaxBytes ∧
    p.object.dependencies.card ≤ certificateMaxSteps ∧ p.object.id ∉ p.object.dependencies

instance : Decidable p.Stored := inferInstanceAs (Decidable (_ ∧ _))

variable {p}

theorem Stored.prepared (h : p.Stored) : prepareCandidate sampleDigest p.object.id p.object.statement
    none p.object.bytes certificateMaxSteps = .ok p.candidate := by
  obtain ⟨hbytes, hdecode, hnormal, hlength, hcard, hself⟩ := h
  rw [toOption_eq_some] at hbytes hdecode hnormal
  have hshort : p.payload.length < 2 ^ 32 := by
    have hle : p.payload.length + 1 ≤ artifactPayloadMaxBytes := hlength
    have hmax : artifactPayloadMaxBytes < 2 ^ 32 := by decide
    omega
  have hpayload : candidatePayload sampleDigest none p.object.bytes = .ok (.proof ⟨⟨p.steps⟩⟩) := by
    rw [object, candidatePayload, if_pos rfl]
    simp only [bind_eq_ok, require_eq_ok, mapError_eq_ok, pure_eq_ok, exists_and_left, exists_const]
    exact ⟨trivial, _, hdecode, _, hnormal, _, hbytes, rfl, rfl⟩
  have hid : reconstructedId sampleDigest p.object.statement (.proof ⟨⟨p.steps⟩⟩) =
      .ok p.object.id := by
    simp only [reconstructedId, contentId, bind_eq_ok, orError_eq_ok, require_eq_ok,
      mapError_eq_ok, pure_eq_ok, exists_and_left, exists_const]
    exact ⟨_, rfl, _, hbytes, hshort, rfl⟩
  have hdependencies : candidateDependencies sampleDigest p.object.id none certificateMaxSteps
      (.proof ⟨⟨p.steps⟩⟩) = .ok p.object.dependencies := by
    simp only [candidateDependencies, dependenciesWithLimit, bind_eq_ok, require_eq_ok, pure_eq_ok,
      exists_and_left, exists_const]
    exact ⟨hcard, hself, rfl⟩
  simp only [prepareCandidate, bind_eq_ok, require_eq_ok, pure_eq_ok, exists_and_left, exists_const]
  exact ⟨_, hpayload, _, hid, rfl, _, hdependencies, hcard, rfl⟩

theorem Stored.prepareObject_eq (h : p.Stored) : prepareObject sampleDigest p.object = .ok p.candidate := by
  rw [prepareObject, require, if_pos h.2.2.2.1, ok_bind]
  exact h.prepared

theorem Stored.checked (h : p.Stored) : p.artifact.Checked sampleDigest := by
  constructor
  · rintro _ _ ⟨⟩ ⟨⟩
    rfl
  · intro _
    exact ⟨_, _, h.prepared, rfl⟩

end Proof

/-- `∀ x, x = x`. -/
def identity : Proof :=
  ⟨.forAll ⟨0⟩ (.equal ⟨0⟩ ⟨0⟩), [.equalityReflexivity ⟨0⟩, .generalization 0 ⟨0⟩]⟩

/-- `∀ y x, x = x` from `∀ x, x = x`. -/
def citing : Proof :=
  ⟨.forAll ⟨0⟩ identity.conclusion, [.proofReference identity.id, .generalization 0 ⟨0⟩]⟩

theorem stored : identity.Stored ∧ citing.Stored := by
  decide +kernel

def graph : TrainingGraph where
  artifacts := [identity.artifact, citing.artifact]
  witness statement :=
    if statement = identity.statement then some identity.object.id else some citing.object.id

def smallLimits : TrainingLimits := ⟨16, 4096, 1024, 64, 16⟩

theorem distinct : citing.object.id.toNat < identity.object.id.toNat ∧
    citing.statement ≠ identity.statement := by
  decide +kernel

theorem ids_ne : identity.object.id ≠ citing.object.id := fun heq =>
  distinct.1.ne (congrArg BitVec.toNat heq.symm)

theorem dependencies_identity : identity.object.dependencies = ∅ := rfl

theorem dependencies_citing : citing.object.dependencies = {identity.object.id} := by
  simp [citing, Proof.object, citedArtifacts, ProofStep.definitionReferences, ProofStep.fields]

theorem admitted_graph : Admitted sampleDigest graph.artifacts := by
  have hidentity : Admitted sampleDigest ([] ++ [identity.artifact]) :=
    Admitted.empty.append stored.1.checked (by simp) fun d hd =>
      absurd hd (Finset.notMem_empty d)
  refine hidentity.append stored.2.checked ?_ ?_
  · intro b hb
    rw [List.mem_singleton.1 hb]
    exact ids_ne
  · intro d hd
    rw [Proof.artifact, dependencies_citing, Finset.mem_singleton] at hd
    exact ⟨_, List.mem_singleton_self _, hd.symm⟩

theorem artifact_identity : graph.artifact identity.object.id = some identity.artifact :=
  List.find?_cons_of_pos (decide_eq_true rfl)

theorem artifact_citing : graph.artifact citing.object.id = some citing.artifact := by
  rw [TrainingGraph.artifact, graph, List.find?_cons_of_neg, List.find?_cons_of_pos]
  · exact decide_eq_true rfl
  · rw [decide_eq_true_eq]
    exact ids_ne

/-- The description and the question of a proof, when its part is the one for training. -/
def Proof.states (p : Proof) : Option (Metadata × QuestionTarget) := do
  let m ← describe sampleDigest smallLimits graph p.object.id
  let r ← (m.compile sampleDigest .ok).toOption
  guard (partition sampleDigest r.2 = .training ∧
    (targetId sampleDigest r.2.positiveTarget).toOption = some m.statement)
  return (m, r.2)

def Proof.Small (p : Proof) : Prop := p.conclusion.canonicalBytes.length ≤ 16 ∧ p.steps.length ≤ 2

instance (p : Proof) : Decidable p.Small := inferInstanceAs (Decidable (_ ∧ _))

theorem states : identity.states.isSome = true ∧ citing.states.isSome = true ∧
    identity.states.map (fun r => r.2.resolutionId) ≠
      citing.states.map (fun r => r.2.resolutionId) ∧ identity.Small ∧ citing.Small := by
  decide +kernel

theorem Proof.states_eq_some {p : Proof} {m : Metadata} {question : QuestionTarget}
    (h : p.states = some (m, question)) :
    States sampleDigest .ok smallLimits graph p.object.id m question ∧
      targetId sampleDigest question.positiveTarget = .ok m.statement := by
  simp only [states, Option.bind_eq_bind, Option.bind_eq_some_iff, toOption_eq_some,
    Option.guard_eq_some', Option.pure_def, Option.some.injEq, Prod.mk.injEq] at h
  obtain ⟨m, hdescribe, ⟨statement, question⟩, hcompile, _, ⟨htraining, hpositive⟩, rfl, rfl⟩ := h
  obtain rfl := compile_statement hcompile
  exact ⟨⟨hdescribe, hcompile, htraining⟩, hpositive⟩

/-- What the search enters with a proof of the graph. -/
theorem enter_graph {p : Proof} {m : Metadata} {question : QuestionTarget}
    (hfound : graph.artifact p.object.id = some p.artifact) (hstored : p.Stored)
    (hstates : p.states = some (m, question))
    (hsize : p.Small) (root : ArtifactId)
    (state : LoadState) (hstate : state.bytes ≤ 16 ∧ state.cost ≤ 2) :
    enter sampleDigest .ok smallLimits graph root p.object.id state =
      .ok (p.object, ascending p.object.dependencies,
        ⟨state.bytes + p.conclusion.canonicalBytes.length, state.cost + p.steps.length,
          if p.object.id = root then some (question, false) else state.target⟩) := by
  have hprogram : p.object.bytes.head? ≠ some 0xff := by
    change some ArtifactPayload.proofTag ≠ some 0xff
    decide
  obtain ⟨hstates, hpositive⟩ := Proof.states_eq_some hstates
  rw [enter_proof hfound rfl hprogram hstored.prepareObject_eq rfl hstates hpositive]
  · simp [Proof.artifact, Proof.candidate, Proof.header]
  · change _ + p.conclusion.canonicalBytes.length ≤ 4096 ∧ p.conclusion.canonicalBytes.length ≤ 1024
    have := hsize.1
    omega
  · change _ + p.steps.length ≤ 64
    have := hsize.2
    omega

theorem ascending_identity : ascending identity.object.dependencies = [] :=
  ascending_eq [] .nil (by simp [dependencies_identity])

theorem ascending_citing : ascending citing.object.dependencies = [identity.object.id] :=
  ascending_eq _ (List.pairwise_singleton _ _) (by simp [dependencies_citing])

theorem load_identity {m : Metadata} {question : QuestionTarget}
    (hstates : identity.states = some (m, question)) :
    load sampleDigest .ok smallLimits graph identity.object.id =
      .ok ⟨question, [], identity.object, false⟩ := by
  have henter := enter_graph artifact_identity stored.1 hstates states.2.2.2.1
    identity.object.id ⟨0, 0, none⟩ (by decide)
  rw [ascending_identity, if_pos rfl] at henter
  rw [load, show smallLimits.closureObjects = 16 from rfl]
  simp [search, henter, without, orError]

/-- The cited proof is entered second and emitted first. -/
theorem load_citing {m m' : Metadata} {question question' : QuestionTarget}
    (hidentity : identity.states = some (m, question))
    (hciting : citing.states = some (m', question')) :
    load sampleDigest .ok smallLimits graph citing.object.id =
      .ok ⟨question', [identity.object], citing.object, false⟩ := by
  obtain ⟨-, -, -, hsmall, hsize⟩ := states
  have hroot := enter_graph artifact_citing stored.2 hciting hsize
    citing.object.id ⟨0, 0, none⟩ (by decide)
  have hcited := enter_graph artifact_identity stored.1 hidentity hsmall citing.object.id
    ⟨citing.conclusion.canonicalBytes.length, citing.steps.length, some (question', false)⟩ hsize
  rw [ascending_citing, if_pos rfl, Nat.zero_add, Nat.zero_add] at hroot
  rw [ascending_identity, if_neg ids_ne] at hcited
  rw [load, show smallLimits.closureObjects = 16 from rfl]
  simp [search, hroot, hcited, without, orError, ids_ne, ids_ne.symm]

theorem ascending_ids : ascending graph.ids = [citing.object.id, identity.object.id] := by
  apply ascending_eq
  · exact List.pairwise_pair.2 distinct.1
  · intro id
    simp [graph, TrainingGraph.ids, Proof.artifact, or_comm]

theorem witness_graph : canonical graph identity.object.id = true ∧
    canonical graph citing.object.id = true := by
  have hne := distinct.2
  constructor
  · rw [canonical, artifact_identity]
    simp [graph, Proof.artifact, Proof.header]
  · rw [canonical, artifact_citing]
    simp [graph, Proof.artifact, Proof.header, hne]

/-- Both proofs are candidates, with the closures that the search found. -/
theorem candidates_graph {m m' : Metadata} {question question' : QuestionTarget}
    (hidentity : identity.states = some (m, question))
    (hciting : citing.states = some (m', question')) :
    candidates sampleDigest .ok smallLimits graph [citing.object.id, identity.object.id] ∅ =
      .ok [⟨question', [identity.object], citing.object, false⟩,
        ⟨question, [], identity.object, false⟩] := by
  have hload := load_identity hidentity
  have hload' := load_citing hidentity hciting
  obtain ⟨-, -, hne, -⟩ := states
  rw [hidentity, hciting] at hne
  obtain ⟨⟨hdescribe, hcompile, htraining⟩, -⟩ := Proof.states_eq_some hidentity
  obtain ⟨⟨hdescribe', hcompile', htraining'⟩, -⟩ := Proof.states_eq_some hciting
  obtain ⟨hcanonical, hcanonical'⟩ := witness_graph
  have hseen : question.resolutionId ≠ question'.resolutionId := fun heq => hne (by simp [heq])
  simp [candidates, hdescribe, hcompile, htraining, hload, hcanonical, hdescribe', hcompile',
    htraining', hload', hcanonical', hseen, pure, Except.pure]

theorem select_graph {m m' : Metadata} {question question' : QuestionTarget}
    (hidentity : identity.states = some (m, question))
    (hciting : citing.states = some (m', question')) :
    select sampleDigest .ok smallLimits graph [0, 0] ⟨none, 2, 2⟩ =
      .ok ⟨[citing.object.id, identity.object.id], some identity.object.id,
        [⟨question', [identity.object], citing.object, false⟩,
          ⟨question, [], identity.object, false⟩]⟩ := by
  have hpage : graph.idsPage none 2 = [citing.object.id, identity.object.id] := by
    rw [idsPage, ascending_ids, List.filter_eq_self.mpr (by simp)]
    exact List.take_of_length_le le_rfl
  exact select_eq (by decide) hpage (candidates_graph hidentity hciting) rfl

theorem select_rest : select sampleDigest .ok smallLimits graph [] ⟨some identity.object.id, 2, 2⟩ =
    .ok ⟨[], none, []⟩ := by
  have hpage : graph.idsPage (some identity.object.id) 2 = [] := by
    have hlt := distinct.1
    rw [idsPage, ascending_ids, List.filter_eq_nil_iff.mpr, List.take_nil]
    intro id hid
    simp only [Option.mem_def, Option.some.injEq, forall_eq', decide_eq_true_eq, not_lt]
    simp only [List.mem_cons, List.not_mem_nil, or_false] at hid
    rcases hid with rfl | rfl
    · exact hlt.le
    · exact le_rfl
  exact select_eq (by decide) hpage rfl rfl

end Cited

open Cited in
/-- A proof that cites another one is an example after the closure, and so is the cited proof; the
second page is empty and ends the scan. -/
theorem selection_closed_citing : ∃ question question' : QuestionTarget,
    let ex : Example := ⟨question, [], identity.object, false⟩
    let ex' : Example := ⟨question', [identity.object], citing.object, false⟩
    let ids := [citing.object.id, identity.object.id]
    select sampleDigest .ok smallLimits graph [0, 0] ⟨none, 2, 2⟩ =
        .ok ⟨ids, some identity.object.id, [ex', ex]⟩ ∧
      ex'.Complete sampleDigest .ok smallLimits graph ∧
      ex.Complete sampleDigest .ok smallLimits graph ∧
      question'.resolutionId ≠ question.resolutionId ∧
      select sampleDigest .ok smallLimits graph [] ⟨some identity.object.id, 2, 2⟩ =
        .ok ⟨[], none, []⟩ ∧
      ids.Nodup ∧ ∀ id, id ∈ ids ↔ id ∈ graph.ids := by
  obtain ⟨⟨m, question⟩, hidentity⟩ := Option.isSome_iff_exists.1 states.1
  obtain ⟨⟨m', question'⟩, hciting⟩ := Option.isSome_iff_exists.1 states.2.1
  have hselect := select_graph hidentity hciting
  obtain ⟨hexamples, hpages, -⟩ := @selection_closed _ .ok smallLimits _ admitted_graph
  obtain ⟨hcomplete, hdistinct⟩ := hexamples _ _ _ hselect
  obtain ⟨-, hlast⟩ := hpages _ _ _ (Scans.start.next rfl hselect rfl)
  obtain ⟨hnodup, hmem⟩ := hlast _ _ _ rfl select_rest rfl
  refine ⟨question, question', hselect, (hcomplete _ (by simp)).1, (hcomplete _ (by simp)).1, ?_, select_rest, ?_, ?_⟩
  · simpa using hdistinct
  · simpa using hnodup
  · simpa using hmem

end Training
end Naome
