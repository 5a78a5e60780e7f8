import Naome.Materialization
import Naome.ReferenceTransparency

/-!
# The identity of a conclusion

Whatever the quanta, caches and failed reads, the finalization of an accepted root yields the
unfolded formula exactly when the certificate codec can encode it. So the statement identity of a
conclusion depends on its formula only.
-/
namespace Naome
open LocallyNameless Outcome FormulaCodec TreeProjection

namespace Finalization

/-- What can happen to a finalization between two quanta. -/
inductive Event
  | quantum (q : Quantum)
  | restrict (cacheLimit : ℕ)

/-- The finalization and the number of its quanta that did something. -/
def handle (root cacheLimit : ℕ) (shape : Shape) (state : Option Finalization × ℕ) :
    Event → Option Finalization × ℕ
  | .quantum q =>
    match prepareConclusion root cacheLimit shape q state.1 with
    | (.ok _, f) => (f, if q.steps = 0 then state.2 else state.2 + 1)
    | (.error _, f) => (f, state.2)
  | .restrict cacheLimit => (state.1.map (restrictCache cacheLimit), state.2)

variable {s : NodeStore} {root : ℕ} {formula : Formula} {shape : Shape}

/-- The walk visits addresses up to the root, each once. -/
structure Walks (root : ℕ) (f : Finalization) : Prop where
  pending_le : ∀ i ∈ f.exportPending, i ≤ root
  node_le : ∀ i ∈ f.exportNode, i ≤ root
  disjoint : ∀ i ∈ f.exportPending, i ∉ f.exportNode
  nodup : f.exportNode.Nodup

theorem mem_queue {nodes children pending : List ℕ} {i : ℕ} (h : i ∈ queue nodes children pending) :
    i ∈ pending ∨ i ∈ children ∧ i ∉ nodes := by
  induction children generalizing pending with
  | nil => exact .inl h
  | cons c children ih =>
    rw [queue, List.foldl_cons] at h
    rcases ih h with h | ⟨h, hn⟩
    · split_ifs at h with hc
      · exact .inl h
      · unfold insertOrIgnore at h
        split_ifs at h
        · exact .inl h
        · rcases List.mem_cons.mp h with rfl | h
          · exact .inr ⟨List.mem_cons_self, hc⟩
          · exact .inl h
    · exact .inr ⟨List.mem_cons_of_mem c h, hn⟩

theorem Walks.length_le {f : Finalization} (h : Walks root f) : f.exportNode.length ≤ root + 1 := by
  have hsub : f.exportNode ⊆ List.range (root + 1) := by
    intro i hi
    have := h.node_le i hi
    rw [List.mem_range]
    omega
  have := (h.nodup.subperm hsub).length_le
  rwa [List.length_range] at this

/-- A walk fails only with a failed read and otherwise visits as many nodes as it has steps, or
finds that none is left. The projection is not touched. -/
theorem walkLoop_spec {load : Loader} (hload : load.Reads s) {reads steps : ℕ} {f : Finalization}
    (h : Walks root f) :
    (∃ e, walkLoop load reads steps f = .error e ∧ ∃ k id, load k id = .error e) ∨
    ∃ complete f', walkLoop load reads steps f = .ok (complete, f') ∧ Walks root f' ∧
      f'.tree = f.tree ∧ f'.canonical = f.canonical ∧ f'.walkComplete = f.walkComplete ∧
      f.exportNode.length ≤ f'.exportNode.length ∧
      (complete = false → f'.exportNode.length = f.exportNode.length + steps) := by
  induction steps generalizing reads f with
  | zero => exact .inr ⟨false, f, rfl, h, rfl, rfl, rfl, le_rfl, fun _ => rfl⟩
  | succ steps ih =>
    cases hmax : f.exportPending.max? with
    | none =>
      exact .inr ⟨true, f, by simp only [walkLoop, hmax], h, rfl, rfl, rfl, le_rfl, by simp⟩
    | some id =>
      have hmem : id ∈ f.exportPending := List.max?_mem hmax
      cases hread : load reads id with
      | error e =>
        exact .inl ⟨e, by simp only [walkLoop, hmax, hread, error_bind], reads, id, hread⟩
      | ok node =>
        obtain ⟨hash, p, hraw⟩ := hload reads id node hread
        obtain ⟨_, hchildren⟩ := NodeStore.raw_eq_ok.mp hraw
        have hnew : id ∉ f.exportNode := h.disjoint id hmem
        have hinsert : insertOrIgnore id f.exportNode = id :: f.exportNode := if_neg hnew
        have hid := h.pending_le id hmem
        have hstep : Walks root { f with
            exportNode := insertOrIgnore id f.exportNode
            exportPending := queue (insertOrIgnore id f.exportNode) node.children
              (f.exportPending.filter fun i => decide (i ≠ id))
            reachable := f.reachable + if id ∈ f.exportNode then 0 else 1 } := by
          rw [hinsert]
          refine ⟨fun i hi => ?_, fun i hi => ?_, fun i hi => ?_, ?_⟩
          · rcases mem_queue hi with hi | ⟨hi, _⟩
            · exact h.pending_le i (List.mem_filter.mp hi).1
            · have := (hchildren i hi).2
              omega
          · rcases List.mem_cons.mp hi with rfl | hi
            · exact hid
            · exact h.node_le i hi
          · rcases mem_queue hi with hi | ⟨_, hi⟩
            · obtain ⟨hpending, hne⟩ := List.mem_filter.mp hi
              rw [List.mem_cons, not_or]
              exact ⟨by simpa using hne, h.disjoint i hpending⟩
            · exact hi
          · exact List.nodup_cons.mpr ⟨hnew, h.nodup⟩
        have hrun : walkLoop load reads (steps + 1) f = walkLoop load (reads + 1) steps { f with
            exportNode := insertOrIgnore id f.exportNode
            exportPending := queue (insertOrIgnore id f.exportNode) node.children
              (f.exportPending.filter fun i => decide (i ≠ id))
            reachable := f.reachable + if id ∈ f.exportNode then 0 else 1 } := by
          simp only [walkLoop, hmax, hread, ok_bind]
        rcases @ih (reads + 1) _ hstep with ⟨e, he, hfailed⟩ |
          ⟨complete, f', hf', hwalks, htree, hcanonical, hcomplete, hle, hlength⟩
        · exact .inl ⟨e, hrun.trans he, hfailed⟩
        · refine .inr ⟨complete, f', hrun.trans hf', hwalks, htree, hcanonical, hcomplete, ?_, ?_⟩
          · simp only [hinsert, List.length_cons] at hle
            omega
          · intro hc
            have := hlength hc
            simp only [hinsert, List.length_cons] at this
            omega

/-- The projection of a conclusion that fits the codec. -/
def Pending (s : NodeStore) (formula : Formula) (shape : Shape) (tree : Option TreeProjection)
    (trees : List PrimitiveNode) : Prop :=
  if shape.fits then ∃ t, tree = some t ∧ Projects s formula.node trees t
  else tree = none ∧ trees = []

/-- The stages of a finalization, with a bound on the quanta that it still needs. -/
inductive Stage (s : NodeStore) (root : ℕ) (formula : Formula) (shape : Shape) :
    Finalization → ℕ → Prop
  | walking {f : Finalization} {trees : List PrimitiveNode} {k : ℕ} : f.walkComplete = false →
    f.canonical = none → Walks root f → Pending s formula shape f.tree trees →
    root + 1 - f.exportNode.length + remaining trees + 2 ≤ k → Stage s root formula shape f k
  | projecting {f : Finalization} {trees : List PrimitiveNode} {k : ℕ} : f.walkComplete = true →
    f.canonical = none → Pending s formula shape f.tree trees → remaining trees + 1 ≤ k →
    Stage s root formula shape f k
  | complete {f : Finalization} {k : ℕ} : f.walkComplete = true →
    f.canonical = some (if shape.fits then some formula else none) → Stage s root formula shape f k

/-- The failure of a read or of a write of the quantum. -/
def Failed (q : Quantum) (e : ProgramError) : Prop :=
  (∃ reads id, q.load reads id = .error e) ∨ q.opens = false ∨ q.commits = false

theorem Pending.restrictCache {tree : Option TreeProjection} {trees : List PrimitiveNode}
    (h : Pending s formula shape tree trees) (cacheLimit : ℕ) :
    Pending s formula shape (tree.map (·.restrictCache cacheLimit)) trees := by
  unfold Pending at h ⊢
  split_ifs at h ⊢
  · obtain ⟨t, rfl, ht⟩ := h
    exact ⟨_, rfl, ht.restrictCache cacheLimit⟩
  · exact ⟨by rw [h.1]; rfl, h.2⟩

theorem Stage.restrictCache {f : Finalization} {k : ℕ} (h : Stage s root formula shape f k)
    (cacheLimit : ℕ) : Stage s root formula shape (f.restrictCache cacheLimit) k := by
  cases h with
  | walking hwalk hcanonical hwalks hpending hk =>
    exact .walking hwalk hcanonical ⟨hwalks.1, hwalks.2, hwalks.3, hwalks.4⟩
      (hpending.restrictCache cacheLimit) hk
  | projecting hwalk hcanonical hpending hk =>
    exact .projecting hwalk hcanonical (hpending.restrictCache cacheLimit) hk
  | complete hwalk hcanonical => exact .complete hwalk hcanonical

/-- A quantum either fails with a failed read or write, or comes closer to the end. -/
theorem Stage.resume (hfits : shape.fits = true → formula.WithinLimits) {f : Finalization} {k : ℕ}
    (h : Stage s root formula shape f k) {q : Quantum} (hload : q.load.Reads s)
    (hsteps : q.steps ≠ 0) :
    (∃ e, (f.resume q).1 = .error e ∧ Failed q e ∧ Stage s root formula shape (f.resume q).2 k) ∨
    ∃ done, (f.resume q).1 = .ok done ∧ Stage s root formula shape (f.resume q).2 (k - 1) := by
  cases h with
  | walking hwalk hcanonical hwalks hpending hk =>
    have hresume : f.resume q = f.walk q := by simp only [Finalization.resume, hwalk, if_true]
    rw [hresume, walk]
    rcases @walkLoop_spec s root q.load hload 1 q.steps f hwalks with ⟨e, he, hfailed⟩ |
      ⟨complete, f', hf', hwalks', htree, hcanonical', _, hle, hlength⟩
    · rw [he]
      exact .inl ⟨e, rfl, .inl hfailed, .walking hwalk hcanonical hwalks hpending hk⟩
    · rw [hf']
      dsimp only
      cases hcommits : q.commits with
      | false =>
        exact .inl ⟨_, rfl, .inr (.inr hcommits), .walking hwalk hcanonical hwalks hpending hk⟩
      | true =>
        rw [if_pos rfl]
        dsimp only
        refine .inr ⟨false, rfl, ?_⟩
        rw [← htree] at hpending
        rw [hcanonical] at hcanonical'
        have hbound := hwalks'.length_le
        cases complete with
        | true => exact .projecting rfl hcanonical' hpending (by omega)
        | false =>
          have := hlength rfl
          refine .walking rfl hcanonical' ⟨hwalks'.1, hwalks'.2, hwalks'.3, hwalks'.4⟩ hpending ?_
          show root + 1 - f'.exportNode.length + _ + 2 ≤ _
          omega
  | projecting hwalk hcanonical hpending hk =>
    have hresume : f.resume q = f.project q := by
      simp [Finalization.resume, hwalk, hcanonical]
    rw [hresume, project]
    unfold Pending at hpending
    split_ifs at hpending with hshape
    · obtain ⟨t, htree, ht⟩ := hpending
      obtain ⟨trees', ht', hle, hresult⟩ := ht.advance hload q.steps
      rw [htree]
      dsimp only
      have hopen : ∀ j, remaining trees' + 1 ≤ j → Stage s root formula shape
          { f with tree := some (t.advance q.load q.steps).2 } j := by
        intro j hj
        refine .projecting hwalk hcanonical ?_ hj
        rw [Pending, if_pos hshape]
        exact ⟨_, rfl, ht'⟩
      rcases hadvance : t.advance q.load q.steps with ⟨result, t'⟩
      rw [hadvance] at hresult ht' hopen
      rcases hresult with ⟨e, he, hfailed⟩ | ⟨hok, hremaining⟩
      · dsimp only at he
        subst he
        exact .inl ⟨e, rfl, .inl hfailed, hopen k (by omega)⟩
      · dsimp only at hok
        subst hok
        by_cases hnil : trees' = []
        · subst hnil
          have hfinish : t'.finish = .ok formula := ht'.finish (hfits hshape)
          simp only [decide_true, hfinish]
          refine .inr ⟨true, rfl, .complete hwalk ?_⟩
          rw [if_pos hshape]
        · have hpos := remaining_pos hnil
          simp only [hnil, decide_false]
          exact .inr ⟨false, rfl, hopen _ (by omega)⟩
    · rw [hpending.1]
      refine .inr ⟨true, rfl, .complete hwalk ?_⟩
      rw [if_neg hshape]
  | complete hwalk hcanonical =>
    have hresume : f.resume q = (.ok true, f) := by
      simp [Finalization.resume, hwalk, hcanonical]
    rw [hresume]
    exact .inr ⟨true, rfl, .complete hwalk hcanonical⟩

/-- The quanta that suffice. -/
def bound (root : ℕ) (formula : Formula) : ℕ := root + formula.node.nodeCount + 3

theorem Stage.begin (hunfolds : s.Unfolds root formula.node) (hnarrow : shape.fits = true →
    Narrow formula.node) (cacheLimit : ℕ) :
    Stage s root formula shape (.begin root cacheLimit shape) (bound root formula) := by
  have hwalks : Walks root (.begin root cacheLimit shape) :=
    ⟨by simp [Finalization.begin], by simp [Finalization.begin], by simp [Finalization.begin],
      by simp [Finalization.begin]⟩
  by_cases hshape : shape.fits = true
  · have hpending : Pending s formula shape (Finalization.begin root cacheLimit shape).tree
        [formula.node] := by
      rw [Pending, if_pos hshape]
      exact ⟨.new root cacheLimit, if_pos hshape, Projects.new hunfolds (hnarrow hshape)⟩
    refine .walking rfl rfl hwalks hpending ?_
    simp only [Finalization.begin, List.length_nil, remaining, bound, List.map_cons, List.map_nil,
      List.sum_cons, List.sum_nil]
    omega
  · have hpending : Pending s formula shape (Finalization.begin root cacheLimit shape).tree [] := by
      rw [Pending, if_neg hshape]
      exact ⟨if_neg hshape, rfl⟩
    refine .walking rfl rfl hwalks hpending ?_
    simp only [Finalization.begin, List.length_nil, remaining, bound, List.map_nil, List.sum_nil]
    omega

/-- A finalization and the quanta that it has used. -/
def Accounted (s : NodeStore) (root : ℕ) (formula : Formula) (shape : Shape)
    (state : Option Finalization × ℕ) : Prop :=
  match state.1 with
  | none => state.2 = 0
  | some f => Stage s root formula shape f (bound root formula - state.2)

/-- The reads of an event return what the store has. -/
def Event.Reads (s : NodeStore) : Event → Prop
  | .quantum q => q.load.Reads s
  | .restrict _ => True

/-- A quantum in any state fails only with a failed read or write. -/
theorem Accounted.prepareConclusion (hunfolds : s.Unfolds root formula.node)
    (hnarrow : shape.fits = true → Narrow formula.node)
    (hfits : shape.fits = true → formula.WithinLimits) (cacheLimit : ℕ)
    {state : Option Finalization × ℕ} (h : Accounted s root formula shape state) {q : Quantum}
    (hload : q.load.Reads s) :
    (∃ e, (prepareConclusion root cacheLimit shape q state.1).1 = .error e ∧ Failed q e ∧
      Accounted s root formula shape
        ((prepareConclusion root cacheLimit shape q state.1).2, state.2)) ∨
    ∃ done, (prepareConclusion root cacheLimit shape q state.1).1 = .ok done ∧
      Accounted s root formula shape ((prepareConclusion root cacheLimit shape q state.1).2,
        if q.steps = 0 then state.2 else state.2 + 1) := by
  obtain ⟨f, count⟩ := state
  by_cases hsteps : q.steps = 0
  · refine .inr ⟨false, ?_, ?_⟩
    · simp [Naome.prepareConclusion, hsteps]
    · simpa [Naome.prepareConclusion, hsteps] using h
  · cases f with
    | some f =>
      rcases Stage.resume hfits h hload hsteps with ⟨e, he, hfailed, hstage⟩ | ⟨done, hok, hstage⟩
      · refine .inl ⟨e, ?_, hfailed, ?_⟩
        · simpa [Naome.prepareConclusion, hsteps] using he
        · simpa [Naome.prepareConclusion, hsteps, Accounted] using hstage
      · refine .inr ⟨done, ?_, ?_⟩
        · simpa [Naome.prepareConclusion, hsteps] using hok
        · simpa [Naome.prepareConclusion, hsteps, Accounted, Nat.sub_sub] using hstage
    | none =>
      have hcount : count = 0 := h
      subst hcount
      cases hread : q.load 0 root with
      | error e =>
        refine .inl ⟨e, ?_, .inl ⟨0, root, hread⟩, ?_⟩
        · simp [Naome.prepareConclusion, hsteps, hread]
        · simp [Naome.prepareConclusion, hsteps, hread, Accounted]
      | ok node =>
        cases hopens : q.opens with
        | false =>
          refine .inl ⟨.storage "finalization not started", ?_, .inr (.inl hopens), ?_⟩
          · simp [Naome.prepareConclusion, hsteps, hread, hopens]
          · simp [Naome.prepareConclusion, hsteps, hread, hopens, Accounted]
        | true =>
          have hbegin := Stage.begin (s := s) hunfolds hnarrow cacheLimit
          rcases hbegin.resume hfits hload hsteps with
            ⟨e, he, hfailed, hstage⟩ | ⟨done, hok, hstage⟩
          · refine .inl ⟨e, ?_, hfailed, ?_⟩
            · simpa [Naome.prepareConclusion, hsteps, hread, hopens] using he
            · simpa [Naome.prepareConclusion, hsteps, hread, hopens, Accounted] using hstage
          · refine .inr ⟨done, ?_, ?_⟩
            · simpa [Naome.prepareConclusion, hsteps, hread, hopens] using hok
            · simpa [Naome.prepareConclusion, hsteps, hread, hopens, Accounted] using hstage

/-- Enough successful quanta complete a finalization. -/
theorem Accounted.exists_canonical {state : Option Finalization × ℕ}
    (h : Accounted s root formula shape state) (hcount : bound root formula ≤ state.2) :
    ∃ f, state.1 = some f ∧ f.canonical.isSome = true := by
  obtain ⟨f, count⟩ := state
  cases f with
  | none =>
    have hzero : count = 0 := h
    rw [hzero, bound] at hcount
    omega
  | some f =>
    refine ⟨f, rfl, ?_⟩
    have hstage : Stage s root formula shape f (bound root formula - count) := h
    rw [Nat.sub_eq_zero_of_le hcount] at hstage
    cases hstage with
    | walking _ _ _ _ hk => omega
    | projecting _ _ _ hk => omega
    | complete _ hcanonical => rw [hcanonical]; rfl

theorem Accounted.canonical_eq {state : Option Finalization × ℕ}
    (h : Accounted s root formula shape state) {f : Finalization} {canonical : Option Formula}
    (hf : state.1 = some f) (hcanonical : f.canonical = some canonical) :
    canonical = if shape.fits then some formula else none := by
  obtain ⟨f', count⟩ := state
  cases hf
  have hstage : Stage s root formula shape f (bound root formula - count) := h
  cases hstage with
  | walking _ hnone => rw [hnone] at hcanonical; cases hcanonical
  | projecting _ hnone => rw [hnone] at hcanonical; cases hcanonical
  | complete _ hsome => rw [hsome] at hcanonical; exact (Option.some.inj hcanonical).symm

/-- The finalization after any events. -/
def run (root cacheLimit : ℕ) (shape : Shape) (events : List Event) : Option Finalization × ℕ :=
  events.foldl (handle root cacheLimit shape) (none, 0)

theorem accounted_run (hunfolds : s.Unfolds root formula.node)
    (hnarrow : shape.fits = true → Narrow formula.node)
    (hfits : shape.fits = true → formula.WithinLimits) (cacheLimit : ℕ) {events : List Event}
    (hevents : ∀ e ∈ events, e.Reads s) :
    Accounted s root formula shape (run root cacheLimit shape events) := by
  have hfold : ∀ (events : List Event) (state : Option Finalization × ℕ),
      (∀ e ∈ events, e.Reads s) → Accounted s root formula shape state →
      Accounted s root formula shape (events.foldl (handle root cacheLimit shape) state) := by
    intro events
    induction events with
    | nil => exact fun _ _ h => h
    | cons e events ih =>
      intro state hevents h
      refine ih _ (fun e' he' => hevents e' (List.mem_cons_of_mem e he')) ?_
      have he := hevents e List.mem_cons_self
      cases e with
      | restrict cacheLimit =>
        obtain ⟨f, count⟩ := state
        cases f with
        | none => exact h
        | some f => exact Stage.restrictCache h cacheLimit
      | quantum q =>
        have hstep := Accounted.prepareConclusion hunfolds hnarrow hfits cacheLimit h he
        rcases hprepare : Naome.prepareConclusion root cacheLimit shape q state.1 with ⟨result, f⟩
        rw [hprepare] at hstep
        rcases hstep with ⟨e, he, _, hacc⟩ | ⟨done, hok, hacc⟩
        · dsimp only at he
          subst he
          simp only [handle, hprepare]
          exact hacc
        · dsimp only at hok
          subst hok
          simp only [handle, hprepare]
          exact hacc
  exact hfold events (none, 0) hevents rfl

end Finalization

section

variable (sha256 : List UInt8 → Digest)

/-- The statement identity in the manifest of a checked program. -/
def manifestStatement (canonical : Option Formula) (conclusion : Digest) :
    Except ProgramError StatementId :=
  match canonical with
  | some formula => do
    let bytes ← formula.encodeCanonical.mapError .codec
    require (bytes.length < 2 ^ 32) (.program "statement address width")
    return Checker.statementId sha256 bytes
  | none => .ok (graphStatementId sha256 conclusion)

/-- The statement identity of a formula, whatever program or certificate proves it. -/
def statementOf (formula : Formula) : StatementId :=
  if formula.node.nodeCount ≤ formulaMaxNodes ∧ formula.node.depth ≤ formulaMaxDepth then
    Checker.statementId sha256 formula.canonicalBytes
  else graphStatementId sha256 (formulaHash sha256 formula.node)

end

variable {sha256 : List UInt8 → Digest} {s s' : NodeStore}

theorem Formula.normalizedBytes_of_closed {f : Formula} (h : f.isClosed = true) :
    f.normalizedBytes = f.canonicalBytes := by
  have hmap := Formula.mapFreeVariables_of_closed
    (g := VariableNumbering.name (FirstOccurrence.seeAll [] f.node.occurrences)) h
  unfold Formula.normalizedBytes Formula.canonicalBytes
  exact congrArg (fun f : Formula => nodeBytes primitiveFormat f.node) hmap

/-- A certificate proof of a formula gets the identity of the formula. -/
theorem statementId_of_certificate {ctx : ContextView} {c : ProofCertificate} (hv : c.Valid)
    {checked : CheckedProof}
    (h : Checker.normalizeAndCheckWithState sha256 c ctx = .ok checked) :
    checked.conclusion.WithinLimits ∧ checked.statementId = statementOf sha256 checked.conclusion := by
  obtain ⟨d, n, -, -, hn, hnv, -, -⟩ := NormalForm.normalize_eq_ok hv
  obtain ⟨normalForm, hnormal, h⟩ := bind_eq_ok.mp h
  have hform : c.intoUncheckedNormalForm = .ok ⟨n⟩ := by
    rw [ProofCertificate.intoUncheckedNormalForm, hn]
    rfl
  rw [mapError_eq_ok, hform] at hnormal
  cases hnormal
  obtain ⟨outcome, houtcome, -, hconclusion, -, hstatement, -⟩ := Checker.exists_outcome h
  obtain ⟨entries, e, -, -, hlimits, hclosed, -, rfl⟩ := (Checker.checkSteps_eq_ok hnv).mp houtcome
  have heq : checked.conclusion = e.formula := hconclusion
  rw [heq]
  refine ⟨hlimits, ?_⟩
  rw [hstatement, statementOf, if_pos ⟨hlimits.1, hlimits.2⟩, ← Formula.normalizedBytes_of_closed hclosed]
  rfl

theorem manifestStatement_some {f : Formula} (h : f.WithinLimits) {conclusion : Digest} :
    manifestStatement sha256 (some f) conclusion = .ok (statementOf sha256 f) := by
  have hlength : f.canonicalBytes.length < 2 ^ 32 :=
    (length_nodeBytes_le _ (PrimitiveNode.symbols_eq_nil f.node) h.1).trans_lt (by decide)
  rw [statementOf, if_pos ⟨h.1, h.2⟩]
  simp only [manifestStatement, bind_eq_ok, mapError_eq_ok, require_eq_ok, pure_eq_ok,
    exists_const]
  exact ⟨_, Formula.encodeCanonical_eq_ok.mpr ⟨h, rfl⟩, hlength, rfl⟩

/-- One statement, one identity. The root of an accepted conclusion unfolds to one closed formula.
Its cost is within the limits exactly when the certificate codec encodes the formula; then any
quanta with enough successful ones end with that formula, and otherwise without one. The identity
in the manifest is that of the formula, which every certificate proof of it has too. -/
theorem conclusion_identity (h : NodeStore.Reached sha256 s) {root : ℕ} {node : GraphNode ℕ}
    {hash : Digest} {p : Properties} (hload : s.load sha256 root = .ok ((node, hash, p), s'))
    (hclosed : p.closed = true) :
    ∃ (formula : Formula) (r : Representation), s'.authenticated root = some r ∧
      s'.Unfolds root formula.node ∧ formula.isClosed = true ∧
      (r.shape.fits = true ↔ ∃ bytes, formula.encodeCanonical = .ok bytes) ∧
      (r.shape.fits = true ↔ formula.node.nodeCount ≤ 65536 ∧ formula.node.depth ≤ 256 ∧
        formula.canonicalBytes.length ≤ 393216) ∧
      (∀ (cacheLimit : ℕ) (events : List Finalization.Event), (∀ e ∈ events, e.Reads s') →
        (∀ q : Quantum, q.load.Reads s' → ∀ e,
          (prepareConclusion root cacheLimit r.shape q
            (Finalization.run root cacheLimit r.shape events).1).1 = .error e →
          Finalization.Failed q e) ∧
        (Finalization.bound root formula ≤ (Finalization.run root cacheLimit r.shape events).2 →
          ∃ f, (Finalization.run root cacheLimit r.shape events).1 = some f ∧
            f.canonical.isSome = true) ∧
        ∀ f canonical, (Finalization.run root cacheLimit r.shape events).1 = some f →
          f.canonical = some canonical →
          canonical = (if r.shape.fits then some formula else none) ∧
            manifestStatement sha256 canonical hash = .ok (statementOf sha256 formula)) ∧
      (∀ (ctx : ContextView) (c : ProofCertificate) (checked : CheckedProof), c.Valid →
        Checker.normalizeAndCheckWithState sha256 c ctx = .ok checked →
        checked.conclusion = formula →
        r.shape.fits = true ∧ checked.statementId = statementOf sha256 formula) ∧
      ∀ (t : NodeStore) (other : ℕ) (r' : Representation), NodeStore.Reached sha256 t →
        t.child other = .ok r' → t.Unfolds other formula.node →
        r'.shape.fits = r.shape.fits ∧ r'.hash = r.hash := by
  have hsound := NodeStore.sound_of_reached h
  obtain ⟨hsound', -, -, hraw, r, hauth, rfl, rfl⟩ := hsound.load hload
  have hraw' := (hsound.load hload).2.1.raw hraw
  have hchild : s'.child root = .ok r := NodeStore.child_eq_ok.mpr ⟨hauth, node, hraw'⟩
  obtain ⟨n, hunfolds, rfl⟩ := hsound'.unfolds hchild
  obtain ⟨hoccurrences, hscoped⟩ := closed_foldGraph.mp hclosed
  have hfits : ∀ {m : PrimitiveNode}, (foldGraph (represent sha256) m).shape.fits = true ↔
      m.nodeCount ≤ formulaMaxNodes ∧ (nodeBytes primitiveFormat m).length ≤ formulaMaxBytes ∧
        m.depth ≤ formulaMaxDepth := by
    intro m
    rw [foldGraph_shape, fits_treeShape]
  have hlimits : (foldGraph (represent sha256) n).shape.fits = true ↔
      (⟨n, hscoped⟩ : Formula).WithinLimits := by
    rw [hfits]
    exact ⟨fun h => ⟨h.1, h.2.2⟩, fun h => ⟨h.1,
      length_nodeBytes_le _ (PrimitiveNode.symbols_eq_nil n) h.1, h.2⟩⟩
  have hnarrow : (foldGraph (represent sha256) n).shape.fits = true → Narrow n := by
    intro hf
    have hdepth : n.depth ≤ formulaMaxDepth := (hlimits.mp hf).2
    refine ⟨0, hscoped, ?_⟩
    unfold formulaMaxDepth at hdepth
    omega
  refine ⟨⟨n, hscoped⟩, _, hauth, hunfolds, Formula.isClosed_iff.mpr hoccurrences, ?_, ?_, ?_, ?_, ?_⟩
  · rw [hlimits]
    constructor
    · exact fun hw => ⟨_, Formula.encodeCanonical_eq_ok.mpr ⟨hw, rfl⟩⟩
    · rintro ⟨bytes, hbytes⟩
      exact (Formula.encodeCanonical_eq_ok.mp hbytes).1
  · rw [hfits]
    constructor
    · exact fun h => ⟨h.1, h.2.2, h.2.1⟩
    · exact fun h => ⟨h.1, h.2.2, h.2.1⟩
  · intro cacheLimit events hevents
    have hunfolds' : s'.Unfolds root (⟨n, hscoped⟩ : Formula).node := hunfolds
    have hrun := Finalization.accounted_run hunfolds' hnarrow hlimits.mp cacheLimit hevents
    refine ⟨fun q hq e he => ?_, fun hcount => ?_, fun f canonical hf hcanonical => ?_⟩
    · rcases hrun.prepareConclusion hunfolds' hnarrow hlimits.mp cacheLimit hq with
        ⟨e', he', hfailed, _⟩ | ⟨done, hok, _⟩
      · rw [he] at he'
        cases he'
        exact hfailed
      · rw [he] at hok
        cases hok
    · exact hrun.exists_canonical hcount
    · obtain rfl := hrun.canonical_eq hf hcanonical
      refine ⟨rfl, ?_⟩
      split_ifs with hf'
      · exact manifestStatement_some (hlimits.mp hf')
      · rw [statementOf, if_neg fun hw => hf' (hlimits.mpr ⟨hw.1, hw.2⟩)]
        rfl
  · intro ctx c checked hv hcheck hconclusion
    obtain ⟨hwithin, hstatement⟩ := statementId_of_certificate hv hcheck
    rw [hconclusion] at hwithin hstatement
    exact ⟨hlimits.mpr hwithin, hstatement⟩
  · intro t other r' ht hchild' hunfolds'
    obtain ⟨m, hm, rfl⟩ := (NodeStore.sound_of_reached ht).unfolds hchild'
    cases hm.unique hunfolds'
    exact ⟨rfl, rfl⟩

/-- The graph of `∀ x, x = x`: two persisted rows, authenticated from the leaf. -/
theorem conclusion_identity_reflexivity :
    ∃ (s' : NodeStore) (formula : Formula) (r : Representation),
      formula.node = .forAll (.equal (.bound 0) (.bound 0)) ∧ s'.authenticated 2 = some r ∧
      s'.Unfolds 2 formula.node ∧ r.shape.fits = true ∧
      ∀ (cacheLimit : ℕ) (events : List Finalization.Event), (∀ e ∈ events, e.Reads s') →
        Finalization.bound 2 formula ≤ (Finalization.run 2 cacheLimit r.shape events).2 →
        ∃ f, (Finalization.run 2 cacheLimit r.shape events).1 = some f ∧
          f.canonical = some (some formula) := by
  let sha256 : List UInt8 → Digest := fun bytes => BitVec.ofNat 256 bytes.length
  let leaf : PrimitiveNode := .equal (.bound 0) (.bound 0)
  let r₁ := foldGraph (represent sha256) leaf
  let r₂ := foldGraph (represent sha256) (.forAll leaf)
  let rows : List (ℕ × NodeRow) := [(1, ⟨some (.equal (.bound 0) (.bound 0)), r₁.hash, r₁.properties⟩),
    (2, ⟨some (.forAll 1), r₂.hash, r₂.properties⟩)]
  let s₀ : NodeStore := ⟨rows, fun _ => none⟩
  have hraw₁ : s₀.raw 1 = .ok (.equal (.bound 0) (.bound 0), r₁.hash, r₁.properties) :=
    NodeStore.raw_eq_ok.mpr ⟨rfl, by simp [GraphNode.children]⟩
  have hrepresentation₁ : s₀.representation sha256 (.equal (.bound 0) (.bound 0)) = .ok r₁ := rfl
  have hload₁ := NodeStore.load_eq_ok hraw₁ hrepresentation₁ rfl
  let s₁ : NodeStore := { s₀ with authenticated := Function.update s₀.authenticated 1 (some r₁) }
  have hraw₂ : s₁.raw 2 = .ok (.forAll 1, r₂.hash, r₂.properties) :=
    NodeStore.raw_eq_ok.mpr ⟨rfl, by simp [GraphNode.children]⟩
  have hchild : s₁.child 1 = .ok r₁ := NodeStore.child_eq_ok.mpr ⟨rfl, _, hraw₁⟩
  have hrepresentation : s₁.representation sha256 (.forAll 1) = .ok r₂ := by
    simp only [NodeStore.representation, GraphNode.mapM, hchild, ok_bind]
    rfl
  have hload₂ := NodeStore.load_eq_ok hraw₂ hrepresentation rfl
  have hreached : NodeStore.Reached sha256 s₁ := .load (.opened rows) hload₁
  have hclosed : r₂.properties.closed = true := rfl
  obtain ⟨formula, r, hauth, hunfolds, _, _, _, hrun, _⟩ :=
    conclusion_identity hreached hload₂ hclosed
  have hupdate : Function.update s₁.authenticated 2 (some r₂) 2 = some r₂ :=
    Function.update_self ..
  have hr : r = r₂ := Option.some.inj (hauth.symm.trans hupdate)
  have hfits : r.shape.fits = true := by
    rw [hr, foldGraph_shape]
    decide
  have hnode : formula.node = .forAll leaf := by
    refine hunfolds.unique (@NodeStore.Unfolds.intro _ 2 (.forAll 1) _ _ (.forAll leaf) (fun _ => leaf) hraw₂ rfl fun i hi => ?_)
    rw [GraphNode.children, List.mem_singleton] at hi
    subst hi
    exact @NodeStore.Unfolds.intro _ 1 (.equal (.bound 0) (.bound 0)) _ _ leaf (fun _ => leaf) hraw₁ rfl (by simp [GraphNode.children])
  refine ⟨_, formula, r, hnode, hauth, hunfolds, hfits, fun cacheLimit events hevents hcount => ?_⟩
  obtain ⟨_, hcomplete, hcanonical⟩ := hrun cacheLimit events hevents
  obtain ⟨f, hf, hsome⟩ := hcomplete hcount
  obtain ⟨canonical, hc⟩ := Option.isSome_iff_exists.mp hsome
  refine ⟨f, hf, ?_⟩
  rw [hc, (hcanonical f canonical hf hc).1, if_pos hfits]

end Naome
