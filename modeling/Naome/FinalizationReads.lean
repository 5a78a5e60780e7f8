import Naome.ConclusionIdentity
import Naome.NodeInterning

/-!
# Finalizations without failing reads

A finalization reads only addresses that unfold. Where those reads and the writes succeed, no
quantum fails.
-/
namespace Naome
open LocallyNameless Outcome FormulaCodec TreeProjection

/-- Every stored formula is read, as it is stored. -/
structure Loader.Fetches (s : NodeStore) (load : Loader) : Prop where
  reads : load.Reads s
  fetches : ∀ k id n, s.Unfolds id n → ∃ node, load k id = .ok node

/-- A quantum without storage faults. -/
structure Quantum.Faultless (s : NodeStore) (q : Quantum) : Prop where
  opens : q.opens = true
  commits : q.commits = true
  load : q.load.Fetches s

variable {s : NodeStore} {load : Loader}

namespace TreeProjection

/-- A projection never fails: one step keeps the projection, the rest follows by induction. -/
theorem advanceLoop_ok (hload : load.Fetches s) {root : PrimitiveNode} {steps reads : ℕ}
    {trees : List PrimitiveNode} {t : TreeProjection} (h : Projects s root trees t) :
    ∃ done, (advanceLoop load reads steps t).1 = .ok done := by
  induction steps generalizing reads trees t with
  | zero => exact ⟨_, rfl⟩
  | succ steps ih =>
    cases hp : t.pending with
    | nil => exact ⟨true, by simp only [advanceLoop, hp]⟩
    | cons id rest =>
      have hpending := h.pending
      rw [hp] at hpending
      obtain ⟨n, trees, hn, -, rfl⟩ := List.forall₂_cons_left_iff.mp hpending
      rcases fetch_spec hload.reads h.cache reads id with
        ⟨e, -, hread⟩ | ⟨node, t', hfetch, -, -, ⟨hash, p, hraw⟩, -⟩
      · obtain ⟨node, hnode⟩ := hload.fetches reads id n hn
        rw [hread] at hnode
        cases hnode
      · obtain ⟨hraw', hnode, -⟩ := hn
        cases hraw.symm.trans hraw'
        obtain ⟨hoperands, -⟩ := (h.narrow n List.mem_cons_self).children
        rw [hnode, GraphNode.operands_map] at hoperands
        have hpush := @pushVariables_eq { t' with pending := rest, bytes := t'.bytes ++ [node.tag] }
          node.operands hoperands
        obtain ⟨trees', hprojects, -⟩ := @advanceLoop_spec s load hload.reads root 1 reads _ t h
        have hone : (advanceLoop load reads 1 t).2 = { t' with
            pending := node.children ++ rest
            bytes := t'.bytes ++ [node.tag] ++ node.operands.flatMap variableBytes } := by
          simp only [advanceLoop, hp, hfetch, hpush]
        have hstep : advanceLoop load reads (steps + 1) t = advanceLoop load (reads + 1) steps
            { t' with
              pending := node.children ++ rest
              bytes := t'.bytes ++ [node.tag] ++ node.operands.flatMap variableBytes } := by
          simp only [advanceLoop, hp, hfetch, hpush]
        rw [hstep]
        rw [hone] at hprojects
        exact ih hprojects

end TreeProjection

namespace Finalization

/-- The queued addresses unfold. -/
def Live (s : NodeStore) (f : Finalization) : Prop :=
  ∀ id ∈ f.exportPending, ∃ n, s.Unfolds id n

theorem Live.queue {nodes children pending : List ℕ}
    (hpending : ∀ id ∈ pending, ∃ n, s.Unfolds id n)
    (hchildren : ∀ id ∈ children, ∃ n, s.Unfolds id n) :
    ∀ id ∈ queue nodes children pending, ∃ n, s.Unfolds id n := by
  intro id hid
  rcases mem_queue hid with hid | ⟨hid, -⟩
  · exact hpending id hid
  · exact hchildren id hid

/-- A walk reads only queued addresses, and queues only children of what it read. -/
theorem walkLoop_ok (hload : load.Fetches s) {reads steps : ℕ} {f : Finalization}
    (hlive : f.Live s) : ∃ complete f', walkLoop load reads steps f = .ok (complete, f') ∧
      f'.Live s := by
  induction steps generalizing reads f with
  | zero => exact ⟨false, f, rfl, hlive⟩
  | succ steps ih =>
    cases hmax : f.exportPending.max? with
    | none => exact ⟨true, f, by simp only [walkLoop, hmax], hlive⟩
    | some id =>
      obtain ⟨n, hn⟩ := hlive id (List.max?_mem hmax)
      obtain ⟨node, hread⟩ := hload.fetches reads id n hn
      obtain ⟨hash, p, hraw⟩ := hload.reads reads id node hread
      obtain ⟨subtree, -, hsub⟩ := hn.exists_subtree hraw
      simp only [walkLoop, hmax, hread, ok_bind]
      apply ih
      apply Live.queue
      · exact fun i hi => hlive i (List.mem_filter.mp hi).1
      · exact fun i hi => ⟨subtree i, hsub i hi⟩

variable {root : ℕ} {formula : Formula} {shape : Shape} {f : Finalization} {k : ℕ}

theorem Stage.mono (h : Stage s root formula shape f k) {k' : ℕ} (hk : k ≤ k') :
    Stage s root formula shape f k' := by
  cases h with
  | walking hwalk hcanonical hwalks hpending hle =>
    exact .walking hwalk hcanonical hwalks hpending (hle.trans hk)
  | projecting hwalk hcanonical hpending hle =>
    exact .projecting hwalk hcanonical hpending (hle.trans hk)
  | complete hwalk hcanonical => exact .complete hwalk hcanonical

/-- A finalization of live addresses, with a bound on the quanta that it still needs. -/
structure Advances (s : NodeStore) (root : ℕ) (formula : Formula) (shape : Shape)
    (f : Finalization) (k : ℕ) : Prop where
  stage : Stage s root formula shape f k
  live : f.Live s

theorem Advances.restrictCache (h : Advances s root formula shape f k) (cacheLimit : ℕ) :
    Advances s root formula shape (f.restrictCache cacheLimit) k :=
  ⟨h.stage.restrictCache cacheLimit, h.live⟩

/-- A quantum without faults comes closer to the end. -/
theorem Advances.resume (hfits : shape.fits = true → formula.WithinLimits)
    (h : Advances s root formula shape f k) {q : Quantum} (hq : q.Faultless s)
    (hsteps : q.steps ≠ 0) :
    (∃ done, (f.resume q).1 = .ok done) ∧ Advances s root formula shape (f.resume q).2 (k - 1) := by
  have hok : (∃ done, (f.resume q).1 = .ok done) ∧ (f.resume q).2.Live s := by
    unfold Finalization.resume
    split_ifs with hwalk hcanonical
    · obtain ⟨complete, f', hloop, hlive⟩ := @walkLoop_ok s q.load hq.load 1 q.steps f h.live
      rw [walk, hloop]
      dsimp only
      rw [if_pos hq.commits]
      exact ⟨⟨false, rfl⟩, hlive⟩
    · exact ⟨⟨true, rfl⟩, h.live⟩
    · unfold project
      cases htree : f.tree with
      | none => exact ⟨⟨true, rfl⟩, h.live⟩
      | some t =>
        dsimp only
        cases h.stage with
        | walking hwalk' => exact absurd hwalk' hwalk
        | complete hwalk' hcanonical' =>
          rw [hcanonical'] at hcanonical
          exact absurd rfl hcanonical
        | projecting hwalk' hcanonical' hpending hk =>
          unfold Pending at hpending
          split_ifs at hpending with hshape
          · obtain ⟨t', heq, ht⟩ := hpending
            cases htree.symm.trans heq
            have hclean : Projects s formula.node _ { t with cache := [], order := [] } :=
              ⟨ht.pending, ht.bytes, ht.narrow, by simp⟩
            obtain ⟨done, hdone⟩ := @advanceLoop_ok s q.load hq.load formula.node q.steps 0 _ _ hclean
            obtain ⟨trees', ht', -, hresult⟩ := ht.advance hq.load.reads q.steps
            change (t.advance q.load q.steps).1 = .ok done at hdone
            rcases hadvance : t.advance q.load q.steps with ⟨result, t'⟩
            rw [hadvance] at hdone ht' hresult
            dsimp only at hdone ht' hresult
            subst hdone
            cases done with
            | false => exact ⟨⟨false, rfl⟩, h.live⟩
            | true =>
              rcases hresult with ⟨e, he, -⟩ | ⟨hnil, -⟩
              · cases he
              · have htrees : trees' = [] := by simpa using hnil
                subst htrees
                have hfinish : t'.finish = .ok formula := ht'.finish (hfits hshape)
                dsimp only
                rw [hfinish]
                exact ⟨⟨true, rfl⟩, h.live⟩
          · rw [hpending.1] at htree
            cases htree
  obtain ⟨⟨done, hdone⟩, hlive⟩ := hok
  rcases h.stage.resume hfits hq.load.reads hsteps with ⟨e, he, -⟩ | ⟨done', -, hstage⟩
  · rw [hdone] at he
    cases he
  · exact ⟨⟨done, hdone⟩, hstage, hlive⟩

theorem Advances.begin (hunfolds : s.Unfolds root formula.node)
    (hnarrow : shape.fits = true → Narrow formula.node) (cacheLimit : ℕ) :
    Advances s root formula shape (.begin root cacheLimit shape) (bound root formula) := by
  refine ⟨Stage.begin hunfolds hnarrow cacheLimit, fun id hid => ?_⟩
  simp only [Finalization.begin, List.mem_singleton] at hid
  subst hid
  exact ⟨_, hunfolds⟩

end Finalization

/-- The formula at an authenticated closed address, and what the export relies on. -/
theorem exists_conclusion {sha256 : List UInt8 → Digest} (hs : NodeStore.Sound sha256 s) {root : ℕ}
    {r : Representation} (hchild : s.child root = .ok r) (hclosed : r.properties.closed = true) :
    ∃ formula : Formula, s.Unfolds root formula.node ∧ r.hash = formulaHash sha256 formula.node ∧
      (r.shape.fits = true → formula.WithinLimits) ∧ (r.shape.fits = true → Narrow formula.node) ∧
      ∃ statement, manifestStatement sha256 (if r.shape.fits then some formula else none) r.hash =
        .ok statement := by
  obtain ⟨n, hunfolds, rfl⟩ := hs.unfolds hchild
  obtain ⟨-, hscoped⟩ := closed_foldGraph.mp hclosed
  have hfits : (foldGraph (represent sha256) n).shape.fits = true →
      (⟨n, hscoped⟩ : Formula).WithinLimits := by
    intro hf
    rw [foldGraph_shape, fits_treeShape] at hf
    exact ⟨hf.1, hf.2.2⟩
  refine ⟨⟨n, hscoped⟩, hunfolds, rfl, hfits, fun hf => ⟨0, hscoped, ?_⟩, ?_⟩
  · have hdepth : n.depth ≤ formulaMaxDepth := (hfits hf).2
    rw [Nat.zero_add]
    exact hdepth.trans (by decide)
  · split_ifs with hf
    · exact ⟨_, manifestStatement_some (hfits hf)⟩
    · exact ⟨_, rfl⟩

end Naome
