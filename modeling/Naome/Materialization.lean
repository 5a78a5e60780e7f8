import Naome.NodeStore

/-!
# Projection of a conclusion

The conclusion of a program is walked and projected to a bounded tree in quanta. A failed read
leaves the exact frontier for a retry, and cached nodes never survive a quantum.
-/
namespace Naome
open LocallyNameless Outcome FormulaCodec

inductive ProgramError
  | storage (message : String)
  | program (message : String)
  | codec (reason : FormulaCodecError)
  deriving DecidableEq

/-- The reads of one quantum: each may fail, whatever the earlier ones did. -/
abbrev Loader := ℕ → ℕ → Except ProgramError (GraphNode ℕ)

/-- A prefix serialization in progress; the top of the pending stack is its head. -/
structure TreeProjection where
  pending : List ℕ
  bytes : List UInt8
  cache : List (ℕ × GraphNode ℕ)
  order : List ℕ
  cacheLimit : ℕ

namespace TreeProjection

def new (root cacheLimit : ℕ) : TreeProjection := ⟨[root], [], [], [], cacheLimit⟩

def restrictCache (t : TreeProjection) (cacheLimit : ℕ) : TreeProjection :=
  { t with cache := [], order := [], cacheLimit }

def cached (t : TreeProjection) (id : ℕ) : Option (GraphNode ℕ) :=
  (t.cache.find? fun e => decide (e.1 = id)).map Prod.snd

/-- Removes the oldest node of a full cache. -/
def evict (t : TreeProjection) : TreeProjection :=
  match t.order with
  | oldest :: rest =>
    if t.cacheLimit ≤ t.cache.length then
      { t with cache := t.cache.filter fun e => decide (e.1 ≠ oldest), order := rest }
    else t
  | [] => t

def remember (t : TreeProjection) (id : ℕ) (node : GraphNode ℕ) : TreeProjection :=
  if t.cacheLimit = 0 then t
  else { t.evict with cache := (id, node) :: t.evict.cache, order := t.evict.order ++ [id] }

/-- The node at an address, from the cache or from storage. -/
def fetch (load : Loader) (t : TreeProjection) (reads id : ℕ) :
    Except ProgramError (GraphNode ℕ × TreeProjection) :=
  match t.cached id with
  | some node => .ok (node, t)
  | none => do
    let node ← load reads id
    return (node, t.remember id node)

/-- Writes the variables of an atom; a bound index must fit 32 bits. -/
def pushVariables (t : TreeProjection) :
    List (Variable FreeVariable) → Except ProgramError Unit × TreeProjection
  | [] => (.ok (), t)
  | .free v :: xs => pushVariables { t with bytes := t.bytes ++ variableBytes (.free v) } xs
  | .bound i :: xs =>
    if i < 2 ^ 32 then pushVariables { t with bytes := t.bytes ++ variableBytes (.bound i) } xs
    else (.error (.program "tree variable width"), t)

/-- The steps of one quantum. -/
def advanceLoop (load : Loader) :
    ℕ → ℕ → TreeProjection → Except ProgramError Bool × TreeProjection
  | _, 0, t => (.ok t.pending.isEmpty, t)
  | reads, steps + 1, t =>
    match t.pending with
    | [] => (.ok true, t)
    | id :: rest =>
      match t.fetch load reads id with
      | .error e => (.error e, t)
      | .ok (node, t) =>
        match pushVariables { t with pending := rest, bytes := t.bytes ++ [node.tag] }
          node.operands with
        | (.error e, t) => (.error e, t)
        | (.ok (), t) =>
          advanceLoop load (reads + 1) steps { t with pending := node.children ++ t.pending }

def advance (load : Loader) (t : TreeProjection) (steps : ℕ) :
    Except ProgramError Bool × TreeProjection :=
  advanceLoop load 0 steps { t with cache := [], order := [] }

def finish (t : TreeProjection) : Except ProgramError Formula := do
  require (t.pending = []) (.program "formula projection is incomplete")
  (Formula.decodeCanonical t.bytes).mapError .codec

end TreeProjection

/-- The reads of a store that return what it has. -/
def Loader.Reads (s : NodeStore) (load : Loader) : Prop :=
  ∀ reads id node, load reads id = .ok node → ∃ hash p, s.raw id = .ok (node, hash, p)

namespace TreeProjection

variable {s : NodeStore} {load : Loader}

/-- A tree whose bound indices fit 32 bits. -/
def Narrow (n : PrimitiveNode) : Prop := ∃ d, n.Scoped d ∧ d + n.depth ≤ 2 ^ 32

/-- The pending trees complete the bytes of the root. -/
structure Projects (s : NodeStore) (root : PrimitiveNode) (trees : List PrimitiveNode)
    (t : TreeProjection) : Prop where
  pending : List.Forall₂ s.Unfolds t.pending trees
  bytes : t.bytes ++ trees.flatMap (nodeBytes primitiveFormat) = nodeBytes primitiveFormat root
  narrow : ∀ n ∈ trees, Narrow n
  cache : ∀ e ∈ t.cache, ∃ hash p, s.raw e.1 = .ok (e.2, hash, p)

/-- The nodes that are still to be written. -/
def remaining (trees : List PrimitiveNode) : ℕ := (trees.map Node.nodeCount).sum

theorem exists_raw_of_cached {t : TreeProjection} {id : ℕ} {node : GraphNode ℕ}
    (hcache : ∀ e ∈ t.cache, ∃ hash p, s.raw e.1 = .ok (e.2, hash, p))
    (h : t.cached id = some node) : ∃ hash p, s.raw id = .ok (node, hash, p) := by
  obtain ⟨e, he, rfl⟩ := Option.map_eq_some_iff.mp h
  have hid : e.1 = id := by simpa using List.find?_some he
  rw [← hid]
  exact hcache e (List.mem_of_find?_eq_some he)

theorem cache_evict {t : TreeProjection} {e : ℕ × GraphNode ℕ} (h : e ∈ t.evict.cache) :
    e ∈ t.cache := by
  unfold evict at h
  split at h
  · split_ifs at h
    · exact (List.mem_filter.mp h).1
    · exact h
  · exact h

theorem evict_fields (t : TreeProjection) :
    t.evict.pending = t.pending ∧ t.evict.bytes = t.bytes := by
  unfold evict
  split
  · split_ifs
    · exact ⟨rfl, rfl⟩
    · exact ⟨rfl, rfl⟩
  · exact ⟨rfl, rfl⟩

/-- A fetched node is that of the store; only the cache changes. -/
theorem fetch_spec (hload : load.Reads s) {t : TreeProjection}
    (hcache : ∀ e ∈ t.cache, ∃ hash p, s.raw e.1 = .ok (e.2, hash, p)) (reads id : ℕ) :
    (∃ e, t.fetch load reads id = .error e ∧ load reads id = .error e) ∨
    ∃ node t', t.fetch load reads id = .ok (node, t') ∧ t'.pending = t.pending ∧
      t'.bytes = t.bytes ∧ (∃ hash p, s.raw id = .ok (node, hash, p)) ∧
      ∀ e ∈ t'.cache, ∃ hash p, s.raw e.1 = .ok (e.2, hash, p) := by
  unfold fetch
  cases hcached : t.cached id with
  | some node =>
    exact .inr ⟨node, t, rfl, rfl, rfl, exists_raw_of_cached hcache hcached, hcache⟩
  | none =>
    cases hread : load reads id with
    | error e => exact .inl ⟨e, rfl, rfl⟩
    | ok node =>
      obtain ⟨hash, p, hraw⟩ := hload reads id node hread
      refine .inr ⟨node, t.remember id node, rfl, ?_, ?_, ⟨hash, p, hraw⟩, ?_⟩
      · unfold remember
        split_ifs
        · rfl
        · exact (evict_fields t).1
      · unfold remember
        split_ifs
        · rfl
        · exact (evict_fields t).2
      · unfold remember
        split_ifs
        · exact hcache
        · intro e he
          rcases List.mem_cons.mp he with rfl | he
          · exact ⟨hash, p, hraw⟩
          · exact hcache e (cache_evict he)

theorem pushVariables_eq {t : TreeProjection} {xs : List (Variable FreeVariable)}
    (h : ∀ x ∈ xs, x.Scoped (2 ^ 32)) :
    t.pushVariables xs = (.ok (), { t with bytes := t.bytes ++ xs.flatMap variableBytes }) := by
  induction xs generalizing t with
  | nil => simp [pushVariables]
  | cons x xs ih =>
    have hxs := fun y hy => h y (List.mem_cons_of_mem x hy)
    cases x with
    | free v =>
      rw [pushVariables, ih hxs]
      simp
    | bound i =>
      have hi : i < 2 ^ 32 := h (.bound i) List.mem_cons_self
      rw [pushVariables, if_pos hi, ih hxs]
      simp

/-- The bytes of a tree start with its own node. -/
theorem nodeBytes_graphNodeOf (n : PrimitiveNode) : nodeBytes primitiveFormat n =
    (graphNodeOf n).tag :: ((graphNodeOf n).operands.flatMap variableBytes ++
      (graphNodeOf n).children.flatMap (nodeBytes primitiveFormat)) := by
  cases n with
  | definedRelation s => exact s.elim
  | _ => simp [nodeBytes, graphNodeOf, GraphNode.tag, GraphNode.operands, GraphNode.children]

theorem nodeCount_graphNodeOf (n : PrimitiveNode) :
    n.nodeCount = remaining (graphNodeOf n).children + 1 := by
  cases n with
  | definedRelation s => exact s.elim
  | _ => simp [Node.nodeCount, graphNodeOf, GraphNode.children, remaining]

theorem Narrow.children {n : PrimitiveNode} (h : Narrow n) :
    (∀ x ∈ (graphNodeOf n).operands, x.Scoped (2 ^ 32)) ∧
      ∀ m ∈ (graphNodeOf n).children, Narrow m := by
  obtain ⟨d, hscoped, hdepth⟩ := h
  cases n with
  | equal l r | member l r =>
    refine ⟨?_, by simp [graphNodeOf, GraphNode.children]⟩
    intro x hx
    have hle : d ≤ 2 ^ 32 := by omega
    simp only [graphNodeOf, GraphNode.operands, List.mem_cons, List.not_mem_nil, or_false] at hx
    rcases hx with rfl | rfl
    · exact Variable.scoped_mono hle hscoped.1
    · exact Variable.scoped_mono hle hscoped.2
  | not n =>
    simp only [Node.depth] at hdepth
    refine ⟨by simp [graphNodeOf, GraphNode.operands], ?_⟩
    simp only [graphNodeOf, GraphNode.children, List.mem_singleton, forall_eq]
    exact ⟨d, hscoped, by omega⟩
  | implies a b =>
    simp only [Node.depth] at hdepth
    refine ⟨by simp [graphNodeOf, GraphNode.operands], ?_⟩
    simp only [graphNodeOf, GraphNode.children, List.forall_mem_cons]
    exact ⟨⟨d, hscoped.1, by omega⟩, ⟨d, hscoped.2, by omega⟩, by simp⟩
  | forAll n =>
    simp only [Node.depth] at hdepth
    refine ⟨by simp [graphNodeOf, GraphNode.operands], ?_⟩
    simp only [graphNodeOf, GraphNode.children, List.mem_singleton, forall_eq]
    exact ⟨d + 1, hscoped, by omega⟩
  | definedRelation s => exact s.elim

/-- What a quantum does: it fails only with a failed read, keeps the projection, and otherwise
writes as many nodes as it has steps. -/
theorem advanceLoop_spec (hload : load.Reads s) {root : PrimitiveNode} {steps reads : ℕ}
    {trees : List PrimitiveNode} {t : TreeProjection} (h : Projects s root trees t) :
    ∃ trees', Projects s root trees' (advanceLoop load reads steps t).2 ∧
      remaining trees' ≤ remaining trees ∧
      ((∃ e, (advanceLoop load reads steps t).1 = .error e ∧ ∃ k id, load k id = .error e) ∨
        (advanceLoop load reads steps t).1 = .ok (decide (trees' = [])) ∧
          remaining trees' = remaining trees - steps) := by
  induction steps generalizing reads trees t with
  | zero =>
    refine ⟨trees, h, le_rfl, .inr ⟨?_, by omega⟩⟩
    have hlength := h.pending.length_eq
    simp only [advanceLoop, Except.ok.injEq]
    cases hp : t.pending <;> cases ht : trees <;> simp_all
  | succ steps ih =>
    obtain ⟨hpending, hbytes, hnarrow, hcache⟩ := h
    cases hp : t.pending with
    | nil =>
      rw [hp] at hpending
      cases hpending
      refine ⟨[], ⟨by simp [advanceLoop, hp], by simpa [advanceLoop, hp] using hbytes, by simp,
        by simpa [advanceLoop, hp] using hcache⟩, le_rfl, .inr ⟨?_, by simp [remaining]⟩⟩
      simp [advanceLoop, hp]
    | cons id rest =>
      rw [hp] at hpending
      obtain ⟨n, trees, hn, hrest, rfl⟩ := List.forall₂_cons_left_iff.mp hpending
      rcases fetch_spec hload hcache reads id with
        ⟨e, hfetch, hread⟩ | ⟨node, t', hfetch, hpending', hbytes', ⟨hash, p, hraw⟩, hcache'⟩
      · have hresult : advanceLoop load reads (steps + 1) t = (.error e, t) := by
          simp only [advanceLoop, hp, hfetch]
        rw [hresult]
        exact ⟨n :: trees, ⟨hp ▸ hpending, hbytes, hnarrow, hcache⟩, le_rfl,
          .inl ⟨e, rfl, reads, id, hread⟩⟩
      · obtain ⟨hraw', hnode, hsub⟩ := hn
        cases hraw.symm.trans hraw'
        obtain ⟨hoperands, hchildren⟩ := (hnarrow n List.mem_cons_self).children
        have htag : node.tag = (graphNodeOf n).tag := by rw [hnode, GraphNode.tag_map]
        have hvars : node.operands = (graphNodeOf n).operands := by
          rw [hnode, GraphNode.operands_map]
        have hstep : advanceLoop load reads (steps + 1) t = advanceLoop load (reads + 1) steps
            { t' with
              pending := node.children ++ rest
              bytes := t'.bytes ++ [node.tag] ++ node.operands.flatMap variableBytes } := by
          simp only [advanceLoop, hp, hfetch, pushVariables_eq (hvars ▸ hoperands)]
        have hnext : Projects s root ((graphNodeOf n).children ++ trees)
            { t' with
              pending := node.children ++ rest
              bytes := t'.bytes ++ [node.tag] ++ node.operands.flatMap variableBytes } := by
          refine ⟨List.rel_append ?_ hrest, ?_, ?_, hcache'⟩
          · rw [hnode, GraphNode.children_map, List.forall₂_map_right_iff, List.forall₂_same]
            exact hsub
          · rw [← hbytes, List.flatMap_cons, nodeBytes_graphNodeOf n, hbytes', htag, hvars]
            simp
          · intro m hm
            rcases List.mem_append.mp hm with hm | hm
            · exact hchildren m hm
            · exact hnarrow m (List.mem_cons_of_mem n hm)
        have hcount : remaining (n :: trees) = remaining ((graphNodeOf n).children ++ trees) + 1 := by
          have := nodeCount_graphNodeOf n
          simp only [remaining, List.map_cons, List.map_append, List.sum_cons, List.sum_append] at this ⊢
          omega
        obtain ⟨trees', hprojects, hle, hresult⟩ := ih hnext
        rw [hstep]
        refine ⟨trees', hprojects, by omega, ?_⟩
        rcases hresult with herror | ⟨hok, hremaining⟩
        · exact .inl herror
        · exact .inr ⟨hok, by omega⟩

theorem Projects.new {n : PrimitiveNode} {id cacheLimit : ℕ} (h : s.Unfolds id n)
    (hn : Narrow n) : Projects s n [n] (.new id cacheLimit) :=
  ⟨.cons h .nil, by simp [TreeProjection.new], by simpa using hn, by simp [TreeProjection.new]⟩

theorem Projects.restrictCache {root : PrimitiveNode} {trees : List PrimitiveNode}
    {t : TreeProjection} (h : Projects s root trees t) (cacheLimit : ℕ) :
    Projects s root trees (t.restrictCache cacheLimit) :=
  ⟨h.pending, h.bytes, h.narrow, by simp [TreeProjection.restrictCache]⟩

theorem Projects.advance (hload : load.Reads s) {root : PrimitiveNode} {trees : List PrimitiveNode}
    {t : TreeProjection} (h : Projects s root trees t) (steps : ℕ) :
    ∃ trees', Projects s root trees' (t.advance load steps).2 ∧
      remaining trees' ≤ remaining trees ∧
      ((∃ e, (t.advance load steps).1 = .error e ∧ ∃ k id, load k id = .error e) ∨
        (t.advance load steps).1 = .ok (decide (trees' = [])) ∧
          remaining trees' = remaining trees - steps) :=
  advanceLoop_spec hload ⟨h.pending, h.bytes, h.narrow, by simp⟩

/-- A complete projection is the formula. -/
theorem Projects.finish {f : Formula} {t : TreeProjection} (h : Projects s f.node [] t)
    (hf : f.WithinLimits) : t.finish = .ok f := by
  have hpending : t.pending = [] := List.forall₂_nil_right_iff.mp h.pending
  have hbytes : t.bytes = f.canonicalBytes := by
    have := h.bytes
    rwa [List.flatMap_nil, List.append_nil] at this
  rw [TreeProjection.finish, hbytes, Formula.decodeCanonical_eq_ok.mpr ⟨hf, rfl⟩]
  simp [hpending, require, Except.mapError]

theorem remaining_pos {trees : List PrimitiveNode} (h : trees ≠ []) : 0 < remaining trees := by
  cases trees with
  | nil => exact absurd rfl h
  | cons n trees =>
    have := n.nodeCount_pos
    simp only [remaining, List.map_cons, List.sum_cons]
    omega

end TreeProjection

/-- The walk over the reachable nodes, then the projection. The two sets are temporary tables. -/
structure Finalization where
  exportPending : List ℕ
  exportNode : List ℕ
  reachable : ℕ
  walkComplete : Bool
  tree : Option TreeProjection
  canonical : Option (Option Formula)

/-- One call: the statements that start a finalization and that commit a walk may fail. -/
structure Quantum where
  steps : ℕ
  opens : Bool
  commits : Bool
  load : Loader

namespace Finalization

def insertOrIgnore (id : ℕ) (ids : List ℕ) : List ℕ := if id ∈ ids then ids else id :: ids

/-- Queues the children that have not been visited. -/
def queue (nodes : List ℕ) (children pending : List ℕ) : List ℕ :=
  children.foldl (fun pending child =>
    if child ∈ nodes then pending else insertOrIgnore child pending) pending

/-- Visits the queued nodes from the highest address; reports whether none is left. -/
def walkLoop (load : Loader) :
    ℕ → ℕ → Finalization → Except ProgramError (Bool × Finalization)
  | _, 0, f => .ok (false, f)
  | reads, steps + 1, f =>
    match f.exportPending.max? with
    | none => .ok (true, f)
    | some id => do
      let node ← load reads id
      let exportNode := insertOrIgnore id f.exportNode
      walkLoop load (reads + 1) steps
        { f with
          exportNode
          exportPending := queue exportNode node.children
            (f.exportPending.filter fun i => decide (i ≠ id))
          reachable := f.reachable + if id ∈ f.exportNode then 0 else 1 }

def begin (root cacheLimit : ℕ) (shape : Shape) : Finalization where
  exportPending := [root]
  exportNode := []
  reachable := 0
  walkComplete := false
  tree := if shape.fits then some (.new root cacheLimit) else none
  canonical := none

def restrictCache (cacheLimit : ℕ) (f : Finalization) : Finalization :=
  { f with tree := f.tree.map (·.restrictCache cacheLimit) }

/-- A failed walk leaves the tables as they were. -/
def walk (q : Quantum) (f : Finalization) : Except ProgramError Bool × Finalization :=
  match walkLoop q.load 1 q.steps f with
  | .error e => (.error e, f)
  | .ok (complete, f') =>
    if q.commits = true then (.ok false, { f' with walkComplete := complete })
    else (.error (.storage "walk not committed"), f)

def project (q : Quantum) (f : Finalization) : Except ProgramError Bool × Finalization :=
  match f.tree with
  | none => (.ok true, { f with canonical := some none })
  | some tree =>
    match tree.advance q.load q.steps with
    | (.ok true, tree) =>
      match tree.finish with
      | .ok formula => (.ok true, { f with tree := none, canonical := some (some formula) })
      | .error e => (.error e, { f with tree := some tree })
    | (.ok false, tree) => (.ok false, { f with tree := some tree })
    | (.error e, tree) => (.error e, { f with tree := some tree })

def resume (q : Quantum) (f : Finalization) : Except ProgramError Bool × Finalization :=
  if f.walkComplete = false then f.walk q
  else if f.canonical.isSome then (.ok true, f)
  else f.project q

end Finalization

/-- One quantum of the finalization of an accepted root. -/
def prepareConclusion (root cacheLimit : ℕ) (shape : Shape) (q : Quantum)
    (f : Option Finalization) : Except ProgramError Bool × Option Finalization :=
  if q.steps = 0 then (.ok false, f)
  else
    match f with
    | some f => ((f.resume q).1, some (f.resume q).2)
    | none =>
      match q.load 0 root with
      | .error e => (.error e, none)
      | .ok _ =>
        if q.opens = true then
          (((Finalization.begin root cacheLimit shape).resume q).1,
            some ((Finalization.begin root cacheLimit shape).resume q).2)
        else (.error (.storage "finalization not started"), none)

end Naome
