import Naome.FormulaGraph

/-!
# The node store of the program evaluator

Persisted nodes are authenticated by this evaluator before they are used: a row counts only when
its hash and properties are those computed from authenticated children. Every authenticated row
unfolds to one tree, and what is remembered for it is determined by that tree.
-/
namespace Naome
open LocallyNameless Outcome

/-- A persisted row; the node is absent when the row cannot be decoded. -/
structure NodeRow where
  node : Option (GraphNode ℕ)
  hash : Digest
  properties : Properties

structure NodeStore where
  rows : List (ℕ × NodeRow)
  authenticated : ℕ → Option Representation

namespace NodeStore

section

variable (sha256 : List UInt8 → Digest) (s : NodeStore)

def row (id : ℕ) : Option NodeRow := (s.rows.find? fun r => decide (r.1 = id)).map Prod.snd

/-- A row whose children have smaller addresses. -/
def raw (id : ℕ) : Except String (GraphNode ℕ × Digest × Properties) := do
  let row ← orError "query returned no rows" (s.row id)
  let node ← orError "invalid formula graph row" row.node
  require (∀ child ∈ node.children, 0 < child ∧ child < id) "formula graph is not acyclic"
  return (node, row.hash, row.properties)

/-- The authenticated representation of a child whose row still has it. -/
def child (id : ℕ) : Except String Representation := do
  let (_, hash, p) ← s.raw id
  let r ← orError "formula child has not passed current-owner authentication" (s.authenticated id)
  require (r.hash = hash ∧ r.properties = p)
    "formula child has not passed current-owner authentication"
  return r

def representation (node : GraphNode ℕ) : Except String Representation := do
  let children ← node.mapM s.child
  return represent sha256 children

def rememberAuthenticated (id : ℕ) (r : Representation) : Except String NodeStore := do
  let authenticated := Function.update s.authenticated id (some ((s.authenticated id).getD r))
  require (authenticated id = some r) "authenticated formula changed within its owner"
  return { s with authenticated }

def load (id : ℕ) : Except String ((GraphNode ℕ × Digest × Properties) × NodeStore) := do
  let (node, hash, p) ← s.raw id
  let r ← s.representation sha256 node
  require ((r.hash, r.properties) = (hash, p)) "formula graph content authentication failed"
  let s ← s.rememberAuthenticated id r
  return ((node, hash, p), s)

/-- The address of an inserted row. -/
def nextId : ℕ := (s.rows.map Prod.fst).foldr max 0 + 1

/-- The address of a node, inserted when no row has its hash. -/
def intern (node : GraphNode ℕ) : Except String (ℕ × NodeStore) := do
  let r ← s.representation sha256 node
  match s.rows.find? fun row => decide (row.2.hash = r.hash) with
  | some (id, _) =>
    let (loaded, s) ← s.load sha256 id
    require (loaded = (node, r.hash, r.properties)) "formula graph identity collision or corruption"
    return (id, s)
  | none =>
    let id := s.nextId
    let inserted : NodeStore := { s with rows := s.rows ++ [(id, ⟨some node, r.hash, r.properties⟩)] }
    let s ← inserted.rememberAuthenticated id r
    return (id, s)

/-- The stores of an evaluator that was opened on any rows. -/
inductive Reached : NodeStore → Prop
  | opened (rows : List (ℕ × NodeRow)) : Reached ⟨rows, fun _ => none⟩
  | load {s s' : NodeStore} {id : ℕ} {loaded : GraphNode ℕ × Digest × Properties} :
    Reached s → s.load sha256 id = .ok (loaded, s') → Reached s'
  | intern {s s' : NodeStore} {node : GraphNode ℕ} {id : ℕ} :
    Reached s → s.intern sha256 node = .ok (id, s') → Reached s'

/-- The tree at an address. -/
inductive Unfolds : ℕ → PrimitiveNode → Prop
  | intro {id : ℕ} {node : GraphNode ℕ} {hash : Digest} {p : Properties} {n : PrimitiveNode}
    {subtree : ℕ → PrimitiveNode} : s.raw id = .ok (node, hash, p) →
    graphNodeOf n = node.map subtree → (∀ i ∈ node.children, Unfolds i (subtree i)) → Unfolds id n

end

variable {sha256 : List UInt8 → Digest} {s s' : NodeStore}

theorem raw_eq_ok {id : ℕ} {node : GraphNode ℕ} {hash : Digest} {p : Properties} :
    s.raw id = .ok (node, hash, p) ↔ s.row id = some ⟨some node, hash, p⟩ ∧
      ∀ child ∈ node.children, 0 < child ∧ child < id := by
  simp only [raw, bind_eq_ok, orError_eq_ok, require_eq_ok, pure_eq_ok, exists_and_left,
    exists_const, Prod.mk.injEq]
  constructor
  · rintro ⟨row, hrow, _, hnode, hchildren, rfl, rfl, rfl⟩
    obtain ⟨node, hash, p⟩ := row
    dsimp only at hnode
    subst hnode
    exact ⟨hrow, hchildren⟩
  · rintro ⟨hrow, hchildren⟩
    exact ⟨_, hrow, node, rfl, hchildren, rfl, rfl, rfl⟩

theorem child_eq_ok {id : ℕ} {r : Representation} :
    s.child id = .ok r ↔ s.authenticated id = some r ∧
      ∃ node, s.raw id = .ok (node, r.hash, r.properties) := by
  simp only [child, bind_eq_ok, orError_eq_ok, require_eq_ok, pure_eq_ok, exists_and_left,
    exists_const, Prod.exists]
  constructor
  · rintro ⟨node, hash, p, hraw, _, hauth, ⟨rfl, rfl⟩, rfl⟩
    exact ⟨hauth, node, hraw⟩
  · rintro ⟨hauth, node, hraw⟩
    exact ⟨node, _, _, hraw, r, hauth, ⟨rfl, rfl⟩, rfl⟩

theorem rememberAuthenticated_eq_ok {id : ℕ} {r : Representation} :
    s.rememberAuthenticated id r = .ok s' ↔
      (s.authenticated id = none ∨ s.authenticated id = some r) ∧
        s' = { s with authenticated := Function.update s.authenticated id (some r) } := by
  simp only [rememberAuthenticated, bind_eq_ok, require_eq_ok, pure_eq_ok, exists_and_left,
    exists_const, Function.update_self, Option.some.injEq]
  constructor
  · rintro ⟨h, rfl⟩
    refine ⟨?_, by rw [h]⟩
    cases hauth : s.authenticated id with
    | none => exact .inl rfl
    | some r' =>
      rw [hauth] at h
      exact .inr (congrArg some h)
  · rintro ⟨h, rfl⟩
    have hget : (s.authenticated id).getD r = r := by
      rcases h with h | h
      · rw [h]
        rfl
      · rw [h]
        rfl
    exact ⟨hget, by rw [hget]⟩

/-- What is remembered was computed from the row and from remembered children. -/
structure Entry (sha256 : List UInt8 → Digest) (s : NodeStore) (id : ℕ) (r : Representation) :
    Prop where
  intro ::
  exists_children : ∃ node children, s.row id = some ⟨some node, r.hash, r.properties⟩ ∧
    (∀ c ∈ node.children, c < id) ∧ node.mapM s.child = .ok children ∧
    r = represent sha256 children

def Sound (sha256 : List UInt8 → Digest) (s : NodeStore) : Prop :=
  ∀ id r, s.authenticated id = some r → Entry sha256 s id r

/-- Rows stay, and so does what is remembered. -/
structure Extends (s s' : NodeStore) : Prop where
  row : ∀ id row, s.row id = some row → s'.row id = some row
  authenticated : ∀ id r, s.authenticated id = some r → s'.authenticated id = some r

theorem Extends.trans {t : NodeStore} (h : s.Extends s') (h' : s'.Extends t) : s.Extends t :=
  ⟨fun id row hr => h'.row id row (h.row id row hr),
    fun id r hr => h'.authenticated id r (h.authenticated id r hr)⟩

theorem Extends.raw (h : s.Extends s') {id : ℕ} {x : GraphNode ℕ × Digest × Properties}
    (hraw : s.raw id = .ok x) : s'.raw id = .ok x := by
  obtain ⟨node, hash, p⟩ := x
  rw [raw_eq_ok] at hraw ⊢
  exact ⟨h.row id _ hraw.1, hraw.2⟩

theorem Extends.child (h : s.Extends s') {id : ℕ} {r : Representation}
    (hchild : s.child id = .ok r) : s'.child id = .ok r := by
  rw [child_eq_ok] at hchild ⊢
  obtain ⟨hauth, node, hraw⟩ := hchild
  exact ⟨h.authenticated id r hauth, node, h.raw hraw⟩

theorem Extends.mapM_child (h : s.Extends s') {node : GraphNode ℕ}
    {children : GraphNode Representation} (hm : node.mapM s.child = .ok children) :
    node.mapM s'.child = .ok children := by
  cases node with
  | equal | member => exact hm
  | not a | forAll a =>
    simp only [GraphNode.mapM, bind_eq_ok, pure_eq_ok] at hm ⊢
    obtain ⟨r, hr, rfl⟩ := hm
    exact ⟨r, h.child hr, rfl⟩
  | implies a b =>
    simp only [GraphNode.mapM, bind_eq_ok, pure_eq_ok] at hm ⊢
    obtain ⟨r, hr, q, hq, rfl⟩ := hm
    exact ⟨r, h.child hr, q, h.child hq, rfl⟩

theorem Extends.entry (h : s.Extends s') {id : ℕ} {r : Representation}
    (he : Entry sha256 s id r) : Entry sha256 s' id r := by
  obtain ⟨node, children, hrow, hlt, hm, hr⟩ := he.exists_children
  exact ⟨node, children, h.row id _ hrow, hlt, h.mapM_child hm, hr⟩

/-- Remembering a computed representation keeps the store sound. -/
theorem Sound.remember (hs : Sound sha256 s) {id : ℕ} {r : Representation}
    (hentry : Entry sha256 s id r) (h : s.rememberAuthenticated id r = .ok s') :
    Sound sha256 s' ∧ s.Extends s' ∧ s'.rows = s.rows ∧ s'.authenticated id = some r := by
  obtain ⟨hold, rfl⟩ := rememberAuthenticated_eq_ok.1 h
  have hext : s.Extends { s with authenticated := Function.update s.authenticated id (some r) } := by
    refine ⟨fun _ _ hrow => hrow, fun i q hq => ?_⟩
    by_cases hi : i = id
    · subst hi
      rcases hold with hold | hold
      · rw [hold] at hq
        cases hq
      · rw [hold] at hq
        cases hq
        exact Function.update_self _ _ _
    · exact (Function.update_of_ne hi _ _).trans hq
  refine ⟨fun i q hq => ?_, hext, rfl, Function.update_self _ _ _⟩
  by_cases hi : i = id
  · subst hi
    cases (Function.update_self (f := s.authenticated) i (some r)).symm.trans hq
    exact hext.entry hentry
  · exact hext.entry (hs i q ((Function.update_of_ne hi _ _).symm.trans hq))

theorem Sound.load (hs : Sound sha256 s) {id : ℕ} {node : GraphNode ℕ} {hash : Digest}
    {p : Properties} (h : s.load sha256 id = .ok ((node, hash, p), s')) :
    Sound sha256 s' ∧ s.Extends s' ∧ s'.rows = s.rows ∧ s.raw id = .ok (node, hash, p) ∧
      ∃ r, s'.authenticated id = some r ∧ r.hash = hash ∧ r.properties = p := by
  simp only [NodeStore.load, representation, bind_eq_ok, require_eq_ok, pure_eq_ok,
    exists_and_left, exists_const, Prod.exists, Prod.mk.injEq] at h
  obtain ⟨_, _, _, hraw, r, ⟨children, hchildren, rfl⟩, ⟨rfl, rfl⟩, t, hremember, ⟨rfl, rfl, rfl⟩,
    rfl⟩ := h
  obtain ⟨hrow, hlt⟩ := raw_eq_ok.1 hraw
  obtain ⟨hsound, hext, hrows, hauth⟩ :=
    hs.remember ⟨_, children, hrow, fun c hc => (hlt c hc).2, hchildren, rfl⟩ hremember
  exact ⟨hsound, hext, hrows, hraw, _, hauth, rfl, rfl⟩

/-- A row with the computed hash and properties is loaded. -/
theorem load_eq_ok {id : ℕ} {node : GraphNode ℕ} {r : Representation}
    (hraw : s.raw id = .ok (node, r.hash, r.properties))
    (hr : s.representation sha256 node = .ok r) (hauth : s.authenticated id = none) :
    s.load sha256 id = .ok ((node, r.hash, r.properties),
      { s with authenticated := Function.update s.authenticated id (some r) }) := by
  simp only [NodeStore.load, bind_eq_ok, require_eq_ok, pure_eq_ok, exists_and_left, exists_const,
    Prod.exists, Prod.mk.injEq]
  exact ⟨node, _, _, hraw, r, hr, ⟨rfl, rfl⟩, _,
    rememberAuthenticated_eq_ok.2 ⟨.inl hauth, rfl⟩, ⟨rfl, rfl, rfl⟩, rfl⟩

theorem lt_nextId {id : ℕ} {row : NodeRow} (h : s.row id = some row) : id < s.nextId := by
  obtain ⟨p, hp, _⟩ := Option.map_eq_some_iff.mp h
  have hmem := List.mem_of_find?_eq_some hp
  have hid : p.1 = id := by simpa using List.find?_some hp
  have hle : ∀ (ids : List ℕ), ∀ i ∈ ids, i ≤ ids.foldr max 0 := by
    intro ids
    induction ids with
    | nil => simp
    | cons j ids ih =>
      intro i hi
      rw [List.foldr_cons]
      rcases List.mem_cons.mp hi with rfl | hi
      · exact le_max_left _ _
      · exact (ih i hi).trans (le_max_right _ _)
  have := hle _ p.1 (List.mem_map_of_mem hmem)
  rw [nextId]
  omega

theorem extends_insert (s : NodeStore) (row : NodeRow) :
    s.Extends { s with rows := s.rows ++ [(s.nextId, row)] } ∧
      ({ s with rows := s.rows ++ [(s.nextId, row)] } : NodeStore).row s.nextId = some row := by
  refine ⟨⟨fun id other h => ?_, fun _ _ h => h⟩, ?_⟩
  · obtain ⟨p, hp, hrow⟩ := Option.map_eq_some_iff.mp h
    rw [NodeStore.row, List.find?_append, hp]
    exact congrArg some hrow
  · have hnone : (s.rows.find? fun r => decide (r.1 = s.nextId)) = none := by
      cases hfind : s.rows.find? fun r => decide (r.1 = s.nextId) with
      | none => rfl
      | some p =>
        have hrow : s.row s.nextId = some p.2 := by rw [NodeStore.row, hfind]; rfl
        exact absurd (lt_nextId hrow) (lt_irrefl _)
    rw [NodeStore.row, List.find?_append, hnone]
    simp

theorem Sound.intern (hs : Sound sha256 s) {id : ℕ} {node : GraphNode ℕ}
    (h : s.intern sha256 node = .ok (id, s')) : Sound sha256 s' ∧ s.Extends s' := by
  simp only [NodeStore.intern, representation, bind_eq_ok, pure_eq_ok] at h
  obtain ⟨r, ⟨children, hchildren, rfl⟩, h⟩ := h
  split at h
  · simp only [bind_eq_ok, require_eq_ok, pure_eq_ok, exists_and_left, exists_const, Prod.exists,
      Prod.mk.injEq] at h
    obtain ⟨_, _, _, t, hload, _, _, rfl⟩ := h
    obtain ⟨hsound, hext, _⟩ := hs.load hload
    exact ⟨hsound, hext⟩
  · simp only [bind_eq_ok, pure_eq_ok, Prod.mk.injEq] at h
    obtain ⟨t, hremember, _, rfl⟩ := h
    obtain ⟨hext, hrow⟩ := extends_insert s ⟨some node, (represent sha256 children).hash,
      (represent sha256 children).properties⟩
    have hsound : Sound sha256 { s with rows := s.rows ++ [(s.nextId, ⟨some node,
        (represent sha256 children).hash, (represent sha256 children).properties⟩)] } :=
      fun i q hq => hext.entry (hs i q hq)
    have hlt : ∀ c ∈ node.children, c < s.nextId := by
      intro c hc
      obtain ⟨q, hq⟩ := GraphNode.mapM_eq_ok hchildren c hc
      obtain ⟨_, n, hn⟩ := child_eq_ok.1 hq
      exact lt_nextId (raw_eq_ok.1 hn).1
    have hentry : Entry sha256 _ s.nextId (represent sha256 children) :=
      ⟨node, children, hrow, hlt, hext.mapM_child hchildren, rfl⟩
    obtain ⟨hsound', hext', _⟩ := hsound.remember hentry hremember
    exact ⟨hsound', hext.trans hext'⟩

theorem sound_of_reached (h : Reached sha256 s) : Sound sha256 s := by
  induction h with
  | opened rows =>
    intro id r hr
    cases hr
  | @load s s' id loaded _ h ih =>
    obtain ⟨node, hash, p⟩ := loaded
    exact (ih.load h).1
  | intern _ h ih => exact (ih.intern h).1

theorem mapM_child_eq {node : GraphNode ℕ} {children : GraphNode Representation}
    (h : node.mapM s.child = .ok children) :
    ∃ f : ℕ → Representation, (∀ i ∈ node.children, s.child i = .ok (f i)) ∧
      children = node.map f := by
  have hf : ∀ i ∈ node.children,
      s.child i = .ok ((s.child i).toOption.getD ⟨0, ⟨false, 0⟩, ⟨0, 0, 0⟩⟩) := by
    intro i hi
    obtain ⟨r, hr⟩ := GraphNode.mapM_eq_ok h i hi
    rw [hr]
    rfl
  refine ⟨_, hf, ?_⟩
  rw [GraphNode.mapM_of_children hf] at h
  exact (Except.ok.inj h).symm

/-- An authenticated row unfolds to a tree that determines what is remembered for it. -/
theorem Sound.unfolds (hs : Sound sha256 s) {id : ℕ} {r : Representation}
    (h : s.child id = .ok r) :
    ∃ n, s.Unfolds id n ∧ r = foldGraph (represent sha256) n := by
  induction id using Nat.strong_induction_on generalizing r with
  | _ id ih =>
    obtain ⟨hauth, node, hraw⟩ := child_eq_ok.1 h
    obtain ⟨node', children, hrow, hlt, hm, hr⟩ := (hs id r hauth).exists_children
    obtain ⟨hrow', _⟩ := raw_eq_ok.1 hraw
    cases hrow.symm.trans hrow'
    obtain ⟨f, hf, rfl⟩ := mapM_child_eq hm
    have hsub : ∀ i, ∃ n, i ∈ node.children →
        s.Unfolds i n ∧ f i = foldGraph (represent sha256) n := by
      intro i
      by_cases hi : i ∈ node.children
      · obtain ⟨n, hn⟩ := ih i (hlt i hi) (hf i hi)
        exact ⟨n, fun _ => hn⟩
      · exact ⟨.equal (.bound 0) (.bound 0), fun h => absurd h hi⟩
    choose subtree hsubtree using hsub
    obtain ⟨n, hn⟩ : ∃ n, graphNodeOf n = node.map subtree := by
      cases node with
      | equal a b => exact ⟨.equal a b, rfl⟩
      | member a b => exact ⟨.member a b, rfl⟩
      | not a => exact ⟨.not (subtree a), rfl⟩
      | implies a b => exact ⟨.implies (subtree a) (subtree b), rfl⟩
      | forAll a => exact ⟨.forAll (subtree a), rfl⟩
    refine ⟨n, .intro hraw hn fun i hi => (hsubtree i hi).1, ?_⟩
    rw [hr, foldGraph_eq, hn, GraphNode.map_map]
    exact congrArg _ (GraphNode.map_congr fun i hi => (hsubtree i hi).2)

/-- One address, one tree. -/
theorem Unfolds.unique {id : ℕ} {n m : PrimitiveNode} (h : s.Unfolds id n) (h' : s.Unfolds id m) :
    n = m := by
  induction h generalizing m with
  | intro hraw hn _ ih =>
    obtain ⟨hraw', hm, hsub'⟩ := h'
    cases hraw.symm.trans hraw'
    apply graphNodeOf_injective
    rw [hn, hm]
    exact GraphNode.map_congr fun i hi => ih i hi (hsub' i hi)

end NodeStore
end Naome
