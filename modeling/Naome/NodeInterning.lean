import Naome.NodeStore

/-!
# Interned graphs

In a graph that holds only interned nodes every formula has one address, as long as no two of the
formulas it holds share a hash. Interning a node over authenticated children then never fails.
-/
namespace Naome.NodeStore
open LocallyNameless Outcome

/-- The rows that interning writes, under the constraints of the table. -/
structure Interned (sha256 : List UInt8 → Digest) (s : NodeStore) : Prop where
  ids : (s.rows.map Prod.fst).Nodup
  hashes : (s.rows.map fun r => r.2.hash).Nodup
  positive : ∀ id row, s.row id = some row → 0 < id
  unfolds : ∀ id row, s.row id = some row → ∃ n, s.Unfolds id n ∧ row.hash = formulaHash sha256 n ∧
    row.properties = (foldGraph (represent sha256) n).properties

/-- The formulas that the graph holds. -/
def Holds (s : NodeStore) (formulas : Set PrimitiveNode) : Prop :=
  ∀ id n, s.Unfolds id n → n ∈ formulas

variable {sha256 : List UInt8 → Digest} {s s' : NodeStore} {formulas : Set PrimitiveNode}

theorem row_eq_some_iff (hids : (s.rows.map Prod.fst).Nodup) {id : ℕ} {row : NodeRow} :
    s.row id = some row ↔ (id, row) ∈ s.rows := by
  constructor
  · intro h
    obtain ⟨p, hp, rfl⟩ := Option.map_eq_some_iff.mp h
    have hid : p.1 = id := by simpa using List.find?_some hp
    rw [← hid]
    exact List.mem_of_find?_eq_some hp
  · intro h
    obtain ⟨p, hp⟩ : ∃ p, (s.rows.find? fun r => decide (r.1 = id)) = some p := by
      rw [← Option.isSome_iff_exists, List.find?_isSome]
      exact ⟨_, h, by simp⟩
    have hid : p.1 = id := by simpa using List.find?_some hp
    have heq : p = (id, row) := List.inj_on_of_nodup_map hids (List.mem_of_find?_eq_some hp) h hid
    rw [NodeStore.row, hp, heq]
    rfl

/-- Rows stay. -/
def Grows (s s' : NodeStore) : Prop := ∀ id row, s.row id = some row → s'.row id = some row

theorem Grows.raw (h : s.Grows s') {id : ℕ} {x : GraphNode ℕ × Digest × Properties}
    (hraw : s.raw id = .ok x) : s'.raw id = .ok x := by
  obtain ⟨node, hash, p⟩ := x
  rw [raw_eq_ok] at hraw ⊢
  exact ⟨h id _ hraw.1, hraw.2⟩

theorem Grows.unfolds (h : s.Grows s') {id : ℕ} {n : PrimitiveNode} (hn : s.Unfolds id n) :
    s'.Unfolds id n := by
  induction hn with
  | intro hraw hnode _ ih => exact .intro (h.raw hraw) hnode ih

theorem Extends.grows (h : s.Extends s') : s.Grows s' := h.row

theorem Unfolds.exists_row {id : ℕ} {n : PrimitiveNode} (h : s.Unfolds id n) :
    ∃ row, s.row id = some row := by
  obtain ⟨hraw, -, -⟩ := h
  exact ⟨_, (raw_eq_ok.1 hraw).1⟩

/-- The subtrees of a formula are those of its node. -/
theorem Unfolds.exists_subtree {id : ℕ} {n : PrimitiveNode} (h : s.Unfolds id n)
    {node : GraphNode ℕ} {hash : Digest} {p : Properties} (hraw : s.raw id = .ok (node, hash, p)) :
    ∃ subtree, graphNodeOf n = node.map subtree ∧ ∀ i ∈ node.children, s.Unfolds i (subtree i) := by
  obtain ⟨hraw', hnode, hsub⟩ := h
  cases hraw.symm.trans hraw'
  exact ⟨_, hnode, hsub⟩

/-- The row at the address of a formula. -/
theorem Interned.row (hi : Interned sha256 s) {id : ℕ} {n : PrimitiveNode} (h : s.Unfolds id n) :
    ∃ row, (id, row) ∈ s.rows ∧ row.hash = formulaHash sha256 n ∧
      row.properties = (foldGraph (represent sha256) n).properties := by
  obtain ⟨row, hrow⟩ := h.exists_row
  obtain ⟨m, hm, hhash, hproperties⟩ := hi.unfolds id row hrow
  cases hm.unique h
  exact ⟨row, (row_eq_some_iff hi.ids).mp hrow, hhash, hproperties⟩

/-- One formula, one address. -/
theorem Interned.address (hi : Interned sha256 s) {i j : ℕ} {n : PrimitiveNode}
    (h : s.Unfolds i n) (h' : s.Unfolds j n) : i = j := by
  obtain ⟨row, hrow, hhash, -⟩ := hi.row h
  obtain ⟨row', hrow', hhash', -⟩ := hi.row h'
  exact congrArg Prod.fst
    (List.inj_on_of_nodup_map hi.hashes hrow hrow' (hhash.trans hhash'.symm))

/-- What is remembered for an address is computed from its formula. -/
theorem Sound.representation_eq (hs : Sound sha256 s) {id : ℕ} {r : Representation}
    {n : PrimitiveNode} (h : s.child id = .ok r) (hn : s.Unfolds id n) :
    r = foldGraph (represent sha256) n := by
  obtain ⟨m, hm, hr⟩ := hs.unfolds h
  rw [hr, hm.unique hn]

/-- The children of an authenticated node are authenticated. -/
theorem Sound.children (hs : Sound sha256 s) {id : ℕ} {r : Representation} {node : GraphNode ℕ}
    {hash : Digest} {p : Properties} (h : s.child id = .ok r)
    (hraw : s.raw id = .ok (node, hash, p)) : ∀ c ∈ node.children, ∃ q, s.child c = .ok q := by
  obtain ⟨hauth, -⟩ := child_eq_ok.1 h
  obtain ⟨node', children, hrow, -, hm, -⟩ := (hs id r hauth).exists_children
  cases hrow.symm.trans (raw_eq_ok.1 hraw).1
  exact GraphNode.mapM_eq_ok hm

/-- The representation of a node over authenticated children. -/
theorem Sound.representation (hs : Sound sha256 s) {node : GraphNode ℕ} {n : PrimitiveNode}
    {subtree : ℕ → PrimitiveNode} (hnode : graphNodeOf n = node.map subtree)
    (hchildren : ∀ c ∈ node.children, s.Unfolds c (subtree c) ∧ ∃ r, s.child c = .ok r) :
    s.representation sha256 node = .ok (foldGraph (represent sha256) n) := by
  have hf : ∀ c ∈ node.children, s.child c = .ok (foldGraph (represent sha256) (subtree c)) := by
    intro c hc
    obtain ⟨hunfolds, r, hr⟩ := hchildren c hc
    rw [hr, hs.representation_eq hr hunfolds]
  rw [NodeStore.representation, GraphNode.mapM_of_children hf, ok_bind, foldGraph_eq, hnode,
    GraphNode.map_map]
  rfl

/-- What is already remembered for a row is what the row gives now. -/
theorem Sound.remembered (hs : Sound sha256 s) {id : ℕ} {r r' : Representation}
    {node : GraphNode ℕ} {hash : Digest} {p : Properties} (hraw : s.raw id = .ok (node, hash, p))
    (hr : s.representation sha256 node = .ok r) (hauth : s.authenticated id = some r') : r' = r := by
  obtain ⟨node', children, hrow, -, hm, rfl⟩ := (hs id r' hauth).exists_children
  cases hrow.symm.trans (raw_eq_ok.1 hraw).1
  rw [NodeStore.representation, hm, ok_bind] at hr
  exact pure_eq_ok.mp hr

/-- Loading a row over authenticated children succeeds and keeps the rows. -/
theorem Sound.exists_load (hs : Sound sha256 s) {id : ℕ} {node : GraphNode ℕ} {r : Representation}
    (hraw : s.raw id = .ok (node, r.hash, r.properties))
    (hr : s.representation sha256 node = .ok r) :
    ∃ s', s.load sha256 id = .ok ((node, r.hash, r.properties), s') ∧ s'.rows = s.rows ∧
      s'.authenticated = Function.update s.authenticated id (some r) ∧ s'.child id = .ok r := by
  have hold : s.authenticated id = none ∨ s.authenticated id = some r := by
    cases hauth : s.authenticated id with
    | none => exact .inl rfl
    | some r' => exact .inr (congrArg some (hs.remembered hraw hr hauth))
  refine ⟨{ s with authenticated := Function.update s.authenticated id (some r) }, ?_, rfl, rfl, ?_⟩
  · simp only [NodeStore.load, bind_eq_ok, require_eq_ok, pure_eq_ok, exists_and_left, exists_const,
      Prod.exists, Prod.mk.injEq]
    exact ⟨node, _, _, hraw, r, hr, ⟨rfl, rfl⟩, _,
      rememberAuthenticated_eq_ok.2 ⟨hold, rfl⟩, ⟨rfl, rfl, rfl⟩, rfl⟩
  · exact child_eq_ok.2 ⟨Function.update_self _ _ _, node, hraw⟩

/-- Loading an authenticated node changes nothing. -/
theorem Sound.load_of_child (hs : Sound sha256 s) {id : ℕ} {r : Representation}
    (h : s.child id = .ok r) : ∃ node, s.raw id = .ok (node, r.hash, r.properties) ∧
      s.load sha256 id = .ok ((node, r.hash, r.properties), s) := by
  obtain ⟨hauth, node, hraw⟩ := child_eq_ok.1 h
  obtain ⟨node', children, hrow, -, hm, hr⟩ := (hs id r hauth).exists_children
  cases hrow.symm.trans (raw_eq_ok.1 hraw).1
  have hrepresentation : s.representation sha256 node = .ok r := by
    rw [NodeStore.representation, hm, ok_bind, hr]
    rfl
  obtain ⟨s', hload, hrows, hauthenticated, -⟩ := hs.exists_load hraw hrepresentation
  have heq : s' = s := by
    obtain ⟨rows, authenticated⟩ := s'
    dsimp only at hrows hauthenticated
    rw [hrows, hauthenticated, ← hauth, Function.update_eq_self]
  exact ⟨node, hraw, heq ▸ hload⟩

theorem map_eq_map {f g : ℕ → PrimitiveNode} {node node' : GraphNode ℕ}
    (h : node.map f = node'.map g)
    (hinj : ∀ i ∈ node.children, ∀ j ∈ node'.children, f i = g j → i = j) : node = node' := by
  cases node <;> cases node' <;> simp_all [GraphNode.map, GraphNode.children]

theorem unfolds_of_rows (hrows : s'.rows = s.rows) {id : ℕ} {n : PrimitiveNode} :
    s'.Unfolds id n ↔ s.Unfolds id n := by
  have hrow : ∀ i, s'.row i = s.row i := fun i => by rw [NodeStore.row, hrows]; rfl
  have hraw : ∀ i, s'.raw i = s.raw i := fun i => by rw [NodeStore.raw, hrow]; rfl
  constructor
  · intro h
    induction h with
    | intro h hnode _ ih => exact .intro (hraw _ ▸ h) hnode ih
  · intro h
    induction h with
    | intro h hnode _ ih => exact .intro ((hraw _).trans h) hnode ih

/-- A new row over known children keeps the graph interned. -/
theorem Interned.insert (hi : Interned sha256 s) {node : GraphNode ℕ} {n : PrimitiveNode}
    {subtree : ℕ → PrimitiveNode} (hnode : graphNodeOf n = node.map subtree)
    (hchildren : ∀ c ∈ node.children, s.Unfolds c (subtree c))
    (hnew : (s.rows.find? fun row => decide (row.2.hash = formulaHash sha256 n)) = none)
    (hs' : s'.rows = s.rows ++ [(s.nextId, ⟨some node, formulaHash sha256 n,
      (foldGraph (represent sha256) n).properties⟩)])
    (hext : s.Extends s') (hheld : s.Holds formulas) (hn : n ∈ formulas) :
    s'.Unfolds s.nextId n ∧ Interned sha256 s' ∧ s'.Holds formulas := by
  have hfresh : ∀ p ∈ s.rows, p.1 < s.nextId := fun p hp =>
    lt_nextId ((row_eq_some_iff hi.ids).mpr hp)
  have hids : (s'.rows.map Prod.fst).Nodup := by
    rw [hs', List.map_append, List.nodup_append]
    refine ⟨hi.ids, by simp, ?_⟩
    intro i hid j hj
    obtain ⟨p, hp, rfl⟩ := List.mem_map.mp hid
    have := hfresh p hp
    simp only [List.map_cons, List.map_nil, List.mem_singleton] at hj
    omega
  have hmem : ∀ id row, s'.row id = some row ↔ s.row id = some row ∨ id = s.nextId ∧
      row = ⟨some node, formulaHash sha256 n, (foldGraph (represent sha256) n).properties⟩ := by
    intro id row
    rw [row_eq_some_iff hids, row_eq_some_iff hi.ids, hs', List.mem_append, List.mem_singleton,
      Prod.mk.injEq]
  have hunfolds : s'.Unfolds s.nextId n := by
    have hraw : s'.raw s.nextId = .ok (node, formulaHash sha256 n,
        (foldGraph (represent sha256) n).properties) := by
      rw [raw_eq_ok]
      refine ⟨(hmem _ _).mpr (.inr ⟨rfl, rfl⟩), fun c hc => ?_⟩
      obtain ⟨row, hrow⟩ := (hchildren c hc).exists_row
      exact ⟨hi.positive c row hrow, lt_nextId hrow⟩
    exact .intro hraw hnode fun c hc => hext.grows.unfolds (hchildren c hc)
  refine ⟨hunfolds, ⟨hids, ?_, ?_, ?_⟩, ?_⟩
  · rw [hs', List.map_append, List.nodup_append]
    refine ⟨hi.hashes, by simp, ?_⟩
    intro h hmemh h' hh' heq
    obtain ⟨p, hp, rfl⟩ := List.mem_map.mp hmemh
    simp only [List.map_cons, List.map_nil, List.mem_singleton] at hh'
    have hne := List.find?_eq_none.mp hnew p hp
    simp only [decide_eq_true_eq] at hne
    exact hne (heq.trans hh')
  · intro id row hrow
    rcases (hmem id row).mp hrow with hrow | ⟨rfl, -⟩
    · exact hi.positive id row hrow
    · exact Nat.succ_pos _
  · intro id row hrow
    rcases (hmem id row).mp hrow with hrow | ⟨rfl, rfl⟩
    · obtain ⟨m, hm, hrest⟩ := hi.unfolds id row hrow
      exact ⟨m, hext.grows.unfolds hm, hrest⟩
    · exact ⟨n, hunfolds, rfl, rfl⟩
  · intro id m hm
    obtain ⟨row, hrow⟩ := hm.exists_row
    rcases (hmem id row).mp hrow with hrow | ⟨rfl, -⟩
    · obtain ⟨m', hm', -⟩ := hi.unfolds id row hrow
      rw [hm.unique (hext.grows.unfolds hm')]
      exact hheld id m' hm'
    · rw [hm.unique hunfolds]
      exact hn

theorem Interned.of_rows (hi : Interned sha256 s) (hrows : s'.rows = s.rows) :
    Interned sha256 s' := by
  have hrow : ∀ id, s'.row id = s.row id := fun id => by rw [NodeStore.row, hrows]; rfl
  refine ⟨hrows ▸ hi.ids, hrows ▸ hi.hashes, ?_, ?_⟩
  · intro id row h
    exact hi.positive id row (hrow id ▸ h)
  · intro id row h
    obtain ⟨n, hn, hrest⟩ := hi.unfolds id row (hrow id ▸ h)
    exact ⟨n, (unfolds_of_rows hrows).mpr hn, hrest⟩

/-- A formula that the graph already holds. -/
theorem intern_known (hs : Sound sha256 s) (hi : Interned sha256 s) {node : GraphNode ℕ}
    {n : PrimitiveNode} {subtree : ℕ → PrimitiveNode} (hnode : graphNodeOf n = node.map subtree)
    (hchildren : ∀ c ∈ node.children, s.Unfolds c (subtree c) ∧ ∃ r, s.child c = .ok r)
    {address : ℕ} {row : NodeRow} (hn : s.Unfolds address n)
    (hfind : (s.rows.find? fun row => decide (row.2.hash = formulaHash sha256 n)) =
      some (address, row)) :
    ∃ s', s.intern sha256 node = .ok (address, s') ∧ s'.rows = s.rows ∧
      ∃ r, s'.child address = .ok r := by
  have hr := hs.representation hnode hchildren
  obtain ⟨row', hrow', hhash, hproperties⟩ := hi.row hn
  obtain ⟨hraw, hnode', hsub'⟩ := hn
  rename_i node' hash' p' subtree'
  -- equal formulas have equal addresses, so the stored node is the one being interned
  have heq : node = node' := by
    refine map_eq_map (hnode.symm.trans hnode') fun i hi' j hj hij => ?_
    exact hi.address (hchildren i hi').1 (hij ▸ hsub' j hj)
  subst heq
  have hrow := (raw_eq_ok.1 hraw).1
  rw [(row_eq_some_iff hi.ids).mpr hrow'] at hrow
  cases hrow
  dsimp only at hhash hproperties
  rw [hhash, hproperties] at hraw
  obtain ⟨s', hload, hrows, -, hchild⟩ := hs.exists_load hraw hr
  refine ⟨s', ?_, hrows, _, hchild⟩
  unfold formulaHash at hfind
  simp only [intern, hr, ok_bind, hfind, hload, require, if_true]
  rfl

/-- A formula that the graph does not hold yet. -/
theorem intern_new (hs : Sound sha256 s) {node : GraphNode ℕ} {n : PrimitiveNode}
    {subtree : ℕ → PrimitiveNode} (hnode : graphNodeOf n = node.map subtree)
    (hchildren : ∀ c ∈ node.children, s.Unfolds c (subtree c) ∧ ∃ r, s.child c = .ok r)
    (hnew : (s.rows.find? fun row => decide (row.2.hash = formulaHash sha256 n)) = none) :
    ∃ s', s.intern sha256 node = .ok (s.nextId, s') ∧
      s'.rows = s.rows ++ [(s.nextId, ⟨some node, formulaHash sha256 n,
        (foldGraph (represent sha256) n).properties⟩)] ∧
      s'.authenticated s.nextId = some (foldGraph (represent sha256) n) := by
  have hr := hs.representation hnode hchildren
  have hauth : s.authenticated s.nextId = none := by
    cases hauth : s.authenticated s.nextId with
    | none => rfl
    | some r =>
      obtain ⟨_, _, hrow, -⟩ := (hs _ r hauth).exists_children
      exact absurd (lt_nextId hrow) (lt_irrefl _)
  let row : NodeRow := ⟨some node, formulaHash sha256 n, (foldGraph (represent sha256) n).properties⟩
  let inserted : NodeStore := { s with rows := s.rows ++ [(s.nextId, row)] }
  let authenticated := Function.update s.authenticated s.nextId
    (some (foldGraph (represent sha256) n))
  have hremember : inserted.rememberAuthenticated s.nextId (foldGraph (represent sha256) n) =
      .ok { inserted with authenticated } := rememberAuthenticated_eq_ok.2 ⟨.inl hauth, rfl⟩
  refine ⟨{ inserted with authenticated }, ?_, rfl, Function.update_self _ _ _⟩
  unfold formulaHash at hnew
  simp only [intern, hr, ok_bind, hnew]
  rw [bind_eq_ok]
  exact ⟨_, hremember, rfl⟩

/-- Interning a node over authenticated children returns the address of its formula. -/
theorem exists_intern (hs : Sound sha256 s) (hi : Interned sha256 s) (hheld : s.Holds formulas)
    (hinj : Set.InjOn (formulaHash sha256) formulas) {node : GraphNode ℕ} {n : PrimitiveNode}
    {subtree : ℕ → PrimitiveNode} (hnode : graphNodeOf n = node.map subtree)
    (hchildren : ∀ c ∈ node.children, s.Unfolds c (subtree c) ∧ ∃ r, s.child c = .ok r)
    (hn : n ∈ formulas) :
    ∃ address s', s.intern sha256 node = .ok (address, s') ∧ s'.Unfolds address n ∧
      (∃ r, s'.child address = .ok r) ∧ Interned sha256 s' ∧ s'.Holds formulas := by
  cases hfind : s.rows.find? fun row => decide (row.2.hash = formulaHash sha256 n) with
  | some p =>
    obtain ⟨address, row⟩ := p
    have hhash : row.hash = formulaHash sha256 n := by
      have := List.find?_some hfind
      exact of_decide_eq_true this
    have hrow : s.row address = some row :=
      (row_eq_some_iff hi.ids).mpr (List.mem_of_find?_eq_some hfind)
    obtain ⟨m, hm, hmhash, -⟩ := hi.unfolds address row hrow
    obtain rfl : m = n := hinj (hheld address m hm) hn (hmhash.symm.trans hhash)
    obtain ⟨s', hintern, hrows, hchild⟩ := intern_known hs hi hnode hchildren hm hfind
    refine ⟨address, s', hintern, (unfolds_of_rows hrows).mpr hm, hchild, hi.of_rows hrows, ?_⟩
    intro id q hq
    exact hheld id q ((unfolds_of_rows hrows).mp hq)
  | none =>
    obtain ⟨s', hintern, hrows, hauth⟩ := intern_new hs hnode hchildren hfind
    obtain ⟨-, hext⟩ := hs.intern hintern
    obtain ⟨hunfolds, hi', hheld'⟩ := hi.insert hnode (fun c hc => (hchildren c hc).1) hfind hrows
      hext hheld hn
    refine ⟨s.nextId, s', hintern, hunfolds, ?_, hi', hheld'⟩
    obtain ⟨row, hrow, hhash, hproperties⟩ := hi'.row hunfolds
    obtain ⟨hraw, -, -⟩ := hunfolds
    have hrow' := (raw_eq_ok.1 hraw).1
    rw [(row_eq_some_iff hi'.ids).mpr hrow] at hrow'
    cases hrow'
    dsimp only at hhash hproperties
    rw [hhash, hproperties] at hraw
    exact ⟨_, child_eq_ok.2 ⟨hauth, _, hraw⟩⟩

end Naome.NodeStore
