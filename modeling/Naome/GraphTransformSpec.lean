import Naome.GraphTransform

/-!
# Runs of a graph transformation

Saved equations stay in dependency order and each one names the address of the image of its node.
Every call keeps this and comes closer to the image of the root, whatever prefix of the equations an
earlier run has saved.
-/
namespace Naome.TransformState
open LocallyNameless Outcome Formula NodeStore

variable {sha256 : List UInt8 → Digest} {shortcut : Bool} {pass : Transform} {root : ℕ}
  {n : PrimitiveNode} {formulas : Set PrimitiveNode} {s s' : NodeStore}

/-- A graph in which the evaluator has reached the operation. -/
structure Ready (sha256 : List UInt8 → Digest) (formulas : Set PrimitiveNode) (root : ℕ)
    (n : PrimitiveNode) (s : NodeStore) : Prop where
  sound : Sound sha256 s
  interned : Interned sha256 s
  held : s.Holds formulas
  unfolds : s.Unfolds root n
  authenticated : ∃ r, s.child root = .ok r

/-- The nodes below the root with their binder depths. -/
inductive Below (s : NodeStore) (root : ℕ) : ℕ → ℕ → Prop
  | root : Below s root root 0
  | child {id depth nested c : ℕ} {node : GraphNode ℕ} {hash : Digest} {p : Properties} :
    Below s root id depth → s.raw id = .ok (node, hash, p) → node.nestedDepth depth = some nested →
    c ∈ node.children → Below s root c nested

/-- An equation about a node below the root, with the address of its image. -/
structure Solves (pass : Transform) (root : ℕ) (s : NodeStore) (e : Equation) : Prop where
  below : Below s root e.source e.depth
  image : ∃ m, s.Unfolds e.source m ∧ s.Unfolds e.result (pass.onTree e.depth m)

/-- The equations that the image of a node is computed from come before it. -/
def Settled (shortcut : Bool) (s : NodeStore) (earlier : List Equation) (e : Equation) : Prop :=
  ∀ node hash p nested, s.raw e.source = .ok (node, hash, p) →
    node.nestedDepth e.depth = some nested →
    (shortcut && !p.hasFreeVariables) = true ∨
      ∀ c ∈ node.children, (c, nested) ∈ earlier.map Equation.key

theorem Below.mono (hgrows : s.Grows s') {id depth : ℕ} (h : Below s root id depth) :
    Below s' root id depth := by
  induction h with
  | root => exact .root
  | child _ hraw hnested hc ih => exact .child ih (hgrows.raw hraw) hnested hc

theorem Solves.mono (hgrows : s.Grows s') {e : Equation} (h : Solves pass root s e) :
    Solves pass root s' e := by
  obtain ⟨hbelow, m, hm, himage⟩ := h
  exact ⟨hbelow.mono hgrows, m, hgrows.unfolds hm, hgrows.unfolds himage⟩

theorem Settled.mono (hgrows : s.Grows s') {earlier : List Equation} {e : Equation}
    (hsource : ∃ m, s.Unfolds e.source m) (h : Settled shortcut s earlier e) :
    Settled shortcut s' earlier e := by
  intro node hash p nested hraw hnested
  obtain ⟨m, hraw', -, -⟩ := hsource
  cases (hgrows.raw hraw').symm.trans hraw
  exact h _ _ _ nested hraw' hnested

theorem nestedDepth_eq {node : GraphNode ℕ} {m : PrimitiveNode} {subtree : ℕ → PrimitiveNode}
    (hnode : graphNodeOf m = node.map subtree) {depth nested : ℕ}
    (h : node.nestedDepth depth = some nested) :
    nested = Naome.nestedDepth depth m ∧ nested ≤ depth + 1 := by
  cases m with
  | definedRelation d => exact d.elim
  | _ =>
    cases node <;> simp_all [graphNodeOf, GraphNode.map, GraphNode.nestedDepth, Naome.nestedDepth]

/-- What is known about a node below the root. -/
structure Located (root : ℕ) (n : PrimitiveNode) (s : NodeStore) (id depth : ℕ)
    (m : PrimitiveNode) : Prop where
  unfolds : s.Unfolds id m
  authenticated : ∃ r, s.child id = .ok r
  part : Part n depth m
  bound : id + depth ≤ root

theorem Ready.located (hr : Ready sha256 formulas root n s) {id depth : ℕ}
    (h : Below s root id depth) : ∃ m, Located root n s id depth m := by
  induction h with
  | root => exact ⟨n, hr.unfolds, hr.authenticated, .self, le_rfl⟩
  | child _ hraw hnested hc ih =>
    obtain ⟨m, ⟨hraw', hnode, hsub⟩, ⟨r, hchild⟩, hpart, hbound⟩ := ih
    cases hraw.symm.trans hraw'
    obtain ⟨rfl, hle⟩ := nestedDepth_eq hnode hnested
    have hlt := ((raw_eq_ok.1 hraw).2 _ hc).2
    refine ⟨_, hsub _ hc, hr.sound.children hchild hraw _ hc, .child hpart ?_, by omega⟩
    rw [hnode, GraphNode.children_map]
    exact List.mem_map_of_mem hc

theorem memo_eq_some {verified : List Equation} {source depth result : ℕ}
    (h : memo verified source depth = some result) :
    (⟨source, depth, result⟩ : Equation) ∈ verified := by
  obtain ⟨e, he, rfl⟩ := Option.map_eq_some_iff.mp h
  have hkey : e.key = (source, depth) := by simpa using List.find?_some he
  simp only [Equation.key, Prod.mk.injEq] at hkey
  obtain ⟨rfl, rfl⟩ := hkey
  exact List.mem_of_find?_eq_some he

theorem memo_eq_none {verified : List Equation} {source depth : ℕ} :
    memo verified source depth = none ↔ (source, depth) ∉ verified.map Equation.key := by
  simp only [memo, Option.map_eq_none_iff, List.find?_eq_none, decide_eq_true_eq, List.mem_map,
    not_exists, not_and]

theorem isSome_memo {verified : List Equation} {source depth : ℕ} :
    (memo verified source depth).isSome = true ↔ (source, depth) ∈ verified.map Equation.key := by
  rw [← not_iff_not, ← memo_eq_none]
  simp

/-- The images of the children give the image of the node. -/
theorem exists_transformed {node : GraphNode ℕ} {m : PrimitiveNode} {subtree : ℕ → PrimitiveNode}
    (hnode : graphNodeOf m = node.map subtree) {depth nested : ℕ} {image : ℕ → Option ℕ}
    (hnested : node.nestedDepth depth = some nested)
    (himage : ∀ c ∈ node.children, ∃ i, image c = some i ∧
      s.Unfolds i (pass.onTree nested (subtree c)) ∧ ∃ r, s.child i = .ok r) :
    ∃ node' subtree', node.transformed pass depth image = some node' ∧
      graphNodeOf (pass.onTree depth m) = node'.map subtree' ∧
      ∀ i ∈ node'.children, s.Unfolds i (subtree' i) ∧ ∃ r, s.child i = .ok r := by
  have htree := @Transform.graphNodeOf_onTree pass depth m
  rw [hnode] at htree
  cases node with
  | equal a b =>
    exact ⟨_, fun _ => m, rfl, htree, by simp [GraphNode.children]⟩
  | member a b =>
    exact ⟨_, fun _ => m, rfl, htree, by simp [GraphNode.children]⟩
  | not a =>
    obtain ⟨i, hi, hunfolds, hchild⟩ := himage a (by simp [GraphNode.children])
    cases hnested
    refine ⟨.not i, fun _ => pass.onTree depth (subtree a), ?_, htree, ?_⟩
    · simp [GraphNode.transformed, hi]
    · simpa [GraphNode.children] using ⟨hunfolds, hchild⟩
  | forAll a =>
    obtain ⟨i, hi, hunfolds, hchild⟩ := himage a (by simp [GraphNode.children])
    simp only [GraphNode.nestedDepth, Option.ite_none_right_eq_some, Option.some.injEq] at hnested
    obtain ⟨-, rfl⟩ := hnested
    refine ⟨.forAll i, fun _ => pass.onTree (depth + 1) (subtree a), ?_, htree, ?_⟩
    · simp [GraphNode.transformed, hi]
    · simpa [GraphNode.children] using ⟨hunfolds, hchild⟩
  | implies a b =>
    obtain ⟨i, hi, hunfolds, hchild⟩ := himage a (by simp [GraphNode.children])
    obtain ⟨j, hj, hunfolds', hchild'⟩ := himage b (by simp [GraphNode.children])
    cases hnested
    -- both children may have one image
    let images : ℕ → PrimitiveNode := fun k =>
      if k = i then pass.onTree depth (subtree a) else pass.onTree depth (subtree b)
    have hfirst : images i = pass.onTree depth (subtree a) := if_pos rfl
    have hsecond : images j = pass.onTree depth (subtree b) := by
      by_cases hij : j = i
      · subst hij
        rw [hfirst]
        exact hunfolds.unique hunfolds'
      · exact if_neg hij
    refine ⟨.implies i j, images, ?_, ?_, ?_⟩
    · simp [GraphNode.transformed, hi, hj]
    · rw [htree]
      simp only [GraphNode.map, hfirst, hsecond]
    · simp only [GraphNode.children, List.mem_cons, List.not_mem_nil, or_false, forall_eq_or_imp,
        forall_eq, hfirst, hsecond]
      exact ⟨⟨hunfolds, hchild⟩, hunfolds', hchild'⟩

theorem transformed_eq_none {node : GraphNode ℕ} {depth c : ℕ} {image : ℕ → Option ℕ}
    (hc : c ∈ node.children) (h : image c = none) : node.transformed pass depth image = none := by
  cases node with
  | equal | member => cases hc
  | not a | forAll a =>
    cases List.mem_singleton.mp hc
    simp [GraphNode.transformed, h]
  | implies a b =>
    simp only [GraphNode.children, List.mem_cons, List.not_mem_nil, or_false] at hc
    rcases hc with rfl | rfl
    · simp [GraphNode.transformed, h]
    · simp [GraphNode.transformed, h]

/-- Verified equations whose results are authenticated by this evaluator. -/
def Verified (pass : Transform) (root : ℕ) (s : NodeStore) (verified : List Equation) : Prop :=
  ∀ e ∈ verified, Solves pass root s e ∧ ∃ r, s.child e.result = .ok r

/-- A node below the root has an image, or a child without one. -/
theorem transformedNode_spec (hr : Ready sha256 formulas root n s) (hroot : root < 2 ^ 63)
    {verified : List Equation} (hverified : Verified pass root s verified) {id depth : ℕ}
    (hbelow : Below s root id depth) :
    ∃ node hash p nested m, s.raw id = .ok (node, hash, p) ∧
      s.load sha256 id = .ok ((node, hash, p), s) ∧ node.nestedDepth depth = some nested ∧
      Located root n s id depth m ∧
      ((∃ node' subtree',
          transformedNode sha256 shortcut pass s verified id depth = .ok (some node', s) ∧
          graphNodeOf (pass.onTree depth m) = node'.map subtree' ∧
          (∀ i ∈ node'.children, s.Unfolds i (subtree' i) ∧ ∃ r, s.child i = .ok r) ∧
          ((shortcut && !p.hasFreeVariables) = true ∨
            ∀ c ∈ node.children, (c, nested) ∈ verified.map Equation.key)) ∨
        (shortcut && !p.hasFreeVariables) = false ∧
          transformedNode sha256 shortcut pass s verified id depth = .ok (none, s) ∧
          ∃ c ∈ node.children, (c, nested) ∉ verified.map Equation.key) := by
  obtain ⟨m, hlocated⟩ := hr.located hbelow
  obtain ⟨r, hchild⟩ := hlocated.authenticated
  obtain ⟨node, hraw, hload⟩ := hr.sound.load_of_child hchild
  have hrepresentation := hr.sound.representation_eq hchild hlocated.unfolds
  obtain ⟨subtree, hnode, hsub⟩ := hlocated.unfolds.exists_subtree hraw
  obtain ⟨nested, hnested⟩ : ∃ nested, node.nestedDepth depth = some nested := by
    have hdepth : depth + 1 < 2 ^ 64 := by
      have := hlocated.bound
      omega
    cases node with
    | forAll a => exact ⟨_, if_pos hdepth⟩
    | _ => exact ⟨depth, rfl⟩
  refine ⟨node, r.hash, r.properties, nested, m, hraw, hload, hnested, hlocated, ?_⟩
  by_cases hskip : (shortcut && !r.properties.hasFreeVariables) = true
  · have hclosed : m.occurrences = [] := by
      simp only [Bool.and_eq_true, Bool.not_eq_true'] at hskip
      have hfree := hskip.2
      rw [hrepresentation, (foldGraph_properties m).1] at hfree
      simpa using hfree
    refine .inl ⟨node, subtree, ?_, ?_, ?_, .inl hskip⟩
    · simp only [transformedNode, hload, ok_bind, if_pos hskip]
      rfl
    · rw [Transform.onTree_of_closed hclosed]
      exact hnode
    · exact fun i hi => ⟨hsub i hi, hr.sound.children hchild hraw i hi⟩
  · have hresult : transformedNode sha256 shortcut pass s verified id depth =
        .ok (node.transformed pass depth (memo verified · nested), s) := by
      simp only [transformedNode, hload, ok_bind, if_neg hskip, hnested, orError]
      rfl
    by_cases hall : ∀ c ∈ node.children, (c, nested) ∈ verified.map Equation.key
    · obtain ⟨node', subtree', htransformed, htree, hchildren⟩ :
          ∃ node' subtree', node.transformed pass depth (memo verified · nested) = some node' ∧
            graphNodeOf (pass.onTree depth m) = node'.map subtree' ∧
            ∀ i ∈ node'.children, s.Unfolds i (subtree' i) ∧ ∃ r, s.child i = .ok r := by
        refine exists_transformed hnode hnested fun c hc => ?_
        obtain ⟨i, hi⟩ := Option.isSome_iff_exists.mp (isSome_memo.2 (hall c hc))
        obtain ⟨⟨-, m', hm', himage⟩, hauthenticated⟩ := hverified _ (memo_eq_some hi)
        cases (hsub c hc).unique hm'
        exact ⟨i, hi, himage, hauthenticated⟩
      exact .inl ⟨node', subtree', htransformed ▸ hresult, htree, hchildren, .inr hall⟩
    · push Not at hall
      obtain ⟨c, hc, hmissing⟩ := hall
      have hnone : node.transformed pass depth (memo verified · nested) = none :=
        transformed_eq_none hc (memo_eq_none.2 hmissing)
      exact .inr ⟨Bool.eq_false_iff.mpr hskip, hnone ▸ hresult, c, hc, hmissing⟩

/-- The saved equations of an operation. -/
structure Saved (shortcut : Bool) (pass : Transform) (root : ℕ) (s : NodeStore)
    (equations : List Equation) : Prop where
  solved : ∀ e ∈ equations, Solves pass root s e
  keys : (equations.map Equation.key).Nodup
  ordered : ∀ i e, equations[i]? = some e → Settled shortcut s (equations.take i) e

theorem Saved.mono (hgrows : s.Grows s') {equations : List Equation}
    (h : Saved shortcut pass root s equations) : Saved shortcut pass root s' equations where
  solved e he := (h.solved e he).mono hgrows
  keys := h.keys
  ordered i e he := by
    obtain ⟨m, hm, -⟩ := (h.solved e (List.mem_of_getElem? he)).image
    exact (h.ordered i e he).mono hgrows ⟨m, hm⟩

theorem Saved.append {equations : List Equation} {e : Equation}
    (h : Saved shortcut pass root s equations) (he : Solves pass root s e)
    (hkey : e.key ∉ equations.map Equation.key) (hsettled : Settled shortcut s equations e) :
    Saved shortcut pass root s (equations ++ [e]) where
  solved x hx := by
    rcases List.mem_append.mp hx with hx | hx
    · exact h.solved x hx
    · cases List.mem_singleton.mp hx
      exact he
  keys := by
    rw [List.map_append, List.nodup_append]
    refine ⟨h.keys, by simp, ?_⟩
    intro a ha b hb hab
    simp only [List.map_cons, List.map_nil, List.mem_singleton] at hb
    rw [hab, hb] at ha
    exact hkey ha
  ordered i x hx := by
    rcases Nat.lt_or_ge i equations.length with hi | hi
    · rw [List.getElem?_append_left hi] at hx
      rw [List.take_append_of_le_length hi.le]
      exact h.ordered i x hx
    · rw [List.getElem?_append_right hi] at hx
      have hi' := (List.getElem?_eq_some_iff.mp hx).1
      rw [List.length_singleton] at hi'
      obtain rfl : i = equations.length := by omega
      rw [Nat.sub_self] at hx
      cases hx
      rwa [List.take_left]

/-- What holds between two calls. -/
structure Invariant (sha256 : List UInt8 → Digest) (formulas : Set PrimitiveNode) (shortcut : Bool)
    (pass : Transform) (root : ℕ) (n : PrimitiveNode) (t : TransformState) : Prop where
  ready : Ready sha256 formulas root n t.store
  saved : Saved shortcut pass root t.store t.equations
  verified : Verified pass root t.store t.verified
  verified_eq : t.verified = if t.restoring then t.equations.take t.replayed else t.equations
  replayed_le : t.replayed ≤ t.equations.length
  stack_nil : t.restoring = true → t.stack = []
  stack : ∀ p ∈ t.stack, Below t.store root p.1 p.2 ∧ p ∉ t.verified.map Equation.key
  descending : t.stack.Pairwise fun p q => p.1 < q.1

/-- The nodes without a verified image count first, then the address on the top of the stack. -/
def distance (root : ℕ) (t : TransformState) : ℕ :=
  ((root + 1) ^ 2 - t.verified.length) * (root + 2) +
    match t.stack with
    | [] => root + 1
    | (id, _) :: _ => id

theorem Invariant.keys {t : TransformState}
    (h : Invariant sha256 formulas shortcut pass root n t) :
    (t.verified.map Equation.key).Nodup := by
  rw [h.verified_eq]
  split_ifs
  · rw [List.map_take]
    exact h.saved.keys.sublist (List.take_sublist _ _)
  · exact h.saved.keys

/-- There are finitely many nodes below the root. -/
theorem Invariant.length_verified_le {t : TransformState}
    (h : Invariant sha256 formulas shortcut pass root n t) :
    t.verified.length ≤ (root + 1) ^ 2 := by
  have hsub : (t.verified.map Equation.key).toFinset ⊆
      Finset.range (root + 1) ×ˢ Finset.range (root + 1) := by
    intro k hk
    obtain ⟨e, he, rfl⟩ := List.mem_map.mp (List.mem_toFinset.mp hk)
    obtain ⟨m, hlocated⟩ := h.ready.located (h.verified e he).1.below
    have := hlocated.bound
    simp only [Equation.key, Finset.mem_product, Finset.mem_range]
    omega
  have hcard := Finset.card_le_card hsub
  rw [List.toFinset_card_of_nodup h.keys, List.length_map, Finset.card_product, Finset.card_range]
    at hcard
  rw [pow_two]
  exact hcard

theorem Verified.mono (hext : s.Extends s') {verified : List Equation}
    (h : Verified pass root s verified) : Verified pass root s' verified := by
  intro e he
  obtain ⟨hsolves, r, hr⟩ := h e he
  exact ⟨hsolves.mono hext.grows, r, hext.child hr⟩

theorem Verified.append {verified : List Equation} {e : Equation}
    (h : Verified pass root s verified) (he : Solves pass root s e)
    (hchild : ∃ r, s.child e.result = .ok r) : Verified pass root s (verified ++ [e]) := by
  intro x hx
  rcases List.mem_append.mp hx with hx | hx
  · exact h x hx
  · cases List.mem_singleton.mp hx
    exact ⟨he, hchild⟩

/-- No two formulas that the graph ever holds share a hash. -/
structure Distinct (sha256 : List UInt8 → Digest) (formulas : Set PrimitiveNode) (pass : Transform)
    (n : PrimitiveNode) : Prop where
  injOn : Set.InjOn (formulaHash sha256) formulas
  images : ∀ depth m, Part n depth m → pass.onTree depth m ∈ formulas

/-- Interning the image of a node. -/
theorem Ready.exists_image (hr : Ready sha256 formulas root n s)
    (hd : Distinct sha256 formulas pass n) {id depth : ℕ} {m : PrimitiveNode}
    (hbelow : Below s root id depth) (hlocated : Located root n s id depth m)
    {node : GraphNode ℕ} {subtree : ℕ → PrimitiveNode}
    (htree : graphNodeOf (pass.onTree depth m) = node.map subtree)
    (hchildren : ∀ i ∈ node.children, s.Unfolds i (subtree i) ∧ ∃ r, s.child i = .ok r) :
    ∃ result s', s.intern sha256 node = .ok (result, s') ∧ s.Extends s' ∧
      Ready sha256 formulas root n s' ∧ Solves pass root s' ⟨id, depth, result⟩ ∧
      ∃ r, s'.child result = .ok r := by
  obtain ⟨result, s', hintern, hunfolds, hchild, hinterned, hheld⟩ :=
    exists_intern hr.sound hr.interned hr.held hd.injOn htree hchildren
      (hd.images depth m hlocated.part)
  obtain ⟨hsound, hext⟩ := hr.sound.intern hintern
  obtain ⟨r, hroot⟩ := hr.authenticated
  refine ⟨result, s', hintern, hext, ⟨hsound, hinterned, hheld, hext.grows.unfolds hr.unfolds, r,
    hext.child hroot⟩, ⟨hbelow.mono hext.grows, m, hext.grows.unfolds hlocated.unfolds, hunfolds⟩, hchild⟩

theorem record_eq_ok {table : List Equation} {e : Equation}
    (h : e.key ∉ table.map Equation.key) : record table e = .ok (table ++ [e]) := by
  rw [record, require, if_pos h]
  rfl

/-- Verifying one more image brings the end closer, whatever the stack is. -/
theorem distance_lt {t t' : TransformState} (hlength : t'.verified.length = t.verified.length + 1)
    (hle : t'.verified.length ≤ (root + 1) ^ 2)
    (hstack : ∀ p ∈ t'.stack, p.1 ≤ root) : distance root t' < distance root t := by
  have hsplit : (root + 1) ^ 2 - t.verified.length =
      (root + 1) ^ 2 - t'.verified.length + 1 := by omega
  unfold distance
  rw [hsplit, Nat.add_mul]
  cases hs : t'.stack with
  | nil =>
    dsimp only
    omega
  | cons p rest =>
    have := hstack p (by simp [hs])
    dsimp only
    omega

/-- The check of one saved equation. -/
theorem Invariant.replay {t : TransformState} (hroot : root < 2 ^ 63)
    (hd : Distinct sha256 formulas pass n) (h : Invariant sha256 formulas shortcut pass root n t)
    (hrestoring : t.restoring = true) {e : Equation} (he : t.equations[t.replayed]? = some e) :
    ∃ t', transform sha256 shortcut pass root t = .ok (none, t') ∧
      Invariant sha256 formulas shortcut pass root n t' ∧ distance root t' < distance root t := by
  have hmem := List.mem_of_getElem? he
  have hlt := (List.getElem?_eq_some_iff.mp he).1
  have hverified : t.verified = t.equations.take t.replayed := by
    rw [h.verified_eq, if_pos hrestoring]
  have hbelow := (h.saved.solved e hmem).below
  obtain ⟨node, hash, p, nested, m, hraw, hload, hnested, hlocated, hcase⟩ :=
    @transformedNode_spec sha256 shortcut pass root n formulas t.store h.ready hroot t.verified
      h.verified e.source e.depth hbelow
  have hsettled := h.saved.ordered t.replayed e he node hash p nested hraw hnested
  rw [← hverified] at hsettled
  obtain ⟨node', subtree', htransformed, htree, hchildren, -⟩ :=
    hcase.resolve_right <| by
      rintro ⟨hskip, _, c, hc, hmissing⟩
      rcases hsettled with hsettled | hsettled
      · rw [hskip] at hsettled
        cases hsettled
      · exact hmissing (hsettled c hc)
  obtain ⟨result, s', hintern, hext, hready, hsolves, hchild⟩ :=
    h.ready.exists_image hd hbelow hlocated htree hchildren
  -- the saved result has the same formula, hence the same address
  obtain rfl : result = e.result := by
    obtain ⟨m₁, hm₁, himage₁⟩ := hsolves.image
    obtain ⟨m₂, hm₂, himage₂⟩ := ((h.saved.solved e hmem).mono hext.grows).image
    cases hm₁.unique hm₂
    exact hready.interned.address himage₁ himage₂
  have htake : t.verified ++ [e] = t.equations.take (t.replayed + 1) := by
    rw [hverified, List.take_add_one, he]
    rfl
  have hkey : e.key ∉ t.verified.map Equation.key := by
    have hnodup : ((t.verified ++ [e]).map Equation.key).Nodup := by
      rw [htake, List.map_take]
      exact h.saved.keys.sublist (List.take_sublist _ _)
    rw [List.map_append, List.nodup_append] at hnodup
    exact fun hmem => hnodup.2.2 _ hmem _ (by simp) rfl
  have hnext : Invariant sha256 formulas shortcut pass root n
      { t with store := s', verified := t.verified ++ [e], replayed := t.replayed + 1 } := by
    refine ⟨hready, h.saved.mono hext.grows,
      (h.verified.mono hext).append ((h.saved.solved e hmem).mono hext.grows) hchild, ?_, hlt,
      h.stack_nil, ?_, h.descending⟩
    · rw [if_pos hrestoring]
      exact htake
    · intro p hp
      rw [h.stack_nil hrestoring] at hp
      cases hp
  refine ⟨_, ?_, hnext, ?_⟩
  · simp only [transform, hrestoring, if_true, he, htransformed, ok_bind, orError, hintern, require,
      record_eq_ok hkey]
    rfl
  · refine distance_lt ?_ hnext.length_verified_le ?_
    · simp
    · intro p hp
      rw [h.stack_nil hrestoring] at hp
      cases hp

theorem Invariant.verified_eq_equations {t : TransformState}
    (h : Invariant sha256 formulas shortcut pass root n t) (hrestoring : t.restoring = false) :
    t.verified = t.equations := by
  rw [h.verified_eq, hrestoring]
  rfl

/-- A node without an image goes on a stack of later nodes. -/
theorem Invariant.push {t : TransformState}
    (h : Invariant sha256 formulas shortcut pass root n t) (hrestoring : t.restoring = false)
    {id depth : ℕ} (hbelow : Below t.store root id depth)
    (hmissing : (id, depth) ∉ t.verified.map Equation.key) (hlt : ∀ q ∈ t.stack, id < q.1) :
    Invariant sha256 formulas shortcut pass root n { t with stack := (id, depth) :: t.stack } := by
  refine ⟨h.ready, h.saved, h.verified, h.verified_eq, h.replayed_le, ?_, ?_, ?_⟩
  · intro hcontra
    rw [hrestoring] at hcontra
    cases hcontra
  · intro q hq
    rcases List.mem_cons.mp hq with rfl | hq
    · exact ⟨hbelow, hmissing⟩
    · exact h.stack q hq
  · rw [List.pairwise_cons]
    exact ⟨hlt, h.descending⟩

/-- The image of the node on the top is recorded. -/
theorem Invariant.record {t : TransformState}
    (h : Invariant sha256 formulas shortcut pass root n t) (hrestoring : t.restoring = false)
    {s' : NodeStore} {input depth result : ℕ} {rest : List (ℕ × ℕ)}
    (hstack : t.stack = (input, depth) :: rest) (hext : t.store.Extends s')
    (hready : Ready sha256 formulas root n s') (hsolves : Solves pass root s' ⟨input, depth, result⟩)
    (hauthenticated : ∃ r, s'.child result = .ok r)
    (hsettled : Settled shortcut s' t.equations ⟨input, depth, result⟩) :
    Invariant sha256 formulas shortcut pass root n { t with
      store := s'
      equations := t.equations ++ [⟨input, depth, result⟩]
      verified := t.verified ++ [⟨input, depth, result⟩]
      stack := rest } := by
  have hverified := h.verified_eq_equations hrestoring
  have hkey : (⟨input, depth, result⟩ : Equation).key ∉ t.equations.map Equation.key :=
    hverified ▸ (h.stack (input, depth) (by simp [hstack])).2
  have hdescending := h.descending
  rw [hstack, List.pairwise_cons] at hdescending
  refine ⟨hready, (h.saved.mono hext.grows).append hsolves hkey hsettled,
    (h.verified.mono hext).append hsolves hauthenticated, ?_, ?_, ?_, ?_, hdescending.2⟩
  · simp only [hrestoring, hverified]
    rfl
  · have := h.replayed_le
    simp only [List.length_append, List.length_singleton]
    omega
  · intro hcontra
    rw [hrestoring] at hcontra
    cases hcontra
  · intro q hq
    obtain ⟨hbelow, hmissing⟩ := h.stack q (by simp [hstack, hq])
    refine ⟨hbelow.mono hext.grows, ?_⟩
    rw [List.map_append, List.mem_append, not_or]
    refine ⟨hmissing, ?_⟩
    simp only [List.map_cons, List.map_nil, List.mem_singleton]
    rintro rfl
    exact absurd (hdescending.1 _ hq) (lt_irrefl _)

/-- One call after the saved equations were checked. -/
theorem Invariant.advance {t : TransformState} (hroot : root < 2 ^ 63)
    (hd : Distinct sha256 formulas pass n) (h : Invariant sha256 formulas shortcut pass root n t)
    (hrestoring : t.restoring = false) :
    ∃ result t', TransformState.advance sha256 shortcut pass root t = .ok (result, t') ∧
      Invariant sha256 formulas shortcut pass root n t' ∧
      (∀ id, result = some id → t'.store.Unfolds id (pass.onTree 0 n)) ∧
      (result = none → distance root t' < distance root t) := by
  have hverified := h.verified_eq_equations hrestoring
  cases hmemo : memo t.verified root 0 with
  | some result =>
    refine ⟨some result, t, by simp only [TransformState.advance, hmemo], h, ?_, by simp⟩
    rintro id ⟨⟩
    obtain ⟨⟨-, m, hm, himage⟩, -⟩ := h.verified _ (memo_eq_some hmemo)
    cases hm.unique h.ready.unfolds
    exact himage
  | none =>
    cases hstack : t.stack with
    | nil =>
      have hpush := h.push hrestoring .root (memo_eq_none.1 hmemo) (by simp [hstack])
      rw [hstack] at hpush
      refine ⟨none, _, ?_, hpush, by simp, ?_⟩
      · simp only [TransformState.advance, hmemo, hstack]
      · intro _
        simp only [distance, hstack]
        omega
    | cons top rest =>
      obtain ⟨input, depth⟩ := top
      obtain ⟨hbelow, hmissing⟩ := h.stack (input, depth) (by simp [hstack])
      have hnone : (memo t.verified input depth).isSome = false := by
        rw [memo_eq_none.2 hmissing]
        rfl
      obtain ⟨node, hash, p, nested, m, hraw, hload, hnested, hlocated, hcase⟩ :=
        @transformedNode_spec sha256 shortcut pass root n formulas t.store h.ready hroot t.verified
          h.verified input depth hbelow
      rcases hcase with ⟨node', subtree', htransformed, htree, hchildren, hsettled⟩ |
        ⟨hskip, htransformed, c, hc, hchild⟩
      · obtain ⟨result, s', hintern, hext, hready, hsolves, hauthenticated⟩ :=
          h.ready.exists_image hd hbelow hlocated htree hchildren
        have hkey : (⟨input, depth, result⟩ : Equation).key ∉ t.verified.map Equation.key := hmissing
        have hkey' : (⟨input, depth, result⟩ : Equation).key ∉ t.equations.map Equation.key :=
          hverified ▸ hkey
        have hnext := h.record hrestoring hstack hext hready hsolves hauthenticated (by
          rw [← hverified]
          intro node₁ hash₁ p₁ nested₁ hraw₁ hnested₁
          cases (hext.raw hraw).symm.trans hraw₁
          cases hnested.symm.trans hnested₁
          exact hsettled)
        refine ⟨none, _, ?_, hnext, by simp, fun _ => ?_⟩
        · simp only [TransformState.advance, hmemo, hstack, hnone, htransformed, ok_bind, hintern,
            record_eq_ok hkey, record_eq_ok hkey']
          rfl
        · refine distance_lt (by simp) hnext.length_verified_le ?_
          intro q hq
          obtain ⟨m', hlocated'⟩ := hready.located (hnext.stack q hq).1
          exact (Nat.le_add_right _ _).trans hlocated'.bound
      · obtain ⟨c', hfind⟩ : ∃ c', node.children.find?
            (fun child => (memo t.verified child nested).isNone) = some c' := by
          rw [← Option.isSome_iff_exists, List.find?_isSome]
          exact ⟨c, hc, by rw [memo_eq_none.2 hchild]; rfl⟩
        have hc' : c' ∈ node.children := List.mem_of_find?_eq_some hfind
        have hmissing' : memo t.verified c' nested = none := by
          simpa using List.find?_some hfind
        have hlt : c' < input := ((raw_eq_ok.1 hraw).2 c' hc').2
        have hbelow' : ∀ q ∈ t.stack, c' < q.1 := by
          have hdescending := h.descending
          rw [hstack, List.pairwise_cons] at hdescending
          intro q hq
          rw [hstack] at hq
          rcases List.mem_cons.mp hq with rfl | hq
          · exact hlt
          · exact hlt.trans (hdescending.1 q hq)
        refine ⟨none, { t with stack := (c', nested) :: t.stack }, ?_,
          h.push hrestoring (.child hbelow hraw hnested hc') (memo_eq_none.1 hmissing') hbelow',
          by simp, ?_⟩
        · simp only [TransformState.advance, hmemo, hstack, hnone, htransformed, ok_bind, hload,
            hnested, orError, hfind]
          rfl
        · intro _
          simp only [distance, hstack]
          omega

/-- Every call succeeds, keeps the invariant and returns the image or comes closer to it. -/
theorem Invariant.transform {t : TransformState} (hroot : root < 2 ^ 63)
    (hd : Distinct sha256 formulas pass n) (h : Invariant sha256 formulas shortcut pass root n t) :
    ∃ result t', TransformState.transform sha256 shortcut pass root t = .ok (result, t') ∧
      Invariant sha256 formulas shortcut pass root n t' ∧
      (∀ id, result = some id → t'.store.Unfolds id (pass.onTree 0 n)) ∧
      (result = none → distance root t' < distance root t) := by
  cases hrestoring : t.restoring with
  | false =>
    obtain ⟨result, t', hadvance, hrest⟩ := h.advance hroot hd hrestoring
    refine ⟨result, t', ?_, hrest⟩
    rw [TransformState.transform, hrestoring]
    exact hadvance
  | true =>
    cases he : t.equations[t.replayed]? with
    | some e =>
      obtain ⟨t', htransform, hnext, hlt⟩ := h.replay hroot hd hrestoring he
      exact ⟨none, t', htransform, hnext, by simp, fun _ => hlt⟩
    | none =>
      have hall : t.equations.take t.replayed = t.equations :=
        List.take_of_length_le (List.getElem?_eq_none_iff.mp he)
      have hdone : Invariant sha256 formulas shortcut pass root n { t with restoring := false } := by
        refine ⟨h.ready, h.saved, h.verified, ?_, h.replayed_le, by simp, h.stack, h.descending⟩
        rw [h.verified_eq, if_pos hrestoring, hall]
        rfl
      obtain ⟨result, t', hadvance, hrest⟩ := hdone.advance hroot hd rfl
      refine ⟨result, t', ?_, hrest⟩
      simp only [TransformState.transform, hrestoring, if_true, he]
      exact hadvance

/-- Repeated calls end with the image. -/
theorem Invariant.repeated {t : TransformState} (hroot : root < 2 ^ 63)
    (hd : Distinct sha256 formulas pass n) (h : Invariant sha256 formulas shortcut pass root n t) :
    ∃ calls id t', TransformState.repeated sha256 shortcut pass root calls t = .ok (some id, t') ∧
      Invariant sha256 formulas shortcut pass root n t' ∧
      t'.store.Unfolds id (pass.onTree 0 n) := by
  induction hk : distance root t using Nat.strong_induction_on generalizing t with
  | _ k ih =>
    obtain ⟨result, t', htransform, hnext, hsome, hnone⟩ := h.transform hroot hd
    cases result with
    | some id =>
      refine ⟨1, id, t', ?_, hnext, hsome id rfl⟩
      rw [TransformState.repeated, htransform]
      rfl
    | none =>
      obtain ⟨calls, id, t'', hrepeated, hrest⟩ := ih _ (hk ▸ hnone rfl) hnext rfl
      refine ⟨calls + 1, id, t'', ?_, hrest⟩
      rw [TransformState.repeated, htransform]
      exact hrepeated

/-- The states of an operation over all its runs: an evaluator may stop between any two calls, and
a later one starts with the equations that were saved, on a graph that has grown. -/
inductive Runs (sha256 : List UInt8 → Digest) (formulas : Set PrimitiveNode) (shortcut : Bool)
    (pass : Transform) (root : ℕ) (n : PrimitiveNode) : TransformState → Prop
  | start {s : NodeStore} : Ready sha256 formulas root n s →
    Runs sha256 formulas shortcut pass root n { store := s, equations := [] }
  | call {t t' : TransformState} {result : Option ℕ} :
    Runs sha256 formulas shortcut pass root n t →
    TransformState.transform sha256 shortcut pass root t = .ok (result, t') →
    Runs sha256 formulas shortcut pass root n t'
  | restart {t : TransformState} {s : NodeStore} :
    Runs sha256 formulas shortcut pass root n t → t.store.Grows s →
    Ready sha256 formulas root n s →
    Runs sha256 formulas shortcut pass root n { store := s, equations := t.equations }

theorem invariant_of_saved {equations : List Equation} (hr : Ready sha256 formulas root n s)
    (h : Saved shortcut pass root s equations) :
    Invariant sha256 formulas shortcut pass root n { store := s, equations } :=
  ⟨hr, h, by simp [Verified], by simp, by simp, fun _ => rfl, by simp, by simp⟩

theorem Runs.invariant {t : TransformState} (hroot : root < 2 ^ 63)
    (hd : Distinct sha256 formulas pass n) (h : Runs sha256 formulas shortcut pass root n t) :
    Invariant sha256 formulas shortcut pass root n t := by
  induction h with
  | start hr => exact invariant_of_saved hr ⟨by simp, by simp, by simp⟩
  | call _ htransform ih =>
    obtain ⟨result, t', htransform', hnext, -⟩ := ih.transform hroot hd
    cases htransform'.symm.trans htransform
    exact hnext
  | restart _ hgrows hr ih => exact invariant_of_saved hr (ih.saved.mono hgrows)

/-- In every state of every run, with or without the shortcut for closed subgraphs, each node has
been recorded at most once for each depth, and further calls end with the address of the formula
that the binding pass or the substitution gives. -/
theorem Runs.ends_with_image {f : Formula} {t : TransformState} (hroot : root < 2 ^ 63)
    (hd : Distinct sha256 formulas pass f.node)
    (h : Runs sha256 formulas shortcut pass root f.node t) :
    (t.equations.map Equation.key).Nodup ∧
      ∃ calls id t' m,
        TransformState.repeated sha256 shortcut pass root calls t = .ok (some id, t') ∧
        (t'.equations.map Equation.key).Nodup ∧ t'.store.Unfolds id m ∧ pass.Gives f m := by
  have hinvariant := h.invariant hroot hd
  obtain ⟨calls, id, t', hrepeated, hnext, himage⟩ := hinvariant.repeated hroot hd
  exact ⟨hinvariant.saved.keys, calls, id, t', _, hrepeated, hnext.saved.keys, himage,
    Transform.gives_onTree f⟩

/-- Calls without a result. -/
def calls (sha256 : List UInt8 → Digest) (shortcut : Bool) (pass : Transform) (root : ℕ) :
    ℕ → TransformState → Option TransformState
  | 0, t => some t
  | n + 1, t => (transform sha256 shortcut pass root t).toOption.bind fun r =>
    calls sha256 shortcut pass root n r.2

theorem Runs.calls {sha256 : List UInt8 → Digest} {formulas : Set PrimitiveNode} {shortcut : Bool}
    {pass : Transform} {root : ℕ} {n : PrimitiveNode} {count : ℕ} {t t' : TransformState}
    (h : Runs sha256 formulas shortcut pass root n t)
    (hcalls : TransformState.calls sha256 shortcut pass root count t = some t') :
    Runs sha256 formulas shortcut pass root n t' := by
  induction count generalizing t with
  | zero =>
    cases hcalls
    exact h
  | succ count ih =>
    obtain ⟨r, hr, hcalls⟩ := Option.bind_eq_some_iff.1 hcalls
    exact ih (h.call (toOption_eq_some.1 hr)) hcalls

namespace Shared

/-- A digest that tells short encodings apart. -/
def digest (bytes : List UInt8) : Digest :=
  BitVec.ofNat 256 (bytes.foldl (fun value byte => 256 * value + byte.toNat) 0)

def atom (left : Variable FreeVariable) : PrimitiveNode := .equal left (.free ⟨1⟩)

/-- `x = y → ∀ z, x = y`: the graph has the atom once. -/
def formula : Formula := .implies (.equal ⟨0⟩ ⟨1⟩) (.forAll ⟨2⟩ (.equal ⟨0⟩ ⟨1⟩))

def whole (left inner : Variable FreeVariable) : PrimitiveNode :=
  .implies (atom left) (.forAll (atom inner))

theorem node_formula : formula.node = whole (.free ⟨0⟩) (.free ⟨0⟩) := rfl

def shapes : List PrimitiveNode :=
  [atom (.free ⟨0⟩), .forAll (atom (.free ⟨0⟩)), whole (.free ⟨0⟩) (.free ⟨0⟩),
    atom (.bound 0), atom (.bound 1), .forAll (atom (.bound 1)), whole (.bound 0) (.bound 1)]

theorem injOn : Set.InjOn (formulaHash digest) {n | n ∈ shapes} := by
  have hnodup : (shapes.map (formulaHash digest)).Nodup := by decide +kernel
  intro a ha b hb hab
  exact List.inj_on_of_nodup_map hnodup ha hb hab

theorem parts {depth : ℕ} {m : PrimitiveNode} (h : Part formula.node depth m) :
    (depth, m) ∈ [(0, formula.node), (0, atom (.free ⟨0⟩)), (0, .forAll (atom (.free ⟨0⟩))),
      (1, atom (.free ⟨0⟩))] := by
  induction h with
  | self => exact List.mem_cons_self
  | child _ hc ih =>
    fin_cases ih <;> fin_cases hc <;> decide

theorem distinct : Distinct digest {n | n ∈ shapes} (.bind ⟨0⟩) formula.node := by
  refine ⟨injOn, ?_⟩
  intro depth m hm
  have hpart := parts hm
  fin_cases hpart <;> decide

/-- What the graph holds after one more node. -/
structure Kept (s : NodeStore) (held : List (ℕ × PrimitiveNode)) : Prop where
  sound : Sound digest s
  interned : Interned digest s
  only : s.Holds {n | n ∈ shapes}
  held : ∀ p ∈ held, s.Unfolds p.1 p.2 ∧ ∃ r, s.child p.1 = .ok r

theorem kept_empty : Kept ⟨[], fun _ => none⟩ [] := by
  refine ⟨fun id r h => (by cases h), ⟨by simp, by simp, fun id row h => (by cases h),
    fun id row h => (by cases h)⟩, ?_, by simp⟩
  intro id m h
  obtain ⟨row, h⟩ := h.exists_row
  cases h

theorem Kept.intern {s : NodeStore} {held : List (ℕ × PrimitiveNode)} (h : Kept s held)
    {node : GraphNode ℕ} {r : ℕ × NodeStore} (n : PrimitiveNode) (subtree : ℕ → PrimitiveNode)
    (hr : s.intern digest node = .ok r) (hnode : graphNodeOf n = node.map subtree)
    (hchildren : ∀ c ∈ node.children, (c, subtree c) ∈ held) (hn : n ∈ shapes) :
    Kept r.2 ((r.1, n) :: held) := by
  obtain ⟨address, s', hintern, hunfolds, hchild, hinterned, honly⟩ := exists_intern h.sound
    h.interned h.only injOn hnode (fun c hc => h.held _ (hchildren c hc)) hn
  cases hr.symm.trans hintern
  obtain ⟨hsound, hext⟩ := h.sound.intern hintern
  refine ⟨hsound, hinterned, honly, ?_⟩
  intro p hp
  rcases List.mem_cons.mp hp with rfl | hold
  · exact ⟨hunfolds, hchild⟩
  · obtain ⟨hold, r, hr⟩ := h.held p hold
    exact ⟨hext.grows.unfolds hold, r, hext.child hr⟩

/-- The graph of the formula. -/
def build : Except String (ℕ × NodeStore) := do
  let (a, s) ← (⟨[], fun _ => none⟩ : NodeStore).intern digest (.equal (.free ⟨0⟩) (.free ⟨1⟩))
  let (b, s) ← s.intern digest (.forAll a)
  s.intern digest (.implies a b)

theorem isSome_build : build.toOption.isSome = true := by
  decide +kernel

@[irreducible] def graph : ℕ × NodeStore := Option.get _ isSome_build

theorem build_eq : build = .ok graph := by
  unfold graph
  exact toOption_eq_some.1 (Option.some_get isSome_build).symm

theorem root_graph : graph.1 = 3 := by
  decide +kernel

theorem kept_graph : ∃ held, Kept graph.2 ((graph.1, formula.node) :: held) := by
  have h := build_eq
  simp only [build, bind_eq_ok] at h
  obtain ⟨⟨a, s⟩, ha, ⟨b, s'⟩, hb, hc⟩ := h
  have hatom := kept_empty.intern (atom (.free ⟨0⟩)) (fun _ => formula.node) ha rfl
    (by simp [GraphNode.children]) (by decide)
  have hall := hatom.intern (.forAll (atom (.free ⟨0⟩))) (fun _ => atom (.free ⟨0⟩)) hb rfl
    (by simp [GraphNode.children]) (by decide)
  have hne : a ≠ b := by
    rintro rfl
    have h1 := (hall.held _ List.mem_cons_self).1
    have h2 := (hall.held _ (List.mem_cons_of_mem _ List.mem_cons_self)).1
    cases h1.unique h2
  refine ⟨_, hall.intern formula.node
    (fun i => if i = a then atom (.free ⟨0⟩) else .forAll (atom (.free ⟨0⟩))) hc ?_ ?_ (by decide)⟩
  · simp [node_formula, graphNodeOf, whole, GraphNode.map, hne.symm]
  · simp [GraphNode.children, hne.symm]

theorem ready : Ready digest {n | n ∈ shapes} 3 formula.node graph.2 := by
  obtain ⟨held, h⟩ := kept_graph
  obtain ⟨hunfolds, hchild⟩ := h.held _ List.mem_cons_self
  rw [root_graph] at hunfolds hchild
  exact ⟨h.sound, h.interned, h.only, hunfolds, hchild⟩

/-- Six calls reach the atom outside of the quantifier and inside of it. -/
def paused : Option TransformState :=
  calls digest true (.bind ⟨0⟩) 3 6 { store := graph.2, equations := [] }

theorem saved_paused :
    paused.map (fun t => t.equations.map Equation.key) = some [(1, 0), (1, 1)] := by
  decide +kernel

end Shared

open Shared in
/-- One atom has two images, one for each depth. An evaluator that stopped after both were saved
starts again from them, and ends with the formula under the new quantifier. -/
theorem Runs.shared_ends : ∃ t : TransformState, t.equations.map Equation.key = [(1, 0), (1, 1)] ∧
    ∃ count id t', TransformState.repeated digest true (.bind ⟨0⟩) 3 count
        { store := t.store, equations := t.equations } = .ok (some id, t') ∧
      (t'.equations.map Equation.key).Nodup ∧
      t'.store.Unfolds id (whole (.bound 0) (.bound 1)) := by
  obtain ⟨t, ht, hkeys⟩ := Option.map_eq_some_iff.1 saved_paused
  have hruns := (Runs.start ready).calls ht
  have hready := (hruns.invariant (by decide) distinct).ready
  obtain ⟨-, count, id, t', m, hrepeated, hnodup, hm, hgives⟩ := Runs.ends_with_image (by decide)
    distinct (hruns.restart (fun _ _ h => h) hready)
  refine ⟨t, hkeys, count, id, t', hrepeated, hnodup, ?_⟩
  have himage : m = whole (.bound 0) (.bound 1) := by
    have hforAll : (Formula.forAll ⟨0⟩ formula).node = .forAll m := hgives
    exact (Node.forAll.inj hforAll).symm
  rwa [himage] at hm

end Naome.TransformState
