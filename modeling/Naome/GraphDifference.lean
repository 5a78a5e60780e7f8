import Naome.FormulaDifference

/-!
# First differences of graphs

Two addresses of an interned graph hold different formulas. Since a hash has one address, the child
that the search follows is the one in which the trees differ first.
-/
namespace Naome.Checker
open LocallyNameless Outcome

variable {sha256 : List UInt8 → Digest}

/-- The record of a tree. -/
def recordOf (sha256 : List UInt8 → Digest) (n : PrimitiveNode) : NodeRecord :=
  .new ((graphNodeOf n).map (formulaHash sha256)) (formulaHash sha256 n)
    (foldGraph (represent sha256) n).properties

/-- The address and the properties of a tree. -/
def identity (sha256 : List UInt8 → Digest) (n : PrimitiveNode) : Digest × Properties :=
  ((foldGraph (represent sha256) n).hash, (foldGraph (represent sha256) n).properties)

theorem addressed_identity (n : PrimitiveNode) :
    addressed sha256 ((graphNodeOf n).map (identity sha256)) = recordOf sha256 n ∧
      (((graphNodeOf n).map (identity sha256)).map Prod.snd).properties = (identity sha256 n).2 := by
  have hrepresent := foldGraph_eq (represent sha256) n
  constructor
  · simp only [addressed, recordOf, formulaHash, GraphNode.map_map, hrepresent, represent]
    rfl
  · simp only [identity, GraphNode.map_map, hrepresent, represent]
    rfl

/-- A walk keeps the places before it and fills its own one with the record of its tree. -/
structure Walked (sha256 : List UInt8 → Digest) (maximum : ℕ) (n : PrimitiveNode)
    (nodes after : List (Option NodeRecord)) : Prop where
  length_le : nodes.length ≤ after.length
  kept : ∀ i < nodes.length, after[i]? = nodes[i]?
  filled : nodes.length < maximum → after[nodes.length]? = some (some (recordOf sha256 n))

theorem length_reserve (maximum : ℕ) (nodes : List (Option NodeRecord)) :
    nodes.length ≤ (reserve maximum nodes).length ∧
      (nodes.length < maximum → nodes.length < (reserve maximum nodes).length) ∧
      ∀ i < nodes.length, (reserve maximum nodes)[i]? = nodes[i]? := by
  unfold reserve
  split_ifs with h
  · rw [List.length_append]
    refine ⟨by omega, fun _ => by simp, fun i hi => ?_⟩
    rw [List.getElem?_append_left hi]
  · exact ⟨le_rfl, fun hlt => absurd hlt h, fun _ _ => rfl⟩

theorem walked_settle {maximum : ℕ} {n : PrimitiveNode} {nodes after : List (Option NodeRecord)}
    {node : GraphNode (Digest × Properties)} (hnode : node = (graphNodeOf n).map (identity sha256))
    (hlength : (reserve maximum nodes).length ≤ after.length)
    (hkept : ∀ i < nodes.length, after[i]? = nodes[i]?) :
    (settle sha256 maximum nodes.length node after).1 = identity sha256 n ∧
      Walked sha256 maximum n nodes (settle sha256 maximum nodes.length node after).2 := by
  obtain ⟨hle, hlt, -⟩ := length_reserve maximum nodes
  obtain ⟨hrecord, hproperties⟩ := @addressed_identity sha256 n
  subst hnode
  rw [settle, hrecord, hproperties]
  refine ⟨rfl, ?_⟩
  dsimp only
  split_ifs with h
  · constructor
    · rw [List.length_set]
      omega
    · intro i hi
      rw [List.getElem?_set_ne (by omega)]
      exact hkept i hi
    · intro _
      have := hlt h
      rw [List.getElem?_set_self (by omega)]
  · exact ⟨by omega, hkept, fun hlt => absurd hlt h⟩

theorem walked_walk (maximum : ℕ) (n : PrimitiveNode) (nodes : List (Option NodeRecord)) :
    (walk sha256 maximum n nodes).1 = identity sha256 n ∧
      Walked sha256 maximum n nodes (walk sha256 maximum n nodes).2 := by
  induction n generalizing nodes with
  | equal l r | member l r =>
    exact walked_settle rfl le_rfl (length_reserve maximum nodes).2.2
  | not n ih | forAll n ih =>
    obtain ⟨hle, -, hkept⟩ := length_reserve maximum nodes
    obtain ⟨hidentity, hafter⟩ := ih (reserve maximum nodes)
    rw [walk]
    refine walked_settle (by rw [hidentity]; rfl) hafter.length_le fun i hi => ?_
    rw [hafter.kept i (by omega), hkept i hi]
  | implies a b iha ihb =>
    obtain ⟨hle, -, hkept⟩ := length_reserve maximum nodes
    obtain ⟨hidentity, hafter⟩ := iha (reserve maximum nodes)
    obtain ⟨hidentity', hafter'⟩ := ihb (walk sha256 maximum a (reserve maximum nodes)).2
    have hle' := hafter.length_le
    rw [walk]
    refine walked_settle (by rw [hidentity, hidentity']; rfl) (hle'.trans hafter'.length_le)
      fun i hi => ?_
    rw [hafter'.kept i (by omega), hafter.kept i (by omega), hkept i hi]
  | definedRelation s => exact s.elim

/-- A fragment of a tree has the record of its root. -/
theorem rootNode_treeFragment (n : PrimitiveNode) (maximum : ℕ) :
    (treeFragment sha256 n maximum).rootNode = some (recordOf sha256 n) := by
  obtain ⟨hidentity, hafter⟩ := @walked_walk sha256 (max maximum 1) n []
  have hfirst := hafter.filled (by simp)
  unfold treeFragment
  revert hidentity hfirst
  generalize walk sha256 (max maximum 1) n [] = walked
  obtain ⟨root, after⟩ := walked
  intro hidentity hfirst
  cases after with
  | nil => simp at hfirst
  | cons first after =>
    simp only [List.length_nil, List.getElem?_cons_zero, Option.some.injEq] at hidentity hfirst
    subst hidentity hfirst
    simp [FormulaFragment.rootNode, FormulaFragment.node?, firstRecords, identity, recordOf,
      NodeRecord.new, formulaHash]

attribute [local simp] different child subformula follow

/-- A path to the first difference is followed in both trees, to nodes that differ. -/
theorem follow_different {e a : PrimitiveNode} {path : List FormulaPathSegment}
    (h : different e a = some path) :
    ∃ n m, follow e path = .ok n ∧ follow a path = .ok m ∧ path.length ≤ e.depth := by
  induction e, a using pair_induction generalizing path with
  | other e a hne =>
    rw [different_of_connective hne] at h
    cases h
    exact ⟨e, a, by simp, by simp, Nat.zero_le _⟩
  | equal l r l' r' | member l r l' r' =>
    simp only [different] at h
    split_ifs at h with hl hr
    · cases h
      exact ⟨_, _, rfl, rfl, le_rfl⟩
    · cases h
      exact ⟨_, _, rfl, rfl, le_rfl⟩
  | not n m ih | forAll n m ih =>
    simp only [different, Option.map_eq_some_iff] at h
    obtain ⟨rest, hrest, rfl⟩ := h
    obtain ⟨n', m', hn, hm, hlength⟩ := ih hrest
    refine ⟨n', m', hn, hm, ?_⟩
    rw [List.length_cons, Node.depth]
    omega
  | implies n m n' m' ihn ihm =>
    simp only [different] at h
    cases hn : different n n' with
    | none =>
      rw [hn] at h
      simp only [Option.map_eq_some_iff] at h
      obtain ⟨rest, hrest, rfl⟩ := h
      obtain ⟨k, k', hk, hk', hlength⟩ := ihm hrest
      refine ⟨k, k', hk, hk', ?_⟩
      rw [List.length_cons, Node.depth]
      omega
    | some rest =>
      rw [hn] at h
      cases h
      obtain ⟨k, k', hk, hk', hlength⟩ := ihn hn
      refine ⟨k, k', hk, hk', ?_⟩
      rw [List.length_cons, Node.depth]
      omega

/-- The comparison of two trees within the depth limit always gives the records at its end. -/
theorem treeDifference_eq {e a : Formula} {path : List FormulaPathSegment}
    (hlength : path.length ≤ maxInspectionPath) {n m : PrimitiveNode}
    (hn : follow e.node path = .ok n) (hm : follow a.node path = .ok m) :
    treeDifference sha256 e a ⟨e, a, path⟩ =
      some ⟨path, recordOf sha256 n, recordOf sha256 m, true⟩ := by
  have hquery : ∀ {f : Formula} {k : PrimitiveNode}, follow f.node path = .ok k →
      treeQuery sha256 f.node path 1 = .ok (treeFragment sha256 k 1) := by
    intro f k hk
    have hvalid : 0 < 1 ∧ 1 ≤ maxInspectionNodes ∧ path.length ≤ maxInspectionPath :=
      ⟨Nat.one_pos, by decide, hlength⟩
    rw [treeQuery, require, if_pos hvalid, ok_bind, hk, ok_bind]
    rfl
  simp only [treeDifference, hquery hn, hquery hm, Except.toOption, Option.bind_eq_bind,
    Option.bind_some, rootNode_treeFragment]
  rfl

section

variable {H ε : Type} {read : H → Except ε (GraphRecord H)}

/-- A handle at which a tree is read, every node with its own address and properties. -/
inductive Shows (sha256 : List UInt8 → Digest) (read : H → Except ε (GraphRecord H)) :
    H → PrimitiveNode → Prop
  | intro {h : H} {n : PrimitiveNode} {node : GraphNode H} {subtree : H → PrimitiveNode}
    (hread : read h = .ok (node, identity sha256 n)) (hnode : graphNodeOf n = node.map subtree)
    (hchildren : ∀ i ∈ node.children, Shows sha256 read i (subtree i)) : Shows sha256 read h n

theorem Shows.read_eq {h : H} {n : PrimitiveNode} (hshows : Shows sha256 read h n) :
    ∃ node subtree, read h = .ok (node, identity sha256 n) ∧ graphNodeOf n = node.map subtree ∧
      ∀ i ∈ node.children, Shows sha256 read i (subtree i) := by
  obtain ⟨hread, hnode, hchildren⟩ := hshows
  exact ⟨_, _, hread, hnode, hchildren⟩

/-- The record of a shown node is that of its tree. -/
theorem graphRecord_eq {n : PrimitiveNode} {node : GraphNode H} {subtree : H → PrimitiveNode}
    (hnode : graphNodeOf n = node.map subtree)
    (hchildren : ∀ i ∈ node.children, Shows sha256 read i (subtree i)) :
    graphRecord read (node, identity sha256 n) = .ok (recordOf sha256 n) := by
  have hhash : ∀ i ∈ node.children,
      (do return (← read i).2.1 : Except ε Digest) = .ok (formulaHash sha256 (subtree i)) := by
    intro i hi
    obtain ⟨_, _, hread, -⟩ := (hchildren i hi).read_eq
    rw [hread]
    rfl
  rw [graphRecord, GraphNode.mapM_of_children hhash, ok_bind, recordOf, hnode, GraphNode.map_map]
  rfl

theorem path_of_graphFinish {e a : GraphRecord H} {path : List FormulaPathSegment} {complete : Bool}
    {d : Difference} (h : graphFinish read e a path complete = .ok d) : d.path = path := by
  simp only [graphFinish, bind_eq_ok, pure_eq_ok] at h
  obtain ⟨_, -, _, -, rfl⟩ := h
  rfl

/-- The search never takes more than the bounded number of edges. -/
theorem length_graphDifference {path : List FormulaPathSegment} {e a : H} {d : Difference}
    (hlength : path.length ≤ maxInspectionPath) (h : graphDifference read path e a = .ok d) :
    d.path.length ≤ maxInspectionPath := by
  induction hk : maxInspectionPath - path.length using Nat.strong_induction_on
    generalizing path e a with
  | _ k ih =>
    have hstep : ∀ {edge : FormulaPathSegment} {i j : H}, path.length < maxInspectionPath →
        graphDifference read (path ++ [edge]) i j = .ok d → d.path.length ≤ maxInspectionPath := by
      intro edge i j hlt hrest
      have hpath : (path ++ [edge]).length = path.length + 1 := List.length_append
      exact ih _ (by omega) (by omega) hrest rfl
    have hvariable : ∀ {re ra : GraphRecord H} {v : FormulaPathSegment},
        path.length < maxInspectionPath → graphFinish read re ra (path ++ [v]) true = .ok d →
        d.path.length ≤ maxInspectionPath := by
      intro re ra v hlt hfinish
      rw [path_of_graphFinish hfinish, List.length_append, List.length_singleton]
      omega
    rw [graphDifference] at h
    simp only [bind_eq_ok] at h
    obtain ⟨re, -, ra, -, h⟩ := h
    split_ifs at h with hmax
    · rw [path_of_graphFinish h]
      exact hlength
    rw [not_le] at hmax
    split at h
    · exact hvariable hmax h
    · exact hvariable hmax h
    · exact hstep hmax h
    · exact hstep hmax h
    · simp only [bind_eq_ok] at h
      obtain ⟨_, -, _, -, h⟩ := h
      split_ifs at h
      · exact hstep hmax h
      · exact hstep hmax h
    · rw [path_of_graphFinish h]
      exact hlength

theorem exists_graphFinish (hread : ∀ i, ∃ r, read i = .ok r) (e a : GraphRecord H)
    (path : List FormulaPathSegment) (complete : Bool) :
    ∃ d, graphFinish read e a path complete = .ok d := by
  have hrecord : ∀ r : GraphRecord H, ∃ n, graphRecord read r = .ok n := by
    intro r
    have hhash : ∀ i ∈ r.1.children, (do return (← read i).2.1 : Except ε Digest) =
        .ok ((do return (← read i).2.1 : Except ε Digest).toOption.getD 0) := by
      intro i _
      obtain ⟨ri, hri⟩ := hread i
      rw [hri]
      rfl
    rw [graphRecord, GraphNode.mapM_of_children hhash]
    exact ⟨_, rfl⟩
  obtain ⟨n, hn⟩ := hrecord e
  obtain ⟨m, hm⟩ := hrecord a
  rw [graphFinish, hn, ok_bind, hm]
  exact ⟨_, rfl⟩

/-- As long as the reads succeed the search ends with a difference. -/
theorem exists_graphDifference (hread : ∀ i, ∃ r, read i = .ok r)
    (path : List FormulaPathSegment) (e a : H) : ∃ d, graphDifference read path e a = .ok d := by
  induction hk : maxInspectionPath - path.length using Nat.strong_induction_on
    generalizing path e a with
  | _ k ih =>
    have hstep : ∀ (edge : FormulaPathSegment) (i j : H), ¬ maxInspectionPath ≤ path.length →
        ∃ d, graphDifference read (path ++ [edge]) i j = .ok d := by
      intro edge i j hlt
      have hpath : (path ++ [edge]).length = path.length + 1 := List.length_append
      exact ih _ (by omega) _ i j rfl
    obtain ⟨re, hre⟩ := hread e
    obtain ⟨ra, hra⟩ := hread a
    rw [graphDifference, hre, ok_bind, hra, ok_bind]
    split_ifs with hmax
    · exact exists_graphFinish hread ..
    split
    · exact exists_graphFinish hread ..
    · exact exists_graphFinish hread ..
    · exact hstep _ _ _ hmax
    · exact hstep _ _ _ hmax
    · rename_i n _ n' _ _ _
      obtain ⟨_, hn⟩ := hread n
      obtain ⟨_, hn'⟩ := hread n'
      rw [hn, ok_bind, hn', ok_bind]
      dsimp only
      split_ifs
      · exact hstep _ _ _ hmax
      · exact hstep _ _ _ hmax
    · exact exists_graphFinish hread ..

/-- At nodes with different connectives the search ends. -/
theorem graphDifference_other {path : List FormulaPathSegment} {e a : H} {re ra : GraphRecord H}
    (he : read e = .ok re) (ha : read a = .ok ra) (hlength : path.length < maxInspectionPath)
    (htag : re.1.tag ≠ ra.1.tag) :
    graphDifference read path e a = graphFinish read re ra path true := by
  rw [graphDifference, he, ok_bind, ha, ok_bind, dif_neg (not_le.mpr hlength)]
  split
  · simp_all [GraphNode.tag]
  · simp_all [GraphNode.tag]
  · simp_all [GraphNode.tag]
  · simp_all [GraphNode.tag]
  · simp_all [GraphNode.tag]
  · rfl

section

variable {i : H} {n m : PrimitiveNode} {l r : Variable FreeVariable}

theorem Shows.equal (h : Shows sha256 read i (.equal l r)) :
    read i = .ok (.equal l r, identity sha256 (.equal l r)) := by
  obtain ⟨node, subtree, hread, hnode, -⟩ := h.read_eq
  cases node with
  | equal => cases hnode; exact hread
  | _ => cases hnode

theorem Shows.member (h : Shows sha256 read i (.member l r)) :
    read i = .ok (.member l r, identity sha256 (.member l r)) := by
  obtain ⟨node, subtree, hread, hnode, -⟩ := h.read_eq
  cases node with
  | member => cases hnode; exact hread
  | _ => cases hnode

theorem Shows.not (h : Shows sha256 read i (.not n)) :
    ∃ j, read i = .ok (.not j, identity sha256 (.not n)) ∧ Shows sha256 read j n := by
  obtain ⟨node, subtree, hread, hnode, hchildren⟩ := h.read_eq
  cases node with
  | not j => cases hnode; exact ⟨j, hread, hchildren j (List.mem_singleton_self j)⟩
  | _ => cases hnode

theorem Shows.forAll (h : Shows sha256 read i (.forAll n)) :
    ∃ j, read i = .ok (.forAll j, identity sha256 (.forAll n)) ∧ Shows sha256 read j n := by
  obtain ⟨node, subtree, hread, hnode, hchildren⟩ := h.read_eq
  cases node with
  | forAll j => cases hnode; exact ⟨j, hread, hchildren j (List.mem_singleton_self j)⟩
  | _ => cases hnode

theorem Shows.implies (h : Shows sha256 read i (.implies n m)) :
    ∃ j k, read i = .ok (.implies j k, identity sha256 (.implies n m)) ∧
      Shows sha256 read j n ∧ Shows sha256 read k m := by
  obtain ⟨node, subtree, hread, hnode, hchildren⟩ := h.read_eq
  cases node with
  | implies j k =>
    cases hnode
    exact ⟨j, k, hread, hchildren j (by simp [GraphNode.children]),
      hchildren k (by simp [GraphNode.children])⟩
  | _ => cases hnode

theorem Shows.finish {j : H} {ri rj : GraphRecord H} (hi : Shows sha256 read i n)
    (hj : Shows sha256 read j m) (hri : read i = .ok ri) (hrj : read j = .ok rj)
    (path : List FormulaPathSegment) : graphFinish read ri rj path true =
      .ok ⟨path, recordOf sha256 n, recordOf sha256 m, true⟩ := by
  obtain ⟨_, _, hread, hnode, hchildren⟩ := hi.read_eq
  obtain ⟨_, _, hread', hnode', hchildren'⟩ := hj.read_eq
  cases hri.symm.trans hread
  cases hrj.symm.trans hread'
  rw [graphFinish, graphRecord_eq hnode hchildren, ok_bind, graphRecord_eq hnode' hchildren',
    ok_bind]
  rfl

end

theorem pathFits_child {path : List FormulaPathSegment} (segment : FormulaPathSegment) {d levels : ℕ}
    (h : path.length + levels ≤ maxInspectionPath) (hlt : d < levels) :
    (path ++ [segment]).length + d ≤ maxInspectionPath := by
  rw [List.length_append, List.length_singleton]
  omega

/-- The graph search finds what the tree search finds, and reads the records of its end. -/
theorem graphDifference_eq
    (hsame : ∀ i j n m, Shows sha256 read i n → Shows sha256 read j m →
      formulaHash sha256 n = formulaHash sha256 m → n = m)
    {path rest : List FormulaPathSegment} {e a : H} {n m : PrimitiveNode}
    (he : Shows sha256 read e n) (ha : Shows sha256 read a m) (h : different n m = some rest)
    (hdepth : path.length + n.depth ≤ maxInspectionPath) :
    ∃ k k', follow n rest = .ok k ∧ follow m rest = .ok k' ∧
      graphDifference read path e a =
        .ok ⟨path ++ rest, recordOf sha256 k, recordOf sha256 k', true⟩ := by
  induction n, m using pair_induction generalizing path e a rest with
  | other n m hne =>
    rw [different_of_connective hne] at h
    cases h
    have hpos := n.depth_pos
    obtain ⟨node, subtree, hread, hnode, -⟩ := he.read_eq
    obtain ⟨node', subtree', hread', hnode', -⟩ := ha.read_eq
    have htag : node.tag ≠ node'.tag := by
      rw [connective, connective, hnode, hnode', GraphNode.tag_map, GraphNode.tag_map] at hne
      exact hne
    rw [graphDifference_other hread hread' (by omega) htag, he.finish ha hread hread',
      List.append_nil]
    exact ⟨n, m, by simp, by simp, rfl⟩
  | equal l r l' r' =>
    have hlength : ¬ maxInspectionPath ≤ path.length := by
      rw [Node.depth] at hdepth
      omega
    rw [graphDifference, he.equal, ok_bind, ha.equal, ok_bind, dif_neg hlength]
    dsimp only
    rw [he.finish ha he.equal ha.equal]
    simp only [different] at h
    split_ifs at h with hl hr
    · cases h
      rw [if_pos hl]
      exact ⟨_, _, rfl, rfl, rfl⟩
    · cases h
      rw [if_neg hl]
      exact ⟨_, _, rfl, rfl, rfl⟩
  | member l r l' r' =>
    have hlength : ¬ maxInspectionPath ≤ path.length := by
      rw [Node.depth] at hdepth
      omega
    rw [graphDifference, he.member, ok_bind, ha.member, ok_bind, dif_neg hlength]
    dsimp only
    rw [he.finish ha he.member ha.member]
    simp only [different] at h
    split_ifs at h with hl hr
    · cases h
      rw [if_pos hl]
      exact ⟨_, _, rfl, rfl, rfl⟩
    · cases h
      rw [if_neg hl]
      exact ⟨_, _, rfl, rfl, rfl⟩
  | not n m ih =>
    simp only [different, Option.map_eq_some_iff] at h
    obtain ⟨rest, hrest, rfl⟩ := h
    rw [Node.depth] at hdepth
    obtain ⟨i, hread, hi⟩ := he.not
    obtain ⟨j, hread', hj⟩ := ha.not
    have hdepth' := pathFits_child .negated (d := n.depth) hdepth (by omega)
    obtain ⟨k, k', hk, hk', hgraph⟩ := ih hi hj hrest hdepth'
    refine ⟨k, k', hk, hk', ?_⟩
    rw [graphDifference, hread, ok_bind, hread', ok_bind, dif_neg (by omega)]
    dsimp only
    rw [hgraph, List.append_assoc]
    rfl
  | forAll n m ih =>
    simp only [different, Option.map_eq_some_iff] at h
    obtain ⟨rest, hrest, rfl⟩ := h
    rw [Node.depth] at hdepth
    obtain ⟨i, hread, hi⟩ := he.forAll
    obtain ⟨j, hread', hj⟩ := ha.forAll
    have hdepth' := pathFits_child .quantified (d := n.depth) hdepth (by omega)
    obtain ⟨k, k', hk, hk', hgraph⟩ := ih hi hj hrest hdepth'
    refine ⟨k, k', hk, hk', ?_⟩
    rw [graphDifference, hread, ok_bind, hread', ok_bind, dif_neg (by omega)]
    dsimp only
    rw [hgraph, List.append_assoc]
    rfl
  | implies n m n' m' ihn ihm =>
    rw [Node.depth] at hdepth
    obtain ⟨i, j, hread, hi, hj⟩ := he.implies
    obtain ⟨i', j', hread', hi', hj'⟩ := ha.implies
    obtain ⟨_, _, hreadi, -⟩ := hi.read_eq
    obtain ⟨_, _, hreadi', -⟩ := hi'.read_eq
    have hstep : graphDifference read path e a =
        if formulaHash sha256 n ≠ formulaHash sha256 n' then
          graphDifference read (path ++ [.antecedent]) i i'
        else graphDifference read (path ++ [.consequent]) j j' := by
      rw [graphDifference, hread, ok_bind, hread', ok_bind, dif_neg (by omega)]
      dsimp only
      rw [hreadi, ok_bind, hreadi', ok_bind]
      rfl
    rw [hstep]
    simp only [different] at h
    cases hn : different n n' with
    | none =>
      rw [hn] at h
      simp only [Option.map_eq_some_iff] at h
      obtain ⟨rest, hrest, rfl⟩ := h
      have hsame' : n = n' := different_eq_none.1 hn
      have hdepth' := pathFits_child .consequent (d := m.depth) hdepth (by omega)
      obtain ⟨k, k', hk, hk', hgraph⟩ := ihm hj hj' hrest hdepth'
      refine ⟨k, k', hk, hk', ?_⟩
      rw [if_neg (by rw [hsame', not_not]), hgraph, List.append_assoc]
      rfl
    | some rest =>
      rw [hn] at h
      cases h
      -- The hash of the antecedent tells them apart as soon as its tree does.
      have hhash : formulaHash sha256 n ≠ formulaHash sha256 n' := by
        intro heq
        rw [hsame i i' n n' hi hi' heq, different_self] at hn
        cases hn
      have hdepth' := pathFits_child .antecedent (d := n.depth) hdepth (by omega)
      obtain ⟨k, k', hk, hk', hgraph⟩ := ihn hi hi' hn hdepth'
      refine ⟨k, k', hk, hk', ?_⟩
      rw [if_pos hhash, hgraph, List.append_assoc]
      rfl

end

/-- Reads a node of the evaluator's graph. -/
def readStore (sha256 : List UInt8 → Digest) (s : NodeStore) (id : ℕ) :
    Except String (GraphRecord ℕ) := do
  return (← s.load sha256 id).1

theorem shows_readStore {s : NodeStore} (hs : NodeStore.Sound sha256 s) {id : ℕ}
    {n : PrimitiveNode} {r : Representation} (hchild : s.child id = .ok r) (h : s.Unfolds id n) :
    Shows sha256 (readStore sha256 s) id n := by
  induction h generalizing r with
  | @intro id node hash p n subtree hraw hnode _ ih =>
    obtain ⟨node', hraw', hload⟩ := hs.load_of_child hchild
    cases hraw.symm.trans hraw'
    have hr := hs.representation_eq hchild (.intro hraw hnode ‹_›)
    have hchildren := hs.children hchild hraw
    refine .intro ?_ hnode fun i hi => ?_
    · rw [readStore, hload, ok_bind, identity, ← hr]
      rfl
    · obtain ⟨q, hq⟩ := hchildren i hi
      exact ih i hi hq

theorem Shows.unfolds {s : NodeStore} (hs : NodeStore.Sound sha256 s) {id : ℕ}
    {n : PrimitiveNode} (h : Shows sha256 (readStore sha256 s) id n) : s.Unfolds id n := by
  induction h with
  | @intro id n node subtree hread hnode _ ih =>
    simp only [readStore, bind_eq_ok, pure_eq_ok] at hread
    obtain ⟨⟨_, s'⟩, hload, rfl⟩ := hread
    obtain ⟨-, -, -, hraw, -⟩ := hs.load hload
    exact .intro hraw hnode ih

/-- A hash has one address, and an address one tree. -/
theorem eq_of_formulaHash {s : NodeStore} (hi : s.Interned sha256) {i j : ℕ}
    {n m : PrimitiveNode} (hn : s.Unfolds i n) (hm : s.Unfolds j m)
    (h : formulaHash sha256 n = formulaHash sha256 m) : n = m := by
  obtain ⟨row, hrow, hhash, -⟩ := hi.row hn
  obtain ⟨row', hrow', hhash', -⟩ := hi.row hm
  have heq : (i, row) = (j, row') :=
    List.inj_on_of_nodup_map hi.hashes hrow hrow' (hhash.trans (h.trans hhash'.symm))
  cases heq
  exact hn.unique hm

/-- First differences of trees and of interned graphs. A path is valid in both trees, ends at nodes
that differ themselves and has nothing different before it. Two addresses within the depth limit
give the same path and the records at its end; the search is bounded at any depth. -/
theorem first_differences (sha256 : List UInt8 → Digest) :
    (∀ expected actual, FormulaMismatch.between expected actual = none ↔ expected = actual) ∧
    (∀ expected actual comparison,
      FormulaMismatch.between expected actual = some comparison →
      Locates expected.node actual.node comparison.path ∧
      ∃ n m, follow expected.node comparison.path = .ok n ∧
        follow actual.node comparison.path = .ok m ∧
        (expected.node.depth ≤ maxInspectionPath →
          treeDifference sha256 expected actual comparison =
            some ⟨comparison.path, recordOf sha256 n, recordOf sha256 m, true⟩)) ∧
    (∀ s, NodeStore.Reached sha256 s → s.Interned sha256 → ∀ e a r r' n m, e ≠ a →
      s.child e = .ok r → s.child a = .ok r' → s.Unfolds e n → s.Unfolds a m →
      n.depth ≤ maxInspectionPath →
      ∃ path k k', different n m = some path ∧ follow n path = .ok k ∧ follow m path = .ok k' ∧
        graphDifference (readStore sha256 s) [] e a =
          .ok ⟨path, recordOf sha256 k, recordOf sha256 k', true⟩) ∧
    ∀ (H ε : Type) (read : H → Except ε (GraphRecord H)) e a,
      ((∀ i, ∃ r, read i = .ok r) → ∃ d, graphDifference read [] e a = .ok d) ∧
      ∀ d, graphDifference read [] e a = .ok d → d.path.length ≤ maxInspectionPath := by
  refine ⟨fun expected actual => ?_, fun expected actual comparison h => ?_, ?_, ?_⟩
  · rw [FormulaMismatch.between, Option.map_eq_none_iff, different_eq_none]
    exact Formula.node_injective.eq_iff
  · simp only [FormulaMismatch.between, Option.map_eq_some_iff] at h
    obtain ⟨path, hpath, rfl⟩ := h
    obtain ⟨n, m, hn, hm, hlength⟩ := follow_different hpath
    exact ⟨different_eq_some hpath, n, m, hn, hm,
      fun hdepth => treeDifference_eq (hlength.trans hdepth) hn hm⟩
  · intro s hs hi e a r r' n m hne he ha hn hm hdepth
    have hsound := NodeStore.sound_of_reached hs
    have hdifferent : n ≠ m := by
      rintro rfl
      exact hne (hi.address hn hm)
    cases hpath : different n m with
    | none => exact absurd (different_eq_none.1 hpath) hdifferent
    | some path =>
      have hsame : ∀ i j n m, Shows sha256 (readStore sha256 s) i n →
          Shows sha256 (readStore sha256 s) j m → formulaHash sha256 n = formulaHash sha256 m →
          n = m := fun i j n m hn hm => eq_of_formulaHash hi (hn.unfolds hsound) (hm.unfolds hsound)
      have hlimit : ([] : List FormulaPathSegment).length + n.depth ≤ maxInspectionPath := by
        rw [List.length_nil, Nat.zero_add]
        exact hdepth
      obtain ⟨k, k', hk, hk', hgraph⟩ := graphDifference_eq hsame
        (shows_readStore hsound he hn) (shows_readStore hsound ha hm) hpath hlimit
      exact ⟨path, k, k', rfl, hk, hk', hgraph⟩
  · intro H ε read e a
    exact ⟨fun hread => exists_graphDifference hread [] e a,
      fun d => length_graphDifference (Nat.zero_le _)⟩

end Naome.Checker
