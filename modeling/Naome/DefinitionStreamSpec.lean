import Naome.ContextStorage
import Naome.DefinitionStream
import Naome.GraphTransform

/-!
# Streamed expansion equals tree expansion

The iterator yields the nodes of the instantiated body in prefix order and meets the node limit
exactly when the expansion of the tree does. The frame machine rebuilds the instantiated body.
-/
namespace Naome
open LocallyNameless Outcome FormulaCodec ByteCursor DefinitionExpansion

/-- A formal variable under the arguments of an application. -/
def formalArgument (arguments : List UInt32) (v : FreeVariable) : FreeVariable :=
  arguments[v.identifier.toNat]?.elim v FreeVariable.mk

/-- The nodes of a tree in prefix order, without their children. -/
def treeNodes : PrimitiveNode → List (GraphNode Unit)
  | .equal l r => [.equal l r]
  | .member l r => [.member l r]
  | .not n => .not () :: treeNodes n
  | .implies a b => .implies () () :: (treeNodes a ++ treeNodes b)
  | .forAll n => .forAll () :: treeNodes n
  | .definedRelation s _ => s.elim

/-- Arguments are free, so binders do not matter to them. -/
theorem instantiate_embed (arguments : List UInt32) (d : ℕ) (n : PrimitiveNode) :
    instantiate (arguments.map fun a => .free ⟨a⟩) d n.embed =
      (n.mapFree (formalArgument arguments)).embed := by
  have hvariable : ∀ (d : ℕ) (x : Variable FreeVariable),
      argument (arguments.map fun a => .free ⟨a⟩) d x = x.map (formalArgument arguments) := by
    intro d x
    cases x with
    | bound i => rfl
    | free v =>
      simp only [argument, Variable.map, formalArgument, List.getElem?_map]
      cases arguments[v.identifier.toNat]? <;> rfl
  induction n generalizing d with
  | equal l r | member l r => simp only [Node.embed, instantiate, Node.mapFree, hvariable]
  | not n ih => simp only [Node.embed, instantiate, Node.mapFree, ih]
  | forAll n ih => simp only [Node.embed, instantiate, Node.mapFree, ih]
  | implies a b iha ihb => simp only [Node.embed, instantiate, Node.mapFree, iha, ihb]
  | definedRelation s => exact s.elim

namespace DefinitionInstantiation

/-- A subtree that is still to be read, with its depth and binders. -/
abbrev Rest := PrimitiveNode × ℕ × ℕ

/-- The subtrees below the root. -/
def Rest.children : Rest → List Rest
  | (.not n, depth, binders) => [(n, depth + 1, binders)]
  | (.implies a b, depth, binders) => [(a, depth + 1, binders), (b, depth + 1, binders)]
  | (.forAll n, depth, binders) => [(n, depth + 1, binders + 1)]
  | _ => []

/-- The subtree can be read within the depth limit. -/
structure Rest.Fits (arguments : List UInt32) (t : Rest) : Prop where
  inScope : t.1.Scoped t.2.2
  declared : ∀ v ∈ t.1.occurrences, v.identifier.toNat < arguments.length
  depth_le : t.2.1 + t.1.depth ≤ formulaMaxDepth
  binders_le : t.2.2 ≤ t.2.1

def size (ts : List Rest) : ℕ := (ts.map fun t => t.1.nodeCount).sum

/-- What the iterator yields for these subtrees. -/
def items (arguments : List UInt32) (ts : List Rest) : List (GraphNode Unit) :=
  ts.flatMap fun t => treeNodes (t.1.mapFree (formalArgument arguments))

/-- The iterator stands before these subtrees. -/
structure Pends (arguments : List UInt32) (it : DefinitionInstantiation) (ts : List Rest) :
    Prop where
  running : it.failed = false
  given : it.arguments = arguments
  pending : it.pending = ts.map Prod.snd
  bytes : it.canonical.drop it.position = ts.flatMap fun t => nodeBytes primitiveFormat t.1
  position_le : it.position ≤ it.canonical.length
  fits : ∀ t ∈ ts, t.Fits arguments
  visited_le : it.visited ≤ formulaMaxNodes

variable {arguments : List UInt32} {it : DefinitionInstantiation} {t : Rest} {ts : List Rest}

theorem Rest.Fits.children (h : t.Fits arguments) : ∀ c ∈ t.children, c.Fits arguments := by
  obtain ⟨n, depth, binders⟩ := t
  obtain ⟨hscoped, hdeclared, hdepth, hbinders⟩ := h
  dsimp only at hscoped hdeclared hdepth hbinders
  intro c hc
  cases n with
  | equal | member => cases hc
  | not n =>
    cases List.mem_singleton.mp hc
    refine ⟨hscoped, hdeclared, ?_, ?_⟩
    · simp only [Node.depth] at hdepth ⊢
      omega
    · dsimp only
      omega
  | forAll n =>
    cases List.mem_singleton.mp hc
    refine ⟨hscoped, hdeclared, ?_, ?_⟩
    · simp only [Node.depth] at hdepth ⊢
      omega
    · dsimp only
      omega
  | implies a b =>
    simp only [Node.occurrences, List.mem_append] at hdeclared
    simp only [Node.depth] at hdepth
    simp only [Rest.children, List.mem_cons, List.not_mem_nil, or_false] at hc
    rcases hc with rfl | rfl
    · exact ⟨hscoped.1, fun v h => hdeclared v (.inl h), by dsimp only; omega, by dsimp only; omega⟩
    · exact ⟨hscoped.2, fun v h => hdeclared v (.inr h), by dsimp only; omega, by dsimp only; omega⟩
  | definedRelation s => exact s.elim

theorem size_cons (t : Rest) (ts : List Rest) : size (t :: ts) = size (t.children ++ ts) + 1 := by
  obtain ⟨n, depth, binders⟩ := t
  cases n with
  | definedRelation s => exact s.elim
  | _ => simp [size, Rest.children, Node.nodeCount]; omega

theorem items_cons (arguments : List UInt32) (t : Rest) (ts : List Rest) :
    items arguments (t :: ts) =
      ((graphNodeOf (t.1.mapFree (formalArgument arguments))).map fun _ => ()) ::
        items arguments (t.children ++ ts) := by
  obtain ⟨n, depth, binders⟩ := t
  cases n with
  | definedRelation s => exact s.elim
  | _ => simp [items, Rest.children, Node.mapFree, treeNodes, graphNodeOf, GraphNode.map]

theorem readFormal_eq {binders : ℕ} (hb : binders ≤ 2 ^ 32) {x : Variable FreeVariable}
    (hx : x.Scoped binders) (hdeclared : ∀ v ∈ x.occurrences, v.identifier.toNat < arguments.length)
    (rest : List UInt8) :
    readFormal binders arguments (variableBytes x ++ rest) =
      .ok (x.map (formalArgument arguments), rest) := by
  have hread : decodeVariable binders (variableBytes x ++ rest) = .ok (x, rest) :=
    (decodeVariable_eq_ok hb).mpr ⟨hx, rfl⟩
  rw [readFormal, hread]
  cases x with
  | bound i => rfl
  | free v =>
    have hv := hdeclared v (by simp [Variable.occurrences])
    have hargument : arguments[v.identifier.toNat]? = some (arguments.get ⟨v.identifier.toNat, hv⟩) :=
      List.getElem?_eq_getElem hv
    simp only [Except.mapError, ok_bind, hargument, orError, Variable.map, formalArgument,
      Option.elim_some]
    rfl

theorem drop_of_append {bytes rest front : List UInt8} {position : ℕ}
    (h : bytes.drop position = front ++ rest) : bytes.drop (bytes.length - rest.length) = rest := by
  have hsuffix : rest <:+ bytes := (h ▸ List.suffix_append front rest).trans (List.drop_suffix _ _)
  exact (List.suffix_iff_eq_drop.mp hsuffix).symm

/-- Reading the root of a subtree consumes the bytes before its children. -/
theorem instantiatePrefix_eq {bytes : List UInt8} {position : ℕ} (hfits : t.Fits arguments)
    (hbytes : bytes.drop position =
      (t :: ts).flatMap fun t => nodeBytes primitiveFormat t.1) :
    ∃ position', instantiatePrefix bytes position t.2.2 arguments =
        .ok ((graphNodeOf (t.1.mapFree (formalArgument arguments))).map fun _ => (), position') ∧
      bytes.drop position' = (t.children ++ ts).flatMap (fun t => nodeBytes primitiveFormat t.1) ∧
      position' ≤ bytes.length := by
  obtain ⟨n, depth, binders⟩ := t
  obtain ⟨hscope, hdeclared, hdepth, hbinders⟩ := hfits
  dsimp only at hscope hdeclared hdepth hbinders hbytes
  have hb : binders ≤ 2 ^ 32 := by
    unfold formulaMaxDepth at hdepth
    omega
  rw [List.flatMap_cons] at hbytes
  have hafter : ∀ front rest : List UInt8, bytes.drop position = front ++ rest →
      bytes.drop (bytes.length - rest.length) = rest ∧ bytes.length - rest.length ≤ bytes.length :=
    fun _ _ h => ⟨drop_of_append h, Nat.sub_le _ _⟩
  cases n with
  | equal l r | member l r =>
    simp only [Node.occurrences, List.mem_append] at hdeclared
    have hleft := readFormal_eq hb hscope.1 (fun v h => hdeclared v (.inl h))
      (variableBytes r ++ ts.flatMap fun t => nodeBytes primitiveFormat t.1)
    have hright := readFormal_eq hb hscope.2 (fun v h => hdeclared v (.inr h))
      (ts.flatMap fun t => nodeBytes primitiveFormat t.1)
    refine ⟨_, ?_, hafter _ _ hbytes⟩
    simp only [nodeBytes, List.cons_append, List.append_assoc] at hbytes
    simp only [instantiatePrefix, hbytes, readU8, ok_bind, hleft, hright]
    rfl
  | not n | forAll n =>
    refine ⟨_, ?_, hafter [_] _ hbytes⟩
    simp only [nodeBytes, List.cons_append] at hbytes
    simp only [instantiatePrefix, hbytes, readU8, ok_bind]
    rfl
  | implies a b =>
    simp only [nodeBytes, List.cons_append, List.append_assoc] at hbytes
    refine ⟨_, ?_, hafter [_] _ hbytes⟩
    simp only [instantiatePrefix, hbytes, readU8, ok_bind]
    rfl
  | definedRelation s => exact s.elim

theorem below_eq (t : Rest) : below t.2.1 t.2.2
    ((graphNodeOf (t.1.mapFree (formalArgument arguments))).map fun _ => ()) =
      t.children.map Prod.snd := by
  obtain ⟨n, depth, binders⟩ := t
  cases n with
  | definedRelation s => exact s.elim
  | _ => rfl

theorem next_pending (hrunning : it.failed = false) {depth binders : ℕ} {pending : List (ℕ × ℕ)}
    (hpending : it.pending = (depth, binders) :: pending) :
    it.next = match ({ it with pending } : DefinitionInstantiation).step depth binders with
      | .ok (node, it) => (some (.ok node), it)
      | .error e => (some (.error e), { it with pending, failed := true }) := by
  cases it
  subst hrunning hpending
  rfl

/-- With room the iterator yields the root of the next subtree. -/
theorem Pends.next_cons (h : Pends arguments it (t :: ts)) (hroom : it.visited < formulaMaxNodes) :
    ∃ it', it.next =
        (some (.ok ((graphNodeOf (t.1.mapFree (formalArgument arguments))).map fun _ => ())), it') ∧
      Pends arguments it' (t.children ++ ts) ∧ it'.visited = it.visited + 1 := by
  have hfits := h.fits t List.mem_cons_self
  obtain ⟨position, hprefix, hbytes, hposition⟩ := instantiatePrefix_eq hfits h.bytes
  have hdepth : t.2.1 < formulaMaxDepth := by
    have := t.1.depth_pos
    have := hfits.depth_le
    omega
  refine ⟨{ it with
    position
    pending := (t.children ++ ts).map Prod.snd
    visited := it.visited + 1 }, ?_, ?_, rfl⟩
  · have hpending : it.pending = (t.2.1, t.2.2) :: ts.map Prod.snd := h.pending
    have hstep : ({ it with pending := ts.map Prod.snd } : DefinitionInstantiation).step t.2.1 t.2.2 =
        .ok ((graphNodeOf (t.1.mapFree (formalArgument arguments))).map fun _ => (), { it with
          position
          pending := (t.children ++ ts).map Prod.snd
          visited := it.visited + 1 }) := by
      simp only [step, require, if_pos hroom.ne, if_pos hdepth, ok_bind, h.given, hprefix, below_eq,
        List.map_append]
      rfl
    rw [next_pending h.running hpending, hstep]
  · refine ⟨h.running, h.given, rfl, hbytes, hposition, ?_, hroom⟩
    intro c hc
    rcases List.mem_append.mp hc with hc | hc
    · exact hfits.children c hc
    · exact h.fits c (List.mem_cons_of_mem t hc)

/-- Without room the next item is the node limit. -/
theorem Pends.next_limit (h : Pends arguments it (t :: ts)) (hfull : it.visited = formulaMaxNodes) :
    ∃ it', it.next = (some (.error (.nodeLimitExceeded formulaMaxNodes)), it') ∧
      it'.failed = true := by
  have hpending : it.pending = (t.2.1, t.2.2) :: ts.map Prod.snd := h.pending
  have hstep : ({ it with pending := ts.map Prod.snd } : DefinitionInstantiation).step t.2.1 t.2.2 =
      .error (.nodeLimitExceeded formulaMaxNodes) := by
    simp only [step, require, hfull, ne_eq, not_true_eq_false, if_false]
    rfl
  rw [next_pending h.running hpending, hstep]
  exact ⟨_, rfl, rfl⟩

/-- Behind the last subtree the traversal is complete. -/
theorem Pends.next_nil (h : Pends arguments it []) :
    it.next = (none, it) ∧ it.complete = true := by
  have hend : it.position = it.canonical.length :=
    le_antisymm h.position_le (List.drop_eq_nil_iff.mp h.bytes)
  have hpending : it.pending = [] := h.pending
  simp [next, complete, h.running, hpending, hend]

theorem next_failed (h : it.failed = true) : it.next = (none, it) := if_pos h

theorem collect_failed (h : it.failed = true) (calls : ℕ) : it.collect calls = ([], it) := by
  cases calls with
  | zero => rfl
  | succ calls => rw [collect, next_failed h]

theorem collect_item {it' : DefinitionInstantiation}
    {item : Except DefinitionExpansionError (GraphNode Unit)} (h : it.next = (some item, it'))
    (calls : ℕ) :
    it.collect (calls + 1) = (item :: (it'.collect calls).1, (it'.collect calls).2) := by
  rw [collect, h]

/-- The items of enough calls: all nodes, or as many as there is room for and the node limit. -/
theorem Pends.collect (h : Pends arguments it ts) {calls : ℕ} (hcalls : size ts < calls) :
    (it.visited + size ts ≤ formulaMaxNodes →
      (it.collect calls).1 = (items arguments ts).map .ok ∧ (it.collect calls).2.complete = true) ∧
    (formulaMaxNodes < it.visited + size ts →
      (it.collect calls).1 = ((items arguments ts).take (formulaMaxNodes - it.visited)).map .ok ++
        [.error (.nodeLimitExceeded formulaMaxNodes)] ∧ (it.collect calls).2.complete = false) := by
  induction calls generalizing it ts with
  | zero => exact absurd hcalls (Nat.not_lt_zero _)
  | succ calls ih =>
    cases ts with
    | nil =>
      obtain ⟨hnext, hcomplete⟩ := h.next_nil
      rw [DefinitionInstantiation.collect, hnext]
      refine ⟨fun _ => ⟨rfl, hcomplete⟩, fun hfull => ?_⟩
      have hvisited := h.visited_le
      simp only [size, List.map_nil, List.sum_nil] at hfull
      omega
    | cons t ts =>
      rw [size_cons] at hcalls ⊢
      rw [items_cons]
      by_cases hroom : it.visited < formulaMaxNodes
      · obtain ⟨it', hnext, hpends, hvisited⟩ := h.next_cons hroom
        obtain ⟨hfits, hlimit⟩ := ih hpends (by omega)
        rw [collect_item hnext]
        rw [hvisited] at hfits hlimit
        refine ⟨fun hle => ?_, fun hlt => ?_⟩
        · obtain ⟨hitems, hcomplete⟩ := hfits (by omega)
          exact ⟨by rw [hitems]; rfl, hcomplete⟩
        · obtain ⟨hitems, hcomplete⟩ := hlimit (by omega)
          refine ⟨?_, hcomplete⟩
          have htake : formulaMaxNodes - it.visited = formulaMaxNodes - (it.visited + 1) + 1 := by
            omega
          rw [hitems, htake, List.take_succ_cons]
          rfl
      · have hfull : it.visited = formulaMaxNodes :=
          le_antisymm h.visited_le (Nat.le_of_not_lt hroom)
        obtain ⟨it', hnext, hfailed⟩ := h.next_limit hfull
        rw [collect_item hnext]
        refine ⟨fun hle => ?_, fun _ => ?_⟩
        · omega
        · rw [collect_failed hfailed, hfull, Nat.sub_self]
          exact ⟨rfl, by simp [complete, hfailed]⟩

end DefinitionInstantiation

namespace Evaluating

/-- A graph of interned nodes that holds these formulas only. -/
structure Hosts (sha256 : List UInt8 → Digest) (formulas : Set PrimitiveNode) (s : NodeStore) :
    Prop where
  sound : s.Sound sha256
  interned : s.Interned sha256
  held : s.Holds formulas

/-- The address of an authenticated formula. -/
def Held (s : NodeStore) (address : ℕ) (n : PrimitiveNode) : Prop :=
  s.Unfolds address n ∧ ∃ r, s.child address = .ok r

theorem Held.extends {s s' : NodeStore} {address : ℕ} {n : PrimitiveNode} (h : Held s address n)
    (hext : s.Extends s') : Held s' address n := by
  obtain ⟨hunfolds, r, hr⟩ := h
  exact ⟨hext.grows.unfolds hunfolds, r, hext.child hr⟩

variable {sha256 : List UInt8 → Digest} {formulas : Set PrimitiveNode} {store : NodeStore}

theorem Hosts.intern (h : Hosts sha256 formulas store)
    (hinj : Set.InjOn (formulaHash sha256) formulas) {node : GraphNode ℕ} {n : PrimitiveNode}
    {subtree : ℕ → PrimitiveNode} (hnode : graphNodeOf n = node.map subtree)
    (hchildren : ∀ c ∈ node.children, Held store c (subtree c)) (hn : n ∈ formulas) :
    ∃ address store', store.intern sha256 node = .ok (address, store') ∧ Held store' address n ∧
      Hosts sha256 formulas store' ∧ store.Extends store' := by
  obtain ⟨address, store', hintern, hunfolds, hchild, hinterned, hheld⟩ :=
    NodeStore.exists_intern h.sound h.interned h.held hinj hnode hchildren hn
  obtain ⟨hsound, hext⟩ := h.sound.intern hintern
  exact ⟨address, store', hintern, ⟨hunfolds, hchild⟩, ⟨hsound, hinterned, hheld⟩, hext⟩

/-- An evaluation in progress. -/
abbrev inside (store : NodeStore) (checked : List DefinitionId) (id : DefinitionId)
    (nodes : DefinitionInstantiation) (frames : List Frame) (value : Option ℕ) : Evaluating :=
  ⟨store, checked, some ⟨id, nodes, frames, value⟩⟩

/-- States that calls without a result lead to. -/
def Reaches (sha256 : List UInt8 → Digest) : Evaluating → Evaluating → Prop :=
  Relation.ReflTransGen fun s s' => s.advanceDefinition sha256 = .ok (none, s')

theorem Reaches.single {s s' : Evaluating} (h : s.advanceDefinition sha256 = .ok (none, s')) :
    Reaches sha256 s s' := Relation.ReflTransGen.single h

theorem Reaches.trans {s s' t : Evaluating} (h : Reaches sha256 s s') (h' : Reaches sha256 s' t) :
    Reaches sha256 s t := Relation.ReflTransGen.trans h h'

variable {checked : List DefinitionId} {id : DefinitionId} {nodes nodes' : DefinitionInstantiation}
  {frames : List Frame}

theorem advance_item {node : GraphNode Unit} (h : nodes.next = (some (.ok node), nodes')) :
    (inside store checked id nodes frames none).advanceDefinition sha256 =
      (inside store checked id nodes frames none).openFrame sha256 ⟨id, nodes', frames, none⟩ node := by
  simp only [advanceDefinition, inside, orError, ok_bind, h, Except.mapError]

theorem advance_limit
    (h : nodes.next = (some (.error (.nodeLimitExceeded formulaMaxNodes)), nodes')) :
    (inside store checked id nodes frames none).advanceDefinition sha256 =
      .error (.check (.nodeLimitExceeded formulaMaxNodes)) := by
  simp only [advanceDefinition, inside, orError, ok_bind, h, Except.mapError]
  rfl

theorem internValue_eq {node : GraphNode ℕ} {address : ℕ} {store' : NodeStore} (s : Evaluating)
    (definition : DefinitionEvaluation) (h : s.store.intern sha256 node = .ok (address, store')) :
    s.internValue sha256 definition node = .ok (none, { s with
      store := store', definition := some { definition with value := some address } }) := by
  rw [internValue, h]
  rfl

/-- The machine turns the next subtree of the stream into the address of its instance, and
meets the node limit exactly when there is no room for it. -/
def Rebuilds (sha256 : List UInt8 → Digest) (formulas : Set PrimitiveNode) (arguments : List UInt32)
    (n : PrimitiveNode) : Prop :=
  ∀ {store} (checked id) {nodes} (frames) {depth binders ts},
    nodes.Pends arguments ((n, depth, binders) :: ts) → Hosts sha256 formulas store →
    (∀ level m, Part (n.mapFree (formalArgument arguments)) level m → m ∈ formulas) →
    (nodes.visited + n.nodeCount ≤ formulaMaxNodes → ∃ store' nodes' address,
      Reaches sha256 (inside store checked id nodes frames none)
        (inside store' checked id nodes' frames (some address)) ∧
      nodes'.Pends arguments ts ∧ nodes'.visited = nodes.visited + n.nodeCount ∧
      Held store' address (n.mapFree (formalArgument arguments)) ∧ Hosts sha256 formulas store' ∧
      store.Extends store') ∧
    (formulaMaxNodes < nodes.visited + n.nodeCount → ∃ s,
      Reaches sha256 (inside store checked id nodes frames none) s ∧
      s.advanceDefinition sha256 = .error (.check (.nodeLimitExceeded formulaMaxNodes)))

theorem part_of_child {n c m : PrimitiveNode} {level : ℕ} (hc : c ∈ (graphNodeOf n).children)
    (h : Part c level m) : ∃ level', Part n level' m := by
  induction h with
  | self => exact ⟨_, .child .self hc⟩
  | child _ hchild ih =>
    obtain ⟨level', hlevel⟩ := ih
    exact ⟨_, .child hlevel hchild⟩

theorem rebuilds_leaf {arguments : List UInt32} {n : PrimitiveNode} (node : GraphNode ℕ)
    (hinj : Set.InjOn (formulaHash sha256) formulas) (hcount : n.nodeCount = 1)
    (hleaf : ∀ t : DefinitionInstantiation.Rest, t.1 = n → t.children = [])
    (hchildren : node.children = []) (hnode : ∀ f : ℕ → PrimitiveNode,
      graphNodeOf (n.mapFree (formalArgument arguments)) = node.map f)
    (hopen : ∀ s definition, openFrame sha256 s definition
      ((graphNodeOf (n.mapFree (formalArgument arguments))).map fun _ => ()) =
        s.internValue sha256 definition node) :
    Rebuilds sha256 formulas arguments n := by
  intro store checked id nodes frames depth binders ts hpends hhosts hparts
  rw [hcount]
  constructor
  · intro hroom
    obtain ⟨nodes', hnext, hpends', hvisited⟩ := hpends.next_cons hroom
    rw [hleaf _ rfl] at hpends'
    obtain ⟨address, store', hintern, hheld, hhosts', hext⟩ := hhosts.intern hinj
      (hnode fun _ => n) (by rw [hchildren]; exact fun _ h => absurd h List.not_mem_nil)
      (hparts 0 _ .self)
    refine ⟨store', nodes', address, .single ?_, hpends', hvisited, hheld, hhosts', hext⟩
    rw [advance_item hnext]
    exact (hopen _ _).trans (internValue_eq _ _ hintern)
  · intro hfull
    have hvisited : nodes.visited = formulaMaxNodes := le_antisymm hpends.visited_le (by omega)
    obtain ⟨nodes', hnext, -⟩ := hpends.next_limit hvisited
    exact ⟨_, .refl, advance_limit hnext⟩

theorem advance_value (address : ℕ) :
    (inside store checked id nodes frames (some address)).advanceDefinition sha256 =
      (inside store checked id nodes frames (some address)).completeFrame sha256
        ⟨id, nodes, frames, none⟩ address := by
  simp only [advanceDefinition, inside, orError, ok_bind]

theorem rebuilds_unary {arguments : List UInt32} {n body : PrimitiveNode} (frame : Frame)
    (build : ℕ → GraphNode ℕ) (hinj : Set.InjOn (formulaHash sha256) formulas)
    (hcount : n.nodeCount = body.nodeCount + 1)
    (hrest : ∀ depth binders, ∃ depth' binders',
      DefinitionInstantiation.Rest.children (n, depth, binders) = [(body, depth', binders')])
    (hbuild : ∀ address, (build address).children = [address])
    (hnode : ∀ (address : ℕ) (f : ℕ → PrimitiveNode),
      f address = body.mapFree (formalArgument arguments) →
      graphNodeOf (n.mapFree (formalArgument arguments)) = (build address).map f)
    (hopen : ∀ s definition, openFrame sha256 s definition
      ((graphNodeOf (n.mapFree (formalArgument arguments))).map fun _ => ()) =
        .ok (none, { s with definition := some { definition with frames := frame :: definition.frames } }))
    (hcomplete : ∀ s id nodes frames address,
      completeFrame sha256 s ⟨id, nodes, frame :: frames, none⟩ address =
        s.internValue sha256 ⟨id, nodes, frames, none⟩ (build address))
    (ih : Rebuilds sha256 formulas arguments body) : Rebuilds sha256 formulas arguments n := by
  intro store checked id nodes frames depth binders ts hpends hhosts hparts
  obtain ⟨depth', binders', hchildren⟩ := hrest depth binders
  have hbody : body.mapFree (formalArgument arguments) ∈
      (graphNodeOf (n.mapFree (formalArgument arguments))).children := by
    rw [hnode 0 (fun _ => body.mapFree (formalArgument arguments)) rfl, GraphNode.children_map,
      hbuild]
    exact List.mem_singleton.mpr rfl
  have hparts' : ∀ level m, Part (body.mapFree (formalArgument arguments)) level m →
      m ∈ formulas := by
    intro level m hm
    obtain ⟨level', hlevel⟩ := part_of_child hbody hm
    exact hparts level' m hlevel
  rw [hcount]
  by_cases hroom : nodes.visited < formulaMaxNodes
  · obtain ⟨nodes₁, hnext, hpends₁, hvisited₁⟩ := hpends.next_cons hroom
    rw [hchildren] at hpends₁
    have hfirst : Reaches sha256 (inside store checked id nodes frames none)
        (inside store checked id nodes₁ (frame :: frames) none) := by
      apply Reaches.single
      rw [advance_item hnext]
      exact hopen _ _
    obtain ⟨hfits, hlimit⟩ := ih checked id (frame :: frames) hpends₁ hhosts hparts'
    constructor
    · intro hle
      obtain ⟨store₂, nodes₂, address, hreaches, hpends₂, hvisited₂, hheld, hhosts₂, hext⟩ :=
        hfits (by omega)
      obtain ⟨result, store', hintern, hresult, hhosts', hext'⟩ := hhosts₂.intern hinj
        (hnode address (fun _ => body.mapFree (formalArgument arguments)) rfl)
        (by rw [hbuild]; intro c hc; cases List.mem_singleton.mp hc; exact hheld)
        (hparts 0 _ .self)
      have hlast : Reaches sha256 (inside store₂ checked id nodes₂ (frame :: frames) (some address))
          (inside store' checked id nodes₂ frames (some result)) := by
        apply Reaches.single
        rw [advance_value]
        exact (hcomplete _ _ _ _ _).trans (internValue_eq _ _ hintern)
      exact ⟨store', nodes₂, result, (hfirst.trans hreaches).trans hlast, hpends₂, by omega, hresult,
        hhosts', hext.trans hext'⟩
    · intro hlt
      obtain ⟨s, hreaches, hs⟩ := hlimit (by omega)
      exact ⟨s, hfirst.trans hreaches, hs⟩
  · have hvisited : nodes.visited = formulaMaxNodes :=
      le_antisymm hpends.visited_le (Nat.le_of_not_lt hroom)
    obtain ⟨nodes', hnext, -⟩ := hpends.next_limit hvisited
    exact ⟨fun hle => by omega, fun _ => ⟨_, .refl, advance_limit hnext⟩⟩

theorem rebuilds_implies {arguments : List UInt32} {a b : PrimitiveNode}
    (hinj : Set.InjOn (formulaHash sha256) formulas)
    (iha : Rebuilds sha256 formulas arguments a) (ihb : Rebuilds sha256 formulas arguments b) :
    Rebuilds sha256 formulas arguments (.implies a b) := by
  intro store checked id nodes frames depth binders ts hpends hhosts hparts
  have hpartsa : ∀ level m, Part (a.mapFree (formalArgument arguments)) level m → m ∈ formulas := by
    intro level m hm
    obtain ⟨level', hlevel⟩ := part_of_child (n := (a.implies b).mapFree (formalArgument arguments))
      (List.mem_cons_self) hm
    exact hparts level' m hlevel
  have hpartsb : ∀ level m, Part (b.mapFree (formalArgument arguments)) level m → m ∈ formulas := by
    intro level m hm
    obtain ⟨level', hlevel⟩ := part_of_child (n := (a.implies b).mapFree (formalArgument arguments))
      (List.mem_cons_of_mem _ List.mem_cons_self) hm
    exact hparts level' m hlevel
  have hcount : (a.implies b).nodeCount = a.nodeCount + b.nodeCount + 1 := rfl
  rw [hcount]
  by_cases hroom : nodes.visited < formulaMaxNodes
  · obtain ⟨nodes₁, hnext, hpends₁, hvisited₁⟩ := hpends.next_cons hroom
    have hfirst : Reaches sha256 (inside store checked id nodes frames none)
        (inside store checked id nodes₁ (.implies none :: frames) none) := by
      apply Reaches.single
      rw [advance_item hnext]
      rfl
    obtain ⟨hfitsa, hlimita⟩ := iha checked id (.implies none :: frames) hpends₁ hhosts hpartsa
    by_cases hrooma : nodes₁.visited + a.nodeCount ≤ formulaMaxNodes
    · obtain ⟨store₂, nodes₂, left, hreachesa, hpends₂, hvisited₂, helda, hhosts₂, hexta⟩ :=
        hfitsa hrooma
      have hmiddle : Reaches sha256
          (inside store₂ checked id nodes₂ (.implies none :: frames) (some left))
          (inside store₂ checked id nodes₂ (.implies (some left) :: frames) none) := by
        apply Reaches.single
        rw [advance_value]
        rfl
      obtain ⟨hfitsb, hlimitb⟩ := ihb checked id (.implies (some left) :: frames) hpends₂ hhosts₂ hpartsb
      constructor
      · intro hle
        obtain ⟨store₃, nodes₃, right, hreachesb, hpends₃, hvisited₃, heldb, hhosts₃, hextb⟩ :=
          hfitsb (by omega)
        have helda' := helda.extends hextb
        -- both children at once, also when they have one address
        let subtree : ℕ → PrimitiveNode := fun c =>
          if c = left then a.mapFree (formalArgument arguments)
          else b.mapFree (formalArgument arguments)
        have hright : subtree right = b.mapFree (formalArgument arguments) := by
          by_cases h : right = left
          · rw [h] at heldb
            simp only [subtree, if_pos h]
            exact helda'.1.unique heldb.1
          · exact if_neg h
        have hnode : graphNodeOf ((a.implies b).mapFree (formalArgument arguments)) =
            (GraphNode.implies left right).map subtree := by
          have hleft : subtree left = a.mapFree (formalArgument arguments) := if_pos rfl
          simp only [GraphNode.map, hleft, hright]
          rfl
        obtain ⟨result, store', hintern, hresult, hhosts', hext'⟩ := hhosts₃.intern hinj hnode
          (by
            intro c hc
            simp only [GraphNode.children, List.mem_cons, List.not_mem_nil, or_false] at hc
            rcases hc with rfl | rfl
            · rw [show subtree c = _ from if_pos rfl]
              exact helda'
            · rw [hright]
              exact heldb)
          (hparts 0 _ .self)
        have hlast : Reaches sha256
            (inside store₃ checked id nodes₃ (.implies (some left) :: frames) (some right))
            (inside store' checked id nodes₃ frames (some result)) := by
          apply Reaches.single
          rw [advance_value]
          exact internValue_eq _ _ hintern
        exact ⟨store', nodes₃, result,
          (((hfirst.trans hreachesa).trans hmiddle).trans hreachesb).trans hlast, hpends₃, by omega,
          hresult, hhosts', (hexta.trans hextb).trans hext'⟩
      · intro hlt
        obtain ⟨s, hreaches, hs⟩ := hlimitb (by omega)
        exact ⟨s, ((hfirst.trans hreachesa).trans hmiddle).trans hreaches, hs⟩
    · refine ⟨fun hle => by omega, fun _ => ?_⟩
      obtain ⟨s, hreaches, hs⟩ := hlimita (by omega)
      exact ⟨s, hfirst.trans hreaches, hs⟩
  · have hvisited : nodes.visited = formulaMaxNodes :=
      le_antisymm hpends.visited_le (Nat.le_of_not_lt hroom)
    obtain ⟨nodes', hnext, -⟩ := hpends.next_limit hvisited
    exact ⟨fun hle => by omega, fun _ => ⟨_, .refl, advance_limit hnext⟩⟩

/-- One case for each connective. -/
theorem rebuilds (hinj : Set.InjOn (formulaHash sha256) formulas) (arguments : List UInt32)
    (n : PrimitiveNode) : Rebuilds sha256 formulas arguments n := by
  induction n with
  | equal l r =>
    exact rebuilds_leaf (.equal (l.map (formalArgument arguments))
      (r.map (formalArgument arguments))) hinj rfl (by rintro ⟨_, _, _⟩ rfl; rfl) rfl
      (fun _ => rfl) fun _ _ => rfl
  | member l r =>
    exact rebuilds_leaf (.member (l.map (formalArgument arguments))
      (r.map (formalArgument arguments))) hinj rfl (by rintro ⟨_, _, _⟩ rfl; rfl) rfl
      (fun _ => rfl) fun _ _ => rfl
  | not n ih =>
    exact rebuilds_unary .not .not hinj rfl (fun _ _ => ⟨_, _, rfl⟩)
      (fun _ => rfl) (fun _ _ h => by rw [GraphNode.map, h]; rfl) (fun _ _ => rfl)
      (fun _ _ _ _ _ => rfl) ih
  | forAll n ih =>
    exact rebuilds_unary .forAll .forAll hinj rfl (fun _ _ => ⟨_, _, rfl⟩)
      (fun _ => rfl) (fun _ _ h => by rw [GraphNode.map, h]; rfl) (fun _ _ => rfl)
      (fun _ _ _ _ _ => rfl) ih
  | implies a b iha ihb => exact rebuilds_implies hinj iha ihb
  | definedRelation s => exact s.elim

theorem run_of_reaches {s s' : Evaluating} (h : Reaches sha256 s s') :
    ∃ calls, ∀ more, run sha256 (calls + more) s = run sha256 more s' := by
  induction h with
  | refl => exact ⟨0, fun more => by rw [Nat.zero_add]⟩
  | tail _ hstep ih =>
    obtain ⟨calls, hcalls⟩ := ih
    refine ⟨calls + 1, fun more => ?_⟩
    rw [Nat.add_assoc, Nat.add_comm 1 more, hcalls, run, hstep]
    rfl

end Evaluating

namespace DefinitionExpansion

/-- Within the depth limit only the node limit stops a node. -/
theorem enterExpansion_eq_error {formulaDepth : ℕ} {b : NodeBudget} {e : DefinitionExpansionError}
    (hdepth : formulaDepth < formulaMaxDepth) (h : enterExpansion formulaDepth b = .error e) :
    e = .nodeLimitExceeded b.maximum := by
  unfold enterExpansion at h
  cases hc : b.charge with
  | error _ =>
    rw [hc] at h
    cases h
    rfl
  | ok b' =>
    rw [hc] at h
    simp only [Except.mapError, ok_bind, require, if_pos hdepth] at h
    cases h

/-- Within the depth limit only the node limit stops the expansion of a body. -/
theorem nodeLimit_body (resolver : DefinitionResolver) (expandBody : BodyExpander)
    (definitions : List DefinitionId) {arguments : List (Variable FreeVariable)} {n : DefinedNode}
    (hn : n.symbols = []) (hv : ∀ v ∈ n.occurrences, v.identifier.toNat < arguments.length)
    {substitutionDepth formulaDepth : ℕ} {b : NodeBudget} {e : DefinitionExpansionError}
    (hdepth : formulaDepth + n.depth ≤ formulaMaxDepth)
    (h : expandNodeWith resolver expandBody definitions (some arguments) substitutionDepth
      formulaDepth n b = .error e) : e = .nodeLimitExceeded b.maximum := by
  have hpos := n.depth_pos
  induction n generalizing substitutionDepth formulaDepth b with
  | equal l r | member l r =>
    simp only [Node.occurrences, List.mem_append] at hv
    have hl := instantiateVariable_eq substitutionDepth fun v h => hv v (.inl h)
    have hr := instantiateVariable_eq substitutionDepth fun v h => hv v (.inr h)
    simp only [expandNodeWith, hl, hr, ok_bind] at h
    rcases bind_eq_error.mp h with h | ⟨_, -, h⟩
    · exact enterExpansion_eq_error (by omega) h
    · cases h
  | not n ih | forAll n ih =>
    simp only [Node.depth] at hdepth
    rcases bind_eq_error.mp h with h | ⟨b', hb, h⟩
    · exact enterExpansion_eq_error (by omega) h
    · have hmax := (enterExpansion_eq_ok.mp hb).2.1
      rcases bind_eq_error.mp h with h | ⟨_, -, h⟩
      · rw [ih hn hv (by omega) h n.depth_pos, hmax]
      · cases h
  | implies a c iha ihc =>
    simp only [Node.symbols, List.append_eq_nil_iff] at hn
    simp only [Node.occurrences, List.mem_append] at hv
    simp only [Node.depth] at hdepth
    rcases bind_eq_error.mp h with h | ⟨b', hb, h⟩
    · exact enterExpansion_eq_error (by omega) h
    · have hmax := (enterExpansion_eq_ok.mp hb).2.1
      rcases bind_eq_error.mp h with h | ⟨⟨m, b''⟩, hm, h⟩
      · rw [iha hn.1 (fun v h => hv v (.inl h)) (by omega) h a.depth_pos, hmax]
      · rcases bind_eq_error.mp h with h | ⟨_, -, h⟩
        · have hspent : b''.maximum = b'.maximum := by
            rcases limitOr_body resolver expandBody definitions hn.1 (fun v h => hv v (.inl h)) _ _ b'
              with ⟨_, -, herror, -⟩ | ⟨r, hr, -, -, hspent⟩
            · rw [hm] at herror
              cases herror
            · rw [hm] at hr
              cases hr
              exact hspent.1
          rw [ihc hn.2 (fun v h => hv v (.inr h)) (by omega) h c.depth_pos, hspent, hmax]
        · cases h
  | definedRelation s xs => simp [Node.symbols] at hn

/-- An application is charged one node before its body. -/
theorem expandNode_application {resolver : DefinitionResolver} {s : DefinitionId}
    {xs : List (Variable FreeVariable)} {body : DefinedFormula}
    (hresolve : resolver s = .ok (some ⟨xs.length, body⟩)) (hprimitive : body.node.symbols = [])
    (hvars : ∀ v ∈ body.node.occurrences, v.identifier.toNat < xs.length)
    (hdepth : body.node.depth ≤ formulaMaxDepth) {e : DefinitionExpansionError}
    (h : expandNode resolver formulaMaxDepth [] none 0 0 (.definedRelation s xs)
      (NodeBudget.new formulaMaxNodes) = .error e) : e = .nodeLimitExceeded formulaMaxNodes := by
  have hlevels : formulaMaxDepth = 255 + 1 := rfl
  rw [hlevels, expandNode] at h
  rcases bind_eq_error.mp h with h | ⟨b, hb, h⟩
  · exact enterExpansion_eq_error (by decide) h
  · have hmax := (enterExpansion_eq_ok.mp hb).2.1
    have hopen : (([] : List DefinitionId).length < formulaMaxDepth - 0) := by decide
    simp only [hresolve, Except.mapError, orError, ok_bind, require, if_pos hopen, List.not_mem_nil,
      not_false_eq_true, if_true, mapM_instantiateVariable_none] at h
    obtain ⟨expandBody, heq⟩ := exists_expandBody resolver 255
    rw [heq] at h
    rw [nodeLimit_body resolver expandBody _ hprimitive hvars (by omega) h, hmax]
    rfl

end DefinitionExpansion

open DefinitionInstantiation Evaluating

/-- Streamed and tree expansion of one application agree; `tree` is the instantiated body. -/
structure Streamed (sha256 : List UInt8 → Digest) (c : DefinitionCertificate)
    (resolver : DefinitionResolver) (arguments : List UInt32) (it : DefinitionInstantiation)
    (tree : PrimitiveNode) : Prop where
  expansion : ((DefinedFormula.definedRelation c.definitionId
      (arguments.map FreeVariable.mk)).expandWith resolver).map Formula.node =
    if tree.nodeCount < formulaMaxNodes then .ok tree
    else .error (.nodeLimitExceeded formulaMaxNodes)
  /-- The items of all calls, in prefix order. -/
  stream : ∀ calls, tree.nodeCount < calls →
    (it.collect calls).1 = (if tree.nodeCount < formulaMaxNodes then (treeNodes tree).map .ok
      else ((treeNodes tree).take (formulaMaxNodes - 1)).map .ok ++
        [.error (.nodeLimitExceeded formulaMaxNodes)]) ∧
    ((it.collect calls).2.complete = true ↔ tree.nodeCount < formulaMaxNodes)
  /-- The graph that the frames build. -/
  rebuilt : ∀ (formulas : Set PrimitiveNode) (store : NodeStore) (checked : List DefinitionId),
    Hosts sha256 formulas store → Set.InjOn (formulaHash sha256) formulas →
    (∀ level m, Part tree level m → m ∈ formulas) →
    ∃ evaluation, beginDefinition c arguments = .ok evaluation ∧
      (∀ calls e, run sha256 calls ⟨store, checked, some evaluation⟩ = .error e →
        e = .check (.nodeLimitExceeded formulaMaxNodes) ∧ formulaMaxNodes ≤ tree.nodeCount) ∧
      ∃ calls, ∀ more, if tree.nodeCount < formulaMaxNodes then
        ∃ address store', run sha256 (calls + more) ⟨store, checked, some evaluation⟩ =
            .ok (some address, ⟨store', checked.insert c.definitionId, none⟩) ∧
          Held store' address tree ∧ Hosts sha256 formulas store' ∧ store.Extends store'
      else run sha256 (calls + more) ⟨store, checked, some evaluation⟩ =
        .error (.check (.nodeLimitExceeded formulaMaxNodes))

/-- An error comes back however many calls are allowed. -/
theorem Evaluating.run_add_of_error {sha256 : List UInt8 → Digest} {calls : ℕ} {s : Evaluating}
    {e : EvaluationError} (h : run sha256 calls s = .error e) (more : ℕ) :
    run sha256 (calls + more) s = .error e := by
  induction calls generalizing s with
  | zero => cases h
  | succ calls ih =>
    rw [Nat.add_right_comm, run]
    rcases bind_eq_error.mp h with h | ⟨⟨value, s'⟩, hs', h⟩
    · exact bind_eq_error.mpr (.inl h)
    · rw [hs', ok_bind]
      cases value with
      | some value => cases h
      | none => exact ih h

section

variable {sha256 : List UInt8 → Digest} {kind : DefinitionKind} {body : DefinedFormula}
  {c : DefinitionCertificate} {resolver : DefinitionResolver} {arguments : List UInt32}
  {source : PrimitiveNode}

/-- What a valid certificate says about its body as a primitive tree. -/
structure BodyTree (c : DefinitionCertificate) (source : PrimitiveNode) : Prop where
  node : source.embed = c.body.node
  bytes : c.canonical.drop 9 = nodeBytes primitiveFormat source
  length_le : 9 ≤ c.canonical.length
  declared : ∀ v ∈ source.occurrences, v.identifier.toNat < c.relationArity
  inScope : source.Scoped 0
  depth_le : source.depth ≤ formulaMaxDepth
  nodeCount_le : source.nodeCount ≤ formulaMaxNodes

theorem exists_bodyTree (hnew : DefinitionCertificate.new sha256 kind body = .ok c) :
    ∃ source, BodyTree c source := by
  obtain ⟨hvalid, rfl⟩ := DefinitionCertificate.new_eq_ok.mp hnew
  obtain ⟨source, hsource⟩ := Node.exists_embed hvalid.primitive
  refine ⟨source, hsource, ?_, ?_, ?_, ?_, ?_, ?_⟩
  · have hbytes : body.canonicalBytes = nodeBytes primitiveFormat source := by
      rw [DefinedFormula.canonicalBytes, ← hsource, DefinedFormula.nodeBytes_embed]
    have hhead : ∀ k : DefinitionKind, (k.bytes ++ framed body.canonicalBytes).drop 9 =
        body.canonicalBytes := by
      intro k
      cases k <;> simp [DefinitionKind.bytes, framed, List.drop_append]
    exact (hhead kind).trans hbytes
  · rw [DefinitionCertificate.fromParts, DefinitionCertificate.length_bytesOf]
    omega
  · have hdeclared := hvalid.declared
    rw [← hsource, Node.occurrences_embed] at hdeclared
    exact hdeclared
  · have hscope := body.wellScoped
    rw [← hsource, Node.scoped_embed] at hscope
    exact hscope
  · have hdepth := hvalid.withinLimits.depth_le
    rw [← hsource, Node.depth_embed] at hdepth
    exact hdepth
  · have hcount := hvalid.withinLimits.nodeCount_le
    rw [← hsource, Node.nodeCount_embed] at hcount
    exact hcount

variable (hsource : BodyTree c source) (hlength : arguments.length = c.relationArity)

include hsource hlength

/-- The iterator starts before the body. -/
theorem BodyTree.pends :
    Pends arguments ⟨c.canonical, arguments, 9, [(0, 0)], 1, false⟩ [(source, 0, 0)] where
  running := rfl
  given := rfl
  pending := rfl
  bytes := by rw [hsource.bytes]; simp
  position_le := hsource.length_le
  fits := by
    intro t ht
    cases List.mem_singleton.mp ht
    refine ⟨hsource.inScope, ?_, ?_, le_refl 0⟩
    · rw [hlength]
      exact hsource.declared
    · rw [Nat.zero_add]
      exact hsource.depth_le
  visited_le := show 1 ≤ formulaMaxNodes by decide

theorem BodyTree.expansion
    (hresolve : resolver c.definitionId = .ok (some c.resolution)) :
    ((DefinedFormula.definedRelation c.definitionId
      (arguments.map FreeVariable.mk)).expandWith resolver).map Formula.node =
    if source.nodeCount < formulaMaxNodes then .ok (source.mapFree (formalArgument arguments))
    else .error (.nodeLimitExceeded formulaMaxNodes) := by
  have hnode : (DefinedFormula.definedRelation c.definitionId
      (arguments.map FreeVariable.mk)).node =
      .definedRelation c.definitionId (arguments.map fun a => .free ⟨a⟩) := by
    simp only [DefinedFormula.definedRelation, List.map_map]
    rfl
  have hresolved : Resolved resolver (fun _ => c.body) (DefinedFormula.definedRelation
      c.definitionId (arguments.map FreeVariable.mk)).node := by
    rw [hnode]
    refine ⟨?_, ?_, ?_⟩
    · rw [hresolve, List.length_map, hlength]
      rfl
    · rw [← hsource.node]
      exact Node.symbols_embed _
    · rw [← hsource.node, Node.occurrences_embed, List.length_map, hlength]
      exact hsource.declared
  have heliminate : eliminate (fun _ => c.body) (DefinedFormula.definedRelation
      c.definitionId (arguments.map FreeVariable.mk)).node =
      (source.mapFree (formalArgument arguments)).embed := by
    rw [hnode, eliminate, ← hsource.node, instantiate_embed]
  have hcost : expansionCost (fun _ => c.body) (DefinedFormula.definedRelation
      c.definitionId (arguments.map FreeVariable.mk)).node = source.nodeCount + 1 := by
    rw [hnode, expansionCost, ← hsource.node, Node.nodeCount_embed]
  have hdepth : (eliminate (fun _ => c.body) (DefinedFormula.definedRelation
      c.definitionId (arguments.map FreeVariable.mk)).node).depth ≤ formulaMaxDepth := by
    rw [heliminate, Node.depth_embed, Node.depth_mapFree]
    exact hsource.depth_le
  have hroom : Room 0 (NodeBudget.new formulaMaxNodes) (source.nodeCount + 1)
      (eliminate (fun _ => c.body) (DefinedFormula.definedRelation
        c.definitionId (arguments.map FreeVariable.mk)).node).depth ↔
      source.nodeCount < formulaMaxNodes := by
    have hmax : (NodeBudget.new formulaMaxNodes).maximum = formulaMaxNodes := rfl
    have hused : (NodeBudget.new formulaMaxNodes).used = 0 := rfl
    rw [Room, hmax, hused]
    omega
  by_cases hlt : source.nodeCount < formulaMaxNodes
  · have hscope : (source.mapFree (formalArgument arguments)).Scoped 0 :=
      (Node.scoped_mapFree _ 0 source).mpr hsource.inScope
    have hok : (DefinedFormula.definedRelation c.definitionId
        (arguments.map FreeVariable.mk)).expandWithNodeLimit resolver formulaMaxNodes =
          .ok (⟨source.mapFree (formalArgument arguments), hscope⟩, source.nodeCount + 1) :=
      (DefinedFormula.expandWithNodeLimit_eq_ok_iff hresolved).mpr
        ⟨heliminate.symm, hcost.symm, by rw [hcost]; exact hroom.mpr hlt⟩
    rw [if_pos hlt, DefinedFormula.expandWith, hok]
    rfl
  · rw [if_neg hlt]
    cases hexpand : expandNode resolver formulaMaxDepth [] none 0 0 (DefinedFormula.definedRelation
        c.definitionId (arguments.map FreeVariable.mk)).node (NodeBudget.new formulaMaxNodes) with
    | ok r =>
      obtain ⟨formula, -, hok⟩ := DefinedFormula.exists_formula_of_expandNode hexpand
      obtain ⟨-, -, hfits⟩ := (DefinedFormula.expandWithNodeLimit_eq_ok_iff hresolved).mp hok
      rw [hcost] at hfits
      exact absurd (hroom.mp hfits) hlt
    | error e =>
      have he : e = .nodeLimitExceeded formulaMaxNodes := by
        rw [hnode] at hexpand hresolved
        refine expandNode_application hresolved.1 hresolved.2.1 hresolved.2.2 ?_ hexpand
        rw [← hsource.node, Node.depth_embed]
        exact hsource.depth_le
      rw [DefinedFormula.expandWith, DefinedFormula.expandWithNodeLimit, hexpand, he]
      rfl

end

/-- **Streaming a definition equals expanding it.** For every certificate and every argument list
of the right length. -/
theorem definition_streamed {sha256 : List UInt8 → Digest} {kind : DefinitionKind}
    {body : DefinedFormula} {c : DefinitionCertificate} {resolver : DefinitionResolver}
    {arguments : List UInt32} (hnew : DefinitionCertificate.new sha256 kind body = .ok c)
    (hresolve : resolver c.definitionId = .ok (some c.resolution))
    (hlength : arguments.length = c.relationArity) :
    ∃ it tree, DefinitionInstantiation.new c arguments = .ok it ∧
      Streamed sha256 c resolver arguments it tree := by
  obtain ⟨source, hsource⟩ := exists_bodyTree hnew
  have hpends := hsource.pends hlength
  have hstart : DefinitionInstantiation.new c arguments =
      .ok ⟨c.canonical, arguments, 9, [(0, 0)], 1, false⟩ := by
    rw [DefinitionInstantiation.new, require, if_pos hlength]
    rfl
  have hcount : (source.mapFree (formalArgument arguments)).nodeCount = source.nodeCount :=
    Node.nodeCount_mapFree _ _
  have hsize : size [(source, 0, 0)] = source.nodeCount := by simp [size]
  have hitems : items arguments [(source, 0, 0)] =
      treeNodes (source.mapFree (formalArgument arguments)) := by simp [items]
  refine ⟨_, source.mapFree (formalArgument arguments), hstart, ?_, ?_, ?_⟩
  · rw [hcount]
    exact hsource.expansion hlength hresolve
  · intro calls hcalls
    rw [hcount] at hcalls ⊢
    obtain ⟨hfits, hlimit⟩ := hpends.collect (hsize.trans_lt hcalls)
    rw [hsize, hitems] at hfits hlimit
    by_cases hlt : source.nodeCount < formulaMaxNodes
    · obtain ⟨hall, hcomplete⟩ := hfits (by dsimp only; omega)
      rw [if_pos hlt]
      exact ⟨hall, fun _ => hlt, fun _ => hcomplete⟩
    · obtain ⟨hall, hcomplete⟩ := hlimit (by dsimp only; omega)
      rw [if_neg hlt]
      refine ⟨hall, fun h => ?_, fun h => absurd h hlt⟩
      rw [hcomplete] at h
      cases h
  · intro formulas store checked hhosts hinj hparts
    rw [hcount]
    refine ⟨⟨c.definitionId, ⟨c.canonical, arguments, 9, [(0, 0)], 1, false⟩, [], none⟩, ?_, ?_⟩
    · rw [beginDefinition, hstart]
      rfl
    obtain ⟨hfits, hlimit⟩ := rebuilds hinj arguments source checked c.definitionId [] hpends hhosts
      hparts
    have hends : ∃ calls, ∀ more, if source.nodeCount < formulaMaxNodes then
        ∃ address store', run sha256 (calls + more) (inside store checked c.definitionId
            ⟨c.canonical, arguments, 9, [(0, 0)], 1, false⟩ [] none) =
            .ok (some address, ⟨store', checked.insert c.definitionId, none⟩) ∧
          Held store' address (source.mapFree (formalArgument arguments)) ∧
          Hosts sha256 formulas store' ∧ store.Extends store'
      else run sha256 (calls + more) (inside store checked c.definitionId
            ⟨c.canonical, arguments, 9, [(0, 0)], 1, false⟩ [] none) =
        .error (.check (.nodeLimitExceeded formulaMaxNodes)) := by
      by_cases hlt : source.nodeCount < formulaMaxNodes
      · obtain ⟨store', nodes', address, hreaches, hpends', -, hheld, hhosts', hext⟩ :=
          hfits (by dsimp only; omega)
        obtain ⟨calls, hcalls⟩ := run_of_reaches hreaches
        refine ⟨calls + 1, fun more => ?_⟩
        rw [if_pos hlt]
        refine ⟨address, store', ?_, hheld, hhosts', hext⟩
        have hlast : (inside store' checked c.definitionId nodes' [] (some address)).advanceDefinition
            sha256 = .ok (some address, ⟨store', checked.insert c.definitionId, none⟩) := by
          rw [advance_value]
          simp only [completeFrame, hpends'.next_nil.2, require, if_true]
          rfl
        rw [Nat.add_assoc, Nat.add_comm 1 more, hcalls, run, hlast]
        rfl
      · obtain ⟨s, hreaches, hs⟩ := hlimit (by dsimp only; omega)
        obtain ⟨calls, hcalls⟩ := run_of_reaches hreaches
        refine ⟨calls + 1, fun more => ?_⟩
        rw [if_neg hlt, Nat.add_assoc, Nat.add_comm 1 more, hcalls, run, hs]
        rfl
    refine ⟨?_, hends⟩
    intro calls e herror
    obtain ⟨enough, henough⟩ := hends
    have hafter := run_add_of_error herror enough
    rw [Nat.add_comm] at hafter
    have hboth := henough calls
    by_cases hlt : source.nodeCount < formulaMaxNodes
    · rw [if_pos hlt] at hboth
      obtain ⟨address, store', hok, -⟩ := hboth
      rw [hafter] at hok
      cases hok
    · rw [if_neg hlt, hafter] at hboth
      cases hboth
      exact ⟨rfl, Nat.le_of_not_lt hlt⟩

namespace Inclusion

/-- `∀ z, z ∈ x → z ∈ y`. -/
def body : DefinedFormula := .forAll ⟨2⟩ (.implies (.member ⟨2⟩ ⟨0⟩) (.member ⟨2⟩ ⟨1⟩))

theorem isSome_certificate :
    (DefinitionCertificate.new sampleDigest (.relation 2) body).toOption.isSome = true := by
  decide +kernel

@[irreducible] def certificate : DefinitionCertificate := Option.get _ isSome_certificate

theorem new_certificate :
    DefinitionCertificate.new sampleDigest (.relation 2) body = .ok certificate := by
  unfold certificate
  exact toOption_eq_some.1 (Option.some_get isSome_certificate).symm

def resolver : DefinitionResolver := fun id =>
  .ok (if id = certificate.definitionId then some certificate.resolution else none)

/-- The body between the sets 9 and 5. -/
def tree : PrimitiveNode :=
  .forAll (.implies (.member (.bound 0) (.free ⟨9⟩)) (.member (.bound 0) (.free ⟨5⟩)))

theorem expanded : ((DefinedFormula.definedRelation certificate.definitionId
    [⟨9⟩, ⟨5⟩]).expandWith resolver).toOption.map Formula.node = some tree := by
  decide +kernel

theorem treeNodes_tree : treeNodes tree = [.forAll (), .implies () (),
    .member (.bound 0) (.free ⟨9⟩), .member (.bound 0) (.free ⟨5⟩)] := rfl

end Inclusion

open Inclusion in
/-- The subset relation between two sets: its quantifier, its implication and its two atoms come one
after another, with the arguments in the places of the formal variables. -/
theorem definition_streamed_subset : ∃ it, DefinitionInstantiation.new certificate [9, 5] = .ok it ∧
    Streamed sampleDigest certificate resolver [9, 5] it tree ∧
    (it.collect 5).1 = [.ok (.forAll ()), .ok (.implies () ()),
      .ok (.member (.bound 0) (.free ⟨9⟩)), .ok (.member (.bound 0) (.free ⟨5⟩))] ∧
    (it.collect 5).2.complete = true := by
  obtain ⟨it, tree', hit, hstreamed⟩ := definition_streamed new_certificate
    (show resolver certificate.definitionId = .ok (some certificate.resolution) by
      rw [resolver, if_pos rfl])
    (show [9, 5].length = certificate.relationArity by decide +kernel)
  have htree : tree' = tree := by
    have hexpansion := hstreamed.expansion
    obtain ⟨f, hf, hnode⟩ := Option.map_eq_some_iff.1 expanded
    rw [show [9, 5].map FreeVariable.mk = [⟨9⟩, ⟨5⟩] from rfl, toOption_eq_some.1 hf] at hexpansion
    split_ifs at hexpansion
    · rw [← hnode]
      exact (Except.ok.inj hexpansion).symm
    · cases hexpansion
  subst htree
  obtain ⟨hitems, hcomplete⟩ := hstreamed.stream 5 (by decide)
  refine ⟨it, hit, hstreamed, ?_, hcomplete.mpr (by decide)⟩
  rw [hitems, if_pos (by decide), treeNodes_tree]
  rfl

end Naome
