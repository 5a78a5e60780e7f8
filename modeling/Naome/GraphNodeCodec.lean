import Naome.FormulaGraph

/-!
# Graph node records

The decoder tells three widths apart, reads children and variables at fixed places and accepts a
record only when the encoder writes the same bytes again. Properties are computed from the children
with checked 64-bit arithmetic.
-/
namespace Naome
open LocallyNameless Outcome ByteCursor

/-- Reads one byte at a place that the width of the record promises. -/
def byteAt (start : ℕ) (body : List UInt8) : Except (Stop String) UInt8 :=
  match body[start]? with
  | some b => .ok b
  | none => .error .panic

def bytesAt (message : String) (start length : ℕ) (body : List UInt8) :
    Except (Stop String) (List UInt8) :=
  if start + length ≤ body.length then .ok ((body.drop start).take length)
  else .error (.error message)

def childAt (start : ℕ) (body : List UInt8) : Except (Stop String) Digest := do
  let bytes ← bytesAt "formula child width" start 32 body
  return BitVec.ofNat 256 (ofBigEndian bytes)

def variableAt (start : ℕ) (body : List UInt8) :
    Except (Stop String) (Variable FreeVariable) := do
  let bytes ← bytesAt "formula variable width" (start + 1) 8 body
  let value := ofBigEndian bytes
  let tag ← byteAt start body
  if tag = 0 then
    if value < 2 ^ 32 then return .free ⟨UInt32.ofNat value⟩
    else .error (.error "free variable width")
  else if tag = 1 then return .bound value
  else .error (.error "formula variable tag")

/-- The width of a record says how many children come first. -/
def childWidth (body : List UInt8) : Except (Stop String) ℕ :=
  if body.length = 28 then .ok 0
  else if body.length = 42 then .ok 32
  else if body.length = 74 then .ok 64
  else .error (.error "formula node width")

def nodeAt (offset : ℕ) (tag : UInt8) (body : List UInt8) :
    Except (Stop String) (GraphNode Digest) :=
  if offset = 0 ∧ tag = 0 then do
    let left ← variableAt 1 body
    let right ← variableAt 10 body
    return .equal left right
  else if offset = 0 ∧ tag = 1 then do
    let element ← variableAt 1 body
    let set ← variableAt 10 body
    return .member element set
  else if offset = 32 ∧ tag = 2 then do return .not (← childAt 0 body)
  else if offset = 64 ∧ tag = 3 then do
    let antecedent ← childAt 0 body
    let consequent ← childAt 32 body
    return .implies antecedent consequent
  else if offset = 32 ∧ tag = 4 then do return .forAll (← childAt 0 body)
  else .error (.error "formula node tag")

def propertyFlag (flag : UInt8) : Except (Stop String) Bool :=
  if flag = 0 then .ok false
  else if flag = 1 then .ok true
  else .error (.error "formula property flag")

def propertiesAt (tail : ℕ) (body : List UInt8) : Except (Stop String) Properties := do
  let hasFreeVariables ← propertyFlag (← byteAt tail body)
  let bytes ← bytesAt "formula property width" (tail + 1) 8 body
  return ⟨hasFreeVariables, ofBigEndian bytes⟩

def decodeGraphNode (bytes : List UInt8) :
    Except (Stop String) (GraphNode Digest × Properties) :=
  match bytes.dropPrefix? graphNodeDomain with
  | none => .error (.error "formula node domain")
  | some body => do
    let offset ← childWidth body
    let tag ← byteAt offset body
    let node ← nodeAt offset tag body
    let properties ← propertiesAt (body.length - 9) body
    if graphNodeBytes node properties ≠ bytes then .error (.error "noncanonical formula node")
    else return (node, properties)

/-- The payload of a bound variable is a 64-bit number. -/
def GraphNode.Fits {I : Type} (node : GraphNode I) : Prop :=
  ∀ i, Variable.bound i ∈ node.operands → i < 2 ^ 64

def Properties.Fits (p : Properties) : Prop := p.requiredBinders < 2 ^ 64

section

variable {before after : List UInt8} {start : ℕ}

theorem byteAt_append {b : UInt8} (h : before.length = start) :
    byteAt start (before ++ b :: after) = .ok b := by
  subst h
  simp [byteAt]

theorem bytesAt_append {message : String} {bytes : List UInt8} {length : ℕ}
    (h : before.length = start) (hlength : bytes.length = length) :
    bytesAt message start length (before ++ (bytes ++ after)) = .ok bytes := by
  subst h hlength
  have hle : before.length + bytes.length ≤ (before ++ (bytes ++ after)).length := by
    simp only [List.length_append]
    omega
  rw [bytesAt, if_pos hle, List.drop_left, List.take_left]

theorem childAt_append {d : Digest} (h : before.length = start) :
    childAt start (before ++ (digestBytes d ++ after)) = .ok d := by
  have hpow : (256 : ℕ) ^ 32 = 2 ^ 256 := by norm_num
  have hvalue : ofBigEndian (digestBytes d) = d.toNat := by
    rw [digestBytes, ofBigEndian_bigEndian, hpow, Nat.mod_eq_of_lt d.isLt]
  rw [childAt, bytesAt_append h (length_digestBytes d), ok_bind, hvalue, BitVec.ofNat_toNat,
    BitVec.setWidth_eq]
  rfl

@[simp] theorem length_graphVariableBytes (x : Variable FreeVariable) :
    (graphVariableBytes x).length = 9 := by
  cases x <;> simp [graphVariableBytes]

theorem ofBigEndian_eight {n : ℕ} (h : n < 2 ^ 64) : ofBigEndian (bigEndian 8 n) = n := by
  rw [ofBigEndian_bigEndian, show (256 : ℕ) ^ 8 = 2 ^ 64 by norm_num, Nat.mod_eq_of_lt h]

theorem tagged_append (message : String) (tag : UInt8) (rest : List UInt8) {value : ℕ}
    (h : before.length = start) (hvalue : value < 2 ^ 64) :
    byteAt start (before ++ (tag :: bigEndian 8 value ++ rest)) = .ok tag ∧
      ∃ bytes, bytesAt message (start + 1) 8 (before ++ (tag :: bigEndian 8 value ++ rest)) =
        .ok bytes ∧ ofBigEndian bytes = value := by
  have hsplit : before ++ (tag :: bigEndian 8 value ++ rest) =
      (before ++ [tag]) ++ (bigEndian 8 value ++ rest) := by simp
  have hstart : (before ++ [tag]).length = start + 1 := by
    rw [List.length_append, h, List.length_singleton]
  refine ⟨byteAt_append h, _, ?_, ofBigEndian_eight hvalue⟩
  rw [hsplit, bytesAt_append hstart (length_bigEndian 8 value)]

theorem variableAt_append {x : Variable FreeVariable} (h : before.length = start)
    (hx : ∀ i, x = .bound i → i < 2 ^ 64) :
    variableAt start (before ++ (graphVariableBytes x ++ after)) = .ok x := by
  cases x with
  | free v =>
    have hlt : v.identifier.toNat < 2 ^ 32 := v.identifier.toNat_lt
    obtain ⟨htag, bytes, hbytes, hvalue⟩ := tagged_append "formula variable width" 0 after h
      (hlt.trans (by norm_num))
    rw [variableAt, graphVariableBytes, hbytes, ok_bind, htag, ok_bind, if_pos rfl, hvalue,
      if_pos hlt, UInt32.ofNat_toNat]
    rfl
  | bound i =>
    obtain ⟨htag, bytes, hbytes, hvalue⟩ := tagged_append "formula variable width" 1 after h
      (hx i rfl)
    rw [variableAt, graphVariableBytes, hbytes, ok_bind, htag, ok_bind, if_neg (by decide),
      if_pos rfl, hvalue]
    rfl

theorem propertiesAt_append {p : Properties} (h : before.length = start) (hp : p.Fits) :
    propertiesAt start (before ++ ((if p.hasFreeVariables then 1 else 0) ::
      bigEndian 8 p.requiredBinders)) = .ok p := by
  obtain ⟨htag, bytes, hbytes, hvalue⟩ := tagged_append "formula property width"
    (if p.hasFreeVariables then 1 else 0) [] h hp
  rw [List.append_nil] at htag hbytes
  rw [propertiesAt, htag, ok_bind, hbytes]
  obtain ⟨hasFreeVariables, requiredBinders⟩ := p
  cases hasFreeVariables <;> simp only [ok_bind, hvalue] <;> rfl

/-- The body of a record: the children, the tag, the operands and the properties. -/
def graphNodeBody (node : GraphNode Digest) (p : Properties) : List UInt8 :=
  node.children.flatMap digestBytes ++ node.tag :: (node.operands.flatMap graphVariableBytes ++
    (if p.hasFreeVariables then 1 else 0) :: bigEndian 8 p.requiredBinders)

theorem graphNodeBytes_eq (node : GraphNode Digest) (p : Properties) :
    graphNodeBytes node p = graphNodeDomain ++ graphNodeBody node p := by
  simp [graphNodeBytes, graphNodeBody]

theorem length_graphNodeBody (node : GraphNode Digest) (p : Properties) :
    (graphNodeBody node p).length =
      32 * node.children.length + 9 * node.operands.length + 10 := by
  cases node <;> simp [graphNodeBody, GraphNode.children, GraphNode.operands]

theorem childWidth_graphNodeBody (node : GraphNode Digest) (p : Properties) :
    childWidth (graphNodeBody node p) = .ok (32 * node.children.length) := by
  have hlength := length_graphNodeBody node p
  cases node <;> simp only [GraphNode.children, GraphNode.operands, List.length_nil,
    List.length_cons] at hlength <;> simp [childWidth, hlength, GraphNode.children]

theorem byteAt_graphNodeBody (node : GraphNode Digest) (p : Properties) :
    byteAt (32 * node.children.length) (graphNodeBody node p) = .ok node.tag := by
  refine byteAt_append ?_
  cases node <;> simp [GraphNode.children]

theorem nodeAt_graphNodeBody {node : GraphNode Digest} (p : Properties) (h : node.Fits) :
    nodeAt (32 * node.children.length) node.tag (graphNodeBody node p) = .ok node := by
  -- The places of the two operands of an atom, and of the children of the other nodes.
  have hleft : ∀ (l r : Variable FreeVariable) (tag : UInt8) (rest : List UInt8),
      (∀ i, l = .bound i → i < 2 ^ 64) →
        variableAt 1 (tag :: (graphVariableBytes l ++ (graphVariableBytes r ++ rest))) = .ok l :=
    fun l r tag rest hl => @variableAt_append [tag] (graphVariableBytes r ++ rest) 1 l rfl hl
  have hright : ∀ (l r : Variable FreeVariable) (tag : UInt8) (rest : List UInt8),
      (∀ i, r = .bound i → i < 2 ^ 64) →
        variableAt 10 (tag :: (graphVariableBytes l ++ (graphVariableBytes r ++ rest))) =
          .ok r := by
    intro l r tag rest hr
    have hsplit : tag :: (graphVariableBytes l ++ (graphVariableBytes r ++ rest)) =
        (tag :: graphVariableBytes l) ++ (graphVariableBytes r ++ rest) := rfl
    rw [hsplit]
    exact variableAt_append (by simp) hr
  have hfirst : ∀ (d : Digest) (rest : List UInt8), childAt 0 (digestBytes d ++ rest) = .ok d :=
    fun d rest => @childAt_append [] rest 0 d rfl
  cases node with
  | equal l r =>
    have hl : ∀ i, l = .bound i → i < 2 ^ 64 := fun i hi => h i (by simp [GraphNode.operands, hi])
    have hr : ∀ i, r = .bound i → i < 2 ^ 64 := fun i hi => h i (by simp [GraphNode.operands, hi])
    simp [nodeAt, graphNodeBody, GraphNode.children, GraphNode.operands, GraphNode.tag,
      hleft l r _ _ hl, hright l r _ _ hr, pure, Except.pure]
  | member l r =>
    have hl : ∀ i, l = .bound i → i < 2 ^ 64 := fun i hi => h i (by simp [GraphNode.operands, hi])
    have hr : ∀ i, r = .bound i → i < 2 ^ 64 := fun i hi => h i (by simp [GraphNode.operands, hi])
    simp [nodeAt, graphNodeBody, GraphNode.children, GraphNode.operands, GraphNode.tag,
      hleft l r _ _ hl, hright l r _ _ hr, pure, Except.pure]
  | not a =>
    simp [nodeAt, graphNodeBody, GraphNode.children, GraphNode.operands, GraphNode.tag, hfirst,
      pure, Except.pure]
  | implies a b =>
    have hsecond : ∀ rest : List UInt8,
        childAt 32 (digestBytes a ++ (digestBytes b ++ rest)) = .ok b :=
      fun rest => childAt_append (length_digestBytes a)
    simp [nodeAt, graphNodeBody, GraphNode.children, GraphNode.operands, GraphNode.tag, hfirst,
      hsecond, pure, Except.pure]
  | forAll a =>
    simp [nodeAt, graphNodeBody, GraphNode.children, GraphNode.operands, GraphNode.tag, hfirst,
      pure, Except.pure]

theorem propertiesAt_graphNodeBody (node : GraphNode Digest) {p : Properties} (h : p.Fits) :
    propertiesAt ((graphNodeBody node p).length - 9) (graphNodeBody node p) = .ok p := by
  have hsplit : graphNodeBody node p = (node.children.flatMap digestBytes ++
      node.tag :: node.operands.flatMap graphVariableBytes) ++
        (if p.hasFreeVariables then 1 else 0) :: bigEndian 8 p.requiredBinders := by
    simp [graphNodeBody]
  have hlength : (node.children.flatMap digestBytes ++
      node.tag :: node.operands.flatMap graphVariableBytes).length =
        (graphNodeBody node p).length - 9 := by
    have hwhole := congrArg List.length hsplit
    simp only [List.length_append, List.length_cons, length_bigEndian] at hwhole ⊢
    omega
  rw [← hlength]
  conv_lhs => rw [hsplit]
  exact propertiesAt_append rfl h

theorem decodeGraphNode_graphNodeBytes {node : GraphNode Digest} {p : Properties} (h : node.Fits)
    (hp : p.Fits) : decodeGraphNode (graphNodeBytes node p) = .ok (node, p) := by
  have hdrop : (graphNodeBytes node p).dropPrefix? graphNodeDomain =
      some (graphNodeBody node p) := by
    rw [graphNodeBytes_eq]
    exact List.dropPrefix?_append_of_beq _ (beq_self_eq_true _)
  rw [decodeGraphNode, hdrop]
  simp only [childWidth_graphNodeBody, byteAt_graphNodeBody, nodeAt_graphNodeBody p h,
    propertiesAt_graphNodeBody node hp, ok_bind, ne_eq, not_true_eq_false, if_false]
  rfl

theorem length_of_bytesAt {message : String} {length : ℕ} {body bytes : List UInt8}
    (h : bytesAt message start length body = .ok bytes) : bytes.length = length := by
  unfold bytesAt at h
  split_ifs at h with hle
  cases h
  rw [List.length_take, List.length_drop]
  omega

theorem ofBigEndian_of_bytesAt {message : String} {body bytes : List UInt8}
    (h : bytesAt message start 8 body = .ok bytes) : ofBigEndian bytes < 2 ^ 64 := by
  have hlt := ofBigEndian_lt bytes
  rwa [length_of_bytesAt h, show (256 : ℕ) ^ 8 = 2 ^ 64 by norm_num] at hlt

theorem fits_of_variableAt {body : List UInt8} {x : Variable FreeVariable}
    (h : variableAt start body = .ok x) {i : ℕ} (hx : x = .bound i) : i < 2 ^ 64 := by
  simp only [variableAt, bind_eq_ok] at h
  obtain ⟨bytes, hbytes, tag, -, h⟩ := h
  split_ifs at h
  · cases h
    cases hx
  · cases h
    cases hx
    exact ofBigEndian_of_bytesAt hbytes

theorem fits_of_nodeAt {offset : ℕ} {tag : UInt8} {body : List UInt8} {node : GraphNode Digest}
    (h : nodeAt offset tag body = .ok node) : node.Fits := by
  have hatom : ∀ l r : Variable FreeVariable, variableAt 1 body = .ok l →
      variableAt 10 body = .ok r → ∀ i, Variable.bound i ∈ [l, r] → i < 2 ^ 64 := by
    intro l r hl hr i hi
    simp only [List.mem_cons, List.not_mem_nil, or_false] at hi
    rcases hi with hi | hi
    · exact fits_of_variableAt hl hi.symm
    · exact fits_of_variableAt hr hi.symm
  unfold nodeAt at h
  split_ifs at h
  · simp only [bind_eq_ok] at h
    obtain ⟨l, hl, r, hr, h⟩ := h
    cases h
    exact hatom l r hl hr
  · simp only [bind_eq_ok] at h
    obtain ⟨l, hl, r, hr, h⟩ := h
    cases h
    exact hatom l r hl hr
  · simp only [bind_eq_ok] at h
    obtain ⟨_, -, h⟩ := h
    cases h
    intro i hi
    cases hi
  · simp only [bind_eq_ok] at h
    obtain ⟨_, -, _, -, h⟩ := h
    cases h
    intro i hi
    cases hi
  · simp only [bind_eq_ok] at h
    obtain ⟨_, -, h⟩ := h
    cases h
    intro i hi
    cases hi

theorem fits_of_propertiesAt {tail : ℕ} {body : List UInt8} {p : Properties}
    (h : propertiesAt tail body = .ok p) : p.Fits := by
  simp only [propertiesAt, bind_eq_ok] at h
  obtain ⟨_, -, _, -, bytes, hbytes, h⟩ := h
  cases h
  exact ofBigEndian_of_bytesAt hbytes

/-- Accepted bytes are the encoding of what was read. -/
theorem decodeGraphNode_eq_ok {bytes : List UInt8} {node : GraphNode Digest} {p : Properties} :
    decodeGraphNode bytes = .ok (node, p) ↔ node.Fits ∧ p.Fits ∧ bytes = graphNodeBytes node p := by
  constructor
  · intro h
    unfold decodeGraphNode at h
    split at h
    · cases h
    · next body _ =>
      simp only [bind_eq_ok] at h
      obtain ⟨offset, -, tag, -, node', hnode, p', hp, h⟩ := h
      split_ifs at h with hsame
      cases h
      exact ⟨fits_of_nodeAt hnode, fits_of_propertiesAt hp, (not_not.mp hsame).symm⟩
  · rintro ⟨hnode, hp, rfl⟩
    exact decodeGraphNode_graphNodeBytes hnode hp

theorem byteAt_ne_panic {body : List UInt8} (h : start < body.length) :
    byteAt start body ≠ .error .panic := by
  rw [byteAt, List.getElem?_eq_getElem h]
  intro heq
  cases heq

theorem bytesAt_ne_panic {message : String} {length : ℕ} {body : List UInt8} :
    bytesAt message start length body ≠ .error .panic := by
  unfold bytesAt
  split_ifs <;> simp

theorem childAt_ne_panic {body : List UInt8} : childAt start body ≠ .error .panic := by
  intro h
  simp only [childAt, bind_eq_error] at h
  rcases h with h | ⟨_, -, h⟩
  · exact bytesAt_ne_panic h
  · cases h

theorem variableAt_ne_panic {body : List UInt8} (hstart : start < body.length) :
    variableAt start body ≠ .error .panic := by
  intro h
  simp only [variableAt, bind_eq_error] at h
  rcases h with h | ⟨_, -, h | ⟨tag, -, h⟩⟩
  · exact bytesAt_ne_panic h
  · exact byteAt_ne_panic hstart h
  · split_ifs at h <;> cases h

theorem nodeAt_ne_panic {offset : ℕ} {tag : UInt8} {body : List UInt8} (hbody : 10 < body.length) :
    nodeAt offset tag body ≠ .error .panic := by
  have hatom : ∀ build : Variable FreeVariable → Variable FreeVariable → GraphNode Digest,
      (do
        let left ← variableAt 1 body
        let right ← variableAt 10 body
        return build left right : Except (Stop String) (GraphNode Digest)) ≠ .error .panic := by
    intro build h
    simp only [bind_eq_error] at h
    rcases h with h | ⟨_, -, h | ⟨_, -, h⟩⟩
    · exact variableAt_ne_panic (by omega) h
    · exact variableAt_ne_panic hbody h
    · cases h
  have hunary : ∀ build : Digest → GraphNode Digest,
      (do return build (← childAt 0 body) : Except (Stop String) (GraphNode Digest)) ≠
        .error .panic := by
    intro build h
    simp only [bind_eq_error] at h
    rcases h with h | ⟨_, -, h⟩
    · exact childAt_ne_panic h
    · cases h
  unfold nodeAt
  split_ifs
  · exact hatom .equal
  · exact hatom .member
  · exact hunary .not
  · intro h
    simp only [bind_eq_error] at h
    rcases h with h | ⟨_, -, h | ⟨_, -, h⟩⟩
    · exact childAt_ne_panic h
    · exact childAt_ne_panic h
    · cases h
  · exact hunary .forAll
  · intro h
    cases h

theorem childWidth_eq_ok {body : List UInt8} {offset : ℕ} (h : childWidth body = .ok offset) :
    offset + 10 ≤ body.length ∧ 28 ≤ body.length := by
  unfold childWidth at h
  split_ifs at h <;> cases h <;> omega

theorem decodeGraphNode_ne_panic (bytes : List UInt8) : decodeGraphNode bytes ≠ .error .panic := by
  intro h
  unfold decodeGraphNode at h
  split at h
  · cases h
  · next body _ =>
    simp only [bind_eq_error] at h
    rcases h with h | ⟨offset, hoffset, h⟩
    · unfold childWidth at h
      split_ifs at h
      cases h
    obtain ⟨hle, hwidth⟩ := childWidth_eq_ok hoffset
    rcases h with h | ⟨tag, -, h | ⟨node, -, h | ⟨p, -, h⟩⟩⟩
    · exact byteAt_ne_panic (by omega) h
    · exact nodeAt_ne_panic (by omega) h
    · simp only [propertiesAt, bind_eq_error] at h
      rcases h with h | ⟨flag, -, h | ⟨_, -, h | ⟨_, -, h⟩⟩⟩
      · exact byteAt_ne_panic (by omega) h
      · unfold propertyFlag at h
        split_ifs at h
        cases h
      · exact bytesAt_ne_panic h
      · cases h
    · split_ifs at h <;> cases h

end

/-- One more than the index, unless it is the largest 64-bit number. -/
def Properties.checkedVariable : Variable FreeVariable → Option Properties
  | .free _ => some ⟨true, 0⟩
  | .bound i => if i + 1 < 2 ^ 64 then some ⟨false, i + 1⟩ else none

/-- The properties of a node from those of its children, with checked arithmetic. -/
def GraphNode.checkedProperties : GraphNode Properties → Option Properties
  | .equal a b => do
    return (← Properties.checkedVariable a).combine (← Properties.checkedVariable b)
  | .member a b => do
    return (← Properties.checkedVariable a).combine (← Properties.checkedVariable b)
  | .not p => some p
  | .implies p q => some (p.combine q)
  | .forAll p => some ⟨p.hasFreeVariables, p.requiredBinders - 1⟩

/-- Emits the nodes of a tree, children first. -/
def foldGraphM {α ε : Type} (emit : GraphNode α → Except ε α) : PrimitiveNode → Except ε α
  | .equal l r => emit (.equal l r)
  | .member l r => emit (.member l r)
  | .not n => do emit (.not (← foldGraphM emit n))
  | .implies a b => do
    let a ← foldGraphM emit a
    let b ← foldGraphM emit b
    emit (.implies a b)
  | .forAll n => do emit (.forAll (← foldGraphM emit n))
  | .definedRelation s _ => s.elim

/-- The properties of a tree; an overflow of the arithmetic stops the process. -/
def treeProperties (n : PrimitiveNode) : Except (Stop String) Properties :=
  foldGraphM (fun node => orError .panic node.checkedProperties) n

/-- The bound indices of a tree are 32-bit numbers. -/
def PrimitiveNode.Narrow : PrimitiveNode → Prop
  | .equal l r => ∀ i, Variable.bound i ∈ [l, r] → i < 2 ^ 32
  | .member l r => ∀ i, Variable.bound i ∈ [l, r] → i < 2 ^ 32
  | .not n => PrimitiveNode.Narrow n
  | .implies a b => PrimitiveNode.Narrow a ∧ PrimitiveNode.Narrow b
  | .forAll n => PrimitiveNode.Narrow n
  | .definedRelation s _ => s.elim

theorem Properties.checkedVariable_eq {x : Variable FreeVariable}
    (h : ∀ i, x = .bound i → i < 2 ^ 32) :
    Properties.checkedVariable x = some (Properties.ofVariable x) := by
  cases x with
  | free v => rfl
  | bound i =>
    have hi := h i rfl
    exact if_pos (by omega)

theorem treeProperties_eq {n : PrimitiveNode} (h : n.Narrow) :
    treeProperties n = .ok (foldGraph GraphNode.properties n) := by
  have hatom : ∀ l r : Variable FreeVariable, (∀ i, Variable.bound i ∈ [l, r] → i < 2 ^ 32) →
      Properties.checkedVariable l = some (Properties.ofVariable l) ∧
        Properties.checkedVariable r = some (Properties.ofVariable r) := by
    intro l r hlr
    exact ⟨Properties.checkedVariable_eq fun i hi => hlr i (by simp [hi]),
      Properties.checkedVariable_eq fun i hi => hlr i (by simp [hi])⟩
  unfold treeProperties
  induction n with
  | equal l r | member l r =>
    obtain ⟨hl, hr⟩ := hatom l r h
    simp only [foldGraphM, GraphNode.checkedProperties, hl, hr]
    rfl
  | not n ih | forAll n ih =>
    rw [foldGraphM, ih h]
    rfl
  | implies a b iha ihb =>
    rw [foldGraphM, iha h.1, ok_bind, ihb h.2]
    rfl
  | definedRelation s => exact s.elim

theorem properties_represent (sha256 : List UInt8 → Digest) (n : PrimitiveNode) :
    (foldGraph (represent sha256) n).properties = foldGraph GraphNode.properties n := by
  induction n with
  | equal l r | member l r => rfl
  | not n ih | forAll n ih => simp only [foldGraph, represent, GraphNode.map, ih]
  | implies a b iha ihb => simp only [foldGraph, represent, GraphNode.map, iha, ihb]
  | definedRelation s => exact s.elim

/-- Records and properties are exact. Every node with its properties is read back from its bytes;
accepted bytes are the encoding of what was read; the decoder never reads outside a record; and the
properties of a tree say whether a variable is free in it, and the least number of binders around it
that makes its indices valid. -/
theorem graphNode_exact :
    (∀ (node : GraphNode Digest) (p : Properties), node.Fits → p.Fits →
      decodeGraphNode (graphNodeBytes node p) = .ok (node, p)) ∧
    (∀ (bytes : List UInt8) (node : GraphNode Digest) (p : Properties),
      decodeGraphNode bytes = .ok (node, p) → graphNodeBytes node p = bytes) ∧
    (∀ bytes : List UInt8, decodeGraphNode bytes ≠ .error .panic) ∧
    ∀ n : PrimitiveNode, n.Narrow → ∃ p, treeProperties n = .ok p ∧
      (p.hasFreeVariables = true ↔ ∃ v, v ∈ n.occurrences) ∧
      IsLeast {d | n.Scoped d} p.requiredBinders ∧
      (p.closed = true ↔ n.occurrences = [] ∧ n.Scoped 0) := by
  refine ⟨fun node p => decodeGraphNode_graphNodeBytes, ?_, decodeGraphNode_ne_panic, ?_⟩
  · intro bytes node p h
    exact (decodeGraphNode_eq_ok.1 h).2.2.symm
  · intro n hn
    obtain ⟨hfree, hscoped⟩ := @foldGraph_properties (fun _ => 0) n
    have hclosed := @closed_foldGraph (fun _ => 0) n
    rw [properties_represent] at hfree hscoped hclosed
    refine ⟨_, treeProperties_eq hn, ?_, ⟨?_, ?_⟩, hclosed⟩
    · rw [hfree]
      cases n.occurrences with
      | nil => simp
      | cons v vs => simp
    · exact (hscoped _).mpr le_rfl
    · intro d hd
      exact (hscoped d).mp hd

/-- The record of `∀x. x = y`. -/
theorem graphNode_exact_equal :
    let node : GraphNode Digest := .equal (.bound 0) (.free ⟨1⟩)
    decodeGraphNode (graphNodeBytes node ⟨true, 1⟩) = .ok (node, ⟨true, 1⟩) := by
  intro node
  obtain ⟨hround, -⟩ := graphNode_exact
  have hp : (⟨true, 1⟩ : Properties).Fits := by
    norm_num [Properties.Fits]
  refine hround node ⟨true, 1⟩ ?_ hp
  intro i hi
  simp only [node, GraphNode.operands, List.mem_cons, Variable.bound.injEq, reduceCtorEq,
    List.not_mem_nil, or_false] at hi
  omega

end Naome
