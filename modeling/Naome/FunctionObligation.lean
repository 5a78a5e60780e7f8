import Naome.DefinitionStreamSpec
import Naome.ArtifactState
import Naome.SchemaMeaning

/-!
# The obligation of a function definition

A function definition is accepted when an earlier selected proof states that its body
defines exactly one output for all inputs. The statement is composed from the body, so
the body is measured before the statement is built; the measure is exact.
-/
namespace Naome
open LocallyNameless Outcome ByteCursor FormulaCodec

def functionObligationFixedNodes : ℕ := 9

def functionObligationFixedDepth : ℕ := 8

inductive DefinitionCheckError
  | contextAccess (source : ContextError)
  | canonicalBody (source : DefinedFormulaCodecError)
  | unknownObligationStatement (statementId : StatementId)
  | obligationConclusionMismatch (statementId : StatementId)
  | obligationFormula (source : FormulaCodecError)
  deriving DecidableEq, Repr

namespace Checker

def maximumFunctionBodyNodes (inputArity : ℕ) : ℕ :=
  (formulaMaxNodes - (inputArity + functionObligationFixedNodes)) / 2

def maximumFunctionBodyDepth (inputArity : ℕ) : Option ℕ :=
  let overhead := inputArity + functionObligationFixedDepth
  (if overhead ≤ formulaMaxDepth then some (formulaMaxDepth - overhead) else none).filter (0 < ·)

/-- The variable at a position of the graph of a definition. -/
def formalVariable (identifier : ℕ) : FreeVariable := ⟨UInt32.ofNat identifier⟩

def functionObligation (inputArity : ℕ) (body : Formula) : Formula :=
  let output := formalVariable inputArity
  let uniquenessWitness := formalVariable (inputArity + 1)
  let witnessBody := body.substituteFree output uniquenessWitness
  let uniqueness := Formula.forAll uniquenessWitness
    (.implies witnessBody (.equal uniquenessWitness output))
  let obligation := Formula.existsOne output (.conjunction body uniqueness)
  (List.range inputArity).foldr (fun identifier => Formula.forAll (formalVariable identifier))
    obligation

/-- A body over the limits of the obligation is reported as an obligation over the limits of
formulas. -/
def bodyError : DefinedFormulaCodecError → DefinitionCheckError
  | .codec (.nodeLimitExceeded _) => .obligationFormula (.nodeLimitExceeded formulaMaxNodes)
  | .codec (.depthLimitExceeded _) => .obligationFormula (.depthLimitExceeded formulaMaxDepth)
  | source => .canonicalBody source

section

variable (sha256 : List UInt8 → Digest)

/-- The body of a function certificate, read within the limits of its obligation. -/
def functionBody (certificate : DefinitionCertificate) (inputArity : ℕ) :
    Except DefinitionCheckError Formula := do
  let maximumBodyDepth ← orError (.obligationFormula (.depthLimitExceeded formulaMaxDepth))
    (maximumFunctionBodyDepth inputArity)
  let (bodyBytes, _) ← (certificate.body.encodeCanonicalWithLimits
    (maximumFunctionBodyNodes inputArity) maximumBodyDepth).mapError bodyError
  (Formula.decodeCanonical bodyBytes).mapError fun source => .canonicalBody (.primitive source)

/-- The selected statement of an obligation. -/
def selectedObligation (artifactState : ContextView) (conclusion : Formula)
    (canonical : List UInt8) : Except DefinitionCheckError CheckedDefinitionObligation := do
  let id := statementId sha256 canonical
  let selected ← (artifactState.statementFormula id checkerMaxFormulaWorkBytes).mapError
    .contextAccess
  let selected ← orError (.unknownObligationStatement id) selected
  require (selected = conclusion) (.obligationConclusionMismatch id)
  return ⟨id, conclusion⟩

def checkDefinitionWithState (certificate : DefinitionCertificate) (artifactState : ContextView) :
    Except DefinitionCheckError CheckedDefinition :=
  match certificate.kind with
  | .relation _ => .ok ⟨certificate, certificate.definitionId, none⟩
  | .function inputArity => do
    let body ← functionBody certificate inputArity
    let conclusion := functionObligation inputArity body
    let canonical ← conclusion.encodeCanonical.mapError .obligationFormula
    let obligation ← selectedObligation sha256 artifactState conclusion canonical
    return ⟨certificate, certificate.definitionId, some obligation⟩

end

end Checker

namespace FormulaCodec

variable {D : Type} {fmt : NodeFormat D} {depth : ℕ} {n : Node FreeVariable D} {s s' : Encoder}
  {e : FormulaCodecError}

/-- The two limits that the encoder reports. -/
inductive IsEncodingLimit : FormulaCodecError → Prop
  | nodes (maximum : ℕ) : IsEncodingLimit (.nodeLimitExceeded maximum)
  | depth (maximum : ℕ) : IsEncodingLimit (.depthLimitExceeded maximum)

theorem enterNode_eq_error {maximumDepth : ℕ} {b : NodeBudget}
    (h : enterNode maximumDepth depth b = .error e) : IsEncodingLimit e := by
  rcases bind_eq_error.mp h with h | ⟨_, -, h⟩
  · obtain ⟨-, rfl⟩ := require_eq_error.mp h
    exact .depth _
  · unfold NodeBudget.charge at h
    split_ifs at h
    cases h
    exact .nodes _

theorem leaveNode_ne_error (hfits : FitsBytes fmt s.output.length) : leaveNode fmt s ≠ .error e := by
  rw [leaveNode_eq_ok.mpr ⟨rfl, hfits⟩]
  intro h
  cases h

theorem length_push (bytes : List UInt8) :
    (s.push bytes).output.length = s.output.length + bytes.length :=
  List.length_append

/-- A tree without definitions whose bytes fit is refused at a limit only. -/
theorem encodeNode_eq_error (hn : n.symbols = [])
    (hfits : FitsBytes fmt (s.output.length + (nodeBytes fmt n).length))
    (h : encodeNode fmt depth n s = .error e) : IsEncodingLimit e := by
  induction n generalizing depth s with
  | equal l r | member l r =>
    rcases bind_eq_error.mp h with h | ⟨nodes, -, h⟩
    · exact enterNode_eq_error h
    · refine absurd h (leaveNode_ne_error (hfits.mono ?_))
      simp only [encodeVariable_eq, Encoder.push, nodeBytes, List.length_append, List.length_cons,
        List.length_nil, length_variableBytes]
      omega
  | not n ih | forAll n ih =>
    simp only [nodeBytes, List.length_cons] at hfits
    rcases bind_eq_error.mp h with h | ⟨nodes, -, h⟩
    · exact enterNode_eq_error h
    rcases bind_eq_error.mp h with h | ⟨t, ht, h⟩
    · refine ih hn (hfits.mono ?_) h
      simp only [length_push, List.length_singleton]
      omega
    · refine absurd h (leaveNode_ne_error (hfits.mono ?_))
      rw [(encodeNode_eq_ok.mp ht).length_output, length_push, List.length_singleton]
      dsimp only
      omega
  | implies a b iha ihb =>
    simp only [nodeBytes, List.length_cons, List.length_append] at hfits
    simp only [Node.symbols, List.append_eq_nil_iff] at hn
    rcases bind_eq_error.mp h with h | ⟨nodes, -, h⟩
    · exact enterNode_eq_error h
    rcases bind_eq_error.mp h with h | ⟨t, ht, h⟩
    · refine iha hn.1 (hfits.mono ?_) h
      simp only [length_push, List.length_singleton]
      omega
    have hafter := (encodeNode_eq_ok.mp ht).length_output
    rw [length_push, List.length_singleton] at hafter
    dsimp only at hafter
    rcases bind_eq_error.mp h with h | ⟨u, hu, h⟩
    · exact ihb hn.2 (hfits.mono (by omega)) h
    · refine absurd h (leaveNode_ne_error (hfits.mono ?_))
      rw [(encodeNode_eq_ok.mp hu).length_output]
      omega
  | definedRelation symbol xs => simp [Node.symbols] at hn

end FormulaCodec

namespace Checker

variable {n : ℕ} {body : Formula}

theorem nodeCount_quantified (n : ℕ) (f : Formula) :
    ((List.range n).foldr (fun i => Formula.forAll (formalVariable i)) f).node.nodeCount =
      n + f.node.nodeCount := by
  induction n generalizing f with
  | zero => simp
  | succ n ih =>
    rw [List.range_succ, List.foldr_append, ih]
    simp only [List.foldr_cons, List.foldr_nil, Formula.forAll, Node.nodeCount,
      Node.nodeCount_bindFree]
    omega

theorem depth_quantified (n : ℕ) (f : Formula) :
    ((List.range n).foldr (fun i => Formula.forAll (formalVariable i)) f).node.depth =
      n + f.node.depth := by
  induction n generalizing f with
  | zero => simp
  | succ n ih =>
    rw [List.range_succ, List.foldr_append, ih]
    simp only [List.foldr_cons, List.foldr_nil, Formula.forAll, Node.depth, Node.depth_bindFree]
    omega

/-- The body occurs twice. -/
theorem nodeCount_functionObligation (n : ℕ) (body : Formula) :
    (functionObligation n body).node.nodeCount =
      n + functionObligationFixedNodes + 2 * body.node.nodeCount := by
  unfold functionObligation functionObligationFixedNodes
  rw [nodeCount_quantified]
  simp only [Formula.existsOne, Formula.conjunction, Formula.negate, Formula.implies,
    Formula.forAll, Formula.equal, Formula.substituteFree_eq_map, Formula.mapFreeVariables,
    Node.bindFree, Node.nodeCount, Node.nodeCount_bindFree, Node.nodeCount_mapFree]
  omega

/-- The deeper copy of the body is the one for the other output. -/
theorem depth_functionObligation (n : ℕ) (body : Formula) :
    (functionObligation n body).node.depth =
      n + functionObligationFixedDepth + body.node.depth := by
  have hpos := body.node.depth_pos
  unfold functionObligation functionObligationFixedDepth
  rw [depth_quantified]
  simp only [Formula.existsOne, Formula.conjunction, Formula.negate, Formula.implies,
    Formula.forAll, Formula.equal, Formula.substituteFree_eq_map, Formula.mapFreeVariables,
    Node.bindFree, Node.depth, Node.depth_bindFree, Node.depth_mapFree]
  omega

theorem maximumFunctionBodyDepth_eq_some {d : ℕ} :
    maximumFunctionBodyDepth n = some d ↔
      0 < d ∧ n + functionObligationFixedDepth + d = formulaMaxDepth := by
  unfold maximumFunctionBodyDepth
  dsimp only
  split_ifs with h
  · simp only [Option.filter_eq_some_iff, Option.some.injEq, decide_eq_true_eq]
    omega
  · simp only [Option.filter_none, reduceCtorEq, false_iff]
    omega

/-- The limits of the body are exactly those that keep the obligation encodable. -/
theorem withinLimits_functionObligation (hn : n + functionObligationFixedNodes ≤ formulaMaxNodes) :
    (functionObligation n body).WithinLimits ↔
      body.node.nodeCount ≤ maximumFunctionBodyNodes n ∧
        ∃ d, maximumFunctionBodyDepth n = some d ∧ body.node.depth ≤ d := by
  have hpos := body.node.depth_pos
  have hnodes : body.node.nodeCount ≤ maximumFunctionBodyNodes n ↔
      n + functionObligationFixedNodes + 2 * body.node.nodeCount ≤ formulaMaxNodes := by
    unfold maximumFunctionBodyNodes
    omega
  have hdepth : (∃ d, maximumFunctionBodyDepth n = some d ∧ body.node.depth ≤ d) ↔
      n + functionObligationFixedDepth + body.node.depth ≤ formulaMaxDepth := by
    simp only [maximumFunctionBodyDepth_eq_some]
    constructor
    · rintro ⟨d, ⟨_, hd⟩, hle⟩
      omega
    · intro h
      exact ⟨formulaMaxDepth - (n + functionObligationFixedDepth), ⟨by omega, by omega⟩, by omega⟩
  rw [Formula.WithinLimits, nodeCount_functionObligation, depth_functionObligation, hnodes, hdepth]

section Meaning

variable {M : Type*} {E : M → M → Prop}

/-- The assignment of a graph: input `i` under variable `i`, the output under the others. -/
def graphAssignment {n : ℕ} (inputs : Fin n → M) (output : M) : FreeVariable → M := fun v =>
  if h : v.identifier.toNat < n then inputs ⟨v.identifier.toNat, h⟩ else output

theorem toNat_formalVariable {i : ℕ} (hi : i < 2 ^ 32) :
    (formalVariable i).identifier.toNat = i := by
  simp only [formalVariable, UInt32.toNat_ofNat']
  exact Nat.mod_eq_of_lt hi

theorem eq_formalVariable {v : FreeVariable} {i : ℕ} (h : v.identifier.toNat = i) :
    v = formalVariable i := by
  apply FreeVariable.identifier_injective
  rw [formalVariable, ← h, UInt32.ofNat_toNat]

/-- Truth of a formula over the first `n` variables, quantified. -/
theorem holds_quantified {n : ℕ} (hn : n ≤ 2 ^ 32) (f : Formula) (ρ : FreeVariable → M) :
    ((List.range n).foldr (fun i => Formula.forAll (formalVariable i)) f).Holds E ρ ↔
      ∀ inputs : ℕ → M, f.Holds E fun v =>
        if v.identifier.toNat < n then inputs v.identifier.toNat else ρ v := by
  induction n generalizing f with
  | zero =>
    constructor
    · intro h inputs
      simpa using h
    · intro h
      simpa using h fun _ => ρ ⟨0⟩
  | succ n ih =>
    have hvar := toNat_formalVariable (i := n) (by omega)
    rw [List.range_succ, List.foldr_append, ih (by omega)]
    simp only [List.foldr_cons, List.foldr_nil, Formula.holds_forAll]
    have hupdate : ∀ (inputs : ℕ → M) (a : M),
        (Function.update (fun v : FreeVariable =>
          if v.identifier.toNat < n then inputs v.identifier.toNat else ρ v) (formalVariable n) a) =
        fun v => if v.identifier.toNat < n + 1 then Function.update inputs n a v.identifier.toNat
          else ρ v := by
      intro inputs a
      funext v
      by_cases hv : v.identifier.toNat = n
      · rw [eq_formalVariable hv, Function.update_self, hvar, if_pos n.lt_succ_self,
          Function.update_self]
      · have hne : v ≠ formalVariable n := by
          intro h
          rw [h, hvar] at hv
          exact hv rfl
        rw [Function.update_of_ne hne, Function.update_of_ne hv]
        have hlt : v.identifier.toNat < n + 1 ↔ v.identifier.toNat < n := by omega
        simp only [hlt]
    constructor
    · intro h inputs
      have hinputs := h inputs (inputs n)
      rwa [hupdate, Function.update_eq_self] at hinputs
    · intro h inputs a
      rw [hupdate]
      exact h _

/-- The free variables of a graph body are its inputs and its output. -/
def GraphBody (n : ℕ) (body : Formula) : Prop :=
  ∀ v ∈ body.freeVariables, v.identifier.toNat < n + 1

theorem graphAssignment_output {n : ℕ} (inputs : Fin n → M) (output : M) (hn : n < 2 ^ 32) :
    graphAssignment inputs output (formalVariable n) = output := by
  rw [graphAssignment, dif_neg]
  rw [toNat_formalVariable hn]
  exact lt_irrefl n

/-- Another output changes the assignment at the output only. -/
theorem update_graphAssignment {n : ℕ} {inputs : Fin n → M} {output a : M} {v : FreeVariable}
    (hn : n < 2 ^ 32) (hv : v.identifier.toNat < n + 1) :
    Function.update (graphAssignment inputs output) (formalVariable n) a v =
      graphAssignment inputs a v := by
  by_cases hvn : v.identifier.toNat = n
  · rw [eq_formalVariable hvn, Function.update_self, graphAssignment_output inputs a hn]
  · have hlt : v.identifier.toNat < n := by omega
    have hne : v ≠ formalVariable n := by
      intro h
      rw [h, toNat_formalVariable hn] at hvn
      exact hvn rfl
    rw [Function.update_of_ne hne, graphAssignment, graphAssignment, dif_pos hlt, dif_pos hlt]

theorem holds_graph {n : ℕ} (hbody : GraphBody n body) {ρ σ : FreeVariable → M}
    (h : ∀ v, v.identifier.toNat < n + 1 → ρ v = σ v) : body.Holds E ρ ↔ body.Holds E σ :=
  Formula.holds_congr fun v hv => h v (hbody v hv)

/-- The inner statement of the obligation: there is exactly one output. -/
def uniqueOutput (n : ℕ) (body : Formula) : Formula :=
  Formula.existsOne (formalVariable n) (.conjunction body (.forAll (formalVariable (n + 1))
    (.implies (body.substituteFree (formalVariable n) (formalVariable (n + 1)))
      (.equal (formalVariable (n + 1)) (formalVariable n)))))

theorem functionObligation_eq (n : ℕ) (body : Formula) : functionObligation n body =
    (List.range n).foldr (fun i => Formula.forAll (formalVariable i)) (uniqueOutput n body) := rfl

/-- Only the inputs are free in the inner statement. -/
theorem lt_of_mem_uniqueOutput {n : ℕ} (hbody : GraphBody n body) {v : FreeVariable}
    (h : v ∈ (uniqueOutput n body).freeVariables) : v.identifier.toNat < n := by
  simp only [uniqueOutput, Formula.existsOne, Formula.conjunction, Formula.freeVariables_negate,
    Formula.mem_freeVariables_forAll, Formula.freeVariables_implies,
    Formula.freeVariables_equal] at h
  obtain ⟨h, hne⟩ := h
  have hmem : v ∈ body.freeVariables := by
    rcases h with h | ⟨h | h | h, hwitness⟩
    · exact h
    · rcases Formula.freeVariables_substituteFree h with h | h
      · exact absurd h hwitness
      · exact h
    · exact absurd h hwitness
    · exact absurd h hne
  have hlt := hbody v hmem
  by_contra hle
  exact hne (eq_formalVariable (by omega))

theorem mem_freeVariables_quantified {n : ℕ} {f : Formula} {v : FreeVariable}
    (h : v ∈ ((List.range n).foldr (fun i => Formula.forAll (formalVariable i)) f).freeVariables) :
    v ∈ f.freeVariables ∧ ∀ i < n, v ≠ formalVariable i := by
  induction n generalizing f with
  | zero => exact ⟨h, fun i hi => absurd hi (Nat.not_lt_zero i)⟩
  | succ n ih =>
    rw [List.range_succ, List.foldr_append] at h
    obtain ⟨hmem, hne⟩ := ih h
    simp only [List.foldr_cons, List.foldr_nil, Formula.mem_freeVariables_forAll] at hmem
    refine ⟨hmem.1, ?_⟩
    intro i hi
    rcases Nat.lt_succ_iff_lt_or_eq.mp hi with hi | rfl
    · exact hne i hi
    · exact hmem.2

theorem isClosed_functionObligation {n : ℕ} (hbody : GraphBody n body) :
    (functionObligation n body).isClosed = true := by
  rw [Formula.isClosed_iff_freeVariables]
  intro v hv
  obtain ⟨hmem, hne⟩ := mem_freeVariables_quantified hv
  exact hne _ (lt_of_mem_uniqueOutput hbody hmem) (eq_formalVariable rfl)

/-- The copy of the body for the other output is not captured. -/
theorem holds_unique {n : ℕ} (hn : n + 1 < 2 ^ 32) (hbody : GraphBody n body)
    (inputs : Fin n → M) (output : M) :
    (uniqueOutput n body).Holds E (graphAssignment inputs output) ↔
      ∃! a, body.Holds E (graphAssignment inputs a) := by
  have hne : formalVariable n ≠ formalVariable (n + 1) := by
    intro h
    have := congrArg (fun v => v.identifier.toNat) h
    simp only [toNat_formalVariable (i := n) (by omega), toNat_formalVariable hn] at this
    omega
  have hvar := toNat_formalVariable hn
  unfold uniqueOutput
  simp only [Formula.holds_existsOne, Formula.holds_conjunction, Formula.holds_forAll,
    Formula.holds_implies, Formula.holds_substituteFree, Formula.holds_equal,
    Function.update_self, Function.update_of_ne hne]
  have hleft : ∀ a, body.Holds E (Function.update (graphAssignment inputs output)
      (formalVariable n) a) ↔ body.Holds E (graphAssignment inputs a) := by
    intro a
    exact holds_graph hbody fun v hv => update_graphAssignment (by omega) hv
  have hright : ∀ a b, body.Holds E (Function.update (Function.update (Function.update
      (graphAssignment inputs output) (formalVariable n) a) (formalVariable (n + 1)) b)
        (formalVariable n) b) ↔ body.Holds E (graphAssignment inputs b) := by
    intro a b
    apply holds_graph hbody
    intro v hv
    have hother : v ≠ formalVariable (n + 1) := by
      intro h
      rw [h, hvar] at hv
      omega
    rw [Function.update_comm hne.symm, Function.update_idem, Function.update_of_ne hother]
    exact update_graphAssignment (by omega) hv
  simp only [hleft, hright]
  rfl

/-- The obligation is true exactly when the body has one output for all inputs. -/
theorem models_functionObligation {n : ℕ} (hn : n + 1 < 2 ^ 32) (hpos : 0 < n)
    (hbody : GraphBody n body) : (functionObligation n body).Models E ↔
      ∀ inputs : Fin n → M, ∃! output, body.Holds E (graphAssignment inputs output) := by
  have hinner : ∀ (ρ : FreeVariable → M) (values : ℕ → M),
      ((uniqueOutput n body).Holds E fun v =>
        if v.identifier.toNat < n then values v.identifier.toNat else ρ v) ↔
      ∃! output, body.Holds E (graphAssignment (fun i : Fin n => values i) output) := by
    intro ρ values
    rw [← holds_unique hn hbody _ (values 0)]
    apply Formula.holds_congr
    intro v hv
    have hlt := lt_of_mem_uniqueOutput hbody hv
    rw [if_pos hlt, graphAssignment, dif_pos hlt]
  simp only [Formula.Models, functionObligation_eq, holds_quantified (n := n) (by omega), hinner]
  constructor
  · intro h inputs
    have hvalues := h (fun _ => inputs ⟨0, hpos⟩) fun i =>
      if hi : i < n then inputs ⟨i, hi⟩ else inputs ⟨0, hpos⟩
    simpa only [Fin.is_lt, dite_true, Fin.eta] using hvalues
  · intro h _ values
    exact h fun i => values i

end Meaning

section Preflight

variable {c : DefinitionCertificate} {B : Formula} {e : FormulaCodecError}

/-- A valid function certificate with its body as a primitive formula. -/
structure FunctionCertificate (c : DefinitionCertificate) (n : ℕ) (B : Formula) : Prop where
  kind : c.kind = .function n
  valid : DefinitionCertificate.Valid c.kind c.body
  node : B.node.embed = c.body.node

/-- What the measure reports when a limit is met. -/
inductive IsObligationLimit : FormulaCodecError → Prop
  | nodes : IsObligationLimit (.nodeLimitExceeded formulaMaxNodes)
  | depth : IsObligationLimit (.depthLimitExceeded formulaMaxDepth)

theorem exists_functionCertificate (hkind : c.kind = .function n)
    (hvalid : DefinitionCertificate.Valid c.kind c.body) : ∃ B, FunctionCertificate c n B := by
  obtain ⟨source, hsource⟩ := Node.exists_embed hvalid.primitive
  have hscope := c.body.wellScoped
  rw [← hsource, Node.scoped_embed] at hscope
  exact ⟨⟨source, hscope⟩, hkind, hvalid, hsource⟩

namespace FunctionCertificate

theorem arity (h : FunctionCertificate c n B) : 0 < n ∧ n < definitionMaxGraphArity := by
  have hpos := h.valid.arity_pos.2
  have hle := h.valid.arity_le
  rw [h.kind] at hpos hle
  simp only [DefinitionKind.graphArity] at hle
  have hne : n ≠ 0 := by
    rintro rfl
    exact hpos rfl
  omega

theorem graphBody (h : FunctionCertificate c n B) : GraphBody n B := by
  intro v hv
  have hdeclared := h.valid.declared v
  rw [← h.node, Node.occurrences_embed, h.kind] at hdeclared
  exact hdeclared (Formula.mem_freeVariables.mp hv)

theorem withinLimits (h : FunctionCertificate c n B) : B.WithinLimits := by
  have hcount := h.valid.withinLimits.nodeCount_le
  have hdepth := h.valid.withinLimits.depth_le
  rw [← h.node, Node.nodeCount_embed] at hcount
  rw [← h.node, Node.depth_embed] at hdepth
  exact ⟨hcount, hdepth⟩

theorem nodeBytes_body (h : FunctionCertificate c n B) (depth : ℕ) :
    nodeBytes (definedFormat true depth) c.body.node = B.canonicalBytes := by
  rw [← h.node, DefinedFormula.nodeBytes_embed]
  rfl

/-- The body is written within given limits, or one of them is reported. -/
theorem encodeCanonicalWithLimits (h : FunctionCertificate c n B) (maximumNodes maximumDepth : ℕ) :
    if B.node.nodeCount ≤ maximumNodes ∧ B.node.depth ≤ maximumDepth then
      c.body.encodeCanonicalWithLimits maximumNodes maximumDepth =
        .ok (B.canonicalBytes, B.node.nodeCount)
    else ∃ e, IsEncodingLimit e ∧
      c.body.encodeCanonicalWithLimits maximumNodes maximumDepth = .error (.codec e) := by
  have hlimits := h.withinLimits
  have hlength := h.valid.withinLimits.length_le
  rw [DefinedFormula.canonicalBytes, h.nodeBytes_body] at hlength
  have hfits : FitsBytes (definedFormat true maximumDepth) B.canonicalBytes.length := by
    intro maximum hmaximum
    cases hmaximum
    exact hlength
  have hcount : c.body.node.nodeCount = B.node.nodeCount := by
    rw [← h.node, Node.nodeCount_embed]
  have hdepth : c.body.node.depth = B.node.depth := by
    rw [← h.node, Node.depth_embed]
  have hwrites : (definedFormat true maximumDepth).Writes c.body.node := by
    refine (DefinedFormula.writes_of_length_le ?_).1
    rwa [h.nodeBytes_body]
  have hok : B.node.nodeCount ≤ maximumNodes ∧ B.node.depth ≤ maximumDepth ↔
      Encodable (definedFormat true maximumDepth) maximumNodes c.body.node := by
    constructor
    · rintro ⟨hnodes, hd⟩
      refine ⟨?_, hwrites, ?_, ?_⟩
      · rw [hdepth]
        exact le_min hd hlimits.2
      · rwa [h.nodeBytes_body]
      · rw [hcount]
        exact le_min hnodes hlimits.1
    · intro henc
      have hnodes := henc.nodeCount_le
      have hd := henc.depth_le
      rw [hcount] at hnodes
      rw [hdepth] at hd
      exact ⟨hnodes.trans (min_le_left _ _), hd.trans (min_le_left _ _)⟩
  unfold DefinedFormula.encodeCanonicalWithLimits
  split_ifs with hroom
  · rw [mapError_eq_ok, encodeTree_eq_ok, mapFreeState_preserve, h.nodeBytes_body, hcount]
    exact ⟨hok.mp hroom, rfl, rfl⟩
  · cases hx : encodeTree (definedFormat true maximumDepth) .preserve maximumNodes c.body.node with
    | ok r =>
      obtain ⟨bytes, used⟩ := r
      exact absurd (hok.mpr (encodeTree_eq_ok.mp hx).1) hroom
    | error e =>
      refine ⟨e, ?_, rfl⟩
      rcases bind_eq_error.mp hx with hx | ⟨_, -, hx⟩
      · refine encodeNode_eq_error h.valid.primitive ?_ hx
        rw [h.nodeBytes_body]
        exact hfits.mono (by simp)
      · cases hx

/-- The measure accepts the body exactly when its obligation is within the limits. -/
theorem functionBody_eq (h : FunctionCertificate c n B) :
    (functionObligation n B).WithinLimits ∧ functionBody c n = .ok B ∨
      ¬ (functionObligation n B).WithinLimits ∧
        ∃ e, IsObligationLimit e ∧ functionBody c n = .error (.obligationFormula e) := by
  have harity := h.arity
  have hsmall : n + functionObligationFixedNodes ≤ formulaMaxNodes := by
    unfold definitionMaxGraphArity at harity
    unfold functionObligationFixedNodes formulaMaxNodes
    omega
  rw [withinLimits_functionObligation hsmall]
  unfold functionBody
  cases hd : maximumFunctionBodyDepth n with
  | none =>
    right
    constructor
    · rintro ⟨_, d, hsome, _⟩
      cases hsome
    · exact ⟨_, .depth, rfl⟩
  | some d =>
    have hencoded := h.encodeCanonicalWithLimits (maximumFunctionBodyNodes n) d
    have hread : Formula.decodeCanonical B.canonicalBytes = .ok B :=
      Formula.decodeCanonical_eq_ok.mpr ⟨h.withinLimits, rfl⟩
    simp only [Option.some.injEq, exists_eq_left']
    split_ifs at hencoded with hroom
    · left
      refine ⟨hroom, ?_⟩
      simp only [orError, ok_bind, hencoded, Except.mapError, hread]
    · right
      obtain ⟨e, hlimit, hencoded⟩ := hencoded
      refine ⟨hroom, ?_⟩
      simp only [orError, ok_bind, hencoded, Except.mapError]
      cases hlimit with
      | nodes maximum => exact ⟨_, .nodes, rfl⟩
      | depth maximum => exact ⟨_, .depth, rfl⟩

/-- With the body measured, the obligation is encoded and only the selected state is asked. -/
theorem checkDefinitionWithState_eq {sha256 : List UInt8 → Digest} (h : FunctionCertificate c n B)
    (ctx : ContextView) :
    (functionObligation n B).WithinLimits ∧ checkDefinitionWithState sha256 c ctx =
        (selectedObligation sha256 ctx (functionObligation n B)
          (functionObligation n B).canonicalBytes).map
            (fun obligation => ⟨c, c.definitionId, some obligation⟩) ∨
      ¬ (functionObligation n B).WithinLimits ∧ ∃ e, IsObligationLimit e ∧
        checkDefinitionWithState sha256 c ctx = .error (.obligationFormula e) := by
  unfold checkDefinitionWithState
  rw [h.kind]
  rcases h.functionBody_eq with ⟨hlimits, hbody⟩ | ⟨hlimits, e, he, hbody⟩
  · left
    have hencoded : (functionObligation n B).encodeCanonical =
        .ok (functionObligation n B).canonicalBytes :=
      Formula.encodeCanonical_eq_ok.mpr ⟨hlimits, rfl⟩
    refine ⟨hlimits, ?_⟩
    simp only [hbody, ok_bind, hencoded, Except.mapError]
    cases selectedObligation sha256 ctx (functionObligation n B)
      (functionObligation n B).canonicalBytes <;> rfl
  · right
    refine ⟨hlimits, e, he, ?_⟩
    simp only [hbody, error_bind]

end FunctionCertificate
theorem selectedObligation_ne_formula {sha256 : List UInt8 → Digest} {ctx : ContextView}
    {conclusion : Formula} {canonical : List UInt8} :
    selectedObligation sha256 ctx conclusion canonical ≠ .error (.obligationFormula e) := by
  intro h
  unfold selectedObligation at h
  dsimp only at h
  cases hf : ctx.statementFormula (statementId sha256 canonical) checkerMaxFormulaWorkBytes with
  | error source =>
    rw [hf] at h
    cases h
  | ok selected =>
    rw [hf] at h
    cases selected with
    | none => cases h
    | some f =>
      simp only [Except.mapError, orError, ok_bind] at h
      rcases bind_eq_error.mp h with h | ⟨_, -, h⟩
      · obtain ⟨-, h⟩ := require_eq_error.mp h
        cases h
      · cases h

end Preflight

/-- The obligation of a certificate with the body `B` says what it should, and the measure of the
body decides whether it can be encoded. -/
structure ObligationExact (sha256 : List UInt8 → Digest) (c : DefinitionCertificate) (n : ℕ)
    (B : Formula) : Prop where
  node : B.node.embed = c.body.node
  closed : (functionObligation n B).isClosed = true
  meaning : ∀ (M : Type*) (E : M → M → Prop), (functionObligation n B).Models E ↔
    ∀ inputs : Fin n → M, ∃! output, B.Holds E (graphAssignment inputs output)
  limit : ∀ ctx : ContextView,
    (∃ maximum, checkDefinitionWithState sha256 c ctx =
        .error (.obligationFormula (.nodeLimitExceeded maximum)) ∨
      checkDefinitionWithState sha256 c ctx =
        .error (.obligationFormula (.depthLimitExceeded maximum))) ↔
      ¬ ∃ bytes, (functionObligation n B).encodeCanonical = .ok bytes
  onlyLimits : ∀ (ctx : ContextView) (e : FormulaCodecError),
    checkDefinitionWithState sha256 c ctx = .error (.obligationFormula e) →
      e = .nodeLimitExceeded formulaMaxNodes ∨ e = .depthLimitExceeded formulaMaxDepth
  preflight : ∀ body, functionBody c n = .ok body →
    body = B ∧ ∃ bytes, (functionObligation n body).encodeCanonical = .ok bytes

/-- The obligation of a function certificate is closed and says that every input has exactly one
output; the check refuses it for a limit exactly when it cannot be encoded, and what the measure of
the body accepts is encoded. -/
theorem functionObligation_exact (sha256 : List UInt8 → Digest) (c : DefinitionCertificate) (n : ℕ)
    (hcertificate : (∃ kind body, DefinitionCertificate.new sha256 kind body = .ok c) ∨
      ∃ bytes, DefinitionCertificate.fromCanonicalBytes sha256 bytes = .ok c)
    (hkind : c.kind = .function n) : ∃ B, ObligationExact sha256 c n B := by
  have hvalid : DefinitionCertificate.Valid c.kind c.body := by
    rcases hcertificate with ⟨kind, body, h⟩ | ⟨bytes, h⟩
    · obtain ⟨hvalid, rfl⟩ := DefinitionCertificate.new_eq_ok.mp h
      exact hvalid
    · obtain ⟨kind, body, hvalid, -, rfl⟩ := DefinitionCertificate.fromCanonicalBytes_eq_ok.mp h
      exact hvalid
  obtain ⟨B, hB⟩ := exists_functionCertificate hkind hvalid
  have harity := hB.arity
  unfold definitionMaxGraphArity at harity
  have hencodable : (∃ bytes, (functionObligation n B).encodeCanonical = .ok bytes) ↔
      (functionObligation n B).WithinLimits := by
    simp only [Formula.encodeCanonical_eq_ok]
    constructor
    · rintro ⟨_, hlimits, _⟩
      exact hlimits
    · intro hlimits
      exact ⟨_, hlimits, rfl⟩
  have hnever : ∀ ctx e, (functionObligation n B).WithinLimits →
      checkDefinitionWithState sha256 c ctx ≠ .error (.obligationFormula e) := by
    intro ctx e hlimits h
    obtain ⟨-, hchecked⟩ | ⟨hover, -⟩ :=
      @FunctionCertificate.checkDefinitionWithState_eq _ _ _ sha256 hB ctx
    · rw [hchecked] at h
      cases hselected : selectedObligation sha256 ctx (functionObligation n B)
          (functionObligation n B).canonicalBytes with
      | ok obligation =>
        rw [hselected] at h
        cases h
      | error source =>
        rw [hselected] at h
        cases h
        exact selectedObligation_ne_formula hselected
    · exact hover hlimits
  have hover : ∀ ctx, ¬ (functionObligation n B).WithinLimits → ∃ e, IsObligationLimit e ∧
      checkDefinitionWithState sha256 c ctx = .error (.obligationFormula e) := by
    intro ctx hlimits
    obtain ⟨h, -⟩ | ⟨-, h⟩ :=
      @FunctionCertificate.checkDefinitionWithState_eq _ _ _ sha256 hB ctx
    · exact absurd h hlimits
    · exact h
  refine ⟨B, hB.node, isClosed_functionObligation hB.graphBody, fun M E =>
    models_functionObligation (by omega) harity.1 hB.graphBody, fun ctx => ?_, fun ctx e he => ?_,
    fun body hbody => ?_⟩
  · rw [hencodable]
    constructor
    · rintro ⟨maximum, h⟩ hlimits
      rcases h with h | h
      · exact hnever ctx _ hlimits h
      · exact hnever ctx _ hlimits h
    · intro hlimits
      obtain ⟨e, he, h⟩ := hover ctx hlimits
      cases he with
      | nodes => exact ⟨_, .inl h⟩
      | depth => exact ⟨_, .inr h⟩
  · by_cases hlimits : (functionObligation n B).WithinLimits
    · exact absurd he (hnever ctx e hlimits)
    · obtain ⟨e', hlimit, h⟩ := hover ctx hlimits
      rw [h] at he
      cases he
      cases hlimit with
      | nodes => exact .inl rfl
      | depth => exact .inr rfl
  · rcases hB.functionBody_eq with ⟨hlimits, heq⟩ | ⟨-, e, -, heq⟩
    · rw [heq] at hbody
      cases hbody
      exact ⟨rfl, hencodable.mpr hlimits⟩
    · rw [heq] at hbody
      cases hbody

/-- The function whose output is its input, as a certificate with a constant hash. -/
def identityFunction : DefinitionCertificate :=
  .fromParts (fun _ => 0) (.function 1) (.equal ⟨1⟩ ⟨0⟩)
    (DefinitionCertificate.bytesOf (.function 1) (.equal ⟨1⟩ ⟨0⟩))

theorem identityFunction_new :
    DefinitionCertificate.new (fun _ => 0) (.function 1) (.equal ⟨1⟩ ⟨0⟩) = .ok identityFunction := by
  refine DefinitionCertificate.new_eq_ok.mpr ⟨⟨by decide, by decide, rfl, by decide, ?_,
    ⟨by decide, by decide, by decide⟩⟩, rfl⟩
  intro i hi
  rcases Nat.le_one_iff_eq_zero_or_eq_one.mp (Nat.lt_succ_iff.mp hi) with rfl | rfl
  · exact ⟨⟨0⟩, by decide, rfl⟩
  · exact ⟨⟨1⟩, by decide, rfl⟩

theorem functionObligation_exact_identity :
    ∃ B, ObligationExact.{0} (fun _ => 0) identityFunction 1 B :=
  functionObligation_exact _ _ _ (.inl ⟨_, _, identityFunction_new⟩) rfl

end Checker
end Naome
