import Naome.FormulaLength
import Naome.TermAccounts

/-!
# Accounts of formulas

The recorded nodes and depth of a formula are those of its tree, the counter of the context grows by
exactly these nodes, and a formula of the grammar is refused for a limit only when it passes one.
-/
namespace Naome
open LocallyNameless Outcome FormulaCodec ByteCursor

namespace DefinedFormula

variable (f g : DefinedFormula) (v : FreeVariable)

theorem nodeCount_existsOne : (existsOne v f).node.nodeCount = f.node.nodeCount + 3 := by
  simp [existsOne, forAll, negate, Node.nodeCount]

theorem depth_existsOne : (existsOne v f).node.depth = f.node.depth + 3 := by
  simp [existsOne, forAll, negate, Node.depth]

theorem length_existsOne :
    (existsOne v f).canonicalBytes.length = f.canonicalBytes.length + 3 := by
  simp [existsOne, forAll, negate, canonicalBytes, nodeBytes]

theorem nodeCount_conjunction :
    (conjunction f g).node.nodeCount = f.node.nodeCount + g.node.nodeCount + 3 := by
  simp only [conjunction, implies, negate, Node.nodeCount]
  omega

theorem depth_conjunction :
    (conjunction f g).node.depth = max (f.node.depth + 2) (g.node.depth + 3) := by
  simp only [conjunction, implies, negate, Node.depth]
  omega

theorem length_conjunction : (conjunction f g).canonicalBytes.length =
    f.canonicalBytes.length + g.canonicalBytes.length + 3 := by
  simp only [conjunction, implies, negate, canonicalBytes, nodeBytes, List.length_cons,
    List.length_append]
  omega

theorem length_definedRelation (id : DefinitionId) (ys : List FreeVariable) :
    (definedRelation id ys).canonicalBytes.length = 37 + 5 * ys.length := by
  simp only [definedRelation, canonicalBytes, nodeBytes, List.length_cons, List.length_append,
    length_digestBytes, length_u32Bytes, length_flatMap_variableBytes, List.length_map]
  omega

/-- Constraints and witnesses around a formula. -/
theorem size_relationalized {constraints : List DefinedFormula} {witnesses : List FreeVariable}
    {n : ℕ} (hconstraints : constraints.length = n) (hwitnesses : witnesses.length = n)
    (hgraphs : ∀ c ∈ constraints, ∃ id ys, c = definedRelation id ys ∧
      ys.length ≤ definitionMaxGraphArity) :
    (witnesses.foldr existsOne (constraints.foldr conjunction f)).node.nodeCount =
        7 * n + f.node.nodeCount ∧
      (witnesses.foldr existsOne (constraints.foldr conjunction f)).node.depth =
        f.node.depth + 6 * n ∧
      (witnesses.foldr existsOne (constraints.foldr conjunction f)).canonicalBytes.length ≤
        f.canonicalBytes.length + 1323 * n := by
  have hinner : (constraints.foldr conjunction f).node.nodeCount =
        4 * constraints.length + f.node.nodeCount ∧
      (constraints.foldr conjunction f).node.depth = f.node.depth + 3 * constraints.length ∧
      (constraints.foldr conjunction f).canonicalBytes.length ≤
        f.canonicalBytes.length + 1320 * constraints.length := by
    clear hconstraints
    induction constraints with
    | nil => simp
    | cons c constraints ih =>
      obtain ⟨hnodes, hdepth, hbytes⟩ := ih fun c hc => hgraphs c (List.mem_cons_of_mem _ hc)
      obtain ⟨id, ys, rfl, hys⟩ := hgraphs c List.mem_cons_self
      have hnode : (definedRelation id ys).node.nodeCount = 1 := rfl
      have hlevel : (definedRelation id ys).node.depth = 1 := rfl
      unfold definitionMaxGraphArity at hys
      rw [List.foldr_cons, nodeCount_conjunction, depth_conjunction, length_conjunction,
        length_definedRelation, hnode, hlevel, List.length_cons]
      omega
  obtain ⟨hnodes, hdepth, hbytes⟩ := hinner
  have houter : ∀ g : DefinedFormula,
      (witnesses.foldr existsOne g).node.nodeCount = 3 * witnesses.length + g.node.nodeCount ∧
      (witnesses.foldr existsOne g).node.depth = g.node.depth + 3 * witnesses.length ∧
      (witnesses.foldr existsOne g).canonicalBytes.length =
        g.canonicalBytes.length + 3 * witnesses.length := by
    intro g
    clear hwitnesses
    induction witnesses with
    | nil => simp
    | cons w witnesses ih =>
      rw [List.foldr_cons, nodeCount_existsOne, depth_existsOne, length_existsOne,
        List.length_cons]
      omega
  obtain ⟨hnodes', hdepth', hbytes'⟩ := houter (constraints.foldr conjunction f)
  omega

end DefinedFormula

namespace Authoring

theorem size_relationalize (calls : ℕ) (atom : DefinedFormula) :
    (relationalize calls atom).node.nodeCount = 7 * calls + atom.node.nodeCount ∧
      (relationalize calls atom).node.depth = atom.node.depth + 6 * calls := by
  have hinner : ∀ k, ((DefinedFormula.conjunction (.definedRelation 0 []))^[k]
        atom).node.nodeCount = 4 * k + atom.node.nodeCount ∧
      ((DefinedFormula.conjunction (.definedRelation 0 []))^[k] atom).node.depth =
        atom.node.depth + 3 * k := by
    intro k
    induction k with
    | zero => simp
    | succ k ih =>
      have hnode : (DefinedFormula.definedRelation 0 []).node.nodeCount = 1 := rfl
      have hlevel : (DefinedFormula.definedRelation 0 []).node.depth = 1 := rfl
      rw [Function.iterate_succ_apply', DefinedFormula.nodeCount_conjunction,
        DefinedFormula.depth_conjunction, hnode, hlevel]
      omega
  have houter : ∀ (k : ℕ) (g : DefinedFormula),
      ((DefinedFormula.existsOne ⟨0⟩)^[k] g).node.nodeCount = 3 * k + g.node.nodeCount ∧
      ((DefinedFormula.existsOne ⟨0⟩)^[k] g).node.depth = g.node.depth + 3 * k := by
    intro k g
    induction k with
    | zero => simp
    | succ k ih =>
      rw [Function.iterate_succ_apply', DefinedFormula.nodeCount_existsOne,
        DefinedFormula.depth_existsOne]
      omega
  obtain ⟨hnodes, hdepth⟩ := hinner calls
  obtain ⟨hnodes', hdepth'⟩ := houter calls
    ((DefinedFormula.conjunction (.definedRelation 0 []))^[calls] atom)
  rw [relationalize]
  omega

theorem size_quantify (existential : Bool) (x : FreeVariable) (f : DefinedFormula) :
    (quantify existential x f).node.nodeCount = f.node.nodeCount + quantifierLevels existential ∧
      (quantify existential x f).node.depth = f.node.depth + quantifierLevels existential := by
  cases existential with
  | true => exact ⟨DefinedFormula.nodeCount_existsOne f x, DefinedFormula.depth_existsOne f x⟩
  | false =>
    constructor
    · simp [quantify, quantifierLevels, DefinedFormula.forAll, Node.nodeCount]
    · simp [quantify, quantifierLevels, DefinedFormula.forAll, Node.depth]

theorem size_foldr_quantify (existential : Bool) (xs : List FreeVariable) (f : DefinedFormula) :
    (xs.foldr (quantify existential) f).node.nodeCount =
        f.node.nodeCount + xs.length * quantifierLevels existential ∧
      (xs.foldr (quantify existential) f).node.depth =
        f.node.depth + xs.length * quantifierLevels existential := by
  induction xs with
  | nil => simp
  | cons x xs ih =>
    obtain ⟨hnodes, hdepth⟩ := size_quantify existential x (xs.foldr (quantify existential) f)
    rw [List.foldr_cons, hnodes, hdepth, ih.1, ih.2, List.length_cons, Nat.succ_mul, Nat.add_assoc,
      Nat.add_assoc]
    exact ⟨rfl, rfl⟩

theorem size_apply (connective : Connective) (f g : DefinedFormula) :
    ((connective.apply f g).node.nodeCount, (connective.apply f g).node.depth) =
      binaryShape connective (f.node.nodeCount, f.node.depth) (g.node.nodeCount, g.node.depth) := by
  cases connective with
  | implies => rfl
  | and =>
    rw [Connective.apply, DefinedFormula.nodeCount_conjunction, DefinedFormula.depth_conjunction,
      binaryShape]
  | or =>
    simp only [Connective.apply, DefinedFormula.disjunction, DefinedFormula.implies,
      DefinedFormula.negate, Node.nodeCount, Node.depth, binaryShape, Prod.mk.injEq]
    omega
  | iff =>
    simp only [Connective.apply, DefinedFormula.biconditional,
      DefinedFormula.nodeCount_conjunction, DefinedFormula.depth_conjunction,
      DefinedFormula.implies, Node.nodeCount, Node.depth, binaryShape, Prod.mk.injEq]
    omega

namespace SourceFormula

theorem size_quantified (existential : Bool) (count : ℕ) (F : SourceFormula) :
    (quantified existential count F).nodes = F.nodes + count * quantifierLevels existential ∧
      (quantified existential count F).depth = F.depth + count * quantifierLevels existential := by
  have hiterate : (quantify existential ⟨0⟩)^[count] F.shape =
      (List.replicate count (⟨0⟩ : FreeVariable)).foldr (quantify existential) F.shape := by
    induction count with
    | zero => rfl
    | succ count ih => rw [Function.iterate_succ_apply', ih, List.replicate_succ, List.foldr_cons]
  obtain ⟨hnodes, hdepth⟩ :=
    size_foldr_quantify existential (List.replicate count (⟨0⟩ : FreeVariable)) F.shape
  rw [List.length_replicate] at hnodes hdepth
  rw [nodes, depth, shape, hiterate]
  exact ⟨hnodes, hdepth⟩

theorem size_binary (connective : Connective) (F G : SourceFormula) :
    ((binary connective F G).nodes, (binary connective F G).depth) =
      binaryShape connective (F.nodes, F.depth) (G.nodes, G.depth) := size_apply _ _ _

theorem depth_pos (F : SourceFormula) : 0 < F.depth := F.shape.node.depth_pos

theorem nodes_pos (F : SourceFormula) : 0 < F.nodes := F.shape.node.nodeCount_pos

end SourceFormula

/-- What the parser did on a formula, with so many nodes charged. -/
structure FormulaDone (context : FormulaContext) (charge : ℕ) (p : Parser) (F : SourceFormula)
    (rest : List UInt8) (f : ParsedFormula) (q : Parser) : Prop where
  nodes : f.expandedNodes = F.nodes
  depth : f.expandedDepth = F.depth
  nodeCount : f.formula.node.nodeCount = F.nodes
  nodeDepth : f.formula.node.depth = F.depth
  charged : Charged context charge p q
  rest : q.rest = rest
  supply : q.supply ≤ p.supply

theorem result_relationalized {ts : List ParsedTerm} {n : ℕ} (hcalls : HasCalls ts n)
    {atom : List FreeVariable → DefinedFormula} {offset sourceDepth atomDepth : ℕ}
    {context : FormulaContext} {p : Parser} {F : SourceFormula} (hdepth : sourceDepth ≠ 0)
    (hatomDepth : (atom (ts.map ParsedTerm.freeVariable)).node.depth = atomDepth)
    (hatomNodes : (atom (ts.map ParsedTerm.freeVariable)).node.nodeCount = atomDepth)
    (hatomBytes : (atom (ts.map ParsedTerm.freeVariable)).canonicalBytes.length ≤ 2000)
    (hnodes : F.nodes = 7 * n + atomDepth) (hlevels : F.depth = atomDepth + 6 * n) :
    Result (fun r => FormulaDone context (atomDepth - 1) p F p.rest r.1 r.2)
      (Exceeds context p sourceDepth F.depth (atomDepth - 1))
      (relationalizedFormula ts atom offset context sourceDepth atomDepth p) := by
  unfold relationalizedFormula
  refine (result_depth hdepth).bind ?_ ?_
  · intro h
    rw [hcalls.witnesses] at h
    exact .inl (by omega)
  intro _ hlimit
  refine result_charge.bind ?_ ?_
  · intro h
    exact .inr h
  rintro q ⟨hcharged, hrest, hvars⟩
  obtain ⟨hcount, hlevel, hbytes⟩ := (atom (ts.map ParsedTerm.freeVariable)).size_relationalized
    hcalls.constraints hcalls.witnesses hcalls.graphs
  dsimp only at hcount hlevel hbytes ⊢
  rw [hcalls.witnesses] at hlimit
  unfold formulaMaxDepth at hlimit
  have hencode := DefinedFormula.encodeCanonicalWithNodeLimit_eq_ok.mpr
    ⟨⟨by rw [hcount]; unfold formulaMaxNodes; omega,
      by rw [hlevel]; unfold formulaMaxDepth; omega,
      hbytes.trans (by unfold formulaMaxBytes; omega)⟩,
      show _ ≤ formulaMaxNodes by rw [hcount]; unfold formulaMaxNodes; omega, rfl, rfl⟩
  rw [hencode]
  have hsupply : q.supply = p.supply := by rw [Parser.supply, Parser.supply, hrest, hvars]
  refine .ok ⟨?_, ?_, ?_, ?_, hcharged, hrest, hsupply.le⟩
  · dsimp only
    omega
  · dsimp only
    rw [hcalls.witnesses]
    omega
  · dsimp only
    omega
  · dsimp only
    omega

variable {aliases : List UInt8 → Option DefinitionAlias}
  {bindings : List UInt8 → Option ParsedFormula}

theorem ReadsPair.length_lt {text rest : List UInt8} {s t : Term}
    (h : ReadsPair aliases text s t rest) : rest.length < text.length := by
  obtain ⟨middle, behind, hleft, hcomma, hright⟩ := h
  exact (hright.length_lt.trans (length_punctuation hcomma)).trans hleft.length_lt

theorem ReadsNames.length_lt {text rest : List UInt8} {n : ℕ} (h : ReadsNames text n rest) :
    rest.length < text.length := by
  induction h with
  | last hname hclose => exact (length_punctuation hclose).trans (length_name hname)
  | trailing hname _ hcomma hclose =>
    exact ((length_punctuation hclose).trans (length_punctuation hcomma)).trans (length_name hname)
  | cons hname _ hcomma _ _ ih =>
    exact (ih.trans (length_punctuation hcomma)).trans (length_name hname)

theorem ReadsBinders.length_lt {text rest : List UInt8} {n : ℕ} (h : ReadsBinders text n rest) :
    rest.length < text.length := by
  cases h with
  | single _ hname => exact length_name hname
  | list hopen h => exact h.length_lt.trans (length_punctuation hopen)

mutual

theorem ReadsFormula.length_lt {text rest : List UInt8} {F : SourceFormula}
    (h : ReadsFormula aliases bindings text F rest) : rest.length < text.length :=
  match h with
  | .reference hname _ _ _ => length_name hname
  | .call hname hopen hcall hclose => by
    have hless := length_name hname
    have hless' := length_punctuation hopen
    have hle := hcall.length_le
    have hless'' := length_callEnd hclose
    omega

theorem ReadsCall.length_le {word text rest : List UInt8} {F : SourceFormula}
    (h : ReadsCall aliases bindings word text F rest) : rest.length ≤ text.length :=
  match h with
  | .equal _ h => h.length_lt.le
  | .unequal _ h => h.length_lt.le
  | .member _ h => h.length_lt.le
  | .relation _ _ _ h => h.length_le
  | .not _ h => h.length_lt.le
  | .quantified _ hbinders hcomma h => by
    have hless := hbinders.length_lt
    have hless' := length_punctuation hcomma
    have hless'' := h.length_lt
    omega
  | .binary _ hleft hcomma hright => by
    have hless := hleft.length_lt
    have hless' := length_punctuation hcomma
    have hless'' := hright.length_lt
    omega

end

theorem result_termPair (haliases : BoundedArities aliases) {context : FormulaContext}
    {sourceDepth atomDepth : ℕ} {p : Parser} {s t : Term} {rest : List UInt8}
    (hreads : ReadsPair aliases p.rest s t rest) (hsupply : p.supply < 2 ^ 32)
    (hdepth : sourceDepth ≠ 0) :
    Result (fun r => HasCalls [r.1, r.2.1] (Term.callsOf [s, t]) ∧
        Charged context (7 * Term.callsOf [s, t]) p r.2.2 ∧ r.2.2.rest = rest ∧
        r.2.2.supply ≤ p.supply)
      (Exceeds context p sourceDepth (atomDepth + 6 * Term.callsOf [s, t])
        (7 * Term.callsOf [s, t]))
      (termPair aliases (.new context sourceDepth atomDepth) p) := by
  obtain ⟨middle, behind, hleft, hcomma, hright⟩ := hreads
  have hcalls : Term.callsOf [s, t] = s.calls + t.calls := by
    rw [Term.callsOf, callsOf_singleton]
  unfold termPair
  refine ((result_term haliases _).1 _ p s middle hleft (Nat.lt_succ_self _) hsupply
    hdepth).bind ?_ ?_
  · intro h
    refine Exceeds.mono h ?_ (by omega)
    simp only [TermBudget.new]
    omega
  rintro ⟨left, budget₁, p₁⟩ hdone
  have hrest₁ := hdone.rest
  have hsupply₁ := hdone.supply
  have hcharged₁ := hdone.charged
  have hbudget := hdone.functions
  have hless := length_punctuation hcomma
  dsimp only at hrest₁ hsupply₁ hcharged₁ hbudget ⊢
  rw [comma_eq (show punctuation 0x2c p₁.rest = some behind by rw [hrest₁]; exact hcomma), ok_bind]
  dsimp only
  have hskip : Charged context 0 p₁ { p₁ with rest := behind } := .moved
  have hlen₁ : p₁.rest.length = middle.length := by rw [hrest₁]
  simp only [Parser.supply] at hsupply hsupply₁
  have hcontext : budget₁.context = context := by
    rw [hbudget]
    rfl
  refine ((result_term haliases _).1 budget₁ { p₁ with rest := behind } t rest hright
    (Nat.lt_succ_self _) (by simp only [Parser.supply]; omega) ?_).bind ?_ ?_
  · rw [hbudget]
    exact hdepth
  · intro h
    unfold TermExceeds at h
    rw [hcontext] at h
    refine ((h.of_charged hskip).of_charged hcharged₁).mono ?_ (by omega)
    rw [hbudget]
    simp only [TermBudget.new]
    omega
  rintro ⟨right, budget₂, p₂⟩ hdone'
  have hcharged₂ := hdone'.charged
  have hsupply₂ := hdone'.supply
  dsimp only at hcharged₂ hsupply₂
  rw [hcontext] at hcharged₂
  refine .ok ⟨?_, ?_, hdone'.rest, ?_⟩
  · rw [hcalls]
    exact hdone.calls.append hdone'.calls
  · have hall := (hcharged₁.trans hskip).trans hcharged₂
    have hsum : 7 * s.calls + 0 + 7 * t.calls = 7 * Term.callsOf [s, t] := by omega
    rwa [hsum] at hall
  · simp only [Parser.supply] at hsupply₂ ⊢
    omega

/-- An atom behind its terms. -/
theorem FormulaDone.of_terms {context : FormulaContext} {m n : ℕ} {p q r : Parser}
    {F : SourceFormula} {rest : List UInt8} {f : ParsedFormula} (hcharged : Charged context m p q)
    (hrest : q.rest = rest) (hsupply : q.supply ≤ p.supply)
    (h : FormulaDone context n q F q.rest f r) : FormulaDone context (m + n) p F rest f r where
  nodes := h.nodes
  depth := h.depth
  nodeCount := h.nodeCount
  nodeDepth := h.nodeDepth
  charged := hcharged.trans h.charged
  rest := h.rest.trans hrest
  supply := h.supply.trans hsupply

theorem result_pairAtom (haliases : BoundedArities aliases) {context : FormulaContext}
    {offset depth atomDepth : ℕ} {p : Parser} {s t : Term} {rest : List UInt8} {F : SourceFormula}
    {atom : List FreeVariable → DefinedFormula} (hreads : ReadsPair aliases p.rest s t rest)
    (hsupply : p.supply < 2 ^ 32) (hdepth : depth ≠ 0) (hpos : 0 < atomDepth)
    (hatom : ∀ l r, (atom [l, r]).node.depth = atomDepth ∧
      (atom [l, r]).node.nodeCount = atomDepth ∧ (atom [l, r]).canonicalBytes.length ≤ 2000)
    (hnodes : F.nodes = 7 * Term.callsOf [s, t] + atomDepth)
    (hlevels : F.depth = atomDepth + 6 * Term.callsOf [s, t]) :
    Result (fun r => FormulaDone context (F.nodes - 1) p F rest r.1 r.2)
      (Exceeds context p depth F.depth (F.nodes - 1))
      (do
        let (left, right, p) ← termPair aliases (.new context depth atomDepth) p
        relationalizedFormula [left, right] atom offset context depth atomDepth p) := by
  refine (result_termPair haliases hreads hsupply hdepth).bind ?_ ?_
  · intro h
    exact h.mono (by omega) (by omega)
  rintro ⟨left, right, p₁⟩ ⟨hcalls, hcharged, hrest, hsupply₁⟩
  obtain ⟨hatomDepth, hatomNodes, hatomBytes⟩ := hatom left.freeVariable right.freeVariable
  have hsum : 7 * Term.callsOf [s, t] + (atomDepth - 1) = F.nodes - 1 := by omega
  refine (result_relationalized hcalls hdepth hatomDepth hatomNodes hatomBytes hnodes
    hlevels).mono ?_ ?_
  · intro r hr
    rw [← hsum]
    exact .of_terms hcharged hrest hsupply₁ hr
  · intro h
    rw [← hsum]
    exact h.of_charged hcharged

theorem result_relation (haliases : BoundedArities aliases) {context : FormulaContext}
    {offset depth arity : ℕ} {word : List UInt8} {p : Parser} {id : DefinitionId}
    {arguments : List Term} {rest : List UInt8} (halias : aliases word = some ⟨id, .relation arity⟩)
    (harity : arguments.length = arity) (hreads : ReadsArguments aliases p.rest arguments rest)
    (hsupply : p.supply < 2 ^ 32) (hdepth : depth ≠ 0) :
    Result (fun r => FormulaDone context ((SourceFormula.relation id arguments).nodes - 1) p
        (.relation id arguments) rest r.1 r.2)
      (Exceeds context p depth (SourceFormula.relation id arguments).depth
        ((SourceFormula.relation id arguments).nodes - 1))
      (parseDefinedRelation aliases offset word context depth p) := by
  obtain ⟨hcount, hlevel⟩ := size_relationalize (Term.callsOf arguments)
    (.definedRelation id [])
  have hnodes : (SourceFormula.relation id arguments).nodes =
      7 * Term.callsOf arguments + 1 := hcount
  have hlevels : (SourceFormula.relation id arguments).depth =
      1 + 6 * Term.callsOf arguments := hlevel
  have hbound := haliases word _ halias
  simp only [parseDefinedRelation, halias, orError, ok_bind]
  refine ((result_term haliases _).2 offset word arity [] (.new context depth 1) p _ _ hreads
    (by simpa using harity) (Nat.lt_succ_self _) hsupply hdepth).bind ?_ ?_
  · intro h
    refine Exceeds.mono h ?_ (by omega)
    simp only [TermBudget.new]
    omega
  rintro ⟨ts, budget₁, p₁⟩ ⟨behind, hts, hlength, hdone⟩
  dsimp only at hts hdone ⊢
  rw [List.nil_append] at hts
  subst hts
  have hcheck : ensureDefinitionArity offset word arity ts.length = .ok () := by
    unfold ensureDefinitionArity require
    rw [if_pos (by rw [hlength, harity])]
  rw [hcheck, ok_bind]
  have hsum : 7 * Term.callsOf arguments + (1 - 1) =
      (SourceFormula.relation id arguments).nodes - 1 := by omega
  have hbytes : (DefinedFormula.definedRelation id
      (ts.map ParsedTerm.freeVariable)).canonicalBytes.length ≤ 2000 := by
    rw [DefinedFormula.length_definedRelation, List.length_map, hlength, harity]
    have hgraph : arity ≤ definitionMaxGraphArity := hbound
    unfold definitionMaxGraphArity at hgraph
    omega
  refine (result_relationalized hdone.calls hdepth rfl rfl hbytes hnodes hlevels).mono ?_ ?_
  · intro r hr
    rw [← hsum]
    exact .of_terms hdone.charged hdone.rest hdone.supply hr
  · intro h
    rw [← hsum]
    exact h.of_charged hdone.charged

theorem result_bindersFrom (context : FormulaContext) {offset remaining n : ℕ}
    {result : List FreeVariable} {p : Parser} {rest : List UInt8}
    (hreads : ReadsNames p.rest n rest) (hsupply : p.supply < 2 ^ 32) :
    Result (fun r => r.1.length = result.length + n ∧ Charged context 0 p r.2 ∧ r.2.rest = rest ∧
        r.2.supply ≤ p.supply ∧ rest.length < p.rest.length)
      (remaining < n) (Parser.bindersFrom true offset remaining result p) := by
  induction remaining generalizing n result p with
  | zero =>
    refine .limit .depth ?_
    cases hreads <;> omega
  | succ remaining ih =>
    simp only [Parser.supply] at hsupply
    have hstep : ∀ {word behind : List UInt8}, name p.rest = some (word, behind) →
        ∃ x w, p.vars.named word = some (x, w) ∧ w.next ≤ p.vars.next + 1 ∧
          behind.length < p.rest.length := by
      intro word behind hname
      have hless := length_name hname
      obtain ⟨x, w, hnamed, hnext⟩ := exists_named word (v := p.vars) (by omega)
      exact ⟨x, w, hnamed, hnext, hless⟩
    cases hreads with
    | last hname hclose =>
      obtain ⟨x, w, hnamed, hnext, hless⟩ := hstep hname
      have hless' := length_punctuation hclose
      simp only [Parser.bindersFrom, readName_eq hname, ok_bind, hnamed, orError,
        Bool.true_eq_false, if_false, hclose]
      refine .ok ⟨by simp, .moved, rfl, ?_, by omega⟩
      simp only [Parser.supply]
      omega
    | trailing hname hopen hcomma hclose =>
      obtain ⟨x, w, hnamed, hnext, hless⟩ := hstep hname
      have hless' := length_punctuation hcomma
      have hless'' := length_punctuation hclose
      simp only [Parser.bindersFrom, readName_eq hname, ok_bind, hnamed, orError,
        Bool.true_eq_false, if_false, hopen,
        comma_eq (p := { p with rest := _, vars := w }) hcomma, hclose]
      refine .ok ⟨by simp, .moved, rfl, ?_, by omega⟩
      simp only [Parser.supply]
      omega
    | cons hname hopen hcomma hopen' hrest =>
      obtain ⟨x, w, hnamed, hnext, hless⟩ := hstep hname
      have hless' := length_punctuation hcomma
      simp only [Parser.bindersFrom, readName_eq hname, ok_bind, hnamed, orError,
        Bool.true_eq_false, if_false, hopen,
        comma_eq (p := { p with rest := _, vars := w }) hcomma, hopen']
      refine (ih hrest (by simp only [Parser.supply]; omega)).mono ?_ (by omega)
      rintro r ⟨hlength, hcharged, hbehind, hsupply', hlt⟩
      dsimp only at hlt
      refine ⟨?_, ?_, hbehind, ?_, by omega⟩
      · rw [hlength, List.length_append, List.length_singleton]
        omega
      · exact hcharged.after_moved
      · simp only [Parser.supply] at hsupply' ⊢
        omega

theorem result_binders (context : FormulaContext) {offset n : ℕ} {p : Parser} {rest : List UInt8}
    (hreads : ReadsBinders p.rest n rest) (hsupply : p.supply < 2 ^ 32) :
    Result (fun r => r.1.length = n ∧ Charged context 0 p r.2 ∧ r.2.rest = rest ∧
        r.2.supply ≤ p.supply ∧ rest.length < p.rest.length)
      (formulaMaxDepth < n) (p.binders offset) := by
  simp only [Parser.supply] at hsupply
  unfold Parser.binders
  cases hreads with
  | @single word _ hopen hname =>
    have hless := length_name hname
    obtain ⟨x, w, hnamed, hnext⟩ := exists_named word (v := p.vars) (by omega)
    have hone : Parser.bindersFrom false offset formulaMaxDepth [] p =
        .ok ([x], { p with rest := rest, vars := w }) := by
      rw [formulaMaxDepth, Parser.bindersFrom, readName_eq hname, ok_bind]
      simp only [hnamed, orError, ok_bind, if_true]
      rfl
    rw [hopen]
    dsimp only
    rw [hone]
    refine .ok ⟨rfl, .moved, rfl, ?_, hless⟩
    simp only [Parser.supply]
    omega
  | list hopen h =>
    have hless := length_punctuation hopen
    rw [hopen]
    dsimp only
    refine (result_bindersFrom context (p := { p with rest := _ }) h
      (by simp only [Parser.supply]; omega)).mono ?_ id
    rintro r ⟨hlength, hcharged, hbehind, hsupply', hlt⟩
    dsimp only at hlt
    refine ⟨by simpa using hlength, ?_, hbehind, ?_, by omega⟩
    · exact hcharged.after_moved
    · simp only [Parser.supply] at hsupply' ⊢
      omega

theorem ReadsNames.pos {text rest : List UInt8} {n : ℕ} (h : ReadsNames text n rest) : 0 < n := by
  cases h <;> omega

theorem ReadsBinders.pos {text rest : List UInt8} {n : ℕ} (h : ReadsBinders text n rest) :
    0 < n := by
  cases h with
  | single => exact Nat.one_pos
  | list _ h => exact h.pos

theorem quantifierLevels_pos (existential : Bool) : 0 < quantifierLevels existential := by
  cases existential <;> decide

theorem result_negated {context : FormulaContext} {offset depth charge : ℕ} {p q : Parser}
    {G : SourceFormula} {rest : List UInt8} {body : ParsedFormula} (hdepth : depth ≠ 0)
    (h : FormulaDone context charge p G rest body q) :
    Result (fun f => FormulaDone context charge p (.not G) rest f q)
      (formulaMaxDepth < depth - 1 + (G.depth + 1)) (negated body offset depth) := by
  unfold negated
  refine (result_depth hdepth).bind ?_ ?_
  · intro hlt
    rwa [h.depth] at hlt
  intro _ _
  have hnodes : (SourceFormula.not G).nodes = G.nodes + 1 := rfl
  have hlevels : (SourceFormula.not G).depth = G.depth + 1 := rfl
  refine .ok ⟨?_, ?_, ?_, ?_, h.charged, h.rest, h.supply⟩
  · rw [hnodes, h.nodes, Nat.add_comm]
  · rw [hlevels, h.depth]
  · rw [hnodes, ← h.nodeCount]
    rfl
  · rw [hlevels, ← h.nodeDepth]
    rfl

theorem result_quantified {context : FormulaContext} {offset depth charge : ℕ} {p q : Parser}
    {G : SourceFormula} {rest : List UInt8} {body : ParsedFormula} {existential : Bool}
    {xs : List FreeVariable} (hdepth : depth ≠ 0) (h : FormulaDone context charge p G rest body q) :
    Result (fun f => FormulaDone context charge p (.quantified existential xs.length G) rest f q)
      (formulaMaxDepth < depth - 1 + (G.depth + xs.length * quantifierLevels existential))
      (quantified existential xs body offset depth) := by
  unfold quantified
  refine (result_depth hdepth).bind ?_ ?_
  · intro hlt
    rwa [h.depth] at hlt
  intro _ _
  obtain ⟨hnodes, hlevels⟩ := SourceFormula.size_quantified existential xs.length G
  obtain ⟨hcount, hheight⟩ := size_foldr_quantify existential xs body.formula
  refine .ok ⟨?_, ?_, ?_, ?_, h.charged, h.rest, h.supply⟩
  · rw [hnodes, h.nodes, Nat.add_comm]
  · rw [hlevels, h.depth]
  · rw [hnodes, hcount, h.nodeCount]
  · rw [hlevels, hheight, h.nodeDepth]

/-- The charges of a connective, its call and its operands add up. -/
theorem additionalNodes_eq {left right : ParsedFormula} (connective : Connective)
    {F G : SourceFormula} (hleft : left.expandedNodes = F.nodes)
    (hright : right.expandedNodes = G.nodes) :
    F.nodes + G.nodes + additionalNodes left right connective + 1 =
      (SourceFormula.binary connective F G).nodes := by
  have hsize := congrArg Prod.fst (SourceFormula.size_binary connective F G)
  dsimp only at hsize
  rw [hsize]
  cases connective with
  | implies | and | or => simp only [additionalNodes, binaryShape]
  | iff =>
    simp only [additionalNodes, binaryShape, hleft, hright]
    omega

theorem lt_depth_binary (connective : Connective) (F G : SourceFormula) :
    F.depth < (SourceFormula.binary connective F G).depth ∧
      G.depth < (SourceFormula.binary connective F G).depth := by
  have hsize := congrArg Prod.snd (SourceFormula.size_binary connective F G)
  dsimp only at hsize
  rw [hsize]
  cases connective <;> simp only [binaryShape] <;> omega

theorem result_binary {context : FormulaContext} {offset depth m n : ℕ} {p q r : Parser}
    {F G : SourceFormula} {rest rest' : List UInt8} {left right : ParsedFormula}
    {connective : Connective} (hdepth : depth ≠ 0) (hleft : FormulaDone context m p F rest left q)
    (hright : FormulaDone context n q G rest' right r) :
    Result (fun s => FormulaDone context (m + n + additionalNodes left right connective) p
        (.binary connective F G) rest' s.1 s.2)
      (Exceeds context p depth (SourceFormula.binary connective F G).depth
        (m + n + additionalNodes left right connective))
      (binary connective left right offset depth context r) := by
  have hsize := SourceFormula.size_binary connective F G
  have hshape : binaryShape connective (left.expandedNodes, left.expandedDepth)
      (right.expandedNodes, right.expandedDepth) =
      ((SourceFormula.binary connective F G).nodes,
        (SourceFormula.binary connective F G).depth) := by
    rw [hleft.nodes, hleft.depth, hright.nodes, hright.depth, hsize]
  have happly := size_apply connective left.formula right.formula
  rw [hleft.nodeCount, hleft.nodeDepth, hright.nodeCount, hright.nodeDepth, ← hsize] at happly
  have hcharged := hleft.charged.trans hright.charged
  unfold binary
  rw [hshape]
  dsimp only
  refine result_charge.bind ?_ ?_
  · intro h
    right
    rw [hcharged.counter] at h
    omega
  rintro r' ⟨hcharged', hrest, hvars⟩
  refine (result_depth hdepth).bind ?_ ?_
  · intro h
    exact .inl h
  intro _ _
  have hsupply : r'.supply = r.supply := by rw [Parser.supply, Parser.supply, hrest, hvars]
  refine .ok ⟨rfl, rfl, ?_, ?_, hcharged.trans hcharged', hrest.trans hright.rest, ?_⟩
  · exact congrArg Prod.fst happly
  · exact congrArg Prod.snd happly
  · rw [hsupply]
    exact hright.supply.trans hleft.supply

/-- The parser of formulas on what is left of a source. -/
def ParsesFormula (aliases : List UInt8 → Option DefinitionAlias)
    (bindings : List UInt8 → Option ParsedFormula) (context : FormulaContext) (p : Parser)
    (parse : ℕ → Parser → ParserM (ParsedFormula × Parser)) : Prop :=
  ∀ d (q : Parser) G rest, ReadsFormula aliases bindings q.rest G rest →
    q.rest.length ≤ p.rest.length → q.supply < 2 ^ 32 → d ≠ 0 →
    Result (fun r => FormulaDone context G.nodes q G rest r.1 r.2)
      (Exceeds context q d G.depth G.nodes) (parse d q)

section

variable {context : FormulaContext} {offset depth : ℕ} {word : List UInt8} {p : Parser}
  {rest : List UInt8} {parse : ℕ → Parser → ParserM (ParsedFormula × Parser)}
  (hparse : ParsesFormula aliases bindings context p parse)

include hparse

theorem result_negation {G : SourceFormula} (hword : Operator.parse word = some .not)
    (h : ReadsFormula aliases bindings p.rest G rest) (hsupply : p.supply < 2 ^ 32)
    (hdepth : depth ≠ 0) :
    Result (fun r => FormulaDone context ((SourceFormula.not G).nodes - 1) p (.not G) rest r.1 r.2)
      (Exceeds context p depth (SourceFormula.not G).depth ((SourceFormula.not G).nodes - 1))
      (callBody aliases parse word offset depth context p) := by
  unfold callBody
  have hnodes : (SourceFormula.not G).nodes = G.nodes + 1 := rfl
  have hlevels : (SourceFormula.not G).depth = G.depth + 1 := rfl
  rw [hword, hnodes, hlevels, Nat.add_sub_cancel]
  refine (hparse (depth + 1) p G rest h le_rfl hsupply (Nat.succ_ne_zero _)).bind ?_ ?_
  · intro hexceeds
    exact hexceeds.mono (by omega) le_rfl
  rintro ⟨body, q⟩ hdone
  refine (result_negated hdepth hdone).bind ?_ ?_
  · intro hlt
    exact .inl hlt
  intro f hf
  exact .ok hf

/-- The binders are charged before the body is read. -/
theorem result_quantification {existential : Bool} {count : ℕ} {G : SourceFormula}
    {middle behind : List UInt8} (hword : Operator.parse word = some (.quantifier existential))
    (hbinders : ReadsBinders p.rest count middle) (hcomma : punctuation 0x2c middle = some behind)
    (h : ReadsFormula aliases bindings behind G rest) (hsupply : p.supply < 2 ^ 32)
    (hdepth : depth ≠ 0) :
    Result (fun r => FormulaDone context ((SourceFormula.quantified existential count G).nodes - 1) p
        (.quantified existential count G) rest r.1 r.2)
      (Exceeds context p depth (SourceFormula.quantified existential count G).depth
        ((SourceFormula.quantified existential count G).nodes - 1))
      (callBody aliases parse word offset depth context p) := by
  unfold callBody
  obtain ⟨hnodes, hlevels⟩ := SourceFormula.size_quantified existential count G
  have hpos := hbinders.pos
  have hlevelsPos := quantifierLevels_pos existential
  have hcount : count ≤ count * quantifierLevels existential :=
    Nat.le_mul_of_pos_right _ hlevelsPos
  have hGpos := G.depth_pos
  have hGnodes := G.nodes_pos
  have hless := length_punctuation hcomma
  rw [hword, hnodes, hlevels]
  dsimp only
  refine (result_binders context hbinders hsupply).bind ?_ ?_
  · intro hlt
    exact .inl (by omega)
  rintro ⟨xs, p₁⟩ ⟨hlength, hcharged₁, hrest₁, hsupply₁, hless₁⟩
  dsimp only at hlength hcharged₁ hrest₁ hsupply₁ ⊢
  rw [comma_eq (show punctuation 0x2c p₁.rest = some behind by rw [hrest₁]; exact hcomma),
    ok_bind, hlength]
  dsimp only
  refine (result_depth hdepth).bind ?_ ?_
  · intro hlt
    exact .inl (by omega)
  intro _ _
  have hskip : Charged context 0 p₁ { p₁ with rest := behind } := .moved
  have hlen₁ : p₁.rest.length = middle.length := by rw [hrest₁]
  simp only [Parser.supply] at hsupply hsupply₁
  refine result_charge.bind ?_ ?_
  · intro hlt
    right
    rw [(hcharged₁.trans hskip).counter] at hlt
    omega
  rintro p₂ ⟨hcharged₂, hrest₂, hvars₂⟩
  have hall := (hcharged₁.trans hskip).trans hcharged₂
  have hlen₂ : p₂.rest.length = behind.length := by rw [hrest₂]
  have hnext₂ : p₂.vars.next = p₁.vars.next := by rw [hvars₂]
  have hreads₂ : ReadsFormula aliases bindings p₂.rest G rest := by
    rw [hrest₂]
    exact h
  refine (hparse _ p₂ G rest hreads₂ (by omega) (by simp only [Parser.supply]; omega)
    (by omega)).bind ?_ ?_
  · intro hexceeds
    exact (hexceeds.of_charged hall).mono (by omega) (by omega)
  rintro ⟨body, q⟩ hdone
  have hsum : 0 + 0 + (count * quantifierLevels existential - 1) + G.nodes =
      G.nodes + count * quantifierLevels existential - 1 := by omega
  have hwhole : FormulaDone context (G.nodes + count * quantifierLevels existential - 1) p G rest
      body q := by
    rw [← hsum]
    have hsupply₂ : p₂.supply ≤ p.supply := by
      simp only [Parser.supply]
      omega
    exact ⟨hdone.nodes, hdone.depth, hdone.nodeCount, hdone.nodeDepth, hall.trans hdone.charged,
      hdone.rest, hdone.supply.trans hsupply₂⟩
  rw [← hlength] at hwhole ⊢
  refine (result_quantified hdepth hwhole).bind ?_ ?_
  · intro hlt
    exact .inl hlt
  intro f hf
  exact .ok hf

/-- What a connective adds is charged when both sides are known. -/
theorem result_connection {connective : Connective} {F₁ F₂ : SourceFormula}
    {middle behind : List UInt8} (hword : Operator.parse word = some (.binary connective))
    (hleft : ReadsFormula aliases bindings p.rest F₁ middle)
    (hcomma : punctuation 0x2c middle = some behind)
    (hright : ReadsFormula aliases bindings behind F₂ rest) (hsupply : p.supply < 2 ^ 32)
    (hdepth : depth ≠ 0) :
    Result (fun r => FormulaDone context ((SourceFormula.binary connective F₁ F₂).nodes - 1) p
        (.binary connective F₁ F₂) rest r.1 r.2)
      (Exceeds context p depth (SourceFormula.binary connective F₁ F₂).depth
        ((SourceFormula.binary connective F₁ F₂).nodes - 1))
      (callBody aliases parse word offset depth context p) := by
  unfold callBody
  obtain ⟨hlt₁, hlt₂⟩ := lt_depth_binary connective F₁ F₂
  have hadd := fun l r => @additionalNodes_eq l r connective F₁ F₂
  have hless := length_punctuation hcomma
  have hless₁ := hleft.length_lt
  rw [hword]
  dsimp only
  have hnodes : F₁.nodes + F₂.nodes + 1 ≤ (SourceFormula.binary connective F₁ F₂).nodes := by
    have hsum := hadd ⟨F₁.shape, F₁.nodes, 0⟩ ⟨F₂.shape, F₂.nodes, 0⟩ rfl rfl
    omega
  refine (hparse (depth + 1) p F₁ middle hleft le_rfl hsupply (Nat.succ_ne_zero _)).bind ?_ ?_
  · intro hexceeds
    exact hexceeds.mono (by omega) (by omega)
  rintro ⟨left, p₁⟩ hdone₁
  have hrest₁ := hdone₁.rest
  have hsupply₁ := hdone₁.supply
  dsimp only at hrest₁ hsupply₁ hdone₁ ⊢
  rw [comma_eq (show punctuation 0x2c p₁.rest = some behind by rw [hrest₁]; exact hcomma),
    ok_bind]
  dsimp only
  have hskip : Charged context 0 p₁ { p₁ with rest := behind } := .moved
  have hlen₁ : p₁.rest.length = middle.length := by rw [hrest₁]
  have hsupply' : p.vars.next + p.rest.length < 2 ^ 32 := hsupply
  simp only [Parser.supply] at hsupply₁
  refine (hparse (depth + 1) { p₁ with rest := behind } F₂ rest hright (by dsimp only; omega)
    (by simp only [Parser.supply]; omega) (Nat.succ_ne_zero _)).bind ?_ ?_
  · intro hexceeds
    exact ((hexceeds.of_charged hskip).of_charged hdone₁.charged).mono (by omega) (by omega)
  rintro ⟨right, p₂⟩ hdone₂
  dsimp only at hdone₂ ⊢
  have hdone₂' : FormulaDone context F₂.nodes p₁ F₂ rest right p₂ := by
    refine ⟨hdone₂.nodes, hdone₂.depth, hdone₂.nodeCount, hdone₂.nodeDepth,
      hdone₂.charged.after_moved, hdone₂.rest, hdone₂.supply.trans ?_⟩
    simp only [Parser.supply]
    omega
  have hsum := hadd left right hdone₁.nodes hdone₂.nodes
  have hcharge : F₁.nodes + F₂.nodes + additionalNodes left right connective =
      (SourceFormula.binary connective F₁ F₂).nodes - 1 := by omega
  rw [← hcharge]
  exact result_binary hdepth hdone₁ hdone₂'

end

/-- The inside of a call, when formulas in it are read as they should. -/
theorem result_callBody (haliases : BoundedArities aliases) {context : FormulaContext}
    {offset depth : ℕ} {word : List UInt8} {p : Parser} {F : SourceFormula} {rest : List UInt8}
    {parse : ℕ → Parser → ParserM (ParsedFormula × Parser)}
    (hparse : ParsesFormula aliases bindings context p parse)
    (hreads : ReadsCall aliases bindings word p.rest F rest) (hsupply : p.supply < 2 ^ 32)
    (hdepth : depth ≠ 0) :
    Result (fun r => FormulaDone context (F.nodes - 1) p F rest r.1 r.2)
      (Exceeds context p depth F.depth (F.nodes - 1))
      (callBody aliases parse word offset depth context p) := by
  cases hreads with
  | @equal _ _ _ s t hword h =>
    obtain ⟨hcount, hlevel⟩ := size_relationalize (Term.callsOf [s, t]) (.equal ⟨0⟩ ⟨0⟩)
    rw [callBody, hword]
    refine result_pairAtom haliases h hsupply hdepth Nat.one_pos ?_ hcount hlevel
    intro l r
    refine ⟨rfl, rfl, ?_⟩
    simp [DefinedFormula.equal, DefinedFormula.canonicalBytes, nodeBytes]
  | @unequal _ _ _ s t hword h =>
    obtain ⟨hcount, hlevel⟩ := size_relationalize (Term.callsOf [s, t])
      (DefinedFormula.equal ⟨0⟩ ⟨0⟩).negate
    rw [callBody, hword]
    refine result_pairAtom haliases h hsupply hdepth Nat.two_pos ?_ hcount hlevel
    intro l r
    refine ⟨rfl, rfl, ?_⟩
    simp [DefinedFormula.equal, DefinedFormula.negate, DefinedFormula.canonicalBytes, nodeBytes]
  | @member _ _ _ s t hword h =>
    obtain ⟨hcount, hlevel⟩ := size_relationalize (Term.callsOf [s, t]) (.member ⟨0⟩ ⟨0⟩)
    rw [callBody, hword]
    refine result_pairAtom haliases h hsupply hdepth Nat.one_pos ?_ hcount hlevel
    intro l r
    refine ⟨rfl, rfl, ?_⟩
    simp [DefinedFormula.member, DefinedFormula.canonicalBytes, nodeBytes]
  | relation hword halias harity h =>
    rw [callBody, hword]
    exact result_relation haliases halias harity h hsupply hdepth
  | not hword h => exact result_negation hparse hword h hsupply hdepth
  | quantified hword hbinders hcomma h =>
    exact result_quantification hparse hword hbinders hcomma h hsupply hdepth
  | binary hword hleft hcomma hright =>
    exact result_connection hparse hword hleft hcomma hright hsupply hdepth

/-- Bindings record the nodes and the depth of their formulas. -/
def Recorded (bindings : List UInt8 → Option ParsedFormula) : Prop :=
  ∀ word b, bindings word = some b →
    b.expandedNodes = b.formula.node.nodeCount ∧ b.expandedDepth = b.formula.node.depth

theorem result_formula (haliases : BoundedArities aliases) (hbindings : Recorded bindings)
    (context : FormulaContext) (fuel : ℕ) :
    ∀ depth (p : Parser) F rest, ReadsFormula aliases bindings p.rest F rest →
      p.rest.length < fuel → p.supply < 2 ^ 32 → depth ≠ 0 →
      Result (fun r => FormulaDone context F.nodes p F rest r.1 r.2)
        (Exceeds context p depth F.depth F.nodes)
        (parseFormula aliases bindings fuel context depth p) := by
  induction fuel with
  | zero =>
    intro depth p F rest _ hlt
    exact absurd hlt (Nat.not_lt_zero _)
  | succ fuel ih =>
    intro depth p F rest hreads hlt hsupply hdepth
    cases hreads with
    | @reference _ word _ b hname hopen hreserved hbinding =>
      obtain ⟨hnodes, hlevels⟩ := hbindings word b hbinding
      have hF : (SourceFormula.reference b).nodes = b.expandedNodes := hnodes.symm
      have hF' : (SourceFormula.reference b).depth = b.expandedDepth := hlevels.symm
      have hless := length_name hname
      simp only [parseFormula, readName_eq hname, ok_bind, hopen, hreserved, and_self, if_true,
        bindingReference, hbinding, orError]
      rw [hF, hF']
      have hskip : Charged context 0 p { p with rest := rest } := .moved
      refine result_charge.bind ?_ ?_
      · intro h
        right
        rwa [hskip.counter, Nat.add_zero] at h
      rintro q ⟨hcharged, hrest, hvars⟩
      refine (result_depth hdepth).bind ?_ ?_
      · intro h
        exact .inl h
      intro _ _
      refine .ok ⟨hF.symm, hF'.symm, rfl, rfl, hcharged.after_moved, hrest, ?_⟩
      simp only [Parser.supply, hrest, hvars]
      omega
    | @call _ word rest₁ opened closing _ F hname hopen hcall hclose =>
      have hless := length_name hname
      have hless' := length_punctuation hopen
      have hpos := F.depth_pos
      have hpos' := F.nodes_pos
      have hnot : ¬ (punctuation 0x28 rest₁ = none ∧ isReservedBindingName word = false) := by
        rw [hopen]
        simp
      have hless'' := length_callEnd hclose
      simp only [Parser.supply] at hsupply
      simp only [parseFormula, readName_eq hname, ok_bind, if_neg hnot]
      have hskip : Charged context 0 p { p with rest := rest₁ } := .moved
      refine result_charge.bind ?_ ?_
      · intro h
        right
        rw [hskip.counter] at h
        omega
      rintro p₂ ⟨hcharged₂, hrest₂, hvars₂⟩
      have hcharged := hcharged₂.after_moved
      have hlimit : Result (fun _ => depth ≤ formulaMaxDepth) (formulaMaxDepth < depth)
          (require (depth ≤ formulaMaxDepth)
            (Halt.error (.formulaDepthLimitExceeded p.nextOffset formulaMaxDepth))) := by
        unfold require
        split_ifs with h
        · exact .ok h
        · exact .limit .depth (Nat.lt_of_not_le h)
      refine hlimit.bind ?_ ?_
      · intro h
        exact .inl (by omega)
      intro _ _
      rw [openCall_eq (show punctuation 0x28 p₂.rest = some opened by rw [hrest₂]; exact hopen),
        ok_bind]
      dsimp only
      have hall : Charged context 1 p { p₂ with rest := opened } := hcharged.and_moved
      have hnext₂ : p₂.vars.next = p.vars.next := by rw [hvars₂]
      have hparse : ParsesFormula aliases bindings context { p₂ with rest := opened }
          (parseFormula aliases bindings fuel context) := by
        intro d q G rest' hreads' hle hsupply' hd
        exact ih d q G rest' hreads' (by dsimp only at hle; omega) hsupply' hd
      refine (result_callBody haliases hparse hcall (by simp only [Parser.supply]; omega)
        hdepth).bind ?_ ?_
      · intro h
        exact (h.of_charged hall).mono le_rfl (by omega)
      rintro ⟨f, q⟩ hdone
      have hrest := hdone.rest
      have hsupply' := hdone.supply
      have hwhole := hall.trans hdone.charged
      have hsum : 1 + (F.nodes - 1) = F.nodes := by omega
      rw [hsum] at hwhole
      dsimp only at hrest hsupply' hwhole ⊢
      rw [closeCall_eq (show callEnd q.rest = some rest by rw [hrest]; exact hclose), ok_bind]
      refine .ok ⟨hdone.nodes, hdone.depth, hdone.nodeCount, hdone.nodeDepth, ?_, rfl, ?_⟩
      · exact hwhole.and_moved
      · have hlen : q.rest.length = closing.length := by rw [hrest]
        simp only [Parser.supply] at hsupply' ⊢
        omega

end Authoring
end Naome
