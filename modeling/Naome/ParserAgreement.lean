import Naome.QuestionAccounts
import Naome.SourceStatement

/-!
# The parsers of questions and of proofs agree

A formula that the parser of questions accepts is read by the parser of proofs, in any of its
contexts, to the same text behind it, with the same variables, to the same formula without
definitions. So a question and the statement of a proof with the same text are the same formula.
-/
namespace Naome
open LocallyNameless Outcome

namespace Formula

/-- A formula in the language with definitions. -/
def embedded (f : Formula) : DefinedFormula :=
  ⟨f.node.embed, (Node.scoped_embed 0 f.node).mpr f.wellScoped⟩

theorem embedded_forAll (x : FreeVariable) (f : Formula) :
    (forAll x f).embedded = .forAll x f.embedded :=
  DefinedFormula.ext (congrArg Node.forAll (Node.bindFree_embed _ _ _).symm)

theorem embedded_bindVariable (existential : Bool) (x : FreeVariable) (f : Formula) :
    (CompiledQuestion.bindVariable existential x f).embedded =
      Authoring.quantify existential x f.embedded := by
  cases existential with
  | false => exact embedded_forAll x f
  | true => exact congrArg DefinedFormula.negate (embedded_forAll x f.negate)

theorem embedded_foldr_bindVariable (existential : Bool) (xs : List FreeVariable) (f : Formula) :
    (xs.foldr (CompiledQuestion.bindVariable existential) f).embedded =
      xs.foldr (Authoring.quantify existential) f.embedded := by
  induction xs with
  | nil => rfl
  | cons x xs ih => rw [List.foldr_cons, List.foldr_cons, embedded_bindVariable, ih]

theorem embedded_connect (connective : Authoring.Connective) (f g : Formula) :
    (CompiledQuestion.connect connective f g).embedded = connective.apply f.embedded g.embedded := by
  cases connective <;> rfl

end Formula

/-- What the parser of proofs records of the formula. -/
def CompiledQuestion.Parsed.embedded (t : CompiledQuestion.Parsed) : Authoring.ParsedFormula :=
  ⟨t.formula.embedded, t.nodes, t.depth⟩

namespace Authoring
open CompiledQuestion

/-- The parser of proofs in front of what a reader of questions is in front of. -/
def Parser.following (P : Parser) (p : Reader) : Parser := { P with rest := p.rest, vars := p.vars }

/-- The parser with so many nodes charged to a context. -/
def Parser.charged (P : Parser) (n : ℕ) : FormulaContext → Parser
  | .binding => { P with formulaBindingNodes := P.formulaBindingNodes + n }
  | .statement => { P with statementNodes := P.statementNodes + n }
  | .certificate => { P with certificateFormulaNodes := P.certificateFormulaNodes + n }

section

variable {P : Parser} {p q : Reader} {context : FormulaContext} {m n : ℕ}

theorem counter_charged : (P.charged n context).counter context = P.counter context + n := by
  cases context <;> rfl

theorem charged_charged : (P.charged m context).charged n context = P.charged (m + n) context := by
  cases context <;> simp [Parser.charged, Nat.add_assoc]

theorem charge_following {offset : ℕ} (h : P.counter context + n ≤ maximumNodes context) :
    (P.following p).chargeFormulaNodes n offset context =
      .ok ((P.charged n context).following p) := by
  cases context <;> exact bind_eq_ok.mpr ⟨(), require_eq_ok.mpr h, rfl⟩

theorem readName_following {word : List UInt8} (h : p.readName = .ok (word, q)) :
    (P.following p).readName = .ok (word, P.following q) := by
  obtain ⟨rest, hname, rfl⟩ := Reader.readName_eq_ok h
  exact readName_eq hname

theorem expect_following {b : UInt8} {expected : String} (h : p.expect b = .ok q) :
    (P.following p).expect b expected = .ok ((), P.following q) := by
  obtain ⟨rest, hread, rfl⟩ := Reader.expect_eq_ok h
  exact token_eq_ok.2 ⟨rest, by rw [Parser.following, hread]; rfl, rfl⟩

theorem comma_following (h : p.expect 0x2c = .ok q) :
    (P.following p).comma = .ok ((), P.following q) := expect_following h

theorem named_following {word : List UInt8} {x : FreeVariable} {vars : Variables}
    (h : p.vars.named word = some (x, vars)) :
    (P.following p).variableNamed word = .ok (x, P.following { p with vars }) :=
  allocate_eq_ok.2 ⟨vars, h, rfl⟩

theorem bindersFrom_following {list : Bool} {offset remaining : ℕ} {result xs : List FreeVariable}
    (h : Reader.bindersFrom list remaining result p = .ok (xs, q)) :
    Parser.bindersFrom list offset remaining result (P.following p) = .ok (xs, P.following q) := by
  induction remaining generalizing result p with
  | zero => cases h
  | succ remaining ih =>
    simp only [Reader.bindersFrom, bind_eq_ok, Prod.exists] at h
    obtain ⟨x, p₁, hread, h⟩ := h
    obtain ⟨word, rest, vars, hname, hnamed, rfl⟩ := Reader.readVariable_eq_ok hread
    simp only [Parser.bindersFrom, readName_eq (show name (P.following p).rest = _ from hname), ok_bind,
      show (P.following p).vars.named word = _ from hnamed, orError]
    split_ifs at h ⊢ with hlist
    · cases h
      rfl
    · cases hclose : punctuation 0x5d rest with
      | some rest' =>
        rw [hclose] at h
        cases h
        rfl
      | none =>
        rw [hclose] at h
        simp only [bind_eq_ok] at h
        obtain ⟨p₂, hcomma, h⟩ := h
        change (Parser.comma (P.following { p with rest, vars }) >>= _) = _
        rw [comma_following hcomma, ok_bind]
        dsimp only [Parser.following]
        cases hclose' : punctuation 0x5d p₂.rest with
        | some rest' =>
          rw [hclose'] at h
          cases h
          rfl
        | none =>
          rw [hclose'] at h
          exact ih h

theorem binders_following {offset : ℕ} {xs : List FreeVariable} (h : p.binders = .ok (xs, q)) :
    (P.following p).binders offset = .ok (xs, P.following q) := by
  unfold Reader.binders at h
  unfold Parser.binders
  cases hopen : punctuation 0x5b p.rest with
  | some rest =>
    rw [hopen] at h
    rw [show punctuation 0x5b (P.following p).rest = some rest from hopen]
    exact bindersFrom_following h
  | none =>
    rw [hopen] at h
    rw [show punctuation 0x5b (P.following p).rest = none from hopen]
    exact bindersFrom_following h

theorem call_none_of_punctuation {b : UInt8} {text rest : List UInt8} (h : punctuation b text = some rest)
    (hb : b ≠ 0x28) : punctuation 0x28 text = none := by
  unfold punctuation at h ⊢
  cases htext : trivia false text with
  | nil => rfl
  | cons c behind =>
    rw [htext] at h
    dsimp only at h ⊢
    split_ifs at h with hc
    rw [if_neg (hc ▸ hb)]

theorem call_none_of_callEnd {text rest : List UInt8} (h : callEnd text = some rest) :
    punctuation 0x28 text = none := by
  unfold callEnd at h
  cases hcomma : punctuation 0x2c text with
  | some behind => exact call_none_of_punctuation hcomma (by decide)
  | none =>
    rw [hcomma] at h
    exact call_none_of_punctuation h (by decide)

variable {aliases : List UInt8 → Option DefinitionAlias}
  {bindings : List UInt8 → Option ParsedFormula}

/-- A variable is a term without constraints. -/
theorem term_following {fuel : ℕ} {budget : TermBudget} {x : FreeVariable}
    (h : p.readVariable = .ok (x, q)) (hcall : punctuation 0x28 q.rest = none) :
    term aliases (fuel + 1) budget (P.following p) = .ok (⟨x, [], []⟩, budget, P.following q) := by
  obtain ⟨word, rest, vars, hname, hnamed, rfl⟩ := Reader.readVariable_eq_ok h
  rw [term, readName_eq (show name (P.following p).rest = _ from hname), ok_bind]
  dsimp only at hcall ⊢
  rw [hcall]
  dsimp only
  have hvariable : (P.following { p with rest }).variableNamed word =
      .ok (x, P.following { p with rest, vars }) := named_following hnamed
  change (Parser.variableNamed (P.following { p with rest }) word >>= _) = _
  rw [hvariable]
  rfl

theorem termPair_following {budget : TermBudget} {l r : FreeVariable} {p₁ p₂ : Reader}
    (hleft : p.readVariable = .ok (l, p₁)) (hcomma : p₁.expect 0x2c = .ok p₂)
    (hright : p₂.readVariable = .ok (r, q)) (hcall : punctuation 0x28 q.rest = none) :
    termPair aliases budget (P.following p) =
      .ok (⟨l, [], []⟩, ⟨r, [], []⟩, P.following q) := by
  obtain ⟨rest, hread, -⟩ := Reader.expect_eq_ok hcomma
  rw [termPair, term_following hleft (call_none_of_punctuation hread (by decide)), ok_bind]
  dsimp only
  rw [comma_following hcomma, ok_bind]
  dsimp only
  rw [term_following hright hcall]
  rfl

/-- An atom without constraints is charged what its call did not charge. -/
theorem relationalized_following {l r : FreeVariable} {atom : List FreeVariable → DefinedFormula}
    {offset depth levels : ℕ} (hdepth : depth ≠ 0) (hlimit : depth - 1 + levels ≤ formulaMaxDepth)
    (hnodes : (atom [l, r]).node.nodeCount = levels) (hlevels : (atom [l, r]).node.depth = levels)
    (hbytes : (atom [l, r]).canonicalBytes.length ≤ 2000)
    (hcharge : P.counter context + (levels - 1) ≤ maximumNodes context) :
    relationalizedFormula [⟨l, [], []⟩, ⟨r, [], []⟩] atom offset context depth levels
        (P.following p) =
      .ok (⟨atom [l, r], levels, levels⟩, (P.charged (levels - 1) context).following p) := by
  have hcheck : Parser.checkExpandedDepth offset depth (levels + 6 * 0) = .ok () :=
    require_eq_ok.mpr ⟨hdepth, hlimit⟩
  have hencode : (atom [l, r]).encodeCanonicalWithNodeLimit formulaMaxNodes =
      .ok ((atom [l, r]).canonicalBytes, (atom [l, r]).node.nodeCount) := by
    unfold formulaMaxDepth at hlimit
    refine DefinedFormula.encodeCanonicalWithNodeLimit_eq_ok.mpr ⟨⟨?_, ?_, ?_⟩, ?_, rfl, rfl⟩
    · unfold formulaMaxNodes
      omega
    · unfold formulaMaxDepth
      omega
    · exact hbytes.trans (by decide)
    · unfold formulaMaxNodes
      omega
  rw [relationalizedFormula]
  change (Parser.checkExpandedDepth offset depth (levels + 6 * 0) >>= _) = _
  rw [hcheck, ok_bind, charge_following hcharge, ok_bind]
  change (((atom [l, r]).encodeCanonicalWithNodeLimit formulaMaxNodes).mapError _ >>= _) = _
  rw [hencode]
  change Except.ok _ = _
  rw [hnodes]
  rfl

/-- The two atoms of a question and their negation. -/
theorem atom_following {make : FreeVariable → FreeVariable → Formula} {negated : Bool}
    {t : CompiledQuestion.Parsed}
    {atom : List FreeVariable → DefinedFormula} {budget : TermBudget} {offset depth : ℕ}
    (hatom : ∀ l r, atom [l, r] = (if negated then (make l r).negate else make l r).embedded)
    (hsize : ∀ l r, (atom [l, r]).node.nodeCount = (if negated then 2 else 1) ∧
      (atom [l, r]).node.depth = (if negated then 2 else 1) ∧
      (atom [l, r]).canonicalBytes.length ≤ 2000)
    (hdepth : depth ≠ 0) (hlimit : depth - 1 + t.depth ≤ formulaMaxDepth)
    (hcharge : P.counter context + (t.nodes - 1) ≤ maximumNodes context)
    (h : p.atom make negated = .ok (t, q)) (hcall : punctuation 0x28 q.rest = none) :
    (termPair aliases budget (P.following p) >>= fun r =>
      relationalizedFormula [r.1, r.2.1] atom offset context depth (if negated then 2 else 1) r.2.2) =
        .ok (t.embedded, (P.charged (t.nodes - 1) context).following q) := by
  simp only [Reader.atom, bind_eq_ok, Prod.exists, pure_eq_ok, Prod.mk.injEq] at h
  obtain ⟨l, p₁, hleft, p₂, hcomma, r, p₃, hright, rfl, rfl⟩ := h
  obtain ⟨hnodes, hlevels, hbytes⟩ := hsize l r
  rw [termPair_following hleft hcomma hright hcall, ok_bind]
  have hatom := hatom l r
  cases negated with
  | false =>
    refine (relationalized_following hdepth hlimit hnodes hlevels hbytes hcharge).trans ?_
    rw [hatom]
    rfl
  | true =>
    refine (relationalized_following hdepth hlimit hnodes hlevels hbytes hcharge).trans ?_
    rw [hatom]
    rfl

/-- The parser of proofs knows the bindings of the reader of questions. -/
def Knows (bindings : List UInt8 → Option ParsedFormula) (p : Reader) : Prop :=
  ∀ word b, p.bindings.lookup word = some b →
    isReservedBindingName word = false ∧ bindings word = some b.embedded

theorem bindersFrom_length_pos {list : Bool} {remaining : ℕ} {result xs : List FreeVariable}
    (h : Reader.bindersFrom list remaining result p = .ok (xs, q)) : 0 < xs.length := by
  induction remaining generalizing result p with
  | zero => cases h
  | succ remaining ih =>
    simp only [Reader.bindersFrom, bind_eq_ok, Prod.exists] at h
    obtain ⟨x, p₁, -, h⟩ := h
    split_ifs at h with hlist
    · cases h
      simp
    · cases hclose : punctuation 0x5d p₁.rest with
      | some rest =>
        rw [hclose] at h
        cases h
        simp
      | none =>
        rw [hclose] at h
        simp only [bind_eq_ok] at h
        obtain ⟨p₂, -, h⟩ := h
        cases hclose' : punctuation 0x5d p₂.rest with
        | some rest =>
          rw [hclose'] at h
          cases h
          simp
        | none =>
          rw [hclose'] at h
          exact ih h

theorem binders_length_pos {xs : List FreeVariable} (h : p.binders = .ok (xs, q)) : 0 < xs.length := by
  unfold Reader.binders at h
  cases hopen : punctuation 0x5b p.rest with
  | some rest =>
    rw [hopen] at h
    exact bindersFrom_length_pos h
  | none =>
    rw [hopen] at h
    exact bindersFrom_length_pos h

/-- The nodes of a connective are charged by its call, its operands and itself. -/
theorem nodes_binaryShape {connective : Connective} {left right t : CompiledQuestion.Parsed}
    (hsize : (t.nodes, t.depth) =
      binaryShape connective (left.nodes, left.depth) (right.nodes, right.depth)) :
    t.nodes - 1 = left.nodes + right.nodes +
      additionalNodes left.embedded right.embedded connective := by
  cases connective <;>
    simp only [binaryShape, Prod.mk.injEq] at hsize <;>
    simp only [additionalNodes, CompiledQuestion.Parsed.embedded] <;>
    omega

/-- The inside of a call, when the formulas in it are read alike. -/
theorem callBody_following {levels depth offset : ℕ} {word : List UInt8}
    {t : CompiledQuestion.Parsed}
    {parse : ℕ → Parser → ParserM (ParsedFormula × Parser)}
    (hexact : ∀ b ∈ p.bindings, b.2.Exact)
    (hparse : ∀ (P : Parser) (r : Reader) depth t q, r.bindings = p.bindings →
      r.rest.length ≤ p.rest.length → depth ≠ 0 →
      P.counter context + t.nodes ≤ maximumNodes context →
      Reader.parse levels depth r = .ok (t, q) →
      parse depth (P.following r) = .ok (t.embedded, (P.charged t.nodes context).following q))
    (hdepth : depth ≠ 0) (hlimit : depth - 1 + t.depth ≤ formulaMaxDepth)
    (hcharge : P.counter context + (t.nodes - 1) ≤ maximumNodes context)
    (h : Reader.callBody (Reader.parse levels) word depth p = .ok (t, q))
    (hcall : punctuation 0x28 q.rest = none) :
    callBody aliases parse word offset depth context (P.following p) =
      .ok (t.embedded, (P.charged (t.nodes - 1) context).following q) := by
  have hcheck : Parser.checkExpandedDepth offset depth t.depth = .ok () :=
    require_eq_ok.mpr ⟨hdepth, hlimit⟩
  unfold Reader.callBody at h
  unfold callBody
  cases hword : Operator.parse word with
  | none =>
    rw [hword] at h
    cases h
  | some op =>
    rw [hword] at h
    cases op with
    | equal =>
      refine atom_following ?_ ?_ hdepth hlimit hcharge h hcall
      · exact fun _ _ => rfl
      intro l r
      refine ⟨rfl, rfl, ?_⟩
      simp [DefinedFormula.equal, DefinedFormula.canonicalBytes, FormulaCodec.nodeBytes]
    | member =>
      refine @atom_following P p q context aliases Formula.member false t _ _ _ _ ?_ ?_ hdepth hlimit hcharge h hcall
      · exact fun _ _ => rfl
      intro l r
      refine ⟨rfl, rfl, ?_⟩
      simp [DefinedFormula.member, DefinedFormula.canonicalBytes, FormulaCodec.nodeBytes]
    | unequal =>
      refine atom_following ?_ ?_ hdepth hlimit hcharge h hcall
      · exact fun _ _ => rfl
      intro l r
      refine ⟨rfl, rfl, ?_⟩
      simp [DefinedFormula.equal, DefinedFormula.negate, DefinedFormula.canonicalBytes,
        FormulaCodec.nodeBytes]
    | not =>
      simp only [bind_eq_ok, Prod.exists, pure_eq_ok, Prod.mk.injEq] at h
      obtain ⟨s, p₁, hs, t, ht, rfl, rfl⟩ := h
      obtain rfl := Reader.negated_eq_ok ht
      dsimp only at hcharge hcheck ⊢
      rw [Nat.add_sub_cancel] at hcharge ⊢
      rw [hparse P p _ s p₁ rfl le_rfl (Nat.succ_ne_zero _) hcharge hs, ok_bind]
      dsimp only [negated, CompiledQuestion.Parsed.embedded]
      rw [hcheck, Nat.add_comm 1]
      rfl
    | quantifier existential =>
      simp only [bind_eq_ok, Prod.exists, bounded_eq_ok, exists_const, pure_eq_ok,
        Prod.mk.injEq] at h
      obtain ⟨xs, p₁, hbinders, p₂, hcomma, ⟨-, hlevels⟩, s, p₃, hs, t, ht, rfl, rfl⟩ := h
      obtain rfl := Reader.quantified_eq_ok ht
      have hpos := Nat.mul_pos (binders_length_pos hbinders) (quantifierLevels_pos existential)
      have hmoves := (Reader.moves_binders hbinders).trans (Reader.moves_expect hcomma)
      have hroom : Parser.checkExpandedDepth offset depth
          (xs.length * quantifierLevels existential + 1) = .ok () :=
        require_eq_ok.mpr ⟨hdepth, by omega⟩
      have hcount : s.nodes + xs.length * quantifierLevels existential - 1 =
          xs.length * quantifierLevels existential - 1 + s.nodes := by omega
      dsimp only at hcharge hcheck ⊢
      rw [hcount] at hcharge ⊢
      rw [binders_following hbinders, ok_bind]
      dsimp only
      rw [comma_following hcomma, ok_bind]
      dsimp only
      rw [hroom, ok_bind, charge_following (by omega), ok_bind,
        hparse _ p₂ _ s p₃ hmoves.bindings hmoves.length_le (by omega)
          (by rw [counter_charged]; omega) hs, ok_bind, charged_charged]
      dsimp only [quantified, CompiledQuestion.Parsed.embedded]
      rw [hcheck, ok_bind, Formula.embedded_foldr_bindVariable, Nat.add_comm s.nodes]
      rfl
    | binary connective =>
      simp only [bind_eq_ok, Prod.exists, pure_eq_ok, Prod.mk.injEq] at h
      obtain ⟨left, p₁, hleft, p₂, hcomma, right, p₃, hright, t, ht, rfl, rfl⟩ := h
      obtain ⟨hformula, hsize⟩ := Reader.binary_eq_ok ht
      have hnodes := nodes_binaryShape hsize
      have hmoves := (Reader.accounts_parse hexact hleft).moves.trans (Reader.moves_expect hcomma)
      have hembedded : t.embedded =
          ⟨connective.apply left.formula.embedded right.formula.embedded, t.nodes, t.depth⟩ := by
        rw [CompiledQuestion.Parsed.embedded, hformula, Formula.embedded_connect]
      rw [hnodes] at hcharge ⊢
      dsimp only
      rw [hparse P p _ left p₁ rfl le_rfl (Nat.succ_ne_zero _) (by omega) hleft, ok_bind]
      dsimp only
      rw [comma_following hcomma, ok_bind]
      dsimp only
      rw [hparse _ p₂ _ right p₃ hmoves.bindings hmoves.length_le (Nat.succ_ne_zero _)
        (by rw [counter_charged]; omega) hright, ok_bind, charged_charged]
      dsimp only [binary]
      rw [show binaryShape connective (left.embedded.expandedNodes, left.embedded.expandedDepth)
        (right.embedded.expandedNodes, right.embedded.expandedDepth) = (t.nodes, t.depth)
        from hsize.symm]
      dsimp only
      rw [charge_following (by rw [counter_charged]; omega), ok_bind, charged_charged, hcheck, ok_bind,
        hembedded]
      rfl

/-- A formula that the parser of questions accepts is read alike by the parser of proofs. -/
theorem parseFormula_following {levels fuel depth : ℕ} {t : CompiledQuestion.Parsed}
    (hexact : ∀ b ∈ p.bindings, b.2.Exact) (hknows : Knows bindings p) (hdepth : depth ≠ 0)
    (hfuel : p.rest.length < fuel) (hcharge : P.counter context + t.nodes ≤ maximumNodes context)
    (h : Reader.parse levels depth p = .ok (t, q)) :
    parseFormula aliases bindings fuel context depth (P.following p) =
      .ok (t.embedded, (P.charged t.nodes context).following q) := by
  induction levels generalizing fuel depth P p t q with
  | zero => cases h
  | succ levels ih =>
    obtain ⟨fuel, rfl⟩ : ∃ f, fuel = f + 1 := ⟨fuel - 1, by omega⟩
    simp only [Reader.parse, bind_eq_ok, bounded_eq_ok, exists_const, Prod.exists] at h
    obtain ⟨⟨-, hmaximum⟩, word, p₁, hname, h⟩ := h
    obtain ⟨rest, hread, rfl⟩ := Reader.readName_eq_ok hname
    have hless := length_name hread
    rw [parseFormula, readName_following hname, ok_bind]
    dsimp only [Parser.following] at h ⊢
    cases hopen : punctuation 0x28 rest with
    | none =>
      rw [hopen] at h
      simp only [Reader.reference, bind_eq_ok, orError_eq_ok, bounded_eq_ok, exists_const, pure_eq_ok,
        Prod.mk.injEq] at h
      obtain ⟨b, hlookup, ⟨-, hlimit⟩, rfl, rfl⟩ := h
      obtain ⟨hreserved, hbinding⟩ := hknows word b hlookup
      have hcheck : Parser.checkExpandedDepth (P.following p).nextOffset depth b.depth = .ok () :=
        require_eq_ok.mpr ⟨hdepth, hlimit⟩
      rw [if_pos ⟨rfl, hreserved⟩, bindingReference, hbinding]
      change ((P.following { p with rest }).chargeFormulaNodes b.nodes _ context >>= _) = _
      rw [charge_following hcharge, ok_bind]
      change (Parser.checkExpandedDepth (P.following p).nextOffset depth b.depth >>= _) = _
      rw [hcheck]
      rfl
    | some opened =>
      rw [hopen] at h
      simp only [bind_eq_ok, Prod.exists] at h
      obtain ⟨s, p₂, hbody, hfinish⟩ := h
      obtain ⟨rfl, -, hlimit, rest', hclose, rfl⟩ := Reader.finish_eq_ok hfinish
      have hshorter := length_punctuation hopen
      have hexactBody := (Reader.accounts_callBody (p := { p with rest := opened }) hexact
        (fun p depth t q hexact h => Reader.accounts_parse hexact h) hbody).2
      have hpos : 0 < t.nodes := by
        rw [hexactBody.nodes]
        exact Node.nodeCount_pos _
      have hcount : 1 + (t.nodes - 1) = t.nodes := by omega
      have hinside : callBody aliases (parseFormula aliases bindings fuel context) word
          (P.following p).nextOffset depth context
          ((P.charged 1 context).following { p with rest := opened }) =
            .ok (t.embedded, (P.charged t.nodes context).following p₂) := by
        rw [← hcount, ← charged_charged]
        refine callBody_following hexact ?_ hdepth hlimit ?_ hbody (call_none_of_callEnd hclose)
        · intro P r depth t q hbindings hle hdepth hcharge h
          refine ih ?_ ?_ hdepth ?_ hcharge h
          · rw [hbindings]
            exact hexact
          · intro word b
            rw [hbindings]
            exact hknows word b
          · dsimp only at hle
            omega
        · rw [counter_charged]
          omega
      rw [if_neg (by simp)]
      change ((P.following { p with rest }).chargeFormulaNodes 1 (P.following p).nextOffset context >>=
        _) = _
      rw [charge_following (by omega), ok_bind, require, if_pos hmaximum, ok_bind,
        openCall_eq (show punctuation 0x28 ((P.charged 1 context).following { p with rest }).rest =
          some opened from hopen), ok_bind]
      change (callBody aliases (parseFormula aliases bindings fuel context) word
        (P.following p).nextOffset depth context
        ((P.charged 1 context).following { p with rest := opened }) >>= _) = _
      rw [hinside, ok_bind]
      dsimp only
      rw [closeCall_eq (show callEnd ((P.charged t.nodes context).following p₂).rest = some rest'
        from hclose)]
      rfl

end

end Authoring
end Naome
