import Naome.FormulaAccounts
import Naome.NodeLimits
import Naome.SourceProofs

/-!
# Accounts of certificates

The formulas of the steps that the parser accepts have together exactly the nodes that its counter
of certificate nodes has grown by, so that a certificate never has too many of them.
-/
namespace Naome
namespace Authoring
open Outcome LocallyNameless

/-- What the parser keeps along a source: an order of variables, and room for more of them. -/
structure Parser.Sound (p : Parser) : Prop where
  ordered : p.vars.Ordered
  supply : p.supply < 2 ^ 32

/-- A step of the parser that charges so many nodes to the certificate. -/
structure Advances (n : ℕ) (p q : Parser) : Prop where
  charged : Charged .certificate n p q
  sound : p.Sound → q.Sound

section

variable {p q r : Parser} {m n : ℕ}

theorem Advances.trans (h : Advances m p q) (h' : Advances n q r) : Advances (m + n) p r :=
  ⟨h.charged.trans h'.charged, fun hp => h'.sound (h.sound hp)⟩

theorem advances_rest {rest : List UInt8} (h : rest.length ≤ p.rest.length) :
    Advances 0 p { p with rest := rest } where
  charged := .of_counter fun c => by cases c <;> rfl
  sound := by
    intro hp
    refine ⟨hp.ordered, ?_⟩
    have hsupply := hp.supply
    simp only [Parser.supply] at hsupply ⊢
    omega

theorem advances_punctuation {b : UInt8} {expected : String} {u : Unit}
    (h : p.token expected ((punctuation b p.rest).map fun rest => ((), rest)) = .ok (u, q)) :
    Advances 0 p q := by
  obtain ⟨rest, hread, rfl⟩ := token_eq_ok.1 h
  obtain ⟨rest', hrest, heq⟩ := Option.map_eq_some_iff.mp hread
  cases heq
  exact advances_rest (length_punctuation hrest).le

theorem advances_closeCall {u : Unit} (h : p.closeCall = .ok (u, q)) : Advances 0 p q := by
  unfold Parser.closeCall at h
  cases hcomma : punctuation 0x2c p.rest with
  | none =>
    rw [hcomma] at h
    exact advances_punctuation h
  | some rest =>
    rw [hcomma] at h
    exact (advances_rest (length_punctuation hcomma).le).trans (advances_punctuation h)

theorem advances_readName {word : List UInt8} (h : p.readName = .ok (word, q)) :
    Advances 0 p q := by
  obtain ⟨rest, hname, rfl⟩ := token_eq_ok.1 h
  exact advances_rest (length_name hname).le

/-- A named variable is paid for by its name. -/
theorem advances_variable {word : List UInt8} {x : FreeVariable} (h : p.readName = .ok (word, q))
    (h' : q.variableNamed word = .ok (x, r)) : Advances 0 p r := by
  obtain ⟨rest, hname, rfl⟩ := token_eq_ok.1 h
  obtain ⟨vars, hnamed, rfl⟩ := allocate_eq_ok.1 h'
  have hless := length_name hname
  refine ⟨.of_counter fun c => by cases c <;> rfl, ?_⟩
  intro hp
  refine ⟨(Variables.Later.named .refl hnamed).ordered hp.ordered, ?_⟩
  have hsupply := hp.supply
  have hnext : vars.next ≤ p.vars.next + 1 := by
    rcases Variables.named_eq_some hnamed with ⟨-, heq⟩ | ⟨-, -, heq⟩
    · rw [heq]
      exact Nat.le_succ _
    · rw [heq]
  simp only [Parser.supply] at hsupply ⊢
  omega

theorem advances_keyword {expected : String} {u : Unit} (h : p.keyword expected = .ok (u, q)) :
    Advances 0 p q := by
  simp only [Parser.keyword, bind_eq_ok, pure_eq_ok] at h
  obtain ⟨⟨word, p₁⟩, hname, _, -, heq⟩ := h
  cases heq
  exact advances_readName hname

theorem advances_parametersFrom {fuel : ℕ} {result xs : List FreeVariable}
    (h : Parser.parametersFrom fuel result p = .ok (xs, q)) : Advances 0 p q := by
  induction fuel generalizing result p with
  | zero => cases h
  | succ fuel ih =>
    rw [Parser.parametersFrom] at h
    cases hclose : punctuation 0x5d p.rest with
    | some rest =>
      rw [hclose] at h
      cases h
      exact advances_rest (length_punctuation hclose).le
    | none =>
      rw [hclose] at h
      simp only [bind_eq_ok] at h
      obtain ⟨⟨word, p₁⟩, hname, ⟨x, p₂⟩, hnamed, h⟩ := h
      have hvariable := advances_variable hname hnamed
      dsimp only at h
      cases hclose' : punctuation 0x5d p₂.rest with
      | some rest =>
        rw [hclose'] at h
        cases h
        exact hvariable.trans (advances_rest (length_punctuation hclose').le)
      | none =>
        rw [hclose'] at h
        simp only [bind_eq_ok] at h
        obtain ⟨⟨_, p₃⟩, hcomma, h⟩ := h
        exact (hvariable.trans (advances_punctuation hcomma)).trans (ih h)

theorem advances_fixedIdBytes {expected : String} {id : Digest}
    (h : p.fixedIdBytes expected = .ok (id, q)) : Advances 0 p q := by
  simp only [Parser.fixedIdBytes, bind_eq_ok, pure_eq_ok] at h
  obtain ⟨⟨_, p₁⟩, hopen, _, -, _, -, _, -, heq⟩ := h
  cases heq
  refine (advances_punctuation hopen).trans (advances_rest ?_)
  rw [List.length_tail, List.length_drop]
  dsimp only
  omega

theorem advances_quoted {expected : String} {content : List UInt8}
    (h : p.quoted expected = .ok (content, q)) : Advances 0 p q := by
  simp only [Parser.quoted, bind_eq_ok, pure_eq_ok] at h
  obtain ⟨⟨_, p₁⟩, hopen, _, -, heq⟩ := h
  cases heq
  refine (advances_punctuation hopen).trans (advances_rest ?_)
  rw [List.length_drop]
  dsimp only
  omega

end

theorem nodeCount_of_fromDefined {f : DefinedFormula} {g : ProofFormula}
    (h : ProofFormula.fromDefined f = .ok g) : g.nodeCount = f.node.nodeCount := by
  unfold ProofFormula.fromDefined at h
  split_ifs at h
  · cases h
    rfl
  · obtain ⟨formula, hprimitive, rfl⟩ := map_eq_ok.mp h
    obtain ⟨-, hnode⟩ := (DefinedFormula.nodeIntoPrimitive_eq_ok f.wellScoped).mp hprimitive
    rw [ProofFormula.nodeCount, ProofFormula.node, hnode]

/-- The tables that a proof block starts with. -/
structure ProofNames.Valid (names : ProofNames) : Prop where
  arities : BoundedArities names.aliases
  recorded : Recorded names.bindings

/-- Accepted formulas have the recorded size, and are charged for it. -/
theorem formulaDone_of_parseFormula {aliases : List UInt8 → Option DefinitionAlias}
    {bindings : List UInt8 → Option ParsedFormula} (haliases : BoundedArities aliases)
    (hbindings : Recorded bindings) {context : FormulaContext} {depth : ℕ} {p q : Parser}
    {f : ParsedFormula} (hp : p.Sound) (hdepth : depth ≠ 0)
    (h : parsedFormula aliases bindings depth context p = .ok (f, q)) :
    q.Sound ∧ ∃ F, ReadsFormula aliases bindings p.rest F q.rest ∧
      FormulaDone context F.nodes p F q.rest f q := by
  obtain ⟨hordered, F, hreads⟩ := readsFormula_of_parseFormula hp.ordered h
  have hdone := (result_formula haliases hbindings context _ depth p F q.rest hreads
    (Nat.lt_succ_self _) hp.supply hdepth).of_eq_ok h
  exact ⟨⟨hordered, hdone.supply.trans_lt hp.supply⟩, F, hreads, hdone⟩

section

variable {names : ProofNames} {fuel : ℕ} {known : List (List UInt8 × ℕ)} {p q : Parser}

theorem readOperand_nodes (hnames : names.Valid) (hp : p.Sound) {operand : Operand}
    {field : StepField} (h : readOperand names fuel known p operand = .ok (field, q)) :
    q.Sound ∧ Charged .certificate field.nodes p q := by
  have hzero : ∀ {f : StepField}, f.nodes = 0 → Advances 0 p q →
      q.Sound ∧ Charged .certificate f.nodes p q := by
    intro f hf hadvances
    rw [hf]
    exact ⟨hadvances.sound hp, hadvances.charged⟩
  cases operand with
  | formula =>
    simp only [readOperand, proofFormula, bind_eq_ok, pure_eq_ok, mapError_eq_ok] at h
    obtain ⟨⟨g, p₁⟩, ⟨⟨parsed, p₂⟩, hparse, g', hfrom, heq'⟩, heq⟩ := h
    cases heq'
    cases heq
    obtain ⟨hsound, F, -, hdone⟩ :=
      formulaDone_of_parseFormula hnames.arities hnames.recorded hp Nat.one_ne_zero hparse
    refine ⟨hsound, ?_⟩
    rw [StepField.nodes, nodeCount_of_fromDefined hfrom, hdone.nodeCount]
    exact hdone.charged
  | freeVariable =>
    simp only [readOperand, bind_eq_ok, pure_eq_ok] at h
    obtain ⟨⟨word, p₁⟩, hname, ⟨x, p₂⟩, hnamed, heq⟩ := h
    cases heq
    exact hzero rfl (advances_variable hname hnamed)
  | reference =>
    simp only [readOperand, bind_eq_ok, pure_eq_ok] at h
    obtain ⟨⟨word, p₁⟩, hname, position, -, heq⟩ := h
    cases heq
    exact hzero rfl (advances_readName hname)
  | fixed =>
    simp only [readOperand, bind_eq_ok, pure_eq_ok] at h
    obtain ⟨⟨content, p₁⟩, hquoted, row, -, heq⟩ := h
    cases heq
    exact hzero rfl (advances_quoted hquoted)
  | citation =>
    simp only [readOperand] at h
    split_ifs at h
    · simp only [bind_eq_ok, pure_eq_ok] at h
      obtain ⟨⟨id, p₁⟩, hid, heq⟩ := h
      cases heq
      exact hzero rfl (advances_fixedIdBytes hid)
    · simp only [bind_eq_ok, pure_eq_ok] at h
      obtain ⟨⟨word, p₁⟩, hname, id, -, heq⟩ := h
      cases heq
      exact hzero rfl (advances_readName hname)
  | parameters =>
    simp only [readOperand, Parser.schemaParameters, bind_eq_ok, pure_eq_ok] at h
    obtain ⟨⟨xs, p₁⟩, ⟨⟨_, p₂⟩, hkeyword, ⟨_, p₃⟩, hequal, ⟨_, p₄⟩, hopen, hparameters⟩, heq⟩ := h
    cases heq
    have hall := ((advances_keyword hkeyword).trans (advances_punctuation hequal)).trans
      ((advances_punctuation hopen).trans (advances_parametersFrom hparameters))
    exact hzero rfl hall

theorem readOperands_nodes (hnames : names.Valid) {operands : List Operand} {first : Bool}
    {fields : List StepField} (hp : p.Sound)
    (h : readOperands names fuel known operands first p = .ok (fields, q)) :
    q.Sound ∧ Charged .certificate (fields.map StepField.nodes).sum p q := by
  induction operands generalizing first fields p with
  | nil =>
    cases h
    exact ⟨hp, .of_counter fun _ => rfl⟩
  | cons operand operands ih =>
    simp only [readOperands, bind_eq_ok, pure_eq_ok] at h
    obtain ⟨p₁, hcomma, ⟨field, p₂⟩, hfield, ⟨behind, p₃⟩, hfields, heq⟩ := h
    cases heq
    have hadvances : Advances 0 p p₁ := by
      cases first with
      | true =>
        cases hcomma
        exact advances_rest le_rfl
      | false =>
        obtain ⟨⟨_, p₄⟩, hok, rfl⟩ := map_eq_ok.mp hcomma
        exact advances_punctuation hok
    obtain ⟨hp₂, hcharged⟩ := readOperand_nodes hnames (hadvances.sound hp) hfield
    obtain ⟨hq, hcharged'⟩ := ih hp₂ hfields
    refine ⟨hq, ?_⟩
    have hall := (hadvances.charged.trans hcharged).trans hcharged'
    rwa [Nat.zero_add, ← List.sum_cons, ← List.map_cons] at hall

theorem fields_of_build {rule : Rule} {fields : List StepField} {step : ProofStep}
    (h : rule.build fields = some step) : step.fields = fields := by
  cases rule <;>
  · simp only [Rule.build] at h
    split at h
    · cases h
      rfl
    · cases h

theorem proofStep_nodes (hnames : names.Valid) (hp : p.Sound) {step : ProofStep}
    (h : proofStep names fuel known p = .ok (step, q)) :
    q.Sound ∧ Charged .certificate step.nodes p q := by
  simp only [proofStep, bind_eq_ok, pure_eq_ok, orError_eq_ok] at h
  obtain ⟨⟨word, p₁⟩, hname, ⟨_, p₂⟩, hopen, rule, -, ⟨fields, p₃⟩, hfields, step', hbuild, ⟨_, p₄⟩,
    hclose, heq⟩ := h
  cases heq
  have hbefore := (advances_readName hname).trans (advances_punctuation hopen)
  obtain ⟨hp₃, hcharged⟩ := readOperands_nodes hnames (hbefore.sound hp) hfields
  have hafter := advances_closeCall hclose
  refine ⟨hafter.sound hp₃, ?_⟩
  have hall := (hbefore.charged.trans hcharged).trans hafter.charged
  rw [Nat.zero_add, Nat.add_zero] at hall
  rw [ProofStep.nodes, fields_of_build hbuild]
  exact hall

/-- The counter grows by the nodes of the new steps. -/
theorem proofSteps_nodes (hnames : names.Valid) {rounds : ℕ} {before steps : List ProofStep}
    (hp : p.Sound) (h : proofSteps names fuel rounds known before p = .ok (steps, q)) :
    ∃ behind, steps = before ++ behind ∧
      Charged .certificate (behind.map ProofStep.nodes).sum p q := by
  induction rounds generalizing known before p with
  | zero => cases h
  | succ rounds ih =>
    simp only [proofSteps] at h
    split_ifs at h
    · cases h
      exact ⟨[], (List.append_nil _).symm, .of_counter fun c => by cases c <;> rfl⟩
    · simp only [bind_eq_ok] at h
      obtain ⟨_, -, ⟨word, p₁⟩, hname, _, -, ⟨_, p₂⟩, hequal, ⟨step, p₃⟩, hstep, h⟩ := h
      have hbefore := (advances_readName hname).trans (advances_punctuation hequal)
      obtain ⟨hp₃, hcharged⟩ := proofStep_nodes hnames (hbefore.sound hp) hstep
      obtain ⟨behind, rfl, hcharged'⟩ := ih hp₃ h
      refine ⟨step :: behind, by simp, ?_⟩
      have hall := (hbefore.charged.trans hcharged).trans hcharged'
      rwa [Nat.zero_add, ← List.sum_cons, ← List.map_cons] at hall

end

/-- The bindings that a source can define, one after another. -/
inductive Defined (aliases : List UInt8 → Option DefinitionAlias) :
    (List UInt8 → Option ParsedFormula) → Prop
  | none : Defined aliases fun _ => none
  | insert {bindings : List UInt8 → Option ParsedFormula} {p q : Parser} {f : ParsedFormula}
    (h : Defined aliases bindings) (word : List UInt8) (hp : p.Sound)
    (hparse : parsedFormula aliases bindings 1 .binding p = .ok (f, q)) :
    Defined aliases (Function.update bindings word (some f))

theorem Defined.recorded {aliases : List UInt8 → Option DefinitionAlias}
    {bindings : List UInt8 → Option ParsedFormula} (haliases : BoundedArities aliases)
    (h : Defined aliases bindings) : Recorded bindings := by
  induction h with
  | none =>
    intro word b hb
    cases hb
  | insert h word hp hparse ih =>
    intro other b hb
    obtain ⟨-, F, -, hdone⟩ := formulaDone_of_parseFormula haliases ih hp Nat.one_ne_zero hparse
    by_cases hword : other = word
    · rw [hword, Function.update_self] at hb
      cases hb
      exact ⟨hdone.nodes.trans hdone.nodeCount.symm, hdone.depth.trans hdone.nodeDepth.symm⟩
    · rw [Function.update_of_ne hword] at hb
      exact ih other b hb

/-- The accounts of the parser are exact: accepted formulas have the recorded nodes and depth, and
the counter of their context grows by these nodes; a formula of the grammar that is refused for a
limit would pass a limit, and is refused for nothing else; and the steps of a certificate never have
too many nodes together. -/
theorem accounts_exact (names : ProofNames) (haliases : BoundedArities names.aliases)
    (hbindings : Defined names.aliases names.bindings) (p : Parser) (hp : p.Sound) :
    (∀ context depth, depth ≠ 0 →
      (∀ f q, parsedFormula names.aliases names.bindings depth context p = .ok (f, q) →
        f.expandedNodes = f.formula.node.nodeCount ∧ f.expandedDepth = f.formula.node.depth ∧
        q.counter context = p.counter context + f.expandedNodes ∧
        (∀ c, c ≠ context → q.counter c = p.counter c) ∧
        ∃ F, ReadsFormula names.aliases names.bindings p.rest F q.rest ∧
          F.nodes = f.expandedNodes ∧ F.depth = f.expandedDepth) ∧
      ∀ F rest, ReadsFormula names.aliases names.bindings p.rest F rest →
        (∃ f q, parsedFormula names.aliases names.bindings depth context p = .ok (f, q) ∧
          q.rest = rest) ∨
        (∃ e, parsedFormula names.aliases names.bindings depth context p = .error (.error e) ∧
          IsLimit e ∧ (formulaMaxDepth < depth - 1 + F.depth ∨
            maximumNodes context < p.counter context + F.nodes))) ∧
    ∀ fuel rounds known steps q, p.certificateFormulaNodes = 0 →
      proofSteps names fuel rounds known [] p = .ok (steps, q) →
      (steps.map ProofStep.nodes).sum = q.certificateFormulaNodes ∧
      ∀ maximum, ProofCertificate.new steps ≠
        .error (.error (.formulaNodeLimitExceeded maximum)) := by
  have hrecorded := hbindings.recorded haliases
  refine ⟨?_, ?_⟩
  · intro context depth hdepth
    refine ⟨?_, ?_⟩
    · intro f q h
      obtain ⟨-, F, hreads, hdone⟩ := formulaDone_of_parseFormula haliases hrecorded hp hdepth h
      refine ⟨hdone.nodes.trans hdone.nodeCount.symm, hdone.depth.trans hdone.nodeDepth.symm, ?_,
        hdone.charged.others, F, hreads, hdone.nodes.symm, hdone.depth.symm⟩
      rw [hdone.charged.counter, hdone.nodes]
    · intro F rest hreads
      have hresult := result_formula haliases hrecorded context (p.rest.length + 1) depth p F rest
        hreads (Nat.lt_succ_self _) hp.supply hdepth
      cases hparse : parsedFormula names.aliases names.bindings depth context p with
      | ok r =>
        obtain ⟨f, q⟩ := r
        exact .inl ⟨f, q, rfl, (hresult.of_eq_ok hparse).rest⟩
      | error e =>
        have hsame : parseFormula names.aliases names.bindings (p.rest.length + 1) context depth p =
            .error e := hparse
        rw [hsame] at hresult
        cases hresult with
        | limit hlimit hexceeds => exact .inr ⟨_, rfl, hlimit, hexceeds⟩
  · intro fuel rounds known steps q hzero h
    obtain ⟨behind, hsteps, hcharged⟩ := proofSteps_nodes ⟨haliases, hrecorded⟩ hp h
    rw [List.nil_append] at hsteps
    subst hsteps
    have hcounter : q.certificateFormulaNodes =
        p.certificateFormulaNodes + (steps.map ProofStep.nodes).sum := hcharged.counter
    have hbounded : q.certificateFormulaNodes ≤ certificateMaxFormulaNodes :=
      hcharged.bounded (by rw [Parser.counter, hzero]; exact Nat.zero_le _)
    refine ⟨by omega, ?_⟩
    intro maximum hnew
    have hlt := ProofCertificate.new_nodeLimit hnew
    omega

namespace Sentences

/-- A relation and a function of a context. -/
def aliases (word : List UInt8) : Option DefinitionAlias :=
  if word = ascii "sub" then some ⟨5, .relation 2⟩
  else if word = ascii "pow" then some ⟨6, .function 1⟩
  else none

theorem boundedArities : BoundedArities aliases := by
  intro word a ha
  unfold aliases at ha
  split_ifs at ha
  all_goals
    cases ha
    decide

def start : Parser := ⟨100, ascii "and(eq(x,y),mem(y,x))", .empty, 0, 0, 0⟩

theorem sound_start : start.Sound := ⟨Variables.ordered_empty, by decide⟩

theorem isSome_binding :
    (parsedFormula aliases (fun _ => none) 1 .binding start).toOption.isSome = true := by
  decide +kernel

@[irreducible] def binding : ParsedFormula × Parser := Option.get _ isSome_binding

theorem parse_binding :
    parsedFormula aliases (fun _ => none) 1 .binding start = .ok binding := by
  unfold binding
  exact toOption_eq_some.1 (Option.some_get isSome_binding).symm

/-- The parsed formula under a name. -/
def names : ProofNames :=
  ⟨aliases, Function.update (fun _ => none) (ascii "h") (some binding.1), fun _ => none⟩

theorem defined : Defined names.aliases names.bindings :=
  .insert .none _ sound_start parse_binding

theorem recorded : Recorded fun _ : List UInt8 => (none : Option ParsedFormula) := by
  intro word b hb
  cases hb

def statement : Parser := { binding.2 with rest := ascii "imp(h,all(z,sub(z,pow(x))))" }

def certificate : Parser := { binding.2 with rest := ascii "a=simp(h,sub(x,y)) return a" }

theorem sound_binding : binding.2.Sound :=
  (formulaDone_of_parseFormula boundedArities recorded sound_start Nat.one_ne_zero parse_binding).1

theorem evaluated : statement.supply < 2 ^ 32 ∧ certificate.supply < 2 ^ 32 ∧
    statement.statementNodes = 0 ∧ certificate.certificateFormulaNodes = 0 ∧
    (parsedFormula names.aliases names.bindings 1 .statement statement).toOption.map
      (fun r => (r.1.expandedNodes, r.1.expandedDepth)) = some (15, 9) ∧
    (proofSteps names 100 10 [] [] certificate).toOption.isSome = true := by
  decide +kernel

end Sentences

open Sentences in
/-- A statement over a binding, a relation and a function, and a step with the same binding. -/
theorem accounts_exact_binding : ∃ f q steps r,
    parsedFormula names.aliases names.bindings 1 .statement statement = .ok (f, q) ∧
      f.expandedNodes = 15 ∧ f.formula.node.nodeCount = 15 ∧ f.formula.node.depth = 9 ∧
      q.statementNodes = 15 ∧
      proofSteps names 100 10 [] [] certificate = .ok (steps, r) ∧
      (steps.map ProofStep.nodes).sum = r.certificateFormulaNodes := by
  obtain ⟨hsupply, hsupply', hzero, hzero', hnodes, hsome⟩ := evaluated
  obtain ⟨⟨steps, r⟩, hcertificate⟩ := Option.isSome_iff_exists.1 hsome
  obtain ⟨⟨f, q⟩, hstatement, hsizes⟩ := Option.map_eq_some_iff.1 hnodes
  rw [toOption_eq_some] at hcertificate hstatement
  obtain ⟨hnodes, hdepth⟩ := Prod.mk.inj hsizes
  obtain ⟨hformulas, -⟩ := accounts_exact names boundedArities defined statement
    ⟨sound_binding.ordered, hsupply⟩
  obtain ⟨-, hsteps⟩ := accounts_exact names boundedArities defined certificate
    ⟨sound_binding.ordered, hsupply'⟩
  obtain ⟨hexact, -⟩ := hformulas .statement 1 Nat.one_ne_zero
  obtain ⟨hcount, hlevels, hcounter, -⟩ := hexact f q hstatement
  obtain ⟨hsum, -⟩ := hsteps 100 10 [] steps r hzero' hcertificate
  refine ⟨f, q, steps, r, hstatement, hnodes, hcount.symm.trans hnodes, hlevels.symm.trans hdepth,
    ?_, hcertificate, hsum⟩
  rw [Parser.counter, Parser.counter, hzero, Nat.zero_add] at hcounter
  exact hcounter.trans hnodes

end Authoring
end Naome
