import Naome.SourceGrammar

/-!
# Accounts of lowered terms

The charges of an atom are the nodes of its formula, and an atom of the grammar is refused for a
limit only when its formula passes that limit.
-/
namespace Naome
namespace Authoring
open Outcome LocallyNameless FormulaCodec

inductive IsLimit : CompileError → Prop
  | depth {offset maximum : ℕ} : IsLimit (.formulaDepthLimitExceeded offset maximum)
  | binding {offset maximum : ℕ} : IsLimit (.formulaBindingNodeLimitExceeded offset maximum)
  | statement {offset maximum : ℕ} : IsLimit (.statement offset (.nodeLimitExceeded maximum))
  | certificate {offset maximum : ℕ} :
    IsLimit (.certificate offset (.formulaNodeLimitExceeded maximum))

/-- A good result, or a limit whose excess is shown. -/
inductive Result {α : Type} (good : α → Prop) (excess : Prop) : ParserM α → Prop
  | ok {a : α} (h : good a) : Result good excess (.ok a)
  | limit {e : CompileError} (hlimit : IsLimit e) (h : excess) :
    Result good excess (.error (.error e))

theorem Result.bind {α β : Type} {good : α → Prop} {good' : β → Prop} {excess excess' : Prop}
    {x : ParserM α} {f : α → ParserM β} (h : Result good excess x) (hexcess : excess → excess')
    (hf : ∀ a, good a → Result good' excess' (f a)) : Result good' excess' (x >>= f) := by
  cases h with
  | ok h => exact hf _ h
  | limit hlimit h => exact .limit hlimit (hexcess h)

theorem Result.mono {α : Type} {good good' : α → Prop} {excess excess' : Prop} {x : ParserM α}
    (h : Result good excess x) (hgood : ∀ a, good a → good' a) (hexcess : excess → excess') :
    Result good' excess' x := by
  cases h with
  | ok h => exact .ok (hgood _ h)
  | limit hlimit h => exact .limit hlimit (hexcess h)

theorem Result.of_eq_ok {α : Type} {good : α → Prop} {excess : Prop} {x : ParserM α} {a : α}
    (h : Result good excess x) (ha : x = .ok a) : good a := by
  rw [ha] at h
  cases h with
  | ok h => exact h

def Parser.counter (p : Parser) : FormulaContext → ℕ
  | .binding => p.formulaBindingNodes
  | .statement => p.statementNodes
  | .certificate => p.certificateFormulaNodes

def maximumNodes : FormulaContext → ℕ
  | .binding => formulaBindingMaxNodes
  | .statement => formulaMaxNodes
  | .certificate => certificateMaxFormulaNodes

/-- The counter of a context grew, the others stay; no charge passes the maximum. -/
structure Charged (context : FormulaContext) (n : ℕ) (p q : Parser) : Prop where
  counter : q.counter context = p.counter context + n
  others : ∀ c, c ≠ context → q.counter c = p.counter c
  bounded : p.counter context ≤ maximumNodes context →
    q.counter context ≤ maximumNodes context

/-- What the source can still allocate. -/
def Parser.supply (p : Parser) : ℕ := p.vars.next + p.rest.length

section

variable {context : FormulaContext} {p q r : Parser} {m n : ℕ}

theorem Charged.of_counter (h : ∀ c, q.counter c = p.counter c) : Charged context 0 p q :=
  ⟨h context, fun c _ => h c, fun hle => by rw [h context]; exact hle⟩

theorem Charged.trans (h : Charged context m p q) (h' : Charged context n q r) :
    Charged context (m + n) p r where
  counter := by rw [h'.counter, h.counter, Nat.add_assoc]
  others := by
    intro c hc
    rw [h'.others c hc, h.others c hc]
  bounded := fun hle => h'.bounded (h.bounded hle)

/-- Reading on and naming variables charges nothing. -/
theorem Charged.moved {text : List UInt8} {vars : Variables} :
    Charged context 0 p { p with rest := text, vars := vars } :=
  .of_counter fun c => by cases c <;> rfl

theorem Charged.after_moved {text : List UInt8} {vars : Variables}
    (h : Charged context n { p with rest := text, vars := vars } q) : Charged context n p q := by
  have hall := Charged.moved.trans h
  rwa [Nat.zero_add] at hall

theorem Charged.and_moved {text : List UInt8} {vars : Variables} (h : Charged context n p q) :
    Charged context n p { q with rest := text, vars := vars } :=
  h.trans .moved

theorem result_charge {offset : ℕ} :
    Result (fun q => Charged context n p q ∧ q.rest = p.rest ∧ q.vars = p.vars)
      (maximumNodes context < p.counter context + n) (p.chargeFormulaNodes n offset context) := by
  by_cases hle : p.counter context + n ≤ maximumNodes context
  · cases context <;>
    · simp only [Parser.counter, maximumNodes] at hle
      simp only [Parser.chargeFormulaNodes, require, if_pos hle, ok_bind]
      refine .ok ⟨⟨rfl, ?_, fun _ => hle⟩, rfl, rfl⟩
      intro c hc
      cases c <;> first | rfl | exact absurd rfl hc
  · cases context <;>
    · have hlt := Nat.lt_of_not_le hle
      simp only [Parser.counter, maximumNodes] at hle
      simp only [Parser.chargeFormulaNodes, require, if_neg hle, error_bind]
      exact .limit (by constructor) hlt

theorem result_depth {offset sourceDepth expandedDepth : ℕ} (hdepth : sourceDepth ≠ 0) :
    Result (fun _ => sourceDepth - 1 + expandedDepth ≤ formulaMaxDepth)
      (formulaMaxDepth < sourceDepth - 1 + expandedDepth)
      (Parser.checkExpandedDepth offset sourceDepth expandedDepth) := by
  unfold Parser.checkExpandedDepth require
  split_ifs with h
  · exact .ok h.2
  · refine .limit .depth ?_
    by_contra hle
    exact h ⟨hdepth, Nat.le_of_not_lt hle⟩

end

/-- A formula of so many nodes and levels at a place of the source passes a limit. -/
def Exceeds (context : FormulaContext) (p : Parser) (sourceDepth depth nodes : ℕ) : Prop :=
  formulaMaxDepth < sourceDepth - 1 + depth ∨ maximumNodes context < p.counter context + nodes

theorem Exceeds.of_charged {context : FormulaContext} {p q : Parser} {sourceDepth depth nodes m : ℕ}
    (h : Exceeds context q sourceDepth depth nodes) (hcharged : Charged context m p q) :
    Exceeds context p sourceDepth depth (m + nodes) := by
  rcases h with h | h
  · exact .inl h
  · right
    rw [hcharged.counter] at h
    omega

theorem Exceeds.mono {context : FormulaContext} {p : Parser} {d d' depth depth' n n' : ℕ}
    (h : Exceeds context p d depth n) (hdepth : d - 1 + depth ≤ d' - 1 + depth') (hn : n ≤ n') :
    Exceeds context p d' depth' n' := by
  rcases h with h | h
  · exact .inl (by omega)
  · exact .inr (by omega)

section

variable {p : Parser} {rest : List UInt8}

theorem readName_eq {word : List UInt8} (h : name p.rest = some (word, rest)) :
    p.readName = .ok (word, { p with rest := rest }) := by
  rw [Parser.readName, h]
  rfl

theorem comma_eq (h : punctuation 0x2c p.rest = some rest) :
    p.comma = .ok ((), { p with rest := rest }) := by
  rw [Parser.comma, h]
  rfl

theorem openCall_eq (h : punctuation 0x28 p.rest = some rest) :
    p.openCall = .ok ((), { p with rest := rest }) := by
  rw [Parser.openCall, h]
  rfl

theorem closeCall_eq (h : callEnd p.rest = some rest) :
    p.closeCall = .ok ((), { p with rest := rest }) := by
  unfold callEnd at h
  unfold Parser.closeCall
  cases hcomma : punctuation 0x2c p.rest with
  | none =>
    rw [hcomma] at h
    dsimp only at h ⊢
    rw [h]
    rfl
  | some behind =>
    rw [hcomma] at h
    dsimp only at h ⊢
    rw [h]
    rfl

theorem exists_fresh {v : Variables} (h : v.next + 1 < 2 ^ 32) :
    ∃ x w, v.fresh = some (x, w) ∧ w.next = v.next + 1 := by
  unfold Variables.fresh
  rw [if_pos h]
  exact ⟨_, _, rfl, rfl⟩

theorem exists_named {v : Variables} (word : List UInt8) (h : v.next + 1 < 2 ^ 32) :
    ∃ x w, v.named word = some (x, w) ∧ w.next ≤ v.next + 1 := by
  unfold Variables.named
  cases v.names.lookup word with
  | some x => exact ⟨x, v, rfl, Nat.le_succ _⟩
  | none =>
    obtain ⟨x, w, hfresh, hnext⟩ := exists_fresh h
    rw [hfresh]
    exact ⟨x, ⟨(word, x) :: w.names, w.next⟩, rfl, hnext.le⟩

end

/-- The constraints and witnesses of so many calls. -/
structure HasCalls (terms : List ParsedTerm) (calls : ℕ) : Prop where
  constraints : (terms.flatMap ParsedTerm.graphConstraints).length = calls
  witnesses : (terms.flatMap ParsedTerm.witnesses).length = calls
  graphs : ∀ c ∈ terms.flatMap ParsedTerm.graphConstraints, ∃ id ys,
    c = DefinedFormula.definedRelation id ys ∧ ys.length ≤ definitionMaxGraphArity

theorem HasCalls.append {ts us : List ParsedTerm} {m n : ℕ} (h : HasCalls ts m)
    (h' : HasCalls us n) : HasCalls (ts ++ us) (m + n) where
  constraints := by rw [List.flatMap_append, List.length_append, h.constraints, h'.constraints]
  witnesses := by rw [List.flatMap_append, List.length_append, h.witnesses, h'.witnesses]
  graphs := by
    intro c hc
    rw [List.flatMap_append] at hc
    rcases List.mem_append.mp hc with hc | hc
    · exact h.graphs c hc
    · exact h'.graphs c hc

theorem HasCalls.call {ts : List ParsedTerm} {n : ℕ} (h : HasCalls ts n) {id : DefinitionId}
    {x : FreeVariable} (harity : ts.length + 1 ≤ definitionMaxGraphArity) :
    HasCalls [.call id ts x] (n + 1) where
  constraints := by
    rw [List.flatMap_singleton, ParsedTerm.call, List.length_append, h.constraints,
      List.length_singleton]
  witnesses := by
    rw [List.flatMap_singleton, ParsedTerm.call, List.length_append, h.witnesses,
      List.length_singleton]
  graphs := by
    intro c hc
    rw [List.flatMap_singleton, ParsedTerm.call] at hc
    rcases List.mem_append.mp hc with hc | hc
    · exact h.graphs c hc
    · refine ⟨id, ts.map ParsedTerm.freeVariable ++ [x], List.mem_singleton.mp hc, ?_⟩
      rw [List.length_append, List.length_map, List.length_singleton]
      exact harity

/-- Definitions of a context have bounded arities. -/
def BoundedArities (aliases : List UInt8 → Option DefinitionAlias) : Prop :=
  ∀ word a, aliases word = some a → a.kind.graphArity ≤ definitionMaxGraphArity

/-- What the parser of terms did on so many calls. -/
structure TermsDone (budget : TermBudget) (p : Parser) (calls : ℕ) (rest : List UInt8)
    (ts : List ParsedTerm) (budget' : TermBudget) (q : Parser) : Prop where
  functions : budget' = { budget with functions := budget.functions + calls }
  charged : Charged budget.context (7 * calls) p q
  rest : q.rest = rest
  supply : q.supply ≤ p.supply
  calls : HasCalls ts calls

def TermExceeds (budget : TermBudget) (p : Parser) (calls : ℕ) : Prop :=
  Exceeds budget.context p budget.sourceDepth (budget.atomDepth + 6 * (budget.functions + calls))
    (7 * calls)

theorem trivia_trivia (comment : Bool) (text : List UInt8) :
    trivia false (trivia comment text) = trivia comment text := by
  induction text generalizing comment with
  | nil => cases comment <;> rfl
  | cons b text ih =>
    cases comment with
    | true =>
      rw [trivia]
      exact ih _
    | false =>
      rw [trivia]
      split_ifs with hblank hcomment
      · exact ih _
      · exact ih _
      · rw [trivia, if_neg hblank, if_neg hcomment]

/-- A closing parenthesis does not start a name. -/
theorem head_ne_of_name {text word rest : List UInt8}
    (h : name (trivia false text) = some (word, rest)) :
    (trivia false text).head? ≠ some 0x29 := by
  intro hhead
  unfold name at h
  rw [trivia_trivia] at h
  cases htext : trivia false text with
  | nil =>
    rw [htext] at hhead
    cases hhead
  | cons b behind =>
    rw [htext] at hhead h
    cases hhead
    cases h

theorem head_ne_of_comma {text behind : List UInt8}
    (h : punctuation 0x2c (trivia false text) = some behind) :
    (trivia false text).head? ≠ some 0x29 := by
  intro hhead
  unfold punctuation at h
  rw [trivia_trivia] at h
  cases htext : trivia false text with
  | nil =>
    rw [htext] at hhead
    cases hhead
  | cons b behind =>
    rw [htext] at hhead h
    cases hhead
    cases h

theorem Reads.head_ne {aliases : List UInt8 → Option DefinitionAlias} {text rest : List UInt8}
    {s : Term} (h : Reads aliases (trivia false text) s rest) :
    (trivia false text).head? ≠ some 0x29 := by
  cases h with
  | free hname _ => exact head_ne_of_name hname
  | call hname => exact head_ne_of_name hname

theorem callsOf_singleton (s : Term) : Term.callsOf [s] = s.calls := by
  rw [Term.callsOf, Term.callsOf, Nat.add_zero]

variable {aliases : List UInt8 → Option DefinitionAlias}

/-- What `term` yields with so much fuel. -/
def ParsesTerm (aliases : List UInt8 → Option DefinitionAlias) (fuel : ℕ) : Prop :=
  ∀ budget p s rest, Reads aliases p.rest s rest → p.rest.length < fuel →
    p.supply < 2 ^ 32 → budget.sourceDepth ≠ 0 →
    Result (fun r => TermsDone budget p s.calls rest [r.1] r.2.1 r.2.2)
      (TermExceeds budget p s.calls) (term aliases fuel budget p)

/-- The arguments behind those that were read before. -/
def ArgumentsDone (before : List ParsedTerm) (terms : List Term) (budget : TermBudget) (p : Parser)
    (rest : List UInt8) (r : List ParsedTerm × TermBudget × Parser) : Prop :=
  ∃ behind, r.1 = before ++ behind ∧ behind.length = terms.length ∧
    TermsDone budget p (Term.callsOf terms) rest behind r.2.1 r.2.2

/-- What `termArguments` yields with so much fuel. -/
def ParsesArguments (aliases : List UInt8 → Option DefinitionAlias) (fuel : ℕ) : Prop :=
  ∀ offset word arity before budget p terms rest, ReadsArguments aliases p.rest terms rest →
    before.length + terms.length = arity → p.rest.length + 1 < fuel →
    p.supply < 2 ^ 32 → budget.sourceDepth ≠ 0 →
    Result (ArgumentsDone before terms budget p rest) (TermExceeds budget p (Term.callsOf terms))
      (termArguments aliases fuel offset word arity before budget p)

section

variable {fuel : ℕ} {budget budget' budget'' : TermBudget} {p q q' r : Parser} {ts us : List ParsedTerm}
  {m n : ℕ} {rest rest' : List UInt8}

/-- Terms behind others, with bytes between them that charge nothing. -/
theorem TermsDone.trans (h : TermsDone budget p m rest ts budget' q) (hskip : Charged budget.context 0 q q')
    (hsupply : q'.supply ≤ q.supply) (h' : TermsDone budget' q' n rest' us budget'' r) :
    TermsDone budget p (m + n) rest' (ts ++ us) budget'' r := by
  have hbudget := h.functions
  have hcharged := h'.charged
  rw [show budget'.context = budget.context by rw [hbudget]] at hcharged
  refine ⟨?_, ?_, h'.rest, h'.supply.trans (hsupply.trans h.supply), h.calls.append h'.calls⟩
  · rw [h'.functions, hbudget]
    simp only [TermBudget.mk.injEq, true_and]
    omega
  · have hall := (h.charged.trans hskip).trans hcharged
    rwa [show 7 * m + 0 + 7 * n = 7 * (m + n) by omega] at hall

/-- What exceeds the limits behind a term exceeds them with it. -/
theorem TermsDone.exceeds (h : TermsDone budget p m rest ts budget' q)
    (hskip : Charged budget.context 0 q q') (h' : TermExceeds budget' q' n) :
    TermExceeds budget p (m + n) := by
  have hbudget := h.functions
  unfold TermExceeds at h'
  rw [show budget'.context = budget.context by rw [hbudget]] at h'
  refine (h'.of_charged (h.charged.trans hskip)).mono ?_ (by omega)
  rw [hbudget]
  dsimp only
  omega

end

section

variable {fuel : ℕ} {budget : TermBudget} {p : Parser} {word rest : List UInt8}

/-- A name that no parenthesis follows is a variable. -/
theorem result_free (hname : name p.rest = some (word, rest)) (hcall : punctuation 0x28 rest = none)
    (hsupply : p.supply < 2 ^ 32) :
    Result (fun r => TermsDone budget p (Term.free word).calls rest [r.1] r.2.1 r.2.2)
      (TermExceeds budget p (Term.free word).calls) (term aliases (fuel + 1) budget p) := by
  unfold Parser.supply at hsupply
  have hless := length_name hname
  obtain ⟨x, w, hnamed, hnext⟩ := exists_named word (v := p.vars) (by omega)
  simp only [term, readName_eq hname, ok_bind, hcall, Parser.variableNamed, hnamed, Parser.allocate]
  refine .ok ⟨rfl, .of_counter fun c => by cases c <;> rfl, rfl, ?_, ⟨rfl, rfl, by simp⟩⟩
  simp only [Parser.supply]
  omega

/-- A call charges its seven nodes, its arguments, and takes one fresh variable. -/
theorem result_call (haliases : BoundedArities aliases) (ihArguments : ParsesArguments aliases fuel)
    {opened closing behind : List UInt8} {id : DefinitionId} {arity : ℕ} {arguments : List Term}
    (hname : name p.rest = some (word, rest)) (hopen : punctuation 0x28 rest = some opened)
    (halias : aliases word = some ⟨id, .function arity⟩)
    (harguments : ReadsArguments aliases opened arguments closing)
    (harity : arguments.length = arity) (hclose : callEnd closing = some behind)
    (hlt : p.rest.length < fuel + 1) (hsupply : p.supply < 2 ^ 32) (hdepth : budget.sourceDepth ≠ 0) :
    Result (fun r => TermsDone budget p (Term.call id arguments).calls behind [r.1] r.2.1 r.2.2)
      (TermExceeds budget p (Term.call id arguments).calls)
      (term aliases (fuel + 1) budget p) := by
  unfold Parser.supply at hsupply
  have hless := length_name hname
  have hless' := length_punctuation hopen
  have hless'' := length_callEnd hclose
  simp only [term, readName_eq hname, ok_bind, hopen, halias, orError]
  rw [Term.calls]
  refine (result_depth hdepth).bind ?_ ?_
  · intro h
    exact .inl (by omega)
  intro _ _
  refine result_charge.bind ?_ ?_
  · intro h
    right
    have hsame : ({ p with rest := opened } : Parser).counter budget.context =
        p.counter budget.context := by cases budget.context <;> rfl
    rw [hsame] at h
    omega
  rintro p₂ ⟨hcharged, hrest₂, hvars₂⟩
  have hcharged' : Charged budget.context 7 p p₂ := hcharged.after_moved
  have hreads₂ : ReadsArguments aliases p₂.rest arguments closing := by
    rw [hrest₂]
    exact harguments
  have hlen₂ : p₂.rest.length = opened.length := by rw [hrest₂]
  have hnext₂ : p₂.vars.next = p.vars.next := by rw [hvars₂]
  refine (ihArguments _ _ arity [] { budget with functions := budget.functions + 1 } p₂ _ _
    hreads₂ (by simpa using harity) (by omega)
    (by simp only [Parser.supply]; omega) hdepth).bind ?_ ?_
  · intro h
    exact (h.of_charged hcharged').mono (by dsimp only; omega) (by omega)
  rintro ⟨ts, budget', p₃⟩ ⟨terms, hts, hlength, hdone⟩
  dsimp only at hts hdone ⊢
  rw [List.nil_append] at hts
  subst hts
  have hsupply₃ := hdone.supply
  have hrest₃ := hdone.rest
  have hlen₃ : p₃.rest.length = closing.length := by rw [hrest₃]
  simp only [Parser.supply] at hsupply₃
  have hcheck : ensureDefinitionArity p.nextOffset word arity ts.length = .ok () := by
    unfold ensureDefinitionArity require
    rw [if_pos (by rw [hlength, harity])]
  obtain ⟨x, w, hfresh, hnext⟩ := exists_fresh (v := p₃.vars) (by omega)
  rw [← hrest₃] at hclose
  simp only [hcheck, ok_bind, closeCall_eq hclose, Parser.freshVariable, hfresh, Parser.allocate]
  have hgraph := haliases word _ halias
  refine .ok ⟨?_, ?_, rfl, ?_, hdone.calls.call ?_⟩
  · rw [hdone.functions]
    simp only [TermBudget.mk.injEq, true_and]
    omega
  · have hall := hcharged'.trans hdone.charged
    have hsum : 7 + 7 * Term.callsOf arguments = 7 * (Term.callsOf arguments + 1) := by
      omega
    rw [hsum] at hall
    exact hall.and_moved
  · simp only [Parser.supply]
    omega
  · rw [DefinitionKind.graphArity] at hgraph
    rw [hlength, harity]
    exact hgraph

variable {offset arity : ℕ} {before : List ParsedTerm}

theorem result_noArguments (hclose : (trivia false p.rest).head? = some 0x29) :
    Result (ArgumentsDone before [] budget p (trivia false p.rest))
      (TermExceeds budget p (Term.callsOf []))
      (termArguments aliases (fuel + 1) offset word arity before budget p) := by
  have hle : p.skipTrivia.rest.length ≤ p.rest.length := length_trivia _ _
  have hclose' : p.skipTrivia.rest.head? = some 0x29 := hclose
  simp only [termArguments, if_pos hclose']
  refine .ok ⟨[], (List.append_nil _).symm, rfl, rfl, .moved, rfl, ?_, ⟨rfl, rfl, by simp⟩⟩
  simp only [Parser.supply, show p.skipTrivia.vars = p.vars from rfl]
  omega

theorem result_lastArgument (ihTerm : ParsesTerm aliases fuel) {argument : Term}
    (hargument : Reads aliases (trivia false p.rest) argument rest)
    (hclose : (trivia false rest).head? = some 0x29) (harity : before.length + 1 = arity)
    (hlt : p.rest.length < fuel) (hsupply : p.supply < 2 ^ 32) (hdepth : budget.sourceDepth ≠ 0) :
    Result (ArgumentsDone before [argument] budget p (trivia false rest))
      (TermExceeds budget p (Term.callsOf [argument]))
      (termArguments aliases (fuel + 1) offset word arity before budget p) := by
  have hle : p.skipTrivia.rest.length ≤ p.rest.length := length_trivia _ _
  have hvars : p.skipTrivia.vars = p.vars := rfl
  have hskip : Charged budget.context 0 p p.skipTrivia := .moved
  unfold Parser.supply at hsupply
  have hhead : ¬ p.skipTrivia.rest.head? = some 0x29 := hargument.head_ne
  have hroom : before.length ≠ arity := by omega
  simp only [termArguments, if_neg hhead, require, if_pos hroom, ok_bind]
  rw [callsOf_singleton]
  refine (ihTerm budget p.skipTrivia argument rest hargument (by omega)
    (by simp only [Parser.supply, hvars]; omega) hdepth).bind ?_ ?_
  · intro h
    exact (h.of_charged hskip).mono le_rfl (by omega)
  rintro ⟨t, budget', p₁⟩ hdone
  have hsupply₁ := hdone.supply
  have hrest₁ := hdone.rest
  dsimp only at hrest₁ hsupply₁ hdone ⊢
  have hclose' : p₁.skipTrivia.rest.head? = some 0x29 := by
    rw [Parser.skipTrivia, hrest₁]
    exact hclose
  rw [if_pos hclose']
  have hle₁ : p₁.skipTrivia.rest.length ≤ p₁.rest.length := length_trivia _ _
  rw [← callsOf_singleton] at hdone
  refine .ok ⟨[t], rfl, rfl, hdone.functions, ?_, ?_, ?_, hdone.calls⟩
  · have hskip₁ : Charged budget.context 0 p₁ p₁.skipTrivia := .moved
    simpa using (hskip.trans hdone.charged).trans hskip₁
  · rw [Parser.skipTrivia, hrest₁]
  · simp only [Parser.supply, hvars] at hsupply₁ ⊢
    have hvars₁ : p₁.skipTrivia.vars = p₁.vars := rfl
    rw [hvars₁]
    omega

theorem result_nextArgument (ihTerm : ParsesTerm aliases fuel)
    (ihArguments : ParsesArguments aliases fuel) {argument : Term} {arguments : List Term}
    {behind rest' : List UInt8} (hargument : Reads aliases (trivia false p.rest) argument rest)
    (hcomma : punctuation 0x2c (trivia false rest) = some behind)
    (hrest : ReadsArguments aliases behind arguments rest')
    (harity : before.length + (arguments.length + 1) = arity) (hlt : p.rest.length < fuel)
    (hsupply : p.supply < 2 ^ 32) (hdepth : budget.sourceDepth ≠ 0) :
    Result (ArgumentsDone before (argument :: arguments) budget p rest')
      (TermExceeds budget p (Term.callsOf (argument :: arguments)))
      (termArguments aliases (fuel + 1) offset word arity before budget p) := by
  have hle : p.skipTrivia.rest.length ≤ p.rest.length := length_trivia _ _
  have hvars : p.skipTrivia.vars = p.vars := rfl
  have hskip : Charged budget.context 0 p p.skipTrivia := .moved
  unfold Parser.supply at hsupply
  have hhead : ¬ p.skipTrivia.rest.head? = some 0x29 := hargument.head_ne
  have hroom : before.length ≠ arity := by omega
  simp only [termArguments, if_neg hhead, require, if_pos hroom, ok_bind]
  rw [Term.callsOf]
  refine (ihTerm budget p.skipTrivia argument rest hargument (by omega)
    (by simp only [Parser.supply, hvars]; omega) hdepth).bind ?_ ?_
  · intro h
    exact (h.of_charged hskip).mono (by omega) (by omega)
  rintro ⟨t, budget', p₁⟩ hdone
  have hsupply₁ := hdone.supply
  have hrest₁ := hdone.rest
  have hless₁ := hargument.length_lt
  dsimp only at hrest₁ hsupply₁ hdone ⊢
  have hhead₁ : ¬ p₁.skipTrivia.rest.head? = some 0x29 := by
    intro hclose
    rw [Parser.skipTrivia, hrest₁] at hclose
    exact head_ne_of_comma hcomma hclose
  have hcomma₁ : punctuation 0x2c p₁.skipTrivia.rest = some behind := by
    rw [Parser.skipTrivia, hrest₁]
    exact hcomma
  have hless₂ := length_punctuation hcomma
  have hle₁ := length_trivia false rest
  rw [if_neg hhead₁, comma_eq hcomma₁, ok_bind]
  let p₂ : Parser := { p₁.skipTrivia with rest := behind }
  have hskip₁ : Charged budget.context 0 p₁ p₂ := .moved
  have hsupply₂ : p₂.supply ≤ p₁.supply := by
    simp only [p₂, Parser.supply, Parser.skipTrivia, hrest₁]
    omega
  -- the first argument, from where the parser stood before the blanks
  have hfirst : TermsDone budget p argument.calls rest [t] budget' p₁ := by
    refine ⟨hdone.functions, by simpa using hskip.trans hdone.charged, hrest₁, ?_, hdone.calls⟩
    simp only [Parser.supply, hvars] at hsupply₁ ⊢
    omega
  have hsame : p.skipTrivia.rest = trivia false p.rest := rfl
  rw [hsame] at hle
  refine (ihArguments offset word arity (before ++ [t]) budget' p₂ arguments _ hrest ?_ ?_ ?_ ?_).mono
    ?_ ?_
  · rw [List.length_append, List.length_singleton]
    omega
  · simp only [p₂]
    omega
  · have hsupply' := hfirst.supply
    simp only [Parser.supply] at hsupply₂ hsupply' ⊢
    omega
  · rw [hdone.functions]
    exact hdepth
  · rintro ⟨ts, budget'', q⟩ ⟨after, hts, hlength, hdone'⟩
    dsimp only at hts hdone' ⊢
    refine ⟨t :: after, by rw [hts]; simp, by simp [hlength], ?_⟩
    rw [Term.callsOf]
    exact hfirst.trans hskip₁ hsupply₂ hdone'
  · exact fun h => hfirst.exceeds hskip₁ h

end

/-- The parser of terms and that of their arguments, with any fuel. -/
theorem result_term (haliases : BoundedArities aliases) (fuel : ℕ) :
    ParsesTerm aliases fuel ∧ ParsesArguments aliases fuel := by
  induction fuel with
  | zero =>
    refine ⟨?_, ?_⟩
    · intro budget p s rest _ hlt
      exact absurd hlt (Nat.not_lt_zero _)
    · intro offset word arity before budget p terms rest _ _ hlt
      exact absurd hlt (Nat.not_lt_zero _)
  | succ fuel ih =>
    obtain ⟨ihTerm, ihArguments⟩ := ih
    refine ⟨?_, ?_⟩
    · intro budget p s rest hreads hlt hsupply hdepth
      cases hreads with
      | free hname hcall => exact result_free hname hcall hsupply
      | call hname hopen halias harguments harity hclose =>
        exact result_call haliases ihArguments hname hopen halias harguments harity hclose hlt
          hsupply hdepth
    · intro offset word arity before budget p terms rest hreads harity hlt hsupply hdepth
      have hlt : p.rest.length < fuel := by omega
      cases hreads with
      | nil hclose => exact result_noArguments hclose
      | last hargument hclose =>
        exact result_lastArgument ihTerm hargument hclose harity hlt hsupply hdepth
      | cons hargument hcomma hrest =>
        exact result_nextArgument ihTerm ihArguments hargument hcomma hrest harity hlt hsupply hdepth

end Authoring
end Naome
