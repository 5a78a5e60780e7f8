import Naome.AtomLowering
import Naome.FormulaParser

/-!
# The grammar of formulas

Which texts are formulas, with the shape of the formula that each of them lowers to. What the parser
accepts is a formula of the grammar.
-/
namespace Naome
namespace Authoring
open Outcome

namespace Term

mutual

/-- The functions that a term applies, one for each call. -/
def calls : Term → ℕ
  | .free _ => 0
  | .call _ arguments => callsOf arguments + 1

def callsOf : List Term → ℕ
  | [] => 0
  | t :: ts => t.calls + callsOf ts

end

end Term

inductive SourceFormula
  | reference (binding : ParsedFormula)
  | equal (negated : Bool) (left right : Term)
  | member (element set : Term)
  | relation (id : DefinitionId) (arguments : List Term)
  | not (body : SourceFormula)
  | quantified (existential : Bool) (count : ℕ) (body : SourceFormula)
  | binary (connective : Connective) (left right : SourceFormula)

/-- The quantifiers and constraints of so many calls around an atom. -/
def relationalize (calls : ℕ) (atom : DefinedFormula) : DefinedFormula :=
  (DefinedFormula.existsOne ⟨0⟩)^[calls]
    ((DefinedFormula.conjunction (.definedRelation 0 []))^[calls] atom)

/-- The lowered formula, but for its variables. -/
def SourceFormula.shape : SourceFormula → DefinedFormula
  | .reference binding => binding.formula
  | .equal false left right =>
    relationalize (Term.callsOf [left, right]) (.equal ⟨0⟩ ⟨0⟩)
  | .equal true left right =>
    relationalize (Term.callsOf [left, right]) (DefinedFormula.equal ⟨0⟩ ⟨0⟩).negate
  | .member element set => relationalize (Term.callsOf [element, set]) (.member ⟨0⟩ ⟨0⟩)
  | .relation id arguments => relationalize (Term.callsOf arguments) (.definedRelation id [])
  | .not body => body.shape.negate
  | .quantified existential count body => (quantify existential ⟨0⟩)^[count] body.shape
  | .binary connective left right => connective.apply left.shape right.shape

def SourceFormula.nodes (F : SourceFormula) : ℕ := F.shape.node.nodeCount

def SourceFormula.depth (F : SourceFormula) : ℕ := F.shape.node.depth

inductive ReadsNames : List UInt8 → ℕ → List UInt8 → Prop
  | last {text word rest rest' : List UInt8} (hname : name text = some (word, rest))
    (hclose : punctuation 0x5d rest = some rest') : ReadsNames text 1 rest'
  | trailing {text word rest behind rest' : List UInt8} (hname : name text = some (word, rest))
    (hopen : punctuation 0x5d rest = none) (hcomma : punctuation 0x2c rest = some behind)
    (hclose : punctuation 0x5d behind = some rest') : ReadsNames text 1 rest'
  | cons {text word rest behind rest' : List UInt8} {n : ℕ} (hname : name text = some (word, rest))
    (hopen : punctuation 0x5d rest = none) (hcomma : punctuation 0x2c rest = some behind)
    (hopen' : punctuation 0x5d behind = none) (h : ReadsNames behind n rest') :
    ReadsNames text (n + 1) rest'

inductive ReadsBinders : List UInt8 → ℕ → List UInt8 → Prop
  | single {text word rest : List UInt8} (hopen : punctuation 0x5b text = none)
    (hname : name text = some (word, rest)) : ReadsBinders text 1 rest
  | list {text opened rest : List UInt8} {n : ℕ} (hopen : punctuation 0x5b text = some opened)
    (h : ReadsNames opened n rest) : ReadsBinders text n rest

mutual

/-- A text starts with a formula. -/
inductive ReadsFormula (aliases : List UInt8 → Option DefinitionAlias)
    (bindings : List UInt8 → Option ParsedFormula) :
    List UInt8 → SourceFormula → List UInt8 → Prop
  | reference {text word rest : List UInt8} {b : ParsedFormula}
    (hname : name text = some (word, rest)) (hopen : punctuation 0x28 rest = none)
    (hreserved : isReservedBindingName word = false) (hbinding : bindings word = some b) :
    ReadsFormula aliases bindings text (.reference b) rest
  | call {text word rest opened closing rest' : List UInt8} {F : SourceFormula}
    (hname : name text = some (word, rest)) (hopen : punctuation 0x28 rest = some opened)
    (hcall : ReadsCall aliases bindings word opened F closing)
    (hclose : callEnd closing = some rest') : ReadsFormula aliases bindings text F rest'

/-- The inside of a call with a name. -/
inductive ReadsCall (aliases : List UInt8 → Option DefinitionAlias)
    (bindings : List UInt8 → Option ParsedFormula) :
    List UInt8 → List UInt8 → SourceFormula → List UInt8 → Prop
  | equal {word text rest : List UInt8} {left right : Term}
    (hword : Operator.parse word = some .equal) (h : ReadsPair aliases text left right rest) :
    ReadsCall aliases bindings word text (.equal false left right) rest
  | unequal {word text rest : List UInt8} {left right : Term}
    (hword : Operator.parse word = some .unequal) (h : ReadsPair aliases text left right rest) :
    ReadsCall aliases bindings word text (.equal true left right) rest
  | member {word text rest : List UInt8} {element set : Term}
    (hword : Operator.parse word = some .member) (h : ReadsPair aliases text element set rest) :
    ReadsCall aliases bindings word text (.member element set) rest
  | relation {word text rest : List UInt8} {id : DefinitionId} {arity : ℕ} {arguments : List Term}
    (hword : Operator.parse word = none) (halias : aliases word = some ⟨id, .relation arity⟩)
    (harity : arguments.length = arity) (h : ReadsArguments aliases text arguments rest) :
    ReadsCall aliases bindings word text (.relation id arguments) rest
  | not {word text rest : List UInt8} {F : SourceFormula} (hword : Operator.parse word = some .not)
    (h : ReadsFormula aliases bindings text F rest) :
    ReadsCall aliases bindings word text (.not F) rest
  | quantified {word text middle behind rest : List UInt8} {existential : Bool} {count : ℕ}
    {F : SourceFormula} (hword : Operator.parse word = some (.quantifier existential))
    (hbinders : ReadsBinders text count middle) (hcomma : punctuation 0x2c middle = some behind)
    (h : ReadsFormula aliases bindings behind F rest) :
    ReadsCall aliases bindings word text (.quantified existential count F) rest
  | binary {word text middle behind rest : List UInt8} {connective : Connective}
    {F G : SourceFormula} (hword : Operator.parse word = some (.binary connective))
    (hleft : ReadsFormula aliases bindings text F middle)
    (hcomma : punctuation 0x2c middle = some behind)
    (hright : ReadsFormula aliases bindings behind G rest) :
    ReadsCall aliases bindings word text (.binary connective F G) rest

end

section

variable {aliases : List UInt8 → Option DefinitionAlias}
  {bindings : List UInt8 → Option ParsedFormula} {p q : Parser}

theorem openCall_eq_ok {r : Unit} (h : p.openCall = .ok (r, q)) :
    punctuation 0x28 p.rest = some q.rest ∧ q.vars = p.vars := by
  obtain ⟨rest, hread, rfl⟩ := token_eq_ok.1 h
  obtain ⟨rest', hrest, heq⟩ := Option.map_eq_some_iff.mp hread
  cases heq
  exact ⟨hrest, rfl⟩

theorem readsNames_of_bindersFrom {offset remaining : ℕ} {result xs : List FreeVariable}
    (hp : p.vars.Ordered)
    (h : Parser.bindersFrom true offset remaining result p = .ok (xs, q)) :
    q.vars.Ordered ∧ ∃ behind, xs = result ++ behind ∧ ReadsNames p.rest behind.length q.rest := by
  induction remaining generalizing result p with
  | zero => cases h
  | succ remaining ih =>
    simp only [Parser.bindersFrom, bind_eq_ok, orError_eq_ok, Bool.true_eq_false, if_false] at h
    obtain ⟨⟨word, p₁⟩, htoken, ⟨x, vars⟩, hnamed, h⟩ := h
    obtain ⟨rest, hname, rfl⟩ := token_eq_ok.1 htoken
    have hvars : vars.Ordered := (Variables.Later.named .refl hnamed).ordered hp
    dsimp only at h
    cases hclose : punctuation 0x5d rest with
    | some rest' =>
      rw [hclose] at h
      cases h
      exact ⟨hvars, [x], rfl, .last hname hclose⟩
    | none =>
      rw [hclose] at h
      simp only [bind_eq_ok] at h
      obtain ⟨⟨_, p₂⟩, hcommaToken, h⟩ := h
      obtain ⟨hcomma, hvars₂⟩ := comma_eq_ok hcommaToken
      dsimp only at h
      have hordered : p₂.vars.Ordered := by
        rw [hvars₂]
        exact hvars
      cases hclose' : punctuation 0x5d p₂.rest with
      | some rest' =>
        rw [hclose'] at h
        cases h
        exact ⟨hordered, [x], rfl, .trailing hname hclose hcomma hclose'⟩
      | none =>
        rw [hclose'] at h
        obtain ⟨hq, behind, rfl, hreads⟩ := ih hordered h
        refine ⟨hq, x :: behind, by simp, ?_⟩
        exact .cons hname hclose hcomma hclose' hreads

theorem readsName_of_bindersFrom {offset remaining : ℕ} {result xs : List FreeVariable}
    (hp : p.vars.Ordered)
    (h : Parser.bindersFrom false offset (remaining + 1) result p = .ok (xs, q)) :
    q.vars.Ordered ∧ ∃ x word, xs = result ++ [x] ∧ name p.rest = some (word, q.rest) := by
  simp only [Parser.bindersFrom, bind_eq_ok, orError_eq_ok, if_true, pure_eq_ok] at h
  obtain ⟨⟨word, p₁⟩, htoken, ⟨x, vars⟩, hnamed, heq⟩ := h
  obtain ⟨rest, hname, rfl⟩ := token_eq_ok.1 htoken
  cases heq
  exact ⟨(Variables.Later.named .refl hnamed).ordered hp, x, word, rfl, hname⟩

theorem readsBinders_of_binders {offset : ℕ} {xs : List FreeVariable} (hp : p.vars.Ordered)
    (h : p.binders offset = .ok (xs, q)) :
    q.vars.Ordered ∧ ReadsBinders p.rest xs.length q.rest := by
  unfold Parser.binders at h
  cases hopen : punctuation 0x5b p.rest with
  | some opened =>
    rw [hopen] at h
    obtain ⟨hq, behind, rfl, hreads⟩ := readsNames_of_bindersFrom
      (show ({ p with rest := opened } : Parser).vars.Ordered from hp) h
    exact ⟨hq, .list hopen hreads⟩
  | none =>
    rw [hopen] at h
    obtain ⟨hq, x, word, rfl, hname⟩ := readsName_of_bindersFrom hp h
    exact ⟨hq, .single hopen hname⟩

/-- Accepted atoms are atoms of the grammar. -/
theorem readsPair_of_relationalized {budget : TermBudget} {left right : ParsedTerm} {p₁ : Parser}
    {atom : List FreeVariable → DefinedFormula} {offset sourceDepth atomDepth : ℕ}
    {context : FormulaContext} {f : ParsedFormula} (hp : p.vars.Ordered)
    (hpair : termPair aliases budget p = .ok (left, right, p₁))
    (h : relationalizedFormula [left, right] atom offset context sourceDepth atomDepth p₁ =
      .ok (f, q)) :
    q.vars.Ordered ∧ ∃ s t, ReadsPair aliases p.rest s t q.rest := by
  obtain ⟨s, t, hreads, hlowered⟩ := termPair_spec.{0} hp hpair
  obtain ⟨-, hrest, hvars⟩ := relationalizedFormula_eq_ok h
  rw [hrest, hvars]
  exact ⟨hlowered.later.ordered hp, s, t, hreads⟩

theorem readsCall_of_equal {offset depth : ℕ} {context : FormulaContext} {negated : Bool}
    {f : ParsedFormula} (hp : p.vars.Ordered)
    (h : parseEqual aliases offset depth context negated p = .ok (f, q)) :
    q.vars.Ordered ∧ ∃ s t, ReadsPair aliases p.rest s t q.rest := by
  simp only [parseEqual, bind_eq_ok] at h
  obtain ⟨⟨left, right, p₁⟩, hpair, h⟩ := h
  exact readsPair_of_relationalized hp hpair h

theorem readsCall_of_member {offset depth : ℕ} {context : FormulaContext} {f : ParsedFormula}
    (hp : p.vars.Ordered) (h : parseMember aliases offset depth context p = .ok (f, q)) :
    q.vars.Ordered ∧ ∃ s t, ReadsPair aliases p.rest s t q.rest := by
  simp only [parseMember, bind_eq_ok] at h
  obtain ⟨⟨left, right, p₁⟩, hpair, h⟩ := h
  exact readsPair_of_relationalized hp hpair h

theorem readsCall_of_relation {offset depth : ℕ} {word : List UInt8} {context : FormulaContext}
    {f : ParsedFormula} (hp : p.vars.Ordered)
    (h : parseDefinedRelation aliases offset word context depth p = .ok (f, q)) :
    q.vars.Ordered ∧ ∃ id arity arguments, aliases word = some ⟨id, .relation arity⟩ ∧
      arguments.length = arity ∧ ReadsArguments aliases p.rest arguments q.rest := by
  simp only [parseDefinedRelation, bind_eq_ok, orError_eq_ok] at h
  obtain ⟨⟨id, kind⟩, halias, h⟩ := h
  cases kind with
  | function arity => cases h
  | relation arity =>
    simp only [bind_eq_ok, ensureDefinitionArity, require_eq_ok, exists_const] at h
    obtain ⟨⟨arguments, budget₁, p₁⟩, harguments, harity, h⟩ := h
    obtain ⟨_, rfl, terms, hreads, hlowered⟩ :=
      (lowers.{0} _).2 _ _ _ _ _ _ _ _ _ hp harguments
    obtain ⟨-, hrest, hvars⟩ := relationalizedFormula_eq_ok h
    rw [hrest, hvars]
    refine ⟨hlowered.later.ordered hp, id, arity, terms, halias, ?_, hreads⟩
    rw [← hlowered.length, List.length_map]
    exact harity

/-- What the parser accepts is a formula of the grammar. -/
theorem readsFormula_of_parseFormula {fuel depth : ℕ} {context : FormulaContext}
    {f : ParsedFormula} (hp : p.vars.Ordered)
    (h : parseFormula aliases bindings fuel context depth p = .ok (f, q)) :
    q.vars.Ordered ∧ ∃ F, ReadsFormula aliases bindings p.rest F q.rest := by
  induction fuel generalizing depth p f q with
  | zero => cases h
  | succ fuel ih =>
    simp only [parseFormula, bind_eq_ok] at h
    obtain ⟨⟨word, p₁⟩, htoken, h⟩ := h
    obtain ⟨rest, hname, rfl⟩ := token_eq_ok.1 htoken
    dsimp only at h
    split_ifs at h with hreference
    · simp only [bindingReference, bind_eq_ok, orError_eq_ok, pure_eq_ok] at h
      obtain ⟨b, hbinding, p₂, hcharge, _, -, heq⟩ := h
      cases heq
      obtain ⟨hrest, hvars⟩ := chargeFormulaNodes_eq_ok hcharge
      refine ⟨?_, .reference f, ?_⟩
      · rw [hvars]
        exact hp
      · rw [hrest]
        exact .reference hname hreference.1 hreference.2 hbinding
    · simp only [bind_eq_ok, pure_eq_ok] at h
      obtain ⟨p₂, hcharge, _, -, ⟨_, p₃⟩, hopenToken, ⟨g, p₄⟩, hbody, ⟨_, p₅⟩, hclose, heq⟩ := h
      cases heq
      obtain ⟨hrest₂, hvars₂⟩ := chargeFormulaNodes_eq_ok hcharge
      obtain ⟨hopen, hvars₃⟩ := openCall_eq_ok hopenToken
      obtain ⟨hcloses, hvars₅⟩ := closeCall_eq_ok hclose
      have hp₃ : p₃.vars.Ordered := by
        rw [hvars₃, hvars₂]
        exact hp
      rw [hrest₂] at hopen
      have hbodySpec : p₄.vars.Ordered ∧
          ∃ F, ReadsCall aliases bindings word p₃.rest F p₄.rest := by
        dsimp only [callBody] at hbody
        cases hword : Operator.parse word with
        | none =>
          rw [hword] at hbody
          obtain ⟨hq, id, arity, arguments, halias, harity, hreads⟩ :=
            readsCall_of_relation hp₃ hbody
          exact ⟨hq, _, .relation hword halias harity hreads⟩
        | some op =>
          rw [hword] at hbody
          cases op with
          | equal =>
            obtain ⟨hq, s, t, hreads⟩ := readsCall_of_equal hp₃ hbody
            exact ⟨hq, _, .equal hword hreads⟩
          | unequal =>
            obtain ⟨hq, s, t, hreads⟩ := readsCall_of_equal hp₃ hbody
            exact ⟨hq, _, .unequal hword hreads⟩
          | member =>
            obtain ⟨hq, s, t, hreads⟩ := readsCall_of_member hp₃ hbody
            exact ⟨hq, _, .member hword hreads⟩
          | not =>
            simp only [bind_eq_ok, pure_eq_ok] at hbody
            obtain ⟨⟨body, p₆⟩, hparse, _, -, heq⟩ := hbody
            cases heq
            obtain ⟨hq, F, hreads⟩ := ih hp₃ hparse
            exact ⟨hq, _, .not hword hreads⟩
          | quantifier existential =>
            simp only [bind_eq_ok, pure_eq_ok] at hbody
            obtain ⟨⟨xs, p₆⟩, hbinders, ⟨_, p₇⟩, hcommaToken, _, -, p₈, hcharge', ⟨body, p₉⟩,
              hparse, _, -, heq⟩ := hbody
            cases heq
            obtain ⟨hp₆, hreadsBinders⟩ := readsBinders_of_binders hp₃ hbinders
            obtain ⟨hcomma, hvars₇⟩ := comma_eq_ok hcommaToken
            obtain ⟨hrest₈, hvars₈⟩ := chargeFormulaNodes_eq_ok hcharge'
            have hp₈ : p₈.vars.Ordered := by
              rw [hvars₈, hvars₇]
              exact hp₆
            obtain ⟨hq, F, hreads⟩ := ih hp₈ hparse
            rw [hrest₈] at hreads
            exact ⟨hq, _, .quantified hword hreadsBinders hcomma hreads⟩
          | binary connective =>
            simp only [binary, bind_eq_ok, pure_eq_ok] at hbody
            obtain ⟨⟨left, p₆⟩, hleft, ⟨_, p₇⟩, hcommaToken, ⟨right, p₈⟩, hright, p₉, hcharge', _,
              -, heq⟩ := hbody
            cases heq
            obtain ⟨hp₆, F, hreadsLeft⟩ := ih hp₃ hleft
            obtain ⟨hcomma, hvars₇⟩ := comma_eq_ok hcommaToken
            have hp₇ : p₇.vars.Ordered := by
              rw [hvars₇]
              exact hp₆
            obtain ⟨hp₈, G, hreadsRight⟩ := ih hp₇ hright
            obtain ⟨hrest₉, hvars₉⟩ := chargeFormulaNodes_eq_ok hcharge'
            rw [hrest₉, hvars₉]
            exact ⟨hp₈, _, .binary hword hreadsLeft hcomma hreadsRight⟩
      obtain ⟨hp₄, F, hcall⟩ := hbodySpec
      refine ⟨?_, F, .call hname hopen hcall hcloses⟩
      rw [hvars₅]
      exact hp₄

end

end Authoring
end Naome
