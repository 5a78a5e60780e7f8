import Naome.TermLowering

/-!
# The meaning of parsed atoms

An atom that the parser accepts is true exactly when its relation holds of the values of its terms.
-/
namespace Naome
namespace Authoring
open Outcome

universe u

/-- The end of a call, with an optional comma. -/
def callEnd (text : List UInt8) : Option (List UInt8) :=
  match punctuation 0x2c text with
  | some rest => punctuation 0x29 rest
  | none => punctuation 0x29 text

mutual

/-- A text starts with a term. -/
inductive Reads (aliases : List UInt8 → Option DefinitionAlias) :
    List UInt8 → Term → List UInt8 → Prop
  | free {text word rest : List UInt8} (hname : name text = some (word, rest))
    (hcall : punctuation 0x28 rest = none) : Reads aliases text (.free word) rest
  | call {text word rest opened closing rest' : List UInt8} {id : DefinitionId} {arity : ℕ}
    {arguments : List Term} (hname : name text = some (word, rest))
    (hopen : punctuation 0x28 rest = some opened)
    (halias : aliases word = some ⟨id, .function arity⟩)
    (harguments : ReadsArguments aliases opened arguments closing)
    (harity : arguments.length = arity) (hclose : callEnd closing = some rest') :
    Reads aliases text (.call id arguments) rest'

/-- Terms with commas between them, and behind the last one if it is there. -/
inductive ReadsArguments (aliases : List UInt8 → Option DefinitionAlias) :
    List UInt8 → List Term → List UInt8 → Prop
  | nil {text : List UInt8} (h : (trivia false text).head? = some 0x29) :
    ReadsArguments aliases text [] (trivia false text)
  | last {text rest : List UInt8} {argument : Term}
    (h : Reads aliases (trivia false text) argument rest)
    (hclose : (trivia false rest).head? = some 0x29) :
    ReadsArguments aliases text [argument] (trivia false rest)
  | cons {text rest behind rest' : List UInt8} {argument : Term} {arguments : List Term}
    (h : Reads aliases (trivia false text) argument rest)
    (hcomma : punctuation 0x2c (trivia false rest) = some behind)
    (hrest : ReadsArguments aliases behind arguments rest') :
    ReadsArguments aliases text (argument :: arguments) rest'

end

section

variable {α : Type} {p q : Parser} {a : α} {expected : String}

theorem token_eq_ok {read : Option (α × List UInt8)} :
    p.token expected read = .ok (a, q) ↔
      ∃ rest, read = some (a, rest) ∧ q = { p with rest := rest } := by
  unfold Parser.token
  cases read with
  | none => simp
  | some r =>
    obtain ⟨b, rest⟩ := r
    simp only [Except.ok.injEq, Prod.mk.injEq, Option.some.injEq]
    constructor
    · rintro ⟨hb, hq⟩
      exact ⟨rest, ⟨hb, rfl⟩, hq.symm⟩
    · rintro ⟨rest', ⟨hb, hrest⟩, hq⟩
      exact ⟨hb, hrest ▸ hq.symm⟩

theorem allocate_eq_ok {allocated : Option (α × Variables)} :
    p.allocate allocated = .ok (a, q) ↔
      ∃ vars, allocated = some (a, vars) ∧ q = { p with vars := vars } := by
  unfold Parser.allocate
  cases allocated with
  | none => simp
  | some r =>
    obtain ⟨b, vars⟩ := r
    simp only [Except.ok.injEq, Prod.mk.injEq, Option.some.injEq]
    constructor
    · rintro ⟨hb, hq⟩
      exact ⟨vars, ⟨hb, rfl⟩, hq.symm⟩
    · rintro ⟨vars', ⟨hb, hvars⟩, hq⟩
      exact ⟨hb, hvars ▸ hq.symm⟩

theorem comma_eq_ok {r : Unit} (h : p.comma = .ok (r, q)) :
    punctuation 0x2c p.rest = some q.rest ∧ q.vars = p.vars := by
  obtain ⟨rest, hread, rfl⟩ := token_eq_ok.1 h
  obtain ⟨rest', hrest, heq⟩ := Option.map_eq_some_iff.mp hread
  cases heq
  exact ⟨hrest, rfl⟩

theorem closeCall_eq_ok {r : Unit} (h : p.closeCall = .ok (r, q)) :
    callEnd p.rest = some q.rest ∧ q.vars = p.vars := by
  unfold Parser.closeCall at h
  unfold callEnd
  obtain ⟨rest, hread, rfl⟩ := token_eq_ok.1 h
  obtain ⟨rest', hrest, heq⟩ := Option.map_eq_some_iff.mp hread
  cases heq
  cases hcomma : punctuation 0x2c p.rest with
  | none =>
    rw [hcomma] at hrest
    exact ⟨hrest, rfl⟩
  | some behind =>
    rw [hcomma] at hrest
    exact ⟨hrest, rfl⟩

theorem chargeFormulaNodes_eq_ok {additional offset : ℕ} {context : FormulaContext}
    (h : p.chargeFormulaNodes additional offset context = .ok q) :
    q.rest = p.rest ∧ q.vars = p.vars := by
  cases context <;>
  · simp only [Parser.chargeFormulaNodes, bind_eq_ok, pure_eq_ok] at h
    obtain ⟨_, -, rfl⟩ := h
    exact ⟨rfl, rfl⟩

end

variable {aliases : List UInt8 → Option DefinitionAlias}

/-- A parsed term is a term of the grammar with its constraints. -/
def LowersTerm (aliases : List UInt8 → Option DefinitionAlias) (p q : Parser) (t : ParsedTerm) :
    Prop :=
  ∃ s, Reads aliases p.rest s q.rest ∧
    Lowered.{u} p.vars q.vars [s] [t.freeVariable] t.graphConstraints t.witnesses

def LowersArguments (aliases : List UInt8 → Option DefinitionAlias) (p q : Parser)
    (arguments : List ParsedTerm) : Prop :=
  ∃ terms, ReadsArguments aliases p.rest terms q.rest ∧
    Lowered.{u} p.vars q.vars terms (arguments.map ParsedTerm.freeVariable)
      (arguments.flatMap ParsedTerm.graphConstraints) (arguments.flatMap ParsedTerm.witnesses)

theorem lowers (fuel : ℕ) :
    (∀ budget p t budget' q, p.vars.Ordered →
      term aliases fuel budget p = .ok (t, budget', q) → LowersTerm.{u} aliases p q t) ∧
    ∀ offset word arity before budget p arguments budget' q, p.vars.Ordered →
      termArguments aliases fuel offset word arity before budget p = .ok (arguments, budget', q) →
      ∃ behind, arguments = before ++ behind ∧ LowersArguments.{u} aliases p q behind := by
  induction fuel with
  | zero =>
    refine ⟨?_, ?_⟩
    · intro budget p t budget' q _ h
      cases h
    · intro offset word arity before budget p arguments budget' q _ h
      cases h
  | succ fuel ih =>
    obtain ⟨ihTerm, ihArguments⟩ := ih
    refine ⟨?_, ?_⟩
    · intro budget p t budget' q hp h
      simp only [term, bind_eq_ok] at h
      obtain ⟨⟨word, p₁⟩, htoken, h⟩ := h
      obtain ⟨rest, hname, rfl⟩ := token_eq_ok.1 htoken
      dsimp only at h
      cases hopen : punctuation 0x28 rest with
      | none =>
        simp only [hopen, bind_eq_ok, pure_eq_ok] at h
        obtain ⟨⟨x, p₂⟩, hallocate, heq⟩ := h
        obtain ⟨vars, hnamed, rfl⟩ := allocate_eq_ok.1 hallocate
        cases heq
        exact ⟨.free word, .free hname hopen, .free hnamed⟩
      | some opened =>
        simp only [hopen, bind_eq_ok, orError_eq_ok] at h
        obtain ⟨⟨id, kind⟩, halias, h⟩ := h
        cases kind with
        | relation arity => cases h
        | function arity =>
          simp only [bind_eq_ok, pure_eq_ok, ensureDefinitionArity, require_eq_ok,
            exists_const] at h
          obtain ⟨-, -, p₂, hcharge, ⟨arguments, budget₁, p₃⟩, harguments, harity, ⟨_, p₄⟩, hclose,
            ⟨output, p₅⟩, hallocate, heq⟩ := h
          obtain ⟨hrest₂, hvars₂⟩ := chargeFormulaNodes_eq_ok hcharge
          obtain ⟨_, rfl, terms, hreads, hlowered⟩ :=
            ihArguments _ _ _ _ _ _ _ _ _ (by rw [hvars₂]; exact hp) harguments
          obtain ⟨hcloses, hvars₄⟩ := closeCall_eq_ok hclose
          obtain ⟨vars, hfresh, rfl⟩ := allocate_eq_ok.1 hallocate
          cases heq
          rw [hrest₂] at hreads
          rw [hvars₂] at hlowered
          rw [hvars₄] at hfresh
          refine ⟨.call id terms, .call hname hopen halias hreads ?_ hcloses, ?_⟩
          · rw [← hlowered.length, List.length_map]
            exact harity
          · exact hlowered.call (hlowered.later.ordered hp) hfresh
    · intro offset word arity before budget p arguments budget' q hp h
      simp only [termArguments] at h
      split_ifs at h with hclosed
      · rw [pure_eq_ok] at h
        cases h
        exact ⟨[], (List.append_nil _).symm, [], .nil hclosed, .nil⟩
      · simp only [bind_eq_ok, require_eq_ok, exists_const] at h
        obtain ⟨-, ⟨argument, budget₁, p₁⟩, hterm, h⟩ := h
        obtain ⟨s, hreads, hlowered⟩ := ihTerm _ p.skipTrivia _ _ _ hp hterm
        dsimp only at h
        split_ifs at h with hclosed'
        · rw [pure_eq_ok] at h
          cases h
          refine ⟨[argument], rfl, [s], .last hreads hclosed', ?_⟩
          rw [List.map_singleton, List.flatMap_singleton, List.flatMap_singleton]
          exact hlowered
        · simp only [bind_eq_ok] at h
          obtain ⟨⟨_, p₂⟩, htoken, h⟩ := h
          obtain ⟨hcomma, hvars₂⟩ := comma_eq_ok htoken
          have hordered : p₁.vars.Ordered := hlowered.later.ordered hp
          obtain ⟨behind, rfl, terms, hreads', hlowered'⟩ :=
            ihArguments _ _ _ _ _ _ _ _ _ (by rw [hvars₂]; exact hordered) h
          refine ⟨argument :: behind, by simp, s :: terms, .cons hreads hcomma hreads', ?_⟩
          rw [hvars₂] at hlowered'
          exact hlowered.append hordered hlowered'

theorem length_trivia (comment : Bool) (text : List UInt8) :
    (trivia comment text).length ≤ text.length := by
  induction text generalizing comment with
  | nil => cases comment <;> exact le_rfl
  | cons b text ih =>
    rw [List.length_cons]
    cases comment with
    | true =>
      rw [trivia]
      exact Nat.le_succ_of_le (ih _)
    | false =>
      rw [trivia]
      split_ifs
      · exact Nat.le_succ_of_le (ih _)
      · exact Nat.le_succ_of_le (ih _)
      · exact le_rfl

theorem length_punctuation {expected : UInt8} {text rest : List UInt8}
    (h : punctuation expected text = some rest) : rest.length < text.length := by
  unfold punctuation at h
  have hle := length_trivia false text
  split at h
  · cases h
  · next b behind heq =>
    split_ifs at h
    cases h
    rw [heq, List.length_cons] at hle
    omega

theorem length_name {text word rest : List UInt8} (h : name text = some (word, rest)) :
    rest.length < text.length := by
  unfold name at h
  have hle := length_trivia false text
  split at h
  · cases h
  · next b behind heq =>
    split_ifs at h
    cases h
    rw [heq, List.length_cons] at hle
    have hdrop := (List.dropWhile_sublist (l := behind) nameByte).length_le
    omega

theorem length_callEnd {text rest : List UInt8} (h : callEnd text = some rest) :
    rest.length < text.length := by
  unfold callEnd at h
  split at h
  · next behind hcomma => exact (length_punctuation h).trans (length_punctuation hcomma)
  · exact length_punctuation h

mutual

theorem Reads.length_lt {text rest : List UInt8} {s : Term} (h : Reads aliases text s rest) :
    rest.length < text.length :=
  match h with
  | .free hname _ => length_name hname
  | .call hname hopen _ harguments _ hclose => by
    have hle := harguments.length_le
    have hlt := length_name hname
    have hlt' := length_punctuation hopen
    have hlt'' := length_callEnd hclose
    omega

theorem ReadsArguments.length_le {text rest : List UInt8} {terms : List Term}
    (h : ReadsArguments aliases text terms rest) : rest.length ≤ text.length :=
  match h with
  | .nil _ => length_trivia _ _
  | .last hargument _ => by
    have hlt := hargument.length_lt
    exact (length_trivia _ _).trans (hlt.le.trans (length_trivia _ _))
  | .cons hargument hcomma hrest => by
    have hlt := hargument.length_lt
    have hlt' := (length_punctuation hcomma).trans_le (length_trivia _ _)
    have hle := hrest.length_le
    have hle' := length_trivia false text
    omega

end

section

variable {α : Type} {p : Parser}

theorem token_ne_cut {expected : String} {read : Option (α × List UInt8)} :
    p.token expected read ≠ .error .cut := by
  unfold Parser.token
  cases read with
  | none =>
    intro h
    cases h
  | some r =>
    intro h
    cases h

theorem allocate_ne_cut {allocated : Option (α × Variables)} :
    p.allocate allocated ≠ .error .cut := by
  unfold Parser.allocate
  cases allocated with
  | none =>
    intro h
    cases h
  | some r =>
    intro h
    cases h

theorem chargeFormulaNodes_ne_cut {additional offset : ℕ} {context : FormulaContext} :
    p.chargeFormulaNodes additional offset context ≠ .error .cut := by
  intro h
  cases context <;> simp [Parser.chargeFormulaNodes, bind_eq_error, pure, Except.pure] at h

theorem orError_ne_cut {reason : CompileError} {o : Option α} :
    orError (Halt.error reason) o ≠ .error .cut := by
  cases o with
  | none =>
    intro h
    cases h
  | some a =>
    intro h
    cases h

end

/-- The bytes that are left bound the recursion. -/
theorem term_ne_cut (fuel : ℕ) :
    (∀ budget p, p.vars.Ordered → p.rest.length < fuel →
      term aliases fuel budget p ≠ .error .cut) ∧
    ∀ offset word arity before budget p, p.vars.Ordered → p.rest.length + 1 < fuel →
      termArguments aliases fuel offset word arity before budget p ≠ .error .cut := by
  induction fuel with
  | zero =>
    refine ⟨?_, ?_⟩
    · intro budget p _ hlt
      exact absurd hlt (Nat.not_lt_zero _)
    · intro offset word arity before budget p _ hlt
      exact absurd hlt (Nat.not_lt_zero _)
  | succ fuel ih =>
    obtain ⟨ihTerm, ihArguments⟩ := ih
    refine ⟨?_, ?_⟩
    · intro budget p hp hlt h
      simp only [term, bind_eq_error] at h
      rcases h with h | ⟨⟨word, p₁⟩, htoken, h⟩
      · exact token_ne_cut h
      obtain ⟨rest, hname, rfl⟩ := token_eq_ok.1 htoken
      have hless := length_name hname
      dsimp only at h
      cases hopen : punctuation 0x28 rest with
      | none =>
        simp only [hopen, bind_eq_error] at h
        rcases h with h | ⟨_, _, h⟩
        · exact allocate_ne_cut h
        · cases h
      | some opened =>
        have hless' := length_punctuation hopen
        simp only [hopen, bind_eq_error] at h
        rcases h with h | ⟨⟨id, kind⟩, -, h⟩
        · exact orError_ne_cut h
        cases kind with
        | relation arity => cases h
        | function arity =>
          simp only [bind_eq_error, Parser.checkExpandedDepth, require_eq_error, reduceCtorEq,
            and_false, false_or, ensureDefinitionArity] at h
          obtain ⟨-, -, h | ⟨p₂, hcharge, h⟩⟩ := h
          · exact chargeFormulaNodes_ne_cut h
          obtain ⟨hrest₂, hvars₂⟩ := chargeFormulaNodes_eq_ok hcharge
          rcases h with h | ⟨_, _, _, _, h⟩
          · apply ihArguments _ _ _ _ _ _ _ _ h
            · rw [hvars₂]
              exact hp
            · rw [hrest₂]
              dsimp only
              omega
          rcases h with h | ⟨_, _, h⟩
          · exact token_ne_cut h
          rcases h with h | ⟨_, _, h⟩
          · exact allocate_ne_cut h
          · cases h
    · intro offset word arity before budget p hp hlt h
      simp only [termArguments] at h
      split_ifs at h with hclosed
      · cases h
      · have hle : p.skipTrivia.rest.length ≤ p.rest.length := length_trivia _ _
        simp only [bind_eq_error, require_eq_error, reduceCtorEq, and_false, false_or] at h
        obtain ⟨-, -, h | ⟨⟨argument, budget₁, p₁⟩, hterm, h⟩⟩ := h
        · exact ihTerm budget p.skipTrivia hp (by omega) h
        obtain ⟨s, hreads, hlowered⟩ := (lowers.{0} fuel).1 _ p.skipTrivia _ _ _ hp hterm
        have hless := hreads.length_lt
        dsimp only at h
        split_ifs at h with hclosed'
        · cases h
        · rw [bind_eq_error] at h
          rcases h with h | ⟨⟨_, p₂⟩, htoken, h⟩
          · exact token_ne_cut h
          obtain ⟨hcomma, hvars₂⟩ := comma_eq_ok htoken
          have hle' := length_trivia false p₁.rest
          have hless' := length_punctuation hcomma
          apply ihArguments _ _ _ _ _ _ _ _ h
          · rw [hvars₂]
            exact hlowered.later.ordered hp
          · have hsame : p₁.skipTrivia.rest = trivia false p₁.rest := rfl
            rw [hsame] at hless'
            dsimp only
            omega

/-- What an atom of the source says about the values of its terms. -/
inductive Atom
  | equal
  | unequal
  | member
  | relation (id : DefinitionId)

def Atom.Of {M : Type u} (I : Interpretation M) : Atom → List M → Prop
  | .equal, [left, right] => left = right
  | .unequal, [left, right] => left ≠ right
  | .member, [element, set] => I.membership element set
  | .relation id, values => I.Relates id values
  | _, _ => False

/-- The formula of an atom over variables. -/
def Atom.formula : Atom → List FreeVariable → DefinedFormula
  | .equal, [left, right] => .equal left right
  | .unequal, [left, right] => (DefinedFormula.equal left right).negate
  | .member, [element, set] => .member element set
  | .relation id, xs => .definedRelation id xs
  | _, _ => .equal ⟨0⟩ ⟨0⟩

/-- Relations are binary, but for those that are defined. -/
def Atom.Fits (atom : Atom) (xs : List FreeVariable) : Prop :=
  (∃ id, atom = .relation id) ∨ ∃ left right, xs = [left, right]

theorem Atom.holds_formula {atom : Atom} {xs : List FreeVariable} (h : atom.Fits xs) {M : Type u}
    (I : Interpretation M) (σ : FreeVariable → M) :
    I.Holds σ (atom.formula xs) ↔ atom.Of I (xs.map σ) := by
  rcases h with ⟨id, rfl⟩ | ⟨left, right, rfl⟩
  · rw [formula, Of]
    · exact DefinedFormula.holds_definedRelation
  · cases atom with
    | equal => exact Iff.rfl
    | unequal => exact Iff.rfl
    | member => exact Iff.rfl
    | relation id => exact DefinedFormula.holds_definedRelation

theorem Atom.mem_of_mem_formula {atom : Atom} {xs : List FreeVariable} (h : atom.Fits xs)
    {x : FreeVariable} (hx : x ∈ (atom.formula xs).node.occurrences) : x ∈ xs := by
  rcases h with ⟨id, rfl⟩ | ⟨left, right, rfl⟩
  · exact DefinedFormula.mem_occurrences_definedRelation.1 hx
  · cases atom with
    | equal => exact hx
    | unequal => exact hx
    | member => exact hx
    | relation id => exact DefinedFormula.mem_occurrences_definedRelation.1 hx

/-- A formula of the parser that means an atom with terms. -/
structure MeansAtom (v w : Variables) (atom : Atom) (terms : List Term) (f : DefinedFormula) :
    Prop where
  later : v.Later w
  witnesses : ∃ xs, ∃ constraints : List DefinedFormula, ∃ hidden : List FreeVariable,
    f = hidden.foldr DefinedFormula.existsOne
      (constraints.foldr DefinedFormula.conjunction (atom.formula xs)) ∧
    (∀ c ∈ constraints, ∃ id ys, c = DefinedFormula.definedRelation id ys) ∧
    ∀ x ∈ hidden, x ∉ f.freeVariables ∧
      ∀ u, w.Later u → ∀ word, u.names.lookup word ≠ some x
  named : ∀ x ∈ f.freeVariables, ∃ word, w.names.lookup word = some x
  truth : ∀ (M : Type u) (I : Interpretation M), Term.AllFunctional I terms → ∀ ρ names,
    (∀ word x, w.names.lookup word = some x → names word = ρ x) →
    (I.Holds ρ f ↔ atom.Of I (Term.values I names terms)) ∧
    ∀ resolver maximumNodes formula used, DefinitionExpansion.Resolved resolver I.bodyOf f.node →
      f.expandWithNodeLimit resolver maximumNodes = .ok (formula, used) →
      (formula.Holds I.membership ρ ↔ atom.Of I (Term.values I names terms))

theorem Lowered.meansAtom {v w : Variables} {terms : List Term} {xs witnesses : List FreeVariable}
    {constraints : List DefinedFormula} (h : Lowered.{u} v w terms xs constraints witnesses)
    {atom : Atom} (hfits : atom.Fits xs) :
    MeansAtom.{u} v w atom terms (witnesses.foldr DefinedFormula.existsOne
      (constraints.foldr DefinedFormula.conjunction (atom.formula xs))) := by
  have hfree : ∀ x, x ∈ (witnesses.foldr DefinedFormula.existsOne (constraints.foldr
      DefinedFormula.conjunction (atom.formula xs))).freeVariables →
      x ∉ witnesses ∧ ∃ word, w.names.lookup word = some x := by
    intro x hx
    rw [← Std.TreeSet.mem_toList, DefinitionCertificate.mem_freeVariables_toList,
      DefinedFormula.mem_occurrences_foldr_existsOne,
      DefinedFormula.mem_occurrences_foldr_conjunction] at hx
    obtain ⟨hoccurs, hnot⟩ := hx
    refine ⟨hnot, ?_⟩
    rcases hoccurs with ⟨c, hc, hx⟩ | hx
    · exact (h.occurrences c hc x hx).resolve_left hnot
    · exact (h.results x (Atom.mem_of_mem_formula hfits hx)).resolve_left hnot
  have htruth : ∀ (M : Type u) (I : Interpretation M), Term.AllFunctional I terms → ∀ ρ names,
      (∀ word x, w.names.lookup word = some x → names word = ρ x) →
      (I.Holds ρ (witnesses.foldr DefinedFormula.existsOne (constraints.foldr
        DefinedFormula.conjunction (atom.formula xs))) ↔
        atom.Of I (Term.values I names terms)) := by
    intro M I hfunctional ρ names hnames
    -- Witnesses have no names, so that their values do not change those of the names.
    have hagree : ∀ σ : FreeVariable → M, (∀ x, x ∉ witnesses → σ x = ρ x) →
        ∀ word x, w.names.lookup word = some x → names word = σ x := by
      intro σ hσ word x hx
      rw [hσ x fun hmem => (h.hidden x hmem).2.2 word hx]
      exact hnames word x hx
    rw [Interpretation.Holds, DefinedFormula.holds_foldr_existsOne]
    constructor
    · rintro ⟨σ, hσ, hbody⟩
      rw [DefinedFormula.holds_foldr_conjunction] at hbody
      rw [← h.sound M I hfunctional σ names (hagree σ hσ) hbody.1]
      exact (Atom.holds_formula hfits I σ).mp hbody.2
    · intro hof
      obtain ⟨σ, hσ, hholds⟩ := h.complete M I hfunctional ρ
      refine ⟨σ, hσ, ?_⟩
      rw [DefinedFormula.holds_foldr_conjunction]
      refine ⟨hholds, ?_⟩
      apply (Atom.holds_formula hfits I σ).mpr
      rwa [h.sound M I hfunctional σ names (hagree σ hσ) hholds]
  constructor
  · exact h.later
  · refine ⟨xs, constraints, witnesses, rfl, h.graphs, ?_⟩
    intro x hx
    refine ⟨fun hmem => (hfree x hmem).1 hx, ?_⟩
    intro u hu
    exact (hu.hidden (h.hidden x hx).2).2
  · intro x hx
    exact (hfree x hx).2
  · intro M I hfunctional ρ names hnames
    refine ⟨htruth M I hfunctional ρ names hnames, ?_⟩
    intro resolver maximumNodes formula used hresolved hexpand
    rw [DefinedFormula.holds_of_expandWithNodeLimit hresolved hexpand]
    exact htruth M I hfunctional ρ names hnames

/-- Two terms with a comma between them. -/
def ReadsPair (aliases : List UInt8 → Option DefinitionAlias) (text : List UInt8)
    (left right : Term) (rest : List UInt8) : Prop :=
  ∃ middle behind, Reads aliases text left middle ∧ punctuation 0x2c middle = some behind ∧
    Reads aliases behind right rest

theorem termPair_spec {budget : TermBudget} {p q : Parser} {left right : ParsedTerm}
    (hp : p.vars.Ordered) (h : termPair aliases budget p = .ok (left, right, q)) :
    ∃ s t, ReadsPair aliases p.rest s t q.rest ∧
      Lowered.{u} p.vars q.vars [s, t] ([left, right].map ParsedTerm.freeVariable)
        ([left, right].flatMap ParsedTerm.graphConstraints)
        ([left, right].flatMap ParsedTerm.witnesses) := by
  simp only [termPair, bind_eq_ok, pure_eq_ok] at h
  obtain ⟨⟨l, budget₁, p₁⟩, hleft, ⟨_, p₂⟩, htoken, ⟨r, budget₂, p₃⟩, hright, heq⟩ := h
  cases heq
  obtain ⟨s, hreads, hlowered⟩ := (lowers.{u} _).1 _ _ _ _ _ hp hleft
  have hordered : p₁.vars.Ordered := hlowered.later.ordered hp
  obtain ⟨hcomma, hvars⟩ := comma_eq_ok htoken
  obtain ⟨t, hreads', hlowered'⟩ := (lowers.{u} _).1 _ _ _ _ _
    (show p₂.vars.Ordered by rw [hvars]; exact hordered) hright
  rw [hvars] at hlowered'
  refine ⟨s, t, ⟨_, _, hreads, hcomma, hreads'⟩, ?_⟩
  simpa using hlowered.append hordered hlowered'

theorem relationalizedFormula_eq_ok {terms : List ParsedTerm}
    {atom : List FreeVariable → DefinedFormula} {offset sourceDepth atomDepth : ℕ}
    {context : FormulaContext} {p q : Parser} {f : ParsedFormula}
    (h : relationalizedFormula terms atom offset context sourceDepth atomDepth p = .ok (f, q)) :
    f.formula = (terms.flatMap ParsedTerm.witnesses).foldr DefinedFormula.existsOne
      ((terms.flatMap ParsedTerm.graphConstraints).foldr DefinedFormula.conjunction
        (atom (terms.map ParsedTerm.freeVariable))) ∧ q.rest = p.rest ∧ q.vars = p.vars := by
  simp only [relationalizedFormula, bind_eq_ok, pure_eq_ok] at h
  obtain ⟨_, -, p₁, hcharge, _, -, heq⟩ := h
  cases heq
  exact ⟨rfl, chargeFormulaNodes_eq_ok hcharge⟩

theorem relationalizedFormula_ne_cut {terms : List ParsedTerm}
    {atom : List FreeVariable → DefinedFormula} {offset sourceDepth atomDepth : ℕ}
    {context : FormulaContext} {p : Parser} :
    relationalizedFormula terms atom offset context sourceDepth atomDepth p ≠ .error .cut := by
  intro h
  simp only [relationalizedFormula, bind_eq_error, Parser.checkExpandedDepth, require_eq_error,
    reduceCtorEq, and_false, false_or] at h
  obtain ⟨_, -, h | ⟨_, -, h⟩⟩ := h
  · exact chargeFormulaNodes_ne_cut h
  rcases h with h | ⟨_, -, h⟩
  · revert h
    cases DefinedFormula.encodeCanonicalWithNodeLimit _ _ with
    | error e =>
      intro h
      cases h
    | ok r =>
      intro h
      cases h
  · cases h

theorem termPair_ne_cut {budget : TermBudget} {p : Parser} (hp : p.vars.Ordered) :
    termPair aliases budget p ≠ .error .cut := by
  intro h
  simp only [termPair, bind_eq_error] at h
  rcases h with h | ⟨⟨l, budget₁, p₁⟩, hleft, h⟩
  · exact (term_ne_cut _).1 _ _ hp (Nat.lt_succ_self _) h
  rcases h with h | ⟨⟨_, p₂⟩, htoken, h⟩
  · exact token_ne_cut h
  obtain ⟨s, -, hlowered⟩ := (lowers.{0} _).1 _ _ _ _ _ hp hleft
  rcases h with h | ⟨_, _, h⟩
  · apply (term_ne_cut _).1 _ _ _ (Nat.lt_succ_self _) h
    dsimp only
    rw [(comma_eq_ok htoken).2]
    exact hlowered.later.ordered hp
  · cases h

/-- Wherever the parser stands in a source, an atom that it accepts keeps its meaning: the formula
is true exactly when the relation holds of the values of the terms, its witnesses are variables
without a name in the whole source, and none of them is free. -/
theorem atoms_keep_meaning (aliases : List UInt8 → Option DefinitionAlias) (p : Parser)
    (hp : Variables.empty.Later p.vars) (offset depth : ℕ) (context : FormulaContext) :
    (∀ negated, parseEqual aliases offset depth context negated p ≠ .error .cut ∧
      ∀ f q, parseEqual aliases offset depth context negated p = .ok (f, q) →
        ∃ s t, ReadsPair aliases p.rest s t q.rest ∧
          MeansAtom.{u} p.vars q.vars (if negated then .unequal else .equal) [s, t] f.formula) ∧
    (parseMember aliases offset depth context p ≠ .error .cut ∧
      ∀ f q, parseMember aliases offset depth context p = .ok (f, q) →
        ∃ s t, ReadsPair aliases p.rest s t q.rest ∧
          MeansAtom.{u} p.vars q.vars .member [s, t] f.formula) ∧
    ∀ word, parseDefinedRelation aliases offset word context depth p ≠ .error .cut ∧
      ∀ f q, parseDefinedRelation aliases offset word context depth p = .ok (f, q) →
        ∃ id arity terms, aliases word = some ⟨id, .relation arity⟩ ∧ terms.length = arity ∧
          ReadsArguments aliases p.rest terms q.rest ∧
          MeansAtom.{u} p.vars q.vars (.relation id) terms f.formula := by
  have hordered : p.vars.Ordered := hp.ordered Variables.ordered_empty
  refine ⟨?_, ⟨?_, ?_⟩, ?_⟩
  · intro negated
    refine ⟨?_, ?_⟩
    · intro h
      simp only [parseEqual, bind_eq_error] at h
      rcases h with h | ⟨_, _, h⟩
      · exact termPair_ne_cut hordered h
      · exact relationalizedFormula_ne_cut h
    · intro f q h
      simp only [parseEqual, bind_eq_ok] at h
      obtain ⟨⟨left, right, p₁⟩, hpair, h⟩ := h
      obtain ⟨s, t, hreads, hlowered⟩ := termPair_spec.{u} hordered hpair
      obtain ⟨hformula, hrest, hvars⟩ := relationalizedFormula_eq_ok h
      rw [hrest, hvars, hformula]
      refine ⟨s, t, hreads, ?_⟩
      cases negated with
      | false => exact hlowered.meansAtom (show Atom.Fits .equal _ from .inr ⟨_, _, rfl⟩)
      | true => exact hlowered.meansAtom (show Atom.Fits .unequal _ from .inr ⟨_, _, rfl⟩)
  · intro h
    simp only [parseMember, bind_eq_error] at h
    rcases h with h | ⟨_, _, h⟩
    · exact termPair_ne_cut hordered h
    · exact relationalizedFormula_ne_cut h
  · intro f q h
    simp only [parseMember, bind_eq_ok] at h
    obtain ⟨⟨left, right, p₁⟩, hpair, h⟩ := h
    obtain ⟨s, t, hreads, hlowered⟩ := termPair_spec.{u} hordered hpair
    obtain ⟨hformula, hrest, hvars⟩ := relationalizedFormula_eq_ok h
    rw [hrest, hvars, hformula]
    exact ⟨s, t, hreads, hlowered.meansAtom (show Atom.Fits .member _ from .inr ⟨_, _, rfl⟩)⟩
  · intro word
    refine ⟨?_, ?_⟩
    · intro h
      simp only [parseDefinedRelation, bind_eq_error] at h
      rcases h with h | ⟨⟨id, kind⟩, -, h⟩
      · exact orError_ne_cut h
      cases kind with
      | function arity => cases h
      | relation arity =>
        simp only [bind_eq_error, ensureDefinitionArity, require_eq_error, reduceCtorEq, and_false,
          false_or] at h
        rcases h with h | ⟨_, _, _, _, h⟩
        · exact (term_ne_cut _).2 _ _ _ _ _ _ hordered (Nat.lt_succ_self _) h
        · exact relationalizedFormula_ne_cut h
    · intro f q h
      simp only [parseDefinedRelation, bind_eq_ok, orError_eq_ok] at h
      obtain ⟨⟨id, kind⟩, halias, h⟩ := h
      cases kind with
      | function arity => cases h
      | relation arity =>
        simp only [bind_eq_ok, ensureDefinitionArity, require_eq_ok, exists_const] at h
        obtain ⟨⟨arguments, budget₁, p₁⟩, harguments, harity, h⟩ := h
        obtain ⟨_, rfl, terms, hreads, hlowered⟩ :=
          (lowers.{u} _).2 _ _ _ _ _ _ _ _ _ hordered harguments
        obtain ⟨hformula, hrest, hvars⟩ := relationalizedFormula_eq_ok h
        rw [hrest, hvars, hformula]
        refine ⟨id, arity, terms, halias, ?_, hreads, ?_⟩
        · rw [← hlowered.length, List.length_map]
          exact harity
        · exact hlowered.meansAtom (show Atom.Fits (.relation id) _ from .inl ⟨id, rfl⟩)

/-- The source `f(x),y)` behind `eq(`, where `f` is a function. -/
theorem atoms_keep_meaning_single :
    let aliases : List UInt8 → Option DefinitionAlias :=
      fun word => if word = [0x66] then some ⟨7, .function 1⟩ else none
    let p : Parser := ⟨7, [0x66, 0x28, 0x78, 0x29, 0x2c, 0x79, 0x29], .empty, 0, 0, 0⟩
    ∃ f q, parseEqual aliases 0 1 .statement false p = .ok (f, q) ∧
      f.formula = .existsOne ⟨1⟩ (.conjunction (.definedRelation 7 [⟨0⟩, ⟨1⟩]) (.equal ⟨1⟩ ⟨2⟩)) ∧
      ∃ s t, ReadsPair aliases p.rest s t q.rest ∧
        MeansAtom.{0} p.vars q.vars .equal [s, t] f.formula := by
  intro aliases p
  have hformula : (parseEqual aliases 0 1 .statement false p).toOption.map
      (fun r => r.1.formula) = some (.existsOne ⟨1⟩
        (.conjunction (.definedRelation 7 [⟨0⟩, ⟨1⟩]) (.equal ⟨1⟩ ⟨2⟩))) := by decide +kernel
  obtain ⟨hequal, -⟩ := atoms_keep_meaning.{0} aliases p .refl 0 1 .statement
  obtain ⟨-, hmeans⟩ := hequal false
  cases h : parseEqual aliases 0 1 .statement false p with
  | error e =>
    rw [h] at hformula
    cases hformula
  | ok r =>
    obtain ⟨f, q⟩ := r
    rw [h] at hformula
    exact ⟨f, q, rfl, Option.some.inj hformula, hmeans f q h⟩

end Authoring
end Naome
