import Naome.DefinitionMeaning
import Naome.ParserAgreement

/-!
# Questions are statements

The head of a proof with the text of a question reads the formula of the question, in any context.
-/
namespace Naome
open LocallyNameless Outcome

namespace Formula
open DefinitionExpansion

variable {resolver : DefinitionResolver} {bodyOf : DefinitionId → DefinedFormula}

theorem resolved_embed (n : PrimitiveNode) : Resolved resolver bodyOf n.embed := by
  induction n with
  | equal l r | member l r => trivial
  | not n ih | forAll n ih => exact ih
  | implies a b iha ihb => exact ⟨iha, ihb⟩
  | definedRelation s => exact s.elim

theorem eliminate_embed (n : PrimitiveNode) :
    eliminate bodyOf n.embed = n.embed ∧ expansionCost bodyOf n.embed = n.nodeCount := by
  induction n with
  | equal l r | member l r => exact ⟨rfl, rfl⟩
  | not n ih | forAll n ih =>
    simp only [Node.embed, eliminate, expansionCost, Node.nodeCount, ih, and_self]
  | implies a b iha ihb =>
    simp only [Node.embed, eliminate, expansionCost, Node.nodeCount, iha, ihb, and_self]
  | definedRelation s => exact s.elim

/-- A formula without definitions expands to itself, in any context. -/
theorem expand_embedded (resolver : DefinitionResolver) {f : Formula}
    (hnodes : f.node.nodeCount ≤ formulaMaxNodes) (hdepth : f.node.depth ≤ formulaMaxDepth) :
    f.embedded.expandWithNodeLimit resolver formulaMaxNodes = .ok (f, f.node.nodeCount) := by
  have hresolved : Resolved resolver (fun _ => f.embedded) f.embedded.node := resolved_embed f.node
  obtain ⟨helim, hcost⟩ := @eliminate_embed (fun _ => f.embedded) f.node
  refine (DefinedFormula.expandWithNodeLimit_eq_ok_iff hresolved).mpr ⟨helim.symm, hcost.symm, ?_⟩
  unfold Room NodeBudget.new
  rw [show eliminate (fun _ => f.embedded) f.embedded.node = _ from helim,
    show expansionCost (fun _ => f.embedded) f.embedded.node = _ from hcost, Node.depth_embed]
  exact ⟨by omega, by simpa using hnodes⟩

end Formula

namespace Authoring
open CompiledQuestion

theorem name_trivia (text : List UInt8) : name (trivia false text) = name text := by
  unfold name
  rw [trivia_trivia]

/-- A word that stands where a name is read is the name. -/
theorem wordAt_iff {b : UInt8} {word text : List UInt8} (hb : alphabetic b = true)
    (hword : ∀ c ∈ word, nameByte c = true) :
    wordAt (trivia false text) (b :: word) = true ↔
      ∃ rest, name text = some (b :: word, rest) := by
  unfold wordAt
  rw [Bool.and_eq_true, List.isPrefixOf_iff_prefix]
  constructor
  · rintro ⟨⟨rest, htext⟩, hstop⟩
    refine ⟨rest, ?_⟩
    rw [← name_trivia, ← htext]
    refine name_append hb hword ?_
    rw [← htext, List.drop_left] at hstop
    intro c hc
    rw [hc] at hstop
    simpa using hstop
  · rintro ⟨rest, hname⟩
    unfold name at hname
    cases htext : trivia false text with
    | nil =>
      rw [htext] at hname
      cases hname
    | cons c behind =>
      rw [htext] at hname
      dsimp only at hname
      split_ifs at hname
      cases hname
      have hsplit := List.takeWhile_append_dropWhile (p := nameByte) (l := behind)
      refine ⟨⟨behind.dropWhile nameByte, by rw [List.cons_append, hsplit]⟩, ?_⟩
      have hdrop : (b :: behind).drop (b :: behind.takeWhile nameByte).length =
          behind.dropWhile nameByte := by
        have hdrop := @List.drop_left _ (behind.takeWhile nameByte) (behind.dropWhile nameByte)
        rw [hsplit] at hdrop
        rw [List.length_cons, List.drop_succ_cons, hdrop]
      rw [hdrop]
      have hhead := List.head?_dropWhile_not nameByte behind
      cases hrest : (behind.dropWhile nameByte).head? with
      | none => rfl
      | some d =>
        rw [hrest] at hhead
        dsimp only at hhead
        rw [Option.all_some, hhead]
        rfl

/-- The words that begin a section. -/
def sectionWords : List String := ["defs", "refs", "let", "goal", "def"]

theorem sectionWords_names : ∀ w ∈ sectionWords, ascii w = (ascii w).headD 0 :: (ascii w).tail ∧
    alphabetic ((ascii w).headD 0) = true ∧ ∀ c ∈ (ascii w).tail, nameByte c = true := by
  intro w hw
  simp only [sectionWords, List.mem_cons, List.not_mem_nil, or_false] at hw
  obtain rfl | rfl | rfl | rfl | rfl := hw <;>
    exact ⟨rfl, by decide, List.all_eq_true.mp (by decide)⟩

theorem wordAt_section {w : String} {text : List UInt8} (hw : w ∈ sectionWords) :
    wordAt (trivia false text) (ascii w) = true ↔ ∃ rest, name text = some (ascii w, rest) := by
  obtain ⟨hcons, hb, hword⟩ := sectionWords_names w hw
  rw [hcons]
  exact wordAt_iff hb hword

/-- In front of one name no other word stands. -/
theorem wordAt_eq_false {w : String} {word text rest : List UInt8} (hw : w ∈ sectionWords)
    (hname : name text = some (word, rest)) (hne : word ≠ ascii w) :
    wordAt (trivia false text) (ascii w) = false := by
  rw [Bool.eq_false_iff]
  intro h
  obtain ⟨rest', hname'⟩ := (wordAt_section hw).mp h
  rw [hname] at hname'
  cases hname'
  exact hne rfl

/-- The parser of proofs in front of what a reader of questions is in front of, with its bindings. -/
def SourceParser.following (P : Parser) (p : Reader) : SourceParser where
  parser := { P.following p with formulaBindingNodes := p.bindingNodes }
  aliases := []
  references := []
  bindings := p.bindings.map fun b => (b.1, b.2.embedded)

section

variable {P : Parser} {p q : Reader}

theorem lookup_embedded (bindings : List (List UInt8 × CompiledQuestion.Parsed))
    (word : List UInt8) :
    (bindings.map fun b => (b.1, b.2.embedded)).lookup word =
      (bindings.lookup word).map CompiledQuestion.Parsed.embedded := by
  induction bindings with
  | nil => rfl
  | cons b bindings ih =>
    rw [List.map_cons, List.lookup_cons, List.lookup_cons, ih]
    cases word == b.1 <;> rfl

theorem knows_following (hp : p.Bound) :
    Knows (fun word => (SourceParser.following P p).bindings.lookup word) p := by
  intro word b hlookup
  obtain ⟨before, behind, hsplit, -⟩ := List.lookup_eq_some_iff.mp hlookup
  refine ⟨hp.reserved (word, b) (by simp [hsplit]), ?_⟩
  dsimp only [SourceParser.following]
  rw [lookup_embedded, hlookup]
  rfl

theorem skipTrivia_following :
    (SourceParser.following P p).skipTrivia = SourceParser.following P p.skipTrivia := rfl

theorem atWord_following (w : String) : (SourceParser.following P p).atWord [w] =
    wordAt (trivia false p.rest) (ascii w) := by
  simp only [SourceParser.atWord, List.any_cons, List.any_nil, Bool.or_false]
  rfl

theorem keyword_agrees {w : String} (h : p.word w = .ok q) :
    (P.following p).keyword w = .ok ((), P.following q) := by
  simp only [Reader.word, bind_eq_ok, Prod.exists, require_eq_ok, exists_const, pure_eq_ok] at h
  obtain ⟨word, p₁, hread, rfl, rfl⟩ := h
  rw [Parser.keyword, readName_following hread, ok_bind]
  dsimp only
  rw [require, if_pos rfl]
  rfl

/-- A step of the parser that changes no names. -/
theorem following_eq_of_moves (h : p.Moves q) : SourceParser.following P q =
    { SourceParser.following P p with
      parser := { P.following q with formulaBindingNodes := p.bindingNodes } } := by
  rw [SourceParser.following, h.bindingNodes, h.bindings]
  rfl

theorem keyword_following {w : String} (h : p.word w = .ok q) :
    (SourceParser.following P p).keyword w = .ok (SourceParser.following P q) := by
  have hread := keyword_agrees (P := { P with formulaBindingNodes := p.bindingNodes }) h
  rw [following_eq_of_moves (Reader.moves_word h), SourceParser.keyword]
  change (SourceM.halting (Parser.keyword (Parser.following
    { P with formulaBindingNodes := p.bindingNodes } p) w) >>= _) = _
  rw [hread]
  rfl

theorem sourceExpect_following {b : UInt8} {expected : String} (h : p.expect b = .ok q) :
    (SourceParser.following P p).expect b expected = .ok (SourceParser.following P q) := by
  have hread := @expect_following { P with formulaBindingNodes := p.bindingNodes } p q b expected h
  rw [following_eq_of_moves (Reader.moves_expect h), SourceParser.expect]
  change (SourceM.halting (Parser.expect (Parser.following
    { P with formulaBindingNodes := p.bindingNodes } p) b expected) >>= _) = _
  rw [hread]
  rfl

theorem readNewName_following {word rest : List UInt8} {expected : String}
    (hname : name p.rest = some (word, rest)) (hreserved : isReservedBindingName word = false) :
    (SourceParser.following P p).readNewName expected =
      .ok (word, SourceParser.following P { p with rest }) := by
  rw [SourceParser.readNewName]
  change (SourceM.halting (Parser.readName (Parser.following
    { P with formulaBindingNodes := p.bindingNodes } p)) >>= _) = _
  rw [readName_eq (show name (Parser.following _ p).rest = _ from hname)]
  change (require (isReservedBindingName word = false) _ >>= _) = _
  rw [require, if_pos hreserved]
  rfl

/-- A formula of the head. -/
theorem sourceFormula_following {context : FormulaContext} {t : CompiledQuestion.Parsed} (hp : p.Bound)
    (hcharge : (SourceParser.following P p).parser.counter context + t.nodes ≤ maximumNodes context)
    (h : p.formula = .ok (t, q)) :
    (SourceParser.following P p).parsedFormula context =
      .ok (t.embedded, { SourceParser.following P q with
        parser := (Parser.charged { P with formulaBindingNodes := p.bindingNodes } t.nodes
          context).following q }) := by
  have hmoves := (Reader.accounts_parse hp.exact h).moves
  have hread : parseFormula (fun word => (SourceParser.following P p).aliases.lookup word)
      (fun word => (SourceParser.following P p).bindings.lookup word) (p.rest.length + 1) context 1
      (SourceParser.following P p).parser = .ok (t.embedded, (Parser.charged
        { P with formulaBindingNodes := p.bindingNodes } t.nodes context).following q) :=
    parseFormula_following (P := { P with formulaBindingNodes := p.bindingNodes }) hp.exact
      (knows_following hp) one_ne_zero (Nat.lt_succ_self _) hcharge h
  rw [SourceParser.parsedFormula, Authoring.parsedFormula]
  change (SourceM.halting (parseFormula _ _ (p.rest.length + 1) context 1
    (SourceParser.following P p).parser) >>= _) = _
  rw [hread, SourceParser.following, SourceParser.following, hmoves.bindings]
  rfl

theorem formulaBinding_following (hp : p.Bound) (h : p.formulaBinding = .ok q) :
    (SourceParser.following P p).formulaBinding = .ok (SourceParser.following P q) := by
  have hq := (Reader.bound_formulaBinding hp h).1
  obtain ⟨word, p₁, p₂, p₃, t, hname, hequals, hformula, rfl⟩ := Reader.formulaBinding_eq_ok h
  obtain ⟨rest, hread, hreserved, hlookup, rfl⟩ := Reader.bindingName_eq_ok hname
  have hmoves := (Reader.moves_rest (length_name hread)).trans (Reader.moves_expect hequals)
  have hbound : Reader.Bound
      { p₂ with maximumNodes := questionTargetMaxNodes - p₂.bindingNodes } :=
    ⟨(hmoves.bound hp).exact, (hmoves.bound hp).reserved, (hmoves.bound hp).distinct,
      (hmoves.bound hp).total, (hmoves.bound hp).bounded⟩
  have hnodes : p₃.bindingNodes = p₂.bindingNodes :=
    (Reader.accounts_parse hbound.exact hformula).moves.bindingNodes
  have hcharge : p₂.bindingNodes + t.nodes ≤ formulaBindingMaxNodes := by
    have htotal := hq.bounded
    dsimp only at htotal
    rw [hnodes] at htotal
    exact htotal.trans (by decide)
  have hparsed := @sourceFormula_following P _ _ .binding t hbound hcharge hformula
  have hfresh : ((SourceParser.following P { p with rest }).bindings.lookup word).isNone = true := by
    dsimp only [SourceParser.following]
    rw [lookup_embedded, hlookup]
    rfl
  rw [SourceParser.formulaBinding, readNewName_following hread hreserved, ok_bind]
  change (require (((SourceParser.following P { p with rest }).bindings.lookup word).isNone = true) _
    >>= _) = _
  rw [require, if_pos hfresh]
  change ((SourceParser.following P { p with rest }).expect 0x3d "`=`" >>= _) = _
  rw [sourceExpect_following hequals]
  change ((SourceParser.following P
    { p₂ with maximumNodes := questionTargetMaxNodes - p₂.bindingNodes }).parsedFormula .binding >>=
      _) = _
  rw [hparsed, ok_bind]
  dsimp only [SourceParser.following, Parser.charged]
  rw [hnodes]
  rfl

/-- A reader in front of blanks binds as it does behind them. -/
theorem formulaBinding_skipTrivia : p.skipTrivia.formulaBinding = p.formulaBinding := by
  have hname : p.skipTrivia.bindingName = p.bindingName := by
    unfold Reader.bindingName Reader.readName
    dsimp only [Reader.skipTrivia]
    rw [name_trivia]
  unfold Reader.formulaBinding
  rw [hname]

theorem name_of_formulaBinding (h : p.formulaBinding = .ok q) :
    ∃ word rest, name p.rest = some (word, rest) ∧ isReservedBindingName word = false := by
  obtain ⟨word, p₁, p₂, p₃, t, hname, -, -, -⟩ := Reader.formulaBinding_eq_ok h
  obtain ⟨rest, hread, hreserved, -, -⟩ := Reader.bindingName_eq_ok hname
  exact ⟨word, rest, hread, hreserved⟩

theorem reserved_sectionWords : ∀ w ∈ sectionWords, isReservedBindingName (ascii w) = true := by
  intro w hw
  simp only [sectionWords, List.mem_cons, List.not_mem_nil, or_false] at hw
  obtain rfl | rfl | rfl | rfl | rfl := hw <;> decide

/-- Where a binding is read no section begins. -/
theorem atWord_of_formulaBinding {w : String} (hw : w ∈ sectionWords)
    (h : p.formulaBinding = .ok q) : wordAt (trivia false p.rest) (ascii w) = false := by
  obtain ⟨word, rest, hname, hreserved⟩ := name_of_formulaBinding h
  refine wordAt_eq_false hw hname ?_
  rintro rfl
  rw [reserved_sectionWords w hw] at hreserved
  cases hreserved

theorem exists_formulaBinding {bytes : ℕ} (h : Reader.formulaBindingsFrom bytes p = .ok q) :
    ∃ r, p.formulaBinding = .ok r := by
  cases bytes with
  | zero => cases h
  | succ bytes =>
    simp only [Reader.formulaBindingsFrom, bind_eq_ok] at h
    obtain ⟨r, hbinding, -⟩ := h
    exact ⟨r, hbinding⟩

theorem formulaBindingsFrom_skipTrivia (bytes : ℕ) :
    Reader.formulaBindingsFrom bytes p.skipTrivia = Reader.formulaBindingsFrom bytes p := by
  cases bytes with
  | zero => rfl
  | succ bytes => rw [Reader.formulaBindingsFrom, formulaBinding_skipTrivia, Reader.formulaBindingsFrom]

theorem formulaBindingsFrom_following {bytes : ℕ} (fuel : ℕ) (hfuel : bytes ≤ fuel) (hp : p.Bound)
    (h : Reader.formulaBindingsFrom bytes p = .ok q) :
    SourceParser.formulaBindingsFrom fuel (SourceParser.following P p) =
      .ok (SourceParser.following P q) := by
  induction bytes generalizing fuel p with
  | zero => cases h
  | succ bytes ih =>
    obtain ⟨fuel, rfl⟩ : ∃ f, fuel = f + 1 := ⟨fuel - 1, by omega⟩
    simp only [Reader.formulaBindingsFrom, bind_eq_ok] at h
    obtain ⟨p₁, hbinding, h⟩ := h
    have hbound := (Reader.bound_formulaBinding hp hbinding).1
    rw [SourceParser.formulaBindingsFrom, formulaBinding_following hp hbinding, ok_bind, atWord_following,
      atWord_following]
    split_ifs at h with hgoal
    · change wordAt (trivia false p₁.rest) (ascii "goal") = true at hgoal
      cases h
      rw [if_pos hgoal]
      rfl
    · change ¬ wordAt (trivia false p₁.rest) (ascii "goal") = true at hgoal
      have hnext := ih fuel (by omega) (Reader.moves_skipTrivia.bound hbound) h
      obtain ⟨p₂, hbinding'⟩ := exists_formulaBinding h
      rw [formulaBinding_skipTrivia] at hbinding'
      rw [if_neg hgoal, if_neg (by
        rw [atWord_of_formulaBinding (by simp [sectionWords]) hbinding']
        exact Bool.false_ne_true)]
      exact hnext

theorem formulaBindings_following (hp : p.Bound) (h : p.formulaBindings = .ok q) :
    (SourceParser.following P p).formulaBindings = .ok (SourceParser.following P q) := by
  simp only [Reader.formulaBindings, bind_eq_ok] at h
  obtain ⟨p₁, hlet, p₂, hcolon, h⟩ := h
  have hmoves := (Reader.moves_word hlet).trans (Reader.moves_expect hcolon)
  obtain ⟨r, hbinding⟩ := exists_formulaBinding h
  have hwords : (SourceParser.following P p₂).atWord ["goal", "def"] = false := by
    simp only [SourceParser.atWord, List.any_cons, List.any_nil, Bool.or_false, Bool.or_eq_false_iff]
    exact ⟨atWord_of_formulaBinding (by simp [sectionWords]) hbinding,
      atWord_of_formulaBinding (by simp [sectionWords]) hbinding⟩
  rw [← formulaBindingsFrom_skipTrivia] at h
  rw [SourceParser.formulaBindings, keyword_following hlet, ok_bind, sourceExpect_following hcolon,
    ok_bind, if_neg (by rw [hwords]; exact Bool.false_ne_true), skipTrivia_following]
  exact formulaBindingsFrom_following _ (Nat.le_succ _)
    (Reader.moves_skipTrivia.bound (hmoves.bound hp)) h

theorem name_of_word {w : String} (h : p.word w = .ok q) :
    ∃ rest, name p.rest = some (ascii w, rest) := by
  simp only [Reader.word, bind_eq_ok, Prod.exists, require_eq_ok, exists_const] at h
  obtain ⟨word, p₁, hread, rfl, -⟩ := h
  obtain ⟨rest, hname, -⟩ := Reader.readName_eq_ok hread
  exact ⟨rest, hname⟩

theorem word_skipTrivia (w : String) : p.skipTrivia.word w = p.word w := by
  unfold Reader.word Reader.readName
  dsimp only [Reader.skipTrivia]
  rw [name_trivia]

theorem skipTrivia_skipTrivia : p.skipTrivia.skipTrivia = p.skipTrivia := by
  unfold Reader.skipTrivia
  rw [trivia_trivia]

/-- A section that does not begin where another word stands. -/
theorem optionalSection_absent {w w' : String} {rest : List UInt8}
    {read : SourceParser → SourceM SourceParser} (hw : w ∈ sectionWords)
    (hname : name p.rest = some (ascii w', rest)) (hne : ascii w' ≠ ascii w) :
    (SourceParser.following P p).optionalSection w read =
      .ok (SourceParser.following P p.skipTrivia) := by
  rw [SourceParser.optionalSection, atWord_following, if_neg (by
    rw [wordAt_eq_false hw hname hne]
    exact Bool.false_ne_true)]
  rfl

theorem optionalBindings_following (hp : p.Bound) (h : p.optionalBindings = .ok q) :
    (SourceParser.following P p).optionalSection "let" SourceParser.formulaBindings =
      .ok (SourceParser.following P q) := by
  rw [SourceParser.optionalSection, atWord_following]
  unfold Reader.optionalBindings at h
  split_ifs at h with hlet
  · change wordAt (trivia false p.rest) (ascii "let") = true at hlet
    rw [if_pos hlet, skipTrivia_following]
    exact formulaBindings_following (Reader.moves_skipTrivia.bound hp) h
  · change ¬ wordAt (trivia false p.rest) (ascii "let") = true at hlet
    cases h
    rw [if_neg hlet]
    rfl

/-- A reader begins with its bindings or with its goal. -/
theorem name_of_goal {t : CompiledQuestion.Parsed} {r : Reader} (h : p.optionalBindings = .ok q)
    (hstatement : q.statement = .ok (t, r)) :
    ∃ rest w, (w = "let" ∨ w = "goal") ∧ name p.rest = some (ascii w, rest) := by
  simp only [Reader.statement, bind_eq_ok] at hstatement
  obtain ⟨p₁, hgoal, -⟩ := hstatement
  unfold Reader.optionalBindings at h
  split_ifs at h with hlet
  · obtain ⟨rest, hname⟩ := (wordAt_section (by simp [sectionWords])).mp hlet
    exact ⟨rest, "let", .inl rfl, hname⟩
  · cases h
    rw [word_skipTrivia] at hgoal
    obtain ⟨rest, hname⟩ := name_of_word hgoal
    exact ⟨rest, "goal", .inr rfl, hname⟩

theorem optionalBindings_skipTrivia : p.skipTrivia.optionalBindings = p.optionalBindings := by
  unfold Reader.optionalBindings
  rw [skipTrivia_skipTrivia]

/-- The names in front of the statement of a question are its bindings. -/
theorem names_following {ctx : ContextView} {t : CompiledQuestion.Parsed} {r : Reader} (hp : p.Bound)
    (h : p.optionalBindings = .ok q) (hstatement : q.statement = .ok (t, r)) :
    (SourceParser.following P p).names ctx = .ok (SourceParser.following P q) := by
  obtain ⟨rest, w, hw, hname⟩ := name_of_goal h hstatement
  have hname' : name p.skipTrivia.rest = some (ascii w, rest) := (name_trivia p.rest).trans hname
  have hne : ascii w ≠ ascii "defs" ∧ ascii w ≠ ascii "refs" := by
    rcases hw with rfl | rfl
    · exact ⟨by decide, by decide⟩
    · exact ⟨by decide, by decide⟩
  have hp' := Reader.moves_skipTrivia.bound hp
  rw [SourceParser.names, optionalSection_absent (by simp [sectionWords]) hname hne.1, ok_bind,
    optionalSection_absent (by simp [sectionWords]) hname' hne.2, ok_bind, skipTrivia_skipTrivia]
  exact optionalBindings_following hp' (optionalBindings_skipTrivia.trans h)

/-- The statement itself, with its expansion. -/
theorem head_following {ctx : ContextView} {t : CompiledQuestion.Parsed} {r : Reader} (hp : p.Bound)
    (hcharge : P.statementNodes + t.nodes ≤ formulaMaxNodes) (h : p.optionalBindings = .ok q)
    (hstatement : q.statement = .ok (t, r)) :
    ∃ s, (SourceParser.following P p).head ctx = .ok (.statement t.formula s) ∧
      s.parser.rest = r.rest := by
  have hq := (Reader.bound_optionalBindings hp h).1
  have haccounts := Reader.accounts_statement hq hstatement
  have hnames : (SourceParser.following P p).names ctx = .ok (SourceParser.following P q) :=
    names_following hp h hstatement
  simp only [Reader.statement, bind_eq_ok] at hstatement
  obtain ⟨p₁, hgoal, p₂, hequals, hformula⟩ := hstatement
  have hmoves := (Reader.moves_word hgoal).trans (Reader.moves_expect hequals)
  obtain ⟨rest, hname⟩ := name_of_word hgoal
  have hdef : ¬ (SourceParser.following P q).atWord ["def"] = true := by
    rw [atWord_following, wordAt_eq_false (by simp [sectionWords]) hname (by decide)]
    exact Bool.false_ne_true
  have hkeyword := keyword_following (P := P) ((word_skipTrivia "goal").trans hgoal)
  have hparsed := @sourceFormula_following P _ _ .statement t (hmoves.bound hq) hcharge hformula
  have hlimits : t.formula.node.nodeCount ≤ formulaMaxNodes ∧
      t.formula.node.depth ≤ formulaMaxDepth := by
    have hdepth := haccounts.depth
    rw [← haccounts.exact.nodes, ← haccounts.exact.depth]
    exact ⟨by omega, by omega⟩
  have hexpand := Formula.expand_embedded ctx.resolveDefinition hlimits.1 hlimits.2
  refine ⟨{ SourceParser.following P r with parser := (Parser.charged
    { P with formulaBindingNodes := p₂.bindingNodes } t.nodes .statement).following r }, ?_, rfl⟩
  rw [SourceParser.head, hnames, ok_bind, if_neg hdef, skipTrivia_following, hkeyword, ok_bind,
    sourceExpect_following hequals, ok_bind]
  dsimp only
  rw [hparsed, ok_bind]
  change ((t.formula.embedded.expandWithNodeLimit ctx.resolveDefinition formulaMaxNodes).mapError _ >>=
    _) = _
  rw [hexpand]
  rfl

end

/-- Whatever source a question is compiled from, the parser of proofs reads the head of the same
source, in any context, to the formula of the question, and stops where the parser of questions
stopped. -/
theorem questions_are_statements (sha256 : List UInt8 → Digest) (ctx : ContextView) (source : String)
    (q : CompiledQuestion) (h : compile sha256 source = .ok q) :
    ∃ t p s, ((start (sourceBytes source)).optionalBindings >>= Reader.statement) = .ok (t, p) ∧
      (SourceParser.new (sourceBytes source)).head ctx = .ok (.statement t.formula s) ∧
      t.formula = q.formula ∧ s.parser.rest = p.rest := by
  obtain ⟨hlength, t, hgoal, -, hparts⟩ := compile_eq_ok.1 h
  obtain ⟨-, hnodes, -⟩ := Reader.accounts_goal hgoal
  simp only [Reader.goal, bind_eq_ok, Prod.exists, pure_eq_ok] at hgoal
  obtain ⟨p, hlet, t, r, hstatement, -, -, -, -, rfl⟩ := hgoal
  have hcharge : 0 + t.nodes ≤ formulaMaxNodes := by
    unfold questionSourceMaxBytes at hlength
    unfold questionTargetMaxNodes at hnodes
    unfold formulaMaxNodes
    omega
  obtain ⟨s, hhead, hrest⟩ := @head_following (SourceParser.new (sourceBytes source)).parser
    (start (sourceBytes source)) p ctx t r (Reader.bound_start _) hcharge hlet hstatement
  refine ⟨t, r, s, ?_, hhead, ?_, hrest⟩
  · rw [hlet, ok_bind, hstatement]
  · exact (formula_of_fromParts hparts).1.symm

theorem questions_are_statements_binding : ∃ q,
    compile (fun _ => 0) "let: a = all(x, eq(x, x)) goal = imp(a, a)" = .ok q ∧
      ∃ s, (SourceParser.new (sourceBytes "let: a = all(x, eq(x, x)) goal = imp(a, a)")).head
        (.empty 0) = .ok (.statement q.formula s) := by
  have hq : ∃ q, compile (fun _ => 0) "let: a = all(x, eq(x, x)) goal = imp(a, a)" = .ok q :=
    ⟨_, rfl⟩
  obtain ⟨q, hq⟩ := hq
  obtain ⟨t, p, s, -, hhead, hformula, -⟩ := questions_are_statements (fun _ => 0) (.empty 0) _ q hq
  rw [hformula] at hhead
  exact ⟨q, hq, s, hhead⟩

end Authoring
end Naome
