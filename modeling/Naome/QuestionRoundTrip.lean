import Naome.QuestionPrinting

/-!
# Questions are read back

A question made of a formula compiles to itself, and its canonical bytes are read as nothing else.
-/
namespace Naome
open LocallyNameless Outcome ByteCursor

namespace CompiledQuestion
open Authoring

/-- The reader in front of a text, after the binders above a depth were read. -/
def Reader.having (p : Reader) (text : List UInt8) (named : ℕ) : Reader :=
  { p with rest := text, vars := binderVariables named }

section

variable {p : Reader} {rest : List UInt8} {named : ℕ}

theorem bounded_eq_ok {nodes depth : ℕ} {u : Unit} :
    p.bounded nodes depth = .ok u ↔ nodes ≤ p.maximumNodes ∧ depth ≤ formulaMaxDepth := by
  simp only [Reader.bounded, bind_eq_ok, require_eq_ok, exists_const]

theorem bounded_eq {nodes depth : ℕ} (hnodes : nodes ≤ p.maximumNodes)
    (hdepth : depth ≤ formulaMaxDepth) : p.bounded nodes depth = .ok () :=
  bounded_eq_ok.2 ⟨hnodes, hdepth⟩

theorem readVariable_binderName {i : ℕ} (h : i ≤ named) (hnamed : named + 1 < 2 ^ 32)
    (hrest : ∀ c ∈ rest.head?, nameByte c = false) :
    (p.having (binderName i ++ rest) named).readVariable =
      .ok (⟨UInt32.ofNat i⟩, p.having rest (max named (i + 1))) := by
  have hname : (p.having (binderName i ++ rest) named).readName =
      .ok (binderName i, p.having rest named) := by
    unfold Reader.readName Reader.having
    rw [name_binderName hrest]
    rfl
  rw [Reader.readVariable, hname, ok_bind]
  dsimp only [Reader.variableNamed, Reader.having]
  rw [named_binderVariables h hnamed]
  rfl

/-- A printed variable is read as what it was opened to. -/
theorem readVariable_text {depth : ℕ} {x : Variable FreeVariable} (hfree : x.occurrences = [])
    (hscoped : x.Scoped depth) (h : depth ≤ named) (hnamed : named + 1 < 2 ^ 32)
    (hrest : ∀ c ∈ rest.head?, nameByte c = false) :
    ∃ v, x.opened depth 0 = .free v ∧
      (p.having (variableText depth x ++ rest) named).readVariable = .ok (v, p.having rest named) := by
  cases x with
  | free v => cases hfree
  | bound i =>
    change i < depth at hscoped
    refine ⟨_, rfl, ?_⟩
    rw [variableText_bound, readVariable_binderName (by omega) hnamed hrest,
      Nat.max_eq_left (by omega), Nat.sub_zero]

theorem expect_comma : (p.having (0x2c :: rest) named).expect 0x2c = .ok (p.having rest named) := rfl

theorem readVariable_blank :
    (p.having (0x20 :: rest) named).readVariable = (p.having rest named).readVariable := rfl

theorem parse_blank (levels depth : ℕ) : Reader.parse levels depth (p.having (0x20 :: rest) named) =
    Reader.parse levels depth (p.having rest named) := by
  cases levels <;> rfl

theorem finish_text {parsed : Parsed} {depth : ℕ} (hnodes : parsed.nodes ≤ p.maximumNodes)
    (hdepth : depth - 1 + parsed.depth ≤ formulaMaxDepth) :
    (p.having (0x29 :: rest) named).finish parsed depth = .ok (parsed, p.having rest named) := by
  have hbounded : (p.having (0x29 :: rest) named).bounded parsed.nodes
      (depth - 1 + parsed.depth) = .ok () := bounded_eq hnodes hdepth
  rw [Reader.finish, hbounded]
  rfl

/-- The words of the calls a printed formula has. -/
def printedWords : List (List UInt8) := [ascii "eq", ascii "mem", ascii "not", ascii "imp", ascii "all"]

theorem printedWords_names : ∀ w ∈ printedWords, w = w.headD 0 :: w.tail ∧
    alphabetic (w.headD 0) = true ∧ ∀ c ∈ w.tail, nameByte c = true := by
  intro w hw
  simp only [printedWords, List.mem_cons, List.not_mem_nil, or_false] at hw
  obtain rfl | rfl | rfl | rfl | rfl := hw <;>
    exact ⟨rfl, by decide, List.all_eq_true.mp (by decide)⟩

/-- A call whose inside is read. -/
theorem parse_call {w text : List UInt8} {levels depth : ℕ} (hw : w ∈ printedWords)
    (hdepth : depth ≤ formulaMaxDepth) :
    Reader.parse (levels + 1) depth (p.having (w ++ 0x28 :: text) named) =
      (Reader.callBody (Reader.parse levels) w depth (p.having text named) >>=
        fun r => r.2.finish r.1 depth) := by
  obtain ⟨hcons, hb, hword⟩ := printedWords_names w hw
  generalize w.headD 0 = b at hcons hb
  generalize w.tail = word at hcons hword
  subst hcons
  have hbounded : (p.having (b :: word ++ 0x28 :: text) named).bounded 0 depth = .ok () :=
    bounded_eq (Nat.zero_le _) hdepth
  have hname : (p.having (b :: word ++ 0x28 :: text) named).readName =
      .ok (b :: word, p.having (0x28 :: text) named) := by
    unfold Reader.readName Reader.having
    rw [name_append hb hword (by
      intro c hc
      cases hc
      decide)]
    rfl
  rw [Reader.parse, hbounded, ok_bind, hname, ok_bind]
  rfl

theorem equal_mem : ascii "eq" ∈ printedWords := by simp [printedWords]
theorem member_mem : ascii "mem" ∈ printedWords := by simp [printedWords]
theorem not_mem : ascii "not" ∈ printedWords := by simp [printedWords]
theorem implies_mem : ascii "imp" ∈ printedWords := by simp [printedWords]
theorem forAll_mem : ascii "all" ∈ printedWords := by simp [printedWords]

/-- A printed atom. -/
theorem atom_text {depth : ℕ} {l r : Variable FreeVariable} {make : FreeVariable → FreeVariable → Formula}
    {node : Variable FreeVariable → Variable FreeVariable → PrimitiveNode}
    (hmake : ∀ v w, (make v w).node = node (.free v) (.free w))
    (hl : l.occurrences = []) (hr : r.occurrences = []) (hscopedl : l.Scoped depth)
    (hscopedr : r.Scoped depth) (h : depth ≤ named) (hnamed : named + 1 < 2 ^ 32) :
    ∃ f : Formula, f.node = node (l.opened depth 0) (r.opened depth 0) ∧
      (p.having (variableText depth l ++ 0x2c :: 0x20 :: (variableText depth r ++ 0x29 :: rest))
        named).atom make false = .ok (⟨f, 1, 1⟩, p.having (0x29 :: rest) named) := by
  have hcomma : ∀ text : List UInt8, ∀ c ∈ (0x2c :: text).head?, nameByte c = false := by
    intro text c hc
    cases hc
    decide
  have hclose : ∀ c ∈ (0x29 :: rest).head?, nameByte c = false := by
    intro c hc
    cases hc
    decide
  obtain ⟨v, hv, hreadl⟩ := readVariable_text (p := p) hl hscopedl h hnamed
    (hcomma (0x20 :: (variableText depth r ++ 0x29 :: rest)))
  obtain ⟨w, hw, hreadr⟩ := readVariable_text (p := p) hr hscopedr h hnamed hclose
  refine ⟨make v w, by rw [hmake, hv, hw], ?_⟩
  rw [Reader.atom, hreadl, ok_bind]
  dsimp only
  rw [expect_comma, ok_bind, readVariable_blank, hreadr]
  rfl

/-- The only binder of a printed quantifier. -/
theorem binders_text {i : ℕ} (h : i ≤ named) (hnamed : named + 1 < 2 ^ 32) :
    (p.having (binderName i ++ 0x2c :: rest) named).binders =
      .ok ([⟨UInt32.ofNat i⟩], p.having (0x2c :: rest) (max named (i + 1))) := by
  have hread := @readVariable_binderName p (0x2c :: rest) named i h hnamed (by
    intro c hc
    cases hc
    decide)
  change Reader.bindersFrom false (255 + 1) [] (p.having (binderName i ++ 0x2c :: rest) named) = _
  rw [Reader.bindersFrom, hread]
  rfl

theorem negated_eq {body : Parsed} {depth : ℕ} (hnodes : body.nodes + 1 ≤ p.maximumNodes)
    (hdepth : depth - 1 + (body.depth + 1) ≤ formulaMaxDepth) :
    p.negated body depth = .ok ⟨body.formula.negate, body.nodes + 1, body.depth + 1⟩ := by
  rw [Reader.negated, bounded_eq hnodes hdepth]
  rfl

theorem binary_implies_eq {left right : Parsed} {depth : ℕ}
    (hnodes : left.nodes + right.nodes + 1 ≤ p.maximumNodes)
    (hdepth : depth - 1 + (max left.depth right.depth + 1) ≤ formulaMaxDepth) :
    p.binary .implies left right depth = .ok ⟨left.formula.implies right.formula,
      left.nodes + right.nodes + 1, max left.depth right.depth + 1⟩ := by
  rw [Reader.binary, binaryShape]
  dsimp only
  rw [bounded_eq hnodes hdepth]
  rfl

theorem quantified_eq {x : FreeVariable} {body : Parsed} {depth : ℕ}
    (hnodes : body.nodes + 1 ≤ p.maximumNodes)
    (hdepth : depth - 1 + (body.depth + 1) ≤ formulaMaxDepth) :
    p.quantified false [x] body depth =
      .ok ⟨.forAll x body.formula, body.nodes + 1, body.depth + 1⟩ := by
  rw [Reader.quantified]
  dsimp only [List.length_singleton, quantifierLevels]
  rw [if_neg Bool.false_ne_true, Nat.one_mul, bounded_eq hnodes hdepth]
  rfl

end

theorem depth_pos (n : PrimitiveNode) : 0 < n.depth := by
  cases n with
  | definedRelation s => exact s.elim
  | _ => simp [Node.depth]

/-- A printed formula is read as what it was opened to. -/
theorem parse_text {n : PrimitiveNode} (p : Reader) (rest : List UInt8) (outer depth levels named : ℕ)
    (hfree : n.occurrences = []) (hscoped : n.Scoped outer) (houter : outer < depth)
    (hnamed : outer ≤ named) (hle : named ≤ formulaMaxDepth)
    (hlevels : formulaMaxDepth < levels + depth) (hdepth : depth - 1 + n.depth ≤ formulaMaxDepth)
    (hnodes : n.nodeCount ≤ p.maximumNodes) :
    ∃ named', named ≤ named' ∧ named' ≤ formulaMaxDepth ∧
      Reader.parse levels depth (p.having (formulaText outer n ++ rest) named) =
        .ok (⟨.opened outer n, n.nodeCount, n.depth⟩, p.having rest named') := by
  have hmax : formulaMaxDepth = 256 := rfl
  have hpositive := depth_pos n
  obtain ⟨levels, rfl⟩ : ∃ l, levels = l + 1 := ⟨levels - 1, by omega⟩
  induction n generalizing rest outer depth levels named with
  | definedRelation s => exact s.elim
  | equal l r =>
    obtain ⟨hl, hr⟩ := List.append_eq_nil_iff.mp hfree
    obtain ⟨f, hf, hatom⟩ := @atom_text p rest named outer l r .equal .equal
      (fun _ _ => rfl) hl hr hscoped.1 hscoped.2 hnamed (by omega)
    obtain rfl : f = Formula.opened outer (.equal l r) := Formula.ext hf
    refine ⟨named, le_rfl, hle, ?_⟩
    rw [formulaText_equal, parse_call equal_mem (by omega), Reader.callBody,
      show Operator.parse (ascii "eq") = some .equal from rfl]
    dsimp only
    rw [hatom, ok_bind]
    exact finish_text hnodes hdepth
  | member l r =>
    obtain ⟨hl, hr⟩ := List.append_eq_nil_iff.mp hfree
    obtain ⟨f, hf, hatom⟩ := @atom_text p rest named outer l r .member .member
      (fun _ _ => rfl) hl hr hscoped.1 hscoped.2 hnamed (by omega)
    obtain rfl : f = Formula.opened outer (.member l r) := Formula.ext hf
    refine ⟨named, le_rfl, hle, ?_⟩
    rw [formulaText_member, parse_call member_mem (by omega), Reader.callBody,
      show Operator.parse (ascii "mem") = some .member from rfl]
    dsimp only
    rw [hatom, ok_bind]
    exact finish_text hnodes hdepth
  | not n ih =>
    have hpositive' := depth_pos n
    simp only [Node.depth, Node.nodeCount] at hdepth hnodes
    have hnodes' : n.nodeCount ≤ p.maximumNodes := by omega
    obtain ⟨levels, rfl⟩ : ∃ l, levels = l + 1 := ⟨levels - 1, by omega⟩
    obtain ⟨named', hge, hle', hparse⟩ := ih (0x29 :: rest) outer (depth + 1)
      named hfree hscoped (by omega) hnamed hle (by omega) hnodes' hpositive' levels (by omega)
    refine ⟨named', hge, hle', ?_⟩
    rw [formulaText_not, parse_call not_mem (by omega), Reader.callBody,
      show Operator.parse (ascii "not") = some .not from rfl]
    dsimp only
    rw [hparse, ok_bind]
    dsimp only
    rw [negated_eq (by exact hnodes) (by dsimp only; omega), ok_bind]
    exact finish_text hnodes hdepth
  | implies a b iha ihb =>
    have hpositivea := depth_pos a
    have hpositiveb := depth_pos b
    obtain ⟨ha, hb⟩ := List.append_eq_nil_iff.mp hfree
    simp only [Node.depth, Node.nodeCount] at hdepth hnodes
    have hnodesa : a.nodeCount ≤ p.maximumNodes := by omega
    have hnodesb : b.nodeCount ≤ p.maximumNodes := by omega
    obtain ⟨levels, rfl⟩ : ∃ l, levels = l + 1 := ⟨levels - 1, by omega⟩
    obtain ⟨named₁, hge₁, hle₁, hparsea⟩ := iha
      (0x2c :: 0x20 :: (formulaText outer b ++ 0x29 :: rest)) outer (depth + 1)
      named ha hscoped.1 (by omega) hnamed hle (by omega) hnodesa hpositivea levels
      (by omega)
    obtain ⟨named₂, hge₂, hle₂, hparseb⟩ := ihb (0x29 :: rest) outer (depth + 1)
      named₁ hb hscoped.2 (by omega) (by omega) hle₁ (by omega) hnodesb hpositiveb levels
      (by omega)
    refine ⟨named₂, hge₁.trans hge₂, hle₂, ?_⟩
    rw [formulaText_implies, parse_call implies_mem (by omega), Reader.callBody,
      show Operator.parse (ascii "imp") = some (.binary .implies) from rfl]
    dsimp only
    rw [hparsea, ok_bind]
    dsimp only
    rw [expect_comma, ok_bind, parse_blank, hparseb, ok_bind]
    dsimp only
    rw [binary_implies_eq hnodes hdepth, ok_bind]
    exact finish_text hnodes hdepth
  | forAll n ih =>
    have hpositive' := depth_pos n
    simp only [Node.depth, Node.nodeCount] at hdepth hnodes
    have hnodes' : n.nodeCount ≤ p.maximumNodes := by omega
    have hbody : n.Scoped (outer + 1) := hscoped
    obtain ⟨levels, rfl⟩ : ∃ l, levels = l + 1 := ⟨levels - 1, by omega⟩
    obtain ⟨named', hge, hle', hparse⟩ := ih (0x29 :: rest) (outer + 1)
      (depth + 1) (max named (outer + 1)) hfree hbody (by omega) (by omega)
      (by omega) (by omega) hnodes' hpositive' levels (by omega)
    refine ⟨named', (Nat.le_max_left _ _).trans hge, hle', ?_⟩
    have hbounded : (p.having (formulaText (outer + 1) n ++ 0x29 :: rest)
        (max named (outer + 1))).bounded (1 * quantifierLevels false + 1)
          (depth + 1 * quantifierLevels false) = .ok () :=
      bounded_eq (show 1 + 1 ≤ p.maximumNodes by
        have := Node.nodeCount_pos n
        omega) (show depth + 1 ≤ formulaMaxDepth by omega)
    rw [formulaText_forAll, parse_call forAll_mem (by omega), Reader.callBody,
      show Operator.parse (ascii "all") = some (.quantifier false) from rfl]
    dsimp only
    rw [binders_text hnamed (by omega), ok_bind]
    dsimp only
    rw [expect_comma, ok_bind]
    change (((p.having (formulaText (outer + 1) n ++ 0x29 :: rest)
      (max named (outer + 1))).bounded (1 * quantifierLevels false + 1)
        (depth + 1 * quantifierLevels false) >>= _) >>= _) = _
    rw [hbounded, ok_bind, parse_blank]
    change ((Reader.parse (levels + 1) (depth + 1) _ >>= _) >>= _) = _
    rw [hparse, ok_bind]
    dsimp only
    rw [quantified_eq hnodes hdepth, ok_bind]
    dsimp only
    rw [Formula.forAll_opened (n := n) (by omega) hfree hbody]
    exact finish_text hnodes hdepth

/-- The source of a question that was made of a formula. -/
def printed (f : Formula) : String := "goal = " ++ f.toSource

theorem sourceBytes_printed (f : Formula) : sourceBytes (printed f) =
    ascii "goal" ++ 0x20 :: 0x3d :: 0x20 :: formulaText 0 f.node := by
  rw [printed, sourceBytes_append]
  rfl

/-- A printed question has the formula it was printed from as its goal. -/
theorem goal_printed {f : Formula} (hclosed : f.isClosed = true)
    (hdepth : f.node.depth ≤ formulaMaxDepth) :
    (start (sourceBytes (printed f))).goal = .ok ⟨f, f.node.nodeCount, f.node.depth⟩ := by
  have hnodes : f.node.nodeCount ≤ (start (sourceBytes (printed f))).maximumNodes := by
    have hle := nodeCount_le_formulaText 0 f.node
    rw [start, sourceBytes_printed]
    simp only [List.length_append, List.length_cons]
    omega
  obtain ⟨named, -, -, hparse⟩ := parse_text (start (sourceBytes (printed f))) [] 0 1
    formulaMaxDepth 0 (Formula.isClosed_iff.mp hclosed)
    f.wellScoped (by omega) le_rfl (Nat.zero_le _) (by omega) (by omega) hnodes
  rw [List.append_nil, Formula.opened_zero] at hparse
  have hstart : start (sourceBytes (printed f)) = (start (sourceBytes (printed f))).having
      (0x67 :: [0x6f, 0x61, 0x6c] ++ 0x20 :: 0x3d :: 0x20 :: formulaText 0 f.node) 0 := by
    rw [Reader.having, start, sourceBytes_printed]
    rfl
  rw [hstart]
  generalize start (sourceBytes (printed f)) = p at hparse
  have hname : (p.having (0x67 :: [0x6f, 0x61, 0x6c] ++ 0x20 :: 0x3d :: 0x20 ::
      formulaText 0 f.node) 0).readName =
        .ok (0x67 :: [0x6f, 0x61, 0x6c], p.having (0x20 :: 0x3d :: 0x20 :: formulaText 0 f.node) 0) := by
    unfold Reader.readName Reader.having
    rw [name_append (by decide) (List.all_eq_true.mp (by decide)) (by
      intro c hc
      cases hc
      decide)]
    rfl
  have hword : (p.having (0x67 :: [0x6f, 0x61, 0x6c] ++ 0x20 :: 0x3d :: 0x20 ::
      formulaText 0 f.node) 0).word "goal" =
        .ok (p.having (0x20 :: 0x3d :: 0x20 :: formulaText 0 f.node) 0) := by
    rw [Reader.word, hname]
    rfl
  have hbody : (p.having (0x20 :: formulaText 0 f.node) 0).formula =
      .ok (⟨f, f.node.nodeCount, f.node.depth⟩, p.having [] named) := by
    rw [Reader.formula, parse_blank, hparse]
  have hlet : ¬ wordAt (p.having (0x67 :: [0x6f, 0x61, 0x6c] ++ 0x20 :: 0x3d :: 0x20 ::
      formulaText 0 f.node) 0).skipTrivia.rest (ascii "let") = true := Bool.false_ne_true
  rw [Reader.goal, Reader.optionalBindings, if_neg hlet, ok_bind, Reader.statement]
  change ((Reader.word (p.having (0x67 :: [0x6f, 0x61, 0x6c] ++ 0x20 :: 0x3d :: 0x20 ::
    formulaText 0 f.node) 0) "goal" >>= _) >>= _) = _
  rw [hword, ok_bind]
  change (Reader.formula (p.having (0x20 :: formulaText 0 f.node) 0) >>= _) = _
  rw [hbody]
  rfl

section

variable {sha256 : List UInt8 → Digest} {source : String} {q : CompiledQuestion} {f : Formula}
  {bytes : List UInt8}

theorem fromParts_eq_ok : fromParts sha256 source f = .ok q ↔
    ∃ t, QuestionTarget.fromFormula sha256 f = .ok t ∧
      ⟨source, sha256 (QuestionTarget.hashInput
        (asciiBytes "naome:state:question-source:v1" ++ [0]) [sourceBytes source]), t⟩ = q := by
  simp only [fromParts, bind_eq_ok, pure_eq_ok]

theorem compile_eq_ok : compile sha256 source = .ok q ↔
    (sourceBytes source).length ≤ questionSourceMaxBytes ∧
      ∃ parsed, (start (sourceBytes source)).goal = .ok parsed ∧ parsed.formula.isClosed = true ∧
        fromParts sha256 source parsed.formula = .ok q := by
  simp only [compile, bind_eq_ok, require_eq_ok, exists_const]

theorem source_of_compile (h : compile sha256 source = .ok q) : q.source = source := by
  obtain ⟨-, _, -, -, hparts⟩ := compile_eq_ok.1 h
  obtain ⟨_, -, rfl⟩ := fromParts_eq_ok.1 hparts
  rfl

theorem fromFormula_eq_ok : fromFormula sha256 f = .ok q ↔
    (sourceBytes (printed f)).length ≤ questionSourceMaxBytes ∧
      fromParts sha256 (printed f) f = .ok q := by
  simp only [fromFormula, printed, bind_eq_ok, require_eq_ok, exists_const]

/-- A question made of a formula has the formula. -/
theorem formula_of_fromParts (h : fromParts sha256 source f = .ok q) :
    q.formula = f ∧ f.isClosed = true ∧ f.WithinLimits := by
  obtain ⟨t, ht, rfl⟩ := fromParts_eq_ok.1 h
  obtain ⟨k, core, rfl, hcore⟩ := f.exists_core
  obtain ⟨hclosed, hwithin, -, -, rfl⟩ := (QuestionTarget.fromFormula_eq_ok hcore).mp ht
  exact ⟨rfl, by rw [Formula.isClosed_negate_iterate, hclosed], hwithin⟩

/-- Printing a closed formula and compiling the text is the same as making a question of it. -/
theorem compile_printed (hclosed : f.isClosed = true) (hdepth : f.node.depth ≤ formulaMaxDepth) :
    compile sha256 (printed f) = fromFormula sha256 f := by
  rw [compile, fromFormula, goal_printed hclosed hdepth, ok_bind]
  dsimp only
  rw [show require (f.isClosed = true) _ = .ok () from require_eq_ok.mpr hclosed, ok_bind]
  rfl

theorem fromUTF8_eq_some {text : List UInt8} :
    String.fromUTF8? ⟨text.toArray⟩ = some source ↔ sourceBytes source = text := by
  unfold String.fromUTF8?
  constructor
  · intro h
    split_ifs at h with hvalid
    cases h
    rfl
  · rintro rfl
    have hbytes : (⟨(sourceBytes source).toArray⟩ : ByteArray) = source.toByteArray := rfl
    rw [hbytes, dif_pos source.isValidUTF8]
    rfl

theorem toCanonicalBytes_eq_ok : q.toCanonicalBytes = .ok bytes ↔
    (sourceBytes q.source).length < 2 ^ 32 ∧
      1 :: bigEndian 4 (sourceBytes q.source).length ++ sourceBytes q.source = bytes := by
  simp only [toCanonicalBytes, bind_eq_ok, require_eq_ok, exists_const, pure_eq_ok]

theorem length_lt_of_compile (h : compile sha256 source = .ok q) :
    (sourceBytes source).length < 2 ^ 32 :=
  lt_of_le_of_lt (compile_eq_ok.1 h).1 (by decide)

/-- The accepted bytes are the encodings of the questions that compile. -/
theorem fromCanonicalBytes_eq_ok : fromCanonicalBytes sha256 bytes = .ok q ↔
    compile sha256 q.source = .ok q ∧ q.toCanonicalBytes = .ok bytes := by
  simp only [fromCanonicalBytes, bind_eq_ok, require_eq_ok, exists_const, orError_eq_ok, Prod.exists,
    readBigEndian_eq_ok, fromUTF8_eq_some, toCanonicalBytes_eq_ok]
  constructor
  · rintro ⟨-, version, hversion, rfl, length, rest, ⟨hlength, htail⟩, -, -, source, hsource, rfl, hq⟩
    rw [List.take_length] at hsource
    obtain rfl := source_of_compile hq
    subst hsource
    refine ⟨hq, length_lt_of_compile hq, ?_⟩
    cases bytes with
    | nil => cases hversion
    | cons b tail =>
      cases hversion
      exact congrArg (List.cons 1) htail.symm
  · rintro ⟨hq, hlength, rfl⟩
    have hsource := (compile_eq_ok.1 hq).1
    refine ⟨?_, 1, rfl, rfl, _, _, ⟨hlength, rfl⟩, hsource, le_rfl, q.source, ?_, rfl, hq⟩
    · simp only [List.length_append, List.length_cons, length_bigEndian]
      omega
    · rw [List.take_length]

/-- A compiled question is read from its bytes. -/
theorem exists_canonicalBytes (h : compile sha256 q.source = .ok q) :
    ∃ bytes, q.toCanonicalBytes = .ok bytes ∧ fromCanonicalBytes sha256 bytes = .ok q := by
  have hbytes := toCanonicalBytes_eq_ok.2 ⟨length_lt_of_compile h, rfl⟩
  exact ⟨_, hbytes, fromCanonicalBytes_eq_ok.2 ⟨h, hbytes⟩⟩

end

/-- A question made of a formula has the formula, compiles to itself and survives its bytes. For a
closed formula of the allowed depth, printing and compiling decide and answer as making a question of
the formula does, and a question printed again has the same target. -/
theorem printed_questions (sha256 : List UInt8 → Digest) (f : Formula) :
    (∀ q, fromFormula sha256 f = .ok q → q.formula = f ∧ compile sha256 q.source = .ok q ∧
      ∃ bytes, q.toCanonicalBytes = .ok bytes ∧ fromCanonicalBytes sha256 bytes = .ok q) ∧
    (f.isClosed = true → f.node.depth ≤ formulaMaxDepth →
      compile sha256 ("goal = " ++ f.toSource) = fromFormula sha256 f) ∧
    ∀ source q q', compile sha256 source = .ok q → fromFormula sha256 q.formula = .ok q' →
      q'.target = q.target := by
  refine ⟨fun q hq => ?_, compile_printed, fun source q q' hq hq' => ?_⟩
  · obtain ⟨-, hparts⟩ := fromFormula_eq_ok.1 hq
    obtain ⟨hformula, hclosed, hwithin⟩ := formula_of_fromParts hparts
    have hcompile : compile sha256 (printed f) = .ok q := by
      rw [compile_printed hclosed hwithin.2, hq]
    have hsource : compile sha256 q.source = .ok q := by
      rw [source_of_compile hcompile, hcompile]
    exact ⟨hformula, hsource, exists_canonicalBytes hsource⟩
  · obtain ⟨-, parsed, -, -, hparts⟩ := compile_eq_ok.1 hq
    obtain ⟨hformula, -, -⟩ := formula_of_fromParts hparts
    obtain ⟨t, ht, rfl⟩ := fromParts_eq_ok.1 hparts
    obtain ⟨t', ht', rfl⟩ := fromParts_eq_ok.1 (fromFormula_eq_ok.1 hq').2
    rw [hformula, ht] at ht'
    cases ht'
    rfl

theorem printed_questions_reflexivity : ∃ q,
    fromFormula (fun _ => 0) (.forAll ⟨0⟩ (.equal ⟨0⟩ ⟨0⟩)) = .ok q ∧
      compile (fun _ => 0) q.source = .ok q := by
  have hq : ∃ q, fromFormula (fun _ => 0) (.forAll ⟨0⟩ (.equal ⟨0⟩ ⟨0⟩)) = .ok q := ⟨_, rfl⟩
  obtain ⟨q, hq⟩ := hq
  exact ⟨q, hq, ((printed_questions (fun _ => 0) _).1 q hq).2.1⟩

/-- The accepted bytes are exactly the encodings of the questions that compile. A compiled question
keeps its source and has bytes that are read as it, and two encodings are equal when they are read
as questions with one source. -/
theorem canonical_questions (sha256 : List UInt8 → Digest) :
    (∀ bytes q, fromCanonicalBytes sha256 bytes = .ok q ↔
      compile sha256 q.source = .ok q ∧ q.toCanonicalBytes = .ok bytes) ∧
    (∀ source q, compile sha256 source = .ok q → q.source = source ∧
      ∃ bytes, q.toCanonicalBytes = .ok bytes ∧ fromCanonicalBytes sha256 bytes = .ok q) ∧
    ∀ bytes bytes' q q', fromCanonicalBytes sha256 bytes = .ok q →
      fromCanonicalBytes sha256 bytes' = .ok q' → (q.source = q'.source ↔ bytes = bytes') := by
  refine ⟨fun bytes q => fromCanonicalBytes_eq_ok, fun source q hq => ?_, ?_⟩
  · have hsource := source_of_compile hq
    exact ⟨hsource, exists_canonicalBytes (by rw [hsource, hq])⟩
  · intro bytes bytes' q q' hq hq'
    constructor
    · intro hsource
      obtain ⟨-, hbytes⟩ := toCanonicalBytes_eq_ok.1 (fromCanonicalBytes_eq_ok.1 hq).2
      obtain ⟨-, hbytes'⟩ := toCanonicalBytes_eq_ok.1 (fromCanonicalBytes_eq_ok.1 hq').2
      rw [← hbytes, ← hbytes', hsource]
    · rintro rfl
      rw [hq] at hq'
      cases hq'
      rfl

end CompiledQuestion
end Naome
