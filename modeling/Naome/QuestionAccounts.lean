import Naome.FormulaAccounts
import Naome.QuestionRoundTrip

/-!
# Accounts of the parser of questions

The parser of questions never walks a formula to learn its size. What it records of a formula is the
size of the formula, and the formulas of all bindings together stay below the limit of a target.
-/
namespace Naome
open LocallyNameless Outcome

namespace Formula

variable (f g : Formula)

theorem nodeCount_negate : f.negate.node.nodeCount = f.node.nodeCount + 1 := rfl

theorem depth_negate : f.negate.node.depth = f.node.depth + 1 := rfl

theorem nodeCount_bindVariable (existential : Bool) (x : FreeVariable) :
    (CompiledQuestion.bindVariable existential x f).node.nodeCount =
      f.node.nodeCount + Authoring.quantifierLevels existential := by
  cases existential with
  | false =>
    simp [CompiledQuestion.bindVariable, forAll, Node.nodeCount, Authoring.quantifierLevels]
  | true =>
    simp [CompiledQuestion.bindVariable, existsOne, forAll, negate, Node.nodeCount, Node.bindFree,
      Authoring.quantifierLevels]

theorem depth_bindVariable (existential : Bool) (x : FreeVariable) :
    (CompiledQuestion.bindVariable existential x f).node.depth =
      f.node.depth + Authoring.quantifierLevels existential := by
  cases existential with
  | false =>
    simp [CompiledQuestion.bindVariable, forAll, Node.depth, Authoring.quantifierLevels]
  | true =>
    simp [CompiledQuestion.bindVariable, existsOne, forAll, negate, Node.depth, Node.bindFree,
      Authoring.quantifierLevels]

theorem size_foldr_bindVariable (existential : Bool) (xs : List FreeVariable) :
    (xs.foldr (CompiledQuestion.bindVariable existential) f).node.nodeCount =
        f.node.nodeCount + xs.length * Authoring.quantifierLevels existential ∧
      (xs.foldr (CompiledQuestion.bindVariable existential) f).node.depth =
        f.node.depth + xs.length * Authoring.quantifierLevels existential := by
  induction xs with
  | nil => simp
  | cons x xs ih =>
    obtain ⟨hnodes, hdepth⟩ := ih
    simp only [List.foldr_cons, List.length_cons, nodeCount_bindVariable, depth_bindVariable, hnodes,
      hdepth, Nat.succ_mul]
    omega

theorem size_connect (connective : Authoring.Connective) :
    Authoring.binaryShape connective (f.node.nodeCount, f.node.depth)
        (g.node.nodeCount, g.node.depth) =
      ((CompiledQuestion.connect connective f g).node.nodeCount,
        (CompiledQuestion.connect connective f g).node.depth) := by
  cases connective <;>
    simp only [Authoring.binaryShape, CompiledQuestion.connect, implies, conjunction, disjunction,
      biconditional, negate, Node.nodeCount, Node.depth, Prod.mk.injEq] <;>
    omega

end Formula

namespace CompiledQuestion
open Authoring

/-- The recorded size is the size of the formula. -/
structure Parsed.Exact (r : Parsed) : Prop where
  nodes : r.nodes = r.formula.node.nodeCount
  depth : r.depth = r.formula.node.depth

/-- The reader moved on and named variables. -/
def Reader.Moves (p q : Reader) : Prop :=
  ∃ rest vars, rest.length ≤ p.rest.length ∧ q = { p with rest, vars }

namespace Reader

variable {p q r : Reader}

theorem Moves.refl (p : Reader) : p.Moves p := ⟨p.rest, p.vars, le_rfl, rfl⟩

theorem Moves.trans (h : p.Moves q) (h' : q.Moves r) : p.Moves r := by
  obtain ⟨_, _, hle, rfl⟩ := h
  obtain ⟨rest, vars, hle', rfl⟩ := h'
  exact ⟨rest, vars, hle'.trans hle, rfl⟩

theorem moves_rest {rest : List UInt8} (h : rest.length < p.rest.length) :
    p.Moves { p with rest } := ⟨rest, p.vars, h.le, rfl⟩

theorem Moves.bindings (h : p.Moves q) : q.bindings = p.bindings := by
  obtain ⟨_, _, -, rfl⟩ := h
  rfl

theorem Moves.maximumNodes (h : p.Moves q) : q.maximumNodes = p.maximumNodes := by
  obtain ⟨_, _, -, rfl⟩ := h
  rfl

theorem Moves.length_le (h : p.Moves q) : q.rest.length ≤ p.rest.length := by
  obtain ⟨_, _, hle, rfl⟩ := h
  exact hle

theorem readName_eq_ok {word : List UInt8} (h : p.readName = .ok (word, q)) :
    ∃ rest, name p.rest = some (word, rest) ∧ q = { p with rest } := by
  simp only [readName, bind_eq_ok, orError_eq_ok, Prod.exists, pure_eq_ok, Prod.mk.injEq] at h
  obtain ⟨_, rest, hname, rfl, rfl⟩ := h
  exact ⟨rest, hname, rfl⟩

theorem expect_eq_ok {b : UInt8} (h : p.expect b = .ok q) :
    ∃ rest, punctuation b p.rest = some rest ∧ q = { p with rest } := by
  simp only [expect, bind_eq_ok, orError_eq_ok, pure_eq_ok] at h
  obtain ⟨rest, hread, rfl⟩ := h
  exact ⟨rest, hread, rfl⟩

theorem moves_expect {b : UInt8} (h : p.expect b = .ok q) : p.Moves q := by
  obtain ⟨rest, hread, rfl⟩ := expect_eq_ok h
  exact moves_rest (length_punctuation hread)

theorem readVariable_eq_ok {x : FreeVariable} (h : p.readVariable = .ok (x, q)) :
    ∃ word rest vars, name p.rest = some (word, rest) ∧ p.vars.named word = some (x, vars) ∧
      q = { p with rest, vars } := by
  simp only [readVariable, bind_eq_ok, Prod.exists] at h
  obtain ⟨word, p₁, hread, h⟩ := h
  obtain ⟨rest, hname, rfl⟩ := readName_eq_ok hread
  simp only [variableNamed, bind_eq_ok, orError_eq_ok, Prod.exists, pure_eq_ok, Prod.mk.injEq] at h
  obtain ⟨_, vars, hnamed, rfl, rfl⟩ := h
  exact ⟨word, rest, vars, hname, hnamed, rfl⟩

theorem moves_readVariable {x : FreeVariable} (h : p.readVariable = .ok (x, q)) : p.Moves q := by
  obtain ⟨_, rest, vars, hname, -, rfl⟩ := readVariable_eq_ok h
  exact ⟨rest, vars, (length_name hname).le, rfl⟩

theorem moves_bindersFrom {list : Bool} {remaining : ℕ} {result xs : List FreeVariable}
    (h : bindersFrom list remaining result p = .ok (xs, q)) : p.Moves q := by
  induction remaining generalizing result p with
  | zero => cases h
  | succ remaining ih =>
    simp only [bindersFrom, bind_eq_ok, Prod.exists] at h
    obtain ⟨x, p₁, hread, h⟩ := h
    have hmoves := moves_readVariable hread
    split_ifs at h with hlist
    · cases h
      exact hmoves
    · cases hclose : punctuation 0x5d p₁.rest with
      | some rest =>
        rw [hclose] at h
        cases h
        exact hmoves.trans (moves_rest (length_punctuation hclose))
      | none =>
        rw [hclose] at h
        simp only [bind_eq_ok] at h
        obtain ⟨p₂, hcomma, h⟩ := h
        have hmoves' := hmoves.trans (moves_expect hcomma)
        cases hclose' : punctuation 0x5d p₂.rest with
        | some rest =>
          rw [hclose'] at h
          cases h
          exact hmoves'.trans (moves_rest (length_punctuation hclose'))
        | none =>
          rw [hclose'] at h
          exact hmoves'.trans (ih h)

theorem moves_binders {xs : List FreeVariable} (h : p.binders = .ok (xs, q)) : p.Moves q := by
  unfold binders at h
  cases hopen : punctuation 0x5b p.rest with
  | some rest =>
    rw [hopen] at h
    exact (moves_rest (length_punctuation hopen)).trans (moves_bindersFrom h)
  | none =>
    rw [hopen] at h
    exact moves_bindersFrom h

theorem finish_eq_ok {s t : Parsed} {depth : ℕ} (h : p.finish s depth = .ok (t, q)) :
    t = s ∧ s.nodes ≤ p.maximumNodes ∧ depth - 1 + s.depth ≤ formulaMaxDepth ∧
      ∃ rest, callEnd p.rest = some rest ∧ q = { p with rest } := by
  simp only [finish, bind_eq_ok, bounded_eq_ok, exists_const, pure_eq_ok, Prod.mk.injEq] at h
  obtain ⟨⟨hnodes, hdepth⟩, p₁, hclose, rfl, rfl⟩ := h
  refine ⟨rfl, hnodes, hdepth, ?_⟩
  unfold callEnd
  cases hcomma : punctuation 0x2c p.rest with
  | some behind =>
    rw [hcomma] at hclose
    obtain ⟨rest, hread, rfl⟩ := expect_eq_ok hclose
    exact ⟨rest, hread, rfl⟩
  | none =>
    rw [hcomma] at hclose
    obtain ⟨rest, hread, rfl⟩ := expect_eq_ok hclose
    exact ⟨rest, hread, rfl⟩

theorem quantified_eq_ok {existential : Bool} {xs : List FreeVariable} {s t : Parsed} {depth : ℕ}
    (h : p.quantified existential xs s depth = .ok t) :
    t = ⟨xs.foldr (bindVariable existential) s.formula, s.nodes + xs.length * quantifierLevels existential,
      s.depth + xs.length * quantifierLevels existential⟩ := by
  simp only [quantified, bind_eq_ok, bounded_eq_ok, exists_const, pure_eq_ok] at h
  exact h.2.symm

theorem negated_eq_ok {s t : Parsed} {depth : ℕ} (h : p.negated s depth = .ok t) :
    t = ⟨s.formula.negate, s.nodes + 1, s.depth + 1⟩ := by
  simp only [negated, bind_eq_ok, bounded_eq_ok, exists_const, pure_eq_ok] at h
  exact h.2.symm

theorem binary_eq_ok {connective : Connective} {left right t : Parsed} {depth : ℕ}
    (h : p.binary connective left right depth = .ok t) :
    t.formula = connect connective left.formula right.formula ∧
      (t.nodes, t.depth) =
        binaryShape connective (left.nodes, left.depth) (right.nodes, right.depth) := by
  simp only [binary, bind_eq_ok, bounded_eq_ok, exists_const, pure_eq_ok] at h
  obtain ⟨-, rfl⟩ := h
  exact ⟨rfl, rfl⟩

theorem exact_connect {connective : Connective} {left right t : Parsed} (hleft : left.Exact)
    (hright : right.Exact) (hformula : t.formula = connect connective left.formula right.formula)
    (hsize : (t.nodes, t.depth) =
      binaryShape connective (left.nodes, left.depth) (right.nodes, right.depth)) : t.Exact := by
  rw [hleft.nodes, hleft.depth, hright.nodes, hright.depth, Formula.size_connect, ← hformula,
    Prod.mk.injEq] at hsize
  exact ⟨hsize.1, hsize.2⟩

theorem atom_eq_ok {make : FreeVariable → FreeVariable → Formula} {negated : Bool} {t : Parsed}
    (h : p.atom make negated = .ok (t, q)) : p.Moves q ∧
      ∃ left right, t = if negated then ⟨(make left right).negate, 2, 2⟩ else ⟨make left right, 1, 1⟩ := by
  simp only [atom, bind_eq_ok, Prod.exists, pure_eq_ok, Prod.mk.injEq] at h
  obtain ⟨left, p₁, hleft, p₂, hcomma, right, p₃, hright, rfl, rfl⟩ := h
  have hmoves := (moves_readVariable hleft).trans (moves_expect hcomma)
  exact ⟨hmoves.trans (moves_readVariable hright), left, right, rfl⟩

/-- What a reader of formulas does where it succeeds: the reader only moved, and the recorded size is
the size of a formula within the limits. -/
structure Accounts (p : Reader) (depth : ℕ) (t : Parsed) (q : Reader) : Prop where
  moves : p.Moves q
  exact : t.Exact
  nodes : t.nodes ≤ p.maximumNodes
  depth : depth - 1 + t.depth ≤ formulaMaxDepth

theorem accounts_reference {word : List UInt8} {depth : ℕ} {t : Parsed}
    (hexact : ∀ b ∈ p.bindings, b.2.Exact) (h : p.reference word depth = .ok (t, q)) :
    p.Accounts depth t q := by
  simp only [reference, bind_eq_ok, orError_eq_ok, bounded_eq_ok, exists_const, pure_eq_ok,
    Prod.mk.injEq] at h
  obtain ⟨b, hlookup, ⟨hnodes, hdepth⟩, rfl, rfl⟩ := h
  obtain ⟨before, behind, hsplit, -⟩ := List.lookup_eq_some_iff.mp hlookup
  exact ⟨.refl p, hexact (word, b) (by simp [hsplit]), hnodes, hdepth⟩

/-- The inside of a call, when the formulas in it are accounted for. -/
theorem accounts_callBody {parse : ℕ → Reader → QuestionM (Parsed × Reader)} {word : List UInt8}
    {depth : ℕ} {t : Parsed} (hexact : ∀ b ∈ p.bindings, b.2.Exact)
    (hparse : ∀ (p : Reader) depth t q, (∀ b ∈ p.bindings, b.2.Exact) →
      parse depth p = .ok (t, q) → p.Accounts depth t q)
    (h : callBody parse word depth p = .ok (t, q)) : p.Moves q ∧ t.Exact := by
  have hbindings : ∀ {r : Reader}, p.Moves r → ∀ b ∈ r.bindings, b.2.Exact := by
    intro r hmoves
    rw [hmoves.bindings]
    exact hexact
  unfold callBody at h
  cases hword : Operator.parse word with
  | none =>
    rw [hword] at h
    cases h
  | some op =>
    rw [hword] at h
    cases op with
    | equal =>
      obtain ⟨hmoves, left, right, rfl⟩ := atom_eq_ok h
      exact ⟨hmoves, rfl, rfl⟩
    | member =>
      obtain ⟨hmoves, left, right, rfl⟩ := atom_eq_ok h
      exact ⟨hmoves, rfl, rfl⟩
    | unequal =>
      obtain ⟨hmoves, left, right, rfl⟩ := atom_eq_ok h
      exact ⟨hmoves, rfl, rfl⟩
    | quantifier existential =>
      simp only [bind_eq_ok, Prod.exists, bounded_eq_ok, exists_const, pure_eq_ok,
        Prod.mk.injEq] at h
      obtain ⟨xs, p₁, hbinders, p₂, hcomma, -, s, p₃, hs, t, ht, rfl, rfl⟩ := h
      have hmoves := (moves_binders hbinders).trans (moves_expect hcomma)
      have haccounts := hparse _ _ _ _ (hbindings hmoves) hs
      obtain rfl := quantified_eq_ok ht
      obtain ⟨hnodes, hdepth⟩ := Formula.size_foldr_bindVariable s.formula existential xs
      refine ⟨hmoves.trans haccounts.moves, ?_, ?_⟩
      · rw [hnodes, haccounts.exact.nodes]
      · rw [hdepth, haccounts.exact.depth]
    | not =>
      simp only [bind_eq_ok, Prod.exists, pure_eq_ok, Prod.mk.injEq] at h
      obtain ⟨s, p₁, hs, t, ht, rfl, rfl⟩ := h
      have haccounts := hparse _ _ _ _ hexact hs
      obtain rfl := negated_eq_ok ht
      refine ⟨haccounts.moves, ?_, ?_⟩
      · rw [Formula.nodeCount_negate, haccounts.exact.nodes]
      · rw [Formula.depth_negate, haccounts.exact.depth]
    | binary connective =>
      simp only [bind_eq_ok, Prod.exists, pure_eq_ok, Prod.mk.injEq] at h
      obtain ⟨left, p₁, hleft, p₂, hcomma, right, p₃, hright, t, ht, rfl, rfl⟩ := h
      have haccounts := hparse _ _ _ _ hexact hleft
      have hmoves := haccounts.moves.trans (moves_expect hcomma)
      have haccounts' := hparse _ _ _ _ (hbindings hmoves) hright
      obtain ⟨hformula, hsize⟩ := binary_eq_ok ht
      exact ⟨hmoves.trans haccounts'.moves, exact_connect haccounts.exact haccounts'.exact hformula hsize⟩

theorem accounts_parse {levels depth : ℕ} {t : Parsed} (hexact : ∀ b ∈ p.bindings, b.2.Exact)
    (h : Reader.parse levels depth p = .ok (t, q)) : p.Accounts depth t q := by
  induction levels generalizing p depth t q with
  | zero => cases h
  | succ levels ih =>
    simp only [Reader.parse, bind_eq_ok, bounded_eq_ok, exists_const, Prod.exists] at h
    obtain ⟨-, word, p₁, hname, h⟩ := h
    obtain ⟨rest, hread, rfl⟩ := readName_eq_ok hname
    have hmoves := moves_rest (length_name hread)
    dsimp only at h
    cases hopen : punctuation 0x28 rest with
    | none =>
      rw [hopen] at h
      have haccounts := accounts_reference (p := { p with rest }) hexact h
      exact ⟨hmoves.trans haccounts.moves, haccounts.exact, haccounts.nodes, haccounts.depth⟩
    | some opened =>
      rw [hopen] at h
      simp only [bind_eq_ok, Prod.exists] at h
      obtain ⟨s, p₂, hbody, hfinish⟩ := h
      obtain ⟨hmoves', hs⟩ := accounts_callBody (p := { p with rest := opened }) hexact
        (fun p depth t q hexact h => ih hexact h) hbody
      have hless := (length_punctuation hopen).trans (length_name hread)
      have hall := (moves_rest hless).trans hmoves'
      obtain ⟨rfl, hnodes, hdepth, rest', hclose, rfl⟩ := finish_eq_ok hfinish
      rw [hall.maximumNodes] at hnodes
      exact ⟨hall.trans (moves_rest (length_callEnd hclose)), hs, hnodes, hdepth⟩

/-- What the reader keeps between two bindings. -/
structure Bound (p : Reader) : Prop where
  exact : ∀ b ∈ p.bindings, b.2.Exact
  reserved : ∀ b ∈ p.bindings, isReservedBindingName b.1 = false
  distinct : (p.bindings.map Prod.fst).Nodup
  total : p.bindingNodes = (p.bindings.map fun b => b.2.nodes).sum
  bounded : p.bindingNodes ≤ questionTargetMaxNodes

theorem bound_start (text : List UInt8) : (start text).Bound where
  exact := by simp [start]
  reserved := by simp [start]
  distinct := by simp [start]
  total := rfl
  bounded := Nat.zero_le _

theorem Moves.bindingNodes (h : p.Moves q) : q.bindingNodes = p.bindingNodes := by
  obtain ⟨_, _, -, rfl⟩ := h
  rfl

theorem Moves.bound (h : p.Moves q) (hp : p.Bound) : q.Bound := by
  obtain ⟨_, _, -, rfl⟩ := h
  exact ⟨hp.exact, hp.reserved, hp.distinct, hp.total, hp.bounded⟩

theorem moves_skipTrivia : p.Moves p.skipTrivia := ⟨_, p.vars, length_trivia _ _, rfl⟩

theorem moves_word {expected : String} (h : p.word expected = .ok q) : p.Moves q := by
  simp only [word, bind_eq_ok, Prod.exists, require_eq_ok, exists_const, pure_eq_ok] at h
  obtain ⟨_, p₁, hname, -, rfl⟩ := h
  obtain ⟨rest, hread, rfl⟩ := readName_eq_ok hname
  exact moves_rest (length_name hread)

theorem bindingName_eq_ok {word : List UInt8} (h : p.bindingName = .ok (word, q)) :
    ∃ rest, name p.rest = some (word, rest) ∧ isReservedBindingName word = false ∧
      p.bindings.lookup word = none ∧ q = { p with rest } := by
  simp only [bindingName, bind_eq_ok, Prod.exists, require_eq_ok, exists_const, pure_eq_ok,
    Prod.mk.injEq] at h
  obtain ⟨word', p₁, hread, hreserved, hlookup, rfl, rfl⟩ := h
  obtain ⟨rest, hname, rfl⟩ := readName_eq_ok hread
  exact ⟨rest, hname, hreserved, Option.isNone_iff_eq_none.mp hlookup, rfl⟩

/-- One more binding: its formula fits into what the other ones left over. -/
theorem formulaBinding_eq_ok (h : p.formulaBinding = .ok q) :
    ∃ word p₁ p₂ p₃ t, p.bindingName = .ok (word, p₁) ∧ p₁.expect 0x3d = .ok p₂ ∧
      Reader.formula { p₂ with maximumNodes := questionTargetMaxNodes - p₂.bindingNodes } =
        .ok (t, p₃) ∧
      q = { p₃ with
        bindingNodes := p₃.bindingNodes + t.nodes
        maximumNodes := p₂.maximumNodes
        bindings := (word, t) :: p₃.bindings } := by
  simp only [formulaBinding, bind_eq_ok, Prod.exists, pure_eq_ok] at h
  obtain ⟨word, p₁, hname, p₂, hequals, t, p₃, hformula, rfl⟩ := h
  exact ⟨word, p₁, p₂, p₃, t, hname, hequals, hformula, rfl⟩

theorem bound_formulaBinding (hp : p.Bound) (h : p.formulaBinding = .ok q) :
    q.Bound ∧ q.maximumNodes = p.maximumNodes := by
  obtain ⟨word, p₁, p₂, p₃, t, hname, hequals, hformula, rfl⟩ := formulaBinding_eq_ok h
  obtain ⟨rest, hread, hreserved, hlookup, rfl⟩ := bindingName_eq_ok hname
  have hmoves := (moves_rest (length_name hread)).trans (moves_expect hequals)
  have hbound := hmoves.bound hp
  have haccounts := accounts_parse
    (p := { p₂ with maximumNodes := questionTargetMaxNodes - p₂.bindingNodes }) hbound.exact hformula
  have hbindings : p₃.bindings = p.bindings := haccounts.moves.bindings.trans hmoves.bindings
  have htotal : p₃.bindingNodes = p.bindingNodes :=
    haccounts.moves.bindingNodes.trans hmoves.bindingNodes
  have hnodes : t.nodes ≤ questionTargetMaxNodes - p.bindingNodes := by
    rw [← hmoves.bindingNodes]
    exact haccounts.nodes
  refine ⟨⟨?_, ?_, ?_, ?_, ?_⟩, hmoves.maximumNodes⟩
  · rw [hbindings]
    exact List.forall_mem_cons.mpr ⟨haccounts.exact, hp.exact⟩
  · rw [hbindings]
    exact List.forall_mem_cons.mpr ⟨hreserved, hp.reserved⟩
  · rw [hbindings, List.map_cons, List.nodup_cons]
    refine ⟨fun hmem => ?_, hp.distinct⟩
    obtain ⟨b, hb, hword⟩ := List.mem_map.mp hmem
    have hne := List.lookup_eq_none_iff.mp hlookup b hb
    rw [hword] at hne
    simp at hne
  · dsimp only
    rw [hbindings, htotal, List.map_cons, List.sum_cons, hp.total, Nat.add_comm]
  · have hle := hp.bounded
    dsimp only
    rw [htotal]
    omega

theorem bound_formulaBindingsFrom {bytes : ℕ} (hp : p.Bound)
    (h : formulaBindingsFrom bytes p = .ok q) : q.Bound ∧ q.maximumNodes = p.maximumNodes := by
  induction bytes generalizing p with
  | zero => cases h
  | succ bytes ih =>
    simp only [formulaBindingsFrom, bind_eq_ok] at h
    obtain ⟨p₁, hbinding, h⟩ := h
    obtain ⟨hbound, hmaximum⟩ := bound_formulaBinding hp hbinding
    split_ifs at h with hgoal
    · cases h
      exact ⟨moves_skipTrivia.bound hbound, hmaximum⟩
    · obtain ⟨hbound', hmaximum'⟩ := ih (moves_skipTrivia.bound hbound) h
      exact ⟨hbound', hmaximum'.trans hmaximum⟩

theorem bound_formulaBindings (hp : p.Bound) (h : p.formulaBindings = .ok q) :
    q.Bound ∧ q.maximumNodes = p.maximumNodes := by
  simp only [formulaBindings, bind_eq_ok] at h
  obtain ⟨p₁, hlet, p₂, hcolon, h⟩ := h
  have hmoves := (moves_word hlet).trans (moves_expect hcolon)
  obtain ⟨hbound, hmaximum⟩ := bound_formulaBindingsFrom (hmoves.bound hp) h
  exact ⟨hbound, hmaximum.trans hmoves.maximumNodes⟩

theorem bound_optionalBindings (hp : p.Bound) (h : p.optionalBindings = .ok q) :
    q.Bound ∧ q.maximumNodes = p.maximumNodes := by
  unfold optionalBindings at h
  split_ifs at h with hlet
  · obtain ⟨hbound, hmaximum⟩ := bound_formulaBindings (moves_skipTrivia.bound hp) h
    exact ⟨hbound, hmaximum⟩
  · cases h
    exact ⟨moves_skipTrivia.bound hp, rfl⟩

theorem accounts_statement {t : Parsed} (hp : p.Bound) (h : p.statement = .ok (t, q)) :
    p.Accounts 1 t q := by
  simp only [statement, bind_eq_ok] at h
  obtain ⟨p₁, hgoal, p₂, hequals, hformula⟩ := h
  have hmoves := (moves_word hgoal).trans (moves_expect hequals)
  have haccounts := accounts_parse (hmoves.bound hp).exact hformula
  refine ⟨hmoves.trans haccounts.moves, haccounts.exact, ?_, haccounts.depth⟩
  rw [← hmoves.maximumNodes]
  exact haccounts.nodes

theorem accounts_goal {text : List UInt8} {t : Parsed} (h : (start text).goal = .ok t) :
    t.Exact ∧ t.nodes ≤ questionTargetMaxNodes + text.length ∧ t.depth ≤ formulaMaxDepth := by
  simp only [goal, bind_eq_ok, Prod.exists, pure_eq_ok] at h
  obtain ⟨p₁, hlet, s, p₂, hstatement, -, -, -, -, rfl⟩ := h
  obtain ⟨hbound, hmaximum⟩ := bound_optionalBindings (bound_start text) hlet
  have haccounts := accounts_statement hbound hstatement
  have hnodes := haccounts.nodes
  have hdepth := haccounts.depth
  rw [hmaximum] at hnodes
  exact ⟨haccounts.exact, hnodes, by omega⟩

/-- The parser never walks a formula, yet what it records of the goal and of every binding is the
size of the formula, within the limits; the names of the bindings are distinct and not reserved, and
all bindings together stay below the limit of a target, so that the allowance of the next one never
underflows. -/
theorem question_accounts (text : List UInt8) :
    (∀ t, (start text).goal = .ok t → t.nodes = t.formula.node.nodeCount ∧
      t.depth = t.formula.node.depth ∧ t.nodes ≤ questionTargetMaxNodes + text.length ∧
      t.depth ≤ formulaMaxDepth) ∧
    (∀ p q : Reader, p.Bound → p.formulaBinding = .ok q → q.Bound) ∧
    ∀ q, (start text).formulaBindings = .ok q → q.Bound := by
  refine ⟨fun t h => ?_, fun p q hp h => (bound_formulaBinding hp h).1,
    fun q h => (bound_formulaBindings (bound_start text) h).1⟩
  obtain ⟨hexact, hnodes, hdepth⟩ := accounts_goal h
  exact ⟨hexact.nodes, hexact.depth, hnodes, hdepth⟩

end Reader
end CompiledQuestion
end Naome
