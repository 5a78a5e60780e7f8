import Naome.AtomLowering
import Naome.QuestionSource

/-!
# Printed formulas

The parser of questions reads a printed formula back. The names of the binders are given out in the
order of their depth, so that the binder at a depth always gets the same variable.
-/
namespace Naome
open LocallyNameless Outcome ByteCursor

theorem sourceBytes_append (a b : String) : sourceBytes (a ++ b) = sourceBytes a ++ sourceBytes b := by
  simp [sourceBytes, String.toByteArray_append]

theorem sourceBytes_ofList {text : List Char} (h : ∀ c ∈ text, c.utf8Size = 1) :
    sourceBytes (String.ofList text) = text.map fun c => c.val.toUInt8 := by
  induction text with
  | nil => rfl
  | cons c text ih =>
    have htext : sourceBytes (String.ofList text) = text.utf8Encode.data.toList := by
      rw [sourceBytes, String.toByteArray_ofList]
    rw [sourceBytes, String.toByteArray_ofList, List.utf8Encode_cons, List.utf8Encode_singleton,
      String.utf8EncodeChar_eq_singleton (h c List.mem_cons_self), ByteArray.data_append,
      Array.toList_append, ← htext, ih fun c hc => h c (List.mem_cons_of_mem _ hc)]
    rfl

/-- A number in decimal digits. -/
def decimal (n : ℕ) : List UInt8 := sourceBytes (toString n)

theorem sourceBytes_injective : Function.Injective sourceBytes := by
  intro a b h
  apply String.toByteArray_inj.mp
  exact ByteArray.ext (Array.toList_inj.mp h)

theorem decimal_eq (n : ℕ) : decimal n = (Nat.toDigits 10 n).map fun c => c.val.toUInt8 := by
  rw [decimal, Nat.toString_eq_ofList_toDigits]
  apply sourceBytes_ofList
  intro c hc
  have hdigit := Nat.isDigit_of_mem_toDigits (by norm_num) (by norm_num) hc
  obtain ⟨-, hle⟩ := Char.isDigit_iff_toNat.mp hdigit
  unfold Char.utf8Size
  rw [if_pos]
  rw [UInt32.le_iff_toNat_le]
  exact hle.trans (by decide)

theorem decimal_injective : Function.Injective decimal := by
  intro m n h
  have htext := sourceBytes_injective h
  rw [Nat.toString_eq_ofList_toDigits, Nat.toString_eq_ofList_toDigits, String.ofList_inj] at htext
  rw [← Nat.ofDigitChars_ten_toDigits (n := m), htext, Nat.ofDigitChars_ten_toDigits]

theorem nameByte_of_mem_decimal {n : ℕ} {b : UInt8} (h : b ∈ decimal n) :
    Authoring.nameByte b = true := by
  rw [decimal_eq] at h
  obtain ⟨c, hc, rfl⟩ := List.mem_map.mp h
  have hdigit := Nat.isDigit_of_mem_toDigits (by norm_num) (by norm_num) hc
  obtain ⟨hge, hle⟩ := Char.isDigit_iff_toNat.mp hdigit
  have hval : c.val.toUInt8.toNat = c.toNat := by
    rw [UInt32.toNat_toUInt8]
    exact Nat.mod_eq_of_lt (lt_of_le_of_lt hle (by decide))
  have hlow : (0x30 : UInt8) ≤ c.val.toUInt8 := by
    rw [UInt8.le_iff_toNat_le, hval]
    exact hge
  have hhigh : c.val.toUInt8 ≤ (0x39 : UInt8) := by
    rw [UInt8.le_iff_toNat_le, hval]
    exact hle
  unfold Authoring.nameByte
  rw [decide_eq_true hlow, decide_eq_true hhigh, Bool.and_true, Bool.or_true, Bool.true_or]

namespace CompiledQuestion
open Authoring

theorem trivia_of_alphabetic {b : UInt8} (h : alphabetic b = true) (text : List UInt8) :
    trivia false (b :: text) = b :: text := by
  have htrivial : Authoring.trivial b = false := by
    rw [Bool.eq_false_iff]
    intro hb
    simp only [Authoring.trivial, Bool.or_eq_true, decide_eq_true_eq] at hb
    rcases hb with ((rfl | rfl) | rfl) | rfl <;> revert h <;> decide
  have hcomment : b ≠ 0x23 := by
    rintro rfl
    revert h
    decide
  rw [trivia, htrivial, if_neg Bool.false_ne_true, if_neg hcomment]

/-- A word that ends where it ends. -/
theorem name_append {b : UInt8} {word rest : List UInt8} (hb : alphabetic b = true)
    (hword : ∀ c ∈ word, nameByte c = true) (hrest : ∀ c ∈ rest.head?, nameByte c = false) :
    name (b :: word ++ rest) = some (b :: word, rest) := by
  have hstop : rest.takeWhile nameByte = [] ∧ rest.dropWhile nameByte = rest := by
    cases rest with
    | nil => exact ⟨rfl, rfl⟩
    | cons c rest =>
      have hc := hrest c rfl
      constructor
      · simp [hc]
      · simp [hc]
  rw [name, List.cons_append, trivia_of_alphabetic hb]
  simp only [hb, Bool.true_or, if_true]
  rw [List.takeWhile_append_of_pos hword, List.dropWhile_append_of_pos hword, hstop.1, hstop.2,
    List.append_nil]

/-- The name of the binder at a depth. -/
def binderName (depth : ℕ) : List UInt8 := 0x62 :: decimal depth

theorem binderName_injective : Function.Injective binderName := by
  intro i j h
  exact decimal_injective (List.cons.inj h).2

theorem name_binderName {depth : ℕ} {rest : List UInt8}
    (hrest : ∀ c ∈ rest.head?, nameByte c = false) :
    name (binderName depth ++ rest) = some (binderName depth, rest) :=
  name_append (by decide) (fun _ h => nameByte_of_mem_decimal h) hrest

/-- The variables after the binders above a depth were read. -/
def binderVariables : ℕ → Variables
  | 0 => .empty
  | depth + 1 =>
    ⟨(binderName depth, ⟨UInt32.ofNat depth⟩) :: (binderVariables depth).names, depth + 1⟩

theorem next_binderVariables (depth : ℕ) : (binderVariables depth).next = depth := by
  cases depth <;> rfl

theorem lookup_binderVariables (depth i : ℕ) :
    (binderVariables depth).names.lookup (binderName i) =
      if i < depth then some ⟨UInt32.ofNat i⟩ else none := by
  induction depth with
  | zero => rfl
  | succ depth ih =>
    rw [binderVariables, Variables.lookup_cons, ih]
    by_cases h : i = depth
    · rw [h, if_pos rfl, if_pos (Nat.lt_succ_self _)]
    · have hne : binderName i ≠ binderName depth := fun heq => h (binderName_injective heq)
      rw [if_neg hne]
      by_cases hlt : i < depth
      · rw [if_pos hlt, if_pos (by omega)]
      · rw [if_neg hlt, if_neg (by omega)]

theorem named_binderVariables {i depth : ℕ} (h : i ≤ depth) (hdepth : depth + 1 < 2 ^ 32) :
    (binderVariables depth).named (binderName i) =
      some (⟨UInt32.ofNat i⟩, binderVariables (max depth (i + 1))) := by
  rw [Variables.named, lookup_binderVariables]
  by_cases hlt : i < depth
  · rw [if_pos hlt, Nat.max_eq_left hlt]
  · obtain rfl : i = depth := by omega
    rw [if_neg hlt, Variables.fresh, next_binderVariables, if_pos hdepth,
      Nat.max_eq_right (Nat.le_succ i)]
    rfl

end CompiledQuestion

namespace LocallyNameless

/-- The variable that a reference to one of the outer binders was read as. -/
def Variable.opened (outer inner : ℕ) : Variable FreeVariable → Variable FreeVariable
  | .bound i =>
    if i < inner then .bound i else .free ⟨UInt32.ofNat (outer - 1 - (i - inner))⟩
  | .free v => .free v

def Node.opened (outer : ℕ) : ℕ → PrimitiveNode → PrimitiveNode
  | inner, .equal l r => .equal (l.opened outer inner) (r.opened outer inner)
  | inner, .member l r => .member (l.opened outer inner) (r.opened outer inner)
  | inner, .not n => .not (n.opened outer inner)
  | inner, .implies a b => .implies (a.opened outer inner) (b.opened outer inner)
  | inner, .forAll n => .forAll (n.opened outer (inner + 1))
  | _, .definedRelation s _ => s.elim

theorem Variable.scoped_opened (outer inner : ℕ) (x : Variable FreeVariable) :
    (x.opened outer inner).Scoped inner := by
  cases x with
  | bound i =>
    simp only [Variable.opened]
    split_ifs with h
    · exact h
    · trivial
  | free v => trivial

theorem Node.scoped_opened (outer inner : ℕ) (n : PrimitiveNode) :
    (n.opened outer inner).Scoped inner := by
  induction n generalizing inner with
  | equal l r | member l r => exact ⟨l.scoped_opened outer inner, r.scoped_opened outer inner⟩
  | not n ih => exact ih inner
  | implies a b iha ihb => exact ⟨iha inner, ihb inner⟩
  | forAll n ih => exact ih (inner + 1)
  | definedRelation s => exact s.elim

/-- Binding the variable of the innermost outer binder makes its references bound again. -/
theorem Variable.bind_opened {outer inner : ℕ} (houter : outer < 2 ^ 32) {x : Variable FreeVariable}
    (hfree : x.occurrences = []) (hscoped : x.Scoped (outer + 1 + inner)) :
    (x.opened (outer + 1) inner).bind (bindOne ⟨UInt32.ofNat outer⟩) inner =
      x.opened outer (inner + 1) := by
  cases x with
  | free v => cases hfree
  | bound i =>
    change i < outer + 1 + inner at hscoped
    simp only [Variable.opened]
    by_cases hinner : i < inner
    · rw [if_pos hinner, if_pos (by omega)]
      rfl
    · rw [if_neg hinner]
      by_cases heq : i = inner
      · rw [if_pos (by omega), heq, Nat.sub_self, Nat.add_sub_cancel, Nat.sub_zero]
        simp [Variable.bind, bindOne]
      · have hne : (⟨UInt32.ofNat (outer + 1 - 1 - (i - inner))⟩ : FreeVariable) ≠
            ⟨UInt32.ofNat outer⟩ := by
          intro h
          have hnat := congrArg UInt32.toNat (congrArg FreeVariable.identifier h)
          rw [UInt32.toNat_ofNat', UInt32.toNat_ofNat', Nat.mod_eq_of_lt (by omega),
            Nat.mod_eq_of_lt houter] at hnat
          omega
        rw [if_neg (by omega), Variable.bind, bindOne, if_neg hne,
          show outer + 1 - 1 - (i - inner) = outer - 1 - (i - (inner + 1)) by omega]

theorem Node.bindFree_opened {outer inner : ℕ} (houter : outer < 2 ^ 32) {n : PrimitiveNode}
    (hfree : n.occurrences = []) (hscoped : n.Scoped (outer + 1 + inner)) :
    (n.opened (outer + 1) inner).bindFree (bindOne ⟨UInt32.ofNat outer⟩) inner =
      n.opened outer (inner + 1) := by
  induction n generalizing inner with
  | equal l r | member l r =>
    obtain ⟨hl, hr⟩ := List.append_eq_nil_iff.mp hfree
    simp only [Node.opened, Node.bindFree, Variable.bind_opened houter hl hscoped.1,
      Variable.bind_opened houter hr hscoped.2]
  | not n ih => simp only [Node.opened, Node.bindFree, ih hfree hscoped]
  | implies a b iha ihb =>
    obtain ⟨ha, hb⟩ := List.append_eq_nil_iff.mp hfree
    simp only [Node.opened, Node.bindFree, iha ha hscoped.1, ihb hb hscoped.2]
  | forAll n ih =>
    have hbody : n.Scoped (outer + 1 + (inner + 1)) := hscoped
    simp only [Node.opened, Node.bindFree, ih hfree hbody]
  | definedRelation s => exact s.elim

theorem Variable.opened_of_scoped {inner : ℕ} {x : Variable FreeVariable} (h : x.Scoped inner) :
    x.opened 0 inner = x := by
  cases x with
  | bound i => exact if_pos h
  | free v => rfl

theorem Node.opened_of_scoped {inner : ℕ} {n : PrimitiveNode} (h : n.Scoped inner) :
    n.opened 0 inner = n := by
  induction n generalizing inner with
  | equal l r | member l r =>
    simp only [Node.opened, Variable.opened_of_scoped h.1, Variable.opened_of_scoped h.2]
  | not n ih => simp only [Node.opened, ih h]
  | implies a b iha ihb => simp only [Node.opened, iha h.1, ihb h.2]
  | forAll n ih => simp only [Node.opened, ih h]
  | definedRelation s => exact s.elim

end LocallyNameless

/-- What a subformula under so many binders is read as. -/
def Formula.opened (outer : ℕ) (n : PrimitiveNode) : Formula := ⟨n.opened outer 0, n.scoped_opened outer 0⟩

theorem Formula.opened_zero (f : Formula) : opened 0 f.node = f :=
  Formula.ext (Node.opened_of_scoped f.wellScoped)

theorem Formula.forAll_opened {outer : ℕ} {n : PrimitiveNode} (houter : outer < 2 ^ 32)
    (hfree : n.occurrences = []) (hscoped : n.Scoped (outer + 1)) :
    forAll ⟨UInt32.ofNat outer⟩ (opened (outer + 1) n) = opened outer (.forAll n) :=
  Formula.ext (congrArg Node.forAll (Node.bindFree_opened houter hfree hscoped))

/-- The bytes of a printed variable. -/
def variableText (depth : ℕ) (x : Variable FreeVariable) : List UInt8 :=
  sourceBytes (renderVariable depth x)

/-- The bytes of a printed formula. -/
def formulaText (depth : ℕ) (n : PrimitiveNode) : List UInt8 := sourceBytes (render depth n)

theorem variableText_bound (depth i : ℕ) :
    variableText depth (.bound i) = CompiledQuestion.binderName (depth - 1 - i) := by
  rw [variableText, renderVariable, sourceBytes_append]
  rfl

section

variable (depth : ℕ) (l r : Variable FreeVariable) (a b : PrimitiveNode) (rest : List UInt8)

theorem formulaText_equal : formulaText depth (.equal l r) ++ rest = Authoring.ascii "eq" ++
    0x28 :: (variableText depth l ++ 0x2c :: 0x20 :: (variableText depth r ++ 0x29 :: rest)) := by
  change sourceBytes ("eq(" ++ renderVariable depth l ++ ", " ++ renderVariable depth r ++ ")") ++
    rest = _
  simp only [sourceBytes_append, List.append_assoc]
  rfl

theorem formulaText_member : formulaText depth (.member l r) ++ rest = Authoring.ascii "mem" ++
    0x28 :: (variableText depth l ++ 0x2c :: 0x20 :: (variableText depth r ++ 0x29 :: rest)) := by
  change sourceBytes ("mem(" ++ renderVariable depth l ++ ", " ++ renderVariable depth r ++ ")") ++
    rest = _
  simp only [sourceBytes_append, List.append_assoc]
  rfl

theorem formulaText_not : formulaText depth (.not a) ++ rest =
    Authoring.ascii "not" ++ 0x28 :: (formulaText depth a ++ 0x29 :: rest) := by
  change sourceBytes ("not(" ++ render depth a ++ ")") ++ rest = _
  simp only [sourceBytes_append, List.append_assoc]
  rfl

theorem formulaText_implies : formulaText depth (.implies a b) ++ rest = Authoring.ascii "imp" ++
    0x28 :: (formulaText depth a ++ 0x2c :: 0x20 :: (formulaText depth b ++ 0x29 :: rest)) := by
  change sourceBytes ("imp(" ++ render depth a ++ ", " ++ render depth b ++ ")") ++ rest = _
  simp only [sourceBytes_append, List.append_assoc]
  rfl

theorem formulaText_forAll : formulaText depth (.forAll a) ++ rest = Authoring.ascii "all" ++
    0x28 :: (CompiledQuestion.binderName depth ++
      0x2c :: 0x20 :: (formulaText (depth + 1) a ++ 0x29 :: rest)) := by
  change sourceBytes ("all(b" ++ toString depth ++ ", " ++ render (depth + 1) a ++ ")") ++ rest = _
  simp only [sourceBytes_append, List.append_assoc]
  rfl

end

/-- A printed formula has at least as many bytes as nodes. -/
theorem nodeCount_le_formulaText (depth : ℕ) (n : PrimitiveNode) :
    n.nodeCount ≤ (formulaText depth n).length := by
  induction n generalizing depth with
  | equal l r =>
    have h := congrArg List.length (formulaText_equal depth l r [])
    simp only [List.length_append, List.length_cons, List.length_nil] at h
    rw [Node.nodeCount]
    omega
  | member l r =>
    have h := congrArg List.length (formulaText_member depth l r [])
    simp only [List.length_append, List.length_cons, List.length_nil] at h
    rw [Node.nodeCount]
    omega
  | not n ih =>
    have h := congrArg List.length (formulaText_not depth n [])
    have hle := ih depth
    simp only [List.length_append, List.length_cons, List.length_nil] at h
    rw [Node.nodeCount]
    omega
  | implies a b iha ihb =>
    have h := congrArg List.length (formulaText_implies depth a b [])
    have hle := iha depth
    have hle' := ihb depth
    simp only [List.length_append, List.length_cons, List.length_nil] at h
    rw [Node.nodeCount]
    omega
  | forAll n ih =>
    have h := congrArg List.length (formulaText_forAll depth n [])
    have hle := ih (depth + 1)
    simp only [List.length_append, List.length_cons, List.length_nil] at h
    rw [Node.nodeCount]
    omega
  | definedRelation s => exact s.elim

end Naome
