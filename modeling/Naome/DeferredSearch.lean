import Mathlib

/-!
# Depth-first search with deferred emission

A search marks what it has seen when it first takes it from its stack, and emits it when everything
pushed above it has been taken. Along an acyclic relation it emits a closure, dependencies first.
-/
namespace Naome
namespace DeferredSearch

variable {α β σ ε : Type} [DecidableEq α]

section

variable (enter : α → σ → Except ε (β × List α × σ)) (full missing : ε) (limit : ℕ)

def without (objects : List (α × β)) (id : α) : List (α × β) := objects.filter fun o => o.1 ≠ id

/-- An entry of the stack is an element to enter, or one to emit. -/
def search (stack : List (α × Bool)) (seen : Finset α) (objects : List (α × β)) (ordered : List β)
    (state : σ) : Except ε (List β × σ) :=
  match stack with
  | [] => .ok (ordered, state)
  | (id, true) :: rest =>
    match objects.lookup id with
    | none => .error missing
    | some object =>
      search rest seen (without objects id) (ordered ++ [object]) state
  | (id, false) :: rest =>
    if id ∈ seen then search rest seen objects ordered state
    else if limit < seen.card + 1 then .error full
    else
      match enter id state with
      | .error e => .error e
      | .ok (object, children, state) =>
        search (children.map (fun child => (child, false)) ++ (id, true) :: rest) (insert id seen)
          ((id, object) :: objects) ordered state
termination_by (limit + 1 - seen.card, stack.length)
decreasing_by
  · exact Prod.Lex.right _ (Nat.lt_succ_self _)
  · exact Prod.Lex.right _ (Nat.lt_succ_self _)
  · apply Prod.Lex.left
    rw [Finset.card_insert_of_notMem (by assumption)]
    omega

end

section

variable (children : α → List α)

/-- Every dependency of an element to emit is emitted, or it is above it on the stack. -/
def Covered (emitted : List α) : List (α × Bool) → Finset α → Prop
  | [], _ => True
  | (id, false) :: rest, above => Covered emitted rest (insert id above)
  | (id, true) :: rest, above =>
    (∀ child ∈ children id, child ∈ emitted ∨ child ∈ above) ∧
      Covered emitted rest (insert id above)

def Reaches : α → α → Prop := Relation.ReflTransGen fun a b => b ∈ children a

/-- Dependencies come before their dependents. -/
def Closed (emitted : List α) : Prop :=
  ∀ (before : List α) (id : α) (after : List α), emitted = before ++ id :: after →
    ∀ child ∈ children id, child ∈ before

/-- The position of a search from `root`. -/
structure Searching (rank : α → ℕ) (root : α) (stack : List (α × Bool)) (seen : Finset α)
    (emitted : List α) : Prop where
  seen_iff : ∀ id, id ∈ seen ↔ id ∈ emitted ∨ (id, true) ∈ stack
  nodup : emitted.Nodup
  disjoint : ∀ id, (id, true) ∈ stack → id ∉ emitted
  descends : stack.Pairwise fun above below => below.2 = true → rank above.1 < rank below.1
  covered : Covered children emitted stack ∅
  closed : Closed children emitted
  reaches : ∀ id, (id ∈ emitted ∨ ∃ b, (id, b) ∈ stack) → Reaches children root id
  bottom : (stack = [(root, false)] ∧ seen = ∅) ∨ stack.getLast? = some (root, true) ∨
    (stack = [] ∧ emitted.getLast? = some root)

end

variable {children : α → List α} {rank : α → ℕ} {root : α} {stack rest : List (α × Bool)}
  {seen : Finset α} {emitted : List α} {id : α}

/-- What is emitted, or added above, covers at least as much. -/
theorem Covered.mono {above above' : Finset α} {emitted' : List α}
    (h : Covered children emitted stack above)
    (habove : ∀ x, x ∈ emitted ∨ x ∈ above → x ∈ emitted' ∨ x ∈ above') :
    Covered children emitted' stack above' := by
  induction stack generalizing above above' with
  | nil => trivial
  | cons entry rest ih =>
    have hinsert : ∀ x, x ∈ emitted ∨ x ∈ insert entry.1 above →
        x ∈ emitted' ∨ x ∈ insert entry.1 above' := by
      intro x hx
      rw [Finset.mem_insert] at hx ⊢
      rcases hx with hx | hx | hx
      · rcases habove x (.inl hx) with h | h
        · exact .inl h
        · exact .inr (.inr h)
      · exact .inr (.inl hx)
      · rcases habove x (.inr hx) with h | h
        · exact .inl h
        · exact .inr (.inr h)
    obtain ⟨id, b⟩ := entry
    cases b with
    | false => exact ih h hinsert
    | true => exact ⟨fun child hchild => habove child (h.1 child hchild), ih h.2 hinsert⟩

theorem Searching.start (root : α) : Searching children rank root [(root, false)] ∅ [] := by
  constructor
  · simp
  · exact List.nodup_nil
  · simp
  · exact List.pairwise_singleton _ _
  · trivial
  · intro before id after h
    simp at h
  · intro id hid
    have heq : id = root := by simpa using hid
    subst heq
    exact .refl
  · exact .inl ⟨rfl, rfl⟩

omit [DecidableEq α] in
theorem getLast?_cons_of_ne {entry : α × Bool} {rest : List (α × Bool)} (h : rest ≠ []) :
    (entry :: rest).getLast? = rest.getLast? := by
  obtain ⟨x, hx⟩ := Option.ne_none_iff_exists'.mp (fun hnone => h (List.getLast?_eq_none_iff.mp hnone))
  rw [List.getLast?_cons, hx]
  rfl

/-- An element that was seen before is emitted already. -/
theorem Searching.skip (h : Searching children rank root ((id, false) :: rest) seen emitted)
    (hseen : id ∈ seen) : Searching children rank root rest seen emitted := by
  have hpairwise := List.pairwise_cons.mp h.descends
  have hemitted : id ∈ emitted := by
    rcases (h.seen_iff id).mp hseen with hmem | hmem
    · exact hmem
    · rcases List.mem_cons.mp hmem with heq | hrest
      · cases heq
      · exact absurd (hpairwise.1 _ hrest rfl) (lt_irrefl _)
  constructor
  · intro x
    rw [h.seen_iff, List.mem_cons]
    simp
  · exact h.nodup
  · intro x hx
    exact h.disjoint x (List.mem_cons_of_mem _ hx)
  · exact hpairwise.2
  · refine Covered.mono (h := h.covered) ?_
    intro x hx
    rw [Finset.mem_insert] at hx
    rcases hx with hx | rfl | hx
    · exact .inl hx
    · exact .inl hemitted
    · exact .inr hx
  · exact h.closed
  · intro x hx
    apply h.reaches
    rcases hx with hx | ⟨b, hx⟩
    · exact .inl hx
    · exact .inr ⟨b, List.mem_cons_of_mem _ hx⟩
  · rcases h.bottom with ⟨-, hempty⟩ | hlast | ⟨hnil, -⟩
    · rw [hempty] at hseen
      cases hseen
    · by_cases hrest : rest = []
      · subst hrest
        simp at hlast
      · rw [getLast?_cons_of_ne hrest] at hlast
        exact .inr (.inl hlast)
    · cases hnil

/-- A new element is pushed below its dependencies. -/
theorem Searching.enter (h : Searching children rank root ((id, false) :: rest) seen emitted)
    (hseen : id ∉ seen) (hrank : ∀ child ∈ children id, rank child < rank id) :
    Searching children rank root
      ((children id).map (fun child => (child, false)) ++ (id, true) :: rest) (insert id seen)
      emitted := by
  have hpairwise := List.pairwise_cons.mp h.descends
  have hnew : id ∉ emitted ∧ (id, true) ∉ (id, false) :: rest := by
    rw [← not_or, ← h.seen_iff]
    exact hseen
  have hmem : ∀ x b, (x, b) ∈ (children id).map (fun child => (child, false)) ++ (id, true) :: rest ↔
      (x ∈ children id ∧ b = false) ∨ (x = id ∧ b = true) ∨ (x, b) ∈ rest := by
    intro x b
    rw [List.mem_append, List.mem_cons, List.mem_map]
    constructor
    · rintro (⟨child, hchild, heq⟩ | heq | hrest)
      · cases heq
        exact .inl ⟨hchild, rfl⟩
      · cases heq
        exact .inr (.inl ⟨rfl, rfl⟩)
      · exact .inr (.inr hrest)
    · rintro (⟨hchild, rfl⟩ | ⟨rfl, rfl⟩ | hrest)
      · exact .inl ⟨x, hchild, rfl⟩
      · exact .inr (.inl rfl)
      · exact .inr (.inr hrest)
  constructor
  · intro x
    rw [Finset.mem_insert, h.seen_iff, hmem, List.mem_cons]
    simp only [Prod.mk.injEq, Bool.true_eq_false, and_false, false_or, and_true]
    tauto
  · exact h.nodup
  · intro x hx
    rcases (hmem x true).mp hx with ⟨-, hfalse⟩ | ⟨rfl, -⟩ | hrest
    · cases hfalse
    · exact hnew.1
    · exact h.disjoint x (List.mem_cons_of_mem _ hrest)
  · rw [List.pairwise_append]
    refine ⟨?_, ?_, ?_⟩
    · rw [List.pairwise_map]
      exact List.pairwise_of_forall fun _ _ hfalse => by cases hfalse
    · rw [List.pairwise_cons]
      exact ⟨fun below hbelow => hpairwise.1 below hbelow, hpairwise.2⟩
    · intro above habove below hbelow htrue
      obtain ⟨child, hchild, rfl⟩ := List.mem_map.mp habove
      have hlt := hrank child hchild
      rcases List.mem_cons.mp hbelow with rfl | hrest
      · exact hlt
      · exact hlt.trans (hpairwise.1 below hrest htrue)
  · have hpush : ∀ (cs : List α) (above : Finset α),
        Covered children emitted ((id, true) :: rest) (above ∪ cs.toFinset) →
        Covered children emitted (cs.map (fun child => (child, false)) ++ (id, true) :: rest)
          above := by
      intro cs
      induction cs with
      | nil =>
        intro above hcovered
        simpa using hcovered
      | cons c cs ih =>
        intro above hcovered
        apply ih (insert c above)
        have heq : insert c above ∪ cs.toFinset = above ∪ (c :: cs).toFinset := by
          ext x
          simp only [Finset.mem_union, Finset.mem_insert, List.toFinset_cons]
          tauto
        rwa [heq]
    apply hpush
    refine ⟨fun child hchild => .inr ?_, Covered.mono h.covered ?_⟩
    · rw [Finset.mem_union, List.mem_toFinset]
      exact .inr hchild
    · intro x hx
      rw [Finset.mem_insert] at hx ⊢
      rcases hx with hx | rfl | hx
      · exact .inl hx
      · exact .inr (.inl rfl)
      · simp at hx
  · exact h.closed
  · intro x hx
    rcases hx with hx | ⟨b, hx⟩
    · exact h.reaches x (.inl hx)
    · have hid := h.reaches id (.inr ⟨false, List.mem_cons_self⟩)
      rcases (hmem x b).mp hx with ⟨hchild, -⟩ | ⟨rfl, -⟩ | hrest
      · exact hid.tail hchild
      · exact hid
      · exact h.reaches x (.inr ⟨b, List.mem_cons_of_mem _ hrest⟩)
  · refine .inr (.inl ?_)
    rw [List.getLast?_append_of_ne_nil _ (by simp)]
    rcases h.bottom with ⟨hstack, -⟩ | hlast | ⟨hnil, -⟩
    · cases hstack
      rfl
    · have hrest : rest ≠ [] := by
        intro hnil
        subst hnil
        simp at hlast
      rw [getLast?_cons_of_ne hrest] at hlast ⊢
      exact hlast
    · cases hnil

/-- An element is emitted after all of its dependencies. -/
theorem Searching.emit (h : Searching children rank root ((id, true) :: rest) seen emitted) :
    Searching children rank root rest seen (emitted ++ [id]) := by
  have hpairwise := List.pairwise_cons.mp h.descends
  have hnew : id ∉ emitted := h.disjoint id List.mem_cons_self
  have hcovered := h.covered
  constructor
  · intro x
    rw [h.seen_iff, List.mem_append, List.mem_singleton, List.mem_cons]
    simp only [Prod.mk.injEq, and_true]
    tauto
  · rw [List.nodup_append]
    refine ⟨h.nodup, List.nodup_singleton _, ?_⟩
    intro a ha b hb heq
    rw [List.mem_singleton] at hb
    subst hb heq
    exact hnew ha
  · intro x hx hmem
    rcases List.mem_append.mp hmem with hold | hlast
    · exact h.disjoint x (List.mem_cons_of_mem _ hx) hold
    · rw [List.mem_singleton] at hlast
      subst hlast
      exact absurd (hpairwise.1 _ hx rfl) (lt_irrefl _)
  · exact hpairwise.2
  · refine Covered.mono hcovered.2 ?_
    intro x hx
    rw [List.mem_append, List.mem_singleton]
    rw [Finset.mem_insert] at hx
    rcases hx with hx | rfl | hx
    · exact .inl (.inl hx)
    · exact .inl (.inr rfl)
    · simp at hx
  · intro before x after hsplit child hchild
    rcases List.eq_nil_or_concat after with rfl | ⟨after', last, rfl⟩
    · obtain ⟨rfl, heq⟩ := List.append_inj' hsplit rfl
      cases heq
      rcases hcovered.1 child hchild with hmem | hmem
      · exact hmem
      · simp at hmem
    · rw [List.concat_eq_append, ← List.cons_append, ← List.append_assoc] at hsplit
      obtain ⟨hold, -⟩ := List.append_inj' hsplit rfl
      exact h.closed before x after' hold child hchild
  · intro x hx
    rcases hx with hx | ⟨b, hx⟩
    · rcases List.mem_append.mp hx with hold | hlast
      · exact h.reaches x (.inl hold)
      · rw [List.mem_singleton] at hlast
        subst hlast
        exact h.reaches x (.inr ⟨true, List.mem_cons_self⟩)
    · exact h.reaches x (.inr ⟨b, List.mem_cons_of_mem _ hx⟩)
  · rcases h.bottom with ⟨hstack, -⟩ | hlast | ⟨hnil, -⟩
    · cases hstack
    · by_cases hrest : rest = []
      · subst hrest
        cases hlast
        refine .inr (.inr ⟨rfl, ?_⟩)
        simp
      · rw [getLast?_cons_of_ne hrest] at hlast
        exact .inr (.inl hlast)
    · cases hnil

/-- The closure of an element, dependencies first and itself last. -/
structure Lists (children : α → List α) (root : α) (ids : List α) : Prop where
  nodup : ids.Nodup
  last : ids.getLast? = some root
  mem_iff : ∀ id, id ∈ ids ↔ Reaches children root id
  closed : Closed children ids

theorem Searching.lists (h : Searching children rank root [] seen emitted) :
    Lists children root emitted ∧ ∀ id, id ∈ seen ↔ id ∈ emitted := by
  have hlast : emitted.getLast? = some root := by
    rcases h.bottom with ⟨hstack, -⟩ | hlast | ⟨-, hlast⟩
    · cases hstack
    · cases hlast
    · exact hlast
  refine ⟨⟨h.nodup, hlast, fun id => ⟨fun hid => h.reaches id (.inl hid), ?_⟩, h.closed⟩, ?_⟩
  · intro hreaches
    induction hreaches with
    | refl => exact List.mem_of_getLast? hlast
    | tail _ hchild ih =>
      obtain ⟨before, after, hsplit⟩ := List.append_of_mem ih
      rw [hsplit]
      exact List.mem_append_left _ (h.closed before _ after hsplit _ hchild)
  · intro id
    rw [h.seen_iff]
    simp

section

variable {enter : α → σ → Except ε (β × List α × σ)} {full missing : ε} {limit : ℕ}
  {value : α → β} {P : σ → Finset α → Prop}

/-- What entering an element does: it finds its value and its dependencies, and keeps `P`. -/
structure Enters (enter : α → σ → Except ε (β × List α × σ)) (value : α → β)
    (children : α → List α) (P : σ → Finset α → Prop) : Prop where
  enters : ∀ id state object cs state', enter id state = .ok (object, cs, state') →
    object = value id ∧ cs = children id ∧
      ∀ seen, id ∉ seen → P state seen → P state' (insert id seen)

/-- A search that ends emits the values of the closure in the order of `Lists`. -/
theorem search_lists (henter : Enters enter value children P)
    (hrank : ∀ id, ∀ child ∈ children id, rank child < rank id)
    {stack : List (α × Bool)} {seen : Finset α} {objects : List (α × β)} {ordered : List β}
    {state : σ} {result : List β × σ}
    (hrun : search enter full missing limit stack seen objects ordered state = .ok result)
    (h : Searching children rank root stack seen emitted) (hordered : ordered = emitted.map value)
    (hobjects : ∀ o ∈ objects, o.2 = value o.1) (hP : P state seen) :
    ∃ ids, Lists children root ids ∧ result.1 = ids.map value ∧ P result.2 ids.toFinset := by
  induction stack, seen, objects, ordered, state using search.induct enter limit
    generalizing emitted with
  | case1 seen objects ordered state =>
    rw [search] at hrun
    cases hrun
    obtain ⟨hlists, hseen⟩ := h.lists
    refine ⟨emitted, hlists, hordered, ?_⟩
    have heq : emitted.toFinset = seen := by
      ext id
      rw [List.mem_toFinset, hseen]
    rwa [heq]
  | case2 seen objects ordered state id rest hlookup =>
    rw [search, hlookup] at hrun
    cases hrun
  | case3 seen objects ordered state id rest object hlookup ih =>
    rw [search, hlookup] at hrun
    have hobject : object = value id := by
      have hmem := List.lookup_eq_some_iff.mp hlookup
      obtain ⟨l₁, l₂, hsplit, -⟩ := hmem
      exact hobjects (id, object) (by rw [hsplit]; simp)
    apply ih hrun h.emit
    · rw [hordered, hobject, List.map_append]
      rfl
    · intro o ho
      exact hobjects o (List.mem_filter.mp ho).1
    · exact hP
  | case4 seen objects ordered state id rest hseen ih =>
    rw [search, if_pos hseen] at hrun
    exact ih hrun (h.skip hseen) hordered hobjects hP
  | case5 seen objects ordered state id rest hseen hfull =>
    rw [search, if_neg hseen, if_pos hfull] at hrun
    cases hrun
  | case6 seen objects ordered state id rest hseen hfull e henters =>
    rw [search, if_neg hseen, if_neg hfull, henters] at hrun
    cases hrun
  | case7 seen objects ordered state id rest hseen hfull object cs state' henters ih =>
    rw [search, if_neg hseen, if_neg hfull, henters] at hrun
    obtain ⟨hobject, hcs, hkeeps⟩ := henter.enters id state object cs state' henters
    subst hobject hcs
    apply ih hrun (h.enter hseen (hrank id)) hordered
    · intro o ho
      rcases List.mem_cons.mp ho with rfl | hold
      · rfl
      · exact hobjects o hold
    · exact hkeeps seen hseen hP

end

end DeferredSearch
end Naome
