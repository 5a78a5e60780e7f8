import Naome.KnowledgeIndex
import Naome.Effect
import Naome.Outcome

/-!
# The dependency scheduler

Members wait for their dependencies with a counter and are woken by reverse edges. Members may be
finished before they are defined, and edges of members that are gone stay behind.
-/
namespace Naome
open Outcome Effect

/-- Readiness that is derived from declared dependencies. -/
structure Dependencies where
  pending : DigestMap (Option ℕ)
  dependents : DigestMap (List ArtifactId)
  ready : DigestSet
  complete : DigestSet
  undefined : ℕ

namespace Dependencies

/-- Calls change the scheduler also when they fail; a counter below zero ends the process. -/
abbrev Call := Effect Dependencies (Stop String) Unit

def empty : Dependencies := ⟨∅, ∅, ∅, ∅, 0⟩

def declared (s : Dependencies) (member : ArtifactId) : Dependencies :=
  if ¬ s.complete.contains member ∧ ¬ s.pending.contains member then
    { s with pending := s.pending.insert member none, undefined := s.undefined + 1 }
  else s

def declare (member : ArtifactId) : Call := Effect.modify fun s => s.declared member

def known (s : Dependencies) (member : ArtifactId) : Bool :=
  s.pending.contains member || s.complete.contains member || s.dependents.contains member

/-- Counts an unfinished dependency and leaves a reverse edge at it. -/
def addEdge (complete : DigestSet) (member : ArtifactId) (t : ℕ × DigestMap (List ArtifactId))
    (dependency : ArtifactId) : ℕ × DigestMap (List ArtifactId) :=
  if complete.contains dependency then t
  else (t.1 + 1, t.2.insert dependency (t.2[dependency]?.getD [] ++ [member]))

def add (member : ArtifactId) (dependencies : DigestSet) : Call := do
  declare member
  let s ← Effect.state
  let count ← orThrow (.error "already completed dependency member") s.pending[member]?
  Effect.require (count = none) (.error "duplicate dependency member")
  let (missing, dependents) := dependencies.toList.foldl (addEdge s.complete member) (0, s.dependents)
  Effect.require (0 < s.undefined) .panic
  Effect.modify fun s => { s with
    pending := s.pending.insert member (some missing)
    dependents
    undefined := s.undefined - 1
    ready := if missing = 0 then s.ready.insert member else s.ready }

/-- Takes one finished dependency off the counter of a dependent that is still pending. -/
def wake (dependent : ArtifactId) : Call := do
  let s ← Effect.state
  match s.pending[dependent]? with
  | some (some count) => do
    Effect.require (0 < count) .panic
    Effect.modify fun s => { s with
      pending := s.pending.insert dependent (some (count - 1))
      ready := if count - 1 = 0 then s.ready.insert dependent else s.ready }
  | _ => return ()

def finish (member : ArtifactId) : Call := do
  let s ← Effect.state
  if s.complete.contains member then return ()
  else do
    Effect.modify fun s => { s with complete := s.complete.insert member }
    Effect.require (s.pending[member]? = some none → 0 < s.undefined) .panic
    Effect.modify fun s => { s with
      pending := s.pending.erase member
      undefined := if s.pending[member]? = some none then s.undefined - 1 else s.undefined
      ready := s.ready.erase member
      dependents := s.dependents.erase member }
    Effect.forEach wake (s.dependents[member]?.getD [])

def next (s : Dependencies) (except : Option ArtifactId) : Option ArtifactId :=
  s.ready.toList.find? fun member => some member ≠ except

def onlyPending (s : Dependencies) (except : ArtifactId) : Bool :=
  s.pending.size = if s.pending.contains except then 1 else 0

def isComplete (s : Dependencies) (member : ArtifactId) : Bool := s.complete.contains member

def completed (s : Dependencies) : Bool := s.pending.isEmpty

def defined (s : Dependencies) : Bool := s.undefined = 0

/-- The states after any calls, with the dependencies that each member was defined with. -/
inductive Reached : Dependencies → (ArtifactId → Option (Finset ArtifactId)) → Prop
  | empty : Reached empty fun _ => none
  | declare {s g} (h : Reached s g) (member : ArtifactId) : Reached ((declare member).run s).2 g
  | add {s s' g} (h : Reached s g) {member : ArtifactId} {dependencies : DigestSet}
    (hrun : (add member dependencies).run s = (.ok (), s')) :
    Reached s' (Function.update g member (some dependencies.toList.toFinset))
  | refused {s s' g} (h : Reached s g) {member : ArtifactId} {dependencies : DigestSet}
    {e : Stop String} (hrun : (add member dependencies).run s = (.error e, s')) : Reached s' g
  | finish {s g} (h : Reached s g) (member : ArtifactId) : Reached ((finish member).run s).2 g

theorem getElem?_insert {V : Type} (m : DigestMap V) (k a : ArtifactId) (v : V) :
    (m.insert k v)[a]? = if k = a then some v else m[a]? := by
  rw [Std.TreeMap.getElem?_insert]
  simp only [Std.LawfulEqCmp.compare_eq_iff_eq]

theorem getElem?_erase {V : Type} (m : DigestMap V) (k a : ArtifactId) :
    (m.erase k)[a]? = if k = a then none else m[a]? := by
  rw [Std.TreeMap.getElem?_erase]
  simp only [Std.LawfulEqCmp.compare_eq_iff_eq]

theorem mem_insert (s : DigestSet) (k a : ArtifactId) : a ∈ s.insert k ↔ k = a ∨ a ∈ s := by
  rw [Std.TreeSet.mem_insert, Std.LawfulEqCmp.compare_eq_iff_eq]

theorem mem_erase (s : DigestSet) (k a : ArtifactId) : a ∈ s.erase k ↔ k ≠ a ∧ a ∈ s := by
  rw [Std.TreeSet.mem_erase, ne_eq, Std.LawfulEqCmp.compare_eq_iff_eq]

/-- The dependencies that are not finished. -/
def unfinished (s : Dependencies) (dependencies : Finset ArtifactId) : Finset ArtifactId :=
  dependencies.filter fun dependency => dependency ∉ s.complete

/-- The members that are declared and not defined. -/
def undefinedMembers (s : Dependencies) : Finset ArtifactId :=
  s.pending.keys.toFinset.filter fun member => s.pending[member]? = some none

theorem mem_undefinedMembers {s : Dependencies} {member : ArtifactId} :
    member ∈ s.undefinedMembers ↔ s.pending[member]? = some none := by
  rw [undefinedMembers, Finset.mem_filter, List.mem_toFinset, Std.TreeMap.mem_keys,
    Std.TreeMap.mem_iff_isSome_getElem?]
  constructor
  · exact And.right
  · intro h
    exact ⟨by rw [h]; rfl, h⟩

/-- The counters, the ready members and the reverse edges agree with the dependencies. -/
structure Exact (s : Dependencies) (g : ArtifactId → Option (Finset ArtifactId)) : Prop where
  disjoint : ∀ x, x ∈ s.complete → s.pending[x]? = none
  counted : ∀ x n, s.pending[x]? = some (some n) → ∃ D, g x = some D ∧ n = (s.unfinished D).card
  declared : ∀ x, x ∉ s.complete → (g x = none ↔ ∀ n, s.pending[x]? ≠ some (some n))
  ready : ∀ x, x ∈ s.ready ↔ s.pending[x]? = some (some 0)
  undefined : s.undefined = s.undefinedMembers.card
  edges : ∀ d x, d ∉ s.complete → x ∉ s.complete →
    (s.dependents[d]?.getD []).count x = if ∃ D, g x = some D ∧ d ∈ D then 1 else 0

theorem exact_empty : Exact empty fun _ => none := by
  constructor
  · intro x _
    simp [empty]
  · intro x n h
    simp [empty] at h
  · intro x _
    simp [empty]
  · intro x
    simp [empty]
  · simp [empty, undefinedMembers]
  · intro d x _ _
    simp [empty]

variable {s s' : Dependencies} {g : ArtifactId → Option (Finset ArtifactId)} {member : ArtifactId}

theorem run_declare (s : Dependencies) (member : ArtifactId) :
    (declare member).run s = (.ok (), s.declared member) := rfl

theorem declared_of_known (h : member ∈ s.complete ∨ s.pending[member]? ≠ none) :
    s.declared member = s := by
  rw [Dependencies.declared, if_neg]
  rintro ⟨hcomplete, hpending⟩
  rcases h with h | h
  · exact hcomplete (Std.TreeSet.contains_iff_mem.mpr h)
  · apply hpending
    rw [Std.TreeMap.contains_eq_isSome_getElem?, Option.isSome_iff_ne_none]
    exact h

theorem declared_of_unknown (hcomplete : member ∉ s.complete) (hnone : s.pending[member]? = none) :
    s.declared member =
      { s with pending := s.pending.insert member none, undefined := s.undefined + 1 } := by
  rw [Dependencies.declared, if_pos]
  rw [Std.TreeMap.contains_eq_isSome_getElem?, hnone, Std.TreeSet.contains_iff_mem]
  exact ⟨hcomplete, by simp⟩

theorem pending_declared (h : member ∉ s.complete) (x : ArtifactId) :
    (s.declared member).pending[x]? =
      if member = x ∧ s.pending[x]? = none then some none else s.pending[x]? := by
  by_cases hknown : s.pending[member]? = none
  · rw [declared_of_unknown h hknown, getElem?_insert]
    by_cases hx : member = x
    · subst hx
      rw [if_pos rfl, if_pos ⟨rfl, hknown⟩]
    · rw [if_neg hx, if_neg fun h => hx h.1]
  · rw [declared_of_known (.inr hknown), if_neg]
    rintro ⟨hx, hnone⟩
    exact hknown (hx ▸ hnone)

theorem complete_declared : (s.declared member).complete = s.complete := by
  unfold Dependencies.declared
  split_ifs <;> rfl

theorem Exact.declareMember (h : Exact s g) (member : ArtifactId) :
    Exact (s.declared member) g := by
  by_cases hknown : member ∈ s.complete ∨ s.pending[member]? ≠ none
  · rw [declared_of_known hknown]
    exact h
  rw [not_or, not_not] at hknown
  obtain ⟨hcomplete, hnone⟩ := hknown
  have hpending := pending_declared hcomplete
  have hget : ∀ (x : ArtifactId) (n : ℕ), (s.declared member).pending[x]? = some (some n) ↔
      s.pending[x]? = some (some n) := by
    intro x n
    rw [hpending]
    split_ifs with hx
    · obtain ⟨rfl, hx⟩ := hx
      simp [hx]
    · rfl
  have hmembers : (s.declared member).undefinedMembers = insert member s.undefinedMembers := by
    ext x
    rw [mem_undefinedMembers, Finset.mem_insert, mem_undefinedMembers, hpending]
    by_cases hx : member = x
    · subst hx
      simp [hnone]
    · simp [hx, Ne.symm hx]
  have hfields := declared_of_unknown hcomplete hnone
  constructor
  · intro x hx
    rw [complete_declared] at hx
    rw [hpending, if_neg]
    · exact h.disjoint x hx
    · rintro ⟨heq, _⟩
      exact hcomplete (heq ▸ hx)
  · intro x n hx
    rw [hget] at hx
    obtain ⟨D, hD, hn⟩ := h.counted x n hx
    refine ⟨D, hD, ?_⟩
    rw [unfinished, complete_declared]
    exact hn
  · intro x hx
    rw [complete_declared] at hx
    simp only [ne_eq, hget]
    exact h.declared x hx
  · intro x
    rw [hget, hfields]
    exact h.ready x
  · rw [hmembers, Finset.card_insert_of_notMem, ← h.undefined, hfields]
    rw [mem_undefinedMembers, hnone]
    simp
  · rw [complete_declared, hfields]
    exact h.edges

/-- What the edges of a definition leave behind. -/
theorem foldl_addEdge (complete : DigestSet) (member : ArtifactId) (dependencies : List ArtifactId)
    (hnodup : dependencies.Nodup) (n : ℕ) (edges : DigestMap (List ArtifactId)) :
    (dependencies.foldl (addEdge complete member) (n, edges)).1 =
        n + (dependencies.toFinset.filter fun d => d ∉ complete).card ∧
      ∀ d x, ((dependencies.foldl (addEdge complete member) (n, edges)).2[d]?.getD []).count x =
        (edges[d]?.getD []).count x +
          if x = member ∧ d ∈ dependencies ∧ d ∉ complete then 1 else 0 := by
  induction dependencies generalizing n edges with
  | nil => simp
  | cons dependency dependencies ih =>
    obtain ⟨hnotin, hnodup⟩ := List.nodup_cons.mp hnodup
    rw [List.foldl_cons]
    by_cases hcomplete : dependency ∈ complete
    · have hedge : addEdge complete member (n, edges) dependency = (n, edges) :=
        if_pos (Std.TreeSet.contains_iff_mem.mpr hcomplete)
      rw [hedge]
      obtain ⟨hcount, hedges⟩ := ih hnodup n edges
      refine ⟨?_, fun d x => ?_⟩
      · rw [hcount, List.toFinset_cons, Finset.filter_insert, if_neg (not_not.mpr hcomplete)]
      · rw [hedges]
        congr 2
        rw [List.mem_cons]
        apply propext
        constructor
        · rintro ⟨hx, hd, hd'⟩
          exact ⟨hx, .inr hd, hd'⟩
        · rintro ⟨hx, hd, hd'⟩
          refine ⟨hx, hd.resolve_left ?_, hd'⟩
          rintro rfl
          exact hd' hcomplete
    · have hedge : addEdge complete member (n, edges) dependency =
          (n + 1, edges.insert dependency (edges[dependency]?.getD [] ++ [member])) :=
        if_neg fun h => hcomplete (Std.TreeSet.contains_iff_mem.mp h)
      rw [hedge]
      obtain ⟨hcount, hedges⟩ := ih hnodup (n + 1) _
      refine ⟨?_, fun d x => ?_⟩
      · rw [hcount, List.toFinset_cons, Finset.filter_insert, if_pos hcomplete,
          Finset.card_insert_of_notMem]
        · omega
        · simp [hnotin]
      · rw [hedges, getElem?_insert]
        by_cases hd : dependency = d
        · subst hd
          rw [if_pos rfl, Option.getD_some, List.count_append, List.count_singleton]
          by_cases hx : x = member
          · simp [hx, hnotin, hcomplete]
          · simp [hx, Ne.symm hx]
        · rw [if_neg hd]
          have hne : d ≠ dependency := fun heq => hd heq.symm
          simp [hne]

/-- The scheduler with a member that was only declared and is defined now. -/
def definedMember (s : Dependencies) (member : ArtifactId) (dependencies : DigestSet) :
    Dependencies :=
  let r := dependencies.toList.foldl (addEdge s.complete member) (0, s.dependents)
  { s with
    pending := s.pending.insert member (some r.1)
    dependents := r.2
    undefined := s.undefined - 1
    ready := if r.1 = 0 then s.ready.insert member else s.ready }

/-- A definition succeeds exactly for members that are neither finished nor defined. -/
theorem run_add (h : Exact s g) (member : ArtifactId) (dependencies : DigestSet) :
    ((member ∈ s.complete ∨ g member ≠ none) ∧
      ∃ e, (add member dependencies).run s = (.error (.error e), s)) ∨
    (member ∉ s.complete ∧ g member = none ∧ (s.declared member).pending[member]? = some none ∧
      (add member dependencies).run s =
        (.ok (), (s.declared member).definedMember member dependencies)) := by
  by_cases hcomplete : member ∈ s.complete
  · have hnone := h.disjoint member hcomplete
    refine .inl ⟨.inl hcomplete, "already completed dependency member", ?_⟩
    have hdeclared : s.declared member = s := declared_of_known (.inl hcomplete)
    simp only [add, run_bind, run_declare, run_state, hdeclared, hnone, orThrow, run_throw]
  have hpending := pending_declared hcomplete member
  by_cases hdefined : g member = none
  · right
    have hget : (s.declared member).pending[member]? = some none := by
      have hnot := (h.declared member hcomplete).mp hdefined
      rw [hpending]
      cases hold : s.pending[member]? with
      | none => simp
      | some o =>
        cases o with
        | none => simp
        | some n => exact absurd hold (hnot n)
    have hpos : 0 < (s.declared member).undefined := by
      rw [(h.declareMember member).undefined, Finset.card_pos]
      exact ⟨member, mem_undefinedMembers.2 hget⟩
    refine ⟨hcomplete, hdefined, hget, ?_⟩
    simp only [add, run_bind, run_declare, run_state, hget, orThrow, run_require, if_pos hpos]
    rfl
  · refine .inl ⟨.inr hdefined, "duplicate dependency member", ?_⟩
    have hnot := mt (h.declared member hcomplete).mpr hdefined
    simp only [not_forall, not_not] at hnot
    obtain ⟨n, hn⟩ := hnot
    have hdeclared : s.declared member = s := declared_of_known (.inr (by simp [hn]))
    simp only [add, run_bind, run_declare, run_state, hdeclared, hn, orThrow]
    rfl

theorem Exact.define (h : Exact s g) (hcomplete : member ∉ s.complete) (hg : g member = none)
    (hget : s.pending[member]? = some none) (dependencies : DigestSet) :
    Exact (s.definedMember member dependencies)
      (Function.update g member (some dependencies.toList.toFinset)) := by
  obtain ⟨hcount, hedges⟩ := foldl_addEdge s.complete member dependencies.toList
    (dependencies.distinct_toList.imp Std.ReflCmp.ne_of_cmp_ne_eq) 0 s.dependents
  rw [Nat.zero_add] at hcount
  have hpending : ∀ x, (s.definedMember member dependencies).pending[x]? =
      if member = x then some (some (s.unfinished dependencies.toList.toFinset).card)
        else s.pending[x]? := by
    intro x
    rw [definedMember, getElem?_insert, hcount, unfinished]
  have hmembers : (s.definedMember member dependencies).undefinedMembers =
      s.undefinedMembers.erase member := by
    ext x
    rw [mem_undefinedMembers, Finset.mem_erase, mem_undefinedMembers, hpending]
    by_cases hx : member = x
    · simp [hx]
    · simp [hx, Ne.symm hx]
  have hcompleteEq : (s.definedMember member dependencies).complete = s.complete := rfl
  have hunfinished : (s.definedMember member dependencies).unfinished = s.unfinished := rfl
  constructor
  · intro x hx
    rw [hpending, if_neg]
    · exact h.disjoint x hx
    · rintro rfl
      exact hcomplete hx
  · intro x n hx
    rw [hpending] at hx
    rw [hunfinished]
    by_cases hxm : member = x
    · subst hxm
      rw [if_pos rfl, Option.some.injEq, Option.some.injEq] at hx
      exact ⟨_, Function.update_self .., hx.symm⟩
    · rw [if_neg hxm] at hx
      rw [Function.update_of_ne (Ne.symm hxm)]
      exact h.counted x n hx
  · intro x hx
    simp only [ne_eq, hpending]
    by_cases hxm : member = x
    · subst hxm
      simp
    · rw [Function.update_of_ne (Ne.symm hxm), if_neg hxm]
      exact h.declared x hx
  · intro x
    have hready : (s.definedMember member dependencies).ready =
        if (s.unfinished dependencies.toList.toFinset).card = 0 then s.ready.insert member
          else s.ready := by
      rw [definedMember, hcount, unfinished]
    have hold := h.ready member
    rw [hget] at hold
    rw [hready, hpending]
    by_cases hxm : member = x
    · subst hxm
      rw [if_pos rfl]
      split_ifs with hzero
      · simp [hzero]
      · simp [hzero, hold]
    · rw [if_neg hxm, ← h.ready x]
      split_ifs
      · rw [mem_insert]
        simp [hxm]
      · rfl
  · rw [hmembers, Finset.card_erase_of_mem (mem_undefinedMembers.2 hget), ← h.undefined]
    rfl
  · intro d x hd hx
    have hold := h.edges d x hd hx
    have hnew := hedges d x
    change (((dependencies.toList.foldl (addEdge s.complete member)
      (0, s.dependents)).2[d]?).getD []).count x = _
    rw [hnew, hold]
    by_cases hxm : x = member
    · subst hxm
      rw [Function.update_self, hg]
      have hdnot : d ∉ s.complete := hd
      simp [hdnot]
    · rw [Function.update_of_ne hxm]
      simp [hxm]

/-- The counters without what a list of wake-ups takes off them. -/
structure Woken (s : Dependencies) (woken : List ArtifactId) (s' : Dependencies) : Prop where
  pending : ∀ x, s'.pending[x]? = (s.pending[x]?).map (Option.map fun n => n - woken.count x)
  ready : ∀ x, x ∈ s'.ready ↔ s'.pending[x]? = some (some 0)
  dependents : s'.dependents = s.dependents
  complete : s'.complete = s.complete
  undefined : s'.undefined = s.undefined

theorem run_wake (hready : ∀ x, x ∈ s.ready ↔ s.pending[x]? = some (some 0))
    (hpositive : ∀ n, s.pending[member]? = some (some n) → 0 < n) :
    ∃ s', (wake member).run s = (.ok (), s') ∧ Woken s [member] s' := by
  have hother : (∀ n, s.pending[member]? ≠ some (some n)) → Woken s [member] s := by
    intro hnot
    refine ⟨fun x => ?_, hready, rfl, rfl, rfl⟩
    by_cases hx : member = x
    · subst hx
      cases hget : s.pending[member]? with
      | none => rfl
      | some o =>
        cases o with
        | none => rfl
        | some n => exact absurd hget (hnot n)
    · rw [List.count_singleton, if_neg (by simpa using hx)]
      simp
  cases hget : s.pending[member]? with
  | none =>
    refine ⟨s, ?_, hother (by simp [hget])⟩
    simp only [wake, run_bind, run_state, hget]
    rfl
  | some o =>
    cases o with
    | none =>
      refine ⟨s, ?_, hother (by simp [hget])⟩
      simp only [wake, run_bind, run_state, hget]
      rfl
    | some n =>
      have hpos := hpositive n hget
      let t : Dependencies := { s with
        pending := s.pending.insert member (some (n - 1))
        ready := if n - 1 = 0 then s.ready.insert member else s.ready }
      have hpending : ∀ x, t.pending[x]? = if member = x then some (some (n - 1)) else s.pending[x]? :=
        fun x => getElem?_insert _ _ _ _
      refine ⟨t, ?_, fun x => ?_, fun x => ?_, rfl, rfl, rfl⟩
      · simp only [wake, run_bind, run_state, hget, run_require, if_pos hpos]
        rfl
      · rw [hpending]
        by_cases hx : member = x
        · subst hx
          simp [hget]
        · rw [if_neg hx, List.count_singleton, if_neg (by simpa using hx)]
          simp
      · have hsplit : x ∈ t.ready ↔ (n - 1 = 0 ∧ member = x) ∨ x ∈ s.ready := by
          change x ∈ (if n - 1 = 0 then s.ready.insert member else s.ready) ↔ _
          split_ifs with hzero
          · simp [hzero]
          · simp [hzero]
        rw [hsplit, hpending, hready]
        by_cases hx : member = x
        · subst hx
          simp [hget]
          omega
        · simp [hx]

theorem run_forEach_wake {woken : List ArtifactId}
    (hready : ∀ x, x ∈ s.ready ↔ s.pending[x]? = some (some 0))
    (hle : ∀ x n, s.pending[x]? = some (some n) → woken.count x ≤ n) :
    ∃ s', (Effect.forEach wake woken).run s = (.ok (), s') ∧ Woken s woken s' := by
  induction woken generalizing s with
  | nil =>
    refine ⟨s, rfl, fun x => ?_, hready, rfl, rfl, rfl⟩
    simp
  | cons member woken ih =>
    have hpositive : ∀ n, s.pending[member]? = some (some n) → 0 < n := by
      intro n hn
      have hcount := hle member n hn
      rw [List.count_cons_self] at hcount
      omega
    obtain ⟨t, hrun, ht⟩ := run_wake hready hpositive
    have hnext : ∀ x n, t.pending[x]? = some (some n) → woken.count x ≤ n := by
      intro x n hn
      rw [ht.pending] at hn
      simp only [Option.map_eq_some_iff] at hn
      obtain ⟨_, hold, m, rfl, rfl⟩ := hn
      have hcount := hle x m hold
      rw [List.count_cons] at hcount
      rw [List.count_singleton]
      omega
    obtain ⟨s', hrun', hs'⟩ := ih ht.ready hnext
    refine ⟨s', ?_, fun x => ?_, hs'.ready, hs'.dependents.trans ht.dependents,
      hs'.complete.trans ht.complete, hs'.undefined.trans ht.undefined⟩
    · have hbind : (Effect.forEach wake (member :: woken)).run s =
          ((wake member >>= fun _ => Effect.forEach wake woken) : Call).run s := rfl
      rw [hbind, run_bind, hrun]
      exact hrun'
    · rw [hs'.pending, ht.pending]
      cases s.pending[x]? with
      | none => rfl
      | some o =>
        cases o with
        | none => rfl
        | some n =>
          simp only [Option.map_some, List.count_cons, List.count_nil, Nat.zero_add, Nat.sub_sub]
          rw [Nat.add_comm]

/-- The state after a member has left and before its dependents are woken. -/
def finished (s : Dependencies) (member : ArtifactId) : Dependencies where
  pending := s.pending.erase member
  dependents := s.dependents.erase member
  ready := s.ready.erase member
  complete := s.complete.insert member
  undefined := if s.pending[member]? = some none then s.undefined - 1 else s.undefined

theorem pending_finished (s : Dependencies) (member x : ArtifactId) :
    (s.finished member).pending[x]? = if member = x then none else s.pending[x]? :=
  getElem?_erase _ _ _

theorem ready_finished (hready : ∀ x, x ∈ s.ready ↔ s.pending[x]? = some (some 0))
    (x : ArtifactId) :
    x ∈ (s.finished member).ready ↔ (s.finished member).pending[x]? = some (some 0) := by
  change x ∈ s.ready.erase member ↔ _
  rw [pending_finished, mem_erase, hready]
  by_cases hx : member = x
  · simp [hx]
  · simp [hx]

namespace Woken

variable {woken : List ArtifactId}

theorem mem_complete (hs : Woken (s.finished member) woken s') (x : ArtifactId) :
    x ∈ s'.complete ↔ member = x ∨ x ∈ s.complete := by
  rw [hs.complete]
  exact mem_insert _ _ _

theorem pending_eq_none (hs : Woken (s.finished member) woken s') (x : ArtifactId) :
    s'.pending[x]? = none ↔ member = x ∨ s.pending[x]? = none := by
  rw [hs.pending, Option.map_eq_none_iff, pending_finished]
  split_ifs with hx
  · simp [hx]
  · simp [hx]

theorem pending_eq_some (hs : Woken (s.finished member) woken s') (x : ArtifactId) (n : ℕ) :
    s'.pending[x]? = some (some n) ↔
      member ≠ x ∧ ∃ m, s.pending[x]? = some (some m) ∧ n = m - woken.count x := by
  rw [hs.pending, pending_finished]
  by_cases hx : member = x
  · simp [hx]
  · simp [hx, eq_comm]

theorem undefinedMembers (hs : Woken (s.finished member) woken s') :
    s'.undefinedMembers = s.undefinedMembers.erase member := by
  ext x
  rw [mem_undefinedMembers, Finset.mem_erase, mem_undefinedMembers, hs.pending, pending_finished]
  by_cases hx : member = x
  · simp [hx]
  · simp [hx, Ne.symm hx]

theorem unfinished (hs : Woken (s.finished member) woken s') (D : Finset ArtifactId) :
    s'.unfinished D = (s.unfinished D).erase member := by
  ext d
  simp only [Dependencies.unfinished, Finset.mem_filter, Finset.mem_erase, hs.mem_complete, not_or]
  constructor
  · rintro ⟨hd, hne, hnot⟩
    exact ⟨Ne.symm hne, hd, hnot⟩
  · rintro ⟨hne, hd, hnot⟩
    exact ⟨hd, Ne.symm hne, hnot⟩

end Woken

/-- A member that waits is woken once by each dependency that it defined. -/
theorem Exact.count_dependents (h : Exact s g) (hcomplete : member ∉ s.complete) {x : ArtifactId}
    {n : ℕ} (hn : s.pending[x]? = some (some n)) : ∃ D, g x = some D ∧
      n = (s.unfinished D).card ∧
      (s.dependents[member]?.getD []).count x = if member ∈ D then 1 else 0 := by
  obtain ⟨D, hD, hcard⟩ := h.counted x n hn
  have hx : x ∉ s.complete := by
    intro hx
    rw [h.disjoint x hx] at hn
    cases hn
  refine ⟨D, hD, hcard, ?_⟩
  rw [h.edges member x hcomplete hx]
  simp [hD]

/-- The counters stay exact when the dependents of a member that leaves are woken. -/
theorem Exact.woken (h : Exact s g) (hcomplete : member ∉ s.complete)
    (hs : Woken (s.finished member) (s.dependents[member]?.getD []) s') : Exact s' g := by
  constructor
  · intro x hx
    rw [hs.pending_eq_none]
    exact ((hs.mem_complete x).mp hx).imp_right (h.disjoint x)
  · intro x n hx
    obtain ⟨hne, m, hm, rfl⟩ := (hs.pending_eq_some x n).mp hx
    obtain ⟨D, hD, rfl, hwoken⟩ := h.count_dependents hcomplete hm
    refine ⟨D, hD, ?_⟩
    rw [hs.unfinished, hwoken]
    split_ifs with hD'
    · have hin : member ∈ s.unfinished D := Finset.mem_filter.mpr ⟨hD', hcomplete⟩
      rw [Finset.card_erase_of_mem hin]
    · have hout : member ∉ s.unfinished D := fun hd => hD' (Finset.mem_filter.mp hd).1
      rw [Finset.erase_eq_of_notMem hout, Nat.sub_zero]
  · intro x hx
    rw [hs.mem_complete, not_or] at hx
    rw [h.declared x hx.2]
    constructor
    · intro hnot n hn
      obtain ⟨-, m, hm, -⟩ := (hs.pending_eq_some x n).mp hn
      exact hnot m hm
    · intro hnot m hm
      exact hnot _ ((hs.pending_eq_some x _).mpr ⟨hx.1, m, hm, rfl⟩)
  · exact hs.ready
  · rw [hs.undefinedMembers, hs.undefined]
    change (if s.pending[member]? = some none then s.undefined - 1 else s.undefined) = _
    split_ifs with hget
    · rw [Finset.card_erase_of_mem (mem_undefinedMembers.2 hget), h.undefined]
    · rw [Finset.erase_eq_of_notMem fun hd => hget (mem_undefinedMembers.1 hd), h.undefined]
  · intro d x hd hx
    rw [hs.mem_complete, not_or] at hd hx
    rw [hs.dependents]
    change ((s.dependents.erase member)[d]?.getD []).count x = _
    rw [getElem?_erase, if_neg hd.1]
    exact h.edges d x hd.2 hx.2

/-- A finished member leaves, and each of its dependents waits for one dependency less. -/
theorem run_finish (h : Exact s g) (hcomplete : member ∉ s.complete) :
    ∃ s', (finish member).run s = (.ok (), s') ∧ Exact s' g ∧
      (∀ x, x ∈ s'.complete ↔ member = x ∨ x ∈ s.complete) ∧
      ∀ x, s'.pending[x]? = none ↔ member = x ∨ s.pending[x]? = none := by
  have hle : ∀ x n, (s.finished member).pending[x]? = some (some n) →
      (s.dependents[member]?.getD []).count x ≤ n := by
    intro x n hn
    rw [pending_finished] at hn
    split_ifs at hn
    obtain ⟨D, -, rfl, hwoken⟩ := h.count_dependents hcomplete hn
    rw [hwoken]
    split_ifs with hmem
    · exact Finset.card_pos.mpr ⟨member, Finset.mem_filter.mpr ⟨hmem, hcomplete⟩⟩
    · exact Nat.zero_le _
  obtain ⟨s', hrun, hs⟩ := run_forEach_wake (ready_finished h.ready) hle
  refine ⟨s', ?_, h.woken hcomplete hs, hs.mem_complete, hs.pending_eq_none⟩
  have hcontains : ¬ s.complete.contains member = true := fun hc =>
    hcomplete (Std.TreeSet.contains_iff_mem.mp hc)
  have hundefined : s.pending[member]? = some none → 0 < s.undefined := by
    intro hget
    rw [h.undefined, Finset.card_pos]
    exact ⟨member, mem_undefinedMembers.2 hget⟩
  simp only [finish, run_bind, run_state, if_neg hcontains, run_modify, run_require,
    if_pos hundefined]
  exact hrun

theorem run_finish_again (hcomplete : member ∈ s.complete) :
    (finish member).run s = (.ok (), s) := by
  have hcontains : s.complete.contains member = true := Std.TreeSet.contains_iff_mem.mpr hcomplete
  simp only [finish, run_bind, run_state, if_pos hcontains]
  rfl

/-- Whatever the calls, the counters stay exact. -/
theorem Reached.exact (h : Reached s g) : Exact s g := by
  induction h with
  | empty => exact exact_empty
  | declare _ member ih => exact ih.declareMember member
  | @add s s' g _ member dependencies hrun ih =>
    rcases run_add ih member dependencies with ⟨-, e, herror⟩ | ⟨hcomplete, hg, hget, hok⟩
    · rw [hrun] at herror
      cases herror
    · rw [hrun] at hok
      cases hok
      have hcomplete' : member ∉ (s.declared member).complete := by rwa [complete_declared]
      exact (ih.declareMember member).define hcomplete' hg hget dependencies
  | @refused s s' g _ member dependencies e hrun ih =>
    rcases run_add ih member dependencies with ⟨-, e', herror⟩ | ⟨hcomplete, hg, hget, hok⟩
    · rw [hrun] at herror
      cases herror
      exact ih
    · rw [hrun] at hok
      cases hok
  | @finish s g _ member ih =>
    by_cases hcomplete : member ∈ s.complete
    · rw [run_finish_again hcomplete]
      exact ih
    · obtain ⟨s', hrun, hs', -⟩ := run_finish ih hcomplete
      rw [hrun]
      exact hs'

end Dependencies
end Naome
