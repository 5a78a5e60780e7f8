import Naome.DependencyScheduler

/-!
# The order of the scheduling loop

The loop finishes the next ready member until none is left. It reaches exactly the members whose
dependency closure is defined and has no cycle.
-/
namespace Naome
namespace Dependencies

/-- Finishes the next ready member until none is left; `order` lists the finished members. -/
inductive Drains : Dependencies → List ArtifactId → Dependencies → Prop
  | stop {s} (h : s.next none = none) : Drains s [] s
  | step {s t s' member order} (h : s.next none = some member)
    (hrun : (finish member).run s = (.ok (), t)) (hrest : Drains t order s') :
    Drains s (member :: order) s'

variable {s s' : Dependencies} {g : ArtifactId → Option (Finset ArtifactId)} {member : ArtifactId}

theorem next_eq_none : s.next none = none ↔ ∀ x, x ∉ s.ready := by
  simp [next, ← Std.TreeSet.mem_toList]

theorem mem_ready_of_next (h : s.next none = some member) : member ∈ s.ready :=
  Std.TreeSet.mem_toList.mp (List.mem_of_find?_eq_some h)

/-- A ready member is defined, and all its dependencies are finished. -/
theorem Exact.of_ready (h : Exact s g) (hready : member ∈ s.ready) :
    member ∉ s.complete ∧ ∃ D, g member = some D ∧ ∀ d ∈ D, d ∈ s.complete := by
  have hget := (h.ready member).mp hready
  constructor
  · intro hcomplete
    rw [h.disjoint member hcomplete] at hget
    cases hget
  · obtain ⟨D, hD, hcard⟩ := h.counted member 0 hget
    refine ⟨D, hD, fun d hd => ?_⟩
    by_contra hnot
    have hmem : d ∈ s.unfinished D := Finset.mem_filter.mpr ⟨hd, hnot⟩
    rw [Finset.card_eq_zero.mp hcard.symm] at hmem
    exact Finset.notMem_empty d hmem

/-- A defined member that is not finished and not ready waits for some dependency. -/
theorem Exact.of_not_ready (h : Exact s g) (hcomplete : member ∉ s.complete)
    (hready : member ∉ s.ready) {D : Finset ArtifactId} (hD : g member = some D) :
    ∃ d ∈ D, d ∉ s.complete := by
  have hdefined := mt (h.declared member hcomplete).mpr (by simp [hD])
  simp only [not_forall, not_not] at hdefined
  obtain ⟨n, hn⟩ := hdefined
  obtain ⟨D', hD', hcard⟩ := h.counted member n hn
  rw [hD, Option.some.injEq] at hD'
  subst hD'
  have hpos : 0 < (s.unfinished D).card := by
    rw [← hcard, Nat.pos_iff_ne_zero]
    rintro rfl
    exact hready ((h.ready member).mpr hn)
  obtain ⟨d, hd⟩ := Finset.card_pos.mp hpos
  exact ⟨d, Finset.mem_filter.mp hd⟩

/-- The finished members are in the order, and exactly they left the pending members. -/
theorem Drains.frame {order : List ArtifactId} (h : Exact s g) (hdrains : Drains s order s') :
    Exact s' g ∧ s'.next none = none ∧ (∀ x, x ∈ s'.complete ↔ x ∈ order ∨ x ∈ s.complete) ∧
      ∀ x, s'.pending[x]? = none ↔ x ∈ order ∨ s.pending[x]? = none := by
  induction hdrains with
  | stop hnext => exact ⟨h, hnext, by simp, by simp⟩
  | @step s t s' member order hnext hrun _ ih =>
    obtain ⟨hcomplete, -⟩ := h.of_ready (mem_ready_of_next hnext)
    obtain ⟨t', hrun', ht, hmem, hnone⟩ := run_finish h hcomplete
    rw [hrun] at hrun'
    cases hrun'
    obtain ⟨hs', hnext', hmem', hnone'⟩ := ih ht
    refine ⟨hs', hnext', fun x => ?_, fun x => ?_⟩
    · rw [hmem', hmem, List.mem_cons, eq_comm (a := x)]
      tauto
    · rw [hnone', hnone, List.mem_cons, eq_comm (a := x)]
      tauto

/-- Members that were not finished, each after all its dependencies. -/
structure Scheduled (s : Dependencies) (g : ArtifactId → Option (Finset ArtifactId))
    (order : List ArtifactId) : Prop where
  nodup : order.Nodup
  unfinished : ∀ x ∈ order, x ∉ s.complete
  ordered : ∀ before x after, order = before ++ x :: after →
    ∃ D, g x = some D ∧ ∀ d ∈ D, d ∈ s.complete ∨ d ∈ before

theorem Drains.scheduled {order : List ArtifactId} (h : Exact s g) (hdrains : Drains s order s') :
    Scheduled s g order := by
  induction hdrains with
  | stop _ =>
    constructor
    · exact List.nodup_nil
    · simp
    · simp
  | @step s t s' member order hnext hrun _ ih =>
    obtain ⟨hcomplete, D, hD, hall⟩ := h.of_ready (mem_ready_of_next hnext)
    obtain ⟨t', hrun', ht, hmem, -⟩ := run_finish h hcomplete
    rw [hrun] at hrun'
    cases hrun'
    have hrest := ih ht
    constructor
    · rw [List.nodup_cons]
      refine ⟨fun hin => ?_, hrest.nodup⟩
      exact hrest.unfinished member hin ((hmem member).mpr (.inl rfl))
    · intro x hx
      rcases List.mem_cons.mp hx with rfl | hx
      · exact hcomplete
      · exact fun hc => hrest.unfinished x hx ((hmem x).mpr (.inr hc))
    · intro before x after heq
      cases before with
      | nil =>
        rw [List.nil_append, List.cons.injEq] at heq
        obtain ⟨rfl, -⟩ := heq
        exact ⟨D, hD, fun d hd => .inl (hall d hd)⟩
      | cons first before =>
        rw [List.cons_append, List.cons.injEq] at heq
        obtain ⟨rfl, heq⟩ := heq
        obtain ⟨D', hD', hall'⟩ := hrest.ordered before x after heq
        refine ⟨D', hD', fun d hd => ?_⟩
        rcases hall' d hd with hd | hd
        · rw [hmem] at hd
          rcases hd with rfl | hd
          · exact .inr (List.mem_cons_self ..)
          · exact .inl hd
        · exact .inr (List.mem_cons_of_mem _ hd)

/-- The loop ends: each round takes a member off the pending ones. -/
theorem exists_drains (h : Exact s g) : ∃ order s', Drains s order s' := by
  induction hn : s.pending.keys.toFinset.card using Nat.strong_induction_on generalizing s with
  | _ n ih =>
    cases hnext : s.next none with
    | none => exact ⟨[], s, .stop hnext⟩
    | some member =>
      have hready := mem_ready_of_next hnext
      obtain ⟨hcomplete, -⟩ := h.of_ready hready
      obtain ⟨t, hrun, ht, -, hnone⟩ := run_finish h hcomplete
      have hkeys : ∀ (r : Dependencies) x, x ∈ r.pending.keys.toFinset ↔ r.pending[x]? ≠ none := by
        intro r x
        rw [List.mem_toFinset, Std.TreeMap.mem_keys, Std.TreeMap.mem_iff_isSome_getElem?,
          Option.isSome_iff_ne_none]
      have hlt : t.pending.keys.toFinset.card < n := by
        rw [← hn]
        apply Finset.card_lt_card
        rw [Finset.ssubset_iff_of_subset]
        · refine ⟨member, ?_, ?_⟩
          · rw [hkeys, (h.ready member).mp hready]
            simp
          · rw [hkeys, not_not, hnone]
            exact .inl rfl
        · intro x hx
          rw [hkeys, ne_eq, hnone, not_or] at hx
          exact (hkeys s x).mpr hx.2
      obtain ⟨order, s', hdrains⟩ := ih _ hlt ht rfl
      exact ⟨member :: order, s', .step hnext hrun hdrains⟩

/-- A member that is defined with a dependency that is not finished. -/
def Awaits (s : Dependencies) (g : ArtifactId → Option (Finset ArtifactId))
    (x d : ArtifactId) : Prop :=
  ∃ D, g x = some D ∧ d ∈ D ∧ d ∉ s.complete

/-- The dependency closure holds only defined members and no cycle. -/
def Schedulable (s : Dependencies) (g : ArtifactId → Option (Finset ArtifactId))
    (x : ArtifactId) : Prop :=
  x ∉ s.complete ∧ ∀ y, Relation.ReflTransGen (Awaits s g) x y →
    g y ≠ none ∧ ¬ Relation.TransGen (Awaits s g) y y

/-- In a schedule a member only waits for members before it. -/
theorem Scheduled.earlier {order : List ArtifactId} (h : Scheduled s g order) {x d : ArtifactId}
    (hx : x ∈ order) (hawaits : Awaits s g x d) : d ∈ order ∧ order.idxOf d < order.idxOf x := by
  obtain ⟨before, after, heq⟩ := List.append_of_mem hx
  obtain ⟨D, hD, hall⟩ := h.ordered before x after heq
  obtain ⟨D', hD', hd, hnot⟩ := hawaits
  rw [hD, Option.some.injEq] at hD'
  subst hD'
  have hbefore := (hall d hd).resolve_left hnot
  have hnodup := h.nodup
  rw [heq, List.nodup_append] at hnodup
  have hxnot : x ∉ before := fun hin => hnodup.2.2 x hin x (List.mem_cons_self ..) rfl
  constructor
  · rw [heq]
    exact List.mem_append_left _ hbefore
  · rw [heq, List.idxOf_append_of_mem hbefore, List.idxOf_append_of_notMem hxnot]
    have hlt := List.idxOf_lt_length_of_mem hbefore
    omega

theorem Scheduled.schedulable {order : List ArtifactId} (h : Scheduled s g order) {x : ArtifactId}
    (hx : x ∈ order) : Schedulable s g x := by
  have hcycle : ∀ {y z}, Relation.TransGen (Awaits s g) y z → y ∈ order →
      z ∈ order ∧ order.idxOf z < order.idxOf y := by
    intro y z hyz hy
    induction hyz with
    | single hstep => exact h.earlier hy hstep
    | tail _ hstep ih =>
      obtain ⟨hz, hlt⟩ := h.earlier ih.1 hstep
      exact ⟨hz, hlt.trans ih.2⟩
  refine ⟨h.unfinished x hx, fun y hxy => ?_⟩
  have hy : y ∈ order := by
    rcases Relation.reflTransGen_iff_eq_or_transGen.mp hxy with rfl | hxy
    · exact hx
    · exact (hcycle hxy hx).1
  constructor
  · obtain ⟨before, after, heq⟩ := List.append_of_mem hy
    obtain ⟨D, hD, -⟩ := h.ordered before y after heq
    simp [hD]
  · intro hyy
    exact lt_irrefl _ (hcycle hyy hy).2

/-- No schedulable member stays behind: a member that waits for nothing is ready. -/
theorem Drains.mem_of_schedulable {order : List ArtifactId} (h : Exact s g)
    (hdrains : Drains s order s') {x : ArtifactId} (hx : Schedulable s g x) : x ∈ order := by
  obtain ⟨hs', hnext, hcomplete, -⟩ := hdrains.frame h
  let closure := {y | Relation.ReflTransGen (Awaits s g) x y}
  have hunfinished : ∀ y ∈ closure, y ∉ s.complete := by
    intro y hy
    rcases Relation.ReflTransGen.cases_tail hy with rfl | ⟨_, -, D, -, -, hnot⟩
    · exact hx.1
    · exact hnot
  have hfinite : closure.Finite := by
    apply (List.finite_toSet s.pending.keys).subset
    intro y hy
    have hdefined := mt (h.declared y (hunfinished y hy)).mpr (hx.2 y hy).1
    simp only [not_forall, not_not] at hdefined
    obtain ⟨n, hn⟩ := hdefined
    change y ∈ s.pending.keys
    rw [Std.TreeMap.mem_keys, Std.TreeMap.mem_iff_isSome_getElem?, hn]
    rfl
  have := hfinite.to_subtype
  let awaited (a b : closure) : Prop := Relation.TransGen (Awaits s g) b.1 a.1
  have : IsTrans closure awaited := ⟨fun a b c hab hbc => Relation.TransGen.trans hbc hab⟩
  have : Std.Irrefl awaited := ⟨fun a haa => (hx.2 a.1 a.2).2 haa⟩
  -- The induction goes from the dependencies to the members that wait for them.
  have hall : ∀ y : closure, y.1 ∈ order := by
    intro y
    induction y using (Finite.wellFounded_of_trans_of_irrefl awaited).induction with
    | _ y ih =>
      by_contra hout
      obtain ⟨D, hD⟩ := Option.ne_none_iff_exists'.mp (hx.2 y.1 y.2).1
      have hnot : y.1 ∉ s'.complete := by
        rw [hcomplete, not_or]
        exact ⟨hout, hunfinished y.1 y.2⟩
      obtain ⟨d, hd, hd'⟩ := hs'.of_not_ready hnot (next_eq_none.1 hnext y.1) hD
      rw [hcomplete, not_or] at hd'
      have hawaits : Awaits s g y.1 d := ⟨D, hD, hd, hd'.2⟩
      exact hd'.1 (ih ⟨d, Relation.ReflTransGen.tail y.2 hawaits⟩ (.single hawaits))
  exact hall ⟨x, .refl⟩

theorem Drains.mem_iff {order : List ArtifactId} (h : Exact s g) (hdrains : Drains s order s')
    (x : ArtifactId) : x ∈ order ↔ Schedulable s g x :=
  ⟨(hdrains.scheduled h).schedulable, hdrains.mem_of_schedulable h⟩

theorem Drains.completed_iff {order : List ArtifactId} (h : Exact s g)
    (hdrains : Drains s order s') :
    s'.completed ↔ ∀ x, s.pending[x]? ≠ none → x ∈ order := by
  obtain ⟨-, -, -, hnone⟩ := hdrains.frame h
  have hempty : s'.completed ↔ ∀ x : ArtifactId, s'.pending[x]? = none := by
    rw [completed, Std.TreeMap.isEmpty_iff_forall_not_mem]
    simp only [Std.TreeMap.mem_iff_isSome_getElem?, Option.not_isSome_iff_eq_none]
  rw [hempty]
  constructor
  · intro hall x hx
    exact ((hnone x).mp (hall x)).resolve_right hx
  · intro hall x
    rw [hnone]
    by_cases hx : s.pending[x]? = none
    · exact .inr hx
    · exact .inl (hall x hx)

/-- A member has a counter exactly while it is defined and not finished. -/
theorem Exact.pending_iff (h : Exact s g) (x : ArtifactId) (n : ℕ) :
    s.pending[x]? = some (some n) ↔
      x ∉ s.complete ∧ ∃ D, g x = some D ∧ n = (s.unfinished D).card := by
  constructor
  · intro hn
    refine ⟨fun hx => ?_, h.counted x n hn⟩
    rw [h.disjoint x hx] at hn
    cases hn
  · rintro ⟨hx, D, hD, hcard⟩
    have hdefined := mt (h.declared x hx).mpr (by simp [hD])
    simp only [not_forall, not_not] at hdefined
    obtain ⟨m, hm⟩ := hdefined
    obtain ⟨D', hD', hcard'⟩ := h.counted x m hm
    rw [hD, Option.some.injEq] at hD'
    rw [hm, hcard, hcard', hD']

/-- After any calls the counters are exact and no call ends the process. Draining ends after
finitely many rounds; it finishes every member with a defined and acyclic dependency closure once,
after its dependencies, and leaves nothing exactly when nothing else was pending. -/
theorem schedules_exactly (h : Reached s g) :
    (∀ x n, s.pending[x]? = some (some n) ↔
      x ∉ s.complete ∧ ∃ D, g x = some D ∧ n = (s.unfinished D).card) ∧
    (∀ x, x ∈ s.ready ↔ x ∉ s.complete ∧ ∃ D, g x = some D ∧ ∀ d ∈ D, d ∈ s.complete) ∧
    s.undefined = s.undefinedMembers.card ∧
    (∀ member dependencies, ((add member dependencies).run s).1 ≠ .error .panic) ∧
    (∀ member, ((finish member).run s).1 = .ok ()) ∧
    (∃ order s', Drains s order s') ∧
    ∀ order s', Drains s order s' →
      Scheduled s g order ∧ (∀ x, x ∈ order ↔ Schedulable s g x) ∧
      (s'.completed ↔ ∀ x, s.pending[x]? ≠ none → x ∈ order) := by
  have hs := h.exact
  refine ⟨hs.pending_iff, fun x => ⟨hs.of_ready, ?_⟩, hs.undefined, ?_, ?_, exists_drains hs,
    fun order s' hdrains => ⟨hdrains.scheduled hs, hdrains.mem_iff hs, hdrains.completed_iff hs⟩⟩
  · rintro ⟨hx, D, hD, hall⟩
    by_contra hready
    obtain ⟨d, hd, hnot⟩ := hs.of_not_ready hx hready hD
    exact hnot (hall d hd)
  · intro member dependencies hpanic
    rcases run_add hs member dependencies with ⟨-, e, herror⟩ | ⟨-, -, -, hok⟩
    · rw [herror] at hpanic
      cases hpanic
    · rw [hok] at hpanic
      cases hpanic
  · intro member
    by_cases hcomplete : member ∈ s.complete
    · rw [run_finish_again hcomplete]
    · obtain ⟨s', hrun, -⟩ := run_finish hs hcomplete
      rw [hrun]

namespace SelfCycle

def members (ids : List ArtifactId) : DigestSet := .ofList ids

/-- Member 2 is finished before anything depends on it. -/
def finished : Dependencies := ((finish 2).run empty).2

/-- Member 1 waits for 3 and not for 2. -/
def waiting : Dependencies := ((add 1 (members [2, 3])).run finished).2

def defined : Dependencies := ((add 3 ∅).run waiting).2

/-- Member 4 waits for itself. -/
def cyclic : Dependencies := ((add 4 (members [4])).run defined).2

/-- What is left when 3 and 1 are finished. -/
def drained : Dependencies := ((finish 1).run ((finish 3).run cyclic).2).2

theorem reached_cyclic : ∃ g, Reached cyclic g ∧ g 1 = some {2, 3} ∧ g 4 = some {4} :=
  ⟨_, @Reached.add defined cyclic _ (@Reached.add waiting defined _ (@Reached.add finished waiting _
    (.finish .empty 2) 1 (members [2, 3]) rfl) 3 ∅ rfl) 4 (members [4]) rfl, rfl, rfl⟩

theorem drains_cyclic : Drains cyclic [3, 1] drained :=
  .step rfl rfl (.step rfl rfl (.stop rfl))

end SelfCycle

open SelfCycle in
/-- Draining finishes 3 and then 1, which waits for it; 4 stays behind. -/
theorem schedules_exactly_cycle :
    cyclic.pending[(1 : ArtifactId)]? = some (some 1) ∧ drained.completed = false ∧
      ∃ g, Reached cyclic g ∧ g 1 = some {2, 3} ∧ g 4 = some {4} ∧
        Drains cyclic [3, 1] drained ∧ Scheduled cyclic g [3, 1] ∧ Schedulable cyclic g 1 ∧
        ¬Schedulable cyclic g 4 := by
  obtain ⟨g, hreached, hg₁, hg₄⟩ := reached_cyclic
  obtain ⟨hscheduled, hmem, -⟩ := (schedules_exactly hreached).2.2.2.2.2.2 _ _ drains_cyclic
  refine ⟨rfl, rfl, g, hreached, hg₁, hg₄, drains_cyclic, hscheduled, (hmem 1).1 (by simp),
    fun h => ?_⟩
  exact absurd ((hmem 4).2 h) (by decide)

end Dependencies
end Naome
