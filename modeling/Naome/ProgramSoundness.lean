import Naome.ProgramRules

/-!
# Soundness of programs

Every proved result of an evaluated program is true under every assignment in every structure
that satisfies the axioms, the admitted schema instances and the cited conclusions.
-/
namespace Naome
open LocallyNameless Outcome

namespace Formula

variable {M : Type*} {E : M → M → Prop}

/-- A tree under nameless binders holds for any values of their indices. -/
theorem holds_of_wrapForAll {k : ℕ} {n : PrimitiveNode} {R : Empty → List M → Prop}
    {ρ : FreeVariable → M} {env : ℕ → M} (h : (wrapForAll k n).Holds E R ρ env) (f : ℕ → M) :
    n.Holds E R ρ fun i => if i < k then f i else env (i - k) := by
  induction k generalizing n f with
  | zero => exact h
  | succ k ih =>
    have hstep := ih (n := .forAll n) h (fun i => f (i + 1)) (f 0)
    convert hstep using 1
    funext i
    cases i with
    | zero => rfl
    | succ i => simp [push]

/-- Every binder index belongs to the variable at its position. -/
theorem getElem?_of_binderIndices {vars : List FreeVariable} {v : FreeVariable} {i : ℕ}
    (h : binderIndices vars v = some i) : vars[vars.length - i - 1]? = some v := by
  have hfold : ∀ (ps : List (FreeVariable × ℕ)) (binders : FreeVariable → Option ℕ),
      (∀ p ∈ ps, p.2 < vars.length ∧ vars[p.2]? = some p.1) →
      (∀ w j, binders w = some j → j < vars.length ∧ vars[vars.length - j - 1]? = some w) →
      ∀ w j, ps.foldl (insertBinder vars.length) binders w = some j →
        j < vars.length ∧ vars[vars.length - j - 1]? = some w := by
    intro ps
    induction ps with
    | nil => exact fun _ _ hb => hb
    | cons p ps ih =>
      intro binders hps hb
      refine ih _ (fun q hq => hps q (List.mem_cons_of_mem p hq)) fun w j hw => ?_
      obtain ⟨hlt, hget⟩ := hps p List.mem_cons_self
      by_cases hwp : w = p.1
      · subst hwp
        simp only [insertBinder, Function.update_self, Option.some.injEq] at hw
        have hindex : vars.length - j - 1 = p.2 := by omega
        rw [hindex]
        exact ⟨by omega, hget⟩
      · rw [insertBinder, Function.update_of_ne hwp] at hw
        exact hb w j hw
  refine (hfold vars.zipIdx _ (fun p hp => ?_) (by simp) v i h).2
  have hget := List.mem_zipIdx_iff_getElem?.mp hp
  obtain ⟨hlt, _⟩ := List.getElem?_eq_some_iff.mp hget
  exact ⟨hlt, hget⟩

/-- A universal closure holds of the values that its variables already have. -/
theorem holds_of_forAllMany {vars : List FreeVariable} {f : Formula} {ρ : FreeVariable → M}
    (h : (forAllMany vars f).Holds E ρ) : f.Holds E ρ := by
  have hbody := holds_of_wrapForAll h fun i => ρ ((vars[vars.length - i - 1]?).getD default)
  rw [Node.holds_bindFree, holds_of_env] at hbody
  refine (holds_congr fun v _ => ?_).mp hbody
  unfold bindValue
  cases hv : binderIndices vars v with
  | none => rfl
  | some i =>
    simp [binderIndices_lt hv, getElem?_of_binderIndices hv]

theorem models_of_forAllMany {vars : List FreeVariable} {f : Formula}
    (h : (forAllMany vars f).Models E) : f.Models E := fun ρ => holds_of_forAllMany (h ρ)

/-- A substitution that changes nothing shows that its variable does not occur. -/
theorem not_mem_freeVariables_of_substituteFree {f : Formula} {v w : FreeVariable} (hvw : v ≠ w)
    (h : f.substituteFree v w = f) : v ∉ f.freeVariables := by
  rw [substituteFree_eq_map] at h
  have hocc : (f.mapFreeVariables (substitution v w)).node.occurrences = f.node.occurrences := by
    rw [h]
  rw [mem_freeVariables, ← hocc, mapFreeVariables, Node.occurrences_mapFree, List.mem_map]
  rintro ⟨u, _, hu⟩
  unfold substitution at hu
  split_ifs at hu with huv
  · exact hvw hu.symm
  · exact huv hu

end Formula

namespace Program

variable {M : Type*} {E : M → M → Prop}

/-- The parameters that a schema instance leaves free. -/
def freeParameters (predicate : Formula) (roles : List FreeVariable) : List FreeVariable :=
  predicate.freeVariables.toList.filter fun v => v ∉ roles

theorem schemaConditions_of_fresh {predicate : Formula} {roles allowed forbidden : List FreeVariable}
    (hroles : roles.Nodup) (hforbidden : ∀ v ∈ forbidden, v ∉ predicate.freeVariables)
    (hallowed : ∀ v ∈ roles, v ∈ allowed ∨ v ∈ forbidden) :
    Zfc.SchemaConditions predicate roles allowed forbidden (freeParameters predicate roles) := by
  constructor
  · exact hroles
  · refine List.Nodup.filter _ (Std.TreeSet.distinct_toList.imp fun h hab => h ?_)
    rw [hab]
    exact Std.ReflOrd.compare_self
  · intro p hp
    simpa using (List.mem_filter.mp hp).2
  · exact fun v hv hf => hforbidden v hf hv
  · intro v hv
    by_cases hr : v ∈ roles
    · rcases hallowed v hr with ha | hf
      · exact .inl ha
      · exact absurd hv (hforbidden v hf)
    · refine .inr (List.mem_filter.mpr ⟨Std.TreeSet.mem_toList.mpr hv, by simpa using hr⟩)

/-- A Separation instance with free parameters is true. -/
theorem separation_models (hE : ZfcModel E) {predicate : Formula}
    {element source result : FreeVariable} (hroles : [element, source, result].Nodup)
    (hresult : result ∉ predicate.freeVariables) :
    (Construction.separation predicate element source result).evaluate.Models E := by
  have hconditions : Zfc.SchemaConditions predicate [element, source, result] [element, source]
      [result] (freeParameters predicate [element, source, result]) :=
    schemaConditions_of_fresh hroles (by simpa using hresult) (by simp)
  have hformula : Separation.formula ⟨predicate, element, source, result,
      freeParameters predicate [element, source, result]⟩ =
      .ok (Formula.forAllMany (freeParameters predicate [element, source, result])
        (Construction.separation predicate element source result).evaluate) := by
    rw [Separation.formula, (Zfc.validateSchema_eq_ok (a := ())).mpr hconditions]
    rfl
  exact Formula.models_of_forAllMany (hE.separation _ _ hformula)

/-- A Replacement instance with free parameters is true. -/
theorem replacement_models (hE : ZfcModel E) {predicate : Formula}
    {input output witness source result : FreeVariable}
    (hroles : [input, output, witness, source, result].Nodup)
    (hwitness : witness ∉ predicate.freeVariables) (hresult : result ∉ predicate.freeVariables) :
    (Construction.replacement predicate input output witness source result).evaluate.Models E := by
  have hconditions : Zfc.SchemaConditions predicate [input, output, witness, source, result]
      [input, output, source] [witness, result]
      (freeParameters predicate [input, output, witness, source, result]) :=
    schemaConditions_of_fresh hroles (by simp [hwitness, hresult]) (by simp)
  have hformula : Replacement.formula ⟨predicate, input, output, witness, source, result,
      freeParameters predicate [input, output, witness, source, result]⟩ =
      .ok (Formula.forAllMany (freeParameters predicate [input, output, witness, source, result])
        (Construction.replacement predicate input output witness source result).evaluate) := by
    rw [Replacement.formula, (Zfc.validateSchema_eq_ok (a := ())).mpr hconditions]
    rfl
  exact Formula.models_of_forAllMany (hE.replacement _ _ hformula)

theorem distinctFrom_eq_ok {all earlier roles : List (OperandRole × UInt32)} {u : Unit} :
    distinctFrom all earlier roles = .ok u ↔
      (roles.map Prod.snd).Nodup ∧ ∀ v ∈ roles.map Prod.snd, v ∉ earlier.map Prod.snd := by
  induction roles generalizing earlier with
  | nil => simp [distinctFrom]
  | cons p roles ih =>
    obtain ⟨role, v⟩ := p
    simp only [distinctFrom, bind_eq_ok, require_eq_ok, exists_and_left, exists_const, ih,
      List.map_cons, List.nodup_cons, List.forall_mem_cons, List.map_append, List.mem_append]
    constructor
    · rintro ⟨hv, hnodup, hrest⟩
      refine ⟨⟨fun hm => (hrest v hm) (.inr (by simp)), hnodup⟩, ?_, fun w hw he => hrest w hw (.inl he)⟩
      intro hm
      obtain ⟨q, hq, hqv⟩ := List.mem_map.mp hm
      exact hv (List.any_eq_true.mpr ⟨q, hq, by simpa using hqv⟩)
    · rintro ⟨⟨hv, hnodup⟩, hve, hrest⟩
      refine ⟨fun hm => ?_, hnodup, fun w hw he => ?_⟩
      · obtain ⟨q, hq, hqv⟩ := List.any_eq_true.mp hm
        exact hve (List.mem_map.mpr ⟨q, hq, by simpa using hqv⟩)
      · rcases he with he | he
        · exact hrest w hw he
        · simp only [List.map_nil, List.mem_singleton] at he
          exact hv (he ▸ hw)

theorem distinct_eq_ok {roles : List (OperandRole × UInt32)} {u : Unit} :
    distinct roles = .ok u ↔ (roles.map Prod.snd).Nodup := by
  rw [distinct, distinctFrom_eq_ok]
  simp

variable {source : ProofId → Except DefinitionAccessError (Option Formula)}
  {resolver : DefinitionResolver} {results : List (Value Formula)}

theorem previous_eq_ok {index : ℕ} {proof : Bool} {role : OperandRole} {value : Value Formula} :
    previous (treeContext results) results.length index proof role = .ok value ↔
      results[index]? = some value ∧ (proof = true → value.proved = true) := by
  simp only [previous, treeContext, bind_eq_ok, require_eq_ok, mapError_eq_ok, orError_eq_ok,
    pure_eq_ok, exists_and_left, exists_const]
  constructor
  · rintro ⟨_, value, hget, hproved, rfl⟩
    exact ⟨hget, hproved⟩
  · rintro ⟨hget, hproved⟩
    exact ⟨(List.getElem?_eq_some_iff.mp hget).1, value, hget, hproved, rfl⟩

theorem input_eq_ok {index : ℕ} {proof : Bool} {role : OperandRole} {f : Formula} :
    (previous (treeContext results) results.length index proof role).map Value.formula = .ok f ↔
      ∃ value, results[index]? = some value ∧ (proof = true → value.proved = true) ∧
        value.formula = f := by
  rw [map_eq_ok]
  simp only [previous_eq_ok, and_assoc]

/-- The obligations, the recipe and the flag of an evaluated command. -/
theorem evaluateCommand_eq_ok {command : Command} {value : Value Formula} :
    evaluateCommand source resolver results command = .ok value ↔
      ∃ plan, prepare command results.length (treeContext results) = .ok plan ∧
        (∀ f ∈ plan.absent, f.predicate.substituteFree ⟨f.fresh⟩ ⟨f.replacement⟩ = f.predicate) ∧
        construct source resolver plan.construction = .ok value.formula ∧
        plan.proved = value.proved := by
  obtain ⟨f, proved⟩ := value
  simp only [evaluateCommand, checkAbsent, bind_eq_ok, mapError_eq_ok, forM_eq_ok, require_eq_ok,
    pure_eq_ok, exists_and_left, exists_const, Value.mk.injEq]
  constructor
  · rintro ⟨plan, hplan, habsent, formula, hformula, rfl, rfl⟩
    exact ⟨plan, hplan, habsent, hformula, rfl⟩
  · rintro ⟨plan, hplan, habsent, hformula, rfl⟩
    exact ⟨plan, hplan, habsent, f, hformula, rfl, rfl⟩

/-- Every proved result is true. -/
def ResultsTrue (E : M → M → Prop) (results : List (Value Formula)) : Prop :=
  ∀ value ∈ results, value.proved = true → value.formula.Models E

theorem ResultsTrue.models {results : List (Value Formula)} (h : ResultsTrue E results) {index : ℕ}
    {value : Value Formula} (hget : results[index]? = some value) (hproved : value.proved = true) :
    value.formula.Models E := h value (List.mem_of_getElem? hget) hproved

section

variable {plan : Plan Formula} {f : Formula}

/-- The roles of a schema as variables. -/
theorem nodup_roles {roles : List UInt32} (h : roles.Nodup) : (roles.map FreeVariable.mk).Nodup :=
  h.map fun a b hab => by cases hab; rfl

theorem separation_command_models (hE : ZfcModel E) {i : ℕ} {element set result : UInt32}
    (hplan : prepare (.separation i element set result) results.length (treeContext results) =
      .ok plan)
    (habsent : ∀ f ∈ plan.absent, f.predicate.substituteFree ⟨f.fresh⟩ ⟨f.replacement⟩ = f.predicate)
    (hformula : construct source resolver plan.construction = .ok f) : f.Models E := by
  simp only [prepare, bind_eq_ok, pure_eq_ok, mapError_eq_ok, distinct_eq_ok, exists_and_left,
    exists_const] at hplan
  obtain ⟨hroles, predicate, _, rfl⟩ := hplan
  cases hformula
  have hnodup : [(⟨element⟩ : FreeVariable), ⟨set⟩, ⟨result⟩].Nodup := nodup_roles hroles
  refine separation_models hE hnodup (Formula.not_mem_freeVariables_of_substituteFree ?_
    (habsent ⟨predicate, result, element, .result⟩ (by simp [Plan.derived])))
  rintro heq
  simp [heq] at hnodup

theorem replacement_command_models (hE : ZfcModel E) {i : ℕ}
    {input output witness set result : UInt32}
    (hplan : prepare (.replacement i input output witness set result) results.length
      (treeContext results) = .ok plan)
    (habsent : ∀ f ∈ plan.absent, f.predicate.substituteFree ⟨f.fresh⟩ ⟨f.replacement⟩ = f.predicate)
    (hformula : construct source resolver plan.construction = .ok f) : f.Models E := by
  simp only [prepare, bind_eq_ok, pure_eq_ok, mapError_eq_ok, distinct_eq_ok, exists_and_left,
    exists_const] at hplan
  obtain ⟨hroles, predicate, _, rfl⟩ := hplan
  cases hformula
  have hnodup : [(⟨input⟩ : FreeVariable), ⟨output⟩, ⟨witness⟩, ⟨set⟩, ⟨result⟩].Nodup :=
    nodup_roles hroles
  refine replacement_models hE hnodup ?_ ?_
  · refine Formula.not_mem_freeVariables_of_substituteFree ?_
      (habsent ⟨predicate, witness, input, .witness⟩ (by simp [Plan.derived]))
    rintro heq
    simp [heq] at hnodup
  · refine Formula.not_mem_freeVariables_of_substituteFree ?_
      (habsent ⟨predicate, result, input, .result⟩ (by simp [Plan.derived]))
    rintro heq
    simp [heq] at hnodup

theorem modusPonens_command_models (hresults : ResultsTrue E results) {i j : ℕ}
    (hplan : prepare (.modusPonens i j) results.length (treeContext results) = .ok plan)
    (hformula : construct source resolver plan.construction = .ok f) : f.Models E := by
  simp only [prepare, bind_eq_ok, pure_eq_ok, input_eq_ok, mapError_eq_ok, orError_eq_ok,
    require_eq_ok, exists_and_left, exists_const] at hplan
  obtain ⟨_, ⟨p, hp, hpp, rfl⟩, _, ⟨q, hq, hqp, rfl⟩, _, hparts, ⟨a, c⟩, rfl, hac, rfl⟩ := hplan
  cases hformula
  have himplies := Formula.implicationParts_eq_some.mp (Except.ok.inj hparts)
  have hpremise := hresults.models hp (hpp trivial)
  have himplication := hresults.models hq (hqp trivial)
  dsimp only at hac
  rw [himplies, hac] at himplication
  intro ρ
  exact himplication ρ (hpremise ρ)

end

/-- One command keeps every proved result true. -/
theorem evaluateCommand_models (hE : ZfcModel E) {command : Command} {value : Value Formula}
    (hcited : ∀ id, command = .proofReference id → ∀ f, source id = .ok (some f) → f.Models E)
    (hresults : ResultsTrue E results)
    (h : evaluateCommand source resolver results command = .ok value) (hproved : value.proved = true) :
    value.formula.Models E := by
  obtain ⟨plan, hplan, habsent, hformula, hflag⟩ := evaluateCommand_eq_ok.1 h
  rw [hproved] at hflag
  clear h hproved
  generalize value.formula = f at hformula ⊢
  cases command with
  | definedRelation id arguments | equal l r | member l r =>
    simp only [prepare, Except.ok.injEq] at hplan
    subst hplan
    cases hflag
  | not i | forAll v i | substitute a b i =>
    simp only [prepare, bind_eq_ok, pure_eq_ok] at hplan
    obtain ⟨_, _, rfl⟩ := hplan
    cases hflag
  | implies i j =>
    simp only [prepare, bind_eq_ok, pure_eq_ok] at hplan
    obtain ⟨_, _, _, _, rfl⟩ := hplan
    cases hflag
  | simplification i j =>
    simp only [prepare, bind_eq_ok, pure_eq_ok] at hplan
    obtain ⟨a, _, b, _, rfl⟩ := hplan
    cases hformula
    exact Logic.simplification_models a b
  | frege i j k =>
    simp only [prepare, bind_eq_ok, pure_eq_ok] at hplan
    obtain ⟨a, _, b, _, c, _, rfl⟩ := hplan
    cases hformula
    exact Logic.frege_models a b c
  | contraposition i j =>
    simp only [prepare, bind_eq_ok, pure_eq_ok] at hplan
    obtain ⟨a, _, b, _, rfl⟩ := hplan
    cases hformula
    exact Logic.classicalContraposition_models a b
  | distribution v i j =>
    simp only [prepare, bind_eq_ok, pure_eq_ok] at hplan
    obtain ⟨a, _, b, _, rfl⟩ := hplan
    cases hformula
    exact Logic.universalDistribution_models ⟨v⟩ a b
  | vacuous i =>
    simp only [prepare, bind_eq_ok, pure_eq_ok] at hplan
    obtain ⟨a, _, rfl⟩ := hplan
    cases hformula
    exact Logic.vacuousUniversal_models a
  | instantiation v r i =>
    simp only [prepare, bind_eq_ok, pure_eq_ok] at hplan
    obtain ⟨a, _, rfl⟩ := hplan
    cases hformula
    exact Logic.universalInstantiation_models ⟨v⟩ ⟨r⟩ a
  | reflexivity v =>
    simp only [prepare, Except.ok.injEq] at hplan
    subst hplan
    cases hformula
    exact Logic.equalityReflexivity_models ⟨v⟩
  | substitution a b i =>
    simp only [prepare, bind_eq_ok, pure_eq_ok] at hplan
    obtain ⟨c, _, rfl⟩ := hplan
    cases hformula
    exact Logic.equalitySubstitution_models ⟨a⟩ ⟨b⟩ c
  | zfcAxiom a =>
    simp only [prepare, bind_eq_ok, pure_eq_ok, mapError_eq_ok] at hplan
    obtain ⟨_, hfixed, rfl⟩ := hplan
    cases hfixed
    cases hformula
    exact hE.axioms a
  | proofReference id =>
    simp only [prepare, Except.ok.injEq] at hplan
    subst hplan
    simp only [construct, bind_eq_ok, mapError_eq_ok, orError_eq_ok, require_eq_ok, pure_eq_ok,
      exists_and_left, exists_const] at hformula
    obtain ⟨_, hsource, g, rfl, _, rfl⟩ := hformula
    exact hcited id rfl g hsource
  | separation i element set result => exact separation_command_models hE hplan habsent hformula
  | replacement i input output witness set result =>
    exact replacement_command_models hE hplan habsent hformula
  | modusPonens i j => exact modusPonens_command_models hresults hplan hformula
  | generalization i v =>
    simp only [prepare, bind_eq_ok, pure_eq_ok, input_eq_ok] at hplan
    obtain ⟨_, ⟨p, hp, hpp, rfl⟩, rfl⟩ := hplan
    cases hformula
    exact Logic.generalization_models ⟨v⟩ (hresults.models hp (hpp trivial))
  | «alias» i =>
    simp only [prepare, bind_eq_ok, pure_eq_ok, previous_eq_ok] at hplan
    obtain ⟨p, ⟨hp, _⟩, rfl⟩ := hplan
    cases hformula
    exact hresults.models hp hflag
  | «seal» i =>
    simp only [prepare, bind_eq_ok, pure_eq_ok, input_eq_ok, mapError_eq_ok, require_eq_ok,
      exists_and_left, exists_const] at hplan
    obtain ⟨_, ⟨p, hp, hpp, rfl⟩, _, _, _, rfl⟩ := hplan
    cases hformula
    exact hresults.models hp (hpp trivial)

theorem evaluate_concat_eq_ok {commands : List Command} {command : Command} :
    evaluate source resolver (commands ++ [command]) = .ok results ↔
      ∃ before value, evaluate source resolver commands = .ok before ∧
        evaluateCommand source resolver before command = .ok value ∧ results = before ++ [value] := by
  simp only [evaluate, List.foldlM_append, List.foldlM_cons, List.foldlM_nil, bind_eq_ok, pure_eq_ok]
  constructor
  · rintro ⟨before, hbefore, _, ⟨value, hvalue, rfl⟩, rfl⟩
    exact ⟨before, value, hbefore, hvalue, rfl⟩
  · rintro ⟨before, value, hbefore, hvalue, rfl⟩
    exact ⟨before, hbefore, _, ⟨value, hvalue, rfl⟩, rfl⟩

/-- Every result comes from its command and the results before it. -/
theorem evaluate_result {commands : List Command}
    (h : evaluate source resolver commands = .ok results) :
    results.length = commands.length ∧ ∀ (i : ℕ) (command : Command), commands[i]? = some command →
      ∃ value : Value Formula, results[i]? = some value ∧
        evaluateCommand source resolver (results.take i) command = .ok value := by
  induction commands using List.reverseRecOn generalizing results with
  | nil =>
    cases h
    simp
  | append_singleton commands last ih =>
    obtain ⟨before, value, hbefore, hvalue, rfl⟩ := evaluate_concat_eq_ok.1 h
    obtain ⟨hlength, hresult⟩ := ih hbefore
    refine ⟨by simp [hlength], fun i command hi => ?_⟩
    rcases Nat.lt_or_ge i commands.length with hlt | hge
    · rw [List.getElem?_append_left hlt] at hi
      obtain ⟨v, hv, hstep⟩ := hresult i command hi
      refine ⟨v, ?_, ?_⟩
      · rw [List.getElem?_append_left (hlength ▸ hlt)]
        exact hv
      · rw [List.take_append_of_le_length (by omega)]
        exact hstep
    · have hi' : i = commands.length := by
        have := (List.getElem?_eq_some_iff.mp hi).1
        simp only [List.length_append, List.length_singleton] at this
        omega
      subst hi'
      have hlast : last = command := by simpa using hi
      subst hlast
      refine ⟨value, ?_, ?_⟩
      · rw [← hlength]
        simp
      · rw [← hlength, List.take_append_of_le_length le_rfl, List.take_length]
        exact hvalue

/-- Every proved result of a program is true. -/
theorem resultsTrue_of_evaluate (hE : ZfcModel E) {commands : List Command}
    (hcited : ∀ id, .proofReference id ∈ commands → ∀ f, source id = .ok (some f) → f.Models E)
    (h : evaluate source resolver commands = .ok results) : ResultsTrue E results := by
  induction commands using List.reverseRecOn generalizing results with
  | nil =>
    cases h
    intro value hvalue
    cases hvalue
  | append_singleton commands last ih =>
    obtain ⟨before, value, hbefore, hvalue, rfl⟩ := evaluate_concat_eq_ok.1 h
    have htrue : ResultsTrue E before := by
      refine ih (fun id hid => hcited id ?_) hbefore
      exact List.mem_append_left _ hid
    intro v hv hproved
    rcases List.mem_append.mp hv with hv | hv
    · exact htrue v hv hproved
    · rw [List.mem_singleton] at hv
      subst hv
      refine evaluateCommand_models hE (fun id hid => hcited id ?_) htrue hvalue hproved
      rw [hid]
      simp

/-- The commands that only build a formula. -/
def Command.buildsFormula : Command → Bool
  | .definedRelation _ _ => true
  | .equal _ _ => true
  | .member _ _ => true
  | .not _ => true
  | .implies _ _ => true
  | .forAll _ _ => true
  | .substitute _ _ _ => true
  | _ => false

theorem evaluateCommand_built {command : Command} {value : Value Formula}
    (hbuilds : command.buildsFormula = true)
    (h : evaluateCommand source resolver results command = .ok value) : value.proved = false := by
  obtain ⟨plan, hplan, _, _, hflag⟩ := evaluateCommand_eq_ok.1 h
  rw [← hflag]
  cases command with
  | definedRelation id arguments | equal l r | member l r =>
    simp only [prepare, Except.ok.injEq] at hplan
    subst hplan
    rfl
  | not i | forAll v i | substitute a b i =>
    simp only [prepare, bind_eq_ok, pure_eq_ok] at hplan
    obtain ⟨_, _, rfl⟩ := hplan
    rfl
  | implies i j =>
    simp only [prepare, bind_eq_ok, pure_eq_ok] at hplan
    obtain ⟨_, _, _, _, rfl⟩ := hplan
    rfl
  | _ => cases hbuilds

/-- An alias has the formula and the flag of its input. -/
theorem evaluateCommand_alias {input : ℕ} {value : Value Formula}
    (h : evaluateCommand source resolver results (.alias input) = .ok value) :
    results[input]? = some value := by
  obtain ⟨plan, hplan, _, hformula, hflag⟩ := evaluateCommand_eq_ok.1 h
  simp only [prepare, bind_eq_ok, pure_eq_ok, previous_eq_ok] at hplan
  obtain ⟨p, ⟨hp, _⟩, rfl⟩ := hplan
  have hvalue : p = value := by
    obtain ⟨f, proved⟩ := value
    cases hformula
    cases hflag
    rfl
  rw [hp, hvalue]

/-- A seal accepts only a proved formula without free variables. -/
theorem evaluateCommand_seal {proof : ℕ} {value : Value Formula}
    (h : evaluateCommand source resolver results (.seal proof) = .ok value) :
    results[proof]? = some value ∧ value.proved = true ∧ value.formula.isClosed = true := by
  obtain ⟨plan, hplan, _, hformula, hflag⟩ := evaluateCommand_eq_ok.1 h
  simp only [prepare, bind_eq_ok, pure_eq_ok, input_eq_ok, mapError_eq_ok, require_eq_ok,
    exists_and_left, exists_const] at hplan
  obtain ⟨_, ⟨p, hp, hpp, rfl⟩, closed, hclosed, htrue, rfl⟩ := hplan
  have hvalue : p = value := by
    obtain ⟨f, proved⟩ := value
    obtain ⟨g, flag⟩ := p
    cases hformula
    cases hflag
    rw [show flag = true from hpp trivial]
  rw [← hvalue]
  refine ⟨hp, hpp trivial, ?_⟩
  rw [← htrue]
  exact Except.ok.inj hclosed

/-- Soundness of programs: every proved result is true wherever the axioms, the admitted schema
instances and the cited conclusions are; a seal accepts only a proved closed formula; commands
that build formulas prove nothing; an alias keeps its input. -/
theorem evaluate_sound.{u} (source : ProofId → Except DefinitionAccessError (Option Formula))
    (resolver : DefinitionResolver) (commands : List Command) (results : List (Value Formula))
    (h : evaluate source resolver commands = .ok results) :
    results.length = commands.length ∧
    (∀ value ∈ results, value.proved = true → ∀ (M : Type u) (E : M → M → Prop), ZfcModel E →
      (∀ id, .proofReference id ∈ commands → ∀ f, source id = .ok (some f) → f.Models E) →
      value.formula.Models E) ∧
    (∀ i proof : ℕ, commands[i]? = some (.seal proof) → proof < i ∧
      ∃ value : Value Formula, results[i]? = some value ∧ results[proof]? = some value ∧ value.proved = true ∧
        value.formula.isClosed = true ∧ value.formula.node.Scoped 0) ∧
    (∀ (i : ℕ) (command : Command), commands[i]? = some command → command.buildsFormula = true →
      ∃ value : Value Formula, results[i]? = some value ∧ value.proved = false) ∧
    ∀ i input : ℕ, commands[i]? = some (.alias input) → input < i ∧
      ∃ value : Value Formula, results[i]? = some value ∧ results[input]? = some value := by
  obtain ⟨hlength, hresult⟩ := evaluate_result h
  have hearlier : ∀ {i j : ℕ} {value : Value Formula}, (results.take i)[j]? = some value →
      j < i ∧ results[j]? = some value := by
    intro i j value hget
    rw [List.getElem?_take] at hget
    split_ifs at hget with hlt
    exact ⟨hlt, hget⟩
  refine ⟨hlength, ?_, ?_, ?_, ?_⟩
  · intro value hvalue hproved M E hE hcited
    exact resultsTrue_of_evaluate hE hcited h value hvalue hproved
  · intro i proof hi
    obtain ⟨value, hvalue, hstep⟩ := hresult i _ hi
    obtain ⟨hget, hproved, hclosed⟩ := evaluateCommand_seal hstep
    obtain ⟨hlt, hget⟩ := hearlier hget
    exact ⟨hlt, value, hvalue, hget, hproved, hclosed, value.formula.wellScoped⟩
  · intro i command hi hbuilds
    obtain ⟨value, hvalue, hstep⟩ := hresult i _ hi
    exact ⟨value, hvalue, evaluateCommand_built hbuilds hstep⟩
  · intro i input hi
    obtain ⟨value, hvalue, hstep⟩ := hresult i _ hi
    obtain ⟨hlt, hget⟩ := hearlier (evaluateCommand_alias hstep)
    exact ⟨hlt, value, hvalue, hget⟩

/-- A Separation instance whose predicate has a free parameter, closed and sealed. -/
theorem evaluate_sound_separation :
    ∃ results, evaluate (fun _ => .ok none) (fun _ => .ok none)
        [.member 0 3, .separation 0 0 1 2, .generalization 1 3, .seal 2] = .ok results ∧
      ∃ value, results[3]? = some value ∧ value.proved = true ∧
        ∀ (M : Type) (E : M → M → Prop), ZfcModel E → value.formula.Models E := by
  have hrun : evaluate (fun _ => .ok none) (fun _ => .ok none)
      [.member 0 3, .separation 0 0 1 2, .generalization 1 3, .seal 2] = .ok _ := rfl
  obtain ⟨_, hsound, hseal, _⟩ := evaluate_sound.{0} _ _ _ _ hrun
  obtain ⟨_, value, hvalue, _, hproved, _⟩ := hseal 3 2 rfl
  refine ⟨_, hrun, value, hvalue, hproved, fun M E hE => ?_⟩
  refine hsound value (List.mem_of_getElem? hvalue) hproved M E hE ?_
  intro id hid
  simp at hid

end Program
end Naome
