import Naome.FirstOccurrence

/-!
# Locally nameless first-order formulas

Formulas over equality, one binary relation and a supply `D` of further relation
symbols. Bound variables are De Bruijn indices and free variables are names of an
arbitrary type `V`, so binding and renaming free names cannot capture anything.
The semantics reads a formula in a carrier with one binary relation.
-/
namespace Naome.LocallyNameless
open FirstOccurrence

/-- One variable occurrence: the index of an enclosing binder or a free name. -/
inductive Variable (V : Type)
  | bound (index : ℕ)
  | free (name : V)
  deriving DecidableEq, Repr

inductive Node (V D : Type)
  | equal (left right : Variable V)
  | member (element set : Variable V)
  | not (body : Node V D)
  | implies (antecedent consequent : Node V D)
  | forAll (body : Node V D)
  | definedRelation (symbol : D) (arguments : List (Variable V))
  deriving DecidableEq, Repr

variable {V W D : Type}

/-- Occurrences of a bound name become references to its binder. -/
def Variable.bind (f : V → Option ℕ) (depth : ℕ) : Variable V → Variable V
  | .bound i => .bound i
  | .free v =>
    match f v with
    | some i => .bound (i + depth)
    | none => .free v

def Variable.map (g : V → W) : Variable V → Variable W
  | .bound i => .bound i
  | .free v => .free (g v)

/-- Removes one binder: its references become a free name, outer references move in. -/
def Variable.openAt (depth : ℕ) (name : V) : Variable V → Variable V
  | .bound i => if i = depth then .free name else if depth < i then .bound (i - 1) else .bound i
  | .free v => .free v

def Variable.mapState {S : Type} (f : V → S → W × S) : Variable V → S → Variable W × S
  | .bound i, s => (.bound i, s)
  | .free v, s => ((f v s).1 |> .free, (f v s).2)

def Variable.mapStateList {S : Type} (f : V → S → W × S) :
    List (Variable V) → S → List (Variable W) × S
  | [], s => ([], s)
  | x :: xs, s =>
    let (y, s) := x.mapState f s
    let (ys, s) := Variable.mapStateList f xs s
    (y :: ys, s)

def Variable.occurrences : Variable V → List V
  | .bound _ => []
  | .free v => [v]

/-- The index of a bound occurrence has an enclosing binder. -/
def Variable.Scoped (depth : ℕ) : Variable V → Prop
  | .bound i => i < depth
  | .free _ => True

instance (depth : ℕ) (x : Variable V) : Decidable (x.Scoped depth) := by
  cases x <;> unfold Variable.Scoped <;> infer_instance

namespace Node

/-- Replaces every free name with a binding index by a reference counted from `depth`. -/
def bindFree (f : V → Option ℕ) : ℕ → Node V D → Node V D
  | depth, .equal l r => .equal (l.bind f depth) (r.bind f depth)
  | depth, .member l r => .member (l.bind f depth) (r.bind f depth)
  | depth, .not n => .not (n.bindFree f depth)
  | depth, .implies a b => .implies (a.bindFree f depth) (b.bindFree f depth)
  | depth, .forAll n => .forAll (n.bindFree f (depth + 1))
  | depth, .definedRelation s xs => .definedRelation s (xs.map (Variable.bind f depth))

def mapFree (g : V → W) : Node V D → Node W D
  | .equal l r => .equal (l.map g) (r.map g)
  | .member l r => .member (l.map g) (r.map g)
  | .not n => .not (n.mapFree g)
  | .implies a b => .implies (a.mapFree g) (b.mapFree g)
  | .forAll n => .forAll (n.mapFree g)
  | .definedRelation s xs => .definedRelation s (xs.map (Variable.map g))

def openBinder (name : V) : ℕ → Node V D → Node V D
  | depth, .equal l r => .equal (l.openAt depth name) (r.openAt depth name)
  | depth, .member l r => .member (l.openAt depth name) (r.openAt depth name)
  | depth, .not n => .not (n.openBinder name depth)
  | depth, .implies a b => .implies (a.openBinder name depth) (b.openBinder name depth)
  | depth, .forAll n => .forAll (n.openBinder name (depth + 1))
  | depth, .definedRelation s xs => .definedRelation s (xs.map (Variable.openAt depth name))

/-- Free names in prefix order, one entry for each occurrence. -/
def occurrences : Node V D → List V
  | .equal l r => l.occurrences ++ r.occurrences
  | .member l r => l.occurrences ++ r.occurrences
  | .not n => n.occurrences
  | .implies a b => a.occurrences ++ b.occurrences
  | .forAll n => n.occurrences
  | .definedRelation _ xs => xs.flatMap Variable.occurrences

/-- Every bound index below `depth` outer binders refers to an existing binder. -/
def Scoped : ℕ → Node V D → Prop
  | depth, .equal l r => l.Scoped depth ∧ r.Scoped depth
  | depth, .member l r => l.Scoped depth ∧ r.Scoped depth
  | depth, .not n => n.Scoped depth
  | depth, .implies a b => a.Scoped depth ∧ b.Scoped depth
  | depth, .forAll n => n.Scoped (depth + 1)
  | depth, .definedRelation _ xs => ∀ x ∈ xs, x.Scoped depth

instance decidableScoped : (depth : ℕ) → (n : Node V D) → Decidable (n.Scoped depth)
  | depth, .equal l r => inferInstanceAs (Decidable (l.Scoped depth ∧ r.Scoped depth))
  | depth, .member l r => inferInstanceAs (Decidable (l.Scoped depth ∧ r.Scoped depth))
  | depth, .not n => decidableScoped depth n
  | depth, .implies a b =>
    have := decidableScoped depth a
    have := decidableScoped depth b
    inferInstanceAs (Decidable (a.Scoped depth ∧ b.Scoped depth))
  | depth, .forAll n => decidableScoped (depth + 1) n
  | depth, .definedRelation _ xs => inferInstanceAs (Decidable (∀ x ∈ xs, x.Scoped depth))

/-- Relation symbols in prefix order, one entry for each application. -/
def symbols : Node V D → List D
  | .equal _ _ => []
  | .member _ _ => []
  | .not n => n.symbols
  | .implies a b => a.symbols ++ b.symbols
  | .forAll n => n.symbols
  | .definedRelation s _ => [s]

/-- Applications of relation symbols with their arguments, in prefix order. -/
def applications : Node V D → List (D × List (Variable V))
  | .equal _ _ => []
  | .member _ _ => []
  | .not n => n.applications
  | .implies a b => a.applications ++ b.applications
  | .forAll n => n.applications
  | .definedRelation s xs => [(s, xs)]

def nodeCount : Node V D → ℕ
  | .equal _ _ => 1
  | .member _ _ => 1
  | .not n => n.nodeCount + 1
  | .implies a b => a.nodeCount + b.nodeCount + 1
  | .forAll n => n.nodeCount + 1
  | .definedRelation _ _ => 1

def depth : Node V D → ℕ
  | .equal _ _ => 1
  | .member _ _ => 1
  | .not n => n.depth + 1
  | .implies a b => max a.depth b.depth + 1
  | .forAll n => n.depth + 1
  | .definedRelation _ _ => 1

/-- Renames the free names one occurrence after another with a state. -/
def mapFreeState {S : Type} (f : V → S → W × S) : Node V D → S → Node W D × S
  | .equal l r, s =>
    let (l, s) := l.mapState f s
    let (r, s) := r.mapState f s
    (.equal l r, s)
  | .member l r, s =>
    let (l, s) := l.mapState f s
    let (r, s) := r.mapState f s
    (.member l r, s)
  | .not n, s =>
    let (n, s) := n.mapFreeState f s
    (.not n, s)
  | .implies a b, s =>
    let (a, s) := a.mapFreeState f s
    let (b, s) := b.mapFreeState f s
    (.implies a b, s)
  | .forAll n, s =>
    let (n, s) := n.mapFreeState f s
    (.forAll n, s)
  | .definedRelation symbol xs, s =>
    let (xs, s) := Variable.mapStateList f xs s
    (.definedRelation symbol xs, s)

/-- A formula without relation symbols, read in a language that has some. -/
def embed : Node V Empty → Node V D
  | .equal l r => .equal l r
  | .member l r => .member l r
  | .not n => .not n.embed
  | .implies a b => .implies a.embed b.embed
  | .forAll n => .forAll n.embed
  | .definedRelation s _ => s.elim

end Node

attribute [local simp] Node.bindFree Node.mapFree Node.openBinder Node.occurrences Node.Scoped
  Node.symbols Node.applications Node.nodeCount Node.depth Node.mapFreeState Node.embed

theorem Variable.map_id (x : Variable V) : x.map id = x := by
  cases x <;> rfl

theorem Variable.map_map {X : Type} (h : W → X) (g : V → W) (x : Variable V) :
    (x.map g).map h = x.map (h ∘ g) := by
  cases x <;> rfl

theorem Variable.map_congr {g h : V → W} {x : Variable V}
    (hx : ∀ v ∈ x.occurrences, g v = h v) : x.map g = x.map h := by
  cases x with
  | bound i => rfl
  | free v => simp [Variable.map, hx v (by simp [Variable.occurrences])]

theorem Variable.occurrences_map (g : V → W) (x : Variable V) :
    (x.map g).occurrences = x.occurrences.map g := by
  cases x <;> rfl

theorem Variable.scoped_map (g : V → W) (d : ℕ) (x : Variable V) :
    (x.map g).Scoped d ↔ x.Scoped d := by
  cases x <;> rfl

theorem Variable.scoped_mono {d e : ℕ} (hde : d ≤ e) {x : Variable V} (h : x.Scoped d) :
    x.Scoped e := by
  cases x with
  | bound i => exact lt_of_lt_of_le h hde
  | free v => trivial

theorem Variable.scoped_bind {f : V → Option ℕ} {k d : ℕ} (hf : ∀ v i, f v = some i → i < k)
    {x : Variable V} (h : x.Scoped d) : (x.bind f d).Scoped (d + k) := by
  cases x with
  | bound i => exact Nat.lt_add_right k h
  | free v =>
    cases hv : f v with
    | none => simp [Variable.bind, hv, Variable.Scoped]
    | some i =>
      have := hf v i hv
      simp only [Variable.bind, hv, Variable.Scoped]
      omega

theorem Variable.scoped_openAt {d : ℕ} {name : V} {x : Variable V} (h : x.Scoped (d + 1)) :
    (x.openAt d name).Scoped d := by
  cases x with
  | bound i =>
    simp only [Variable.Scoped] at h
    simp only [Variable.openAt]
    split_ifs with h1 h2
    · trivial
    · simp only [Variable.Scoped]; omega
    · simp only [Variable.Scoped]; omega
  | free v => trivial

/-- Renaming commutes with binding when the binding indices are renamed along. -/
theorem Variable.map_bind {f : V → Option ℕ} {f' : W → Option ℕ} {g : V → W}
    (h : ∀ v, f' (g v) = f v) (d : ℕ) (x : Variable V) :
    (x.bind f d).map g = (x.map g).bind f' d := by
  cases x with
  | bound i => rfl
  | free v => simp only [Variable.bind, Variable.map, h]; cases f v <;> rfl

namespace Node

@[simp] theorem mapFree_id (n : Node V D) : n.mapFree id = n := by
  induction n with
  | equal l r => simp [mapFree, Variable.map_id]
  | member l r => simp [mapFree, Variable.map_id]
  | not n ih => simp [mapFree, ih]
  | implies a b iha ihb => simp [mapFree, iha, ihb]
  | forAll n ih => simp [mapFree, ih]
  | definedRelation s xs =>
    rw [mapFree, List.map_congr_left fun x _ => Variable.map_id x, List.map_id']

theorem mapFree_mapFree {X : Type} (h : W → X) (g : V → W) (n : Node V D) :
    (n.mapFree g).mapFree h = n.mapFree (h ∘ g) := by
  induction n with
  | equal l r => simp [mapFree, Variable.map_map]
  | member l r => simp [mapFree, Variable.map_map]
  | not n ih => simp [mapFree, ih]
  | implies a b iha ihb => simp [mapFree, iha, ihb]
  | forAll n ih => simp [mapFree, ih]
  | definedRelation s xs => simp [mapFree, Variable.map_map]

theorem mapFree_congr {g h : V → W} {n : Node V D} (hn : ∀ v ∈ n.occurrences, g v = h v) :
    n.mapFree g = n.mapFree h := by
  induction n with
  | equal l r | member l r =>
    simp only [occurrences, List.mem_append] at hn
    simp only [mapFree, Variable.map_congr fun v hv => hn v (.inl hv),
      Variable.map_congr fun v hv => hn v (.inr hv)]
  | not n ih | forAll n ih => simp only [mapFree, ih hn]
  | implies a b iha ihb =>
    simp only [occurrences, List.mem_append] at hn
    simp only [mapFree, iha fun v hv => hn v (.inl hv), ihb fun v hv => hn v (.inr hv)]
  | definedRelation s xs =>
    simp only [mapFree, definedRelation.injEq, true_and]
    apply List.map_congr_left
    intro x hx
    exact Variable.map_congr fun v hv => hn v (List.mem_flatMap.mpr ⟨x, hx, hv⟩)

@[simp] theorem occurrences_mapFree (g : V → W) (n : Node V D) :
    (n.mapFree g).occurrences = n.occurrences.map g := by
  induction n with
  | equal l r | member l r => simp [mapFree, occurrences, Variable.occurrences_map]
  | not n ih | forAll n ih => simp [mapFree, occurrences, ih]
  | implies a b iha ihb => simp [mapFree, occurrences, iha, ihb]
  | definedRelation s xs =>
    simp [mapFree, occurrences, List.flatMap_map, Variable.occurrences_map, List.map_flatMap]

@[simp] theorem nodeCount_mapFree (g : V → W) (n : Node V D) :
    (n.mapFree g).nodeCount = n.nodeCount := by
  induction n <;> simp_all [mapFree, nodeCount]

@[simp] theorem depth_mapFree (g : V → W) (n : Node V D) : (n.mapFree g).depth = n.depth := by
  induction n <;> simp_all [mapFree, Node.depth]

@[simp] theorem symbols_mapFree (g : V → W) (n : Node V D) :
    (n.mapFree g).symbols = n.symbols := by
  induction n <;> simp_all [mapFree, symbols]

@[simp] theorem nodeCount_bindFree (f : V → Option ℕ) (d : ℕ) (n : Node V D) :
    (n.bindFree f d).nodeCount = n.nodeCount := by
  induction n generalizing d <;> simp_all [bindFree, nodeCount]

@[simp] theorem depth_bindFree (f : V → Option ℕ) (d : ℕ) (n : Node V D) :
    (n.bindFree f d).depth = n.depth := by
  induction n generalizing d <;> simp_all [bindFree, Node.depth]

theorem nodeCount_pos (n : Node V D) : 0 < n.nodeCount := by
  cases n <;> simp [nodeCount]

theorem depth_pos (n : Node V D) : 0 < n.depth := by
  cases n <;> simp [Node.depth]

@[simp] theorem scoped_mapFree (g : V → W) (d : ℕ) (n : Node V D) :
    (n.mapFree g).Scoped d ↔ n.Scoped d := by
  induction n generalizing d with
  | equal l r | member l r => simp [mapFree, Scoped, Variable.scoped_map]
  | not n ih | forAll n ih => simp [mapFree, Scoped, ih]
  | implies a b iha ihb => simp [mapFree, Scoped, iha, ihb]
  | definedRelation s xs => simp [mapFree, Scoped, Variable.scoped_map]

theorem scoped_mono {d e : ℕ} (hde : d ≤ e) {n : Node V D} (h : n.Scoped d) : n.Scoped e := by
  induction n generalizing d e with
  | equal l r | member l r =>
    exact ⟨Variable.scoped_mono hde h.1, Variable.scoped_mono hde h.2⟩
  | not n ih => exact ih hde h
  | implies a b iha ihb => exact ⟨iha hde h.1, ihb hde h.2⟩
  | forAll n ih => exact ih (Nat.succ_le_succ hde) h
  | definedRelation s xs => exact fun x hx => Variable.scoped_mono hde (h x hx)

/-- Binding names to `k` indices needs `k` more binders around the formula. -/
theorem scoped_bindFree {f : V → Option ℕ} {k : ℕ} (hf : ∀ v i, f v = some i → i < k)
    {d : ℕ} {n : Node V D} (h : n.Scoped d) : (n.bindFree f d).Scoped (d + k) := by
  induction n generalizing d with
  | equal l r | member l r => exact ⟨Variable.scoped_bind hf h.1, Variable.scoped_bind hf h.2⟩
  | not n ih => exact ih h
  | implies a b iha ihb => exact ⟨iha h.1, ihb h.2⟩
  | forAll n ih =>
    have := ih (d := d + 1) h
    rwa [Nat.add_right_comm] at this
  | definedRelation s xs =>
    intro x hx
    obtain ⟨y, hy, rfl⟩ := List.mem_map.mp hx
    exact Variable.scoped_bind hf (h y hy)

theorem scoped_openBinder {name : V} {d : ℕ} {n : Node V D} (h : n.Scoped (d + 1)) :
    (n.openBinder name d).Scoped d := by
  induction n generalizing d with
  | equal l r | member l r => exact ⟨Variable.scoped_openAt h.1, Variable.scoped_openAt h.2⟩
  | not n ih => exact ih h
  | implies a b iha ihb => exact ⟨iha h.1, ihb h.2⟩
  | forAll n ih => exact ih h
  | definedRelation s xs =>
    intro x hx
    obtain ⟨y, hy, rfl⟩ := List.mem_map.mp hx
    exact Variable.scoped_openAt (h y hy)

theorem mapFree_bindFree {f : V → Option ℕ} {f' : W → Option ℕ} {g : V → W}
    (h : ∀ v, f' (g v) = f v) (d : ℕ) (n : Node V D) :
    (n.bindFree f d).mapFree g = (n.mapFree g).bindFree f' d := by
  induction n generalizing d with
  | equal l r | member l r => simp [bindFree, mapFree, Variable.map_bind h]
  | not n ih | forAll n ih => simp [bindFree, mapFree, ih]
  | implies a b iha ihb => simp [bindFree, mapFree, iha, ihb]
  | definedRelation s xs => simp [bindFree, mapFree, Variable.map_bind h]

theorem exists_embed {n : Node V D} (h : n.symbols = []) : ∃ m : Node V Empty, m.embed = n := by
  induction n with
  | equal l r => exact ⟨.equal l r, rfl⟩
  | member l r => exact ⟨.member l r, rfl⟩
  | not n ih =>
    obtain ⟨m, rfl⟩ := ih h
    exact ⟨.not m, rfl⟩
  | implies a b iha ihb =>
    simp only [symbols, List.append_eq_nil_iff] at h
    obtain ⟨m, rfl⟩ := iha h.1
    obtain ⟨k, rfl⟩ := ihb h.2
    exact ⟨.implies m k, rfl⟩
  | forAll n ih =>
    obtain ⟨m, rfl⟩ := ih h
    exact ⟨.forAll m, rfl⟩
  | definedRelation s xs => simp [symbols] at h

theorem embed_injective : Function.Injective (embed : Node V Empty → Node V D) := by
  intro n m h
  induction n generalizing m with
  | equal l r | member l r =>
    cases m with
    | definedRelation s => exact s.elim
    | _ => simp_all [embed]
  | not n ih =>
    cases m with
    | definedRelation s => exact s.elim
    | not m => rw [ih (not.inj h)]
    | _ => simp [embed] at h
  | forAll n ih =>
    cases m with
    | definedRelation s => exact s.elim
    | forAll m => rw [ih (forAll.inj h)]
    | _ => simp [embed] at h
  | implies a b iha ihb =>
    cases m with
    | definedRelation s => exact s.elim
    | implies c d =>
      simp only [embed, implies.injEq] at h
      rw [iha h.1, ihb h.2]
    | _ => simp [embed] at h
  | definedRelation s => exact s.elim

@[simp] theorem nodeCount_embed (n : Node V Empty) :
    (n.embed : Node V D).nodeCount = n.nodeCount := by
  induction n with
  | definedRelation s => exact s.elim
  | _ => simp_all [embed, nodeCount]

@[simp] theorem depth_embed (n : Node V Empty) : (n.embed : Node V D).depth = n.depth := by
  induction n with
  | definedRelation s => exact s.elim
  | _ => simp_all [embed, Node.depth]

@[simp] theorem symbols_embed (n : Node V Empty) : (n.embed : Node V D).symbols = [] := by
  induction n with
  | definedRelation s => exact s.elim
  | _ => simp_all [embed, symbols]

@[simp] theorem occurrences_embed (n : Node V Empty) :
    (n.embed : Node V D).occurrences = n.occurrences := by
  induction n with
  | definedRelation s => exact s.elim
  | _ => simp_all [embed, occurrences]

@[simp] theorem scoped_embed (d : ℕ) (n : Node V Empty) :
    (n.embed : Node V D).Scoped d ↔ n.Scoped d := by
  induction n generalizing d with
  | definedRelation s => exact s.elim
  | _ => simp_all [embed, Scoped]

theorem mapFree_embed (g : V → W) (n : Node V Empty) :
    (n.embed : Node V D).mapFree g = (n.mapFree g).embed := by
  induction n with
  | definedRelation s => exact s.elim
  | _ => simp_all [embed, mapFree]

theorem bindFree_embed (f : V → Option ℕ) (d : ℕ) (n : Node V Empty) :
    (n.embed : Node V D).bindFree f d = (n.bindFree f d).embed := by
  induction n generalizing d with
  | definedRelation s => exact s.elim
  | _ => simp_all [embed, bindFree]

/-- Names that are not bound stay free, bound ones disappear. -/
theorem mem_occurrences_bindFree {f : V → Option ℕ} {d : ℕ} {n : Node V D} {v : V} :
    v ∈ (n.bindFree f d).occurrences ↔ v ∈ n.occurrences ∧ f v = none := by
  have hx : ∀ (d : ℕ) (x : Variable V),
      v ∈ (x.bind f d).occurrences ↔ v ∈ x.occurrences ∧ f v = none := by
    intro d x
    cases x with
    | bound i => simp [Variable.bind, Variable.occurrences]
    | free w =>
      cases hw : f w with
      | none =>
        simp only [Variable.bind, hw, Variable.occurrences, List.mem_singleton]
        constructor
        · rintro rfl
          exact ⟨rfl, hw⟩
        · exact fun h => h.1
      | some i =>
        simp only [Variable.bind, hw, Variable.occurrences, List.mem_singleton, List.not_mem_nil,
          false_iff, not_and]
        rintro rfl
        simp [hw]
  induction n generalizing d with
  | equal l r | member l r => simp only [bindFree, occurrences, List.mem_append, hx]; tauto
  | not n ih | forAll n ih => simp only [bindFree, occurrences, ih]
  | implies a b iha ihb => simp only [bindFree, occurrences, List.mem_append, iha, ihb]; tauto
  | definedRelation s xs =>
    simp only [bindFree, occurrences, List.mem_flatMap, List.mem_map, exists_exists_and_eq_and, hx]
    tauto

theorem scoped_mapFreeState {S : Type} (f : V → S → W × S) (d : ℕ) (n : Node V D) (s : S) :
    (n.mapFreeState f s).1.Scoped d ↔ n.Scoped d := by
  induction n generalizing d s with
  | equal l r | member l r =>
    cases l <;> cases r <;> simp [mapFreeState, Scoped, Variable.mapState, Variable.Scoped]
  | not n ih | forAll n ih => simp [mapFreeState, Scoped, ih]
  | implies a b iha ihb => simp [mapFreeState, Scoped, iha, ihb]
  | definedRelation symbol xs =>
    simp only [mapFreeState, Scoped]
    induction xs generalizing s with
    | nil => simp [Variable.mapStateList]
    | cons x xs ih =>
      have hx : ∀ s, (x.mapState f s).1.Scoped d ↔ x.Scoped d := by
        intro s
        cases x <;> rfl
      simp only [Variable.mapStateList, List.forall_mem_cons, hx, ih]

theorem symbols_mapFreeState {S : Type} (f : V → S → W × S) (n : Node V D) (s : S) :
    (n.mapFreeState f s).1.symbols = n.symbols := by
  induction n generalizing s <;> simp_all [mapFreeState, symbols]

end Node

/-- A stateful renaming that numbers names by first occurrence: `I seen s` says that the
state `s` has met exactly the names `seen`, and `name seen v` is the name given to `v`. -/
structure Numbers {S : Type} [DecidableEq V] (f : V → S → W × S) (name : List V → V → W)
    (I : List V → S → Prop) : Prop where
  step : ∀ seen s v, I seen s → I (see seen v) (f v s).2 ∧ (f v s).1 = name (see seen v) v
  stable : ∀ seen later v, seen <+: later → v ∈ seen → name later v = name seen v

namespace Numbers

variable {S : Type} [DecidableEq V] {f : V → S → W × S} {name : List V → V → W}
  {I : List V → S → Prop} {seen later : List V} {s : S}

theorem mapState (hf : Numbers f name I) (x : Variable V) (hs : I seen s)
    (hl : seeAll seen x.occurrences <+: later) :
    x.mapState f s = (x.map (name later), (x.mapState f s).2) ∧
      I (seeAll seen x.occurrences) (x.mapState f s).2 := by
  cases x with
  | bound i => exact ⟨rfl, hs⟩
  | free v =>
    obtain ⟨hi, hv⟩ := hf.step seen s v hs
    have hname : name later v = (f v s).1 := by
      rw [hv]
      exact hf.stable (see seen v) later v hl (mem_see.2 (.inr rfl))
    refine ⟨?_, hi⟩
    rw [Variable.map, hname]
    rfl

theorem mapStateList (hf : Numbers f name I) (xs : List (Variable V)) (hs : I seen s)
    (hl : seeAll seen (xs.flatMap Variable.occurrences) <+: later) :
    Variable.mapStateList f xs s =
        (xs.map (Variable.map (name later)), (Variable.mapStateList f xs s).2) ∧
      I (seeAll seen (xs.flatMap Variable.occurrences)) (Variable.mapStateList f xs s).2 := by
  induction xs generalizing seen s with
  | nil => exact ⟨rfl, hs⟩
  | cons x xs ih =>
    rw [List.flatMap_cons, seeAll_append] at hl ⊢
    obtain ⟨hx, hi⟩ := hf.mapState x hs ((isPrefix_seeAll _ _).trans hl)
    obtain ⟨hxs, hi⟩ := ih hi hl
    refine ⟨?_, hi⟩
    simp only [Variable.mapStateList, List.map_cons]
    rw [hxs, hx]

theorem mapFreeState (hf : Numbers f name I) (n : Node V D) (hs : I seen s)
    (hl : seeAll seen n.occurrences <+: later) :
    n.mapFreeState f s = (n.mapFree (name later), (n.mapFreeState f s).2) ∧
      I (seeAll seen n.occurrences) (n.mapFreeState f s).2 := by
  induction n generalizing seen s with
  | equal l r | member l r =>
    rw [Node.occurrences, seeAll_append] at hl ⊢
    obtain ⟨hx, hi⟩ := hf.mapState l hs ((isPrefix_seeAll _ _).trans hl)
    obtain ⟨hy, hi⟩ := hf.mapState r hi hl
    refine ⟨?_, hi⟩
    simp only [Node.mapFreeState, Node.mapFree]
    rw [hy, hx]
  | not n ih | forAll n ih =>
    obtain ⟨hn, hi⟩ := ih hs hl
    refine ⟨?_, hi⟩
    simp only [Node.mapFreeState, Node.mapFree]
    rw [hn]
  | implies a b iha ihb =>
    rw [Node.occurrences, seeAll_append] at hl ⊢
    obtain ⟨hx, hi⟩ := iha hs ((isPrefix_seeAll _ _).trans hl)
    obtain ⟨hy, hi⟩ := ihb hi hl
    refine ⟨?_, hi⟩
    simp only [Node.mapFreeState, Node.mapFree]
    rw [hy, hx]
  | definedRelation symbol xs =>
    obtain ⟨hx, hi⟩ := hf.mapStateList xs hs hl
    refine ⟨?_, hi⟩
    simp only [Node.mapFreeState, Node.mapFree]
    rw [hx]

end Numbers
end Naome.LocallyNameless
