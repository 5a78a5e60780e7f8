import Naome.DiskArtifactState
import Naome.MapContents

/-!
# What a context on disk holds

The records behind the ten roots of a context, what its accesses return, and the rules by
which registration programs are followed through every failure of the storage.
-/
namespace Naome
open LocallyNameless Outcome ByteCursor StorageM DiskMap

namespace DiskArtifact

theorem decodeStatementRecord_encode {address : Digest} {length : ℕ}
    (h : length ≤ checkerMaxFormulaWorkBytes) :
    decodeStatementRecord (encodeStatementRecord address length) = .ok (address, length) := by
  have hsize : (encodeStatementRecord address length).length = 40 := by simp [encodeStatementRecord]
  have haddress : (encodeStatementRecord address length).take 32 = digestBytes address := by
    simp [encodeStatementRecord]
  have hlength : ofBigEndian ((encodeStatementRecord address length).drop 32) = length := by
    have hdrop : (encodeStatementRecord address length).drop 32 = bigEndian 8 length := by
      simp [encodeStatementRecord]
    rw [hdrop, ofBigEndian_bigEndian]
    refine Nat.mod_eq_of_lt (h.trans_lt ?_)
    decide
  simp only [decodeStatementRecord, hsize, hlength, haddress, fixedKey_digestBytes, require,
    if_true, if_pos h, ok_bind]
  rfl

theorem proofRecord_encode {derivation : DerivationId} {depth : ℕ} (hpos : depth ≠ 0)
    (hlt : depth < 2 ^ 64) : proofRecord (encodeProofRecord derivation depth) = .ok (derivation, depth) := by
  have hsize : (encodeProofRecord derivation depth).length = 40 := by simp [encodeProofRecord]
  have hderivation : (encodeProofRecord derivation depth).take 32 = digestBytes derivation := by
    simp [encodeProofRecord]
  have hdepth : ofBigEndian ((encodeProofRecord derivation depth).drop 32) = depth := by
    have hdrop : (encodeProofRecord derivation depth).drop 32 = bigEndian 8 depth := by
      simp [encodeProofRecord]
    rw [hdrop, ofBigEndian_bigEndian]
    exact Nat.mod_eq_of_lt (by omega)
  simp only [proofRecord, hsize, hdepth, hderivation, fixedKey_digestBytes, require, if_true,
    if_pos hpos, ok_bind]
  rfl

theorem definitionRecord_encode {address : Digest} {length : ℕ} (hpos : length ≠ 0)
    (hdefinition : length ≤ definitionMaxBytes) (hwork : length ≤ checkerMaxFormulaWorkBytes) :
    definitionRecord (encodeStatementRecord address length) = .ok (address, length) := by
  simp only [definitionRecord, decodeStatementRecord_encode hwork, ok_bind, require,
    if_pos (And.intro hpos (And.intro hdefinition hwork))]
  rfl

theorem decodeRoot_encodeRoot (root : Root) : decodeRoot (some (encodeRoot (some root))) = .ok (some root) := by
  obtain ⟨address, fingerprint⟩ := root
  have hsize : (encodeRoot (some ⟨address, fingerprint⟩)).length = 65 := by simp [encodeRoot]
  have hne : encodeRoot (some ⟨address, fingerprint⟩) ≠ [0] := by
    intro h
    rw [h] at hsize
    cases hsize
  have haddress : ((encodeRoot (some ⟨address, fingerprint⟩)).drop 1).take 32 =
      digestBytes address := by
    simp [encodeRoot]
  have hfingerprint : (encodeRoot (some ⟨address, fingerprint⟩)).drop 33 =
      digestBytes fingerprint := by
    simp [encodeRoot]
  simp only [decodeRoot, if_neg hne, hsize, haddress, hfingerprint, fixedKey_digestBytes, ok_bind]
  rfl

theorem length_encodeRoot_le (root : Option Root) : (encodeRoot root).length ≤ maxValueBytes := by
  cases root with
  | none => decide
  | some root => simp [encodeRoot, maxValueBytes]

end DiskArtifact

open DiskArtifact

/-- The records of the flat maps and the members of the buckets. -/
structure Contents where
  record : MapKind → Digest → Option (List UInt8)
  member : BucketKind → StatementId → StatementId → Bool

/-- The values of a bucket: every member has an empty one. -/
def bucketRecords (member : StatementId → Bool) (statement : StatementId) : Option (List UInt8) :=
  if member statement = true then some [] else none

/-- An index whose records are the roots of nonempty buckets. -/
def HoldsBuckets (sha256 : List UInt8 → Digest) (log : WriteLog) (index : DiskMap)
    (member : StatementId → StatementId → Bool) : Prop :=
  ∃ roots : StatementId → Option Root,
    Represents sha256 log index (fun target => (roots target).map fun root => encodeRoot (some root)) ∧
      ∀ target, Represents sha256 log ⟨roots target⟩ (bucketRecords (member target))

theorem DiskArtifactState.setMap_map (s : DiskArtifactState) (kind : MapKind) :
    s.setMap kind (s.map kind) = s := by
  unfold DiskArtifactState.setMap
  rw [Function.update_eq_self]

def MapKind.Flat (kind : MapKind) : Prop := ∀ b, kind ≠ .ofBucket b

/-- The context holds these contents. -/
structure Denotes (sha256 : List UInt8 → Digest) (log : WriteLog) (s : DiskArtifactState)
    (c : Contents) : Prop where
  flat : ∀ kind, kind.Flat → Represents sha256 log (s.map kind) (c.record kind)
  bucket : ∀ kind, HoldsBuckets sha256 log (s.map (.ofBucket kind)) (c.member kind)

namespace Contents

def empty : Contents := ⟨fun _ _ => none, fun _ _ _ => false⟩

/-- The contents after a write to a flat map. -/
def write (c : Contents) (kind : MapKind) (key : Digest) (value : List UInt8) (replace : Bool) :
    Contents :=
  { c with record := Function.update c.record kind (assign (c.record kind) key value replace) }

/-- The contents with one more member of a bucket. -/
def add (c : Contents) (kind : BucketKind) (target statement : StatementId) : Contents :=
  { c with member := fun k t st => (k = kind ∧ t = target ∧ st = statement) || c.member k t st }

end Contents

theorem MapKind.ofBucket_injective : Function.Injective MapKind.ofBucket := by
  intro a b h
  cases a <;> cases b <;> first | rfl | cases h

theorem MapKind.flat_iff {kind : MapKind} :
    kind.Flat ↔ kind ≠ .outgoing ∧ kind ≠ .deductions ∧ kind ≠ .instances := by
  constructor
  · exact fun h => ⟨h .outgoing, h .deductions, h .instances⟩
  · rintro ⟨houtgoing, hdeductions, hinstances⟩ b
    cases b with
    | outgoing => exact houtgoing
    | deductions => exact hdeductions
    | instances => exact hinstances

instance : DecidablePred MapKind.Flat := fun _ => decidable_of_iff _ MapKind.flat_iff.symm

theorem MapKind.flat_or (kind : MapKind) : kind.Flat ∨ ∃ b, kind = .ofBucket b := by
  by_cases h : ∃ b, kind = .ofBucket b
  · exact Or.inr h
  · exact Or.inl fun b hb => h ⟨b, hb⟩

variable {sha256 : List UInt8 → Digest} {log log' : WriteLog} {s s' : DiskArtifactState}
  {c : Contents}

theorem HoldsBuckets.mono {index : DiskMap} {member : StatementId → StatementId → Bool}
    (h : HoldsBuckets sha256 log index member) (hlog : log ⊆ log') :
    HoldsBuckets sha256 log' index member := by
  obtain ⟨roots, hindex, hbuckets⟩ := h
  exact ⟨roots, hindex.mono hlog, fun target => (hbuckets target).mono hlog⟩

theorem Denotes.mono (h : Denotes sha256 log s c) (hlog : log ⊆ log') :
    Denotes sha256 log' s c where
  flat kind hkind := (h.flat kind hkind).mono hlog
  bucket kind := (h.bucket kind).mono hlog

theorem denotes_new (log : WriteLog) : Denotes sha256 log .new .empty where
  flat _ _ := represents_empty log
  bucket _ := ⟨fun _ => none, represents_empty log, fun _ => represents_empty log⟩

theorem HoldsBuckets.eq {index index' : DiskMap} {member : StatementId → StatementId → Bool}
    (h : HoldsBuckets sha256 log index member) (h' : HoldsBuckets sha256 log' index' member) :
    index = index' := by
  obtain ⟨roots, hindex, hbuckets⟩ := h
  obtain ⟨roots', hindex', hbuckets'⟩ := h'
  have hroots : roots = roots' := by
    funext target
    exact congrArg DiskMap.root ((hbuckets target).eq (hbuckets' target))
  subst hroots
  exact hindex.eq hindex'

/-- The contents determine the ten roots. -/
theorem Denotes.eq (h : Denotes sha256 log s c) (h' : Denotes sha256 log' s' c) : s = s' := by
  cases s with
  | mk map =>
    cases s' with
    | mk map' =>
      congr 1
      funext kind
      rcases kind.flat_or with hkind | ⟨b, rfl⟩
      · exact (h.flat kind hkind).eq (h'.flat kind hkind)
      · exact (h.bucket b).eq (h'.bucket b)

/-- A write to one flat map leaves the others as they are. -/
theorem Denotes.write (h : Denotes sha256 log s c) (hlog : log ⊆ log') {kind : MapKind}
    (hkind : kind.Flat) {m : DiskMap} {key : Digest} {value : List UInt8} {replace : Bool}
    (hm : Represents sha256 log' m (assign (c.record kind) key value replace)) :
    Denotes sha256 log' (s.setMap kind m) (c.write kind key value replace) where
  flat kind' hkind' := by
    unfold DiskArtifactState.setMap Contents.write
    by_cases heq : kind' = kind
    · subst heq
      simp only [Function.update_self]
      exact hm
    · simp only [Function.update_of_ne heq]
      exact (h.flat kind' hkind').mono hlog
  bucket b := by
    unfold DiskArtifactState.setMap Contents.write
    simp only [Function.update_of_ne (hkind b).symm]
    exact (h.bucket b).mono hlog

theorem bucketRecords_assign (member : StatementId → Bool) (statement : StatementId) :
    assign (bucketRecords member) statement [] false =
      bucketRecords fun st => st = statement || member st := by
  funext st
  unfold assign bucketRecords
  by_cases hmember : member statement = true
  · simp only [hmember, if_true, Option.isSome_some, and_self]
    by_cases hst : st = statement
    · simp [hst, hmember]
    · simp [hst]
  · simp only [hmember, Bool.false_eq_true, if_false, Option.isSome_none, and_false]
    by_cases hst : st = statement
    · subst hst
      simp
    · simp [hst]

/-- A new root of one bucket leaves the other buckets as they are. -/
theorem Denotes.addMember (h : Denotes sha256 log s c) (hlog : log ⊆ log') {kind : BucketKind}
    {target statement : StatementId} {roots : StatementId → Option Root}
    (hbuckets : ∀ t, Represents sha256 log ⟨roots t⟩ (bucketRecords (c.member kind t)))
    {root : Root} {m : DiskMap}
    (hroot : Represents sha256 log' ⟨some root⟩
      (assign (bucketRecords (c.member kind target)) statement [] false))
    (hm : Represents sha256 log' m
      (assign (fun t => (roots t).map fun r => encodeRoot (some r)) target (encodeRoot (some root)) true)) :
    Denotes sha256 log' (s.setMap (.ofBucket kind) m) (c.add kind target statement) where
  flat kind' hkind' := by
    unfold DiskArtifactState.setMap
    simp only [Function.update_of_ne (hkind' kind)]
    exact (h.flat kind' hkind').mono hlog
  bucket b := by
    unfold DiskArtifactState.setMap
    by_cases hb : b = kind
    · subst hb
      simp only [Function.update_self]
      refine ⟨Function.update roots target (some root), ?_, ?_⟩
      · convert hm using 1
        funext t
        by_cases ht : t = target
        · subst ht
          simp [assign]
        · simp [assign, ht]
      · intro t
        by_cases ht : t = target
        · subst ht
          rw [Function.update_self]
          rw [bucketRecords_assign] at hroot
          convert hroot using 2
          simp [Contents.add]
        · rw [Function.update_of_ne ht]
          convert (hbuckets t).mono hlog using 2
          simp [Contents.add, ht]
    · simp only [Function.update_of_ne fun he => hb (MapKind.ofBucket_injective he)]
      convert (h.bucket b).mono hlog using 1
      funext t st
      simp [Contents.add, hb]

section Rules

variable {σ α β : Type} {S : ContextStorage σ} {address : List UInt8 → Digest}
  {I : World σ → Prop} {Safe : WriteLog → Prop} {w : World σ}

/-- A registration ends as `Q` says, or with a failure of the storage in a state where `E`
holds. -/
def Updates (S : ContextStorage σ) (I : World σ → Prop) (Safe : WriteLog → Prop) (p : UpdateM α)
    (s : DiskArtifactState) (w : World σ)
    (Q : Except (Stop ArtifactStateError) α → DiskArtifactState → World σ → Prop)
    (E : DiskArtifactState → World σ → Prop) : Prop :=
  Ensures S I Safe (p s) w fun r w' => Q r.1 r.2 w' ∨
    (∃ e, r.1 = .error (.error (.context e))) ∧ E r.2 w' ∧ ¬ Reliable S I Safe

theorem UpdateM.bind_apply (p : UpdateM α) (f : α → UpdateM β) (s : DiskArtifactState) :
    (p >>= f) s = (p s >>= fun r => match r with
      | (.ok a, s') => f a s'
      | (.error stop, s') => pure (.error stop, s')) := by
  change StorageM.bind _ _ = StorageM.bind _ _
  congr 1
  funext r
  rcases r with ⟨r, s'⟩
  cases r with
  | ok a => rfl
  | error stop => rfl

namespace Updates

variable {Q : Except (Stop ArtifactStateError) α → DiskArtifactState → World σ → Prop}
  {R : Except (Stop ArtifactStateError) β → DiskArtifactState → World σ → Prop}
  {E E' : DiskArtifactState → World σ → Prop}

theorem outcome {r : Except (Stop ArtifactStateError) α} (h : Q r s w) :
    Updates S I Safe (UpdateM.outcome r) s w Q E := Ensures.pure (Or.inl h)

theorem pure {a : α} (h : Q (.ok a) s w) : Updates S I Safe (Pure.pure a) s w Q E :=
  Ensures.pure (Or.inl h)

theorem mono {p : UpdateM α} {Q' : Except (Stop ArtifactStateError) α → DiskArtifactState →
    World σ → Prop} (h : Updates S I Safe p s w Q E)
    (hQ : ∀ r s' w', w.written ⊆ w'.written → Q r s' w' → Q' r s' w')
    (hE : ∀ s' w', w.written ⊆ w'.written → E s' w' → E' s' w') : Updates S I Safe p s w Q' E' := by
  intro hsafe
  have hgrow := written_subset_run S (p s) w
  rcases h hsafe with ⟨v, hv, hr | ⟨he, hstate, hfault⟩⟩ | herror
  · exact Or.inl ⟨v, hv, Or.inl (hQ _ _ _ hgrow hr)⟩
  · exact Or.inl ⟨v, hv, Or.inr ⟨he, hE _ _ hgrow hstate, hfault⟩⟩
  · exact Or.inr herror

/-- Sequencing: the second part starts where the first one ended. -/
theorem bind (hA : Authentic S address I Safe) (hw : I w) {p : UpdateM α} {f : α → UpdateM β}
    (hp : Updates S I Safe p s w Q E)
    (hok : ∀ a s' w', I w' → w.written ⊆ w'.written → Q (.ok a) s' w' →
      Updates S I Safe (f a) s' w' R E')
    (herror : ∀ stop s' w', w.written ⊆ w'.written → Q (.error stop) s' w' → R (.error stop) s' w')
    (hE : ∀ s' w', w.written ⊆ w'.written → E s' w' → E' s' w') :
    Updates S I Safe (p >>= f) s w R E' := by
  unfold Updates
  rw [UpdateM.bind_apply]
  apply Ensures.bind hA hw hp
  intro r w' hw' hgrow hr
  obtain ⟨r, s'⟩ := r
  rcases hr with hr | ⟨⟨e, he⟩, hstate, hfault⟩
  · cases r with
    | ok a => exact hok a s' w' hw' hgrow hr
    | error stop => exact Ensures.pure (Or.inl (herror stop s' w' hgrow hr))
  · simp only at he hstate
    subst he
    exact Ensures.pure (Or.inr ⟨⟨e, rfl⟩, hE s' w' hgrow hstate, hfault⟩)

end Updates

theorem UpdateM.access_ok_bind (a : α) (f : α → UpdateM β) :
    (UpdateM.access (lift (.ok a)) >>= f) = f a := rfl

theorem UpdateM.check_bind {p : Prop} [Decidable p] (h : p) (e : ArtifactStateError)
    (f : Unit → UpdateM β) : (UpdateM.check p e >>= f) = f () := by
  rw [UpdateM.check, require, if_pos h]
  rfl

theorem UpdateM.access_error_bind (e : ContextError) (f : α → UpdateM β) :
    (UpdateM.access (lift (.error e)) >>= f) = UpdateM.refuse (.error (.context e)) := rfl

/-- A registration that only a failure of the storage can stop. -/
def Succeeds (S : ContextStorage σ) (I : World σ → Prop) (Safe : WriteLog → Prop) (p : UpdateM α)
    (s : DiskArtifactState) (w : World σ) (P : α → DiskArtifactState → World σ → Prop)
    (E : DiskArtifactState → World σ → Prop) : Prop :=
  Updates S I Safe p s w (fun r s' w' => ∃ a, r = .ok a ∧ P a s' w') E

namespace Succeeds

variable {P P' : α → DiskArtifactState → World σ → Prop} {R : β → DiskArtifactState → World σ → Prop}
  {E E' : DiskArtifactState → World σ → Prop}

theorem pure {a : α} (h : P a s w) : Succeeds S I Safe (Pure.pure a) s w P E :=
  Updates.pure ⟨a, rfl, h⟩

theorem fault {e : ContextError} (h : E s w) (hfault : ¬ Reliable S I Safe) :
    Succeeds S I Safe (UpdateM.refuse (.error (.context e)) : UpdateM α) s w P E := by
  unfold Succeeds Updates UpdateM.refuse UpdateM.outcome
  exact Ensures.pure (Or.inr ⟨⟨e, rfl⟩, h, hfault⟩)

theorem mono {p : UpdateM α} (h : Succeeds S I Safe p s w P E)
    (hP : ∀ a s' w', w.written ⊆ w'.written → P a s' w' → P' a s' w')
    (hE : ∀ s' w', w.written ⊆ w'.written → E s' w' → E' s' w') :
    Succeeds S I Safe p s w P' E' := by
  apply Updates.mono h ?_ hE
  intro r s' w' hgrow hr
  obtain ⟨a, ha, hp⟩ := hr
  exact ⟨a, ha, hP a s' w' hgrow hp⟩

theorem bind (hA : Authentic S address I Safe) (hw : I w) {p : UpdateM α} {f : α → UpdateM β}
    (hp : Succeeds S I Safe p s w P E)
    (hf : ∀ a s' w', I w' → w.written ⊆ w'.written → P a s' w' →
      Succeeds S I Safe (f a) s' w' R E')
    (hE : ∀ s' w', w.written ⊆ w'.written → E s' w' → E' s' w') :
    Succeeds S I Safe (p >>= f) s w R E' := by
  apply Updates.bind hA hw hp
  · intro a s' w' hw' hgrow hr
    obtain ⟨_, ⟨rfl⟩, ha⟩ := hr
    exact hf a s' w' hw' hgrow ha
  · intro stop s' w' _ hr
    obtain ⟨_, ⟨⟩, _⟩ := hr
  · exact hE

theorem reading {p : DiskArtifactState → StorageM α} {T : α → World σ → Prop}
    (hp : Ensures S I Safe (p s) w T) :
    Succeeds S I Safe (UpdateM.reading p) s w (fun a s' w' => s' = s ∧ T a w') fun s' _ => s' = s := by
  unfold Succeeds Updates UpdateM.reading
  intro hsafe
  rw [run_bind, run_attempt] at hsafe ⊢
  rcases hp hsafe with ⟨v, hv, hT⟩ | ⟨⟨e, he⟩, hfault⟩
  · rw [hv]
    exact Or.inl ⟨_, rfl, Or.inl ⟨v, rfl, rfl, hT⟩⟩
  · rw [he]
    exact Or.inl ⟨_, rfl, Or.inr ⟨⟨e, rfl⟩, rfl, hfault⟩⟩

end Succeeds

/-- A program that changes nothing and has the outcome `x` in every world with these records. -/
def Answers (S : ContextStorage σ) (I : World σ → Prop) (Safe : WriteLog → Prop) (log : WriteLog)
    (p : UpdateM α) (s : DiskArtifactState) (x : Except (Stop ArtifactStateError) α) : Prop :=
  ∀ w, I w → log ⊆ w.written →
    Updates S I Safe p s w (fun r s' _ => r = x ∧ s' = s) fun s' _ => s' = s

namespace Answers

theorem outcome (x : Except (Stop ArtifactStateError) α) :
    Answers S I Safe log (UpdateM.outcome x) s x := fun _ _ _ => Updates.outcome ⟨rfl, rfl⟩

theorem pure (a : α) : Answers S I Safe log (Pure.pure a : UpdateM α) s (.ok a) :=
  fun _ _ _ => Updates.pure ⟨rfl, rfl⟩

theorem reading {p : DiskArtifactState → StorageM α} {x : Except ContextError α}
    (hp : Gives S I Safe log (p s) x) :
    Answers S I Safe log (UpdateM.reading p) s (Registration.access x) := by
  intro w hw hsub hsafe
  unfold UpdateM.reading at hsafe ⊢
  rw [run_bind, run_attempt] at hsafe ⊢
  refine Or.inl ⟨_, rfl, ?_⟩
  rcases hp w hw hsub hsafe with hx | ⟨⟨e, he⟩, hfault⟩
  · refine Or.inl ⟨?_, rfl⟩
    rw [hx]
    rfl
  · refine Or.inr ⟨⟨e, ?_⟩, rfl, hfault⟩
    rw [he]
    rfl

theorem reading_ok {p : DiskArtifactState → StorageM α} {a : α}
    (hp : Gives S I Safe log (p s) (.ok a)) : Answers S I Safe log (UpdateM.reading p) s (.ok a) :=
  reading hp

theorem bind (hA : Authentic S address I Safe) {p : UpdateM α} {f : α → UpdateM β}
    {x : Except (Stop ArtifactStateError) α} {g : α → Except (Stop ArtifactStateError) β}
    (hp : Answers S I Safe log p s x) (hf : ∀ a, x = .ok a → Answers S I Safe log (f a) s (g a)) :
    Answers S I Safe log (p >>= f) s (x >>= g) := by
  intro w hw hsub
  apply Updates.bind hA hw (hp w hw hsub)
  · intro a s' w' hw' hgrow hr
    obtain ⟨hx, rfl⟩ := hr
    rw [← hx]
    exact hf a hx.symm w' hw' (List.Subset.trans hsub hgrow)
  · intro stop s' w' _ hr
    obtain ⟨hx, rfl⟩ := hr
    rw [← hx]
    exact ⟨rfl, rfl⟩
  · exact fun _ _ _ h => h

theorem bind_ok (hA : Authentic S address I Safe) {p : UpdateM α} {f : α → UpdateM β} {a : α}
    {y : Except (Stop ArtifactStateError) β} (hp : Answers S I Safe log p s (.ok a))
    (hf : Answers S I Safe log (f a) s y) : Answers S I Safe log (p >>= f) s y := by
  apply bind hA (g := fun _ => y) hp
  intro b hb
  cases hb
  exact hf

theorem forM (hA : Authentic S address I Safe) {ι : Type} {p : ι → UpdateM Unit}
    {g : ι → Except (Stop ArtifactStateError) Unit} (l : List ι)
    (h : ∀ i ∈ l, Answers S I Safe log (p i) s (g i)) :
    Answers S I Safe log (l.forM p) s (l.forM g) := by
  induction l with
  | nil => exact pure ()
  | cons i l ih =>
    change Answers S I Safe log (p i >>= fun _ => l.forM p) s (g i >>= fun _ => l.forM g)
    apply bind hA (h i List.mem_cons_self)
    intro _ _
    exact ih fun j hj => h j (List.mem_cons_of_mem i hj)

end Answers

/-- A registration on a copy either succeeds or leaves the state as it was. -/
theorem Updates.publishing (hA : Authentic S address I Safe) (hw : I w) {p : UpdateM α}
    {Q : Except (Stop ArtifactStateError) α → DiskArtifactState → World σ → Prop}
    {E : DiskArtifactState → World σ → Prop} (hp : Updates S I Safe p s w Q E) :
    Updates S I Safe (DiskArtifactState.publishing p) s w
      (fun r s' w' => w.written ⊆ w'.written ∧ ((∃ a, r = .ok a) ∧ Q r s' w' ∨
        (∃ stop, r = .error stop) ∧ s' = s ∧ ∃ s'', Q r s'' w')) fun s' _ => s' = s := by
  unfold Updates DiskArtifactState.publishing
  apply Ensures.bind hA hw hp
  intro r w' _ hgrow hr
  obtain ⟨r, s'⟩ := r
  rcases hr with hr | ⟨⟨e, he⟩, _, hfault⟩
  · cases r with
    | ok a => exact Ensures.pure (Or.inl ⟨hgrow, Or.inl ⟨⟨a, rfl⟩, hr⟩⟩)
    | error stop => exact Ensures.pure (Or.inl ⟨hgrow, Or.inr ⟨⟨stop, rfl⟩, rfl, s', hr⟩⟩)
  · simp only at he
    subst he
    exact Ensures.pure (Or.inr ⟨⟨e, rfl⟩, rfl, hfault⟩)

variable (hA : Authentic S (storageAddress sha256) I Safe)

include hA

theorem Denotes.gives_get (h : Denotes sha256 log s c) {kind : MapKind} (hkind : kind.Flat)
    (key : Digest) : Gives S I Safe log (s.get sha256 kind key) (.ok (c.record kind key)) :=
  Gives.of_ensures fun _ hw hsub => ((h.flat kind hkind).mono hsub).ensures_get hA hw key

theorem Denotes.gives_containsKey (h : Denotes sha256 log s c) {kind : MapKind} (hkind : kind.Flat)
    (key : Digest) :
    Gives S I Safe log (s.containsKey sha256 kind key) (.ok (c.record kind key).isSome) :=
  Gives.of_ensures fun _ hw hsub => ((h.flat kind hkind).mono hsub).ensures_containsKey hA hw key

theorem succeeds_getFrom (hw : I w) {kind : MapKind} {f : Digest → Option (List UInt8)}
    (h : Represents sha256 w.written (s.map kind) f) (key : Digest) :
    Succeeds S I Safe (DiskArtifactState.getFrom sha256 kind key) s w
      (fun v s' _ => s' = s ∧ v = f key) fun s' _ => s' = s :=
  Succeeds.reading (h.ensures_get hA hw key)

/-- A write changes one association of one map, or fails and changes nothing. -/
theorem succeeds_insertInto (hw : I w) {kind : MapKind} {f : Digest → Option (List UInt8)}
    (h : Represents sha256 w.written (s.map kind) f) {key : Digest} {value : List UInt8}
    (hvalue : value.length ≤ maxValueBytes) :
    Succeeds S I Safe (DiskArtifactState.insertInto sha256 kind key value) s w
      (fun _ s' w' => ∃ m, s' = s.setMap kind m ∧
        Represents sha256 w'.written m (assign f key value false)) fun s' _ => s' = s := by
  unfold DiskArtifactState.insertInto DiskMap.insert Succeeds Updates
  apply Ensures.bind hA hw (h.ensures_writeValue hA hw false hvalue)
  intro r w' _ hgrow hr
  obtain ⟨r, m⟩ := r
  rcases hr with ⟨added, rfl, hm⟩ | ⟨⟨e, rfl⟩, rfl, hfault⟩
  · exact Ensures.pure (Or.inl ⟨(), rfl, m, rfl, hm⟩)
  · refine Ensures.pure (Or.inr ⟨⟨e, rfl⟩, ?_, hfault⟩)
    exact s.setMap_map kind

theorem succeeds_setIn (hw : I w) {kind : MapKind} {f : Digest → Option (List UInt8)}
    (h : Represents sha256 w.written (s.map kind) f) {key : Digest} {value : List UInt8}
    (hvalue : value.length ≤ maxValueBytes) :
    Succeeds S I Safe (DiskArtifactState.setIn sha256 kind key value) s w
      (fun _ s' w' => ∃ m, s' = s.setMap kind m ∧
        Represents sha256 w'.written m (assign f key value true)) fun s' _ => s' = s := by
  unfold DiskArtifactState.setIn DiskMap.set Succeeds Updates
  simp only [bind_assoc']
  apply Ensures.bind hA hw (h.ensures_writeValue hA hw true hvalue)
  intro r w' _ hgrow hr
  obtain ⟨r, m⟩ := r
  rcases hr with ⟨added, rfl, hm⟩ | ⟨⟨e, rfl⟩, rfl, hfault⟩
  · exact Ensures.pure (Or.inl ⟨(), rfl, m, rfl, hm⟩)
  · refine Ensures.pure (Or.inr ⟨⟨e, rfl⟩, ?_, hfault⟩)
    exact s.setMap_map kind

theorem Denotes.succeeds_insertInto (hw : I w) (h : Denotes sha256 w.written s c) {kind : MapKind}
    (hkind : kind.Flat) {key : Digest} {value : List UInt8} (hvalue : value.length ≤ maxValueBytes) :
    Succeeds S I Safe (DiskArtifactState.insertInto sha256 kind key value) s w
      (fun _ s' w' => Denotes sha256 w'.written s' (c.write kind key value false))
      fun s' _ => s' = s := by
  apply (Naome.succeeds_insertInto hA hw (h.flat kind hkind) hvalue).mono
  · intro _ s' w' hgrow hr
    obtain ⟨m, rfl, hm⟩ := hr
    exact h.write hgrow hkind hm
  · exact fun _ _ _ h => h

theorem Denotes.succeeds_setIn (hw : I w) (h : Denotes sha256 w.written s c) {kind : MapKind}
    (hkind : kind.Flat) {key : Digest} {value : List UInt8} (hvalue : value.length ≤ maxValueBytes) :
    Succeeds S I Safe (DiskArtifactState.setIn sha256 kind key value) s w
      (fun _ s' w' => Denotes sha256 w'.written s' (c.write kind key value true))
      fun s' _ => s' = s := by
  apply (Naome.succeeds_setIn hA hw (h.flat kind hkind) hvalue).mono
  · intro _ s' w' hgrow hr
    obtain ⟨m, rfl, hm⟩ := hr
    exact h.write hgrow hkind hm
  · exact fun _ _ _ h => h

/-- One more member of a bucket, or a failure that changes nothing. -/
theorem Denotes.succeeds_insertProjection (hw : I w) (h : Denotes sha256 w.written s c)
    (statement : StatementId) (projection : BucketKind × StatementId) :
    Succeeds S I Safe (DiskArtifactState.insertProjection sha256 statement projection) s w
      (fun _ s' w' => Denotes sha256 w'.written s' (c.add projection.1 projection.2 statement))
      fun s' _ => s' = s := by
  obtain ⟨kind, target⟩ := projection
  obtain ⟨roots, hindex, hbuckets⟩ := h.bucket kind
  have hdecode : decodeRoot ((roots target).map fun root => encodeRoot (some root)) =
      .ok (roots target) := by
    cases roots target with
    | none => rfl
    | some root => exact decodeRoot_encodeRoot root
  have hsame : ∀ (s' : DiskArtifactState) (w' : World σ), w.written ⊆ w'.written → s' = s → s' = s :=
    fun _ _ _ h => h
  unfold DiskArtifactState.insertProjection
  apply Succeeds.bind hA hw (succeeds_getFrom hA hw hindex target) ?_ hsame
  intro v s₁ w₁ hw₁ hgrow₁ hr
  obtain ⟨rfl, rfl⟩ := hr
  rw [hdecode, UpdateM.access_ok_bind]
  have hbucket := (hbuckets target).mono hgrow₁
  apply Succeeds.bind hA hw₁ (Succeeds.reading (hbucket.ensures_writeValue hA hw₁ false (by decide))) ?_
    fun _ _ _ h => h
  intro r s₂ w₂ hw₂ hgrow₂ hr
  obtain ⟨result, bucket⟩ := r
  obtain ⟨rfl, hr⟩ := hr
  rcases hr with ⟨added, hok, hinserted⟩ | ⟨⟨e, he⟩, _, hfault⟩
  · simp only at hok hinserted
    subst hok
    simp only [UpdateM.access_ok_bind]
    have hgrow := List.Subset.trans hgrow₁ hgrow₂
    apply (Naome.succeeds_setIn hA hw₂ (hindex.mono hgrow) (length_encodeRoot_le _)).mono
    · intro _ s' w' hgrow₃ hm
      obtain ⟨m, rfl, hm⟩ := hm
      obtain ⟨root, rfl⟩ := hinserted.exists_root (isSome_assign _ statement [] false)
      exact h.addMember (List.Subset.trans hgrow hgrow₃) hbuckets (hinserted.mono hgrow₃) hm
    · exact fun _ _ _ h => h
  · simp only at he
    subst he
    simp only [UpdateM.access_error_bind]
    exact Succeeds.fault rfl hfault

/-- The cursor yields the keys of the entries, which have no values, in ascending order. -/
theorem ensures_bucketItems {it : Entries} {rest : List ValueTree} {calls : ℕ} (hw : I w)
    (h : EntriesAt sha256 w.written it rest)
    (hvalues : ∀ e ∈ entriesAbove it.after rest, e.2 = [])
    (hcalls : (entriesAbove it.after rest).length < calls) :
    Ensures S I Safe (DiskArtifactState.bucketItems sha256 calls it) w fun items _ =>
      items = (entriesAbove it.after rest).map (fun e => .ok e.1) ∨
        (∃ e, .error e ∈ items) ∧ ¬ Reliable S I Safe := by
  induction calls generalizing it rest w with
  | zero => omega
  | succ calls ih =>
    unfold DiskArtifactState.bucketItems
    have hnodes : forestSize rest < it.remaining + 1 :=
      Nat.lt_succ_of_le (forestSize_le_remaining h)
    apply Ensures.bind hA hw (ensures_nextWithin hA hw h hnodes)
    intro r w' hw' _ hr
    obtain ⟨item, next⟩ := r
    rcases hr with ⟨⟨e, rfl⟩, hpending, hfault⟩ | ⟨rfl, hnil⟩ | ⟨e, rest', rfl, hnext, hafter, hlist⟩
    · intro hsafe
      have hitems : ∃ items w'', (DiskArtifactState.bucketItems sha256 calls next).run S
          (w'.recordFailure S e) = (.ok items, w'') := by
        cases calls with
        | zero => exact ⟨_, _, rfl⟩
        | succ calls =>
          unfold DiskArtifactState.bucketItems
          rw [run_next_nil hpending]
          exact ⟨_, _, rfl⟩
      obtain ⟨items, w'', hrun⟩ := hitems
      refine Or.inl ⟨.error e :: items, ?_, Or.inr ⟨⟨e, List.mem_cons_self⟩, hfault⟩⟩
      change ((DiskArtifactState.bucketItems sha256 calls next >>= fun items =>
        pure (.error e :: items)).run S (w'.recordFailure S e)).1 = _
      rw [run_bind, hrun]
      rfl
    · rw [hnil]
      exact Ensures.pure (Or.inl rfl)
    · have hafter : next.after = it.after := hafter
      have hlength : (entriesAbove next.after rest').length < calls := by
        rw [hlist, List.length_cons] at hcalls
        rw [hafter]
        omega
      have hempty : e.2 = [] := hvalues e (by rw [hlist]; exact List.mem_cons_self)
      have hrest : ∀ e' ∈ entriesAbove next.after rest', e'.2 = [] := by
        intro e' he'
        rw [hafter] at he'
        exact hvalues e' (by rw [hlist]; exact List.mem_cons_of_mem e he')
      have hitem : DiskArtifactState.bucketItem (.ok e) = pure (.ok e.1) := if_pos hempty
      simp only
      rw [hitem, pure_bind']
      apply Ensures.bind hA hw' (ih hw' hnext hrest hlength)
      intro items w'' _ _ hitems
      apply Ensures.pure
      rcases hitems with hitems | ⟨⟨e', he'⟩, hfault⟩
      · left
        rw [hitems, hlist, hafter]
        rfl
      · exact Or.inr ⟨⟨e', List.mem_cons_of_mem _ he'⟩, hfault⟩

omit hA in
theorem length_entriesAbove_le (after : Option Digest) (rest : List ValueTree) :
    (entriesAbove after rest).length ≤ forestSize rest := by
  refine le_trans (List.length_filter_le _ _) ?_
  have htree : ∀ t : ValueTree, t.entries.length ≤ size t := by
    intro t
    induction t with
    | leaf key value => exact le_rfl
    | branch i left right ihl ihr =>
      simp only [PatriciaTree.entries, List.length_append, size]
      omega
  unfold forestEntries forestSize
  induction rest with
  | nil => exact le_rfl
  | cons t rest ih =>
    simp only [List.flatMap_cons, List.length_append, List.map_cons, List.sum_cons]
    exact Nat.add_le_add (htree t) ih

omit hA in
/-- The keys of a represented map in ascending order. -/
theorem Represents.exists_keys {m : DiskMap} {f : Digest → Option (List UInt8)}
    (h : Represents sha256 log m f) : ∃ t, Holds sha256 log m.root t ∧
      (∀ e ∈ entriesAbove none t.toList, f e.1 = some e.2) ∧
      ((entriesAbove none t.toList).map Prod.fst).Pairwise (· < ·) ∧
      ∀ k, k ∈ (entriesAbove none t.toList).map Prod.fst ↔ (f k).isSome = true := by
  obtain ⟨t, ht, hf⟩ := h
  have hmem : ∀ k v, (k, v) ∈ entriesAbove none t.toList ↔ f k = some v := by
    intro k v
    rw [mem_entriesAbove ht, hf]
    simp
  refine ⟨t, ht, fun e he => (hmem e.1 e.2).mp he, ?_, ?_⟩
  · exact List.Pairwise.map Prod.fst (fun _ _ h => h) (pairwise_entriesAbove ht none)
  · intro k
    rw [List.mem_map, Option.isSome_iff_exists]
    constructor
    · rintro ⟨⟨k', v⟩, he, rfl⟩
      exact ⟨v, (hmem k' v).mp he⟩
    · rintro ⟨v, hv⟩
      exact ⟨(k, v), (hmem k v).mpr hv, rfl⟩

/-- A bucket lists its members in ascending order. -/
theorem Denotes.ensures_bucket (hw : I w) (h : Denotes sha256 w.written s c) (kind : BucketKind)
    (target : StatementId) :
    Ensures S I Safe (s.bucket sha256 kind target) w fun items _ =>
      (∃ l : List StatementId, l.Pairwise (· < ·) ∧
        (∀ st, st ∈ l ↔ c.member kind target st = true) ∧ items = l.map .ok) ∨
      (∃ e, .error e ∈ items) ∧ ¬ Reliable S I Safe := by
  obtain ⟨roots, hindex, hbuckets⟩ := h.bucket kind
  unfold DiskArtifactState.bucket
  have hroot : Ensures S I Safe (StorageM.reporting do
      let root ← s.get sha256 (.ofBucket kind) target
      lift (decodeRoot root)) w fun v _ => v = roots target := by
    apply Ensures.reporting
    apply Ensures.bind hA hw (hindex.ensures_get hA hw target)
    intro v w' _ _ hv
    rw [hv]
    cases roots target with
    | none => exact Ensures.pure rfl
    | some root =>
      rw [Option.map_some, decodeRoot_encodeRoot]
      exact Ensures.pure rfl
  apply Ensures.bind hA hw hroot
  intro v w' hw' hgrow hv
  subst hv
  obtain ⟨t, ht, hvalues, hsorted, hkeys⟩ := Represents.exists_keys ((hbuckets target).mono hgrow)
  have hat := entriesAt_entriesAfter ht none
  have hempty : ∀ e ∈ entriesAbove none t.toList, e.2 = [] := by
    intro e he
    have hvalue := hvalues e he
    unfold bucketRecords at hvalue
    split_ifs at hvalue
    exact (Option.some.inj hvalue).symm
  have hcalls : (entriesAbove none t.toList).length <
      ((⟨roots target⟩ : DiskMap).entriesAfter none).remaining + 1 := by
    exact Nat.lt_succ_of_le (le_trans (length_entriesAbove_le none t.toList)
      (forestSize_le_remaining hat))
  apply (ensures_bucketItems hA hw' hat hempty hcalls).mono
  intro items _ hitems
  rcases hitems with hitems | herror
  · refine Or.inl ⟨_, hsorted, ?_, ?_⟩
    · intro st
      rw [hkeys]
      unfold bucketRecords
      split_ifs with hmember
      · simp [hmember]
      · simp [hmember]
    · rw [hitems, List.map_map]
      rfl
  · exact Or.inr herror

end Rules
end Naome
