import Naome.Context

/-!
# Programs over untrusted storage

The checker reaches its records only through reads and writes of an arbitrary storage. A
program is the tree of these accesses; what holds of one access then holds of every program.
-/
namespace Naome

/-- The storage interface, with everything the storage remembers as its state. -/
structure ContextStorage (σ : Type) where
  read : Digest → ℕ → σ → Except ContextError (List UInt8) × σ
  write : Digest → List UInt8 → σ → Except ContextError Unit × σ
  recordFailure : ContextError → σ → σ

/-- The records that a storage has accepted, with their addresses. -/
abbrev WriteLog := List (Digest × List UInt8)

/-- A storage with the log of what it has accepted. No program reads the log. -/
structure World (σ : Type) where
  storage : σ
  written : WriteLog

inductive StorageM (α : Type) : Type
  | done (result : Except ContextError α)
  | read (address : Digest) (maximum : ℕ) (next : Except ContextError (List UInt8) → StorageM α)
  | write (address : Digest) (bytes : List UInt8) (next : Except ContextError Unit → StorageM α)
  | recordFailure (error : ContextError) (next : StorageM α)

namespace World

variable {σ : Type} (S : ContextStorage σ)

def read (address : Digest) (maximum : ℕ) (w : World σ) :
    Except ContextError (List UInt8) × World σ :=
  ((S.read address maximum w.storage).1, ⟨(S.read address maximum w.storage).2, w.written⟩)

/-- A record enters the log when the storage accepts it. -/
def write (address : Digest) (bytes : List UInt8) (w : World σ) :
    Except ContextError Unit × World σ :=
  match S.write address bytes w.storage with
  | (.ok (), s) => (.ok (), ⟨s, (address, bytes) :: w.written⟩)
  | (.error e, s) => (.error e, ⟨s, w.written⟩)

def recordFailure (error : ContextError) (w : World σ) : World σ :=
  ⟨S.recordFailure error w.storage, w.written⟩

end World

namespace StorageM

variable {α β σ : Type}

def bind : StorageM α → (α → StorageM β) → StorageM β
  | done (.ok a), f => f a
  | done (.error e), _ => done (.error e)
  | read address maximum next, f => read address maximum fun r => (next r).bind f
  | write address bytes next, f => write address bytes fun r => (next r).bind f
  | recordFailure error next, f => recordFailure error (next.bind f)

instance : Monad StorageM where
  pure a := done (.ok a)
  bind := bind

def lift (r : Except ContextError α) : StorageM α := done r

def readRecord (address : Digest) (maximum : ℕ) : StorageM (List UInt8) :=
  read address maximum done

def writeRecord (address : Digest) (bytes : List UInt8) : StorageM Unit :=
  write address bytes done

/-- Turns the outcome of a program into a value. -/
def attempt : StorageM α → StorageM (Except ContextError α)
  | done r => done (.ok r)
  | read address maximum next => read address maximum fun r => (next r).attempt
  | write address bytes next => write address bytes fun r => (next r).attempt
  | recordFailure error next => recordFailure error next.attempt

/-- Reports an error to the storage before it is returned. -/
def recording : StorageM α → StorageM α
  | done (.ok a) => done (.ok a)
  | done (.error e) => recordFailure e (done (.error e))
  | read address maximum next => read address maximum fun r => (next r).recording
  | write address bytes next => write address bytes fun r => (next r).recording
  | recordFailure error next => recordFailure error next.recording

/-- Reports an integrity failure to the storage before it is returned; a limit is no failure. -/
def reporting : StorageM α → StorageM α
  | done (.ok a) => done (.ok a)
  | done (.error .limit) => done (.error .limit)
  | done (.error e) => recordFailure e (done (.error e))
  | read address maximum next => read address maximum fun r => (next r).reporting
  | write address bytes next => write address bytes fun r => (next r).reporting
  | recordFailure error next => recordFailure error next.reporting

@[simp] theorem lift_ok_bind (a : α) (f : α → StorageM β) : (lift (.ok a) >>= f) = f a := rfl

@[simp] theorem lift_error_bind (e : ContextError) (f : α → StorageM β) :
    (lift (.error e : Except ContextError α) >>= f) = lift (.error e) := rfl

theorem lift_require_bind {p : Prop} [Decidable p] (h : p) (e : ContextError)
    (f : Unit → StorageM β) : (lift (Outcome.require p e) >>= f) = f () := by
  rw [Outcome.require, if_pos h]
  rfl

theorem lift_require_bind_of_not {p : Prop} [Decidable p] (h : ¬ p) (e : ContextError)
    (f : Unit → StorageM β) : (lift (Outcome.require p e) >>= f) = lift (.error e) := by
  rw [Outcome.require, if_neg h]
  rfl

@[simp] theorem pure_bind' (a : α) (f : α → StorageM β) : (pure a >>= f) = f a := rfl

theorem bind_assoc' {γ : Type} (p : StorageM α) (f : α → StorageM β) (g : β → StorageM γ) :
    (p >>= f) >>= g = p >>= fun a => f a >>= g := by
  change (p.bind f).bind g = p.bind fun a => (f a).bind g
  induction p with
  | done r =>
    cases r with
    | ok a => rfl
    | error e => rfl
  | read address maximum next ih => exact congrArg (read address maximum) (funext ih)
  | write address bytes next ih => exact congrArg (write address bytes) (funext ih)
  | recordFailure error next ih => exact congrArg (recordFailure error) ih

section Run

variable (S : ContextStorage σ)

def run : StorageM α → World σ → Except ContextError α × World σ
  | done r, w => (r, w)
  | read address maximum next, w =>
    (next (w.read S address maximum).1).run (w.read S address maximum).2
  | write address bytes next, w => (next (w.write S address bytes).1).run (w.write S address bytes).2
  | recordFailure error next, w => next.run (w.recordFailure S error)

@[simp] theorem run_pure (a : α) (w : World σ) : (pure a : StorageM α).run S w = (.ok a, w) := rfl

@[simp] theorem run_lift (r : Except ContextError α) (w : World σ) : (lift r).run S w = (r, w) :=
  rfl

theorem run_bind (p : StorageM α) (f : α → StorageM β) (w : World σ) :
    (p >>= f).run S w = match p.run S w with
      | (.ok a, w') => (f a).run S w'
      | (.error e, w') => (.error e, w') := by
  change (p.bind f).run S w = _
  induction p generalizing w with
  | done r =>
    cases r with
    | ok a => rfl
    | error e => rfl
  | read address maximum next ih => exact ih _ _
  | write address bytes next ih => exact ih _ _
  | recordFailure error next ih => exact ih _

theorem run_attempt (p : StorageM α) (w : World σ) :
    p.attempt.run S w = (.ok (p.run S w).1, (p.run S w).2) := by
  induction p generalizing w with
  | done r => rfl
  | read address maximum next ih => exact ih _ _
  | write address bytes next ih => exact ih _ _
  | recordFailure error next ih => exact ih _

theorem run_recording (p : StorageM α) (w : World σ) :
    p.recording.run S w = match p.run S w with
      | (.ok a, w') => (.ok a, w')
      | (.error e, w') => (.error e, w'.recordFailure S e) := by
  induction p generalizing w with
  | done r =>
    cases r with
    | ok a => rfl
    | error e => rfl
  | read address maximum next ih => exact ih _ _
  | write address bytes next ih => exact ih _ _
  | recordFailure error next ih => exact ih _

theorem fst_run_reporting (p : StorageM α) (w : World σ) :
    (p.reporting.run S w).1 = (p.run S w).1 := by
  induction p generalizing w with
  | done r =>
    cases r with
    | ok a => rfl
    | error e => cases e <;> rfl
  | read address maximum next ih => exact ih _ _
  | write address bytes next ih => exact ih _ _
  | recordFailure error next ih => exact ih _

theorem written_run_reporting (p : StorageM α) (w : World σ) :
    (p.reporting.run S w).2.written = (p.run S w).2.written := by
  induction p generalizing w with
  | done r =>
    cases r with
    | ok a => rfl
    | error e => cases e <;> rfl
  | read address maximum next ih => exact ih _ _
  | write address bytes next ih => exact ih _ _
  | recordFailure error next ih => exact ih _

/-- What every access preserves, every program preserves. -/
theorem run_invariant {I : World σ → Prop}
    (hread : ∀ address maximum w, I w → I (w.read S address maximum).2)
    (hwrite : ∀ address bytes w, I w → I (w.write S address bytes).2)
    (hfailure : ∀ error w, I w → I (w.recordFailure S error)) (p : StorageM α) {w : World σ}
    (h : I w) : I (p.run S w).2 := by
  induction p generalizing w with
  | done r => exact h
  | read address maximum next ih => exact ih _ (hread address maximum w h)
  | write address bytes next ih => exact ih _ (hwrite address bytes w h)
  | recordFailure error next ih => exact ih (hfailure error w h)

theorem written_write (address : Digest) (bytes : List UInt8) (w : World σ) :
    (w.write S address bytes).1 = .ok () ∧
        (w.write S address bytes).2.written = (address, bytes) :: w.written ∨
      (∃ e, (w.write S address bytes).1 = .error e) ∧
        (w.write S address bytes).2.written = w.written := by
  unfold World.write
  rcases S.write address bytes w.storage with ⟨r, s⟩
  cases r with
  | ok u => exact Or.inl ⟨rfl, rfl⟩
  | error e => exact Or.inr ⟨⟨e, rfl⟩, rfl⟩

theorem written_subset_run (p : StorageM α) (w : World σ) : w.written ⊆ (p.run S w).2.written := by
  refine run_invariant S ?_ ?_ ?_ p (I := fun w' => w.written ⊆ w'.written) (List.Subset.refl _)
  · intro address maximum w' h
    exact h
  · intro address bytes w' h
    rcases written_write S address bytes w' with ⟨_, heq⟩ | ⟨_, heq⟩
    · rw [heq]
      exact List.Subset.trans h (List.subset_cons_self _ _)
    · rw [heq]
      exact h
  · intro error w' h
    exact h

end Run

/-- Every record that the program may write satisfies `P`. -/
def WritesOnly (P : Digest → List UInt8 → Prop) : StorageM α → Prop
  | done _ => True
  | read _ _ next => ∀ r, (next r).WritesOnly P
  | write address bytes next => P address bytes ∧ ∀ r, (next r).WritesOnly P
  | recordFailure _ next => next.WritesOnly P

section WritesOnly

variable {P : Digest → List UInt8 → Prop}

theorem WritesOnly.bind {p : StorageM α} {f : α → StorageM β} (hp : p.WritesOnly P)
    (hf : ∀ a, (f a).WritesOnly P) : (p >>= f).WritesOnly P := by
  change (p.bind f).WritesOnly P
  induction p with
  | done r =>
    cases r with
    | ok a => exact hf a
    | error e => trivial
  | read address maximum next ih => exact fun r => ih r (hp r)
  | write address bytes next ih => exact ⟨hp.1, fun r => ih r (hp.2 r)⟩
  | recordFailure error next ih => exact ih hp

theorem WritesOnly.attempt {p : StorageM α} (hp : p.WritesOnly P) : p.attempt.WritesOnly P := by
  induction p with
  | done r => trivial
  | read address maximum next ih => exact fun r => ih r (hp r)
  | write address bytes next ih => exact ⟨hp.1, fun r => ih r (hp.2 r)⟩
  | recordFailure error next ih => exact ih hp

theorem WritesOnly.recording {p : StorageM α} (hp : p.WritesOnly P) : p.recording.WritesOnly P := by
  induction p with
  | done r =>
    cases r with
    | ok a => trivial
    | error e => trivial
  | read address maximum next ih => exact fun r => ih r (hp r)
  | write address bytes next ih => exact ⟨hp.1, fun r => ih r (hp.2 r)⟩
  | recordFailure error next ih => exact ih hp

theorem WritesOnly.reporting {p : StorageM α} (hp : p.WritesOnly P) : p.reporting.WritesOnly P := by
  induction p with
  | done r =>
    cases r with
    | ok a => trivial
    | error e => cases e <;> trivial
  | read address maximum next ih => exact fun r => ih r (hp r)
  | write address bytes next ih => exact ⟨hp.1, fun r => ih r (hp.2 r)⟩
  | recordFailure error next ih => exact ih hp

theorem WritesOnly.mem_written {p : StorageM α} (hp : p.WritesOnly P) (S : ContextStorage σ)
    {w : World σ} {r : Digest × List UInt8} (hr : r ∈ (p.run S w).2.written) :
    r ∈ w.written ∨ P r.1 r.2 := by
  induction p generalizing w with
  | done r => exact Or.inl hr
  | read address maximum next ih => exact ih _ (hp _) (w := (w.read S address maximum).2) hr
  | write address bytes next ih =>
    rcases ih _ (hp.2 _) hr with hmem | hP
    · rcases written_write S address bytes w with ⟨_, heq⟩ | ⟨_, heq⟩
      · rw [heq] at hmem
        rcases List.mem_cons.mp hmem with rfl | hmem
        · exact Or.inr hp.1
        · exact Or.inl hmem
      · rw [heq] at hmem
        exact Or.inl hmem
    · exact Or.inr hP
  | recordFailure error next ih => exact ih hp (w := w.recordFailure S error) hr

/-- A program that writes nothing leaves the log as it is. -/
theorem written_run_of_silent {p : StorageM α} (hp : p.WritesOnly fun _ _ => False)
    (S : ContextStorage σ) (w : World σ) : (p.run S w).2.written = w.written := by
  induction p generalizing w with
  | done r => rfl
  | read address maximum next ih => exact ih _ (hp _) _
  | write address bytes next ih => exact hp.1.elim
  | recordFailure error next ih => exact ih hp _

end WritesOnly
end StorageM

/-- What is relied on about a storage: an invariant of its states, and a property of the log
(such as the absence of collisions) under which a record read back at the address of a logged
record, with bytes of that same address, is the logged one. -/
structure Authentic {σ : Type} (S : ContextStorage σ) (address : List UInt8 → Digest)
    (I : World σ → Prop) (Safe : WriteLog → Prop) : Prop where
  read : ∀ a n w, I w → I (w.read S a n).2
  write : ∀ a b w, I w → I (w.write S a b).2
  failure : ∀ e w, I w → I (w.recordFailure S e)
  antitone : ∀ {l l' : WriteLog}, l ⊆ l' → Safe l' → Safe l
  authentic : ∀ {w b b' n}, I w → Safe w.written → (address b, b) ∈ w.written →
    (S.read (address b) n w.storage).1 = .ok b' → address b' = address b → b' = b
  injective : ∀ {l : WriteLog} {b b'}, Safe l → (address b, b) ∈ l → (address b', b') ∈ l →
    address b = address b' → b = b'

/-- A storage that returns what it has accepted and accepts everything. -/
structure Reliable {σ : Type} (S : ContextStorage σ) (I : World σ → Prop)
    (Safe : WriteLog → Prop) : Prop where
  read : ∀ {w a b n}, I w → Safe w.written → (a, b) ∈ w.written → b.length ≤ n →
    (S.read a n w.storage).1 = .ok b
  write : ∀ {w} (a b), I w → (S.write a b w.storage).1 = .ok ()

/-- A storage that keeps what it accepts: `records` is what it holds. -/
structure Faithful {σ : Type} (S : ContextStorage σ) (records : σ → Digest → Option (List UInt8)) :
    Prop where
  read : ∀ {s a b n}, records s a = some b → b.length ≤ n → (S.read a n s).1 = .ok b
  sound : ∀ {s a b n}, (S.read a n s).1 = .ok b → records s a = some b
  records_read : ∀ a n s, records (S.read a n s).2 = records s
  write : ∀ a b s, (S.write a b s).1 = .ok ()
  records_write : ∀ a b s, records (S.write a b s).2 = Function.update (records s) a (some b)
  records_failure : ∀ e s, records (S.recordFailure e s) = records s

/-- The storage holds a logged record at every logged address. -/
def Consistent {σ : Type} (records : σ → Digest → Option (List UInt8)) (w : World σ) : Prop :=
  ∀ a b, (a, b) ∈ w.written → ∃ b', (a, b') ∈ w.written ∧ records w.storage a = some b'

/-- No address is logged with two contents. -/
def Functional (log : WriteLog) : Prop := ∀ a b b', (a, b) ∈ log → (a, b') ∈ log → b = b'

namespace Faithful

variable {σ : Type} {S : ContextStorage σ} {records : σ → Digest → Option (List UInt8)}

theorem consistent_write (h : Faithful S records) (a : Digest) (b : List UInt8) {w : World σ}
    (hw : Consistent records w) : Consistent records (w.write S a b).2 := by
  have hok := h.write a b w.storage
  have hrecords := h.records_write a b w.storage
  unfold World.write
  rcases hs : S.write a b w.storage with ⟨r, s⟩
  rw [hs] at hok hrecords
  cases hok
  intro a' b' hmem
  by_cases ha : a' = a
  · subst ha
    exact ⟨b, List.mem_cons_self, by rw [hrecords, Function.update_self]⟩
  · have hold : (a', b') ∈ w.written := by
      rcases List.mem_cons.mp hmem with heq | hmem
      · exact absurd (congrArg Prod.fst heq) ha
      · exact hmem
    obtain ⟨b'', hmem'', hread⟩ := hw a' b' hold
    refine ⟨b'', List.mem_cons_of_mem _ hmem'', ?_⟩
    rw [hrecords, Function.update_of_ne ha]
    exact hread

/-- A faithful storage is relied on as long as no address gets two contents. -/
theorem authentic (h : Faithful S records) (address : List UInt8 → Digest) :
    Authentic S address (Consistent records) Functional where
  read a n w hw := by
    intro a' b' hmem
    obtain ⟨b'', hmem', hread⟩ := hw a' b' hmem
    exact ⟨b'', hmem', by rw [World.read, h.records_read]; exact hread⟩
  write a b w hw := h.consistent_write a b hw
  failure e w hw := by
    intro a' b' hmem
    obtain ⟨b'', hmem', hread⟩ := hw a' b' hmem
    exact ⟨b'', hmem', by rw [World.recordFailure, h.records_failure]; exact hread⟩
  antitone hsub hl a b b' hb hb' := hl a b b' (hsub hb) (hsub hb')
  authentic {w b b' n} hw hl hmem hread hb' := by
    obtain ⟨b'', hmem', hrecord⟩ := hw _ _ hmem
    have heq : b'' = b := hl _ _ _ hmem' hmem
    subst heq
    rw [h.sound hread] at hrecord
    exact Option.some.inj hrecord
  injective {l b b'} hl hb hb' he := by
    rw [← he] at hb'
    exact hl _ _ _ hb hb'

theorem reliable (h : Faithful S records) : Reliable S (Consistent records) Functional where
  read {w a b n} hw hl hmem hlen := by
    obtain ⟨b', hmem', hrecord⟩ := hw a b hmem
    rw [hl a b b' hmem hmem']
    rw [hl a b b' hmem hmem'] at hlen
    exact h.read hrecord hlen
  write a b _ := h.write a b _

end Faithful

/-- A storage in memory, newest record first. -/
def memoryStorage : ContextStorage WriteLog where
  read address maximum s :=
    (match s.find? fun r => decide (r.1 = address) with
      | some r => if r.2.length ≤ maximum then .ok r.2 else .error .limit
      | none => .error .corrupt, s)
  write address bytes s := (.ok (), (address, bytes) :: s)
  recordFailure _ s := s

/-- A digest that tells the records of a small context apart. -/
def sampleDigest (bytes : List UInt8) : Digest :=
  BitVec.ofNat 256 (bytes.foldl (fun sum byte => sum * 31 + byte.toNat + 1) 7)

theorem functional_iff {log : WriteLog} :
    Functional log ↔ ∀ r ∈ log, ∀ r' ∈ log, r.1 = r'.1 → r.2 = r'.2 := by
  constructor
  · rintro h ⟨a, b⟩ hr ⟨a', b'⟩ hr' heq
    cases heq
    exact h a b b' hr hr'
  · intro h a b b' hb hb'
    exact h (a, b) hb (a, b') hb' rfl

instance (log : WriteLog) : Decidable (Functional log) := decidable_of_iff' _ functional_iff

theorem faithful_memoryStorage :
    Faithful memoryStorage fun s a => (s.find? fun r => decide (r.1 = a)).map Prod.snd where
  read {s a b n} h hlen := by
    obtain ⟨r, hr, rfl⟩ := Option.map_eq_some_iff.mp h
    simp only [memoryStorage, hr, if_pos hlen]
  sound {s a b n} h := by
    simp only [memoryStorage] at h
    cases hr : s.find? fun r => decide (r.1 = a) with
    | none =>
      rw [hr] at h
      cases h
    | some r =>
      rw [hr] at h
      simp only at h
      split at h
      · cases h
        rfl
      · cases h
  records_read _ _ _ := rfl
  write _ _ _ := rfl
  records_write a b s := by
    funext a'
    by_cases ha : a' = a
    · subst ha
      simp [memoryStorage]
    · have hne : ¬ a = a' := fun h => ha h.symm
      simp [memoryStorage, Function.update_of_ne ha, hne]
  records_failure _ _ := rfl

/-- A program ends with a value for which `Q` holds, or fails because the storage does. -/
def Ensures {σ α : Type} (S : ContextStorage σ) (I : World σ → Prop) (Safe : WriteLog → Prop)
    (p : StorageM α) (w : World σ) (Q : α → World σ → Prop) : Prop :=
  Safe (p.run S w).2.written →
    (∃ v, (p.run S w).1 = .ok v ∧ Q v (p.run S w).2) ∨
      (∃ e, (p.run S w).1 = .error e) ∧ ¬ Reliable S I Safe

namespace Ensures
open StorageM

variable {σ α β : Type} {S : ContextStorage σ} {address : List UInt8 → Digest}
  {I : World σ → Prop} {Safe : WriteLog → Prop} {w : World σ}

theorem pure {a : α} {Q : α → World σ → Prop} (h : Q a w) :
    Ensures S I Safe (Pure.pure a) w Q := fun _ => Or.inl ⟨a, rfl, h⟩

theorem mono {p : StorageM α} {Q Q' : α → World σ → Prop} (h : Ensures S I Safe p w Q)
    (hQ : ∀ v w', Q v w' → Q' v w') : Ensures S I Safe p w Q' := by
  intro hsafe
  rcases h hsafe with ⟨v, hv, hq⟩ | herror
  · exact Or.inl ⟨v, hv, hQ v _ hq⟩
  · exact Or.inr herror

/-- A program that cannot end in a safe world, or needs a fact that holds in safe worlds only. -/
theorem of_safe (h : Authentic S address I Safe) {p : StorageM α} {Q : α → World σ → Prop}
    (hp : Safe w.written → Ensures S I Safe p w Q) : Ensures S I Safe p w Q :=
  fun hsafe => hp (h.antitone (written_subset_run S p w) hsafe) hsafe

/-- An error that a reliable storage does not cause. -/
theorem error {e : ContextError} {Q : α → World σ → Prop} (h : ¬ Reliable S I Safe) :
    Ensures S I Safe (StorageM.lift (.error e)) w Q := fun _ => Or.inr ⟨⟨e, rfl⟩, h⟩

theorem invariant (h : Authentic S address I Safe) (p : StorageM α) (hw : I w) :
    I (p.run S w).2 := run_invariant S h.read h.write h.failure p hw

/-- Sequencing: the second part starts in a later world. -/
theorem bind (hA : Authentic S address I Safe) (hw : I w) {p : StorageM α} {f : α → StorageM β}
    {Q : α → World σ → Prop} {R : β → World σ → Prop} (hp : Ensures S I Safe p w Q)
    (hf : ∀ v w', I w' → w.written ⊆ w'.written → Q v w' → Ensures S I Safe (f v) w' R) :
    Ensures S I Safe (p >>= f) w R := by
  intro hsafe
  have hinv := invariant hA p hw
  have hgrow := written_subset_run S p w
  unfold Ensures at hp
  rw [run_bind] at hsafe ⊢
  rcases hrun : p.run S w with ⟨r, w'⟩
  rw [hrun] at hsafe hinv hgrow hp
  cases r with
  | error e =>
    rcases hp hsafe with ⟨v, hv, _⟩ | ⟨_, hfault⟩
    · cases hv
    · exact Or.inr ⟨⟨e, rfl⟩, hfault⟩
  | ok a =>
    rcases hp (hA.antitone (written_subset_run S (f a) w') hsafe) with ⟨v, hv, hq⟩ | ⟨⟨e, he⟩, _⟩
    · cases hv
      exact hf a w' hinv hgrow hq hsafe
    · cases he

theorem recording {p : StorageM α} {Q : α → World σ → Prop} (hp : Ensures S I Safe p w Q) :
    Ensures S I Safe p.recording w Q := by
  intro hsafe
  unfold Ensures at hp
  rw [run_recording] at hsafe ⊢
  rcases hrun : p.run S w with ⟨r, w'⟩
  rw [hrun] at hsafe hp
  cases r with
  | ok a => exact hp hsafe
  | error e =>
    rcases hp hsafe with ⟨v, hv, _⟩ | ⟨_, hfault⟩
    · cases hv
    · exact Or.inr ⟨⟨e, rfl⟩, hfault⟩

theorem reporting {p : StorageM α} {Q : α → Prop} (hp : Ensures S I Safe p w fun v _ => Q v) :
    Ensures S I Safe p.reporting w fun v _ => Q v := by
  intro hsafe
  rw [written_run_reporting] at hsafe
  rw [fst_run_reporting]
  exact hp hsafe

theorem attempt {p : StorageM α} {Q : α → World σ → Prop} (hp : Ensures S I Safe p w Q) :
    Ensures S I Safe p.attempt w fun r w' =>
      (∃ v, r = .ok v ∧ Q v w') ∨ (∃ e, r = .error e) ∧ ¬ Reliable S I Safe := by
  intro hsafe
  rw [run_attempt] at hsafe ⊢
  exact Or.inl ⟨_, rfl, hp hsafe⟩

/-- A read at the address of a logged record, where other bytes of that address are refused. -/
theorem readRecord (hA : Authentic S address I Safe) (hw : I w) {b : List UInt8} {n : ℕ}
    (hb : (address b, b) ∈ w.written) (hlength : b.length ≤ n) :
    Ensures S I Safe (StorageM.readRecord (address b) n) w
      fun b' w' => w'.written = w.written ∧ (address b' = address b → b' = b) ∧
        (Reliable S I Safe → b' = b) := by
  intro hsafe
  have hwritten : ((StorageM.readRecord (address b) n).run S w).2.written = w.written := rfl
  rw [hwritten] at hsafe
  have hresult : ((StorageM.readRecord (address b) n).run S w).1 =
      (S.read (address b) n w.storage).1 := rfl
  rw [hresult]
  cases hread : (S.read (address b) n w.storage).1 with
  | error e =>
    refine Or.inr ⟨⟨e, rfl⟩, fun hR => ?_⟩
    rw [hR.read hw hsafe hb hlength] at hread
    cases hread
  | ok b' =>
    refine Or.inl ⟨b', rfl, hwritten, fun he => hA.authentic hw hsafe hb hread he, fun hR => ?_⟩
    rw [hR.read hw hsafe hb hlength] at hread
    cases hread
    rfl

theorem writeRecord (hw : I w) (a : Digest) (b : List UInt8) :
    Ensures S I Safe (StorageM.writeRecord a b) w fun _ w' => (a, b) ∈ w'.written := by
  intro _
  have hrun : (StorageM.writeRecord a b).run S w = w.write S a b := rfl
  rw [hrun]
  rcases written_write S a b w with ⟨hok, hlog⟩ | ⟨⟨e, he⟩, _⟩
  · refine Or.inl ⟨(), hok, ?_⟩
    change (a, b) ∈ (w.write S a b).2.written
    rw [hlog]
    exact List.mem_cons_self
  · refine Or.inr ⟨⟨e, he⟩, fun hR => ?_⟩
    have hwrite := hR.write a b hw
    unfold World.write at he
    rcases hs : S.write a b w.storage with ⟨r, s⟩
    rw [hs] at hwrite he
    cases hwrite
    cases he

end Ensures

/-- In every world with these records the program ends with the outcome `x`, unless the storage
fails. -/
def Gives {σ α : Type} (S : ContextStorage σ) (I : World σ → Prop) (Safe : WriteLog → Prop)
    (log : WriteLog) (p : StorageM α) (x : Except ContextError α) : Prop :=
  ∀ w, I w → log ⊆ w.written → Safe (p.run S w).2.written →
    (p.run S w).1 = x ∨ (∃ e, (p.run S w).1 = .error e) ∧ ¬ Reliable S I Safe

namespace Gives
open StorageM

variable {σ α β : Type} {S : ContextStorage σ} {address : List UInt8 → Digest}
  {I : World σ → Prop} {Safe : WriteLog → Prop} {log log' : WriteLog}

theorem lift (x : Except ContextError α) : Gives S I Safe log (StorageM.lift x) x :=
  fun _ _ _ _ => Or.inl rfl

theorem pure (a : α) : Gives S I Safe log (Pure.pure a : StorageM α) (.ok a) := lift (.ok a)

theorem of_ensures {p : StorageM α} {a : α}
    (h : ∀ w, I w → log ⊆ w.written → Ensures S I Safe p w fun v _ => v = a) :
    Gives S I Safe log p (.ok a) := by
  intro w hw hsub hsafe
  rcases h w hw hsub hsafe with ⟨v, hv, rfl⟩ | herror
  · exact Or.inl hv
  · exact Or.inr herror

theorem bind (hA : Authentic S address I Safe) {p : StorageM α} {x : Except ContextError α}
    {f : α → StorageM β} {g : α → Except ContextError β} (hp : Gives S I Safe log p x)
    (hf : ∀ a, x = .ok a → Gives S I Safe log (f a) (g a)) :
    Gives S I Safe log (p >>= f) (x >>= g) := by
  intro w hw hsub hsafe
  have hinv := Ensures.invariant hA p hw
  have hgrow := List.Subset.trans hsub (written_subset_run S p w)
  have hbefore := hp w hw hsub
  rw [run_bind] at hsafe ⊢
  rcases hrun : p.run S w with ⟨r, w'⟩
  rw [hrun] at hsafe hinv hgrow hbefore
  cases r with
  | error e =>
    rcases hbefore hsafe with hx | ⟨_, hfault⟩
    · rw [← hx]
      exact Or.inl rfl
    · exact Or.inr ⟨⟨e, rfl⟩, hfault⟩
  | ok a =>
    rcases hbefore (hA.antitone (written_subset_run S (f a) w') hsafe) with hx | ⟨⟨e, he⟩, _⟩
    · rw [← hx]
      exact hf a hx.symm w' hinv hgrow hsafe
    · cases he

theorem bind_ok (hA : Authentic S address I Safe) {p : StorageM α} {a : α} {f : α → StorageM β}
    {x : Except ContextError β} (hp : Gives S I Safe log p (.ok a))
    (hf : Gives S I Safe log (f a) x) : Gives S I Safe log (p >>= f) x := by
  apply bind hA (g := fun _ => x) hp
  intro b hb
  cases hb
  exact hf

theorem reporting {p : StorageM α} {x : Except ContextError α} (hp : Gives S I Safe log p x) :
    Gives S I Safe log p.reporting x := by
  intro w hw hsub hsafe
  rw [written_run_reporting] at hsafe
  rw [fst_run_reporting]
  exact hp w hw hsub hsafe

/-- A read at the address of a logged record, where other bytes of that address are refused. -/
theorem readRecord_bind (hA : Authentic S address I Safe) {b : List UInt8} {n : ℕ}
    {f : List UInt8 → StorageM β} {x : Except ContextError β} (hb : (address b, b) ∈ log)
    (hlength : b.length ≤ n) (hf : Gives S I Safe log (f b) x)
    (hother : ∀ b', address b' ≠ address b → ∃ e, f b' = StorageM.lift (.error e)) :
    Gives S I Safe log (StorageM.readRecord (address b) n >>= f) x := by
  intro w hw hsub hsafe
  have hinv := Ensures.invariant hA (StorageM.readRecord (address b) n) hw
  have hread : Ensures S I Safe (StorageM.readRecord (address b) n) w _ :=
    Ensures.readRecord hA hw (hsub hb) hlength
  unfold Ensures at hread
  rw [run_bind] at hsafe ⊢
  have hlog : ((StorageM.readRecord (address b) n).run S w).2.written = w.written := rfl
  rcases hrun : (StorageM.readRecord (address b) n).run S w with ⟨r, w'⟩
  rw [hrun] at hsafe hinv hread hlog
  cases r with
  | error e =>
    rcases hread hsafe with ⟨v, hv, _⟩ | ⟨_, hfault⟩
    · cases hv
    · exact Or.inr ⟨⟨e, rfl⟩, hfault⟩
  | ok b' =>
    rcases hread (hA.antitone (written_subset_run S (f b') w') hsafe) with
      ⟨v, hv, _, hsame, hreliable⟩ | ⟨⟨e, he⟩, _⟩
    · cases hv
      by_cases haddress : address b' = address b
      · rw [hsame haddress] at hsafe ⊢
        rw [← hlog] at hsub
        exact hf w' hinv hsub hsafe
      · obtain ⟨e, he⟩ := hother b' haddress
        simp only [he, run_lift]
        refine Or.inr ⟨⟨e, rfl⟩, fun hR => haddress ?_⟩
        rw [hreliable hR]
    · cases he

end Gives
end Naome
