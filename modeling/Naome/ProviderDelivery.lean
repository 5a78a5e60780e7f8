import Naome.ProviderStream
import Naome.ProgramTransfer
import Mathlib.Data.Countable.Basic
import Mathlib.Logic.Encodable.Basic
import Mathlib.Logic.Equiv.List

/-!
# Deliveries of frames

A frame of the worker taken through the pipes and the supervisor to the parent, and a serialization
that gives chosen frames their texts.
-/
namespace Naome.Jobs.Process

instance countableString : Countable String := by
  have hnumber : Function.Injective Char.toNat := by
    intro c d h
    exact Char.ext (UInt32.toNat_inj.mp h)
  have := hnumber.countable
  have htext : Function.Injective String.toList := by
    intro x y h
    exact String.toList_inj.mp h
  exact htext.countable

deriving instance Countable for Phase
deriving instance Countable for Work
deriving instance Countable for Sample
deriving instance Countable for Output
deriving instance Countable for Frame

/-- A serialization that writes some frames as given texts. -/
theorem exists_codec (texts : Frame → Option (List UInt8))
    (hdistinct : ∀ f g text, texts f = some text → texts g = some text → f = g)
    (hnewline : ∀ f text, texts f = some text → newline ∉ text)
    (hnonzero : ∀ f text, texts f = some text → ∃ b ∈ text, b ≠ 0) (identity : Record → String)
    (closureObjects : ℕ) :
    ∃ toVec fromSlice, Codec.Lawful ⟨toVec, fromSlice, identity, closureObjects⟩ ∧
      ∀ f text, texts f = some text → toVec f = text := by
  classical
  obtain ⟨number, hnumber⟩ := exists_injective_nat Frame
  let toVec : Frame → List UInt8 := fun f => (texts f).getD (List.replicate (number f) 0)
  have hinjective : Function.Injective toVec := by
    intro f g h
    simp only [toVec] at h
    cases hf : texts f with
    | some text =>
      cases hg : texts g with
      | some text' =>
        rw [hf, hg] at h
        simp only [Option.getD_some] at h
        exact hdistinct f g text hf (h ▸ hg)
      | none =>
        rw [hf, hg] at h
        obtain ⟨b, hb, hne⟩ := hnonzero f text hf
        simp only [Option.getD_some, Option.getD_none] at h
        rw [h] at hb
        exact absurd (List.eq_of_mem_replicate hb) hne
    | none =>
      cases hg : texts g with
      | some text =>
        rw [hf, hg] at h
        obtain ⟨b, hb, hne⟩ := hnonzero g text hg
        simp only [Option.getD_some, Option.getD_none] at h
        rw [← h] at hb
        exact absurd (List.eq_of_mem_replicate hb) hne
      | none =>
        rw [hf, hg] at h
        exact hnumber (by simpa using congrArg List.length h)
  refine ⟨toVec, fun bytes => if h : ∃ f, toVec f ++ [newline] = bytes then some h.choose else none,
    ⟨?_, ?_⟩, ?_⟩
  · intro f hmem
    simp only [toVec] at hmem
    cases hf : texts f with
    | some text =>
      rw [hf] at hmem
      exact hnewline f text hf hmem
    | none =>
      rw [hf] at hmem
      exact absurd (List.eq_of_mem_replicate hmem) (by decide)
  · intro f
    have h : ∃ g, toVec g ++ [newline] = toVec f ++ [newline] := ⟨f, rfl⟩
    refine (dif_pos h).trans ?_
    exact congrArg some (hinjective (List.append_cancel_right h.choose_spec))
  · intro f text hf
    simp only [toVec, hf, Option.getD_some]

/-- Distinct frames with distinct texts, each one line of at most so many bytes. -/
@[reducible] def IsTable (table : List (Frame × List UInt8)) (length : ℕ) : Prop :=
  (table.map Prod.fst).Nodup ∧ (table.map Prod.snd).Nodup ∧
    ∀ e ∈ table, newline ∉ e.2 ∧ e.2.head? = some 123 ∧ e.2.length < length

/-- A serialization that writes the frames of a table as their texts. -/
theorem exists_codec_table {table : List (Frame × List UInt8)} {length : ℕ}
    (htable : IsTable table length) (identity : Record → String) (closureObjects : ℕ) :
    ∃ toVec fromSlice, Codec.Lawful ⟨toVec, fromSlice, identity, closureObjects⟩ ∧
      (∀ e ∈ table, toVec e.1 = e.2) ∧
      ∀ f ∈ table.map Prod.fst,
        (Codec.line ⟨toVec, fromSlice, identity, closureObjects⟩ f).length ≤ length := by
  obtain ⟨hframes, htexts, hline⟩ := htable
  let texts : Frame → Option (List UInt8) := fun f => (table.find? fun e => e.1 = f).map Prod.snd
  have hmem : ∀ f text, texts f = some text → (f, text) ∈ table := by
    intro f text h
    obtain ⟨e, he, rfl⟩ := Option.map_eq_some_iff.mp h
    have hfst : e.1 = f := by simpa using List.find?_some he
    rw [← hfst]
    exact List.mem_of_find?_eq_some he
  obtain ⟨toVec, fromSlice, hlawful, htoVec⟩ := exists_codec texts
    (fun f g text hf hg => congrArg Prod.fst
      (List.inj_on_of_nodup_map htexts (hmem f text hf) (hmem g text hg) rfl))
    (fun f text h => (hline _ (hmem f text h)).1) (fun f text h =>
      ⟨123, List.mem_of_head? (hline _ (hmem f text h)).2.1, by decide⟩)
    identity closureObjects
  have hfrom : ∀ e ∈ table, toVec e.1 = e.2 := by
    intro e he
    apply htoVec
    have hfound : (table.find? fun e' => e'.1 = e.1).isSome := by
      rw [List.find?_isSome]
      exact ⟨e, he, by simp⟩
    obtain ⟨e', he'⟩ := Option.isSome_iff_exists.mp hfound
    have hfst : e'.1 = e.1 := by simpa using List.find?_some he'
    have hsame := List.inj_on_of_nodup_map hframes (List.mem_of_find?_eq_some he') he hfst
    exact Option.map_eq_some_iff.mpr ⟨e', he', congrArg Prod.snd hsame⟩
  refine ⟨toVec, fromSlice, hlawful, hfrom, ?_⟩
  intro f hf
  obtain ⟨e, he, rfl⟩ := List.mem_map.mp hf
  simp only [Codec.line, List.length_append, List.length_singleton, hfrom e he]
  exact (hline e he).2.2

/-- The bytes of a literal, character by character. -/
theorem asciiBytes_ofList (text : List Char) :
    asciiBytes (String.ofList text) = text.map fun c => UInt8.ofNat c.toNat := by
  simp [asciiBytes]

/-- A node with room for a short attempt. -/
def smallHost : Host where
  activeJobBytes := 2 ^ 20
  residentJobs := 4
  terminalJobPage := 4
  providerStreamBytes := 2 ^ 14
  workers := [1, 1, 1, 1]
  closureBytes := 2 ^ 11
  proofBytes := 2 ^ 11
  failureDetailBytes := 2 ^ 10
  compatibility := "naome"
  developerTools := true
  accountKey := fun _ => 0
  configuration := fun _ => 0
  requestKey := fun _ _ _ => 0
  requestLen := fun _ _ _ => 256
  recordLen := fun _ => 512
  accountLen := fun _ => 128
  json := fun _ => asciiBytes "\x7b\"op\":\"seal\",\"proof\":0\x7d"
  compiles := fun _ => true
  isIdentity := fun _ => true
  streamed := fun _ => true
  representable := fun _ => true

/-- A running job of that node. -/
def smallRecord (input : Input) (work : MockWork) : Record where
  id := 1
  input := input
  binding := ⟨"snapshot", "policy", "naome", "selection"⟩
  provider := defaultProvider
  configuration := 0
  settings := ⟨⟨60000, 8⟩, work, .holdInFlight⟩
  createdMs := 0
  expiresMs := 60000
  accountedMs := 0
  spentMs := 0
  reservedUnits := 0
  checkpoint := 0
  state := .running
  result := none
  acknowledged := false
  failure := none

section Delivery

variable {host : Host} {codec : Codec} {program : Worker} {s : System} {f : Frame}

/-- Nothing is on its way. -/
structure Quiet (s : System) : Prop where
  queue : s.supervisor.queue = []
  fromWorker : s.fromWorker = []
  toParent : s.toParent = []
  partialBytes : s.parent.reader.partialBytes = []

/-- The worker is alive, the supervisor forwards, and each has read at most so many bytes. -/
structure Idle (s : System) (total : ℕ) : Prop extends Quiet s where
  running : s.supervisor.stage = .running
  alive : s.alive = true
  supervisorTotal : s.supervisor.total ≤ total
  readerTotal : s.parent.reader.total ≤ total

theorem Idle.setWorker {total : ℕ} (h : Idle s total) (worker : Worker) :
    Idle { s with worker := worker } total :=
  ⟨⟨h.queue, h.fromWorker, h.toParent, h.partialBytes⟩, h.running, h.alive, h.supervisorTotal,
    h.readerTotal⟩

variable (codec) in
theorem Codec.lineCharge_le (bytes : List UInt8) : codec.lineCharge bytes ≤ bytes.length := by
  unfold Codec.lineCharge
  split_ifs
  · exact Nat.zero_le _
  · exact le_rfl

theorem fill_line (hc : codec.Lawful) {reader : FrameReader} (hpending : reader.partialBytes = [])
    (hline : (codec.line f).length ≤ host.maxFrameBytes)
    (htotal : reader.total + codec.lineCharge (codec.line f) ≤ host.providerStreamBytes) :
    reader.fill host codec (codec.line f) = (.frame (codec.line f),
      ⟨[], reader.total + codec.lineCharge (codec.line f)⟩, (codec.line f).length) := by
  have hend : lineEnd (codec.line f) = (codec.line f).length := by
    rw [Codec.line, lineEnd_append (hc.newline_notMem f)]
    simp
  have hne : codec.line f ≠ [] := by simp [Codec.line]
  have hlast : (codec.line f).getLast? = some newline := by simp [Codec.line]
  unfold FrameReader.fill
  rw [if_neg hne, hend, hpending]
  simp only [List.length_nil, Nat.zero_add, List.nil_append, List.take_length, hlast, if_true]
  rw [if_neg (by omega), if_neg (by omega)]

/-- The reader after a line. -/
def FrameReader.after (codec : Codec) (reader : FrameReader) (f : Frame) : FrameReader :=
  ⟨[], reader.total + codec.lineCharge (codec.line f)⟩

theorem step_fill_executing (hc : codec.Lawful) {p : Parent} (hstage : p.stage = .reading)
    (hpending : p.reader.partialBytes = []) (hline : (codec.line f).length ≤ host.maxFrameBytes)
    (htotal : p.reader.total + codec.lineCharge (codec.line f) ≤ host.providerStreamBytes)
    (elapsed : ℕ) :
    p.step host codec (.fill (codec.line f) elapsed) =
      some ({ p with reader := p.reader.after codec f, frames := p.frames ++ [f] }.accept host codec
        elapsed f) := by
  simp [Parent.step, hstage, fill_line hc hpending hline htotal, Parent.readExecuting,
    hc.fromSlice_line, FrameReader.after]

theorem step_fill_draining (hc : codec.Lawful) {p : Parent} {completion : Option State}
    {result : Except String Output} (hstage : p.stage = .draining completion result)
    (hpending : p.reader.partialBytes = []) (hline : (codec.line f).length ≤ host.maxFrameBytes)
    (htotal : p.reader.total + codec.lineCharge (codec.line f) ≤ host.providerStreamBytes)
    (elapsed : ℕ) :
    p.step host codec (.fill (codec.line f) elapsed) =
      some ({ p with
        reader := p.reader.after codec f, drainFrames := p.drainFrames ++ [f] }.drain f) := by
  simp [Parent.step, hstage, fill_line hc hpending hline htotal, Parent.readDraining,
    hc.fromSlice_line, FrameReader.after]

/-- A frame of the worker is in the pipe to the parent. -/
def System.forwarded (codec : Codec) (s : System) (f : Frame) (next : Except String Unit → Worker) :
    System :=
  { s with
    supervisor := { s.supervisor with
      queue := [], total := s.supervisor.total + codec.lineCharge (codec.line f) }
    worker := next (.ok ())
    fromWorker := []
    toParent := codec.line f
    emitted := s.emitted ++ [f]
    passed := s.passed ++ [f]
    sent := s.sent ++ [f] }

/-- A frame of the worker has reached the execution of the parent. -/
def System.delivered (host : Host) (codec : Codec) (s : System) (f : Frame)
    (next : Except String Unit → Worker) : System :=
  { s.forwarded codec f next with
    parent := { s.parent with
      reader := s.parent.reader.after codec f
      frames := s.parent.frames ++ [f] }.accept host codec s.clock f
    toParent := [] }

theorem Idle.delivered {total : ℕ} (hidle : Idle s total) (next : Except String Unit → Worker) :
    Idle (s.delivered host codec f next) (total + (codec.line f).length) := by
  have hcharge := codec.lineCharge_le (codec.line f)
  have hreader : (s.delivered host codec f next).parent.reader = s.parent.reader.after codec f :=
    (Parent.same_accept s.clock f).reader
  refine ⟨⟨rfl, rfl, rfl, ?_⟩, hidle.running, hidle.alive, ?_, ?_⟩
  · rw [hreader]
    rfl
  · exact Nat.add_le_add hidle.supervisorTotal hcharge
  · rw [hreader]
    exact Nat.add_le_add hidle.readerTotal hcharge

theorem Runs.forward (hc : codec.Lawful) {total : ℕ} (hidle : Idle s total)
    {next : Except String Unit → Worker} (hworker : s.worker = .emit f next)
    (hresult : f.isResult = false) (hline : (codec.line f).length ≤ host.maxFrameBytes)
    (htotal : total + (codec.line f).length ≤ host.providerStreamBytes) :
    Runs host codec program s (s.forwarded codec f next) := by
  have hsupervisor : s.supervisor.total + codec.lineCharge (codec.line f) ≤
      host.providerStreamBytes :=
    (Nat.add_le_add hidle.supervisorTotal (codec.lineCharge_le _)).trans htotal
  have hend : lineEnd (codec.line f) = (codec.line f).length := by
    rw [Codec.line, lineEnd_append (hc.newline_notMem f)]
    simp
  have hnew : newline ∈ codec.line f := by simp [Codec.line]
  let s₁ : System := { s with
    worker := next (.ok ()), fromWorker := codec.line f, emitted := s.emitted ++ [f] }
  let s₂ : System := { s₁ with
    fromWorker := []
    supervisor := { s.supervisor with
      queue := [.provider (codec.line f)]
      total := s.supervisor.total + codec.lineCharge (codec.line f) } }
  have h₁ : Step host codec program s s₁ := by
    have hemits : Step host codec program s _ := .workerEmits hidle.alive hworker hline
    rwa [hidle.fromWorker, List.nil_append] at hemits
  have h₂ : Step host codec program s₁ s₂ := by
    have hreads : Step host codec program s₁ (s₁.readLine codec) := .supervisorReadsWorker hnew
      (by rw [hend]; exact hline) (by rw [hend, List.take_length]; exact hsupervisor)
    simpa [System.readLine, s₁, s₂, hend, hidle.queue] using hreads
  have h₃ : Step host codec program s₂ (s.forwarded codec f next) := by
    have hforwards : Step host codec program s₂ (s₂.forward codec (codec.line f) []) :=
      .supervisorForwards hidle.running rfl
    simpa [System.forward, System.dequeue, s₂, s₁, System.forwarded, hc.fromSlice_line, hresult,
      hidle.toParent] using hforwards
  exact ((Relation.ReflTransGen.single h₁).tail h₂).tail h₃

theorem Runs.deliver (hc : codec.Lawful) {total : ℕ} (hidle : Idle s total)
    {next : Except String Unit → Worker} (hworker : s.worker = .emit f next)
    (hreading : s.parent.stage = .reading) (hresult : f.isResult = false)
    (hline : (codec.line f).length ≤ host.maxFrameBytes)
    (htotal : total + (codec.line f).length ≤ host.providerStreamBytes) :
    Runs host codec program s (s.delivered host codec f next) ∧
      Idle (s.delivered host codec f next) (total + (codec.line f).length) := by
  refine ⟨(Runs.forward hc hidle hworker hresult hline htotal).tail ?_, hidle.delivered next⟩
  have hparent : s.parent.reader.total + codec.lineCharge (codec.line f) ≤
      host.providerStreamBytes :=
    (Nat.add_le_add hidle.readerTotal (codec.lineCharge_le _)).trans htotal
  have hfill := fill_line hc hidle.partialBytes hline hparent
  have hstep := step_fill_executing hc hreading hidle.partialBytes hline hparent s.clock
  rw [← List.take_length (l := codec.line f)] at hstep
  have hreads : Step host codec program (s.forwarded codec f next) _ :=
    .parentFill (codec.line f).length (by simp [Codec.line]) le_rfl hstep
  simpa [System.delivered, System.forwarded, hfill] using hreads

/-- A grant reaches the worker that waits for it. -/
theorem Runs.grant {total : ℕ} (hidle : Idle s total) (hparent : s.toSupervisor = [])
    (hpermits : s.toWorker = []) {unit : ℕ} {outstanding : Option ℕ}
    (hstage : s.parent.stage = .granting unit outstanding) {next : Option Permit → Worker}
    (hworker : s.worker = .receive next) :
    Runs host codec program s { s with
      parent := { s.parent with outstanding := outstanding, stage := .reading }
      worker := next (some ⟨s.id, unit⟩) } := by
  let permit : Permit := ⟨s.id, unit⟩
  let p : Parent := { s.parent with outstanding := outstanding, stage := .reading }
  let s₁ : System := { s with parent := p, toSupervisor := [permit] }
  let s₂ : System := { s with
    parent := p, supervisor := { s.supervisor with queue := [.parent permit] } }
  let s₃ : System := { s with parent := p, toWorker := [permit] }
  have h₁ : Step host codec program s s₁ := by
    have hgrants : Step host codec program s _ :=
      .parentGrant hstage (by simp only [Parent.step, hstage]; rfl)
    rwa [hparent, List.nil_append] at hgrants
  have h₂ : Step host codec program s₁ s₂ := by
    have hreads : Step host codec program s₁ _ := .supervisorReadsParent rfl
    simpa [System.enqueue, s₁, s₂, hparent, hidle.queue] using hreads
  have h₃ : Step host codec program s₂ s₃ := by
    have hgrants : Step host codec program s₂ _ := .supervisorGrants hidle.running rfl
    have hqueue : { s.supervisor with queue := [] } = s.supervisor := by
      rw [← hidle.queue]
    simpa [System.dequeue, s₂, s₃, hpermits, hqueue] using hgrants
  have h₄ : Step host codec program s₃ _ := .workerReceives hidle.alive hworker rfl
  have hrun := (((Relation.ReflTransGen.single h₁).tail h₂).tail h₃).tail h₄
  simpa [s₃, hpermits] using hrun

/-- The worker has just been spawned. -/
def System.spawned (record : Record) (program : Worker) : System :=
  { System.launched record .launched with
    parent := { Parent.launch record .launched with startDelivered := true, stage := .reading }
    supervisor := ⟨.running, [], 0, none⟩
    worker := program
    alive := true }

theorem idle_spawned (record : Record) : Idle (.spawned record program) 0 :=
  ⟨⟨rfl, rfl, rfl, rfl⟩, rfl, rfl, le_rfl, le_rfl⟩

theorem Runs.spawn (record : Record) :
    Runs host codec program (.launched record .launched) (.spawned record program) := by
  have hstart : Step host codec program (.launched record .launched) _ := .parentStart rfl
  exact (Relation.ReflTransGen.single hstart).tail (.supervisorSpawns rfl rfl)

variable (host program) in
/-- Without a result the supervisor confirms the cleanup of the worker and exits; the parent drains
the receipt and reaps the supervisor. -/
theorem Runs.close (hc : codec.Lawful) {total : ℕ} (hidle : Idle s total)
    {completion : Option State} {error : String}
    (hdraining : s.parent.stage = .draining completion (.error error))
    (hline : (codec.line (.cleanupComplete s.id)).length ≤ host.maxFrameBytes)
    (htotal : total + (codec.line (.cleanupComplete s.id)).length ≤ host.providerStreamBytes) :
    ∃ s', Runs host codec program s s' ∧ s'.emitted = s.emitted ∧
      s'.sent = s.sent ++ [.cleanupComplete s.id] ∧
      s'.parent.drainFrames = s.parent.drainFrames ++ [.cleanupComplete s.id] ∧
      s'.parent.cutShort = s.parent.cutShort ∧ s'.parent.stage = .ended (.error error) ∧
      s'.parent.disposition = completion.filter fun state => decide (state ≠ .inDoubt) := by
  let receipt := Frame.cleanupComplete s.id
  have hparent : s.parent.reader.total + codec.lineCharge (codec.line receipt) ≤
      host.providerStreamBytes :=
    (Nat.add_le_add hidle.readerTotal (codec.lineCharge_le _)).trans htotal
  let s₁ : System := { s with
    supervisor := { s.supervisor with stage := .cleaned }
    alive := false, toParent := codec.line receipt, sent := s.sent ++ [receipt] }
  have h₁ : Runs host codec program s s₁ := by
    have hleaves : Step host codec program s (s.supervise .finishing) := .supervisorLeaves hidle.running
    have hconfirms : Step host codec program (s.supervise .finishing) _ := .supervisorConfirms rfl
    have hstate : { (s.supervise .finishing).supervise .cleaned with alive := false }.send codec
        (.cleanupComplete s.id) = s₁ := by
      simp [System.send, System.supervise, hidle.toParent, s₁, receipt]
    exact (Relation.ReflTransGen.single hleaves).tail (hstate ▸ hconfirms)
  have hfill := fill_line hc hidle.partialBytes hline hparent
  let p₂ : Parent := { s.parent with
    reader := s.parent.reader.after codec receipt
    drainFrames := s.parent.drainFrames ++ [receipt]
    cleaned := true }
  have hread : s.parent.step host codec (.fill (codec.line receipt) s.clock) = some p₂ := by
    rw [step_fill_draining hc hdraining hidle.partialBytes hline hparent]
    exact congrArg some (if_pos rfl)
  have h₂ : Step host codec program s₁ { s₁ with parent := p₂, toParent := [] } := by
    have hreads : Step host codec program s₁ _ := .parentFill (codec.line receipt).length
      (by simp [Codec.line]) le_rfl (by rw [List.take_length]; exact hread)
    simpa [s₁, receipt, hfill] using hreads
  let s₃ : System := { s₁ with
    parent := p₂, toParent := [], supervisor := { s.supervisor with stage := .exited false } }
  have h₃ : Step host codec program { s₁ with parent := p₂, toParent := [] } s₃ := by
    have hexits : Step host codec program { s₁ with parent := p₂, toParent := [] } _ :=
      .supervisorExits (by simp [s₁]) [] (by simp)
    simpa [System.supervise, s₁, s₃] using hexits
  have h₄ : Step host codec program s₃
      { s₃ with parent := { p₂ with stage := .reaping completion (.error error) none } } := by
    refine .parentEnded rfl rfl ?_
    simp [Parent.step, s₃, p₂, hdraining, FrameReader.fill, FrameReader.after, Parent.readDraining,
      Parent.drained]
  refine ⟨_, (((h₁.tail h₂).tail h₃).tail h₄).tail (.parentReaps rfl rfl), rfl, rfl, ?_, ?_, ?_, ?_⟩
  all_goals simp [Parent.reap, p₂, receipt]

end Delivery

end Naome.Jobs.Process
