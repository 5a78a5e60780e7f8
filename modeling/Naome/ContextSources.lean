import Naome.ReadTransparency

/-!
# The contexts behind a read cache

A context in memory lends its formulas, a context on disk copies them. While nothing is written,
both answer every query the same way each time, through any stack of caches.
-/
namespace Naome
open LocallyNameless Outcome

namespace StorageM

variable {α β σ : Type}

/-- A program over storage whose answers are fixed. -/
def eval (reads : Digest → ℕ → Except ContextError (List UInt8))
    (writes : Digest → List UInt8 → Except ContextError Unit) : StorageM α → Except ContextError α
  | done r => r
  | read address maximum next => (next (reads address maximum)).eval reads writes
  | write address bytes next => (next (writes address bytes)).eval reads writes
  | recordFailure _ next => next.eval reads writes

end StorageM

/-- The storage gives these answers in every state. -/
structure ContextStorage.Fixed {σ : Type} (S : ContextStorage σ)
    (reads : Digest → ℕ → Except ContextError (List UInt8))
    (writes : Digest → List UInt8 → Except ContextError Unit) : Prop where
  read : ∀ address maximum s, (S.read address maximum s).1 = reads address maximum
  write : ∀ address bytes s, (S.write address bytes s).1 = writes address bytes

namespace StorageM

variable {α β σ : Type} {reads : Digest → ℕ → Except ContextError (List UInt8)}
  {writes : Digest → List UInt8 → Except ContextError Unit} {S : ContextStorage σ}

theorem fst_run_of_fixed (hS : S.Fixed reads writes) (p : StorageM α) (w : World σ) :
    (p.run S w).1 = p.eval reads writes := by
  induction p generalizing w with
  | done r => rfl
  | read address maximum next ih =>
    have hread : (w.read S address maximum).1 = reads address maximum := hS.read _ _ _
    rw [run, ih, hread, eval]
  | write address bytes next ih =>
    have hwrite : (w.write S address bytes).1 = writes address bytes := by
      rw [← hS.write address bytes w.storage, World.write]
      rcases S.write address bytes w.storage with ⟨r, s⟩
      cases r <;> rfl
    rw [run, ih, hwrite, eval]
  | recordFailure error next ih => exact ih _

theorem eval_bind (p : StorageM α) (f : α → StorageM β) :
    (p >>= f).eval reads writes = p.eval reads writes >>= fun a => (f a).eval reads writes := by
  change (p.bind f).eval reads writes = _
  induction p with
  | done r =>
    cases r with
    | ok a => rfl
    | error e => rfl
  | read address maximum next ih => exact ih _
  | write address bytes next ih => exact ih _
  | recordFailure error next ih => exact ih

theorem eval_reporting (p : StorageM α) :
    p.reporting.eval reads writes = p.eval reads writes := by
  induction p with
  | done r =>
    cases r with
    | ok a => rfl
    | error e => cases e <;> rfl
  | read address maximum next ih => exact ih _
  | write address bytes next ih => exact ih _
  | recordFailure error next ih => exact ih

@[simp] theorem eval_lift (r : Except ContextError α) : (lift r).eval reads writes = r := rfl

@[simp] theorem eval_pure (a : α) : (pure a : StorageM α).eval reads writes = .ok a := rfl

@[simp] theorem eval_readRecord (address : Digest) (maximum : ℕ) :
    (readRecord address maximum).eval reads writes = reads address maximum := rfl

end StorageM

namespace ArtifactState

variable (sha256 : List UInt8 → Digest)

/-- A citation in memory is the formula itself. -/
def programSource (s : ArtifactState) (id : ProofId) :
    Except ContextError (Option ProgramSource) :=
  match s.resolveProof id with
  | none => .ok none
  | some header => do
    require (header.length ≤ checkerMaxFormulaWorkBytes) .limit
    let formula ← s.statementFormula header.statement header.length
    let formula ← orError .corrupt formula
    return some (.of id header (.formula formula))

/-- The answers of a context in memory. -/
def fixedView (s : ArtifactState) : FixedView
  | .snapshotId => .ok (s.snapshotId sha256)
  | .containsArtifact id => (s.view sha256).containsArtifact id
  | .proofHeader id => .ok ((s.resolveProof id).map fun header => (header, none))
  | .programSource id => s.programSource id
  | .statementHeader id =>
    .ok ((s.knownStatement id).map fun p => (⟨p.1, p.2.canonicalLength⟩, none))
  | .statementFormula id maximum => s.statementFormula id maximum
  | .proofFormula header maximum => s.statementFormula header.1.statement maximum
  | .statementFormulaFromHeader id _ maximum => s.statementFormula id maximum
  | .bucket kind target => (s.view sha256).bucket kind target
  | .definitionCertificate id => (s.view sha256).definitionCertificate id

/-- Every answer of a context in memory is borrowed. -/
def source (s : ArtifactState) : ContextSource Unit where
  answer q := ⟨fun _ => ((s.fixedView sha256 q).map .borrowed, ())⟩

variable {sha256}

/-- Every stored conclusion has an encoding. -/
theorem Registered.withinLimits {proofs : List CheckedProof} {s : ArtifactState}
    (h : Registered sha256 proofs s) {id : StatementId} {stored : StoredStatement}
    (hstored : s.statements[id]? = some stored) : stored.conclusion.WithinLimits := by
  induction h generalizing stored with
  | empty => cases hstored
  | @proof proofs proofs₀ s s₀ s' P n bytes hs hs₀ hn hcheck hconsistent h ihs _ =>
    rw [(stores_of_register hs.wellFormed h).statements] at hstored
    rcases getElem?_insertIfNew_cases hstored with hstored | ⟨-, rfl⟩
    · exact ihs hstored
    · exact (Checker.canonical_of_checked hn hcheck).withinLimits
  | definition hs hnew h ih =>
    obtain ⟨_, -, h⟩ := bind_eq_ok.mp h
    cases pure_eq_ok.mp h
    exact ih hstored

theorem Registered.coherent {proofs : List CheckedProof} {s : ArtifactState}
    (h : Registered sha256 proofs s) : Coherent (s.fixedView sha256) where
  encodes hformula := by
    obtain ⟨stored, _, hstored, -, -, rfl⟩ := statementFormula_eq_some.mp hformula
    exact ⟨_, Formula.encodeCanonical_eq_ok.mpr ⟨h.withinLimits hstored, rfl⟩⟩
  fromHeader _ _ := rfl
  ofProof _ _ := rfl

theorem serves_source (s : ArtifactState) :
    Serves (s.fixedView sha256) (fun _ => True) (s.source sha256) := by
  intro q _ u _
  refine ⟨⟨?_, ?_⟩, trivial⟩
  · change ((s.fixedView sha256 q).map Cow.borrowed).map Cow.value = s.fixedView sha256 q
    cases s.fixedView sha256 q <;> rfl
  · intro v hv
    change (s.fixedView sha256 q).map Cow.borrowed = .ok (.owned v) at hv
    cases hq : s.fixedView sha256 q with
    | ok value => rw [hq] at hv; cases hv
    | error e => rw [hq] at hv; cases hv

end ArtifactState

namespace DiskArtifactState
open DiskArtifact StorageM

variable (sha256 : List UInt8 → Digest)

/-- The conclusion behind a header, which must say where it is. -/
def locatedFormula (s : DiskArtifactState) (id : StatementId) (location : Option FormulaLocation)
    (length maximum : ℕ) : StorageM (Option Formula) := do
  match location with
  | none => StorageM.reporting (lift (.error .corrupt))
  | some location => do
    let formula ← s.formulaAt sha256 id location length maximum
    return some formula

/-- A citation of a conclusion beyond the formula codec is its node in the graph. -/
def programSource (s : DiskArtifactState) (id : ProofId) : StorageM (Option ProgramSource) :=
    StorageM.reporting do
  match ← s.proofHeader sha256 id with
  | none => return none
  | some (header, location) =>
    if header.length = graphLength then do
      lift (require (graphStatementId sha256 location.address = header.statement) .corrupt)
      let known ← s.containsKey sha256 .programNodes location.address
      lift (require (known = true) .corrupt)
      return some (.of id header (.graph location.address))
    else do
      let formula ← s.formulaAt sha256 header.statement location header.length header.length
      return some (.of id header (.formula formula))

def answer (s : DiskArtifactState) : (q : ContextQuery) → StorageM q.Value
  | .snapshotId => return s.snapshotId sha256
  | .containsArtifact id => s.containsArtifact sha256 id
  | .proofHeader id => do
    let header ← s.proofHeader sha256 id
    return header.map fun p => (p.1, some p.2)
  | .programSource id => s.programSource sha256 id
  | .statementHeader id => do
    let header ← s.statementHeader sha256 id
    return header.map fun p => (p.1, some p.2)
  | .statementFormula id maximum => s.statementFormula sha256 id maximum
  | .proofFormula header maximum =>
    s.locatedFormula sha256 header.1.statement header.2 header.1.length maximum
  | .statementFormulaFromHeader id header maximum =>
    s.locatedFormula sha256 id header.2 header.1.length maximum
  | .bucket kind target => s.bucket sha256 kind target
  | .definitionCertificate id => s.definition sha256 id

/-- Every answer of a context on disk is a copy. -/
def source {σ : Type} (S : ContextStorage σ) (s : DiskArtifactState) : ContextSource (World σ) where
  answer q := ⟨fun w => ((((s.answer sha256 q).run S w).1).map .owned,
    ((s.answer sha256 q).run S w).2)⟩

/-- The answers of a context over storage with fixed answers. -/
def fixedView (reads : Digest → ℕ → Except ContextError (List UInt8))
    (writes : Digest → List UInt8 → Except ContextError Unit) (s : DiskArtifactState) : FixedView :=
  fun q => (s.answer sha256 q).eval reads writes

variable {sha256} {reads : Digest → ℕ → Except ContextError (List UInt8)}
  {writes : Digest → List UInt8 → Except ContextError Unit} {s : DiskArtifactState}

theorem length_of_statementRecord {id : StatementId} {address : Digest} {length : ℕ}
    (h : (s.statementRecord sha256 id).eval reads writes = .ok (some (address, length))) :
    length ≤ checkerMaxFormulaWorkBytes := by
  rw [statementRecord, eval_reporting, eval_bind] at h
  obtain ⟨record, -, h⟩ := bind_eq_ok.mp h
  cases record with
  | none => cases h
  | some record =>
    dsimp only at h
    rw [eval_bind, eval_lift] at h
    obtain ⟨⟨address', length'⟩, hdecode, h⟩ := bind_eq_ok.mp h
    have hlength : length' = length := by
      dsimp only at h
      split_ifs at h
      · simp only [eval_bind] at h
        obtain ⟨_, -, h⟩ := bind_eq_ok.mp h
        obtain ⟨_, -, h⟩ := bind_eq_ok.mp h
        obtain ⟨_, -, h⟩ := bind_eq_ok.mp h
        cases h
        rfl
      · cases h
        rfl
    subst hlength
    obtain ⟨_, -, hdecode⟩ := bind_eq_ok.mp hdecode
    obtain ⟨_, hle, hdecode⟩ := bind_eq_ok.mp hdecode
    obtain ⟨_, -, hdecode⟩ := bind_eq_ok.mp hdecode
    cases hdecode
    exact require_eq_ok.mp hle

/-- A read by identity once the record of the statement is known. -/
theorem eval_statementFormula {id : StatementId} {address : Digest} {length : ℕ}
    (h : (s.statementRecord sha256 id).eval reads writes = .ok (some (address, length)))
    (maximum : ℕ) :
    (s.statementFormula sha256 id maximum).eval reads writes =
      if length ≠ 0 ∧ length ≤ maximum then
        (readFormula sha256 id address length).eval reads writes >>= fun f => .ok (some f)
      else .error .limit := by
  rw [statementFormula, eval_reporting, eval_bind, h]
  change eval reads writes (_ >>= _) = _
  simp only [eval_bind, eval_lift, eval_pure]
  by_cases hlimit : length ≠ 0 ∧ length ≤ maximum
  · rw [require, if_pos hlimit, if_pos hlimit]
    rfl
  · rw [require, if_neg hlimit, if_neg hlimit]
    rfl

theorem exists_statementRecord {id : StatementId} {maximum : ℕ} {f : Formula}
    (h : (s.statementFormula sha256 id maximum).eval reads writes = .ok (some f)) :
    ∃ address length,
      (s.statementRecord sha256 id).eval reads writes = .ok (some (address, length)) := by
  rw [statementFormula, eval_reporting, eval_bind] at h
  obtain ⟨record, hrecord, h⟩ := bind_eq_ok.mp h
  cases record with
  | none => cases h
  | some p => exact ⟨p.1, p.2, hrecord⟩

theorem withinLimits_of_readFormula {id : StatementId} {address : Digest} {length : ℕ} {f : Formula}
    (h : (readFormula sha256 id address length).eval reads writes = .ok f) :
    f.WithinLimits ∧ f.canonicalBytes.length = length := by
  simp only [readFormula, eval_bind, eval_lift, eval_pure, eval_readRecord] at h
  obtain ⟨bytes, -, h⟩ := bind_eq_ok.mp h
  obtain ⟨_, hchecks, h⟩ := bind_eq_ok.mp h
  obtain ⟨g, hdecode, h⟩ := bind_eq_ok.mp h
  obtain ⟨_, -, h⟩ := bind_eq_ok.mp h
  cases h
  obtain ⟨hlimits, hbytes⟩ := Formula.decodeCanonical_eq_ok.mp (mapError_eq_ok.mp hdecode)
  exact ⟨hlimits, hbytes ▸ (require_eq_ok.mp hchecks).1⟩

/-- A read by header is the read by identity when the header names the stored record. -/
theorem eval_locatedFormula {id : StatementId} {address : Digest} {length : ℕ}
    (h : (s.statementRecord sha256 id).eval reads writes = .ok (some (address, length)))
    (maximum : ℕ) :
    (s.locatedFormula sha256 id (some ⟨address, s.snapshotId sha256⟩) (headerLength length)
      maximum).eval reads writes = (s.statementFormula sha256 id maximum).eval reads writes := by
  have hle := length_of_statementRecord h
  have hiff : (headerLength length ≠ graphLength ∧ headerLength length ≤ maximum) ↔
      (length ≠ 0 ∧ length ≤ maximum) := by
    unfold headerLength graphLength
    unfold checkerMaxFormulaWorkBytes certificateMaxBytes at hle
    split_ifs with hzero <;> omega
  rw [eval_statementFormula h]
  simp only [locatedFormula, formulaAt, eval_bind, eval_reporting, eval_lift, eval_pure]
  rw [require, if_pos trivial]
  by_cases hlimit : length ≠ 0 ∧ length ≤ maximum
  · have hlength : headerLength length = length := if_neg hlimit.1
    rw [require, if_pos (hiff.mpr hlimit), if_pos hlimit, hlength]
    rfl
  · rw [require, if_neg (mt hiff.mp hlimit), if_neg hlimit]
    rfl

theorem record_of_statementHeader {id : StatementId} {header : StatementHeader}
    {location : FormulaLocation}
    (h : (s.statementHeader sha256 id).eval reads writes = .ok (some (header, location))) :
    ∃ address length,
      (s.statementRecord sha256 id).eval reads writes = .ok (some (address, length)) ∧
        header.length = headerLength length ∧ location = ⟨address, s.snapshotId sha256⟩ := by
  rw [statementHeader, eval_reporting, eval_bind] at h
  obtain ⟨record, hrecord, h⟩ := bind_eq_ok.mp h
  cases record with
  | none => cases h
  | some p =>
    obtain ⟨address, length⟩ := p
    dsimp only at h
    simp only [eval_bind] at h
    obtain ⟨_, -, h⟩ := bind_eq_ok.mp h
    obtain ⟨_, -, h⟩ := bind_eq_ok.mp h
    obtain ⟨_, -, h⟩ := bind_eq_ok.mp h
    cases h
    exact ⟨address, length, hrecord, rfl, rfl⟩

theorem record_of_proofHeader {id : ProofId} {header : ProofHeader} {location : FormulaLocation}
    (h : (s.proofHeader sha256 id).eval reads writes = .ok (some (header, location))) :
    ∃ address length,
      (s.statementRecord sha256 header.statement).eval reads writes = .ok (some (address, length)) ∧
        header.length = headerLength length ∧ location = ⟨address, s.snapshotId sha256⟩ := by
  rw [proofHeader, eval_reporting, eval_bind] at h
  obtain ⟨record, -, h⟩ := bind_eq_ok.mp h
  cases record with
  | none => cases h
  | some p =>
    dsimp only at h
    simp only [eval_bind] at h
    obtain ⟨_, -, h⟩ := bind_eq_ok.mp h
    obtain ⟨_, -, h⟩ := bind_eq_ok.mp h
    obtain ⟨_, -, h⟩ := bind_eq_ok.mp h
    obtain ⟨_, -, h⟩ := bind_eq_ok.mp h
    obtain ⟨located, hlocated, h⟩ := bind_eq_ok.mp h
    obtain ⟨⟨address, length⟩, hsome, h⟩ := bind_eq_ok.mp h
    cases h
    rw [eval_lift] at hsome
    cases orError_eq_ok.mp hsome
    exact ⟨address, length, hlocated, rfl, rfl⟩

theorem fixedView_statementHeader {id : StatementId} {header : LocatedStatement}
    (h : s.fixedView sha256 reads writes (.statementHeader id) = .ok (some header)) :
    ∃ address length,
      (s.statementRecord sha256 id).eval reads writes = .ok (some (address, length)) ∧
        header.1.length = headerLength length ∧
        header.2 = some ⟨address, s.snapshotId sha256⟩ := by
  change ((s.statementHeader sha256 id >>= fun header => pure _).eval reads writes) = _ at h
  rw [eval_bind] at h
  obtain ⟨found, hfound, h⟩ := bind_eq_ok.mp h
  cases found with
  | none => cases h
  | some p =>
    cases h
    obtain ⟨address, length, hrecord, hlength, hlocation⟩ := record_of_statementHeader hfound
    exact ⟨address, length, hrecord, hlength, congrArg some hlocation⟩

theorem fixedView_proofHeader {id : ProofId} {header : LocatedProof}
    (h : s.fixedView sha256 reads writes (.proofHeader id) = .ok (some header)) :
    ∃ address length,
      (s.statementRecord sha256 header.1.statement).eval reads writes =
          .ok (some (address, length)) ∧
        header.1.length = headerLength length ∧
        header.2 = some ⟨address, s.snapshotId sha256⟩ := by
  change ((s.proofHeader sha256 id >>= fun header => pure _).eval reads writes) = _ at h
  rw [eval_bind] at h
  obtain ⟨found, hfound, h⟩ := bind_eq_ok.mp h
  cases found with
  | none => cases h
  | some p =>
    cases h
    obtain ⟨address, length, hrecord, hlength, hlocation⟩ := record_of_proofHeader hfound
    exact ⟨address, length, hrecord, hlength, congrArg some hlocation⟩

/-- Whatever the storage holds, the answers of a context on disk are coherent. -/
theorem coherent_fixedView (sha256 : List UInt8 → Digest)
    (reads : Digest → ℕ → Except ContextError (List UInt8))
    (writes : Digest → List UInt8 → Except ContextError Unit) (s : DiskArtifactState) :
    Coherent (s.fixedView sha256 reads writes) where
  encodes hformula := by
    obtain ⟨address, length, hrecord⟩ := exists_statementRecord hformula
    have heval := (eval_statementFormula hrecord _).symm.trans hformula
    split_ifs at heval
    obtain ⟨f, hf, heq⟩ := bind_eq_ok.mp heval
    cases heq
    exact ⟨_, Formula.encodeCanonical_eq_ok.mpr ⟨(withinLimits_of_readFormula hf).1, rfl⟩⟩
  fromHeader {id header} maximum hheader := by
    obtain ⟨address, length, hrecord, hlength, hlocation⟩ := fixedView_statementHeader hheader
    change (s.locatedFormula sha256 id header.2 header.1.length maximum).eval reads writes = _
    rw [hlength, hlocation]
    exact eval_locatedFormula hrecord maximum
  ofProof {id header} maximum hheader := by
    obtain ⟨address, length, hrecord, hlength, hlocation⟩ := fixedView_proofHeader hheader
    change (s.locatedFormula sha256 header.1.statement header.2 header.1.length maximum).eval
      reads writes = _
    rw [hlength, hlocation]
    exact eval_locatedFormula hrecord maximum

/-- A formula read from disk: its record fixes its length. -/
theorem copiedFormula {id : StatementId} {maximum : ℕ} {f : Formula}
    (h : s.fixedView sha256 reads writes (.statementFormula id maximum) = .ok (some f)) :
    ∃ length, CopiedFormula (s.fixedView sha256 reads writes) id length f := by
  obtain ⟨address, length, hrecord⟩ := exists_statementRecord h
  have heval := (eval_statementFormula hrecord maximum).symm.trans h
  split_ifs at heval with hlimit
  obtain ⟨g, hg, heq⟩ := bind_eq_ok.mp heval
  cases heq
  obtain ⟨hlimits, hbytes⟩ := withinLimits_of_readFormula hg
  have hle := length_of_statementRecord hrecord
  have hheader : headerLength length = length := if_neg hlimit.1
  refine ⟨length, ⟨_, Formula.encodeCanonical_eq_ok.mpr ⟨hlimits, rfl⟩, hbytes⟩, ?_, ?_, ?_, ?_⟩
  · unfold checkerMaxFormulaWorkBytes certificateMaxBytes at hle
    omega
  · intro maximum'
    refine (eval_statementFormula hrecord maximum').trans ?_
    by_cases hmax : length ≤ maximum'
    · rw [if_pos ⟨hlimit.1, hmax⟩, if_pos hmax, hg]
      rfl
    · rw [if_neg (fun h => hmax h.2), if_neg hmax]
  · intro header h'
    obtain ⟨address', length', hrecord', hlength, -⟩ := fixedView_statementHeader h'
    rw [hrecord] at hrecord'
    cases hrecord'
    exact hlength.trans hheader
  · intro proof header h' hstatement
    obtain ⟨address', length', hrecord', hlength, -⟩ := fixedView_proofHeader h'
    rw [hstatement, hrecord] at hrecord'
    cases hrecord'
    exact hlength.trans hheader

theorem length_of_definition {id : DefinitionId} {c : DefinitionCertificate}
    (h : (s.definition sha256 id).eval reads writes = .ok (some c)) :
    c.toCanonicalBytes.length * 64 + 512 < 2 ^ 64 := by
  rw [definition, eval_reporting, eval_bind] at h
  obtain ⟨record, -, h⟩ := bind_eq_ok.mp h
  cases record with
  | none => cases h
  | some record =>
    dsimp only at h
    simp only [eval_bind, eval_lift, eval_pure, eval_readRecord] at h
    obtain ⟨_, -, h⟩ := bind_eq_ok.mp h
    obtain ⟨bytes, -, h⟩ := bind_eq_ok.mp h
    obtain ⟨c', hdecode, h⟩ := bind_eq_ok.mp h
    obtain ⟨_, -, h⟩ := bind_eq_ok.mp h
    cases h
    obtain ⟨kind, body, -, -, rfl⟩ :=
      DefinitionCertificate.fromCanonicalBytes_eq_ok.mp (mapError_eq_ok.mp hdecode)
    obtain ⟨_, hle, -⟩ := bind_eq_ok.mp (mapError_eq_ok.mp hdecode)
    have hlength := require_eq_ok.mp hle
    unfold definitionMaxBytes formulaMaxBytes at hlength
    change bytes.length * 64 + 512 < 2 ^ 64
    omega

theorem serves_source {σ : Type} {S : ContextStorage σ} (hS : S.Fixed reads writes)
    (s : DiskArtifactState) :
    Serves (s.fixedView sha256 reads writes) (fun _ => True) (s.source sha256 S) := by
  intro q hq w _
  have hvalue : ((s.answer sha256 q).run S w).1 = s.fixedView sha256 reads writes q :=
    fst_run_of_fixed hS (s.answer sha256 q) w
  refine ⟨⟨?_, ?_⟩, trivial⟩
  · change (((s.answer sha256 q).run S w).1.map Cow.owned).map Cow.value = _
    rw [hvalue]
    cases s.fixedView sha256 reads writes q <;> rfl
  · intro v hv
    have hview : s.fixedView sha256 reads writes q = .ok v := by
      change ((s.answer sha256 q).run S w).1.map Cow.owned = .ok (.owned v) at hv
      rw [hvalue] at hv
      cases h : s.fixedView sha256 reads writes q with
      | error e => rw [h] at hv; cases hv
      | ok value => rw [h] at hv; cases hv; rfl
    have hcoherent := coherent_fixedView sha256 reads writes s
    cases q with
    | statementFormula id maximum =>
      intro f hf
      cases hf
      exact copiedFormula hview
    | proofFormula header maximum =>
      intro f hf
      cases hf
      obtain ⟨id, hheader⟩ := hq
      exact copiedFormula ((hcoherent.ofProof maximum hheader).symm.trans hview)
    | statementFormulaFromHeader id header maximum =>
      intro f hf
      cases hf
      exact copiedFormula ((hcoherent.fromHeader maximum hq).symm.trans hview)
    | definitionCertificate id =>
      intro c hc
      cases hc
      exact length_of_definition hview
    | snapshotId => trivial
    | containsArtifact id => trivial
    | proofHeader id => trivial
    | programSource id => trivial
    | statementHeader id => trivial
    | bucket kind target => trivial

end DiskArtifactState
/-- The states of a source behind caches with these limits. -/
def Stacked (σ : Type) : List ReadCacheLimits → Type
  | [] => σ
  | _ :: inner => Stacked σ inner × ReadCache

/-- A source behind a read cache for each of the limits, the first one outermost. -/
def stacked {σ : Type} (source : ContextSource σ) :
    (limits : List ReadCacheLimits) → ContextSource (Stacked σ limits)
  | [] => source
  | outer :: inner => readContext outer (stacked source inner)

/-- The caches start empty. -/
def Stacked.new {σ : Type} (s : σ) : (limits : List ReadCacheLimits) → Stacked σ limits
  | [] => s
  | outer :: inner => (Stacked.new s inner, .new outer)

/-- Operations over a stack of caches compute what they compute from the view. -/
theorem run_stacked {σ α : Type} {view : FixedView} {source : ContextSource σ}
    (hserves : Serves view (fun _ => True) source) (hcoherent : Coherent view) (s : σ)
    (limits : List ReadCacheLimits) {program : ContextProgram α}
    (hauthentic : program.Authentic view) :
    (program.run (stacked source limits) (Stacked.new s limits)).1 = program.eval view := by
  have hstack : ∃ I : Stacked σ limits → Prop,
      Serves view I (stacked source limits) ∧ I (Stacked.new s limits) := by
    induction limits with
    | nil => exact ⟨fun _ => True, hserves, trivial⟩
    | cons outer inner ih =>
      obtain ⟨I, hinner, hnew⟩ := ih
      exact ⟨CachedState view I, serves_readContext hinner hcoherent, hnew,
        resident_new view outer⟩
  obtain ⟨I, hI, hnew⟩ := hstack
  exact hI.run hauthentic hnew

/-- **Read caches are transparent.** For a context in memory, and for a context on disk whose
storage gives fixed answers, whatever it holds: every operation that passes on only headers it
may have read has the result that the context itself gives, through any stack of caches with
any limits. -/
theorem readCache_transparent {α : Type} (sha256 : List UInt8 → Digest)
    (limits : List ReadCacheLimits) (program : ContextProgram α) :
    (∀ proofs s, ArtifactState.Registered sha256 proofs s → program.Authentic (s.fixedView sha256) →
      (program.run (stacked (s.source sha256) limits) (Stacked.new () limits)).1 =
        program.eval (s.fixedView sha256)) ∧
    ∀ {σ : Type} (S : ContextStorage σ) (reads : Digest → ℕ → Except ContextError (List UInt8))
      (writes : Digest → List UInt8 → Except ContextError Unit) (s : DiskArtifactState)
      (w : World σ), S.Fixed reads writes → program.Authentic (s.fixedView sha256 reads writes) →
      (program.run (stacked (s.source sha256 S) limits) (Stacked.new w limits)).1 =
        program.eval (s.fixedView sha256 reads writes) := by
  constructor
  · intro proofs s hs hauthentic
    exact run_stacked (ArtifactState.serves_source s) hs.coherent () limits hauthentic
  · intro σ S reads writes s w hS hauthentic
    exact run_stacked (DiskArtifactState.serves_source hS s)
      (DiskArtifactState.coherent_fixedView sha256 reads writes s) w limits hauthentic

/-- A storage that answers from a log and keeps nothing. -/
def logStorage (log : WriteLog) : ContextStorage Unit where
  read address maximum _ := ((memoryStorage.read address maximum log).1, ())
  write _ _ _ := (.ok (), ())
  recordFailure _ _ := ()

theorem fixed_logStorage (log : WriteLog) : (logStorage log).Fixed
    (fun address maximum => (memoryStorage.read address maximum log).1) fun _ _ => .ok () :=
  ⟨fun _ _ _ => rfl, fun _ _ _ => rfl⟩

/-- What an operation has read of one proof and one definition. -/
structure Reading where
  formula : Option Formula
  again : Option Formula
  certificate : Option (List UInt8)
  absent : Bool
  statement : Option StatementId
  deriving DecidableEq

/-- Reads a proof header, its formula twice, a definition, two absent headers and the first header
again. -/
def reading (proof : ProofId) (definition : DefinitionId) : ContextProgram (Option Reading) :=
  .ask (.proofHeader proof) fun
    | .ok (some header) => .ask (.proofFormula header 4096) fun formula =>
      .ask (.statementFormula header.1.statement 4096) fun again =>
      .ask (.definitionCertificate definition) fun certificate =>
      .ask (.proofHeader 0) fun first =>
      .ask (.proofHeader 1) fun second =>
      .ask (.proofHeader proof) fun known =>
      .done (some ⟨formula.toOption.join, again.toOption.join,
        certificate.toOption.join.map DefinitionCertificate.canonical,
        first.toOption.join.isNone && second.toOption.join.isNone,
        known.toOption.join.map fun header => header.1.statement⟩)
    | _ => .done none

theorem authentic_reading (view : FixedView) (proof : ProofId) (definition : DefinitionId) :
    (reading proof definition).Authentic view := by
  refine ⟨trivial, ?_⟩
  rcases h : view (.proofHeader proof) with e | _ | header
  · trivial
  · trivial
  · exact ⟨⟨proof, h⟩, trivial, trivial, trivial, trivial, trivial, trivial⟩

namespace Sample

theorem registered_calls : ∃ proofs,
    ArtifactState.Registered sampleDigest proofs
      (ArtifactState.performAll sampleDigest calls .empty).2 := by
  have hconsistent : ArtifactState.Consistent .empty .empty :=
    ⟨fun _ _ _ h => (nomatch h), fun _ _ _ h => (nomatch h)⟩
  have haccepted := accepted_calls
  simp only [calls, ArtifactState.performAll] at haccepted ⊢
  obtain ⟨_, hproof⟩ := haccepted _ List.mem_cons_self
  obtain ⟨⟨s, bytes⟩, hproof, -⟩ := map_eq_ok.1 hproof
  rw [hproof] at haccepted ⊢
  obtain ⟨_, hdefinition⟩ := haccepted _ (List.mem_cons_of_mem _ List.mem_cons_self)
  obtain ⟨⟨s', bytes'⟩, hdefinition, -⟩ := map_eq_ok.1 hdefinition
  change s.perform sampleDigest (.definition definition) = _ at hdefinition
  have hs : ArtifactState.Registered sampleDigest [proof] s :=
    .proof .empty .empty valid_normalForm check_normalForm hconsistent (.inr hproof)
  obtain ⟨_, hregister, heq⟩ := map_eq_ok.1 hdefinition
  cases heq
  refine ⟨[proof], ?_⟩
  change ArtifactState.Registered sampleDigest [proof]
    (s.after (s.perform sampleDigest (.definition definition)))
  rw [hdefinition]
  exact .definition hs new_certificate hregister

/-- The context on disk that has accepted the calls. -/
def disk : DiskArtifactState :=
  match registered.1 with
  | .ok r => r.2
  | .error _ => .new

end Sample

open Sample in
/-- A registered proof and definition, read through a cache with room for two headers and two
records over a cache that is off. The second formula is resident; the absent headers displace that
of the proof. -/
theorem readCache_transparent_registered :
    let limits : List ReadCacheLimits := [⟨2, 1048576⟩, ⟨0, 0⟩]
    let operation := reading proof.proofId definition.definitionId
    let memory := (ArtifactState.performAll sampleDigest calls .empty).2
    let log := registered.2.written
    let run := operation.run (stacked (disk.source sampleDigest (logStorage log)) limits)
      (Stacked.new ⟨(), []⟩ limits)
    (operation.run (stacked (memory.source sampleDigest) limits) (Stacked.new () limits)).1 =
        operation.eval (memory.fixedView sampleDigest) ∧
      run.1 = operation.eval (disk.fixedView sampleDigest
        (fun address maximum => (memoryStorage.read address maximum log).1) fun _ _ => .ok ()) ∧
      (run.1, run.2.2.parsed.map Option.isSome, run.2.2.proofs.keys) =
        (some ⟨some proof.conclusion, some proof.conclusion, some certificate.canonical, true,
          some proof.statementId⟩, [true, true], [1, proof.proofId]) := by
  obtain ⟨proofs, hregistered⟩ := registered_calls
  refine ⟨(readCache_transparent sampleDigest _ _).1 proofs _ hregistered (authentic_reading _ _ _),
    (readCache_transparent sampleDigest _ _).2 (logStorage _) _ _ disk ⟨(), []⟩ (fixed_logStorage _)
      (authentic_reading _ _ _), ?_⟩
  decide +kernel

end Naome
