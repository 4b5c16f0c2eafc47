/-
Grevm.Scheduler.FreshReads — an incarnation over a final prefix.

Everything before transaction `f` is final. An incarnation of `f` then
meets no estimate, and every read it records still resolves to the version
it has recorded (`callStep_fresh`): the columns it reads do not change
under it. It ends in an abort at the head of the block, or it stores a
result whose read set holds (`Round.brings_stored`), and a validation of
such a result finds no conflict (`Round.stored_step`).
-/
import Grevm.Scheduler.Results
import Grevm.Scheduler.Rounds

namespace Grevm

variable {Err W R : Type} {B : Backing Err}

/-! ## Reads over published columns -/

/-- Everything before `t` is published completely. -/
structure CleanBelow (mv : MVMemory) (history : Nat → EntryState) (t : Nat) : Prop where
  kinded : mv.Kinded
  readable : ∀ j l e, j < t → mv l j = some e → e.estimate = false
  recorded : ∀ j, j < t → ∃ effect, (history j).value = .exact effect

section

variable {mv : MVMemory} {history : Nat → EntryState} {anchor : Option AccountInfo} {t : Nat}
  {db db' : IncarnationDb}

/-- The incarnation of `t` is not blocked, and its reads hold. -/
structure IncarnationDb.Fresh (mv : MVMemory) (history : Nat → EntryState)
    (anchor : Option AccountInfo) (t : Nat) (db : IncarnationDb) : Prop where
  unblocked : db.blockingTxs = []
  reads : readSetHolds mv history anchor t db.readSet = true

/-- What a read in progress has found so far. -/
def CallPc.Fresh (mv : MVMemory) (history : Nat → EntryState) (anchor : Option AccountInfo)
    (t : Nat) : CallPc B → Prop
  | .basicScan _ scan => Walked history anchor t scan
  | .basicBacking address _ => MVMemory.latestBefore (mv (.basic address)) t = none
  | .codeBacking address _ _ => MVMemory.latestBefore (mv (.code address)) t = none
  | _ => True

theorem CleanBelow.lookup_eq (h : CleanBelow mv history t) (l : LocationAndType) :
    lookup mv t l = MVMemory.latestBefore (mv l) t := by
  unfold lookup
  cases hfound : MVMemory.latestBefore (mv l) t with
  | none => rfl
  | some found =>
    have hkind := h.kinded l found.1 found.2 (MVMemory.latestBefore_entry hfound)
    simp [hkind]

theorem IncarnationDb.Fresh.recordRead (h : db.Fresh mv history anchor t) {l : LocationAndType}
    {version : ReadVersion} (hread : readHolds mv history anchor t l version = true) :
    (db.recordRead l version).Fresh mv history anchor t where
  unblocked := h.unblocked
  reads := by
    refine List.all_eq_true.mpr fun e he => ?_
    rcases List.mem_cons.mp he with rfl | he
    · exact hread
    · exact List.all_eq_true.mp h.reads e ((List.kerase_sublist _ _).subset he)

theorem IncarnationDb.Fresh.snapshot (h : db.Fresh mv history anchor t) {address : Address}
    {account : Option AccountInfo} : (db.snapshot address account).Fresh mv history anchor t := by
  cases account with
  | none => exact h
  | some info => exact ⟨h.unblocked, h.reads⟩

/-- A location that nobody before `t` has written is read from the backing
state. -/
theorem readHolds_storage {l : LocationAndType} (h : MVMemory.latestBefore (mv l) t = none) :
    readHolds mv history anchor t l .storage = true := by
  simp [readHolds, checkRead, h]

theorem CleanBelow.look (h : CleanBelow mv history t) (hdb : db.Fresh mv history anchor t)
    (l : LocationAndType) : (db.look l (lookup mv t l)).Fresh mv history anchor t := by
  rw [h.lookup_eq l]
  cases hfound : MVMemory.latestBefore (mv l) t with
  | none => exact hdb.recordRead (readHolds_storage hfound)
  | some found =>
    obtain ⟨j, e⟩ := found
    have hestimate := h.readable j l e (MVMemory.latestBefore_lt hfound)
      (MVMemory.latestBefore_entry hfound)
    simp only [IncarnationDb.look, IncarnationDb.blockOn, hestimate, Bool.false_eq_true, if_false]
    exact hdb.recordRead (by simp [readHolds, checkRead, hfound, hestimate])

/-- A walk that has come to its end is the walk of the whole history. -/
theorem Walked.validate_of_done {scan : ScanState} {found : HistoryScan}
    (h : Walked history anchor t scan) (hdone : scan.step anchor history = .done found)
    (expected : BeneficiaryReadVersion) :
    validateBeneficiary history anchor t expected = found.validate expected := by
  have heq : scanBefore history anchor t = .ok found := by
    rw [h.scanBefore_eq, scanFrom_eq_step, hdone]
  simp [validateBeneficiary, heq]

theorem Walked.validate_of_blocked {scan : ScanState} {writer : Nat}
    (h : Walked history anchor t scan) (hblocked : scan.step anchor history = .blocked writer)
    (expected : BeneficiaryReadVersion) :
    (validateBeneficiary history anchor t expected).valid = false := by
  have heq : scanBefore history anchor t = .error writer := by
    rw [h.scanBefore_eq, scanFrom_eq_step, hblocked]
  simp [validateBeneficiary, heq]

/-- Over published columns the walk is not blocked. -/
theorem CleanBelow.not_blocked (h : CleanBelow mv history t) {scan : ScanState} {writer : Nat}
    (hwalked : Walked history anchor t scan) :
    scan.step anchor history ≠ .blocked writer := by
  intro hblocked
  have hle := hwalked.writer_le
  unfold ScanState.step at hblocked
  split at hblocked
  · cases hblocked
  · rename_i writer' hwriter
    obtain ⟨effect, heffect⟩ := h.recorded writer' (by omega)
    rw [heffect] at hblocked
    cases effect <;> cases hblocked

theorem fresh_finishBasic {address : Address} {account : Option AccountInfo} {pc : CallPc B}
    (h : finishBasic address account = .inl pc) : pc.Fresh mv history anchor t := by
  unfold finishBasic at h
  split at h
  · split at h <;> cases h
    trivial
  · cases h

/-- **Every read over published columns holds.** -/
theorem callStep_fresh {pc : CallPc B} {backing backing' : B.State}
    {result : CallPc B ⊕ Except Err Value} (h : CleanBelow mv history t)
    (hdb : db.Fresh mv history anchor t) (hpc : pc.Fresh mv history anchor t)
    (hstep : callStep anchor t mv history backing db pc = (backing', db', result)) :
    db'.Fresh mv history anchor t ∧
      ∀ pc', result = .inl pc' → pc'.Fresh mv history anchor t := by
  -- a step that keeps the scratch state goes to a point with its own fact
  have same : ∀ {point : CallPc B}, point.Fresh mv history anchor t → ∀ pc',
      (.inl point : CallPc B ⊕ Except Err Value) = .inl pc' → pc'.Fresh mv history anchor t := by
    intro point hpoint pc' heq
    cases heq
    exact hpoint
  cases callStep_sound hstep with
  | visit hscan => exact ⟨hdb, same (Walked.more hpc hscan)⟩
  | resolve hscan hnext =>
    refine ⟨(hdb.recordRead ?_).snapshot, fun pc' hpc' => fresh_finishBasic (hnext.trans hpc')⟩
    simp only [readHolds, Walked.validate_of_done hpc hscan, HistoryScan.validate,
      beq_self_eq_true]
  | block hscan => exact absurd hscan (h.not_blocked hpc)
  | @basicHit address _ _ _ _ hl _ hnext =>
    have hlook := h.look hdb (.basic address)
    rw [hl] at hlook
    exact ⟨hlook.snapshot, fun pc' hpc' => fresh_finishBasic (hnext.trans hpc')⟩
  | basicMiss hl | codeMiss hl => exact ⟨hdb, same ((h.lookup_eq _).symm.trans hl)⟩
  | basicMore | codeMore | storageMore => exact ⟨hdb, same hpc⟩
  | basicFails | codeFails | storageFails | storageLoads => exact ⟨hdb, by simp⟩
  | basicLoads _ hnext =>
    exact ⟨hdb.snapshot.recordRead (readHolds_storage hpc),
      fun pc' hpc' => fresh_finishBasic (hnext.trans hpc')⟩
  | @codeHit address _ _ _ _ hl _ =>
    have hlook := h.look hdb (.code address)
    rw [hl] at hlook
    exact ⟨hlook, by simp⟩
  | codeLoads => exact ⟨hdb.recordRead (readHolds_storage hpc), by simp⟩
  | reset | slotMiss => exact ⟨h.look hdb _, same trivial⟩
  | slotHit | slotCleared => exact ⟨h.look hdb _, by simp⟩

end

/-! ## An incarnation of `f` -/

section

variable {blk : Block Err R} {s s' : Shared W R B} {v : TxVersion} {p' : WorkerPc R B} {t : Nat}

/-- The read set of the stored result holds. -/
def ReadsHold (blk : Block Err R) (s : Shared W R B) (t : Nat) : Prop :=
  ∃ r, s.txResults t = some r ∧
    readSetHolds s.mvMemory s.history blk.anchor t r.readSet = true

/-- An incarnation of `t` that has met no estimate: its reads hold, and if
it has failed it is about to raise the abort flag. -/
def ExecPc.Gathering (blk : Block Err R) (s : Shared W R B) (t : Nat) : ExecPc R B → Prop
  | .running db _ pc => db.Fresh s.mvMemory s.history blk.anchor t ∧
    pc.Fresh s.mvMemory s.history blk.anchor t
  | .publishing db _ _ | .errMarking db _ _ | .errRecording db _ =>
    db.Fresh s.mvMemory s.history blk.anchor t
  | .removing e _ | .recording e | .releasing e _ | .settling e _ =>
    e.db.Fresh s.mvMemory s.history blk.anchor t
  | .errHead _ => True
  | .errAbort _ pc => pc = .reason ∨ pc = .flag
  | .frontier tail _ => ReadsHold blk s t ∧ tail ≠ .conflict
  | _ => False

theorem readSetHolds_quiet {anchor : Option AccountInfo} {readSet : ReadSet}
    (hq : QuietBelow s s' t)
    (h : readSetHolds s.mvMemory s.history anchor t readSet = true) :
    readSetHolds s'.mvMemory s'.history anchor t readSet = true :=
  List.all_eq_true.mpr fun e he => readHolds_quiet hq (List.all_eq_true.mp h e he)

theorem IncarnationDb.Fresh.quiet {anchor : Option AccountInfo} {db : IncarnationDb}
    (h : db.Fresh s.mvMemory s.history anchor t) (hq : QuietBelow s s' t) :
    db.Fresh s'.mvMemory s'.history anchor t where
  unblocked := h.unblocked
  reads := readSetHolds_quiet hq h.reads

theorem fresh_start {mv : MVMemory} {history : Nat → EntryState} {anchor : Option AccountInfo}
    (beneficiary : Address) (call : Call) :
    (call.start beneficiary t : CallPc B).Fresh mv history anchor t := by
  cases call with
  | basic address =>
    simp only [Call.start]
    split
    · exact .start
    · trivial
  | storage address index => trivial

theorem gathering_enterExec {s₀ : Shared W R B} {db : IncarnationDb} {prog : Prog Err R}
    (h : db.Fresh s.mvMemory s.history blk.anchor t) :
    (enterExec blk s₀ t db prog : ExecPc R B).Gathering blk s t := by
  cases prog with
  | read call k => exact ⟨h, fresh_start blk.beneficiary call⟩
  | done result => cases result <;> exact h

/-- **An incarnation over a final prefix gathers reads that hold.** It ends
with a stored result, or at the head of the block with the abort flag
raised. -/
theorem ExecStep.gathering {pc : ExecPc R B} (h : ExecStep blk s v pc s' p')
    (hclean : CleanBelow s.mvMemory s.history v.txid) (hq : QuietBelow s s' v.txid)
    (hcommitted : s.ctx.committed = v.txid)
    (hok : ∀ message pc', p' ≠ .exec v (.parallelError message pc'))
    (hpc : pc.Gathering blk s v.txid) (hstop : ∀ tail pc', pc ≠ .frontier tail pc') :
    s'.abort = true ∨ ∃ pc', p' = .exec v pc' ∧ pc'.Gathering blk s' v.txid := by
  cases h
  case read h =>
    obtain ⟨hdb', hpc'⟩ := callStep_fresh hclean hpc.1 hpc.2 h
    exact .inr ⟨_, rfl, hdb', hpc' _ rfl⟩
  case answer h =>
    obtain ⟨hdb', -⟩ := callStep_fresh hclean hpc.1 hpc.2 h
    exact .inr ⟨_, rfl, gathering_enterExec hdb'⟩
  case publish | chooseAccount | errMark | errMarked |
      compare | unpublish | unpublished | recordExact | release | released =>
    exact .inr ⟨_, rfl, IncarnationDb.Fresh.quiet hpc hq⟩
  case recordEstimate hb _ =>
    simp [IncarnationDb.isBlocked, IncarnationDb.Fresh.unblocked hpc] at hb
  case recordStale | errStale => exact absurd rfl (hok _ _)
  case settle e next =>
    refine .inr ⟨_, rfl, ⟨_, Function.update_self .., ?_⟩, ?_⟩
    · exact readSetHolds_quiet hq (IncarnationDb.Fresh.reads hpc)
    · rw [show e.db.isBlocked = false by
        simp [IncarnationDb.isBlocked, IncarnationDb.Fresh.unblocked hpc]]
      cases next <;> cases e.writeNewLocations <;> simp
  case errRecord db error entry _ =>
    refine .inr ⟨_, rfl, ?_⟩
    simp [IncarnationDb.isBlocked, IncarnationDb.Fresh.unblocked hpc, ExecPc.Gathering]
  case errAtHead => exact .inr ⟨_, rfl, .inl rfl⟩
  case errBehind hne => exact absurd hcommitted hne
  case errAbort reason pc pc' h =>
    rcases hpc with rfl | rfl
    · cases h
      exact .inr ⟨_, rfl, .inr rfl⟩
    · cases h
      exact .inl rfl
  case errAborted h =>
    rcases hpc with rfl | rfl <;> cases h
  case frontier | frontierFinish | frontierRewind => exact absurd rfl (hstop _ _)
  all_goals cases hpc

end

namespace Round

variable [DecidableEq W] {blk : Block Err R} {backing : B.State} {σ : SchedulerState W R B}
  {s' : Shared W R B} {p' : WorkerPc R B} {w : W} {f : Nat}

/-- What is final is published completely. -/
theorem clean (h : Round blk backing f w σ) :
    CleanBelow σ.shared.mvMemory σ.shared.history f where
  kinded := (kinded_of_reach h.reach).entries
  readable j l e hj he := ((h.core.published_of_final (h.final hj)).exact l e he).1
  recorded j hj := by
    obtain ⟨effect, heffect⟩ := (h.core.published_of_final (h.final hj)).entry
    exact ⟨effect, congrArg EntryState.value heffect⟩

/-- The worker does not change what is final. -/
theorem quiet (h : Round blk backing f w σ)
    (hstep : WorkerStep blk w σ.shared (σ.workers w) s' p') : QuietBelow σ.shared s' f := by
  intro t ht
  rw [(h.core.worker_sameAt hstep (h.final ht)).1]
  exact .of_eq rfl rfl

/-- After its step the worker is not about to report an inconsistency. -/
theorem not_parallelError (h : Round blk backing f w σ) {c : Nat}
    (hstep : workerStep blk w σ.shared (σ.workers w) c = some (s', p')) :
    (∀ v message pc, p' ≠ .exec v (.parallelError message pc)) ∧
      ∀ v message pc, p' ≠ .val v (.parallelError message pc) := by
  have howned := (h.step hstep).core.owned w
  simp only [Function.update_self] at howned
  constructor
  · rintro v message pc rfl
    exact (howned v rfl).2
  · rintro v message pc rfl
    exact (howned v rfl).2

variable (hB : Responsive B)
  (hapart : ∀ t, (blk.spec t).Yields (SpeculativeResult.RewardApart blk.beneficiary))

include hB hapart

/-- **A new incarnation of `f` stores a result whose reads hold.** -/
theorem brings_stored {v : TxVersion} (h : Round blk backing f w σ)
    (hw : σ.workers w = .task (.execution v)) (hv : v.txid = f)
    (hindex : f ≤ σ.shared.txDependency.index) (hvalidation : f ≤ σ.shared.ctx.validation) :
    Brings blk backing f w (fun σ' => (∃ tail pc, σ'.workers w = .exec v (.frontier tail pc) ∧
      tail ≠ .conflict) ∧ ReadsHold blk σ'.shared f ∧ f ≤ σ'.shared.txDependency.index ∧
        f ≤ σ'.shared.ctx.validation) σ := by
  subst hv
  let P (s : Shared W R B) (p : WorkerPc R B) :=
    p = .task (.execution v) ∨ ∃ pc, p = .exec v pc ∧ pc.Gathering blk s v.txid
  have hP : P σ.shared (σ.workers w) := .inl hw
  refine (h.brings_bounded hB hapart (fun p => ∃ v tail pc, p = .exec v (.frontier tail pc))
    (Nat.le_refl _) (Nat.le_refl _) (by rw [hw]; trivial) hindex hvalidation hP ?_).imp
    fun σ' h' _ hσ' => ?_
  · intro σ s' p' h _ hPσ _ hstop hstep
    have hs := workerStep_sound hstep
    have hok := (h.not_parallelError hstep).1
    rcases hPσ with hpc | ⟨pc, hpc, hgather⟩
    · obtain ⟨hincarnation, hstatus⟩ := h.core.owned w v (by rw [hpc]; rfl)
      rw [hpc] at hs hstatus
      cases hs with
      | execute =>
        refine .inr (.inr ⟨_, rfl, gathering_enterExec ⟨rfl, rfl⟩⟩)
      | executeGone _ hgone => exact absurd hstatus hgone
      | executeInconsistent => exact absurd rfl (hok _ _ _)
      | idle hp | frontier _ hp => cases hp
    · have hquiet := h.quiet hs
      rw [hpc] at hs hstop
      cases hs with
      | exec hs =>
        refine (hs.gathering h.clean hquiet h.ctx_committed (hok v) hgather fun tail pc' heq =>
          hstop ⟨v, tail, pc', by rw [heq]⟩).imp id .inr
      | idle hp | frontier _ hp => cases hp
  · obtain ⟨hPσ, -, hindex', hvalidation', hstop⟩ := hσ'
    rcases hstop with hhome | ⟨v', tail, pc', hpc'⟩
    · rcases hPσ with hpc | ⟨pc, hpc, -⟩ <;> simp [hpc, WorkerPc.isHome] at hhome
    · rcases hPσ with hpc | ⟨pc, hpc, hgather⟩
      · rw [hpc] at hpc'
        cases hpc'
      · rw [hpc] at hpc'
        cases hpc'
        exact ⟨⟨tail, pc', hpc, hgather.2⟩, hgather.1, hindex', hvalidation'⟩

end Round

/-! ## A validation of the stored result -/

/-- A validation of `t` that has found no conflict, and is going to find
none. -/
def ValPc.Agreeing (blk : Block Err R) (s : Shared W R B) (t : Nat) : ValPc → Prop
  | .scanning _ remaining conflict _ => conflict = false ∧
    ∀ e, e ∈ remaining → readHolds s.mvMemory s.history blk.anchor t e.1 e.2 = true
  | .scanningHistory _ remaining conflict _ expected scan => conflict = false ∧
    (∀ e, e ∈ remaining → readHolds s.mvMemory s.history blk.anchor t e.1 e.2 = true) ∧
    (validateBeneficiary s.history blk.anchor t expected).valid = true ∧
    Walked s.history blk.anchor t scan
  | .unconfirming _ _ => True
  | _ => False

/-- The stored result of `t` holds, and a validation in progress agrees
with it. -/
structure Renewed (blk : Block Err R) (t : Nat) (s : Shared W R B) (p : WorkerPc R B) : Prop where
  reads : ReadsHold blk s t
  status : (s.txStates t).status = .executed ∨ (s.txStates t).status = .unconfirmed ∨
    (s.txStates t).status = .validating
  scan : ∀ v pc, p = .val v pc → v.txid = t → pc.Agreeing blk s t

section

variable {blk : Block Err R} {s s' : Shared W R B} {v : TxVersion} {p p' : WorkerPc R B} {w : W}
  {t : Nat}

theorem ValStep.agreeing {pc : ValPc} (h : ValStep blk s v pc s' p')
    (hpc : pc.Agreeing blk s v.txid) :
    (s' = s ∧ ∃ pc', p' = .val v pc' ∧ pc'.Agreeing blk s v.txid) ∨
      ∃ ts dependency, pc = .unconfirming ts dependency := by
  cases h
  case scanned =>
    obtain ⟨rfl, -⟩ := hpc
    exact .inl ⟨rfl, _, rfl, trivial⟩
  case scanHistory hp =>
    obtain ⟨hconflict, hreads⟩ := hpc
    have hmem := mem_of_pick? hp
    refine .inl ⟨rfl, _, rfl, hconflict, fun e he => hreads e ((hmem e).mpr (.inr he)), ?_, .start⟩
    exact hreads _ ((hmem _).mpr (.inl rfl))
  case scan version _ _ hp hv =>
    obtain ⟨hconflict, hreads⟩ := hpc
    have hmem := mem_of_pick? hp
    refine .inl ⟨rfl, _, rfl, ?_, fun e he => hreads e ((hmem e).mpr (.inr he))⟩
    have hread := hreads _ ((hmem _).mpr (.inl rfl))
    cases version with
    | beneficiary expected => exact absurd rfl (hv expected)
    | mvMemory version | storage => simpa [hconflict, readHolds] using hread
  case walk hscan =>
    obtain ⟨hconflict, hreads, hvalid, hwalked⟩ := hpc
    exact .inl ⟨rfl, _, rfl, hconflict, hreads, hvalid, hwalked.more hscan⟩
  case walked hscan =>
    obtain ⟨hconflict, hreads, hvalid, hwalked⟩ := hpc
    rw [hwalked.validate_of_done hscan] at hvalid
    exact .inl ⟨rfl, _, rfl, by simp [hconflict, hvalid], hreads⟩
  case walkBlocked hscan =>
    obtain ⟨-, -, hvalid, hwalked⟩ := hpc
    rw [hwalked.validate_of_blocked hscan] at hvalid
    cases hvalid
  case unconfirm ts dependency => exact .inr ⟨ts, dependency, rfl⟩
  all_goals cases hpc

theorem ExecStep.not_val {pc : ExecPc R B} (h : ExecStep blk s v pc s' p') (v' : TxVersion)
    (pc' : ValPc) : p' ≠ .val v' pc' := by
  cases h
  case frontierFinish tail _ _ _ _ _ | rewindFinish tail _ _ _ => cases tail <;> rintro ⟨⟩
  all_goals rintro ⟨⟩

theorem WorkerStep.owned_of_val {pc : ValPc} (h : WorkerStep blk w s p s' (.val v pc)) :
    p.owned = some v := by
  generalize hval : WorkerPc.val v pc = p' at h
  cases h
  case idle hp' _ | frontier hp' _ => subst hval; cases hp'
  case busy fromNext _ _ | uselessRemoved fromNext _ _ _ _ _ => cases fromNext <;> cases hval
  case validate | validateInconsistent => cases hval; rfl
  case val h => cases h <;> cases hval <;> rfl
  case exec h => exact absurd hval.symm (h.not_val v pc)
  all_goals cases hval

/-- Only the owner stores a result. -/
theorem WorkerStep.txResults_of_not_owned (h : WorkerStep blk w s p s' p')
    (hne : ∀ v, p.owned = some v → t ≠ v.txid) : s'.txResults t = s.txResults t := by
  cases h with
  | exec h | val h => exact congrArg Column.result (h.sameAt (hne _ rfl)).1
  | _ => rfl

theorem ReadsHold.quiet (h : ReadsHold blk s t) (hq : QuietBelow s s' t)
    (hresult : s'.txResults t = s.txResults t) : ReadsHold blk s' t := by
  obtain ⟨r, hr, hreads⟩ := h
  exact ⟨r, hresult.trans hr, readSetHolds_quiet hq hreads⟩

/-- After the result is stored `execute_task` leaves the column alone, but
for a validation that it claims itself. -/
theorem ExecStep.tail_column {pc : ExecPc R B} (h : ExecStep blk s v pc s' p')
    (hok : ExecOk v.incarnation (s.column v.txid) pc)
    (hstatus : (s.txStates v.txid).status ≠ .executing ∧
      (s.txStates v.txid).status ≠ .conflict) :
    s'.txResults = s.txResults ∧ ((s'.txStates v.txid).status = .executed ∨
      (s'.txStates v.txid).status = .validating) := by
  cases pc with
  | frontier tail pc =>
    have htail : (s.txStates v.txid).status = .executed := by
      cases tail <;> first | exact hok.1 | exact absurd hok.1 hstatus.2
    cases h with
    | frontier | frontierRewind => exact ⟨rfl, .inl htail⟩
    | frontierFinish =>
      refine ⟨by cases tail <;> rfl, ?_⟩
      cases tail <;> first | exact .inl htail | exact .inr (by simp [finishExec])
  | rewinding tail pc =>
    have htail : (s.txStates v.txid).status = .executed := by
      cases tail <;> first | exact hok.1 | exact absurd hok.1 hstatus.2
    cases h with
    | rewind => exact ⟨rfl, .inl htail⟩
    | rewindFinish =>
      refine ⟨by cases tail <;> rfl, ?_⟩
      cases tail <;> first | exact .inl htail | exact .inr (by simp [finishExec])
  | parallelError message pc => exact hok.elim
  | _ => exact absurd hok.1 hstatus.1

end

namespace Round

variable [DecidableEq W] {blk : Block Err R} {backing : B.State} {σ : SchedulerState W R B}
  {s' : Shared W R B} {p' : WorkerPc R B} {w : W} {f c : Nat}

/-- A worker with another task, or with none, leaves the result alone. -/
theorem renewed_of_not_owned (h : Round blk backing f w σ)
    (hP : Renewed blk f σ.shared (σ.workers w))
    (hs : WorkerStep blk w σ.shared (σ.workers w) s' p')
    (hne : ∀ v, (σ.workers w).owned = some v → f ≠ v.txid) : Renewed blk f s' p' where
  reads := hP.reads.quiet (h.quiet hs) (hs.txResults_of_not_owned hne)
  status := by
    rcases hs.sameAt_or_claimed hne with hsame | ⟨-, ⟨-, hstatus⟩ | ⟨hold, -⟩⟩
    · have hstate : s'.txStates f = σ.shared.txStates f := congrArg Column.state hsame.1
      rw [hstate]
      exact hP.status
    · exact .inr (.inr hstatus)
    · have hstatus := hP.status
      rcases hold with hold | hold <;> simp [hold] at hstatus
  scan v pc hpc hv := by
    subst hpc
    exact absurd hv.symm (hne v hs.owned_of_val)

/-- **A result that holds is not overturned.** -/
theorem renewed_step (h : Round blk backing f w σ) (hP : Renewed blk f σ.shared (σ.workers w))
    (hstep : workerStep blk w σ.shared (σ.workers w) c = some (s', p')) :
    Renewed blk f s' p' := by
  have hs := workerStep_sound hstep
  by_cases hne : ∀ v, (σ.workers w).owned = some v → f ≠ v.txid
  · exact h.renewed_of_not_owned hP hs hne
  obtain ⟨v, hv, rfl⟩ : ∃ v, (σ.workers w).owned = some v ∧ f = v.txid := by
    simpa only [not_forall, not_not, exists_prop] using hne
  obtain ⟨hincarnation, hok⟩ := h.core.owned w v hv
  have hquiet := h.quiet hs
  have hfresh := (h.not_parallelError hstep).2
  have hstatus : (σ.shared.txStates v.txid).status ≠ .executing ∧
      (σ.shared.txStates v.txid).status ≠ .conflict := by
    rcases hP.status with heq | heq | heq <;> simp [heq]
  cases hpc : σ.workers w with
  | task task =>
    rw [hpc] at hv hok hs
    cases task with
    | execution v' =>
      cases hv
      exact absurd hok hstatus.1
    | validation v' =>
      cases hv
      cases hs with
      | validate _ _ _ hr =>
        refine ⟨hP.reads.quiet hquiet rfl, .inr (.inr hok), fun v' pc' hpc' _ => ?_⟩
        cases hpc'
        refine ⟨rfl, fun e he => ?_⟩
        obtain ⟨r, hr', hreads⟩ := hP.reads
        rw [hr] at hr'
        cases hr'
        obtain ⟨e', he', rfl⟩ := List.mem_map.mp he
        exact List.all_eq_true.mp hreads e' he'
      | validateGone _ hgone => exact absurd hok hgone
      | validateInconsistent => exact absurd rfl (hfresh _ _ _)
      | idle hp | frontier _ hp => cases hp
  | exec v' pc =>
    rw [hpc] at hv hok hs
    cases hv
    cases hs with
    | exec hs' =>
      obtain ⟨hresults, hstatus'⟩ := hs'.tail_column hok hstatus
      exact ⟨hP.reads.quiet hquiet (by rw [hresults]), hstatus'.imp id .inr,
        fun v' pc' hpc' _ => absurd hpc' (hs'.not_val v' pc')⟩
    | idle hp | frontier _ hp => cases hp
  | val v' pc =>
    rw [hpc] at hv hok hs
    cases hv
    have hagree := hP.scan v pc hpc rfl
    cases hs with
    | val hs' =>
      rcases hs'.agreeing hagree with ⟨rfl, pc', rfl, hagree'⟩ | ⟨ts, dependency, rfl⟩
      · refine ⟨hP.reads, hP.status, fun v' pc'' hpc' _ => ?_⟩
        cases hpc'
        exact hagree'
      · cases hs'
        exact ⟨hP.reads.quiet hquiet rfl, .inr (.inl (by simp)), by simp⟩
    | idle hp | frontier _ hp => cases hp
  | _ =>
    rw [hpc] at hv
    cases hv

end Round

end Grevm
