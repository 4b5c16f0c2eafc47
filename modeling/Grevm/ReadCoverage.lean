/-
Grevm.ReadCoverage — what validation covers of an incarnation's reads.

One incarnation of transaction `txid` makes its state reads while earlier
transactions publish, remove and mark entries of the multi-version memory
and record and invalidate entries of the beneficiary history, one access
at a time and in any order; the database behind them does not change.
Validation compares one version per location. It covers every answer as
long as no location changes its version between two reads of it by the
incarnation (`stable_reads_are_covered`). `StorageReset(address)` is read
again for every slot of the account, and the read set then keeps the
later version: `stale_slot_passes_validation` is a run in which the
version changes in between and an answer of the earlier read survives
validation.
-/
import Grevm.Reads
import Grevm.Runs

namespace Grevm

variable {Err R : Type}

/-! ## Reads over a database that does not change -/

/-- The database as a backing that answers in one access. -/
def Base.backing (base : Base Err) : Backing Err where
  State := Unit
  BasicPc := Address
  CodePc := B256
  StoragePc := Address × U256
  CommitPc := Unit
  basicStart address := address
  basicStep _ address := ((), .inr (base.basic address))
  codeStart codeHash := codeHash
  codeStep _ codeHash := ((), .inr (base.code codeHash))
  storageStart address index := (address, index)
  storageStep _ slot := ((), .inr (base.storage slot.1 slot.2))
  commitStart _ := ()
  commitStep _ _ _ := some ((), none)
  basicNow _ address := ((), base.basic address)
  codeNow _ codeHash := ((), base.code codeHash)
  storageNow _ address index := ((), base.storage address index)
  commitNow _ _ := some ()

/-- The call to the database is the one the state read needs. -/
def CallPc.Asks {base : Base Err} : CallPc base.backing → Prop
  | .basicBacking address pc => pc = address
  | .codeBacking _ info pc => pc = info.codeHash
  | .storageBacking address index pc => pc = (address, index)
  | _ => True

/-- A state read without interleaving, of at most `fuel` accesses. -/
def callNow (base : Base Err) (mv : MVMemory) (history : Nat → EntryState) (txid : Nat) :
    Nat → IncarnationDb → CallPc base.backing → Option (Except Err Value)
  | 0, _, _ => none
  | fuel + 1, db, pc =>
    match callStep base.anchor txid mv history () db pc with
    | (_, db, .inl pc) => callNow base mv history txid fuel db pc
    | (_, _, .inr answer) => some answer

section

variable {base : Base Err} {mv : MVMemory} {history : Nat → EntryState} {txid : Nat}
  {db db' : IncarnationDb}

theorem CallPc.Asks.backedBy {pc : CallPc base.backing} (h : pc.Asks) : pc.BackedBy base () := by
  cases pc with
  | basicBacking address pc | codeBacking address info pc | storageBacking address index pc =>
    cases h
    intro _ result hstep
    cases hstep
    rfl
  | _ => trivial

theorem CallPc.asks_start (call : Call) :
    (call.start base.beneficiary txid : CallPc base.backing).Asks := by
  cases call with
  | basic address =>
    simp only [Call.start]
    split <;> trivial
  | storage address index => trivial

theorem asks_finishBasic {address : Address} {account : Option AccountInfo}
    {pc : CallPc base.backing} (h : finishBasic address account = .inl pc) : pc.Asks := by
  unfold finishBasic at h
  split at h
  · split at h <;> cases h
    trivial
  · cases h

theorem asks_of_callStep {pc pc' : CallPc base.backing} {backing' : Unit}
    (h : callStep base.anchor txid mv history () db pc = (backing', db', .inl pc')) :
    pc'.Asks := by
  cases callStep_sound h with
  | visit | reset => trivial
  | resolve _ hnext | basicHit _ _ hnext | basicLoads _ hnext => exact asks_finishBasic hnext
  | basicMiss | codeMiss | slotMiss => rfl
  | basicMore hb | codeMore hb | storageMore hb => cases hb

/-- The answer a state read is on its way to, over memory that does not
change. -/
def CallPc.answer (base : Base Err) (mv : MVMemory) (history : Nat → EntryState) (txid : Nat) :
    CallPc base.backing → Except Err Value
  | .basicMv address =>
    match (base.view mv history txid).latest (.basic address) with
    | some (_, .basic account) => ((base.view mv history txid).withCode address account).map
        fun info => .account (info.map AccountInfo.view)
    | _ => ((base.basic address).bind ((base.view mv history txid).withCode address)).map
        fun info => .account (info.map AccountInfo.view)
  | .basicScan address scan =>
    match scanFrom history base.anchor scan.writer scan.origins scan.rewardsNewestFirst with
    | .ok found => ((base.view mv history txid).withCode address found.resolve).map
        fun info => .account (info.map AccountInfo.view)
    | .error _ => .ok (.account none)
  | .basicBacking address pc =>
    ((base.basic pc).bind ((base.view mv history txid).withCode address)).map
      fun info => .account (info.map AccountInfo.view)
  | .codeMv address info =>
    ((base.view mv history txid).codeByAddress address info.codeHash).bind (withCode info)
  | .codeBacking _ info pc => (base.code pc).bind (withCode info)
  | .storageReset address index => (base.view mv history txid).eval (.storage address index)
  | .storageSlot address index resetTxid =>
    match (base.view mv history txid).latest (.storage address index), resetTxid with
    | some (slot, .storage value), some reset =>
      if reset ≤ slot then .ok (.word value) else .ok (.word 0)
    | some (_, .storage value), none => .ok (.word value)
    | _, some _ => .ok (.word 0)
    | _, none => (base.storage address index).map .word
  | .storageBacking _ _ pc => (base.storage pc.1 pc.2).map .word

/-- Accesses left of a state read, at most. -/
def CallPc.left {base : Base Err} : CallPc base.backing → Nat
  | .basicScan _ scan => scan.writer + 3
  | .basicMv _ => 4
  | .basicBacking _ _ | .storageReset _ _ => 3
  | .codeMv _ _ | .storageSlot _ _ _ => 2
  | .codeBacking _ _ _ | .storageBacking _ _ _ => 1

theorem finishBasic_answer {address : Address} {account : Option AccountInfo} :
    (match (finishBasic address account : CallPc base.backing ⊕ Except Err Value) with
      | .inl pc => pc.answer base mv history txid
      | .inr answer => answer)
    = ((base.view mv history txid).withCode address account).map
        fun info => .account (info.map AccountInfo.view) := by
  cases account with
  | none => rfl
  | some info =>
    by_cases hcode : (!info.isEmptyCodeHash && info.code.isNone) = true
    · simp only [finishBasic, View.withCode, if_pos hcode, CallPc.answer]
      cases (base.view mv history txid).codeByAddress address info.codeHash <;> rfl
    · simp only [finishBasic, View.withCode, if_neg hcode]
      rfl

theorem slot_answer {address : Address} {index : U256} (slot : Option (Nat × MemoryValue))
    (reset : Option Nat) :
    (match slot, reset with
      | some (slot, .storage value), some reset =>
        if reset ≤ slot then .ok (.word value) else .ok (.word 0)
      | some (_, .storage value), none => .ok (.word value)
      | _, some _ => .ok (.word 0)
      | _, none => (base.storage address index).map .word : Except Err Value)
    = (match slot, reset with
      | some (slot, .storage value), some reset => if reset ≤ slot then .ok value else .ok 0
      | some (_, .storage value), none => .ok value
      | _, some _ => .ok 0
      | _, none => base.storage address index : Except Err U256).map .word := by
  rcases slot with _ | ⟨writer, data⟩
  · cases reset <;> rfl
  · cases data with
    | storage value =>
      cases reset with
      | none => rfl
      | some reset =>
        dsimp only
        split <;> rfl
    | _ => cases reset <;> rfl

/-- One access keeps the answer a state read is on its way to. -/
theorem callStep_answer (db : IncarnationDb) {pc : CallPc base.backing} :
    (match (callStep base.anchor txid mv history () db pc).2.2 with
      | .inl pc => pc.answer base mv history txid
      | .inr answer => answer) = pc.answer base mv history txid := by
  cases pc with
  | basicScan address scan =>
    simp only [callStep, CallPc.answer]
    rw [scanFrom_eq_step]
    cases scan.step base.anchor history with
    | more scan' | blocked writer => rfl
    | done found => exact finishBasic_answer
  | basicMv address =>
    simp only [callStep, CallPc.answer, lookup, Base.view]
    rcases MVMemory.latestBefore (mv (.basic address)) txid with _ | ⟨writer, n, data, estimate⟩
    · rfl
    · cases data with
      | basic account => exact finishBasic_answer
      | _ => rfl
  | basicBacking address pc =>
    simp only [callStep, CallPc.answer, Base.backing]
    cases base.basic pc with
    | error e => rfl
    | ok account => exact finishBasic_answer
  | codeMv address info =>
    simp only [callStep, CallPc.answer, lookup, Base.view, View.codeByAddress]
    rcases MVMemory.latestBefore (mv (.code address)) txid with _ | ⟨writer, n, data, estimate⟩
    · rfl
    · cases data <;> rfl
  | codeBacking address info pc =>
    simp only [callStep, CallPc.answer, Base.backing]
    cases base.code pc <;> rfl
  | storageReset address index =>
    simp only [callStep, CallPc.answer, lookup, Base.view, View.eval, View.storageAt]
    rcases MVMemory.latestBefore (mv (.storageReset address)) txid with
      _ | ⟨reset, n, data, estimate⟩
    · exact slot_answer _ none
    · cases data with
      | storageReset => exact slot_answer _ (some reset)
      | _ => exact slot_answer _ none
  | storageSlot address index resetTxid =>
    simp only [callStep, CallPc.answer, lookup, Base.view]
    rcases MVMemory.latestBefore (mv (.storage address index)) txid with
      _ | ⟨writer, n, data, estimate⟩
    · cases resetTxid <;> rfl
    · cases data with
      | storage value =>
        cases resetTxid with
        | none => rfl
        | some reset =>
          by_cases hle : reset ≤ writer <;>
            simp [Option.filter_some, MemoryValue.matchesLocation, hle]
      | _ => cases resetTxid <;> rfl
  | storageBacking address index pc => rfl

theorem left_finishBasic {address : Address} {account : Option AccountInfo}
    {pc : CallPc base.backing} (h : finishBasic address account = .inl pc) : pc.left = 2 := by
  unfold finishBasic at h
  split at h
  · split at h <;> cases h
    rfl
  · cases h

theorem left_of_callStep {pc pc' : CallPc base.backing} {backing' : Unit}
    (h : callStep base.anchor txid mv history () db pc = (backing', db', .inl pc')) :
    pc'.left < pc.left := by
  cases callStep_sound h with
  | visit hs =>
    have hw := ScanState.writer_of_more hs
    simp only [CallPc.left]
    omega
  | @resolve _ scan _ _ _ hnext =>
    rw [left_finishBasic hnext]
    show 2 < scan.writer + 3
    omega
  | basicHit _ _ hnext | basicLoads _ hnext =>
    rw [left_finishBasic hnext]
    simp [CallPc.left]
  | basicMore hb | codeMore hb | storageMore hb => cases hb
  | basicMiss | codeMiss | reset | slotMiss => simp [CallPc.left]

/-- A state read without interleaving returns, and what it returns is the
answer of the view. -/
theorem callNow_answer {fuel : Nat} {pc : CallPc base.backing} (h : pc.left ≤ fuel) :
    callNow base mv history txid fuel db pc = some (pc.answer base mv history txid) := by
  induction fuel generalizing db pc with
  | zero => cases pc <;> simp [CallPc.left] at h
  | succ fuel ih =>
    rw [callNow, ← callStep_answer db]
    cases hs : callStep base.anchor txid mv history () db pc with
    | mk backing' rest =>
      obtain ⟨db', next | answer⟩ := rest
      · exact ih (Nat.le_of_lt_succ (Nat.lt_of_lt_of_le (left_of_callStep hs) h))
      · rfl

theorem answer_start (call : Call) :
    (call.start base.beneficiary txid : CallPc base.backing).answer base mv history txid
      = (base.view mv history txid).eval call := by
  cases call with
  | storage address index => rfl
  | basic address =>
    simp only [Call.start]
    split
    · rename_i heq
      rw [View.eval, View.basicInfo,
        if_pos (show _ = (base.view mv history txid).beneficiary from heq)]
      simp only [CallPc.answer, Base.view, scanBefore]
      cases scanFrom history base.anchor txid [] [] <;> rfl
    · rename_i hne
      rw [View.eval, View.basicInfo,
        if_neg (show ¬ _ = (base.view mv history txid).beneficiary from hne)]
      simp only [CallPc.answer, Base.view]
      rcases MVMemory.latestBefore (mv (.basic address)) txid with _ | ⟨writer, n, data, estimate⟩
      · rfl
      · cases data <;> rfl

theorem left_start (call : Call) :
    (call.start base.beneficiary txid : CallPc base.backing).left ≤ txid + 4 := by
  cases call with
  | storage address index =>
    show 3 ≤ txid + 4
    omega
  | basic address =>
    simp only [Call.start]
    split
    · show txid + 3 ≤ txid + 4
      omega
    · show 4 ≤ txid + 4
      omega

theorem callNow_eq_eval (call : Call) :
    callNow base mv history txid (txid + 4) db (call.start base.beneficiary txid)
      = some ((base.view mv history txid).eval call) := by
  rw [callNow_answer (left_start call), answer_start]

end

/-! ## One incarnation among the transactions before it -/

/-- The reader is inside a state read, or has made the last one. -/
inductive ReaderPc (base : Base Err) (R : Type) where
  | calling (continuation : Except Err Value → Prog Err R) (pc : CallPc base.backing)
  | done

/-- The memory the reader shares with the transactions before it, and its
own scratch state. `published` is the latest incarnation that has
published a location, `log` are the answers so far. -/
structure ReaderState (base : Base Err) (R : Type) where
  mv : MVMemory := fun _ _ => none
  history : Nat → EntryState := fun _ => {}
  published : LocationAndType → Nat → Nat := fun _ _ => 0
  db : IncarnationDb := {}
  pc : ReaderPc base R
  log : List (Call × Except Err Value) := []

/-- One access of the reader, or one of a transaction before it. -/
inductive ReaderAction where
  | read
  | publish (location : LocationAndType) (writer : Nat) (entry : MemoryEntry)
  | remove (location : LocationAndType) (writer : Nat)
  | markEstimate (location : LocationAndType) (writer : Nat)
  | record (writer incarnation : Nat) (value : EntryValue)
  | invalidate (writer incarnation : Nat)

/-- The next state read of a program. -/
def ReaderPc.enter (base : Base Err) (txid : Nat) : Prog Err R → ReaderPc base R
  | .read call continuation => .calling continuation (call.start base.beneficiary txid)
  | .done _ => .done

def readerInitial (base : Base Err) (txid : Nat) (prog : Prog Err R) : ReaderState base R :=
  { pc := .enter base txid prog }

/-- The steps. Every incarnation publishes a location at most once, and
incarnations of a transaction follow one another. -/
def readerStep (base : Base Err) (txid : Nat) (s : ReaderState base R) :
    ReaderAction → Option (ReaderState base R)
  | .read =>
    match s.pc with
    | .calling continuation pc =>
      match callStep base.anchor txid s.mv s.history () s.db pc with
      | (_, db, .inl pc) => some { s with db, pc := .calling continuation pc }
      | (_, db, .inr answer) =>
        some { s with db, pc := .enter base txid (continuation answer),
                      log := s.log ++ [(pc.call, answer)] }
    | .done => none
  | .publish location writer entry =>
    if writer < txid ∧ s.published location writer < entry.incarnation then
      some { s with
        mv := s.mv.insert location writer entry
        published := fun l t =>
          if l = location ∧ t = writer then entry.incarnation else s.published l t }
    else none
  | .remove location writer =>
    if writer < txid then some { s with mv := s.mv.remove location writer } else none
  | .markEstimate location writer =>
    if writer < txid then some { s with mv := s.mv.markEstimate location writer } else none
  | .record writer incarnation value =>
    if writer < txid then
      ((s.history writer).record incarnation value).map fun entry =>
        { s with history := Function.update s.history writer entry }
    else none
  | .invalidate writer incarnation =>
    if writer < txid then
      ((s.history writer).invalidate incarnation).map fun entry =>
        { s with history := Function.update s.history writer entry }
    else none

/-- No location the reader has read before changes its version when the
reader reads it again. -/
def stableRead (base : Base Err) (txid : Nat) (s : ReaderState base R) (a : ReaderAction) : Bool :=
  match readerStep base txid s a with
  | some s' => s.db.readSet.entries.all fun e => s'.db.readSet.lookup e.1 == some e.2
  | none => true

/-! ## The invariant of the reader -/

/-- While it is not blocked, the answers of the reader are justified by
observations its read set tracks, and no transaction will publish an
observed version again. -/
structure ReaderInv (base : Base Err) (s : ReaderState base R) (obs : Observations) : Prop where
  tracks : Tracks s.mv s.history s.db.readSet obs
  spent : ∀ l version data, (l, .memory (some (version, data))) ∈ obs →
    version.incarnation ≤ s.published l version.txid
  answers : ∀ call value, (call, .ok value) ∈ s.log → Justified base obs call value
  calling : ∀ continuation pc, s.pc = .calling continuation pc → pc.Ok base s.history obs

/-- What the memory looks like whether or not the reader is blocked. -/
structure ReaderMemory (base : Base Err) (s : ReaderState base R) : Prop where
  published : ∀ l t entry, s.mv l t = some entry → entry.incarnation ≤ s.published l t
  asks : ∀ continuation pc, s.pc = .calling continuation pc → pc.Asks

section

variable {base : Base Err} {txid : Nat} {s s' : ReaderState base R} {a : ReaderAction}
  {obs : Observations}

theorem extends_of_stableRead (h : readerStep base txid s a = some s')
    (hstable : stableRead base txid s a = true) : s'.db.readSet.Extends s.db.readSet := by
  intro l version hl
  simp only [stableRead, h, List.all_eq_true] at hstable
  have hmem := hstable ⟨l, version⟩ (AList.mem_lookup_iff.mp hl)
  simpa using hmem

/-- One access of the reader. -/
theorem ReaderInv.read (h : ReaderInv base s obs) (hmem : ReaderMemory base s)
    (hstep : readerStep base txid s .read = some s')
    (hext : s'.db.readSet.Extends s.db.readSet) (hfree : s'.db.isBlocked = false) :
    ∃ obs', ReaderInv base s' obs' := by
  simp only [readerStep] at hstep
  cases hpc : s.pc with
  | done => simp [hpc] at hstep
  | calling continuation pc =>
    simp only [hpc] at hstep
    cases hcall : callStep base.anchor txid s.mv s.history () s.db pc with
    | mk backing' rest =>
      obtain ⟨db, result⟩ := rest
      have hdb : s'.db = db := by
        rw [hcall] at hstep
        cases result <;> cases hstep <;> rfl
      rw [hdb] at hext hfree
      obtain ⟨obs', hsub, hmet, htracks, hresult⟩ := callStep_observes
        (h.calling continuation pc hpc) h.tracks (hmem.asks continuation pc hpc).backedBy hcall
        hext hfree
      have hspent : ∀ l version data, (l, .memory (some (version, data))) ∈ obs' →
          version.incarnation ≤ s.published l version.txid := by
        intro l version data ho
        rcases hmet l _ ho with ho | ⟨-, estimate, hentry⟩
        · exact h.spent l version data ho
        · exact hmem.published l version.txid _ hentry
      rw [hcall] at hstep
      refine ⟨obs', ?_⟩
      rcases result with pc' | answer
      · cases hstep
        refine ⟨htracks, hspent, fun call value hl => (h.answers call value hl).mono hsub,
          fun continuation' pc'' heq => ?_⟩
        cases heq
        exact hresult.2
      · cases hstep
        refine ⟨htracks, hspent, fun call value hl => ?_, fun continuation' pc'' heq => ?_⟩
        · rcases List.mem_append.mp hl with hl | hl
          · exact (h.answers call value hl).mono hsub
          · cases List.mem_singleton.mp hl
            exact hresult
        · simp only [ReaderPc.enter] at heq
          split at heq <;> cases heq
          exact CallPc.ok_start _

/-- A step of a transaction before the reader leaves the reader alone. -/
structure OtherStep (s s' : ReaderState base R) : Prop where
  db : s'.db = s.db
  pc : s'.pc = s.pc
  log : s'.log = s.log
  published : ∀ l t, s.published l t ≤ s'.published l t
  /-- An entry is kept, up to its estimate flag, or is a new publication. -/
  memory : ∀ l t entry', s'.mv l t = some entry' →
    (∃ entry, s.mv l t = some entry ∧ entry.incarnation = entry'.incarnation ∧
      entry.data = entry'.data) ∨
    s.published l t < entry'.incarnation ∧ entry'.incarnation ≤ s'.published l t
  history : HistoryMoves s.history s'.history

theorem otherStep_of_step (h : readerStep base txid s a = some s') (ha : a ≠ .read) :
    OtherStep s s' := by
  have hkeep : ∀ l t entry', s.mv l t = some entry' →
      ∃ entry, s.mv l t = some entry ∧ entry.incarnation = entry'.incarnation ∧
        entry.data = entry'.data := fun l t entry' he => ⟨entry', he, rfl, rfl⟩
  have hstill : HistoryMoves s.history s.history := .refl _
  cases a with
  | read => exact absurd rfl ha
  | publish location writer entry =>
    simp only [readerStep] at h
    split at h <;> cases h
    rename_i hlt
    refine ⟨rfl, rfl, rfl, fun l t => ?_, fun l t entry' he => ?_, hstill⟩
    · dsimp only
      split
      · rename_i heq
        rw [heq.1, heq.2]
        exact Nat.le_of_lt hlt.2
      · exact le_rfl
    · by_cases heq : l = location ∧ t = writer
      · obtain ⟨rfl, rfl⟩ := heq
        have he : s.mv.insert l t entry l t = some entry' := he
        rw [MVMemory.insert_self] at he
        cases he
        exact .inr ⟨hlt.2, by simp⟩
      · exact .inl (hkeep l t entry' (by simpa [MVMemory.insert, heq] using he))
  | remove location writer =>
    simp only [readerStep] at h
    split at h <;> cases h
    refine ⟨rfl, rfl, rfl, fun _ _ => le_rfl, fun l t entry' he => .inl ?_, hstill⟩
    by_cases heq : l = location ∧ t = writer
    · simp [MVMemory.remove, heq] at he
    · exact hkeep l t entry' (by simpa [MVMemory.remove, heq] using he)
  | markEstimate location writer =>
    simp only [readerStep] at h
    split at h <;> cases h
    refine ⟨rfl, rfl, rfl, fun _ _ => le_rfl, fun l t entry' he => .inl ?_, hstill⟩
    by_cases heq : l = location ∧ t = writer
    · simp only [MVMemory.markEstimate, heq, and_self, if_true, Option.map_eq_some_iff] at he
      obtain ⟨entry, he, rfl⟩ := he
      exact ⟨entry, by rw [heq.1, heq.2]; exact he, rfl, rfl⟩
    · exact hkeep l t entry' (by simpa [MVMemory.markEstimate, heq] using he)
  | record writer incarnation value =>
    simp only [readerStep] at h
    split at h
    · obtain ⟨entry, he, rfl⟩ := Option.map_eq_some_iff.mp h
      exact ⟨rfl, rfl, rfl, fun _ _ => le_rfl, fun l t entry' he => .inl (hkeep l t entry' he),
        .record he⟩
    · cases h
  | invalidate writer incarnation =>
    simp only [readerStep] at h
    split at h
    · obtain ⟨entry, he, rfl⟩ := Option.map_eq_some_iff.mp h
      exact ⟨rfl, rfl, rfl, fun _ _ => le_rfl, fun l t entry' he => .inl (hkeep l t entry' he),
        .invalidate he⟩
    · cases h

theorem ReaderInv.other (h : ReaderInv base s obs) (hs : OtherStep s s') :
    ReaderInv base s' obs := by
  refine ⟨?_, fun l version data ho => ?_, fun call value hl => ?_, fun continuation pc hpc => ?_⟩
  · rw [hs.db]
    refine h.tracks.moves (fun l version data ho entry' he hinc => ?_) hs.history
    rcases hs.memory l version.txid entry' he with ⟨entry, hentry, hi, hd⟩ | ⟨hlt, -⟩
    · exact ⟨entry, hentry, hi.trans hinc, hd⟩
    · -- an observed version has been published before
      have hle := h.spent l version data ho
      omega
  · exact Nat.le_trans (h.spent l version data ho) (hs.published l version.txid)
  · rw [hs.log] at hl
    exact h.answers call value hl
  · rw [hs.pc] at hpc
    exact (h.calling continuation pc hpc).moves hs.history

theorem ReaderMemory.other (h : ReaderMemory base s) (hs : OtherStep s s') :
    ReaderMemory base s' := by
  refine ⟨fun l t entry' he => ?_, fun continuation pc hpc => ?_⟩
  · rcases hs.memory l t entry' he with ⟨entry, hentry, hi, -⟩ | ⟨-, hle⟩
    · rw [← hi]
      exact Nat.le_trans (h.published l t entry hentry) (hs.published l t)
    · exact hle
  · rw [hs.pc] at hpc
    exact h.asks continuation pc hpc

theorem ReaderMemory.read (h : ReaderMemory base s)
    (hstep : readerStep base txid s .read = some s') : ReaderMemory base s' := by
  simp only [readerStep] at hstep
  split at hstep
  · split at hstep <;> cases hstep
    · rename_i hcall
      refine ⟨h.published, fun continuation pc hpc => ?_⟩
      cases hpc
      exact asks_of_callStep hcall
    · refine ⟨h.published, fun continuation pc hpc => ?_⟩
      simp only [ReaderPc.enter] at hpc
      split at hpc <;> cases hpc
      exact CallPc.asks_start _
  · cases hstep

/-- A blocked reader stays blocked. -/
theorem isBlocked_of_readerStep (h : readerStep base txid s a = some s')
    (hb : s.db.isBlocked = true) : s'.db.isBlocked = true := by
  by_cases ha : a = .read
  · subst ha
    simp only [readerStep] at h
    split at h
    · split at h <;> cases h <;> rename_i hcall <;> exact isBlocked_of_callStep hcall hb
    · cases h
  · rw [(otherStep_of_step h ha).db]
    exact hb

/-! ## The theorem -/

theorem readerMemory_initial (prog : Prog Err R) :
    ReaderMemory base (readerInitial base txid prog) := by
  refine ⟨fun l t entry he => (by cases he), fun continuation pc hpc => ?_⟩
  simp only [readerInitial, ReaderPc.enter] at hpc
  split at hpc <;> cases hpc
  exact CallPc.asks_start _

theorem readerInv_initial (prog : Prog Err R) :
    ReaderInv base (readerInitial base txid prog) [] := by
  refine ⟨⟨nofun, nofun⟩, nofun, nofun, fun continuation pc hpc => ?_⟩
  simp only [readerInitial, ReaderPc.enter] at hpc
  split at hpc <;> cases hpc
  exact CallPc.ok_start _

theorem readerInv_of_reach {prog : Prog Err R}
    (h : Runs.Reach (readerStep base txid) (fun s a => stableRead base txid s a = true)
      (readerInitial base txid prog) s) :
    ReaderMemory base s ∧ (s.db.isBlocked = false → ∃ obs, ReaderInv base s obs) := by
  refine h.invariant (I := fun s => ReaderMemory base s ∧
      (s.db.isBlocked = false → ∃ obs, ReaderInv base s obs))
    ⟨readerMemory_initial prog, fun _ => ⟨[], readerInv_initial prog⟩⟩
    fun s a s' _ ih hstable hs => ?_
  obtain ⟨hmem, hinv⟩ := ih
  have hfree : s'.db.isBlocked = false → s.db.isBlocked = false := by
    intro hf
    by_contra hb
    rw [isBlocked_of_readerStep hs (by simpa using hb)] at hf
    cases hf
  by_cases ha : a = .read
  · subst ha
    refine ⟨hmem.read hs, fun hf => ?_⟩
    obtain ⟨obs, hobs⟩ := hinv (hfree hf)
    exact hobs.read hmem hs (extends_of_stableRead hs hstable) hf
  · have hother := otherStep_of_step hs ha
    refine ⟨hmem.other hother, fun hf => ?_⟩
    obtain ⟨obs, hobs⟩ := hinv (hfree hf)
    exact ⟨obs, hobs.other hother⟩

/-- When no location changes its version between two reads of it, an
incarnation that is not blocked and passes validation has consumed only
answers that the same state reads still give. -/
theorem stable_reads_are_covered {prog : Prog Err R}
    (h : Runs.Reach (readerStep base txid) (fun s a => stableRead base txid s a = true)
      (readerInitial base txid prog) s)
    (hfree : s.db.isBlocked = false)
    (hvalid : readSetHolds s.mv s.history base.anchor txid s.db.readSet = true)
    {call : Call} {value : Value} (hmem : (call, .ok value) ∈ s.log) :
    callNow base s.mv s.history txid (txid + 4) {} (call.start base.beneficiary txid)
      = some (.ok value) := by
  obtain ⟨obs, hobs⟩ := (readerInv_of_reach h).2 hfree
  rw [callNow_eq_eval, hobs.answers call value hmem _ (explains_of_readSetHolds hobs.tracks hvalid)]

end

/-! ## A run that validation does not cover -/

/-- A database in which only slot 1 of account 1 holds anything. -/
def Base.oneSlot : Base Unit where
  beneficiary := 0
  anchor := none
  basic _ := .ok none
  code _ := .ok []
  storage address index := .ok (if address = 1 ∧ index = 1 then 7 else 0)

/-- Load account 1, then read two of its slots. -/
def readTwoSlots : Prog Unit Unit :=
  .read (.basic 1) fun _ => .read (.storage 1 1) fun _ => .read (.storage 1 2) fun _ =>
    .done (.ok ⟨(), ∅, none⟩)

/-- Transaction 0 deletes account 1: it publishes the absence first and
the reset of the storage second. -/
def publishAbsence : ReaderAction := .publish (.basic 1) 0 ⟨1, .basic none, false⟩
def publishReset : ReaderAction := .publish (.storageReset 1) 0 ⟨1, .storageReset, false⟩

/-- The slots of a deleted account, read after both publications. -/
theorem stable_reads_are_covered_deleted :
    ∃ s : ReaderState Base.oneSlot Unit,
      (Call.storage 1 1, .ok (.word 0)) ∈ s.log ∧
      callNow Base.oneSlot s.mv s.history 1 5 {} (Call.start 0 1 (.storage 1 1))
        = some (.ok (.word 0)) := by
  have hrun : (Runs.exec (Runs.guarded (readerStep Base.oneSlot 1) (stableRead Base.oneSlot 1))
      (readerInitial Base.oneSlot 1 readTwoSlots)
      (publishAbsence :: publishReset :: List.replicate 5 .read)).isSome := by decide
  have hmem : (Call.storage 1 1, .ok (.word 0)) ∈ (Option.get _ hrun).log :=
    List.mem_of_getElem? (show (Option.get _ hrun).log[1]? = _ from rfl)
  exact ⟨_, hmem, stable_reads_are_covered (Runs.reach_get hrun).of_guarded rfl rfl hmem⟩

/-- Read between the two publications, slot 1 is still the old value; the
look-up for slot 2 then replaces the version of the reset that slot 1 was
read under. Validation passes, and the answer for slot 1 is stale. -/
theorem stale_slot_passes_validation :
    ∃ s : ReaderState Base.oneSlot Unit,
      Runs.exec (readerStep Base.oneSlot 1) (readerInitial Base.oneSlot 1 readTwoSlots)
        (publishAbsence :: List.replicate 4 .read ++ publishReset :: List.replicate 2 .read)
        = some s ∧
      s.db.isBlocked = false ∧
      readSetHolds s.mv s.history Base.oneSlot.anchor 1 s.db.readSet = true ∧
      (Call.storage 1 1, .ok (.word 7)) ∈ s.log ∧
      callNow Base.oneSlot s.mv s.history 1 5 {} (Call.start 0 1 (.storage 1 1))
        = some (.ok (.word 0)) :=
  ⟨_, rfl, by decide, by decide, by decide, by decide⟩

end Grevm
