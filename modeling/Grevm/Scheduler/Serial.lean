/-
Grevm.Scheduler.Serial — the committed prefix is a sequential execution.

At the step that makes a transaction final, its read set holds as one
atomic check, so the view of the final prefix explains every observation
behind its answers: the result is the one its program has against that
view (`ResultExplained.run`). Its publications lead to the view of the
next transaction, and by `ViewAgrees.commit` the views of the final
prefixes stay those of the sequential execution (`SerialPrefix`). The
commit loop takes the results in order and folds the deferred rewards in
(`SerialCommits`). What it applies is therefore what the sequential
execution leaves, as long as the reads are served and stable
(`serial_of_reach`), in particular when the database is fixed
(`committed_prefix_is_serial`). With reads that are not stable it is not:
the read set keeps one version for a location, and the reset of an
account is looked up again at every slot
(`stale_slot_is_committed`).
-/
import Grevm.Scheduler.Explained

namespace Grevm

variable {Err W R : Type} {B : Backing Err}

/-! ## A final result is the one of the sequential execution -/

section

variable {blk : Block Err R} {base : Base Err} {codeOf : B256 → Bytecode} {s s' : Shared W R B}
  {t : Nat} {V : View Err}

/-- An account that was observed is the one of the view, up to its
code. -/
theorem View.account_of_eval {address : Address} {view : AccountView}
    (h : V.eval (.basic address) = .ok (.account (some view))) :
    ∃ before, V.account address = .ok (some before) ∧ AccountBasic.ofInfo before = view.basic := by
  rw [eval, basicInfo_eq] at h
  cases ha : V.account address with
  | error e =>
    rw [ha] at h
    cases h
  | ok found =>
    cases found with
    | none =>
      rw [ha] at h
      cases h
    | some info =>
      refine ⟨info, rfl, ?_⟩
      rw [ha] at h
      simp only [Except.bind, withCode] at h
      split at h
      · cases hc : V.codeByAddress address info.codeHash with
        | error e =>
          rw [hc] at h
          cases h
        | ok code =>
          rw [hc] at h
          cases h
          rfl
      · cases h
        rfl

/-- A result whose read set holds is the one its program has against the
view, and every snapshot is the one of an account the program has
loaded. -/
theorem ResultExplained.run {n : Nat} {r : TransactionResult Err R} {x : SpeculativeResult R}
    (hstart : base.StartOf blk) (h : ResultExplained blk codeOf base s n t)
    (hsound : (base.view s.mvMemory s.history t).CodeSound codeOf)
    (hsettled : (s.txStates t).status.isSettled = true) (hr : s.txResults t = some r)
    (hx : r.executeResult = .ok x)
    (hholds : readSetHolds s.mvMemory s.history blk.anchor t r.readSet = true) :
    (blk.spec t).run (base.view s.mvMemory s.history t).eval = .ok x ∧
      ∃ snapshots, (s.column t).Publishes (s.txStates t).incarnation blk.beneficiary snapshots
          x.state [] ∧ EffectOk blk s t x ∧
        ∀ address basic, snapshots.lookup address = some basic →
          (∃ before, (base.view s.mvMemory s.history t).account address = .ok (some before) ∧
            AccountBasic.ofInfo before = basic) ∧
          ∃ value, (.basic address, .ok value) ∈
            (blk.spec t).calls (base.view s.mvMemory s.history t).eval := by
  obtain ⟨db, hreads, hpub, hreturned, heff⟩ := h hsettled r x hr hx
  have hnever : ¬ Overtaken s n t db.readSet := by
    intro hover
    rw [hreads] at hover
    rw [hover.readSetHolds] at hholds
    cases hholds
  obtain ⟨log, obs, hanswered, hsnapshots⟩ := hreturned.resolve_left hnever
  have htracks := hanswered.tracks
  rw [hreads] at htracks
  rw [← hstart.anchor] at hholds
  have hexplains := explains_of_readSetHolds htracks hholds
  have hagree : ∀ call answer, (call, answer) ∈ log →
      (base.view s.mvMemory s.history t).eval call = answer := by
    intro call answer hmem
    obtain ⟨value, rfl, hvouched⟩ := hanswered.answers call answer hmem
    exact hvouched _ hexplains hsound
  refine ⟨Prog.run_of_follow hanswered.follow hagree, db.accountSnapshots, hpub, heff,
    fun address basic hlook => ?_⟩
  rcases hsnapshots address basic hlook with ⟨view, hmem, rfl⟩ | ⟨info, hloaded, -⟩
  · refine ⟨View.account_of_eval (hagree _ _ hmem), .account (some view), ?_⟩
    rw [Prog.calls_of_follow hanswered.follow hagree]
    exact List.mem_append_left _ hmem
  · cases hloaded

/-- The entries of a transaction that is published completely are the
writes of its change set. -/
theorem follows_of_publishes {snapshots : AList (fun _ : Address => AccountBasic)}
    {state : EvmState} (hpub : (s.column t).Published)
    (hwrites : (s.column t).Publishes (s.txStates t).incarnation base.beneficiary snapshots
      state []) :
    (base.view s.mvMemory s.history t).Follows t snapshots state
      (base.view s.mvMemory s.history (t + 1)) where
  beneficiary := rfl
  basic := rfl
  code := rfl
  storage := rfl
  before := by
    intro l u x hl
    obtain ⟨⟨u', entry⟩, hfound, heq⟩ := Option.map_eq_some_iff.mp hl
    cases heq
    exact MVMemory.latestBefore_lt hfound
  latest := by
    intro l
    cases he : s.mvMemory l t with
    | none =>
      refine .inr ⟨fun x hw => ?_, ?_⟩
      · rcases (hwrites l x).mp hw with ⟨e, hentry, -⟩ | hmem
        · have hentry : s.mvMemory l t = some e := hentry
          rw [he] at hentry
          cases hentry
        · cases hmem
      · simp only [Base.view, MVMemory.latestBefore_succ_none he]
    | some e =>
      refine .inl ⟨e.data, (hwrites l e.data).mpr (.inl ⟨e, he, (hpub.exact l e he).2, rfl⟩), ?_⟩
      simp only [Base.view, MVMemory.latestBefore_succ_some he, Option.map_some]

end

/-! ## The final prefix -/

/-- The first `n` transactions are final and have done what the sequential
execution does: each of them sees its accounts, and has published the
writes of its result. -/
structure SerialPrefix (blk : Block Err R) (codeOf : B256 → Bytecode) (base : Base Err)
    (s : Shared W R B) (n : Nat) (results : List (SpeculativeResult R))
    (p : Address → Plain Err) : Prop where
  sequential : blk.sequential codeOf base.plain n = some (results, p)
  views : ∀ m results p, m ≤ n → blk.sequential codeOf base.plain m = some (results, p) →
    ViewAgrees codeOf (base.view s.mvMemory s.history m) p
  kept : ∀ t r x, t < n → s.txResults t = some r → r.executeResult = .ok x →
    results[t]? = some x
  written : ∀ t x, results[t]? = some x → ∃ snapshots, ∀ l value,
    Writes base.beneficiary snapshots x.state l value → ∃ e, s.mvMemory l t = some e

section

variable {blk : Block Err R} {base : Base Err} {codeOf : B256 → Bytecode} {s s' : Shared W R B}
  {n : Nat} {results : List (SpeculativeResult R)} {p : Address → Plain Err}

theorem SerialPrefix.view (h : SerialPrefix blk codeOf base s n results p) :
    ViewAgrees codeOf (base.view s.mvMemory s.history n) p :=
  h.views n results p (Nat.le_refl n) h.sequential

theorem SerialPrefix.congr (h : SerialPrefix blk codeOf base s n results p)
    (hmv : ∀ l t, t < n → s'.mvMemory l t = s.mvMemory l t)
    (hhistory : ∀ t, t < n → s'.history t = s.history t)
    (hresults : ∀ t r, t < n → s'.txResults t = some r → s.txResults t = some r) :
    SerialPrefix blk codeOf base s' n results p where
  sequential := h.sequential
  views m results p hm hseq := by
    rw [Base.view_congr (fun l t ht => hmv l t (Nat.lt_of_lt_of_le ht hm))
      fun t ht => hhistory t (Nat.lt_of_lt_of_le ht hm)]
    exact h.views m results p hm hseq
  kept t r x ht hr := h.kept t r x ht (hresults t r ht hr)
  written t x ht := by
    obtain ⟨snapshots, hwritten⟩ := h.written t x ht
    have hlt := (List.getElem?_eq_some_iff.mp ht).1
    rw [Block.length_sequential h.sequential] at hlt
    refine ⟨snapshots, fun l value hw => ?_⟩
    rw [hmv l t hlt]
    exact hwritten l value hw

/-- One more transaction becomes final. -/
theorem SerialPrefix.finalize (h : SerialPrefix blk codeOf base s n results p)
    (hstart : base.StartOf blk) (hfinalizes : ∀ t, (blk.spec t).Finalizes codeOf)
    (hexact : ∀ t, t < n → ∃ effect, (s.history t).value = .exact effect)
    {bound : Nat} (hx : ResultExplained blk codeOf base s bound n)
    (hsettled : (s.txStates n).status.isSettled = true)
    (hpub : (s.column n).Published) {r : TransactionResult Err R} {x : SpeculativeResult R}
    (hr : s.txResults n = some r) (hok : r.executeResult = .ok x)
    (hholds : readSetHolds s.mvMemory s.history blk.anchor n r.readSet = true) :
    SerialPrefix blk codeOf base s (n + 1) (results ++ [x])
      (Plain.commit blk.beneficiary p x) := by
  obtain ⟨hrun, snapshots, hwrites, heff, hsnapshots⟩ :=
    hx.run hstart h.view.codeSound hsettled hr hok hholds
  obtain ⟨effect, hentry⟩ := hpub.entry
  have hvalue : (s.history n).value = .exact effect := by
    have hentry : s.history n = _ := hentry
    rw [hentry]
  rw [← hstart.beneficiary] at hwrites
  have hfollows := follows_of_publishes hpub hwrites
  obtain ⟨scan, hscan⟩ : ∃ scan, scanBefore s.history base.anchor n = .ok scan :=
    scanBefore_of_exact hexact
  obtain ⟨scan', hscan'⟩ : ∃ scan', scanBefore s.history base.anchor (n + 1) = .ok scan' := by
    refine scanBefore_of_exact fun t ht => ?_
    rcases Nat.lt_succ_iff_lt_or_eq.mp ht with ht | rfl
    · exact hexact t ht
    · exact ⟨effect, hvalue⟩
  have hlen := Block.length_sequential h.sequential
  have hseq : blk.sequential codeOf base.plain (n + 1) =
      some (results ++ [x], Plain.commit blk.beneficiary p x) := by
    rw [Block.sequential_succ_iff]
    refine ⟨results, p, x, h.sequential, ?_, rfl, rfl⟩
    rw [← h.view.eval]
    exact hrun
  refine ⟨hseq, fun m results' p' hm hseq' => ?_, fun t r' x' ht hr' hok' => ?_,
    fun t x' ht => ?_⟩
  · rcases Nat.lt_succ_iff_lt_or_eq.mp (Nat.lt_succ_of_le hm) with hlt | rfl
    · exact h.views m results' p' (Nat.le_of_lt_succ hlt) hseq'
    rw [hseq] at hseq'
    cases hseq'
    rw [← hstart.beneficiary]
    refine h.view.commit hfollows (fun address account hlook _ => ?_) ?_ hscan hscan'
      (resolve_scanBefore_succ hvalue hscan hscan')
    · exact (hfinalizes n).publishable (h.view.account address) hrun hlook (hsnapshots address)
    · show BeneficiaryEffect.fromExecution x.deferredReward
        (x.state.lookup base.beneficiary) = some effect
      rw [hstart.beneficiary]
      exact heff effect hvalue
  · rcases Nat.lt_succ_iff_lt_or_eq.mp ht with ht | rfl
    · rw [List.getElem?_append_left (by omega)]
      exact h.kept t r' x' ht hr' hok'
    · rw [hr] at hr'
      cases hr'
      rw [hok] at hok'
      cases hok'
      rw [← hlen, List.getElem?_concat_length]
  · by_cases hlt : t < results.length
    · rw [List.getElem?_append_left hlt] at ht
      exact h.written t x' ht
    · have hin := (List.getElem?_eq_some_iff.mp ht).1
      rw [List.length_append, List.length_singleton] at hin
      obtain rfl : t = results.length := by omega
      rw [List.getElem?_concat_length] at ht
      cases ht
      refine ⟨snapshots, fun l value hw => ?_⟩
      obtain ⟨e, he, -⟩ := ((hwrites l value).mp hw).resolve_right (List.not_mem_nil)
      exact ⟨e, hlen ▸ he⟩

end

/-! ## The commit loop -/

/-- The result that was taken and is not applied yet. -/
def CommitLoopPc.held : CommitLoopPc R B → Option (SpeculativeResult R)
  | .nonce _ x _ | .reward _ x _ _ => some x
  | _ => none

/-- The change set of the current transaction has been passed on. -/
def CommitLoopPc.passed : CommitLoopPc R B → Nat
  | .applying _ _ _ | .publish _ | .release _ => 1
  | _ => 0

theorem CommitLoopPc.passed_le_inner (pc : CommitLoopPc R B) : pc.passed ≤ pc.inner := by
  cases pc <;> simp [passed, inner]

/-- What is applied is what the sequential execution leaves: the result of
the transaction, and its change set with the deferred reward paid to the
beneficiary account before it. The account may differ in loaded code. -/
def Applied.Serial (blk : Block Err R) (codeOf : B256 → Bytecode) (base : Base Err)
    (a : Applied R) : Prop :=
  ∃ results p result account, blk.sequential codeOf base.plain a.txid = some (results, p) ∧
    (blk.spec a.txid).run (Plain.answer codeOf p) = .ok result ∧ a.result = result.result ∧
    account.map AccountInfo.bare = (p blk.beneficiary).account.map AccountInfo.bare ∧
    a.state = result.settled blk.beneficiary account

/-- The accounts after the change sets that were applied. -/
def committedPlain (base : Base Err) (applied : List (Applied R)) : Address → Plain Err :=
  Plain.overlay base.plain (applied.map Applied.state)

/-- The ordered commit finds the beneficiary account it has committed. -/
def CommittedReads (blk : Block Err R) (base : Base Err) (σ : SchedulerState W R B)
    (a : Action W) : Prop :=
  ∀ previous x amount pc backing info, a.thread = .commit →
    σ.commit.pc = .reward previous x amount pc →
    B.basicStep σ.shared.backing pc = (backing, .inr (.ok info)) →
    info.map AccountInfo.bare =
      (committedPlain base σ.commit.applied blk.beneficiary).account.map AccountInfo.bare

structure SerialCommits (blk : Block Err R) (codeOf : B256 → Bytecode) (base : Base Err)
    (results : List (SpeculativeResult R)) (t : CommitThread R B) : Prop where
  txids : ∀ (i : Nat) (a : Applied R), t.applied[i]? = some a → a.txid = i
  length : t.applied.length = t.idx + t.pc.passed
  applied : ∀ a, a ∈ t.applied → a.Serial blk codeOf base
  held : ∀ x, t.pc.held = some x → results[t.idx]? = some x
  reward : ∀ previous x amount pc, t.pc = .reward previous x amount pc →
    x.deferredReward = some amount
  committed : ∀ results p,
    blk.sequential codeOf base.plain t.applied.length = some (results, p) →
    (committedPlain base t.applied blk.beneficiary).account.map AccountInfo.bare =
      (p blk.beneficiary).account.map AccountInfo.bare

section

variable {blk : Block Err R} {base : Base Err} {codeOf : B256 → Bytecode} {s s' : Shared W R B}
  {n previous : Nat} {results : List (SpeculativeResult R)} {p : Address → Plain Err}
  {t t' : CommitThread R B} {x : SpeculativeResult R}

/-- A step that applies nothing. -/
theorem SerialCommits.move (h : SerialCommits blk codeOf base results t)
    (happlied : t'.applied = t.applied) (hidx : t'.idx + t'.pc.passed = t.idx + t.pc.passed)
    (hheld : ∀ x, t'.pc.held = some x → results[t'.idx]? = some x)
    (hreward : ∀ previous x amount pc, t'.pc = .reward previous x amount pc →
      x.deferredReward = some amount) : SerialCommits blk codeOf base results t' where
  txids := by
    rw [happlied]
    exact h.txids
  length := by
    rw [happlied, hidx]
    exact h.length
  applied := by
    rw [happlied]
    exact h.applied
  held := hheld
  reward := hreward
  committed := by
    rw [happlied]
    exact h.committed

/-- A step to a point without a result. -/
theorem SerialCommits.drop (h : SerialCommits blk codeOf base results t)
    (happlied : t'.applied = t.applied) (hidx : t'.idx + t'.pc.passed = t.idx + t.pc.passed)
    (hnone : t'.pc.held = none) : SerialCommits blk codeOf base results t' := by
  refine h.move happlied hidx (fun x hx => ?_) fun previous x amount pc hpc => ?_
  · rw [hnone] at hx
    cases hx
  · rw [hpc] at hnone
    cases hnone

/-- `ParallelStateCommit::commit` is called with the change set of the
next result. -/
theorem SerialCommits.startApply (h : SerialCommits blk codeOf base results t)
    (hseq : blk.sequential codeOf base.plain n = some (results, p))
    (hx : results[t.idx]? = some x) (hpassed : t.pc.passed = 0) {state : EvmState}
    {account : Option AccountInfo}
    (haccount : account.map AccountInfo.bare =
      (committedPlain base t.applied blk.beneficiary).account.map AccountInfo.bare)
    (hstate : state = x.settled blk.beneficiary account) :
    SerialCommits blk codeOf base results (Grevm.startApply t previous x.result state) := by
  obtain ⟨results', p', hseq', hrun⟩ := Block.sequential_at hseq hx
  have hlen : t.applied.length = t.idx := by
    rw [h.length, hpassed, Nat.add_zero]
  have hcommitted := h.committed results' p' (by rw [hlen]; exact hseq')
  refine ⟨fun i a ha => ?_, ?_, fun a ha => ?_, nofun, nofun, fun results'' p'' hseq'' => ?_⟩
  · simp only [Grevm.startApply] at ha
    by_cases hi : i < t.applied.length
    · rw [List.getElem?_append_left hi] at ha
      exact h.txids i a ha
    · have hin := (List.getElem?_eq_some_iff.mp ha).1
      rw [List.length_append, List.length_singleton] at hin
      obtain rfl : i = t.applied.length := by omega
      rw [List.getElem?_concat_length] at ha
      cases ha
      exact hlen.symm
  · simp only [Grevm.startApply, List.length_append, List.length_singleton, hlen]
    rfl
  · rcases List.mem_append.mp ha with ha | ha
    · exact h.applied a ha
    · cases List.mem_singleton.mp ha
      exact ⟨results', p', x, account, hseq', hrun, rfl, haccount.trans hcommitted, hstate⟩
  · simp only [Grevm.startApply, List.length_append, List.length_singleton, hlen] at hseq''
    obtain ⟨results₀, p₀, result, hseq₀, hrun₀, -, rfl⟩ := Block.sequential_succ_iff.mp hseq''
    rw [hseq'] at hseq₀
    cases hseq₀
    rw [hrun] at hrun₀
    cases hrun₀
    have hoverlay : committedPlain base (t.applied ++ [⟨t.idx, x.result, state⟩]) =
        Plain.applyState (committedPlain base t.applied) state := by
      simp only [committedPlain, List.map_append, List.map_singleton, Plain.overlay_append]
    simp only [Grevm.startApply]
    rw [hoverlay, hstate]
    exact Plain.account_commit hcommitted (haccount.trans hcommitted)

/-- The commit of a result begins with its reward, or with its change
set. -/
theorem SerialCommits.startReward (h : SerialCommits blk codeOf base results t)
    (hseq : blk.sequential codeOf base.plain n = some (results, p))
    (hx : results[t.idx]? = some x) (hpassed : t.pc.passed = 0)
    (hstart : Grevm.startReward blk t previous x = some t') :
    SerialCommits blk codeOf base results t' := by
  rcases startReward_cases hstart with ⟨amount, hamount, rfl⟩ | ⟨hnone, rfl⟩
  · refine h.move rfl ?_ (fun y hy => ?_) fun previous' y amount' pc hpc => ?_
    · rw [hpassed]
      rfl
    · cases hy
      exact hx
    · cases hpc
      exact hamount
  · refine h.startApply hseq hx hpassed rfl ?_
    rw [SpeculativeResult.settled, hnone]

end

/-! ## Runs -/

/-- The final prefix and what the commit loop has made of it. -/
def Serial (blk : Block Err R) (codeOf : B256 → Bytecode) (base : Base Err)
    (σ : SchedulerState W R B) : Prop :=
  ∃ results p, SerialPrefix blk codeOf base σ.shared σ.finality.idx results p ∧
    SerialCommits blk codeOf base results σ.commit

section

variable {blk : Block Err R} {base : Base Err} {codeOf : B256 → Bytecode}
  {σ σ' : SchedulerState W R B} {s' : Shared W R B}

theorem Serial.worker [DecidableEq W] {w : W} {p' : WorkerPc R B}
    (h : Serial blk codeOf base σ) (hcore : Core σ)
    (hstep : WorkerStep blk w σ.shared (σ.workers w) s' p') :
    Serial blk codeOf base
      { σ with shared := s', workers := Function.update σ.workers w p' } := by
  obtain ⟨results, p, hpre, hcommits⟩ := h
  have hsame : ∀ t, t < σ.finality.idx → s'.column t = σ.shared.column t := fun t ht =>
    (hcore.worker_sameAt hstep ((hcore.final t).mpr ht)).1
  refine ⟨results, p, hpre.congr (fun l t ht => ?_) (fun t ht => ?_) fun t r ht hr => ?_, hcommits⟩
  · exact congrFun (congrArg Column.entries (hsame t ht)) l
  · exact congrArg Column.entry (hsame t ht)
  · exact (congrArg Column.result (hsame t ht)).symm.trans hr

theorem Serial.finality {t' : FinalityThread} (h : Serial blk codeOf base σ) (hcore : Core σ)
    (htime : Timely blk σ) (hinv : CommitInv blk σ) (hx : Explained blk codeOf base σ)
    (hstart : base.StartOf blk) (hfinalizes : ∀ t, (blk.spec t).Finalizes codeOf)
    (hstep : FinalityStep blk σ.shared σ.finality s' t') :
    Serial blk codeOf base { σ with shared := s', finality := t' } := by
  obtain ⟨results, p, hpre, hcommits⟩ := h
  obtain ⟨hmv, hhistory, hresults, -, -⟩ := hstep.frame
  have hcongr : ∀ {n results p}, SerialPrefix blk codeOf base σ.shared n results p →
      SerialPrefix blk codeOf base s' n results p := by
    intro n results p hpre
    refine hpre.congr (fun l t _ => by rw [hmv]) (fun t _ => by rw [hhistory]) fun t r _ hr => ?_
    rw [hresults] at hr
    exact hr
  cases hstep
  case finalize previous bound hpc hb =>
    obtain ⟨hpub, r, x, hr, hok, hholds⟩ := valid_of_decide hcore htime hinv hpc hb
    have hun := hcore.candidate (by rw [hpc]; rfl)
    have hexact : ∀ t, t < σ.finality.idx →
        ∃ effect, (σ.shared.history t).value = .exact effect := by
      intro t ht
      obtain ⟨effect, hentry⟩ := (hcore.published_of_final ((hcore.final t).mpr ht)).entry
      have hentry : σ.shared.history t = _ := hentry
      exact ⟨effect, by rw [hentry]⟩
    refine ⟨results ++ [x], _, hcongr (hpre.finalize hstart hfinalizes hexact (hx.result _)
      (by rw [hun]; rfl) hpub hr hok hholds), ⟨hcommits.txids, hcommits.length, hcommits.applied,
        fun y hy => ?_, hcommits.reward, hcommits.committed⟩⟩
    have hheld := hcommits.held y hy
    rw [List.getElem?_append_left (List.getElem?_eq_some_iff.mp hheld).1]
    exact hheld
  all_goals exact ⟨results, p, hcongr hpre, hcommits⟩

theorem CommitLoopPc.passed_of_isWaiting {pc : CommitLoopPc R B} (h : pc.isWaiting = true) :
    pc.passed = 0 ∧ pc.held = none := by
  cases pc <;> first | exact ⟨rfl, rfl⟩ | cases h

theorem Serial.commit {t' : CommitThread R B} {a : Action W} (h : Serial blk codeOf base σ)
    (hcore : Core σ) (hinv : CommitInv blk σ) (ha : a.thread = .commit)
    (hreads : CommittedReads blk base σ a)
    (hstep : CommitStep blk σ.shared σ.commit s' t') :
    Serial blk codeOf base { σ with shared := s', commit := t' } := by
  obtain ⟨results, p, hpre, hcommits⟩ := h
  obtain ⟨-, -, hhistory, hmv, -, hresults⟩ := hstep.columns
  refine ⟨results, p, hpre.congr (fun l t _ => by rw [hmv]) (fun t _ => by rw [hhistory])
    fun t r _ hr => ?_, ?_⟩
  · rcases hresults with heq | ⟨-, heq⟩
    · rw [heq] at hr
      exact hr
    · by_cases ht : t = σ.commit.idx
      · rw [heq, ht, Function.update_self] at hr
        cases hr
      · rw [heq, Function.update_of_ne ht] at hr
        exact hr
  -- a result that is taken is one of the final prefix
  have htake : ∀ {previous r x}, σ.commit.pc = .take previous →
      σ.shared.txResults σ.commit.idx = some r → r.executeResult = .ok x →
      results[σ.commit.idx]? = some x := by
    intro previous r x hpc hr hx
    exact hpre.kept _ r x (hcore.taking_lt hpc) hr hx
  cases hstep with
  | wait hpc hpc' =>
    obtain ⟨hpassed, -⟩ := CommitLoopPc.passed_of_isWaiting hpc
    obtain ⟨hpassed', hheld'⟩ := CommitLoopPc.passed_of_isWaiting hpc'
    exact hcommits.drop rfl (by simp only [hpassed, hpassed']) hheld'
  | leave hpc | enter hpc | ready hpc | takeFailed hpc | nonceError hpc | nonceMismatch hpc
  | rewardError hpc | apply hpc | applied hpc | publish hpc | abort hpc | aborted hpc =>
    exact hcommits.drop rfl (by rw [hpc]; rfl) rfl
  | drained hpc h hpc' =>
    obtain ⟨hpassed', hheld'⟩ := CommitLoopPc.passed_of_isWaiting hpc'
    exact hcommits.drop rfl (by simp only [hpassed', hpc]; rfl) hheld'
  | takeNonce hpc hr hx =>
    refine hcommits.move rfl (by rw [hpc]; rfl) (fun y hy => ?_) nofun
    cases hy
    exact htake hpc hr hx
  | take hpc hr hx hn ht =>
    exact hcommits.startReward hpre.sequential (htake hpc hr hx) (by rw [hpc]; rfl) ht
  | @nonce previous x pc backing pc' hpc =>
    refine hcommits.move rfl (by rw [hpc]; rfl) (fun y hy => ?_) nofun
    exact hcommits.held y (by rw [hpc]; exact hy)
  | @nonceMatch previous x pc backing info t' hpc h hn ht =>
    exact hcommits.startReward hpre.sequential (hcommits.held x (by rw [hpc]; rfl))
      (by rw [hpc]; rfl) ht
  | @reward previous x amount pc backing pc' hpc =>
    refine hcommits.move rfl (by rw [hpc]; rfl) (fun y hy => ?_) fun previous' y amount' q hq => ?_
    · exact hcommits.held y (by rw [hpc]; exact hy)
    · cases hq
      exact hcommits.reward _ _ _ _ hpc
  | @rewarded previous x amount pc backing info hpc h =>
    refine hcommits.startApply hpre.sequential (hcommits.held x (by rw [hpc]; rfl))
      (by rw [hpc]; rfl) (hreads _ _ _ _ _ _ ha hpc h) ?_
    rw [SpeculativeResult.settled, hcommits.reward _ _ _ _ hpc]
  | release hpc =>
    have hout := hinv.output
    rw [hpc] at hout
    refine hcommits.drop rfl ?_ rfl
    simp only [hpc]
    exact hout

theorem serial_initial (hbook : base.CodeBook codeOf) (backing : B.State) :
    Serial blk codeOf base (initial backing : SchedulerState W R B) := by
  refine ⟨[], base.plain, ⟨rfl, fun m results p hm hseq => ?_, fun t r x ht => ?_,
    fun t x ht => ?_⟩, ⟨nofun, rfl, nofun, nofun, nofun, fun results p h => ?_⟩⟩
  · obtain rfl := Nat.le_zero.mp hm
    cases hseq
    exact viewAgrees_base hbook _ _
  · exact absurd ht (Nat.not_lt_zero t)
  · cases ht
  · cases h
    rfl

/-- The reads of the workers are served up to final writes and stable, and
the ordered commit finds the beneficiary account it has committed. -/
structure ServedReads (blk : Block Err R) (codeOf : B256 → Bytecode) (base faults : Base Err)
    (σ : SchedulerState W R B) (a : Action W) : Prop where
  accesses : AccessesOk blk codeOf base faults σ a
  committed : CommittedReads blk base σ a

/-- Reads are fixed and stable. -/
structure SerialReads (blk : Block Err R) (base : Base Err) (σ : SchedulerState W R B)
    (a : Action W) : Prop where
  fixed : FixedReads base σ a
  committed : CommittedReads blk base σ a
  stable : StableReads blk σ a

theorem SerialReads.served {a : Action W} (h : SerialReads blk base σ a)
    (hbook : base.CodeBook codeOf) : ServedReads blk codeOf base base σ a :=
  ⟨accessesOk_of_fixedReads hbook h.fixed h.stable, h.committed⟩

variable [DecidableEq W] {backing : B.State} {faults : Base Err}

theorem serial_of_reach (hstart : base.StartOf blk) (hbook : base.CodeBook codeOf)
    (hfinalizes : ∀ t, (blk.spec t).Finalizes codeOf)
    (hprop : ∀ t, (blk.spec t).Propagates faults)
    (h : ReachableWhen blk backing (ServedReads blk codeOf base faults) σ) :
    Explained blk codeOf base σ ∧ Serial blk codeOf base σ := by
  refine Runs.Reach.invariant
    (I := fun σ => Explained blk codeOf base σ ∧ Serial blk codeOf base σ) h
    ⟨explained_initial backing, serial_initial hbook backing⟩
    fun σ a σ' hr ⟨hx, hserial⟩ hok hs => ?_
  have hcore := core_of_reach hr
  refine ⟨hx.step hcore hstart hprop hok.accesses hs, ?_⟩
  rcases step_threads hs with ⟨w, shared, pc, -, hw, rfl⟩ | ⟨shared, t', hf, rfl⟩ |
    ⟨shared, t', ha, hc, rfl⟩
  · exact hserial.worker hcore hw
  · exact hserial.finality hcore (timely_of_reach hr) (commitInv_of_reach hr) hx hstart
      hfinalizes hf
  · exact hserial.commit hcore (commitInv_of_reach hr) ha hok.committed hc

end

/-! ## A block with a deleted contract -/

/-- The storage of an account is read only after `basic` has returned the
account with code. -/
def Prog.StorageAfterCode : List Address → Prog Err R → Prop
  | loaded, .read (.basic address) continuation => ∀ answer,
      (continuation answer).StorageAfterCode
        (match answer with
          | .ok (.account (some view)) => if view.code = [] then loaded else address :: loaded
          | _ => loaded)
  | loaded, .read (.storage address _) continuation =>
      address ∈ loaded ∧ ∀ answer, (continuation answer).StorageAfterCode loaded
  | _, .done _ => True

/-- A contract whose first slot holds a value. -/
def Base.contract : Base Unit where
  beneficiary := 9
  anchor := none
  basic address := .ok
    (if address = 1 then some { balance := 0, nonce := 1, codeHash := 1, code := some [0] }
      else none)
  code codeHash := .ok (if codeHash = 1 then [0] else [1])
  storage address index := .ok (if address = 1 ∧ index = 1 then 7 else 0)

/-- The codes of the block. -/
def contractCode (codeHash : B256) : Bytecode := if codeHash = 1 then [0] else [1]

/-- Go on with a successful read. -/
def Prog.onOk (continuation : Value → Prog Unit U256) : Except Unit Value → Prog Unit U256
  | .ok value => continuation value
  | .error e => .done (.error (.database e))

/-- Transaction 0 deletes the contract, transaction 1 delegates the
address to other code without creating an account, and transaction 2
reads two slots if it finds code, and returns the first. -/
def Block.delegatedAfterDeletion : Block Unit U256 where
  size := 3
  beneficiary := 9
  anchor := none
  spec
    | 0 => .read (.basic 1) (Prog.onOk fun _ => .done (.ok
        ⟨0, AList.singleton 1 { Account.ofInfo .empty with
          touched := true, selfdestructed := true }, none⟩))
    | 1 => .read (.basic 1) (Prog.onOk fun _ => .done (.ok
        ⟨0, AList.singleton 1 (Account.ofInfo
          { balance := 0, nonce := 1, codeHash := 2, code := some [1] }).markTouch, none⟩))
    | _ => .read (.basic 1) (Prog.onOk fun account =>
        match account with
        | .account (some view) =>
          if view.code = [] then .done (.ok ⟨0, ∅, none⟩)
          else .read (.storage 1 1) (Prog.onOk fun first => .read (.storage 1 2) (Prog.onOk fun _ =>
            .done (.ok ⟨match first with | .word value => value | _ => 0, ∅, none⟩)))
        | _ => .done (.ok ⟨0, ∅, none⟩))
  immediate _ := .done (.ok ⟨0, ∅, none⟩)
  caller _ := 5
  nonce _ := 0
  disableNonceCheck := true

/-- The call to the database is the one the state read needs. -/
instance {base : Base Err} : DecidablePred (@CallPc.Asks Err base) := fun pc =>
  match pc with
  | .basicBacking address pc => @decEq Address _ pc address
  | .codeBacking _ info pc => @decEq B256 _ pc info.codeHash
  | .storageBacking address index pc => @decEq (Address × U256) _ pc (address, index)
  | .basicMv _ | .basicScan _ _ | .codeMv _ _ | .storageReset _ _ | .storageSlot _ _ _ =>
    inferInstanceAs (Decidable True)

/-- A step that keeps the versions an execution has read. -/
def keptRead (blk : Block Err R) (σ : SchedulerState W R B) (a : Action W) : Bool :=
  match a.thread with
  | .worker w =>
    match σ.workers w with
    | .exec v (.running db _ pc) =>
      db.readSet.entries.all fun e =>
        (callStep blk.anchor v.txid σ.shared.mvMemory σ.shared.history σ.shared.backing db
          pc).2.1.readSet.lookup e.1 == some e.2
    | _ => true
  | _ => true

theorem stableReads_of_keptRead {blk : Block Err R} {σ : SchedulerState W R B} {a : Action W}
    (h : keptRead blk σ a = true) : StableReads blk σ a := by
  intro w v db k pc ha hw l version hl
  simp only [keptRead, ha, hw, List.all_eq_true] at h
  have hentry := h ⟨l, version⟩ (AList.mem_lookup_iff.mp hl)
  simpa using hentry

section

variable {base : Base Err} {σ : SchedulerState W R base.backing} {a : Action W}

/-- A step that asks the base for what a state read needs, and pays no
reward. -/
def fixedRead (σ : SchedulerState W R base.backing) (a : Action W) : Bool :=
  match a.thread with
  | .worker w =>
    match σ.workers w with
    | .exec _ (.running _ _ pc) => decide pc.Asks
    | _ => true
  | .commit =>
    match σ.commit.pc with
    | .reward _ _ _ _ => false
    | _ => true
  | .finality => true

theorem fixedReads_of_fixedRead (h : fixedRead σ a = true) : FixedReads base σ a := by
  intro w v db k pc ha hw
  simp only [fixedRead, ha, hw, decide_eq_true_eq] at h
  exact h.backedBy

theorem committedReads_of_fixedRead {blk : Block Err R} (h : fixedRead σ a = true) :
    CommittedReads blk base σ a := by
  intro previous x amount pc backing info ha hpc
  simp only [fixedRead, ha, hpc] at h
  cases h

end

/-- Every account that a program leaves in place carries its code. -/
theorem Prog.finalizes_of_carried {codeOf : B256 → Bytecode} {prog : Prog Err R}
    (h : ∀ answer result address account info, prog.run answer = .ok result →
      result.state.lookup address = some account →
      (FinalizedAccount.ofAccount account).info? = some info →
        info.isEmptyCodeHash = false ∧ info.code = some (codeOf info.codeHash)) :
    prog.Finalizes codeOf where
  code answer result address account info hrun hlook hinfo _ :=
    .inl (h answer result address account info hrun hlook hinfo).2
  emptied answer result address account info view hrun hlook hinfo he := by
    rw [(h answer result address account info hrun hlook hinfo).1] at he
    cases he

theorem eq_of_lookup_singleton {address address' : Address} {account account' : Account}
    (h : (AList.singleton address account : EvmState).lookup address' = some account') :
    address' = address ∧ account' = account := by
  have hmem := AList.mem_lookup_iff.mp h
  cases List.mem_singleton.mp hmem
  exact ⟨rfl, rfl⟩

/-- An execution with a result has gone on after its read. -/
theorem Prog.run_of_onOk {call : Call} {k : Value → Prog Unit U256}
    {answer : Call → Except Unit Value} {result : SpeculativeResult U256}
    (h : (Prog.read call (Prog.onOk k)).run answer = .ok result) :
    ∃ value, (k value).run answer = .ok result := by
  rw [Prog.run] at h
  cases ha : answer call with
  | error e =>
    rw [ha] at h
    cases h
  | ok value =>
    rw [ha] at h
    exact ⟨value, h⟩

theorem Prog.propagates_onOk {base : Base Unit} {call : Call} {k : Value → Prog Unit U256}
    (h : ∀ value, (k value).Propagates base) :
    (Prog.read call (Prog.onOk k)).Propagates base :=
  ⟨fun _ _ => ⟨_, rfl⟩, h⟩

theorem delegatedAfterDeletion_finalizes (t : Nat) :
    (Block.delegatedAfterDeletion.spec t).Finalizes contractCode := by
  refine Prog.finalizes_of_carried fun answer result address account info hrun hlook hinfo => ?_
  rcases t with _ | _ | t
  · obtain ⟨_, hdone⟩ := Prog.run_of_onOk hrun
    cases hdone
    obtain ⟨-, rfl⟩ := eq_of_lookup_singleton hlook
    cases hinfo
  · obtain ⟨_, hdone⟩ := Prog.run_of_onOk hrun
    cases hdone
    obtain ⟨-, rfl⟩ := eq_of_lookup_singleton hlook
    cases hinfo
    decide
  · have hstate : result.state = ∅ := by
      obtain ⟨value, hk⟩ := Prog.run_of_onOk hrun
      split at hk
      · split at hk
        · cases hk
          rfl
        · obtain ⟨first, hk⟩ := Prog.run_of_onOk hk
          obtain ⟨_, hdone⟩ := Prog.run_of_onOk hk
          cases hdone
          rfl
      · cases hk
        rfl
    rw [hstate] at hlook
    cases hlook

theorem contract_codeBook : Base.contract.CodeBook contractCode := by
  intro address info hinfo he
  unfold Base.plain at hinfo
  dsimp only at hinfo
  split at hinfo
  · cases hinfo
  · simp only [Base.contract] at hinfo
    split at hinfo <;> cases hinfo
    exact ⟨rfl, fun code hc => by cases hc; rfl⟩

/-- The block meets what the sequential execution relies on. -/
theorem delegatedAfterDeletion_meets :
    Base.contract.StartOf Block.delegatedAfterDeletion ∧
      Base.contract.CodeBook contractCode ∧
      ∀ t, (Block.delegatedAfterDeletion.spec t).Finalizes contractCode ∧
        (Block.delegatedAfterDeletion.spec t).Propagates Base.contract ∧
        (Block.delegatedAfterDeletion.spec t).StorageAfterCode [] := by
  refine ⟨⟨rfl, rfl⟩, contract_codeBook, fun t => ⟨delegatedAfterDeletion_finalizes t, ?_, ?_⟩⟩
  · have hdone : ∀ {result}, (Prog.done result : Prog Unit U256).Propagates Base.contract :=
      trivial
    match t with
    | 0 => exact Prog.propagates_onOk fun _ => hdone
    | 1 => exact Prog.propagates_onOk fun _ => hdone
    | t + 2 =>
      refine Prog.propagates_onOk fun value => ?_
      split
      · split
        · exact hdone
        · exact Prog.propagates_onOk fun _ => Prog.propagates_onOk fun _ => hdone
      · exact hdone
  · match t with
    | 0 => exact fun answer => by cases answer <;> trivial
    | 1 => exact fun answer => by cases answer <;> trivial
    | t + 2 =>
      intro answer
      rcases answer with e | (_ | view) | word
      · trivial
      · trivial
      · by_cases hcode : view.code = []
        · simp only [hcode, if_true, Prog.onOk]
          trivial
        · simp only [hcode, if_false, Prog.onOk]
          refine ⟨List.mem_singleton_self _, fun first => ?_⟩
          cases first with
          | error e => trivial
          | ok first =>
            refine ⟨List.mem_singleton_self _, fun second => ?_⟩
            cases second <;> trivial
      · trivial

/-! ## The committed prefix -/

section

variable {blk : Block Err R} {base : Base Err} {codeOf : B256 → Bytecode} [DecidableEq W]
  {backing : B.State} {σ : SchedulerState W R B}

/-- **The committed prefix is serial.** In every run in which reads are
fixed and stable, the results and change sets that the commit loop has
applied are those of the sequential execution of as many transactions. -/
theorem committed_prefix_is_serial (hstart : base.StartOf blk) (hbook : base.CodeBook codeOf)
    (hfinalizes : ∀ t, (blk.spec t).Finalizes codeOf)
    (hprop : ∀ t, (blk.spec t).Propagates base)
    (h : ReachableWhen blk backing (SerialReads blk base) σ) :
    ∃ results p, blk.sequential codeOf base.plain σ.commit.applied.length = some (results, p) ∧
      σ.commit.applied.map Applied.result = results.map SpeculativeResult.result ∧
      ∀ (i : Nat) (a : Applied R), σ.commit.applied[i]? = some a →
        a.txid = i ∧ a.Serial blk codeOf base := by
  obtain ⟨-, results, p, hpre, hcommits⟩ := serial_of_reach hstart hbook hfinalizes hprop
    (h.mono fun _ _ h => h.served hbook)
  have hcore := core_of_reach h
  have hle : σ.commit.applied.length ≤ σ.finality.idx := by
    rw [hcommits.length]
    exact (Nat.add_le_add_left σ.commit.pc.passed_le_inner _).trans
      ((commitInv_of_reach h).inner_le hcore)
  have hserial : ∀ (i : Nat) (a : Applied R), σ.commit.applied[i]? = some a →
      a.txid = i ∧ a.Serial blk codeOf base := fun i a ha =>
    ⟨hcommits.txids i a ha, hcommits.applied a (List.mem_of_getElem? ha)⟩
  obtain ⟨results', p', hseq⟩ := Block.sequential_of_le hpre.sequential hle
  refine ⟨results', p', hseq, List.ext_getElem? fun i => ?_, hserial⟩
  rw [List.getElem?_map, List.getElem?_map]
  by_cases hi : i < σ.commit.applied.length
  · obtain ⟨a, ha⟩ : ∃ a, σ.commit.applied[i]? = some a := ⟨_, List.getElem?_eq_getElem hi⟩
    obtain ⟨x, hx⟩ : ∃ x, results'[i]? = some x :=
      ⟨_, List.getElem?_eq_getElem (by rw [Block.length_sequential hseq]; exact hi)⟩
    obtain ⟨rfl, _, q, result, account, hseqa, hrun, hresult, -⟩ := hserial i a ha
    obtain ⟨_, q', hseqx, hrunx⟩ := Block.sequential_at hseq hx
    rw [hseqa] at hseqx
    cases hseqx
    rw [hrun] at hrunx
    cases hrunx
    rw [ha, hx, Option.map_some, Option.map_some, hresult]
  · have hlen := Block.length_sequential hseq
    rw [List.getElem?_eq_none (by omega), List.getElem?_eq_none (by omega)]
    rfl

end

/-- One worker executes the block; nothing is stale. -/
theorem committed_prefix_is_serial_one_worker :
    ∃ σ : SchedulerState Unit U256 Base.contract.backing,
      ReachableWhen Block.delegatedAfterDeletion ()
        (SerialReads Block.delegatedAfterDeletion Base.contract) σ ∧
      σ.commit.applied.map Applied.result = [0, 0, 0] ∧
      ∃ results p, Block.delegatedAfterDeletion.sequential contractCode Base.contract.plain 3
          = some (results, p) ∧ results.map SpeculativeResult.result = [0, 0, 0] := by
  have hrun : (Runs.exec (Runs.guarded (step Block.delegatedAfterDeletion) fun σ a =>
      fixedRead σ a && keptRead Block.delegatedAfterDeletion σ a)
      (initial () : SchedulerState Unit U256 Base.contract.backing)
      (stepsOf (.worker ()) 160 ++ stepsOf .finality 18 ++
        stepsOf .commit 17)).map
      (fun σ => σ.commit.applied.map Applied.result) = some [0, 0, 0] := by decide +kernel
  obtain ⟨σ, hexec, hresults⟩ := Option.map_eq_some_iff.mp hrun
  have hreach : ReachableWhen Block.delegatedAfterDeletion ()
      (SerialReads Block.delegatedAfterDeletion Base.contract) σ := by
    refine (Runs.reach_of_exec hexec).of_guarded.mono fun σ a hcheck => ?_
    rw [Bool.and_eq_true] at hcheck
    exact ⟨fixedReads_of_fixedRead hcheck.1, committedReads_of_fixedRead hcheck.1,
      stableReads_of_keptRead hcheck.2⟩
  obtain ⟨hstart, hbook, hspec⟩ := delegatedAfterDeletion_meets
  obtain ⟨results, p, hseq, hmap, -⟩ := committed_prefix_is_serial hstart hbook
    (fun t => (hspec t).1) (fun t => (hspec t).2.1) hreach
  have hlen : σ.commit.applied.length = 3 := by
    rw [← List.length_map (f := Applied.result), hresults]
    rfl
  rw [hlen] at hseq
  exact ⟨σ, hreach, hresults, results, p, hseq, by rw [← hmap, hresults]⟩

/-- Transaction 0 has published the absence of the contract and not yet
the reset of its storage when transaction 1 delegates the address and
transaction 2 reads the first slot. The look-up for the second slot meets
the reset and replaces the version that the first was read under, so the
validation passes and the old value is committed; sequentially the slot
is zero. -/
theorem stale_slot_is_committed :
    (Base.contract.StartOf Block.delegatedAfterDeletion ∧
      Base.contract.CodeBook contractCode ∧
      ∀ t, (Block.delegatedAfterDeletion.spec t).Finalizes contractCode ∧
        (Block.delegatedAfterDeletion.spec t).Propagates Base.contract ∧
        (Block.delegatedAfterDeletion.spec t).StorageAfterCode []) ∧
    (∃ σ : SchedulerState (Fin 3) U256 Base.contract.backing,
      ReachableWhen Block.delegatedAfterDeletion ()
        (fun σ a => FixedReads Base.contract σ a ∧
          CommittedReads Block.delegatedAfterDeletion Base.contract σ a) σ ∧
      σ.commit.applied.map Applied.result = [0, 0, 7]) ∧
    (Block.delegatedAfterDeletion.sequential contractCode Base.contract.plain 3).map
      (fun r => r.1.map SpeculativeResult.result) = some [0, 0, 0] := by
  refine ⟨delegatedAfterDeletion_meets, ?_, by decide +kernel⟩
  have hrun : (Runs.exec (Runs.guarded (step Block.delegatedAfterDeletion) fixedRead)
      (initial () : SchedulerState (Fin 3) U256 Base.contract.backing)
      (List.replicate 17 { thread := .worker 0 } ++ List.replicate 19 { thread := .worker 1 } ++
        List.replicate 20 { thread := .worker 2 } ++ [{ thread := .worker 0 }] ++
        List.replicate 13 { thread := .worker 2 } ++ List.replicate 11 { thread := .worker 1 } ++
        List.replicate 70 { thread := .worker 0 } ++ List.replicate 18 { thread := .finality } ++
        List.replicate 17 { thread := .commit })).map
      (fun σ => σ.commit.applied.map Applied.result) = some [0, 0, 7] := by decide +kernel
  obtain ⟨σ, hexec, hresults⟩ := Option.map_eq_some_iff.mp hrun
  refine ⟨σ, (Runs.reach_of_exec hexec).of_guarded.mono fun σ a hcheck => ?_, hresults⟩
  exact ⟨fixedReads_of_fixedRead hcheck, committedReads_of_fixedRead hcheck⟩

end Grevm
