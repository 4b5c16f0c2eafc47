/-
Grevm.Scheduler.Replay — the sequential replay over plain accounts.

`execute_sequential_suffix` runs on a backing state. `Block.stops` is the
same loop over plain accounts and keeps the error that ends it. The two
agree as long as the backing state stands for the accounts
(`Block.ReplaysOn`, `executeSequentialSuffix_stops`), which the cache of a
`ParallelState` does (`replaysOn_parallelState`). Accounts that answer
alike end a replay alike (`Block.stops_congr`), and a replay from the
start of the block comes to the replay after any prefix that the workers'
programs execute and that passes the nonce check
(`Block.Replays.stops`).
-/
import Grevm.Scheduler.CachedAccounts
import Grevm.Scheduler.Control
import Grevm.Sequential

namespace Grevm

variable {Err R : Type} {B : Backing Err}

/-! ## Accounts that answer alike -/

/-- The accounts answer every state read alike: they differ in loaded
code only. -/
def Plain.Alike (codeOf : B256 → Bytecode) (p q : Address → Plain Err) : Prop :=
  ∀ address,
    (p address).basic.map (Option.map (AccountInfo.observed codeOf)) =
      (q address).basic.map (Option.map (AccountInfo.observed codeOf)) ∧
    (p address).storage = (q address).storage

section

variable {codeOf : B256 → Bytecode} {p q r : Address → Plain Err}

theorem Plain.Alike.refl (p : Address → Plain Err) : Plain.Alike codeOf p p :=
  fun _ => ⟨rfl, rfl⟩

theorem Plain.Alike.symm (h : Plain.Alike codeOf p q) : Plain.Alike codeOf q p :=
  fun address => ⟨(h address).1.symm, (h address).2.symm⟩

theorem Plain.Alike.trans (h : Plain.Alike codeOf p q) (h' : Plain.Alike codeOf q r) :
    Plain.Alike codeOf p r :=
  fun address => ⟨(h address).1.trans (h' address).1, (h address).2.trans (h' address).2⟩

theorem Plain.Alike.answer (h : Plain.Alike codeOf p q) :
    Plain.answer codeOf p = Plain.answer codeOf q := by
  funext call
  cases call with
  | basic address => simp only [Plain.answer, (h address).1]
  | storage address index => simp only [Plain.answer, (h address).2]

/-- Alike accounts stay alike under one change set. -/
theorem Plain.Alike.applyState (h : Plain.Alike codeOf p q) (state : EvmState) :
    Plain.Alike codeOf (Plain.applyState p state) (Plain.applyState q state) := by
  intro address
  simp only [Plain.applyState]
  cases state.lookup address with
  | none => exact h address
  | some account =>
    simp only [Plain.apply]
    cases FinalizedAccount.ofAccount account with
    | unchanged => exact h address
    | updated info => exact ⟨rfl, by rw [(h address).2]⟩
    | deleted | created info => exact ⟨rfl, rfl⟩

theorem AccountInfo.observed_congr (codeOf : B256 → Bytecode) {info info' : AccountInfo}
    (h : info.bare = info'.bare) : info.observed codeOf = info'.observed codeOf := by
  rw [← observed_bare codeOf info, h, observed_bare]

theorem AccountInfo.nonce_of_bare {info info' : Option AccountInfo}
    (h : info.map AccountInfo.bare = info'.map AccountInfo.bare) :
    info.map AccountInfo.nonce = info'.map AccountInfo.nonce := by
  have hnonce := congrArg (Option.map AccountInfo.nonce) h
  rw [Option.map_map, Option.map_map] at hnonce
  exact hnonce

/-- The beneficiary accounts that a result settles on may differ in loaded
code. -/
theorem Plain.Alike.settled (h : Plain.Alike codeOf p q) (result : SpeculativeResult R)
    {beneficiary : Address} {account account' : Option AccountInfo}
    (haccount : account.map AccountInfo.bare = account'.map AccountInfo.bare) :
    Plain.Alike codeOf (Plain.applyState p (result.settled beneficiary account))
      (Plain.applyState q (result.settled beneficiary account')) := by
  cases hreward : result.deferredReward with
  | none =>
    simp only [SpeculativeResult.settled, hreward]
    exact h.applyState result.state
  | some reward =>
    simp only [SpeculativeResult.settled, hreward]
    intro address
    by_cases ha : address = beneficiary
    · subst ha
      rw [applyState_withReward, applyState_withReward]
      refine ⟨?_, (h address).2⟩
      have hobserved := AccountInfo.observed_congr codeOf (reward.bare_applyTo haccount)
      exact congrArg (fun view => Except.ok (some view)) hobserved
    · have hne : ∀ (q : Address → Plain Err) (account : Option AccountInfo),
          Plain.applyState q (withReward beneficiary reward account result.state) address =
            Plain.applyState q result.state address := by
        intro q account
        unfold Plain.applyState withReward
        rw [AList.lookup_insert_ne ha]
      rw [hne, hne]
      exact h.applyState result.state address

/-- Alike accounts fail alike. -/
theorem Plain.Alike.basic_error (h : Plain.Alike codeOf p q) {address : Address} {e : Err}
    (he : (p address).basic = .error e) : (q address).basic = .error e := by
  have hbasic := (h address).1
  rw [he] at hbasic
  cases hq : (q address).basic with
  | error e' =>
    rw [hq] at hbasic
    cases hbasic
    rfl
  | ok info =>
    rw [hq] at hbasic
    cases hbasic

/-- Alike accounts differ in loaded code only. -/
theorem Plain.Alike.bare (h : Plain.Alike codeOf p q) (address : Address) :
    (p address).basic.map (Option.map AccountInfo.bare) =
      (q address).basic.map (Option.map AccountInfo.bare) := by
  have hbasic := (h address).1
  cases hp : (p address).basic with
  | error e => rw [h.basic_error hp]
  | ok info =>
    rw [hp] at hbasic
    cases hq : (q address).basic with
    | error e =>
      rw [hq] at hbasic
      cases hbasic
    | ok info' =>
      rw [hq] at hbasic
      have hviews : info.map (AccountInfo.observed codeOf) =
        info'.map (AccountInfo.observed codeOf) := Except.ok.inj hbasic
      have hbares := congrArg (Option.map fun view : AccountView =>
        ({ balance := view.balance, nonce := view.nonce, codeHash := view.codeHash, code := none } :
          AccountInfo)) hviews
      rw [Option.map_map, Option.map_map] at hbares
      exact congrArg Except.ok hbares

theorem Plain.Alike.nonce (h : Plain.Alike codeOf p q) (address : Address) :
    (p address).account.map AccountInfo.nonce = (q address).account.map AccountInfo.nonce := by
  have hbasic := (h address).1
  unfold Plain.account
  cases hp : (p address).basic with
  | error e =>
    rw [h.basic_error hp]
  | ok info =>
    rw [hp] at hbasic
    cases hq : (q address).basic with
    | error e =>
      rw [hq] at hbasic
      cases hbasic
    | ok info' =>
      rw [hq] at hbasic
      have hviews : info.map (AccountInfo.observed codeOf) =
        info'.map (AccountInfo.observed codeOf) := Except.ok.inj hbasic
      have hnonces := congrArg (Option.map AccountView.nonce) hviews
      rw [Option.map_map, Option.map_map] at hnonces
      exact hnonces

end

/-! ## The replay over plain accounts -/

/-- `reject_nonce_overflow` and the program of the sequential executor,
against fixed answers. -/
def Block.transactOn (blk : Block Err R) (answer : Call → Except Err Value) (txid : Nat) :
    Except (EVMError Err) (SpeculativeResult R) :=
  if !blk.disableNonceCheck && blk.nonce txid == BitVec.allOnes 64 then
    match answer (.basic (blk.caller txid)) with
    | .error e => .error (.database e)
    | .ok (.account (some view)) =>
      if view.nonce == BitVec.allOnes 64 then .error (.transaction .nonceOverflowInTransaction)
      else (blk.immediate txid).run answer
    | .ok _ => (blk.immediate txid).run answer
  else (blk.immediate txid).run answer

/-- The error that ends the execution of the next `count` transactions. -/
def Block.stops (blk : Block Err R) (codeOf : B256 → Bytecode) :
    Nat → Nat → (Address → Plain Err) → Option (GrevmError Err)
  | 0, _, _ => none
  | count + 1, txid, p =>
    match blk.transactOn (Plain.answer codeOf p) txid with
    | .ok result => blk.stops codeOf count (txid + 1) (Plain.applyState p result.state)
    | .error (.transaction _) => blk.stops codeOf count (txid + 1) p
    | .error error => some { txid, error }

section

variable {blk : Block Err R} {codeOf : B256 → Bytecode} {p q : Address → Plain Err}

theorem Block.stops_congr {count txid : Nat} (h : Plain.Alike codeOf p q) :
    blk.stops codeOf count txid p = blk.stops codeOf count txid q := by
  induction count generalizing txid p q with
  | zero => rfl
  | succ count ih =>
    simp only [stops, h.answer]
    cases blk.transactOn (Plain.answer codeOf q) txid with
    | ok result => exact ih (h.applyState result.state)
    | error error =>
      cases error with
      | transaction error => exact ih h
      | _ => rfl

/-- An invalid transaction is skipped. -/
theorem Block.fatal_of_stops {count txid : Nat} {error : GrevmError Err}
    (h : blk.stops codeOf count txid p = some error) : error.error.isTransaction = false := by
  induction count generalizing txid p with
  | zero => cases h
  | succ count ih =>
    simp only [stops] at h
    split at h
    · exact ih h
    · exact ih h
    · rename_i e hne _
      cases h
      cases e with
      | transaction e => exact absurd rfl (hne e)
      | _ => rfl

/-- A fatal error ends the replay. -/
theorem Block.stops_of_fatal {count txid : Nat} {error : EVMError Err}
    (hrun : blk.transactOn (Plain.answer codeOf p) txid = .error error)
    (hfatal : error.isTransaction = false) :
    blk.stops codeOf (count + 1) txid p = some { txid, error } := by
  simp only [stops, hrun]
  cases error with
  | transaction e => cases hfatal
  | _ => rfl

end

/-! ## The replay on a backing state -/

/-- A backing state that stands for plain accounts answers with them, and
goes on to do so after a commit of the block. -/
structure Block.ReplaysOn (blk : Block Err R) (B : Backing Err) (codeOf : B256 → Bytecode)
    (Stands : B.State → (Address → Plain Err) → Prop) : Prop where
  read : ∀ {s p}, Stands s p → ∀ call,
    (B.readNow s call).2 = Plain.answer codeOf p call ∧ Stands (B.readNow s call).1 p
  basic : ∀ {s p}, Stands s p → ∀ address,
    (B.basicNow s address).2.map (Option.map AccountInfo.bare) =
      (p address).basic.map (Option.map AccountInfo.bare) ∧ Stands (B.basicNow s address).1 p
  commit : ∀ {s s' p t result}, Stands s p → (blk.immediate t).runOn B s = (s', .ok result) →
    Stands s' p →
    ∃ s'', B.commitNow s' result.state = some s'' ∧ Stands s'' (Plain.applyState p result.state)

section

variable {blk : Block Err R} {codeOf : B256 → Bytecode} {p : Address → Plain Err} {s : B.State}
  {Stands : B.State → (Address → Plain Err) → Prop}

/-- A program whose reads are answered with the accounts has the result it
has over them. -/
theorem Prog.runOn_of_reads
    (h : ∀ {s}, Stands s p → ∀ call,
      (B.readNow s call).2 = Plain.answer codeOf p call ∧ Stands (B.readNow s call).1 p)
    (hs : Stands s p) (prog : Prog Err R) :
    (prog.runOn B s).2 = prog.run (Plain.answer codeOf p) ∧ Stands (prog.runOn B s).1 p := by
  induction prog generalizing s with
  | done result => exact ⟨rfl, hs⟩
  | read call k ih =>
    obtain ⟨hanswer, hs'⟩ := h hs call
    rw [Prog.run, ← hanswer]
    exact ih _ hs'

theorem Block.ReplaysOn.runOn (h : blk.ReplaysOn B codeOf Stands) (hs : Stands s p)
    (prog : Prog Err R) :
    (prog.runOn B s).2 = prog.run (Plain.answer codeOf p) ∧ Stands (prog.runOn B s).1 p :=
  prog.runOn_of_reads h.read hs

theorem Block.ReplaysOn.rejectNonceOverflow (h : blk.ReplaysOn B codeOf Stands) (hs : Stands s p)
    (t : Nat) :
    Stands (rejectNonceOverflow blk s t).1 p ∧
      blk.transactOn (Plain.answer codeOf p) t =
        ((rejectNonceOverflow blk s t).2.bind fun _ =>
          (blk.immediate t).run (Plain.answer codeOf p)) := by
  unfold Grevm.rejectNonceOverflow Block.transactOn
  split
  · obtain ⟨hbasic, hs'⟩ := h.basic hs (blk.caller t)
    simp only [Plain.answer]
    cases hfound : B.basicNow s (blk.caller t) with
    | mk s' found =>
      rw [hfound] at hbasic hs'
      cases hp : (p (blk.caller t)).basic with
      | error e =>
        rw [hp] at hbasic
        cases found with
        | error e' =>
          cases hbasic
          exact ⟨hs', rfl⟩
        | ok info => cases hbasic
      | ok info =>
        rw [hp] at hbasic
        cases found with
        | error e' => cases hbasic
        | ok info' =>
          refine ⟨hs', ?_⟩
          have hbare : info'.map AccountInfo.bare = info.map AccountInfo.bare :=
            Except.ok.inj hbasic
          dsimp only
          rw [AccountInfo.nonce_of_bare hbare]
          cases info with
          | none => rfl
          | some info =>
            simp only [Except.map, Option.map_some, Option.getD_some, AccountInfo.observed]
            split <;> rfl
  · exact ⟨hs, rfl⟩

/-- One transaction of the replay. -/
theorem Block.ReplaysOn.transact (h : blk.ReplaysOn B codeOf Stands) (hs : Stands s p) (t : Nat) :
    ∃ s', Grevm.transact blk s t = some (s', (blk.transactOn (Plain.answer codeOf p) t).map
        fun result => (result.result, result.state)) ∧
      Stands s' (match blk.transactOn (Plain.answer codeOf p) t with
        | .ok result => Plain.applyState p result.state
        | .error _ => p) := by
  obtain ⟨hs₁, hon⟩ := h.rejectNonceOverflow hs t
  rw [hon]
  unfold Grevm.transact
  cases hreject : Grevm.rejectNonceOverflow blk s t with
  | mk s₁ checked =>
    rw [hreject] at hs₁
    cases checked with
    | error e => exact ⟨s₁, rfl, hs₁⟩
    | ok _ =>
      obtain ⟨hrun, hs₂⟩ := h.runOn hs₁ (blk.immediate t)
      simp only [Except.bind]
      rw [← hrun]
      cases hprog : (blk.immediate t).runOn B s₁ with
      | mk s₂ outcome =>
        rw [hprog] at hrun hs₂
        cases outcome with
        | error e => exact ⟨s₂, rfl, hs₂⟩
        | ok result =>
          obtain ⟨s₃, hcommit, hs₃⟩ := h.commit hs₁ hprog hs₂
          refine ⟨s₃, ?_, hs₃⟩
          simp only [hcommit, Option.map_some, Except.map]

/-- What the replay returns. -/
def Block.replayResult (error : Option (GrevmError Err)) : Except (GrevmError Err) Unit :=
  match error with
  | none => .ok ()
  | some error => .error error

/-- **The replay on a backing state ends as the one over the accounts it
stands for.** -/
theorem executeSequentialSuffix_stops (h : blk.ReplaysOn B codeOf Stands) (count t : Nat)
    (hs : Stands s p) :
    ∃ report, executeSequentialSuffix blk count t s = some report ∧
      report.result = Block.replayResult (blk.stops codeOf count t p) := by
  induction count generalizing t s p with
  | zero => exact ⟨_, rfl, rfl⟩
  | succ count ih =>
    obtain ⟨s', htransact, hs'⟩ := h.transact hs t
    simp only [executeSequentialSuffix, Block.stops, htransact]
    cases hon : blk.transactOn (Plain.answer codeOf p) t with
    | ok result =>
      rw [hon] at hs'
      obtain ⟨report, hreport, hresult⟩ := ih (t + 1) hs'
      simp only [Except.map, hreport, Option.map_some]
      exact ⟨_, rfl, hresult⟩
    | error error =>
      rw [hon] at hs'
      cases error with
      | transaction error =>
        obtain ⟨report, hreport, hresult⟩ := ih (t + 1) hs'
        simp only [Except.map, hreport, Option.map_some]
        exact ⟨_, rfl, hresult⟩
      | _ => exact ⟨_, rfl, rfl⟩

end

/-! ## The replay on the cache -/

/-- The cache over `db` answers with the accounts: it is coherent with
them, and knows their code. -/
structure ParallelCacheState.StandsFor (db : Database Err) (codeOf : B256 → Bytecode)
    (book : B256 → Except Err Bytecode) (cache : ParallelCacheState) (p : Address → Plain Err) :
    Prop where
  coherent : ∀ address, Coherent db cache address { plain := p address }
  contracts : cache.ContractsOk db codeOf book
  code : ∀ address, (p address).CodeKnown codeOf book

/-- The code of every account is the one of its hash, whether it comes
with the account or is asked for. -/
def ParallelCacheState.CodeBook (db : Database Err) (codeOf : B256 → Bytecode)
    (cache : ParallelCacheState) : Prop :=
  ∀ address info, (cache.dbBasic db address).2 = .ok (some info) → info.isEmptyCodeHash = false →
    (cache.dbCodeByHash db info.codeHash).2 = .ok (codeOf info.codeHash) ∧
      ∀ code, info.code = some code → code = codeOf info.codeHash

/-- What revm guarantees of the change sets that the sequential executor
commits: finalized accounts carry their code, touched accounts have been
loaded, and created accounts come with code. -/
structure Prog.Committable (codeOf : B256 → Bytecode) (prog : Prog Err R) : Prop where
  finalizes : prog.Finalizes codeOf
  loads : ∀ answer result address account, prog.run answer = .ok result →
    result.state.lookup address = some account → account.touched = true →
    ∃ value, (.basic address, .ok value) ∈ prog.calls answer
  creates : ∀ answer result address account, prog.run answer = .ok result →
    result.state.lookup address = some account → account.created = true →
    account.info.code.isSome = true

section

variable {blk : Block Err R} {db : Database Err} {codeOf : B256 → Bytecode}
  {book : B256 → Except Err Bytecode} {cache : ParallelCacheState} {p : Address → Plain Err}

/-- After sequential commits the cache stands for the database overlaid by
them, and its own answers are the book. -/
theorem Commits.standsFor (hdb : db.StorageNeedsCode) {states : List EvmState}
    (h : Commits db cache states) (hbook : cache.CodeBook db codeOf) :
    cache.StandsFor db codeOf (fun codeHash => (cache.dbCodeByHash db codeHash).2)
      (Plain.overlay (Plain.ofDatabase db) states) where
  coherent := h.coherent hdb
  contracts :=
    { cached := fun codeHash code _ hcached =>
        .inl (by rw [ParallelCacheState.dbCodeByHash_eq, hcached]; rfl)
      absent := fun codeHash hvacant => by
        rw [ParallelCacheState.dbCodeByHash_eq, hvacant, Option.elim_none] }
  code address info hinfo he := by
    obtain ⟨hasked, hcarried⟩ :=
      hbook address info ((h.coherent hdb address).dbBasic.trans hinfo) he
    exact ⟨hcarried, fun _ => hasked⟩

namespace ParallelCacheState.StandsFor

theorem loadBasic (h : cache.StandsFor db codeOf book p) (hdb : db.StorageNeedsCode)
    (address : Address) : (cache.dbBasic db address).1.StandsFor db codeOf book p :=
  ⟨fun a => (h.coherent a).loadBasic hdb, h.contracts.loadBasic address, h.code⟩

theorem loadCode (h : cache.StandsFor db codeOf book p) (codeHash : B256) :
    (cache.dbCodeByHash db codeHash).1.StandsFor db codeOf book p :=
  ⟨fun a => (h.coherent a).loadCode, h.contracts.loadCode, h.code⟩

theorem loadStorage (h : cache.StandsFor db codeOf book p) (address : Address) (index : U256) :
    (cache.dbStorage db address index).1.StandsFor db codeOf book p :=
  ⟨fun a => (h.coherent a).loadStorage, h.contracts.loadStorage, h.code⟩

/-- A state read of the sequential executor is `basic` with its code. -/
theorem readNow_basic (address : Address) :
    ((parallelState db).readNow cache (.basic address)).2 =
      (cache.resolvedBasic db address).map .account := by
  simp only [Backing.readNow, parallelState, resolvedBasic]
  cases cache.dbBasic db address with
  | mk cache₁ found =>
    rcases found with e | (_ | info)
    · rfl
    · rfl
    · simp only [Except.bind]
      split
      · cases cache₁.dbCodeByHash db info.codeHash with
        | mk cache₂ code => cases code <;> rfl
      · rfl

theorem readNow (h : cache.StandsFor db codeOf book p) (hdb : db.StorageNeedsCode) (call : Call) :
    ((parallelState db).readNow cache call).2 = Plain.answer codeOf p call ∧
      ((parallelState db).readNow cache call).1.StandsFor db codeOf book p := by
  cases call with
  | basic address =>
    refine ⟨?_, ?_⟩
    · rw [readNow_basic, (h.coherent address).resolvedBasic h.contracts (h.code address)]
      rfl
    · have hloaded := h.loadBasic hdb address
      simp only [Backing.readNow, parallelState]
      cases hfound : cache.dbBasic db address with
      | mk cache₁ found =>
        rw [hfound] at hloaded
        rcases found with e | (_ | info)
        · exact hloaded
        · exact hloaded
        · dsimp only
          split
          · have hcode := hloaded.loadCode info.codeHash
            cases hload : cache₁.dbCodeByHash db info.codeHash with
            | mk cache₂ code =>
              rw [hload] at hcode
              cases code <;> exact hcode
          · exact hloaded
  | storage address index =>
    exact ⟨congrArg (Except.map Value.word) (h.coherent address).dbStorage,
      h.loadStorage address index⟩

theorem applyEvmState (h : cache.StandsFor db codeOf book p) (hdb : db.StorageNeedsCode)
    {cache' : ParallelCacheState} {state : EvmState}
    (hcarries : ∀ address account, state.lookup address = some account →
      account.CarriesCode codeOf)
    (happly : cache.applyEvmState state = some cache') :
    cache'.StandsFor db codeOf book (Plain.applyState p state) where
  coherent := by
    refine (applyRun_of_applyEvmState happly).coherent hdb (ApplyPc.ok_start state) rfl fun a => ?_
    rw [ApplyPc.expect_start]
    exact h.coherent a
  contracts := h.contracts.applyEvmState
    (fun address account hlook _ => hcarries address account hlook) happly
  code address := (h.code address).applyState (hcarries address)

end ParallelCacheState.StandsFor

/-! ### Accounts that were loaded -/

namespace ParallelCacheState

theorem growsTo_dbBasic (address : Address) : cache.GrowsTo (cache.dbBasic db address).1 := by
  unfold dbBasic
  split
  · exact .of_eq rfl
  · split
    · exact growsTo_insertLoaded
    · exact .of_eq rfl

/-- A state read keeps the accounts of the cache, and an account that it
returns is among them. -/
theorem accounts_readNow (call : Call) :
    cache.GrowsTo ((parallelState db).readNow cache call).1 ∧
      ∀ address value, call = .basic address →
        ((parallelState db).readNow cache call).2 = .ok value →
        HasAccount ((parallelState db).readNow cache call).1 address := by
  cases call with
  | storage address index =>
    exact ⟨.of_eq (accounts_dbStorage address index), fun _ _ hcall => by cases hcall⟩
  | basic address =>
    have hgrow : cache.GrowsTo (cache.dbBasic db address).1 := growsTo_dbBasic address
    simp only [Backing.readNow, parallelState]
    cases hfound : cache.dbBasic db address with
    | mk cache₁ found =>
      rw [hfound] at hgrow
      rcases found with e | (_ | info)
      · exact ⟨hgrow, fun _ _ _ hvalue => by cases hvalue⟩
      · refine ⟨hgrow, fun _ _ hcall _ => ?_⟩
        cases hcall
        exact hasAccount_dbBasic hfound
      · dsimp only
        split
        · have hcode : (cache₁.dbCodeByHash db info.codeHash).1.accounts = cache₁.accounts :=
            accounts_dbCodeByHash info.codeHash
          cases hload : cache₁.dbCodeByHash db info.codeHash with
          | mk cache₂ code =>
            rw [hload] at hcode
            cases code with
            | error e =>
              refine ⟨fun a ha => GrowsTo.of_eq hcode a (hgrow a ha), fun _ _ _ hvalue => ?_⟩
              cases hvalue
            | ok code =>
              refine ⟨fun a ha => GrowsTo.of_eq hcode a (hgrow a ha), fun _ _ hcall _ => ?_⟩
              cases hcall
              exact GrowsTo.of_eq hcode _ (hasAccount_dbBasic hfound)
        · refine ⟨hgrow, fun _ _ hcall _ => ?_⟩
          cases hcall
          exact hasAccount_dbBasic hfound

theorem growsTo_runOn (prog : Prog Err R) :
    cache.GrowsTo (prog.runOn (parallelState db) cache).1 := by
  induction prog generalizing cache with
  | done result => exact .of_eq rfl
  | read call k ih => exact fun a ha => ih _ a ((accounts_readNow call).1 a ha)

/-- The accounts that a program has loaded are in the cache. -/
theorem StandsFor.hasAccount_runOn (h : cache.StandsFor db codeOf book p)
    (hdb : db.StorageNeedsCode) {prog : Prog Err R} {address : Address} {value : Value}
    (hcall : (.basic address, .ok value) ∈ prog.calls (Plain.answer codeOf p)) :
    HasAccount (prog.runOn (parallelState db) cache).1 address := by
  induction prog generalizing cache with
  | done result => cases hcall
  | read call k ih =>
    obtain ⟨hanswer, hread⟩ := h.readNow hdb call
    rcases List.mem_cons.mp hcall with heq | hcall
    · obtain ⟨rfl, hvalue⟩ := Prod.mk.inj heq
      exact growsTo_runOn (k _) address
        ((accounts_readNow (.basic address)).2 address value rfl (hanswer.trans hvalue.symm))
    · rw [← hanswer] at hcall
      exact ih _ hread hcall

end ParallelCacheState

/-- The sequential executor runs on the cache. -/
theorem replaysOn_parallelState (hdb : db.StorageNeedsCode)
    (hcommits : ∀ t, (blk.immediate t).Committable codeOf) :
    blk.ReplaysOn (parallelState db) codeOf (ParallelCacheState.StandsFor db codeOf book) where
  read h call := h.readNow hdb call
  basic h address :=
    ⟨congrArg (Except.map (Option.map AccountInfo.bare)) (h.coherent address).dbBasic,
      h.loadBasic hdb address⟩
  commit := by
    intro cache cache' p t result h hexec h'
    have hprog := hcommits t
    have hrun := ((blk.immediate t).runOn_of_reads (B := parallelState db)
      (fun {_} hs call => ParallelCacheState.StandsFor.readNow hs hdb call) h).1
    rw [hexec] at hrun
    replace hrun := hrun.symm
    have hcovers : ParallelCacheState.Covers cache' result.state := by
      intro address account hlook htouched
      obtain ⟨value, hcall⟩ := hprog.loads _ _ _ _ hrun hlook htouched
      have hloaded := ParallelCacheState.StandsFor.hasAccount_runOn h hdb hcall
      rwa [hexec] at hloaded
    obtain ⟨cache'', happly, -⟩ := ParallelCacheState.exists_applyEvmState hcovers
      fun address account hlook hc => hprog.creates _ _ _ _ hrun hlook hc
    exact ⟨cache'', happly, ParallelCacheState.StandsFor.applyEvmState h' hdb
      (fun address account hlook => hprog.finalizes.carriesCode rfl hrun hlook) happly⟩

end

/-! ## The replay after an executed prefix -/

/-- The nonce check of the ordered commit passes. -/
def Block.NonceOk (blk : Block Err R) (p : Address → Plain Err) (t : Nat) : Prop :=
  blk.disableNonceCheck = true ∨
    nonceMatches (blk.nonce t) (p (blk.caller t)).account = true

/-- What the sequential executor does where the execution of the workers'
programs has come to: it leaves what a worker's program leaves when the
nonce is valid, and ends in a fatal error when the worker's program does
or the caller cannot be loaded. -/
structure Block.Replays (blk : Block Err R) (codeOf : B256 → Bytecode)
    (start : Address → Plain Err) : Prop where
  executed : ∀ {t results p result}, blk.sequential codeOf start t = some (results, p) →
    blk.NonceOk p t → (blk.spec t).run (Plain.answer codeOf p) = .ok result →
    ∃ output, (blk.immediate t).run (Plain.answer codeOf p) = .ok output ∧
      Plain.Alike codeOf (Plain.applyState p output.state)
        (Plain.commit blk.beneficiary p result)
  failed : ∀ {t results p error}, blk.sequential codeOf start t = some (results, p) →
    (blk.spec t).run (Plain.answer codeOf p) = .error error → error.isTransaction = false →
    ∃ error', blk.transactOn (Plain.answer codeOf p) t = .error error' ∧
      error'.isTransaction = false
  loaded : ∀ {t results p e}, blk.sequential codeOf start t = some (results, p) →
    (p (blk.caller t)).basic = .error e →
    ∃ error', blk.transactOn (Plain.answer codeOf p) t = .error error' ∧
      error'.isTransaction = false

section

variable {blk : Block Err R} {codeOf : B256 → Bytecode} {start p : Address → Plain Err}
  {results : List (SpeculativeResult R)} {n : Nat}

/-- A valid nonce is not the largest one. -/
theorem Block.NonceOk.transactOn {t : Nat} (h : blk.NonceOk p t)
    (answer : Call → Except Err Value) :
    blk.transactOn answer t = (blk.immediate t).run answer := by
  have hskip : (!blk.disableNonceCheck && blk.nonce t == BitVec.allOnes 64) = false := by
    rcases h with h | h
    · simp [h]
    · simp only [nonceMatches, Bool.and_eq_true, Bool.not_eq_true', beq_iff_eq,
        Bool.and_eq_false_iff] at h
      obtain ⟨hoverflow, hmatch⟩ := h
      rw [← hmatch, or_self] at hoverflow
      rw [hoverflow, Bool.and_false]
  unfold Block.transactOn
  rw [hskip]
  rfl

/-- A replay of the whole block comes to the replay after the prefix. -/
theorem Block.Replays.stops (h : blk.Replays codeOf start) (hn : n ≤ blk.size)
    (hseq : blk.sequential codeOf start n = some (results, p))
    (hnonces : ∀ t results p, t < n → blk.sequential codeOf start t = some (results, p) →
      blk.NonceOk p t) :
    blk.stops codeOf blk.size 0 start = blk.stops codeOf (blk.size - n) n p := by
  induction n generalizing results p with
  | zero =>
    cases hseq
    rfl
  | succ n ih =>
    obtain ⟨results', p', result, hprev, hrun, rfl, rfl⟩ := Block.sequential_succ_iff.mp hseq
    have hbefore := ih (by omega) hprev fun t results p ht => hnonces t results p (by omega)
    have hok := hnonces n results' p' (Nat.lt_succ_self n) hprev
    obtain ⟨output, hout, halike⟩ := h.executed hprev hok hrun
    have hcount : blk.size - n = blk.size - (n + 1) + 1 := by omega
    rw [hbefore, hcount, Block.stops, hok.transactOn, hout]
    exact Block.stops_congr halike

/-- A fatal error after the prefix ends the replay of the whole block. -/
theorem Block.Replays.stops_of_fatal (h : blk.Replays codeOf start) (hn : n < blk.size)
    (hseq : blk.sequential codeOf start n = some (results, p))
    (hnonces : ∀ t results p, t < n → blk.sequential codeOf start t = some (results, p) →
      blk.NonceOk p t) {error : EVMError Err}
    (hrun : blk.transactOn (Plain.answer codeOf p) n = .error error)
    (hfatal : error.isTransaction = false) :
    blk.stops codeOf blk.size 0 start = some { txid := n, error } := by
  have hcount : blk.size - n = blk.size - (n + 1) + 1 := by omega
  rw [h.stops (Nat.le_of_lt hn) hseq hnonces, hcount]
  exact Block.stops_of_fatal hrun hfatal

end

end Grevm
