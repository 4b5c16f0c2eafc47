/-
Grevm.Settlement — beneficiary rewards, paid at once or at the commit.

`src/beneficiary/reward.rs`, the lifecycle of `GrevmHandler` in
`src/delegated_safety/handler.rs` and the two ways `src/scheduler` drives
it: workers run with `BeneficiaryMode::Deferred` and without the nonce
check of revm (`execute_incarnation`), the sequential executor with
`BeneficiaryMode::Immediate` and the nonce check of the configuration.

A transaction is given by what revm does with it up to the reward: its
validation, and an adaptive program that leaves a result, the journal and
the gas (`Body`). From it both programs of a block are built
(`EvmBlock.block`), so that what the rest of the development assumes of
them can be proved: against the same accounts, and when the nonce is
valid, they end in the same error or the same result, and paying the
deferred reward at the commit leaves the accounts that the immediate
reward leaves (`EvmBlock.settledAlike`). Both leave the code of accounts
alone when what happens before the reward does
(`EvmTransaction.keepsCode_run`).
-/
import Grevm.Scheduler.Replay
import Grevm.Words

namespace Grevm

variable {Err R : Type}

/-! ## The reward of a transaction -/

/-- The part of revm's `Gas` that the reward reads. -/
structure Gas where
  used : BitVec 64
  reservoir : BitVec 64
  deriving DecidableEq

/-- What the reward reads of configuration and block. -/
structure RewardEnv where
  beneficiary : Address
  basefee : BitVec 64
  feeChargeDisabled : Bool
  london : Bool
  deriving DecidableEq

/-- `BeneficiaryReward::from_gas`; the product is taken in 128 bits.
Without fees there is no reward, which is not a reward of zero. -/
def RewardEnv.fromGas (env : RewardEnv) (effectiveGasPrice : BitVec 128 → BitVec 128) (gas : Gas) :
    Option U256 :=
  if env.feeChargeDisabled then none
  else
    let basefee := env.basefee.setWidth 128
    let effectiveGasPrice := effectiveGasPrice basefee
    let beneficiaryGasPrice :=
      if env.london then Words.satSub effectiveGasPrice basefee else effectiveGasPrice
    let effectiveUsed := Words.satSub gas.used gas.reservoir
    some ((beneficiaryGasPrice * effectiveUsed.setWidth 128).setWidth 256)

/-! ## A transaction up to its reward -/

/-- The execution result, the gas and the journal when the reward is due. -/
structure Journaled (R : Type) where
  result : R
  gas : Gas
  state : EvmState

/-- What revm does between the checks of the caller and the reward: an
adaptive program over state reads. The reserve policy is a part of it, as
it does not look at the beneficiary policy. -/
inductive Body (Err R : Type) where
  | read (call : Call) (continuation : Except Err Value → Body Err R)
  | done (outcome : Except (EVMError Err) (Journaled R))

/-- A transaction as the handler sees it. `invalid` is the verdict of the
validation that needs no state, `rejectsCaller` that of the check for code
of the caller (EIP-3607), which comes before the nonce. -/
structure EvmTransaction (Err R : Type) where
  caller : Address
  nonce : BitVec 64
  effectiveGasPrice : BitVec 128 → BitVec 128
  invalid : Option (EVMError Err)
  rejectsCaller : Option AccountView → Option InvalidTransaction
  body : Option AccountView → Body Err R

/-- The answer of `basic`. -/
def Value.loaded : Value → Option AccountView
  | .account view => view
  | .word _ => none

/-- revm's check of the nonce; an absent account has nonce zero. -/
def nonceVerdict (nonce : BitVec 64) (caller : Option AccountView) : Option InvalidTransaction :=
  let state := (caller.map AccountView.nonce).getD 0
  if state < nonce then some (.nonceTooHigh nonce state)
  else if nonce < state then some (.nonceTooLow nonce state)
  else none

/-! ## Settlement -/

/-- The journal account of a loaded one. -/
def AccountView.info (view : AccountView) : AccountInfo :=
  { balance := view.balance
    nonce := view.nonce
    codeHash := view.codeHash
    code := some view.code }

/-- revm's `incr_balance`: touch, then a checked addition. -/
def Account.incrBalance (account : Account) (amount : U256) : Account :=
  if account.info.balance.toNat + amount.toNat < 2 ^ 256 then
    { account.markTouch with
      info := { account.info with balance := account.info.balance + amount } }
  else account.markTouch

/-- revm's `reward_beneficiary`: the beneficiary is taken from the journal
or loaded into it, and credited. Nothing happens without fees. -/
def rewardBeneficiary (env : RewardEnv) (reward : Option U256) (journal : Journaled R)
    (finish : Journaled R → Prog Err R) : Prog Err R :=
  match reward with
  | none => finish journal
  | some amount =>
    let credit (account : Account) : Journaled R :=
      { journal with state := journal.state.insert env.beneficiary (account.incrBalance amount) }
    match journal.state.lookup env.beneficiary with
    | some account => finish (credit account)
    | none => .read (.basic env.beneficiary) fun
      | .ok value =>
        finish (credit (Account.ofInfo ((value.loaded.map AccountView.info).getD .empty)))
      | .error e => .done (.error (.database e))

inductive BeneficiaryMode where
  | deferred
  | immediate
  deriving DecidableEq

/-- `BeneficiaryMode::apply`: a reward that is not zero is deferred when
the beneficiary is not in the journal. `finish` takes the journal and the
deferred reward. -/
def BeneficiaryMode.apply (mode : BeneficiaryMode) (env : RewardEnv) (reward : Option U256)
    (journal : Journaled R)
    (finish : Journaled R → Option DeferredBeneficiaryReward → Prog Err R) : Prog Err R :=
  match mode, reward with
  | .immediate, _ => rewardBeneficiary env reward journal fun journal => finish journal none
  | .deferred, none => finish journal none
  | .deferred, some amount =>
    if h : amount = 0 ∨ (journal.state.lookup env.beneficiary).isSome then
      rewardBeneficiary env (some amount) journal fun journal => finish journal none
    else finish journal (some ⟨amount, fun hzero => h (.inl hzero)⟩)

/-- revm's `finalize`: every account of the journal in the form its fork
gives it. -/
def EvmState.finalize (normalize : Account → Account) (state : EvmState) : EvmState :=
  ⟨state.entries.map (Sigma.map id fun _ => normalize), state.nodupKeys.map₂ _ _⟩

/-- `into_speculative` of the handler's output and the finalized state. -/
def Journaled.intoSpeculative (normalize : Account → Account) (journal : Journaled R)
    (reward : Option DeferredBeneficiaryReward) : Prog Err R :=
  .done (.ok ⟨journal.result, EvmState.finalize normalize journal.state, reward⟩)

/-- The rest of the handler's run once the caller is accepted. -/
def Body.settle (mode : BeneficiaryMode) (env : RewardEnv) (normalize : Account → Account)
    (effectiveGasPrice : BitVec 128 → BitVec 128) : Body Err R → Prog Err R
  | .read call continuation =>
    .read call fun answer => (continuation answer).settle mode env normalize effectiveGasPrice
  | .done (.error e) => .done (.error e)
  | .done (.ok journal) =>
    mode.apply env (env.fromGas effectiveGasPrice journal.gas) journal fun journal reward =>
      journal.intoSpeculative normalize reward

/-- `GrevmHandler::run` and `finalize`. -/
def EvmTransaction.run (tx : EvmTransaction Err R) (disableNonceCheck : Bool)
    (mode : BeneficiaryMode) (env : RewardEnv) (normalize : Account → Account) : Prog Err R :=
  match tx.invalid with
  | some error => .done (.error error)
  | none => .read (.basic tx.caller) fun
    | .error e => .done (.error (.database e))
    | .ok value =>
      match tx.rejectsCaller value.loaded with
      | some error => .done (.error (.transaction error))
      | none =>
        match if disableNonceCheck then none else nonceVerdict tx.nonce value.loaded with
        | some error => .done (.error (.transaction error))
        | none => (tx.body value.loaded).settle mode env normalize tx.effectiveGasPrice

/-- A block of such transactions. `normalize` is what `finalize` does to
an account: it only concerns empty ones. -/
structure EvmBlock (Err R : Type) where
  size : Nat
  env : RewardEnv
  anchor : Option AccountInfo
  transactions : Nat → EvmTransaction Err R
  disableNonceCheck : Bool
  normalize : Account → Account
  normalize_of_not_empty : ∀ account, account.isEmpty = false → normalize account = account

/-- The programs of the workers and of the sequential executor. -/
def EvmBlock.block (blk : EvmBlock Err R) : Block Err R where
  size := blk.size
  beneficiary := blk.env.beneficiary
  anchor := blk.anchor
  spec t := (blk.transactions t).run true .deferred blk.env blk.normalize
  immediate t := (blk.transactions t).run blk.disableNonceCheck .immediate blk.env blk.normalize
  caller t := (blk.transactions t).caller
  nonce t := (blk.transactions t).nonce
  disableNonceCheck := blk.disableNonceCheck

/-! ## Credits -/

theorem EvmState.lookup_finalize (normalize : Account → Account) (state : EvmState)
    (address : Address) :
    (EvmState.finalize normalize state).lookup address =
      (state.lookup address).map normalize :=
  List.dlookup_map₂ address

/-- A credit in the journal and one at the commit make the same account. -/
theorem Account.incrBalance_ofInfo (reward : DeferredBeneficiaryReward)
    (account : Option AccountInfo) :
    (Account.ofInfo (account.getD .empty)).incrBalance reward.amount =
      (Account.ofInfo (reward.applyTo account)).markTouch := by
  by_cases hfits : (account.getD .empty).balance.toNat + reward.amount.toNat < 2 ^ 256
  · have hpaid : reward.applyTo account = { account.getD .empty with
        balance := (account.getD .empty).balance + reward.amount } := if_pos hfits
    rw [hpaid]
    exact if_pos hfits
  · have hpaid : reward.applyTo account = account.getD .empty := if_neg hfits
    rw [hpaid]
    exact if_neg hfits

/-- The account that either credit leaves. -/
theorem Plain.applyState_rewarded {q : Address → Plain Err} {beneficiary : Address}
    {state : EvmState} {reward : DeferredBeneficiaryReward} {account : Option AccountInfo}
    (h : state.lookup beneficiary = some (Account.ofInfo (reward.applyTo account)).markTouch) :
    Plain.applyState q state beneficiary =
      { basic := .ok (some (reward.applyTo account)), storage := (q beneficiary).storage } := by
  rw [Plain.applyState_of_lookup h]
  exact Plain.apply_updated rfl rfl rfl (reward.isEmpty_applyTo account)

theorem Value.loaded_answer {codeOf : B256 → Bytecode} {p : Address → Plain Err}
    {address : Address} {info : Option AccountInfo} (h : (p address).basic = .ok info) :
    Plain.answer codeOf p (.basic address) =
      .ok (.account (info.map (AccountInfo.observed codeOf))) := by
  rw [Plain.answer, h]
  rfl

/-! ## The two modes -/

/-- Two outcomes of one transaction over the accounts `p`: the same error,
or the same result, where the deferred reward is paid at the commit to a
beneficiary that the change set does not mention. -/
inductive SettledAlike (codeOf : B256 → Bytecode) (beneficiary : Address)
    (p : Address → Plain Err) : Except (EVMError Err) (SpeculativeResult R) →
    Except (EVMError Err) (SpeculativeResult R) → Prop where
  | error (e : EVMError Err) : SettledAlike codeOf beneficiary p (.error e) (.error e)
  | ok (deferred immediate : SpeculativeResult R) (hresult : immediate.result = deferred.result)
      (hsettled : immediate.deferredReward = none)
      (habsent : deferred.deferredReward.isSome → deferred.state.lookup beneficiary = none)
      (halike : Plain.Alike codeOf (Plain.applyState p immediate.state)
        (Plain.commit beneficiary p deferred)) :
      SettledAlike codeOf beneficiary p (.ok deferred) (.ok immediate)

section

variable {codeOf : B256 → Bytecode} {env : RewardEnv} {normalize : Account → Account}
  {p : Address → Plain Err} {info : Option AccountInfo}

/-- A result with nothing deferred is settled. -/
theorem SettledAlike.of_settled (x : SpeculativeResult R) (h : x.deferredReward = none) :
    SettledAlike codeOf env.beneficiary p (.ok x) (.ok x) := by
  refine .ok x x rfl h (fun hsome => ?_) ?_
  · rw [h] at hsome
    cases hsome
  · rw [Plain.commit, SpeculativeResult.settled, h]
    exact .refl _

theorem SettledAlike.rewardBeneficiary (reward : Option U256) (journal : Journaled R) :
    let outcome := (Grevm.rewardBeneficiary env reward journal fun journal =>
      (journal.intoSpeculative normalize none : Prog Err R)).run (Plain.answer codeOf p)
    SettledAlike codeOf env.beneficiary p outcome outcome := by
  dsimp only
  unfold Grevm.rewardBeneficiary
  cases reward with
  | none => exact .of_settled _ rfl
  | some amount =>
    dsimp only
    cases journal.state.lookup env.beneficiary with
    | some account => exact .of_settled _ rfl
    | none =>
      dsimp only [Prog.run]
      cases Plain.answer codeOf p (.basic env.beneficiary) with
      | error e => exact .error _
      | ok value => exact .of_settled _ rfl

/-- The account that an immediate reward leaves and the one that the
commit of the deferred reward leaves. -/
theorem SettledAlike.deferred (hnormalize : ∀ account, account.isEmpty = false →
      normalize account = account)
    (hinfo : (p env.beneficiary).basic = .ok info) (journal : Journaled R)
    (reward : DeferredBeneficiaryReward) (habsent : journal.state.lookup env.beneficiary = none) :
    SettledAlike codeOf env.beneficiary p
      ((journal.intoSpeculative normalize (some reward)).run (Plain.answer codeOf p))
      ((Grevm.rewardBeneficiary env (some reward.amount) journal fun journal =>
        journal.intoSpeculative normalize none).run (Plain.answer codeOf p)) := by
  simp only [Grevm.rewardBeneficiary, habsent, Prog.run, Value.loaded_answer hinfo,
    Journaled.intoSpeculative]
  refine .ok _ _ rfl rfl (fun _ => ?_) fun address => ?_
  · rw [EvmState.lookup_finalize, habsent]
    rfl
  by_cases ha : address = env.beneficiary
  · subst ha
    let loaded := (info.map (AccountInfo.observed codeOf)).map AccountView.info
    have hbare : loaded.map AccountInfo.bare = info.map AccountInfo.bare := by
      cases info <;> rfl
    have hlook : (EvmState.finalize normalize (journal.state.insert env.beneficiary
        ((Account.ofInfo (loaded.getD .empty)).incrBalance reward.amount))).lookup
          env.beneficiary = some (Account.ofInfo (reward.applyTo loaded)).markTouch := by
      rw [EvmState.lookup_finalize, AList.lookup_insert, Account.incrBalance_ofInfo]
      exact congrArg some (hnormalize _ (reward.isEmpty_applyTo loaded))
    have hcommit : (Plain.commit env.beneficiary p
        (⟨journal.result, EvmState.finalize normalize journal.state, some reward⟩ :
          SpeculativeResult R)) env.beneficiary =
        { basic := .ok (some (reward.applyTo info)), storage := (p env.beneficiary).storage } := by
      rw [Plain.commit_reward rfl, Plain.account, hinfo]
      rfl
    have himmediate := Plain.applyState_rewarded (q := p) hlook
    rw [hcommit]
    dsimp only [Value.loaded]
    rw [himmediate]
    refine ⟨?_, rfl⟩
    exact congrArg (fun view => Except.ok (some view))
      (AccountInfo.observed_congr codeOf (reward.bare_applyTo hbare))
  · -- the other accounts are those of the journal in both
    have hother : ∀ (state : EvmState), state.lookup address =
        (EvmState.finalize normalize journal.state).lookup address →
        Plain.applyState p state address =
          Plain.applyState p (EvmState.finalize normalize journal.state) address := by
      intro state hlook
      simp only [Plain.applyState, hlook]
    have himmediate := hother (EvmState.finalize normalize (journal.state.insert env.beneficiary
      ((Account.ofInfo (((info.map (AccountInfo.observed codeOf)).map AccountView.info).getD
        .empty)).incrBalance reward.amount)))
      (by rw [EvmState.lookup_finalize, EvmState.lookup_finalize, AList.lookup_insert_ne ha])
    have hdeferred := hother (withReward env.beneficiary reward (p env.beneficiary).account
      (EvmState.finalize normalize journal.state)) (AList.lookup_insert_ne ha)
    simp only [Plain.commit, SpeculativeResult.settled, Value.loaded]
    rw [hdeferred, himmediate]
    exact ⟨rfl, rfl⟩

/-- The reward of one journal. -/
theorem SettledAlike.apply (hnormalize : ∀ account, account.isEmpty = false →
      normalize account = account)
    (hinfo : (p env.beneficiary).basic = .ok info) (reward : Option U256)
    (journal : Journaled R) :
    SettledAlike codeOf env.beneficiary p
      ((BeneficiaryMode.deferred.apply env reward journal fun journal reward =>
        journal.intoSpeculative normalize reward).run (Plain.answer codeOf p))
      ((BeneficiaryMode.immediate.apply env reward journal fun journal reward =>
        journal.intoSpeculative normalize reward).run (Plain.answer codeOf p)) := by
  cases reward with
  | none => exact .of_settled _ rfl
  | some amount =>
    simp only [BeneficiaryMode.apply]
    split
    · exact .rewardBeneficiary (some amount) journal
    · rename_i hdefer
      have habsent : journal.state.lookup env.beneficiary = none := by
        simpa using fun h => hdefer (.inr h)
      exact .deferred hnormalize hinfo journal ⟨amount, fun h => hdefer (.inl h)⟩ habsent

/-- The body of a transaction does not depend on the mode: by induction on
what it reads. -/
theorem SettledAlike.settle (hnormalize : ∀ account, account.isEmpty = false →
      normalize account = account)
    (hinfo : (p env.beneficiary).basic = .ok info)
    (effectiveGasPrice : BitVec 128 → BitVec 128) (body : Body Err R) :
    SettledAlike codeOf env.beneficiary p
      ((body.settle .deferred env normalize effectiveGasPrice).run (Plain.answer codeOf p))
      ((body.settle .immediate env normalize effectiveGasPrice).run (Plain.answer codeOf p)) := by
  induction body with
  | read call continuation ih => exact ih (Plain.answer codeOf p call)
  | done outcome =>
    cases outcome with
    | error e => exact .error e
    | ok journal => exact .apply hnormalize hinfo _ journal

end

/-- A valid nonce passes revm's check too. -/
theorem nonceVerdict_of_nonceMatches (codeOf : B256 → Bytecode) {nonce : BitVec 64}
    {caller : Option AccountInfo} (h : nonceMatches nonce caller = true) :
    nonceVerdict nonce (caller.map (AccountInfo.observed codeOf)) = none := by
  simp only [nonceMatches, Bool.and_eq_true, beq_iff_eq] at h
  have hnonce : ((caller.map (AccountInfo.observed codeOf)).map AccountView.nonce).getD 0 =
      nonce := by
    rw [h.2, Option.map_map]
    rfl
  simp only [nonceVerdict, hnonce, BitVec.lt_irrefl, if_false]

/-- **Deferred and immediate settlement agree.** Over accounts in which
the beneficiary can be read and the nonce of the transaction is valid, the
program of a worker and that of the sequential executor end in the same
error, or in the same result: nothing is left to settle by the second, a
reward is deferred by the first only for a beneficiary outside its change
set, and paying it at the commit leaves the accounts of the second. -/
theorem EvmBlock.settledAlike (blk : EvmBlock Err R) (codeOf : B256 → Bytecode)
    {p : Address → Plain Err} {t : Nat} {info : Option AccountInfo}
    (hnonce : blk.block.NonceOk p t) (hinfo : (p blk.env.beneficiary).basic = .ok info) :
    SettledAlike codeOf blk.env.beneficiary p
      ((blk.block.spec t).run (Plain.answer codeOf p))
      ((blk.block.immediate t).run (Plain.answer codeOf p)) := by
  simp only [EvmBlock.block, EvmTransaction.run]
  cases (blk.transactions t).invalid with
  | some error => exact .error error
  | none =>
    simp only [Prog.run]
    cases hcaller : (p (blk.transactions t).caller).basic with
    | error e =>
      have hanswer : Plain.answer codeOf p (.basic (blk.transactions t).caller) = .error e := by
        rw [Plain.answer, hcaller]
        rfl
      rw [hanswer]
      exact .error _
    | ok caller =>
      rw [Value.loaded_answer hcaller]
      dsimp only [Value.loaded]
      cases (blk.transactions t).rejectsCaller (caller.map (AccountInfo.observed codeOf)) with
      | some error => exact .error _
      | none =>
        have hverdict : (if blk.disableNonceCheck then none
            else nonceVerdict (blk.transactions t).nonce
              (caller.map (AccountInfo.observed codeOf))) = none := by
          rcases hnonce with hdisabled | hmatch
          · exact if_pos hdisabled
          · have hmatch : nonceMatches (blk.transactions t).nonce
                (p (blk.transactions t).caller).account = true := hmatch
            have haccount : (p (blk.transactions t).caller).account = caller := by
              rw [Plain.account, hcaller]
              rfl
            rw [haccount] at hmatch
            rw [nonceVerdict_of_nonceMatches codeOf hmatch, ite_self]
        simp only [if_true, hverdict]
        exact .settle blk.normalize_of_not_empty hinfo _ _

/-! ## Transactions that leave code alone -/

/-- The account has been loaded by one of the calls, and has the code it
was loaded with. -/
def Account.KeepsCode (calls : List (Call × Except Err Value)) (address : Address)
    (account : Account) : Prop :=
  account.created = false ∧ ∃ value : Value, (.basic address, .ok value) ∈ calls ∧
    account.info.codeHash = ((value.loaded.map AccountView.info).getD .empty).codeHash ∧
    account.info.code = ((value.loaded.map AccountView.info).getD .empty).code

def EvmState.KeepsCode (calls : List (Call × Except Err Value)) (state : EvmState) : Prop :=
  ∀ address account, state.lookup address = some account → account.KeepsCode calls address

/-- So it is with every account that the program leaves, whatever its calls
answer. -/
def Prog.KeepsCode (calls : List (Call × Except Err Value)) : Prog Err R → Prop
  | .read call continuation => ∀ answer, (continuation answer).KeepsCode (calls ++ [(call, answer)])
  | .done (.ok result) => EvmState.KeepsCode calls result.state
  | .done (.error _) => True

def Body.KeepsCode (calls : List (Call × Except Err Value)) : Body Err R → Prop
  | .read call continuation => ∀ answer, (continuation answer).KeepsCode (calls ++ [(call, answer)])
  | .done (.ok journal) => EvmState.KeepsCode calls journal.state
  | .done (.error _) => True

section

variable {codeOf : B256 → Bytecode} {calls : List (Call × Except Err Value)} {prog : Prog Err R}
  {answer : Call → Except Err Value} {result : SpeculativeResult R} {env : RewardEnv}
  {normalize : Account → Account}

theorem EvmState.KeepsCode.append {state : EvmState} (h : EvmState.KeepsCode calls state)
    (more : List (Call × Except Err Value)) : EvmState.KeepsCode (calls ++ more) state := by
  intro address account hlook
  obtain ⟨hcreated, value, hcall, hcode⟩ := h address account hlook
  exact ⟨hcreated, value, List.mem_append_left _ hcall, hcode⟩

theorem Prog.KeepsCode.run (h : prog.KeepsCode calls) (hrun : prog.run answer = .ok result) :
    EvmState.KeepsCode (calls ++ prog.calls answer) result.state := by
  induction prog generalizing calls with
  | read call continuation ih =>
    rw [Prog.calls, List.append_cons]
    exact ih _ (h _) hrun
  | done outcome =>
    cases hrun
    exact EvmState.KeepsCode.append h _

theorem FinalizedAccount.eq_of_info? {account : Account} {info : AccountInfo}
    (h : (FinalizedAccount.ofAccount account).info? = some info) : account.info = info := by
  unfold FinalizedAccount.ofAccount at h
  split_ifs at h <;> cases h <;> rfl

/-- The laws of revm hold for such programs. -/
theorem Prog.KeepsCode.finalizes (h : prog.KeepsCode []) : prog.Finalizes codeOf where
  code answer result address account info hrun hlook hinfo he := by
    obtain ⟨-, value, hcall, hhash, hcode⟩ := h.run hrun address account hlook
    rw [FinalizedAccount.eq_of_info? hinfo] at hhash hcode
    cases value with
    | account view =>
      cases view with
      | none =>
        -- an account that does not exist has no code
        rw [AccountInfo.isEmptyCodeHash, hhash] at he
        simp [AccountInfo.empty, Value.loaded] at he
      | some view => exact .inr ⟨view, hcall, hhash.symm, hcode⟩
    | word _ =>
      rw [AccountInfo.isEmptyCodeHash, hhash] at he
      simp [AccountInfo.empty, Value.loaded] at he
  emptied answer result address account info view hrun hlook hinfo he hcall hview := by
    obtain ⟨-, value, hcall', hhash, -⟩ := h.run hrun address account hlook
    cases (Prog.answer_of_mem_calls hcall').symm.trans (Prog.answer_of_mem_calls hcall)
    rw [FinalizedAccount.eq_of_info? hinfo] at hhash
    rw [AccountInfo.isEmptyCodeHash, hhash, beq_iff_eq] at he
    exact absurd he hview

theorem Prog.KeepsCode.committable (h : prog.KeepsCode []) : prog.Committable codeOf where
  finalizes := h.finalizes
  loads answer result address account hrun hlook _ := by
    obtain ⟨-, value, hcall, -⟩ := h.run hrun address account hlook
    exact ⟨value, hcall⟩
  creates answer result address account hrun hlook hcreated := by
    rw [(h.run hrun address account hlook).1] at hcreated
    cases hcreated

theorem Account.KeepsCode.incrBalance {address : Address} {account : Account}
    (h : account.KeepsCode calls address) (amount : U256) :
    (account.incrBalance amount).KeepsCode calls address := by
  unfold Account.incrBalance
  split <;> exact h

theorem EvmState.KeepsCode.insert {state : EvmState} {address : Address} {account : Account}
    (h : EvmState.KeepsCode calls state) (haccount : account.KeepsCode calls address) :
    EvmState.KeepsCode calls (state.insert address account) := by
  intro address' account' hlook
  by_cases ha : address' = address
  · subst ha
    rw [AList.lookup_insert] at hlook
    cases hlook
    exact haccount
  · rw [AList.lookup_insert_ne ha] at hlook
    exact h address' account' hlook

theorem Journaled.keepsCode_intoSpeculative (hnormalize : ∀ account, normalize account = account)
    {journal : Journaled R} (h : EvmState.KeepsCode calls journal.state)
    (deferred : Option DeferredBeneficiaryReward) :
    (journal.intoSpeculative normalize deferred : Prog Err R).KeepsCode calls := by
  intro address account hlook
  rw [EvmState.lookup_finalize] at hlook
  obtain ⟨before, hbefore, rfl⟩ := Option.map_eq_some_iff.mp hlook
  rw [hnormalize]
  exact h address before hbefore

/-- A reward changes a balance only. -/
theorem keepsCode_rewardBeneficiary (hnormalize : ∀ account, normalize account = account)
    {journal : Journaled R} (h : EvmState.KeepsCode calls journal.state) (reward : Option U256) :
    (rewardBeneficiary env reward journal fun journal =>
      (journal.intoSpeculative normalize none : Prog Err R)).KeepsCode calls := by
  unfold rewardBeneficiary
  cases reward with
  | none => exact Journaled.keepsCode_intoSpeculative hnormalize h none
  | some amount =>
    dsimp only
    cases hbeneficiary : journal.state.lookup env.beneficiary with
    | some account =>
      exact Journaled.keepsCode_intoSpeculative hnormalize
        (h.insert ((h env.beneficiary account hbeneficiary).incrBalance amount)) none
    | none =>
      intro answer
      cases answer with
      | error e => trivial
      | ok value =>
        have hloaded : (Account.ofInfo ((value.loaded.map AccountView.info).getD .empty)).KeepsCode
            (calls ++ [(.basic env.beneficiary, .ok value)]) env.beneficiary :=
          ⟨rfl, value, by simp, rfl, rfl⟩
        exact Journaled.keepsCode_intoSpeculative hnormalize
          ((h.append _).insert (hloaded.incrBalance amount)) none

theorem Body.KeepsCode.settle (hnormalize : ∀ account, normalize account = account)
    {body : Body Err R} (h : body.KeepsCode calls) (mode : BeneficiaryMode)
    (effectiveGasPrice : BitVec 128 → BitVec 128) :
    (body.settle mode env normalize effectiveGasPrice).KeepsCode calls := by
  induction body generalizing calls with
  | read call continuation ih => exact fun answer => ih answer (h answer)
  | done outcome =>
    cases outcome with
    | error e => trivial
    | ok journal =>
      unfold Body.settle BeneficiaryMode.apply
      dsimp only
      split
      · exact keepsCode_rewardBeneficiary hnormalize h _
      · exact Journaled.keepsCode_intoSpeculative hnormalize h none
      · split
        · exact keepsCode_rewardBeneficiary hnormalize h _
        · exact Journaled.keepsCode_intoSpeculative hnormalize h _

/-- A transaction leaves code alone when its body does. -/
theorem EvmTransaction.keepsCode_run (hnormalize : ∀ account, normalize account = account)
    {tx : EvmTransaction Err R} (h : ∀ value : Value,
      (tx.body value.loaded).KeepsCode [(.basic tx.caller, .ok value)])
    (disableNonceCheck : Bool) (mode : BeneficiaryMode) :
    (tx.run disableNonceCheck mode env normalize).KeepsCode [] := by
  unfold EvmTransaction.run
  split
  · trivial
  · intro answer
    cases answer with
    | error e => trivial
    | ok value =>
      dsimp only
      split
      · trivial
      · split
        · trivial
        · exact (h value).settle hnormalize mode tx.effectiveGasPrice

end

end Grevm
