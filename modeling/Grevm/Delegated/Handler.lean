/-
Grevm.Delegated.Handler — the reserve check around one transaction.

`WithReserveHandler` of `src/delegated_safety/handler.rs`. The steps of
revm's transaction lifecycle that the handler calls and does not define
are the fields of `RevmHooks`: the deduction of the gas, the
authorizations, and the gas rules. What the handler itself does is
written out: the checkpoint between authorizations and execution, the
check after the caller is reimbursed, and the rollback that leaves a
charged revert.

A journal is reverted by undoing its entries from the end. `Replays` says
that every entry after the checkpoint records the step it was pushed for,
so that undoing it restores balances, nonces, code and storage; then a
revert leads back to the checkpoint (`Journal.Replays.revert_world`), the
reimbursement inside the reverted region included. Panics are `none`.
-/
import Grevm.Delegated.Journal

namespace Grevm

open Words

/-! ## Reverting a journal -/

/-- revm undoes one journal entry. -/
def JournalEntry.undo (entry : JournalEntry) (world : World) : World :=
  match entry with
  | .balanceTransfer source target value =>
    let balance := Function.update world.balance source (world.balance source + value)
    { world with balance := Function.update balance target (balance target - value) }
  | .accountDestroyed address target hadBalance =>
    let balance := Function.update world.balance address (world.balance address + hadBalance)
    { world with
      balance := if address = target then balance
        else Function.update balance target (balance target - hadBalance) }
  | .balanceChange address oldBalance =>
    { world with balance := Function.update world.balance address oldBalance }
  | .nonceChange address previousNonce =>
    { world with nonce := Function.update world.nonce address previousNonce }
  | .nonceBump address =>
    { world with nonce := Function.update world.nonce address (world.nonce address - 1) }
  | .accountCreated address => { world with nonce := Function.update world.nonce address 0 }
  | .codeChange address => { world with code := Function.update world.code address none }
  | .storageChanged address key hadValue =>
    { world with
      storage := Function.update world.storage address
        (Function.update (world.storage address) key hadValue) }
  | .other => world

/-- `checkpoint_revert`. -/
def Journal.revert (journal : Journal) (checkpoint : Nat) : Journal :=
  { journal with
    world := (journal.entries.drop checkpoint).foldr JournalEntry.undo journal.world
    entries := journal.entries.take checkpoint }

/-- The entries after the checkpoint record the steps between the states
`world i`: a real balance move that undoing takes back. -/
structure Journal.Replays (journal : Journal) (checkpoint : Nat) (world : Nat → World) :
    Prop where
  le : checkpoint ≤ journal.entries.length
  moves : ∀ i entry, checkpoint ≤ i → journal.entries[i]? = some entry →
    entry.Moves (world i).balance (world (i + 1)).balance
  restores : ∀ i entry, checkpoint ≤ i → journal.entries[i]? = some entry →
    entry.undo (world (i + 1)) = world i
  final : world journal.entries.length = journal.world

/-! ## Accounts of the journal -/

section

variable {Err : Type}

/-- `load_account_mut`: an account that is not in the journaled state is
read from the database, which may fail on it. -/
def Journal.load (fails : Address → Option Err) (journal : Journal) (address : Address) :
    Except (EVMError Err) Journal :=
  if journal.loaded address then .ok journal
  else
    match fails address with
    | some e => .error (.database e)
    | none => .ok { journal with loaded := Function.update journal.loaded address true }

/-- `incr_balance`: an overflowing credit is dropped. -/
def Journal.incrBalance (journal : Journal) (address : Address) (amount : U256) : Journal :=
  match checkedAdd (journal.world.balance address) amount with
  | none => journal
  | some balance =>
    if journal.world.balance address = balance then journal
    else
      { journal with
        world := { journal.world with
          balance := Function.update journal.world.balance address balance }
        entries := journal.entries ++
          [.balanceChange address (journal.world.balance address)] }

/-- `bump_nonce`; `none` on overflow. -/
def Journal.bumpNonce (journal : Journal) (address : Address) : Option Journal :=
  if (journal.world.nonce address).toNat + 1 < 2 ^ 64 then
    some { journal with
      world := { journal.world with
        nonce := Function.update journal.world.nonce address (journal.world.nonce address + 1) }
      entries := journal.entries ++ [.nonceBump address] }
  else none

end

/-! ## The handler -/

inductive InstructionResult where
  | success
  | revert
  | halt
  deriving DecidableEq

structure FrameResult (Gas : Type) where
  result : InstructionResult
  output : List UInt8
  gas : Gas

/-- The parts of revm's lifecycle that the handler calls. -/
structure RevmHooks (Err Gas ResultGas Init : Type) where
  deductCaller : Journal → Except (EVMError Err) Journal
  loadAccounts : Journal → Except (EVMError Err) Journal
  applyAuthList : Journal → Except (EVMError Err) (Journal × Int)
  refund : Gas → Int → Gas
  setRefundZero : Gas → Gas
  buildResultGas : Bool → Gas → Init → ResultGas
  checkGasFloor : Gas → Init → Gas
  /-- Effective gas price times unused and refunded gas. -/
  reimbursement : Gas → U256
  /-- The addresses on which the database fails. -/
  fails : Address → Option Err

section

variable {Err Gas ResultGas Init : Type} (hooks : RevmHooks Err Gas ResultGas Init)

/-- `pre_execution`: the journal, the authorization refund and the
execution checkpoint. -/
def preExecution (journal : Journal) : Except (EVMError Err) (Journal × Int × Nat) :=
  (hooks.deductCaller journal).bind fun journal =>
    (hooks.loadAccounts journal).bind fun journal =>
      (hooks.applyAuthList journal).map fun (journal, refund) =>
        (journal, refund, journal.entries.length)

/-- `reimburse_caller`. -/
def reimburseCaller (tx : TxEnv) (journal : Journal) (gas : Gas) :
    Except (EVMError Err) Journal :=
  (journal.load hooks.fails tx.caller).map fun journal =>
    journal.incrBalance tx.caller (hooks.reimbursement gas)

/-- `reserve_violation_result`. -/
def reserveViolationResult (gas : Gas) : FrameResult Gas :=
  { result := .revert, output := [], gas := hooks.setRefundZero gas }

/-- `reapply_create_sender_nonce`. -/
def reapplyCreateSenderNonce (tx : TxEnv) (journal : Journal) :
    Except (EVMError Err) Journal :=
  (journal.load hooks.fails tx.caller).bind fun journal =>
    match journal.bumpNonce tx.caller with
    | some journal => .ok journal
    | none => .error (.transaction .nonceOverflowInTransaction)

/-- The loop of `has_reserve_violation` over the candidates. -/
def reserveViolation (txid : Nat) : ReservePlanner → List DelegatedDebit →
    Option (Bool × ReservePlanner)
  | planner, [] => some (false, planner)
  | planner, candidate :: candidates =>
    (planner.requiredAfter txid candidate.address).bind fun (futureCost, planner) =>
      if futureCost = 0 then reserveViolation txid planner candidates
      else
        let required :=
          if candidate.balanceBefore ≤ futureCost then candidate.balanceBefore else futureCost
        if candidate.finalBalance < required then some (true, planner)
        else reserveViolation txid planner candidates

/-- What `post_execution` has settled before the beneficiary is
rewarded. -/
structure SettledResult (Gas ResultGas : Type) where
  resultGas : ResultGas
  execResult : FrameResult Gas
  journal : Journal
  planner : ReservePlanner

/-- Refund, gas floor and reimbursement of one frame result. -/
def settleGas (tx : TxEnv) (journal : Journal) (execResult : FrameResult Gas) (init : Init)
    (authRefund : Int) : Except (EVMError Err) (ResultGas × FrameResult Gas × Journal) :=
  let refunded := hooks.refund execResult.gas authRefund
  let resultGas := hooks.buildResultGas (execResult.result == .halt) refunded init
  let floored := hooks.checkGasFloor refunded init
  (reimburseCaller hooks tx journal floored).map fun journal =>
    (resultGas, { execResult with gas := floored }, journal)

/-- The rollback of `enforce_reserve`. -/
def rollBack (tx : TxEnv) (journal : Journal) (checkpoint : Nat) (executionGas : Gas)
    (init : Init) (authRefund : Int) :
    Except (EVMError Err) (ResultGas × FrameResult Gas × Journal) :=
  let journal := journal.revert checkpoint
  (if tx.kind = .create then reapplyCreateSenderNonce hooks tx journal else .ok journal).bind
    fun journal =>
      settleGas hooks tx journal (reserveViolationResult hooks executionGas) init authRefund

/-- `post_execution` up to the beneficiary; the missing checkpoint fails
the `expect`. -/
def beforeReward (txid : Nat) (tx : TxEnv) (planner : ReservePlanner) (journal : Journal)
    (checkpoint : Option Nat) (execResult : FrameResult Gas) (init : Init) (authRefund : Int) :
    Option (Except (EVMError Err) (SettledResult Gas ResultGas)) :=
  match settleGas hooks tx journal execResult init authRefund with
  | .error e => some (.error e)
  | .ok (resultGas, settledResult, reimbursed) =>
    checkpoint.bind fun checkpoint =>
      (reserveViolation txid planner (reimbursed.delegatedDebitsSince checkpoint tx)).map
        fun (violated, planner) =>
          if violated then
            (rollBack hooks tx reimbursed checkpoint execResult.gas init authRefund).map
              fun (resultGas, execResult, journal) =>
                { resultGas, execResult, journal, planner }
          else
            .ok { resultGas, execResult := settledResult, journal := reimbursed, planner }

/-- `post_execution`: the beneficiary policy runs last. -/
def postExecution (txid : Nat) (tx : TxEnv) (planner : ReservePlanner) (journal : Journal)
    (checkpoint : Option Nat) (execResult : FrameResult Gas) (init : Init) (authRefund : Int)
    (applyBeneficiary : SettledResult Gas ResultGas →
      Except (EVMError Err) (Journal × Option DeferredBeneficiaryReward)) :
    Option (Except (EVMError Err)
      (ResultGas × FrameResult Gas × Journal × Option DeferredBeneficiaryReward)) :=
  (beforeReward hooks txid tx planner journal checkpoint execResult init authRefund).map
    fun settled => settled.bind fun settled =>
      (applyBeneficiary settled).map fun (journal, reward) =>
        (settled.resultGas, settled.execResult, journal, reward)

end

/-! ## What a revert leaves -/

section

variable {ε α β : Type}

theorem exists_of_bind_ok {x : Except ε α} {f : α → Except ε β} {b : β}
    (h : x.bind f = .ok b) : ∃ a, x = .ok a ∧ f a = .ok b := by
  cases x with
  | error e => cases h
  | ok a => exact ⟨a, rfl, h⟩

theorem exists_of_map_ok {x : Except ε α} {f : α → β} {b : β} (h : x.map f = .ok b) :
    ∃ a, x = .ok a ∧ f a = b := by
  cases x with
  | error e => cases h
  | ok a => exact ⟨a, rfl, Except.ok.inj h⟩

end

section

variable {journal : Journal} {checkpoint : Nat} {world : Nat → World} {address : Address}
  {amount : U256}

/-- Undoing the entries from the end meets every recorded state. -/
theorem Journal.Replays.foldr_undo (h : journal.Replays checkpoint world) {i : Nat}
    (hi : checkpoint ≤ i) (hle : i ≤ journal.entries.length) :
    (journal.entries.drop i).foldr JournalEntry.undo journal.world = world i := by
  induction hn : journal.entries.length - i generalizing i with
  | zero =>
    obtain rfl : i = journal.entries.length := by omega
    rw [List.drop_length, h.final]
    rfl
  | succ n ih =>
    have hlt : i < journal.entries.length := by omega
    rw [List.drop_eq_getElem_cons hlt, List.foldr_cons, ih (by omega) (by omega) (by omega)]
    exact h.restores i _ hi (List.getElem?_eq_getElem hlt)

/-- **Rollback.** A revert leads back to the state at the checkpoint. -/
theorem Journal.Replays.revert_world (h : journal.Replays checkpoint world) :
    (journal.revert checkpoint).world = world checkpoint :=
  h.foldr_undo le_rfl h.le

/-- One more recorded step. -/
theorem Journal.Replays.push (h : journal.Replays checkpoint world) {entry : JournalEntry}
    {next : World} (hmoves : entry.Moves journal.world.balance next.balance)
    (hundo : entry.undo next = journal.world) :
    Journal.Replays { journal with world := next, entries := journal.entries ++ [entry] } checkpoint
      fun i => if i ≤ journal.entries.length then world i else next := by
  have hstep : ∀ i e, (journal.entries ++ [entry])[i]? = some e →
      (journal.entries[i]? = some e ∧ i + 1 ≤ journal.entries.length) ∨
        (i = journal.entries.length ∧ e = entry) := by
    intro i e he
    by_cases hlt : i < journal.entries.length
    · rw [List.getElem?_append_left hlt] at he
      exact .inl ⟨he, hlt⟩
    · rw [List.getElem?_append_right (by omega)] at he
      have hi : i - journal.entries.length = 0 := by
        by_contra hne
        rw [List.getElem?_eq_none (by simp; omega)] at he
        cases he
      rw [hi] at he
      exact .inr ⟨by omega, (Option.some.inj he).symm⟩
  have hend : world journal.entries.length = journal.world := h.final
  refine ⟨by simpa using Nat.le_succ_of_le h.le, fun i e hi he => ?_, fun i e hi he => ?_, ?_⟩
  · rcases hstep i e he with ⟨he, hle⟩ | ⟨rfl, rfl⟩
    · rw [if_pos (by omega), if_pos hle]
      exact h.moves i e hi he
    · rw [if_pos le_rfl, if_neg (by omega), hend]
      exact hmoves
  · rcases hstep i e he with ⟨he, hle⟩ | ⟨rfl, rfl⟩
    · rw [if_pos hle, if_pos (by omega)]
      exact h.restores i e hi he
    · rw [if_neg (by omega), if_pos le_rfl, hend]
      exact hundo
  · simp

theorem Journal.load_eq {Err : Type} {fails : Address → Option Err} {journal' : Journal}
    (h : journal.load fails address = .ok journal') :
    journal'.world = journal.world ∧ journal'.entries = journal.entries := by
  unfold Journal.load at h
  split at h
  · cases h
    exact ⟨rfl, rfl⟩
  · split at h
    · cases h
    · cases h
      exact ⟨rfl, rfl⟩

theorem Journal.Replays.congr {journal' : Journal} (h : journal.Replays checkpoint world)
    (hw : journal'.world = journal.world) (he : journal'.entries = journal.entries) :
    journal'.Replays checkpoint world :=
  ⟨he ▸ h.le, he ▸ h.moves, he ▸ h.restores, by rw [he, hw]; exact h.final⟩

/-- At the execution checkpoint nothing is recorded yet. -/
theorem replays_of_preExecution {Err Gas ResultGas Init : Type}
    {hooks : RevmHooks Err Gas ResultGas Init} {started : Journal} {refund : Int}
    (h : preExecution hooks journal = .ok (started, refund, checkpoint)) :
    started.Replays checkpoint fun _ => started.world := by
  obtain ⟨deducted, -, h⟩ := exists_of_bind_ok h
  obtain ⟨loaded, -, h⟩ := exists_of_bind_ok h
  obtain ⟨authorized, -, heq⟩ := exists_of_map_ok h
  obtain rfl : started.entries.length = checkpoint := by
    cases heq
    rfl
  have hnone : ∀ (i : Nat) (entry : JournalEntry), started.entries.length ≤ i →
      started.entries[i]? ≠ some entry := by
    intro i entry hi
    simp [List.getElem?_eq_none hi]
  exact ⟨le_rfl, fun i entry hi he => absurd he (hnone i entry hi),
    fun i entry hi he => absurd he (hnone i entry hi), rfl⟩

/-- The balances after a credit; one that overflows is dropped. -/
def World.credit (world : World) (address : Address) (amount : U256) : World :=
  { world with
    balance := Function.update world.balance address
      ((checkedAdd (world.balance address) amount).getD (world.balance address)) }

theorem Journal.incrBalance_world (journal : Journal) (address : Address) (amount : U256) :
    (journal.incrBalance address amount).world = journal.world.credit address amount := by
  unfold Journal.incrBalance World.credit
  split
  · rename_i h
    simp [h]
  · rename_i balance h
    split
    · rename_i hsame
      simp [h, ← hsame]
    · simp [h]

/-- A credit is a recorded step, so that it is rolled back with the
others. -/
theorem Journal.Replays.incrBalance (h : journal.Replays checkpoint world) (address : Address)
    (amount : U256) :
    ∃ world', (journal.incrBalance address amount).Replays checkpoint world' ∧
      ∀ i ≤ journal.entries.length, world' i = world i := by
  unfold Journal.incrBalance
  split
  · exact ⟨world, h, fun _ _ => rfl⟩
  · split
    · exact ⟨world, h, fun _ _ => rfl⟩
    · refine ⟨_, h.push ⟨rfl, fun a ha => ?_⟩ ?_, fun i hi => if_pos hi⟩
      · exact Function.update_of_ne ha _ _
      · simp [JournalEntry.undo]

theorem Journal.bumpNonce_eq {journal' : Journal} (h : journal.bumpNonce address = some journal') :
    (journal.world.nonce address).toNat + 1 < 2 ^ 64 ∧
      journal'.world = { journal.world with
        nonce := Function.update journal.world.nonce address (journal.world.nonce address + 1) } := by
  unfold Journal.bumpNonce at h
  split at h
  · rename_i hlt
    cases h
    exact ⟨hlt, rfl⟩
  · cases h

end

/-! ## A charged revert -/

section

variable {Err Gas ResultGas Init : Type} {hooks : RevmHooks Err Gas ResultGas Init}
  {tx : TxEnv} {journal journal' : Journal} {checkpoint : Nat} {world : Nat → World}
  {execResult execResult' : FrameResult Gas} {init : Init} {authRefund : Int}
  {resultGas : ResultGas}

/-- The gas of a frame result after the authorization refund and the gas
floor. -/
def settledGas (hooks : RevmHooks Err Gas ResultGas Init) (gas : Gas) (init : Init)
    (authRefund : Int) : Gas :=
  hooks.checkGasFloor (hooks.refund gas authRefund) init

theorem settleGas_eq
    (h : settleGas hooks tx journal execResult init authRefund =
      .ok (resultGas, execResult', journal')) :
    resultGas = hooks.buildResultGas (execResult.result == .halt)
        (hooks.refund execResult.gas authRefund) init ∧
      ∃ loaded, journal.load hooks.fails tx.caller = .ok loaded ∧
        journal' = loaded.incrBalance tx.caller
          (hooks.reimbursement (settledGas hooks execResult.gas init authRefund)) := by
  unfold settleGas reimburseCaller at h
  cases hl : journal.load hooks.fails tx.caller with
  | error e => simp [hl, Except.map] at h
  | ok loaded =>
    simp only [hl, Except.map, Except.ok.injEq, Prod.mk.injEq] at h
    exact ⟨h.1.symm, loaded, rfl, h.2.2.symm⟩

theorem settleGas_world
    (h : settleGas hooks tx journal execResult init authRefund =
      .ok (resultGas, execResult', journal')) :
    journal'.world = journal.world.credit tx.caller
      (hooks.reimbursement (settledGas hooks execResult.gas init authRefund)) := by
  obtain ⟨-, loaded, hl, rfl⟩ := settleGas_eq h
  rw [Journal.incrBalance_world, (Journal.load_eq hl).1]

theorem Journal.Replays.settleGas (hrun : journal.Replays checkpoint world)
    (h : settleGas hooks tx journal execResult init authRefund =
      .ok (resultGas, execResult', journal')) :
    ∃ world', journal'.Replays checkpoint world' ∧
      ∀ i ≤ journal.entries.length, world' i = world i := by
  obtain ⟨-, loaded, hl, rfl⟩ := settleGas_eq h
  obtain ⟨hw, he⟩ := Journal.load_eq hl
  obtain ⟨world', hrun', hsame⟩ := (hrun.congr hw he).incrBalance tx.caller
    (hooks.reimbursement (settledGas hooks execResult.gas init authRefund))
  exact ⟨world', hrun', fun i hi => hsame i (he ▸ hi)⟩

/-- The nonce of the sender of a CREATE is raised by one, any other
state is kept. -/
def World.createNonce (world : World) (tx : TxEnv) : World :=
  if tx.kind = .create then
    { world with
      nonce := Function.update world.nonce tx.caller (world.nonce tx.caller + 1) }
  else world

theorem reapplyCreateSenderNonce_eq
    (h : reapplyCreateSenderNonce hooks tx journal = .ok journal') :
    (journal.world.nonce tx.caller).toNat + 1 < 2 ^ 64 ∧
      journal'.world = { journal.world with
        nonce := Function.update journal.world.nonce tx.caller
          (journal.world.nonce tx.caller + 1) } := by
  obtain ⟨loaded, hl, h⟩ := exists_of_bind_ok h
  rw [← (Journal.load_eq hl).1]
  split at h
  · rename_i bumped hb
    cases h
    exact Journal.bumpNonce_eq hb
  · cases h

/-- The rollback leads to the checkpoint, raises the nonce of a CREATE
and credits the caller once. -/
theorem rollBack_eq (hrun : journal.Replays checkpoint world) {executionGas : Gas}
    (h : rollBack hooks tx journal checkpoint executionGas init authRefund =
      .ok (resultGas, execResult', journal')) :
    resultGas = hooks.buildResultGas false
        (hooks.refund (hooks.setRefundZero executionGas) authRefund) init ∧
      journal'.world = ((world checkpoint).createNonce tx).credit tx.caller
        (hooks.reimbursement
          (settledGas hooks (hooks.setRefundZero executionGas) init authRefund)) ∧
      (tx.kind = .create → ((world checkpoint).nonce tx.caller).toNat + 1 < 2 ^ 64) := by
  unfold rollBack at h
  obtain ⟨mid, hmid, hsettle⟩ := exists_of_bind_ok h
  have hworld : mid.world = (world checkpoint).createNonce tx ∧
      (tx.kind = .create → ((world checkpoint).nonce tx.caller).toNat + 1 < 2 ^ 64) := by
    unfold World.createNonce
    split at hmid
    · rename_i hk
      obtain ⟨hlt, heq⟩ := reapplyCreateSenderNonce_eq hmid
      rw [hrun.revert_world] at hlt heq
      exact ⟨by rw [heq, if_pos hk], fun _ => hlt⟩
    · rename_i hk
      cases hmid
      exact ⟨by rw [hrun.revert_world, if_neg hk], fun hc => absurd hc hk⟩
  refine ⟨(settleGas_eq hsettle).1, ?_, hworld.2⟩
  rw [settleGas_world hsettle, hworld.1]
  rfl

end

/-- What a settled execution went through. -/
theorem beforeReward_cases {Err Gas ResultGas Init : Type}
    {hooks : RevmHooks Err Gas ResultGas Init} {txid : Nat} {tx : TxEnv}
    {planner : ReservePlanner} {journal : Journal} {checkpoint : Nat}
    {execResult : FrameResult Gas} {init : Init} {authRefund : Int}
    {settled : SettledResult Gas ResultGas}
    (h : beforeReward hooks txid tx planner journal (some checkpoint) execResult init authRefund =
      some (.ok settled)) :
    ∃ resultGas settledResult reimbursed planner',
      settleGas hooks tx journal execResult init authRefund =
          .ok (resultGas, settledResult, reimbursed) ∧
        ((reserveViolation txid planner (reimbursed.delegatedDebitsSince checkpoint tx) =
            some (false, planner') ∧ settled.journal = reimbursed) ∨
          (reserveViolation txid planner (reimbursed.delegatedDebitsSince checkpoint tx) =
            some (true, planner') ∧ ∃ gas result,
              rollBack hooks tx reimbursed checkpoint execResult.gas init authRefund =
                .ok (gas, result, settled.journal))) := by
  unfold beforeReward at h
  cases hsettle : settleGas hooks tx journal execResult init authRefund with
  | error e => simp [hsettle] at h
  | ok out =>
    obtain ⟨resultGas, settledResult, reimbursed⟩ := out
    simp only [hsettle, Option.bind_some] at h
    obtain ⟨⟨violated, planner'⟩, hviolation, heq⟩ := Option.map_eq_some_iff.mp h
    refine ⟨resultGas, settledResult, reimbursed, planner', rfl, ?_⟩
    cases violated with
    | false =>
      cases heq
      exact .inl ⟨hviolation, rfl⟩
    | true =>
      obtain ⟨⟨gas, result, rolled⟩, hroll, heq⟩ := exists_of_map_ok heq
      cases heq
      exact .inr ⟨hviolation, gas, result, hroll⟩

/-- **A reserve violation leaves exactly a charged revert.** When the
check after the reimbursement finds a violation and `post_execution`
returns a result, the state before the beneficiary's reward is the state
at the execution checkpoint, with the nonce of the sender raised by one
exactly for a CREATE, and with the caller credited once by the
reimbursement of the execution gas under the authorization refund and the
gas floor alone; the gas of the result is that of a revert with the same
gas. -/
theorem reserve_violation_leaves_charged_revert {Err Gas ResultGas Init : Type}
    {hooks : RevmHooks Err Gas ResultGas Init} {txid : Nat} {tx : TxEnv}
    {planner planner' : ReservePlanner} {journal reimbursed : Journal} {checkpoint : Nat}
    {world : Nat → World} {execResult settledResult : FrameResult Gas} {init : Init}
    {authRefund : Int} {resultGas : ResultGas}
    {applyBeneficiary : SettledResult Gas ResultGas →
      Except (EVMError Err) (Journal × Option DeferredBeneficiaryReward)}
    {out : ResultGas × FrameResult Gas × Journal × Option DeferredBeneficiaryReward}
    (hrun : journal.Replays checkpoint world)
    (hsettle : settleGas hooks tx journal execResult init authRefund =
      .ok (resultGas, settledResult, reimbursed))
    (hviolation : reserveViolation txid planner
      (reimbursed.delegatedDebitsSince checkpoint tx) = some (true, planner'))
    (hok : postExecution hooks txid tx planner journal (some checkpoint) execResult init authRefund
      applyBeneficiary = some (.ok out)) :
    ∃ settled, beforeReward hooks txid tx planner journal (some checkpoint) execResult init
        authRefund = some (.ok settled) ∧
      settled.journal.world = ((world checkpoint).createNonce tx).credit tx.caller
        (hooks.reimbursement
          (settledGas hooks (hooks.setRefundZero execResult.gas) init authRefund)) ∧
      (tx.kind = .create → ((world checkpoint).nonce tx.caller).toNat + 1 < 2 ^ 64) ∧
      out.1 = hooks.buildResultGas false
        (hooks.refund (hooks.setRefundZero execResult.gas) authRefund) init := by
  obtain ⟨world', hrun', hsame⟩ := hrun.settleGas hsettle
  have hbefore : beforeReward hooks txid tx planner journal (some checkpoint) execResult init
      authRefund = some ((rollBack hooks tx reimbursed checkpoint execResult.gas init
        authRefund).map fun (resultGas, execResult, journal) =>
          { resultGas, execResult, journal, planner := planner' }) := by
    simp [beforeReward, hsettle, hviolation]
  unfold postExecution at hok
  rw [hbefore, Option.map_some] at hok
  obtain ⟨settled, hsettled, hreward⟩ := exists_of_bind_ok (Option.some.inj hok)
  obtain ⟨⟨gas, result, rolled⟩, hroll, heq⟩ := exists_of_map_ok hsettled
  cases heq
  obtain ⟨hgas, hworld, hnonce⟩ := rollBack_eq hrun' hroll
  rw [hsame checkpoint hrun.le] at hworld hnonce
  obtain ⟨rewarded, -, rfl⟩ := exists_of_map_ok hreward
  exact ⟨_, hbefore.trans (congrArg some hsettled), hworld, hnonce, hgas⟩

/-- What the caller pays for its gas before execution. -/
def TxEnv.gasPaid (tx : TxEnv) : U256 := BitVec.ofNat 256 (tx.gasLimit.toNat * tx.gasPrice.toNat)

/-- Gas that is a plain number, with neither refund nor floor: the caller
pays for the gas limit and gets back what is left. -/
def plainHooks (tx : TxEnv) : RevmHooks Unit Nat Nat Unit where
  deductCaller journal :=
    .ok { journal with
      world := { journal.world with
        balance := Function.update journal.world.balance tx.caller
          (journal.world.balance tx.caller - tx.gasPaid) }
      entries := journal.entries ++
        [.balanceChange tx.caller (journal.world.balance tx.caller)] }
  loadAccounts := .ok
  applyAuthList journal := .ok (journal, 0)
  refund gas _ := gas
  setRefundZero gas := gas
  buildResultGas _ gas _ := gas
  checkGasFloor gas _ := gas
  reimbursement gas := BitVec.ofNat 256 (gas * tx.gasPrice.toNat)
  fails _ := none

/-- A call of the delegated account 1. -/
def callDelegated : TxEnv :=
  { caller := 2, kind := .call 1, value := 0, gasLimit := 10, gasPrice := 1 }

/-- A transaction of account 1 of maximum cost forty. -/
def delegatedSpends : TxEnv :=
  { caller := 1, kind := .call 3, value := 0, gasLimit := 40, gasPrice := 1 }

def callThenSpend : List TxEnv := [callDelegated, delegatedSpends]

def World.delegated (balance : Address → U256) : World :=
  { balance, nonce := fun _ => 0, code := fun a => if a = 1 then some designator else none
    storage := fun _ _ => 0 }

/-- The balances before the block. -/
def fundedBalance (a : Address) : U256 := if a = 1 then 90 else if a = 2 then 10 else 0

/-- A journal without entries. -/
def Journal.atRest (balance : Address → U256) : Journal where
  world := .delegated balance
  loaded := fun _ => true
  entries := []

/-- The journal when the gas of the transaction is paid for. -/
def Journal.charged (tx : TxEnv) (balance : Address → U256) : Journal where
  world := .delegated (Function.update balance tx.caller (balance tx.caller - tx.gasPaid))
  loaded := fun _ => true
  entries := [.balanceChange tx.caller (balance tx.caller)]

theorem preExecution_atRest (tx : TxEnv) (balance : Address → U256) :
    preExecution (plainHooks tx) (.atRest balance) = .ok (.charged tx balance, 0, 1) :=
  rfl

/-- The balances after account 1 has sent sixty away. -/
def drainedBalance : Address → U256 :=
  Function.update (Function.update (Function.update fundedBalance 2 0) 1 30) 3 60

/-- The call makes account 1 send sixty of its ninety away. -/
def drainDelegated : Journal :=
  let started := Journal.charged callDelegated fundedBalance
  { started with
    world := .delegated drainedBalance
    entries := started.entries ++ [.balanceTransfer 1 3 60] }

/-- The states of the call. -/
def drainStates (i : Nat) : World :=
  if i ≤ 1 then (Journal.charged callDelegated fundedBalance).world else .delegated drainedBalance

theorem drainDelegated_replays : drainDelegated.Replays 1 drainStates := by
  refine (replays_of_preExecution (preExecution_atRest callDelegated fundedBalance)).push
    ⟨by decide, by decide, fun a h₁ h₃ => ?_⟩ (World.ext (funext fun a => ?_) rfl rfl rfl)
  · exact (Function.update_of_ne h₃ _ _).trans (Function.update_of_ne h₁ _ _)
  · by_cases h₃ : a = 3
    · subst h₃
      decide
    · by_cases h₁ : a = 1
      · subst h₁
        decide
      · simp only [JournalEntry.undo, World.delegated, Function.update_of_ne h₁,
          Function.update_of_ne h₃, drainedBalance]
        rfl

/-- The caller pays for the five units of gas the call has used. -/
theorem reserve_violation_leaves_charged_revert_call :
    ∃ started settled,
      preExecution (plainHooks callDelegated) (.atRest fundedBalance) = .ok (started, 0, 1) ∧
      beforeReward (plainHooks callDelegated) 0 callDelegated { txs := callThenSpend }
        drainDelegated (some 1) ⟨.success, [], 5⟩ () 0 = some (.ok settled) ∧
      settled.journal.world.balance 1 = started.world.balance 1 ∧
      settled.journal.world.balance 2 = 5 := by
  have hsettle : settleGas (plainHooks callDelegated) callDelegated drainDelegated
      ⟨.success, [], 5⟩ () 0 = .ok (5, ⟨.success, [], 5⟩, drainDelegated.incrBalance 2 5) := rfl
  have hviolation : reserveViolation 0 { txs := callThenSpend }
      ((drainDelegated.incrBalance 2 5).delegatedDebitsSince 1 callDelegated) =
        some (true, _) := rfl
  have hok : postExecution (plainHooks callDelegated) 0 callDelegated { txs := callThenSpend }
      drainDelegated (some 1) ⟨.success, [], 5⟩ () 0
      (fun settled => .ok (settled.journal, none)) = some (.ok _) := rfl
  obtain ⟨settled, hsettled, hworld, -⟩ :=
    reserve_violation_leaves_charged_revert drainDelegated_replays hsettle hviolation hok
  exact ⟨_, settled, preExecution_atRest _ _, hsettled, by rw [hworld]; decide,
    by rw [hworld]; decide⟩

end Grevm
