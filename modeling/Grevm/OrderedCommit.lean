/-
Grevm.OrderedCommit — deferred rewards against ordered commits.

`src/scheduler/ordered_commit.rs` called on one result after the other,
over the cache of `Grevm.ParallelState`. A transaction that reads the
beneficiary does not wait for these commits: it walks the history
backwards and folds the rewards it meets over a snapshot or the
block-start anchor. Both are compared with the account after the first
`n` exact effects, `accountAfter`: the walk by induction on the entries
still to be visited, the commits by induction on the results. The
commits do not panic when the accounts of the results are cached and the
created ones carry their code (`Committable`).
-/
import Grevm.ParallelState
import Grevm.Scheduler.Machine

namespace Grevm

variable {Err R : Type}

/-! ## `OrderedCommitter` -/

structure OrderedCommitter where
  beneficiary : Address
  disableNonceCheck : Bool

inductive CommitOutcome where
  | committed (committedPrefixEnd : Nat)
  | needsSequentialFallback
  deriving DecidableEq

/-- A speculative result with the fields of its transaction that the
commit reads. -/
structure PendingCommit (R : Type) where
  caller : Address
  nonce : BitVec 64
  result : SpeculativeResult R

/-- What a call of `commit` leaves. -/
structure CommitReturn (Err R : Type) where
  cache : ParallelCacheState
  output : List (TxExecutionOutcome R)
  result : Except (GrevmError Err) CommitOutcome

namespace OrderedCommitter

variable (committer : OrderedCommitter) (db : Database Err)

/-- The nonce check; `none` when it passes. -/
def checkNonce (cache : ParallelCacheState) (txid : Nat) (tx : PendingCommit R) :
    ParallelCacheState × Option (Except (GrevmError Err) CommitOutcome) :=
  if committer.disableNonceCheck then (cache, none)
  else
    match cache.dbBasic db tx.caller with
    | (cache, .error e) => (cache, some (.error { txid, error := .database e }))
    | (cache, .ok info) =>
      (cache, if nonceMatches tx.nonce info then none else some (.ok .needsSequentialFallback))

/-- The deferred reward as part of the change set. `none` is the failed
assertion. -/
def foldReward (cache : ParallelCacheState) (txid : Nat) (result : SpeculativeResult R) :
    Option (ParallelCacheState × Except (GrevmError Err) EvmState) :=
  match result.deferredReward with
  | none => some (cache, .ok result.state)
  | some reward =>
    if (result.state.lookup committer.beneficiary).isSome then none
    else
      match cache.dbBasic db committer.beneficiary with
      | (cache, .error e) => some (cache, .error { txid, error := .database e })
      | (cache, .ok info) =>
        some (cache, .ok (withReward committer.beneficiary reward info result.state))

/-- `OrderedCommitter::commit`; `none` is a panic. -/
def commit (cache : ParallelCacheState) (txid : Nat) (tx : PendingCommit R)
    (output : List (TxExecutionOutcome R)) : Option (CommitReturn Err R) :=
  match committer.checkNonce db cache txid tx with
  | (cache, some result) => some { cache, output, result }
  | (cache, none) =>
    (committer.foldReward db cache txid tx.result).bind fun
      | (cache, .error e) => some { cache, output, result := .error e }
      | (cache, .ok state) =>
        (cache.applyEvmState state).map fun cache =>
          let output := output ++ [.executed tx.result.result]
          { cache, output, result := .ok (.committed output.length) }

/-- Commit one result after the other, as long as they are committed. -/
def commitAll : ParallelCacheState → List (PendingCommit R) → List (TxExecutionOutcome R) →
    Option (CommitReturn Err R)
  | cache, [], output => some { cache, output, result := .ok (.committed output.length) }
  | cache, tx :: txs, output =>
    (committer.commit db cache output.length tx output).bind fun returned =>
      match returned.result with
      | .ok (.committed _) => commitAll returned.cache txs returned.output
      | _ => some returned

end OrderedCommitter

/-! ## The account after a number of effects -/

/-- One exact effect on the account before it. -/
def BeneficiaryEffect.applyTo (effect : BeneficiaryEffect) (account : Option AccountInfo) :
    Option AccountInfo :=
  match effect with
  | .unchanged => account
  | .reward r => some (r.applyTo account)
  | .snapshot account => account

/-- The account after the effects of transactions `0 .. n - 1`. -/
def accountAfter (effect : Nat → BeneficiaryEffect) (anchor : Option AccountInfo) :
    Nat → Option AccountInfo
  | 0 => anchor
  | n + 1 => (effect n).applyTo (accountAfter effect anchor n)

/-! ## Walks -/

section

variable {history : Nat → EntryState} {anchor : Option AccountInfo}
  {effect : Nat → BeneficiaryEffect} {origins : List TxVersion}
  {rewards : List DeferredBeneficiaryReward} {found : HistoryScan} {n blocker : Nat}

theorem payRewards_append (rewards : List DeferredBeneficiaryReward)
    (reward : DeferredBeneficiaryReward) (account : Option AccountInfo) :
    payRewards (rewards ++ [reward]) account = payRewards rewards (some (reward.applyTo account)) := by
  simp [payRewards]

/-- A walk that has collected `rewards` above entry `n` resolves to these
rewards on the account after the effects below: a snapshot replaces
everything older than itself, so what it cuts off does not matter. -/
theorem resolve_of_scanFrom
    (hexact : ∀ i e, i < n → (history i).value = .exact e → e = effect i)
    (h : scanFrom history anchor n origins rewards = .ok found) :
    found.resolve = payRewards rewards (accountAfter effect anchor n) := by
  induction n generalizing origins rewards with
  | zero =>
    cases h
    rfl
  | succ n ih =>
    have hlower : ∀ i e, i < n → (history i).value = .exact e → e = effect i :=
      fun i e hi => hexact i e (by omega)
    simp only [scanFrom] at h
    cases hv : (history n).value with
    | estimate => simp [hv] at h
    | exact e =>
      have he : effect n = e := (hexact n e (by omega) hv).symm
      simp only [accountAfter, he]
      simp only [hv] at h
      cases e with
      | unchanged => exact ih hlower h
      | reward reward => rw [ih hlower h, payRewards_append]; rfl
      | snapshot account =>
        cases h
        rfl

/-- The entries a walk passes. -/
def Passable (value : EntryValue) : Prop :=
  ∃ effect, value = .exact effect ∧ ∀ account, effect ≠ .snapshot account

theorem passable_iff_of_exact {effect : BeneficiaryEffect} :
    Passable (.exact effect) ↔ ∀ account, effect ≠ .snapshot account := by
  constructor
  · rintro ⟨effect', heq, hne⟩
    cases heq
    exact hne
  · intro hne
    exact ⟨effect, rfl, hne⟩

/-- A walk is blocked by the newest estimate above every snapshot. -/
theorem scanFrom_eq_error_iff :
    scanFrom history anchor n origins rewards = .error blocker ↔
      blocker < n ∧ (history blocker).value = .estimate ∧
        ∀ i, blocker < i → i < n → Passable (history i).value := by
  induction n generalizing origins rewards with
  | zero => simp [scanFrom]
  | succ n ih =>
    -- What the newest entry adds to the condition, when the walk passes it.
    have hpass : Passable (history n).value →
        ((blocker < n ∧ (history blocker).value = .estimate ∧
            ∀ i, blocker < i → i < n → Passable (history i).value) ↔
          (blocker < n + 1 ∧ (history blocker).value = .estimate ∧
            ∀ i, blocker < i → i < n + 1 → Passable (history i).value)) := by
      intro hn
      constructor
      · rintro ⟨hlt, hest, hall⟩
        refine ⟨by omega, hest, fun i hi hi' => ?_⟩
        rcases Nat.lt_succ_iff_lt_or_eq.mp hi' with hi' | rfl
        · exact hall i hi hi'
        · exact hn
      · rintro ⟨hlt, hest, hall⟩
        have hne : blocker ≠ n := by
          rintro rfl
          obtain ⟨e, he, -⟩ := hn
          rw [hest] at he
          cases he
        exact ⟨by omega, hest, fun i hi hi' => hall i hi (by omega)⟩
    simp only [scanFrom]
    cases hv : (history n).value with
    | estimate =>
      constructor
      · intro h
        cases h
        exact ⟨by omega, hv, fun i hi hi' => absurd hi' (by omega)⟩
      · rintro ⟨hlt, hest, hall⟩
        rcases Nat.lt_succ_iff_lt_or_eq.mp hlt with hlt | rfl
        · obtain ⟨e, he, -⟩ := hall n hlt (by omega)
          rw [hv] at he
          cases he
        · rfl
    | exact e =>
      rw [hv] at hpass
      cases e with
      | unchanged | reward reward => exact ih.trans (hpass (passable_iff_of_exact.mpr (by simp)))
      | snapshot account =>
        constructor
        · intro h
          cases h
        · rintro ⟨hlt, hest, hall⟩
          rcases Nat.lt_succ_iff_lt_or_eq.mp hlt with hlt | rfl
          · have := hall n hlt (by omega)
            rw [hv, passable_iff_of_exact] at this
            exact absurd rfl (this account)
          · rw [hv] at hest
            cases hest

end

/-! ## Commits -/

/-- What a finalized account leaves of the account before it. -/
def FinalizedAccount.leaves (finalized : FinalizedAccount) (account : Option AccountInfo) :
    Option AccountInfo :=
  match finalized with
  | .unchanged => account
  | .deleted => none
  | .created info | .updated info => some info

namespace ParallelCacheState

variable {cache cache' : ParallelCacheState} {address : Address} {account : Account}
  {c : CacheAccountInfo}

/-- The account is cached with this information. -/
def Holds (cache : ParallelCacheState) (address : Address) (info : Option AccountInfo) : Prop :=
  ∃ c, cache.accounts address = some c ∧ c.account = info

theorem accounts_updateStorageSlot (cache : ParallelCacheState) (address : Address)
    (slots : List (U256 × U256)) :
    (cache.updateStorageSlot address slots).accounts = cache.accounts := by
  unfold updateStorageSlot
  induction slots generalizing cache with
  | nil => rfl
  | cons slot slots ih =>
    rw [List.foldl_cons, ih]
    rfl

theorem accounts_addContract {info : AccountInfo} (h : cache.addContract info = some cache') :
    cache'.accounts = cache.accounts := by
  unfold addContract at h
  split at h <;> cases h <;> rfl

/-- The account map after `apply_account_state`: only the entry of the
address changes, by `changeAccount`. -/
theorem accounts_applyAccountState (htouched : account.touched = true)
    (h : cache.applyAccountState address account = some cache') :
    ∃ c, cache.accounts address = some c ∧
      cache'.accounts =
        Function.update cache.accounts address (some (changeAccount account c)) := by
  simp only [applyAccountState, htouched, Bool.not_true, Bool.false_eq_true, if_false] at h
  simp only [changeAccount]
  split at h
  · rename_i hsd
    obtain ⟨c, hc, rfl⟩ := Option.map_eq_some_iff.mp h
    exact ⟨c, hc, by rw [if_pos hsd]; rfl⟩
  · rename_i hsd
    split at h
    · rename_i hcr
      obtain ⟨c, hc, h⟩ := Option.bind_eq_some_iff.mp h
      obtain ⟨cache₁, hadd, rfl⟩ := Option.map_eq_some_iff.mp h
      refine ⟨c, hc, ?_⟩
      rw [accounts_updateStorageSlot, accounts_addContract hadd, if_neg hsd, if_pos hcr]
      rfl
    · rename_i hcr
      split at h
      · rename_i hempty
        obtain ⟨c, hc, rfl⟩ := Option.map_eq_some_iff.mp h
        exact ⟨c, hc, by rw [if_neg hsd, if_neg hcr, if_pos hempty]; rfl⟩
      · rename_i hempty
        obtain ⟨c, hc, rfl⟩ := Option.map_eq_some_iff.mp h
        refine ⟨c, hc, ?_⟩
        rw [accounts_updateStorageSlot, if_neg hsd, if_neg hcr, if_neg hempty]
        rfl

theorem account_changeAccount (htouched : account.touched = true) :
    (changeAccount account c).account
      = (FinalizedAccount.ofAccount account).leaves c.account := by
  simp only [FinalizedAccount.ofAccount, htouched, Bool.not_true, Bool.false_eq_true, if_false]
  unfold changeAccount
  split
  · simp [*, FinalizedAccount.leaves, CacheAccountInfo.selfdestruct]
  · split
    · simp [*, FinalizedAccount.leaves, CacheAccountInfo.newlyCreated]
    · split
      · simp [*, FinalizedAccount.leaves, CacheAccountInfo.touchEmptyEip161]
      · simp [*, FinalizedAccount.leaves, CacheAccountInfo.change]

variable {info : Option AccountInfo}

/-- `apply_account_state` on the account itself. -/
theorem Holds.applyAccountState_self (h : cache.Holds address info)
    (happly : cache.applyAccountState address account = some cache') :
    cache'.Holds address ((FinalizedAccount.ofAccount account).leaves info) := by
  obtain ⟨c, hc, rfl⟩ := h
  by_cases htouched : account.touched = true
  · obtain ⟨c₀, hc₀, haccounts⟩ := accounts_applyAccountState htouched happly
    rw [hc] at hc₀
    cases hc₀
    exact ⟨_, by rw [haccounts, Function.update_self], account_changeAccount htouched⟩
  · simp only [applyAccountState, htouched, Bool.not_false, if_true, Option.some.injEq] at happly
    subst happly
    exact ⟨c, hc, by simp [FinalizedAccount.ofAccount, htouched, FinalizedAccount.leaves]⟩

/-- `apply_account_state` on another account. -/
theorem Holds.applyAccountState_of_ne {address' : Address} (h : cache.Holds address info)
    (hne : address ≠ address') (happly : cache.applyAccountState address' account = some cache') :
    cache'.Holds address info := by
  obtain ⟨c, hc, rfl⟩ := h
  by_cases htouched : account.touched = true
  · obtain ⟨c₀, -, haccounts⟩ := accounts_applyAccountState htouched happly
    exact ⟨c, by rw [haccounts, Function.update_of_ne hne, hc], rfl⟩
  · simp only [applyAccountState, htouched, Bool.not_false, if_true, Option.some.injEq] at happly
    subst happly
    exact ⟨c, hc, rfl⟩

/-- What a change set leaves of the account before it. -/
def stateLeaves (state : EvmState) (address : Address) (info : Option AccountInfo) :
    Option AccountInfo :=
  match state.lookup address with
  | none => info
  | some account => (FinalizedAccount.ofAccount account).leaves info

theorem Holds.applyEntries {entries : List (Sigma fun _ : Address => Account)}
    (h : cache.Holds address info) (hnodup : entries.NodupKeys)
    (happly : entries.foldlM (fun cache e => cache.applyAccountState e.1 e.2) cache
      = some cache') :
    cache'.Holds address
      (match List.dlookup address entries with
      | none => info
      | some account => (FinalizedAccount.ofAccount account).leaves info) := by
  induction entries generalizing cache info with
  | nil =>
    cases happly
    exact h
  | cons e entries ih =>
    obtain ⟨address', account⟩ := e
    obtain ⟨hnot, hrest⟩ := List.nodupKeys_cons.mp hnodup
    obtain ⟨cache₁, hhead, htail⟩ := Option.bind_eq_some_iff.mp happly
    by_cases hne : address = address'
    · subst hne
      have habsent : List.dlookup address entries = none := List.dlookup_eq_none.mpr hnot
      have := ih (h.applyAccountState_self hhead) hrest htail
      rw [habsent] at this
      simpa using this
    · rw [List.dlookup_cons_ne _ _ hne]
      exact ih (h.applyAccountState_of_ne hne hhead) hrest htail

/-- `apply_account_state` keeps every account in the cache. -/
theorem growsTo_applyAccountState (h : cache.applyAccountState address account = some cache') :
    cache.GrowsTo cache' := by
  by_cases htouched : account.touched = true
  · obtain ⟨c, -, haccounts⟩ := accounts_applyAccountState htouched h
    have hset : cache'.accounts = (cache.setAccount address (changeAccount account c)).accounts :=
      haccounts
    intro a hmem
    simpa [HasAccount, hset] using growsTo_setAccount a hmem
  · simp only [applyAccountState, htouched, Bool.not_false, if_true, Option.some.injEq] at h
    exact .of_eq (by rw [h])

/-- `apply_account_state` does not panic on a cached account that carries
its code when it is created. -/
theorem exists_applyAccountState (hcached : account.touched = true → cache.HasAccount address)
    (hcode : account.created = true → account.info.code.isSome = true) :
    ∃ cache', cache.applyAccountState address account = some cache' := by
  unfold applyAccountState
  cases ht : account.touched with
  | false => exact ⟨cache, rfl⟩
  | true =>
    obtain ⟨c, hc⟩ := Option.isSome_iff_exists.mp (hcached ht)
    have hremoved : (cache.removeStorage address).accounts address = some c := hc
    simp only [Bool.not_true, Bool.false_eq_true, if_false, hremoved, hc, Option.map_some,
      Option.bind_some]
    split
    · exact ⟨_, rfl⟩
    · split
      · rename_i hcreated
        obtain ⟨code, hsome⟩ := Option.isSome_iff_exists.mp (hcode hcreated)
        simp only [addContract, hsome]
        split
        · exact ⟨_, rfl⟩
        · exact ⟨_, rfl⟩
        · rename_i hnone
          cases hnone
      · split <;> exact ⟨_, rfl⟩

theorem exists_applyEntries {entries : List (Sigma fun _ : Address => Account)}
    (hcached : ∀ e ∈ entries, e.2.touched = true → cache.HasAccount e.1)
    (hcode : ∀ e ∈ entries, e.2.created = true → e.2.info.code.isSome = true) :
    ∃ cache', entries.foldlM (fun cache e => cache.applyAccountState e.1 e.2) cache
      = some cache' ∧ cache.GrowsTo cache' := by
  induction entries generalizing cache with
  | nil => exact ⟨cache, rfl, fun _ h => h⟩
  | cons e entries ih =>
    obtain ⟨cache₁, happly⟩ := exists_applyAccountState (hcached e List.mem_cons_self)
      (hcode e List.mem_cons_self)
    have hgrow := growsTo_applyAccountState happly
    obtain ⟨cache₂, hrest, hgrow'⟩ := ih
      (fun e' he' ht => hgrow _ (hcached e' (List.mem_cons_of_mem _ he') ht))
      (fun e' he' => hcode e' (List.mem_cons_of_mem _ he'))
    refine ⟨cache₂, ?_, fun a ha => hgrow' a (hgrow a ha)⟩
    rw [List.foldlM_cons, happly]
    exact hrest

/-- `apply_evm_state` does not panic when the touched accounts are cached
and the created ones carry their code. -/
theorem exists_applyEvmState {state : EvmState} (hcovers : cache.Covers state)
    (hcode : ∀ address account, state.lookup address = some account → account.created = true →
      account.info.code.isSome = true) :
    ∃ cache', cache.applyEvmState state = some cache' ∧ cache.GrowsTo cache' :=
  exists_applyEntries
    (fun e he => hcovers e.1 e.2 (AList.mem_lookup_iff.mpr he))
    (fun e he => hcode e.1 e.2 (AList.mem_lookup_iff.mpr he))

/-- `apply_evm_state`. -/
theorem Holds.applyEvmState {state : EvmState} (h : cache.Holds address info)
    (happly : cache.applyEvmState state = some cache') :
    cache'.Holds address (stateLeaves state address info) :=
  h.applyEntries state.nodupKeys happly

theorem Holds.dbBasic (h : cache.Holds address info) (db : Database Err) :
    cache.dbBasic db address = (cache, .ok info) := by
  obtain ⟨c, hc, rfl⟩ := h
  simp [ParallelCacheState.dbBasic, hc]

/-- A successful load leaves the account in the cache. -/
theorem holds_of_dbBasic {db : Database Err}
    (h : cache.dbBasic db address = (cache', .ok info)) : cache'.Holds address info := by
  unfold ParallelCacheState.dbBasic at h
  split at h
  · rename_i c hc
    cases h
    exact ⟨c, hc, rfl⟩
  · rename_i hc
    split at h
    · simp only [insertLoaded, hc] at h
      cases h
      exact ⟨_, Function.update_self .., rfl⟩
    · cases h

end ParallelCacheState

/-- A rewarded account is never empty: an overflow leaves a balance that
overflowed. -/
theorem DeferredBeneficiaryReward.isEmpty_applyTo (reward : DeferredBeneficiaryReward)
    (account : Option AccountInfo) : (reward.applyTo account).isEmpty = false := by
  have hamount : reward.amount.toNat ≠ 0 := fun h => reward.nonzero (BitVec.eq_of_toNat_eq h)
  have hbalance : (reward.applyTo account).balance.toNat ≠ 0 := by
    unfold applyTo
    dsimp only
    split
    · rename_i hlt
      simp only [BitVec.toNat_add, Nat.mod_eq_of_lt hlt]
      omega
    · have := reward.amount.isLt
      omega
  have hne : (reward.applyTo account).balance ≠ 0 := fun h => hbalance (by rw [h]; rfl)
  simp only [AccountInfo.isEmpty, beq_eq_false_iff_ne.mpr hne, Bool.and_false, Bool.false_and]

namespace OrderedCommitter

variable {committer : OrderedCommitter} {db : Database Err} {cache cache' : ParallelCacheState}
  {info : Option AccountInfo} {tx : PendingCommit R} {txs : List (PendingCommit R)}
  {output : List (TxExecutionOutcome R)} {returned : CommitReturn Err R} {txid : Nat}

/-- The exact effect of a result on the beneficiary. -/
def effect? (committer : OrderedCommitter) (tx : PendingCommit R) : Option BeneficiaryEffect :=
  BeneficiaryEffect.fromExecution tx.result.deferredReward
    (tx.result.state.lookup committer.beneficiary)

/-- The change set that is committed has the effect of the result: a
reward is read and added on the committed account. -/
theorem foldReward_effect {result : Except (GrevmError Err) EvmState}
    (hholds : cache.Holds committer.beneficiary info)
    (h : committer.foldReward db cache txid tx.result = some (cache', result)) :
    cache' = cache ∧ ∃ state effect, result = .ok state ∧ committer.effect? tx = some effect ∧
      ParallelCacheState.stateLeaves state committer.beneficiary info = effect.applyTo info := by
  unfold foldReward at h
  unfold effect?
  split at h
  · rename_i hnone
    cases h
    refine ⟨rfl, tx.result.state, ?_⟩
    rw [hnone]
    unfold ParallelCacheState.stateLeaves
    cases hlookup : tx.result.state.lookup committer.beneficiary with
    | none => exact ⟨.unchanged, rfl, rfl, rfl⟩
    | some account =>
      simp only [BeneficiaryEffect.fromExecution]
      cases FinalizedAccount.ofAccount account with
      | unchanged => exact ⟨.unchanged, trivial, rfl, rfl⟩
      | deleted => exact ⟨.snapshot none, trivial, rfl, rfl⟩
      | created after | updated after => exact ⟨.snapshot (some after), trivial, rfl, rfl⟩
  · rename_i reward hreward
    split at h
    · cases h
    · rename_i habsent
      rw [hholds.dbBasic db] at h
      cases h
      simp only [Bool.not_eq_true, Option.isSome_eq_false_iff, Option.isNone_iff_eq_none] at habsent
      rw [hreward, habsent]
      refine ⟨rfl, _, .reward reward, rfl, rfl, ?_⟩
      simp [ParallelCacheState.stateLeaves, withReward, FinalizedAccount.ofAccount,
        Account.markTouch, Account.ofInfo, Account.isEmpty, reward.isEmpty_applyTo,
        FinalizedAccount.leaves, BeneficiaryEffect.applyTo]

/-- **Step lemma.** A commit without nonce check that does not panic
succeeds and applies the effect of the result. -/
theorem commit_effect (hnonce : committer.disableNonceCheck = true)
    (hholds : cache.Holds committer.beneficiary info)
    (h : committer.commit db cache txid tx output = some returned) :
    returned.result = .ok (.committed (output.length + 1)) ∧
      returned.output = output ++ [.executed tx.result.result] ∧
      ∃ effect, committer.effect? tx = some effect ∧
        returned.cache.Holds committer.beneficiary (effect.applyTo info) := by
  simp only [commit, checkNonce, hnonce, if_true] at h
  obtain ⟨⟨cache₁, result⟩, hfold, h⟩ := Option.bind_eq_some_iff.mp h
  obtain ⟨rfl, state, effect, rfl, heffect, hleaves⟩ := foldReward_effect hholds hfold
  obtain ⟨cache₂, happly, rfl⟩ := Option.map_eq_some_iff.mp h
  refine ⟨by simp, rfl, effect, heffect, ?_⟩
  rw [← hleaves]
  exact hholds.applyEvmState happly

/-- **Run lemma.** The commits of a block from position `output.length`
on. -/
theorem commitAll_effect {effect : Nat → BeneficiaryEffect} {anchor : Option AccountInfo}
    (hnonce : committer.disableNonceCheck = true)
    (hholds : cache.Holds committer.beneficiary (accountAfter effect anchor output.length))
    (heffect : ∀ k tx, txs[k]? = some tx → ∀ e, committer.effect? tx = some e →
      effect (output.length + k) = e)
    (h : committer.commitAll db cache txs output = some returned) :
    returned.result = .ok (.committed (output.length + txs.length)) ∧
      returned.cache.Holds committer.beneficiary
        (accountAfter effect anchor (output.length + txs.length)) := by
  induction txs generalizing cache output with
  | nil =>
    cases h
    exact ⟨rfl, hholds⟩
  | cons tx txs ih =>
    obtain ⟨first, hfirst, h⟩ := Option.bind_eq_some_iff.mp h
    obtain ⟨hresult, houtput, e, he, hholds'⟩ := commit_effect hnonce hholds hfirst
    simp only [hresult] at h
    have hlen : first.output.length = output.length + 1 := by simp [houtput]
    have hzero : effect output.length = e := heffect 0 tx rfl e he
    have hnext : first.cache.Holds committer.beneficiary
        (accountAfter effect anchor first.output.length) := by
      rw [hlen, accountAfter, hzero]
      exact hholds'
    have hrest := ih hnext (fun k tx' hk e' he' => by
      have := heffect (k + 1) tx' hk e' he'
      rwa [hlen, Nat.add_assoc, Nat.add_comm 1 k]) h
    rw [hlen] at hrest
    rw [List.length_cons, ← Nat.add_assoc, Nat.add_right_comm]
    exact hrest

/-- The result can be committed: its touched accounts are cached, the
created ones carry their code, and it does not write the beneficiary
beside a deferred reward. -/
structure Committable (committer : OrderedCommitter) (cache : ParallelCacheState)
    (tx : PendingCommit R) : Prop where
  covered : cache.Covers tx.result.state
  coded : ∀ address account, tx.result.state.lookup address = some account →
    account.created = true → account.info.code.isSome = true
  deferred : tx.result.deferredReward.isSome = true →
    tx.result.state.lookup committer.beneficiary = none

theorem Committable.mono (h : committer.Committable cache tx) (hgrow : cache.GrowsTo cache') :
    committer.Committable cache' tx :=
  ⟨h.covered.mono hgrow, h.coded, h.deferred⟩

/-- A result that can be committed is committed. -/
theorem exists_commit (hnonce : committer.disableNonceCheck = true)
    (hholds : cache.Holds committer.beneficiary info) (htx : committer.Committable cache tx) :
    ∃ returned, committer.commit db cache txid tx output = some returned ∧
      cache.GrowsTo returned.cache := by
  have hfold : ∃ state, committer.foldReward db cache txid tx.result = some (cache, .ok state) ∧
      cache.Covers state ∧ ∀ address account, state.lookup address = some account →
        account.created = true → account.info.code.isSome = true := by
    unfold foldReward
    cases hreward : tx.result.deferredReward with
    | none => exact ⟨tx.result.state, rfl, htx.covered, htx.coded⟩
    | some reward =>
      have hlookup := htx.deferred (by simp [hreward])
      simp only [hlookup, Option.isSome_none, Bool.false_eq_true, if_false, hholds.dbBasic db]
      refine ⟨_, rfl, fun address account hmem htouched => ?_, fun address account hmem hc => ?_⟩
      · by_cases ha : address = committer.beneficiary
        · obtain ⟨c, hc, -⟩ := hholds
          simp [ParallelCacheState.HasAccount, ha, hc]
        · rw [withReward, AList.lookup_insert_ne ha] at hmem
          exact htx.covered address account hmem htouched
      · by_cases ha : address = committer.beneficiary
        · subst ha
          rw [withReward, AList.lookup_insert] at hmem
          cases hmem
          cases hc
        · rw [withReward, AList.lookup_insert_ne ha] at hmem
          exact htx.coded address account hmem hc
  obtain ⟨state, hfold, hcovers, hcode⟩ := hfold
  obtain ⟨cache', happly, hgrow⟩ := ParallelCacheState.exists_applyEvmState hcovers hcode
  simp only [commit, checkNonce, hnonce, if_true, hfold, Option.bind_some, happly, Option.map_some]
  exact ⟨_, rfl, hgrow⟩

/-- Results that can be committed are committed one after the other. -/
theorem exists_commitAll (hnonce : committer.disableNonceCheck = true)
    (hholds : cache.Holds committer.beneficiary info)
    (htxs : ∀ tx ∈ txs, committer.Committable cache tx) :
    ∃ returned, committer.commitAll db cache txs output = some returned := by
  induction txs generalizing cache info output with
  | nil => exact ⟨_, rfl⟩
  | cons tx txs ih =>
    have hfirst : ∃ returned, committer.commit db cache output.length tx output = some returned ∧
        cache.GrowsTo returned.cache := exists_commit hnonce hholds (htxs tx List.mem_cons_self)
    obtain ⟨returned, hcommit, hgrow⟩ := hfirst
    obtain ⟨hresult, -, effect, -, hholds'⟩ := commit_effect hnonce hholds hcommit
    obtain ⟨last, hlast⟩ := ih hholds'
      fun tx' htx' => (htxs tx' (List.mem_cons_of_mem _ htx')).mono hgrow
    refine ⟨last, ?_⟩
    simp only [commitAll, hcommit, Option.bind_some, hresult]
    exact hlast

/-- The entries below `txid` hold the effects of the results, or are still
estimates. -/
def Records (committer : OrderedCommitter) (txs : List (PendingCommit R))
    (history : Nat → EntryState) (txid : Nat) : Prop :=
  ∀ i tx, i < txid → txs[i]? = some tx → (history i).value = .estimate ∨
    ∃ effect, committer.effect? tx = some effect ∧ (history i).value = .exact effect

/-- The effects of the results by position. -/
def effectAt (committer : OrderedCommitter) (txs : List (PendingCommit R)) (i : Nat) :
    BeneficiaryEffect :=
  (txs[i]?.bind committer.effect?).getD .unchanged

end OrderedCommitter

/-! ## Deferred rewards equal ordered commits -/

/-- The account a transaction resolves from the history is the one the
cache holds after the results before it have been committed in order.
They are committed when their accounts are cached and the created ones
carry their code. A walk is blocked exactly by the newest estimate with
only exact entries and no snapshot between it and the reader. -/
theorem deferred_rewards_equal_ordered_commits {committer : OrderedCommitter} {db : Database Err}
    {start cache : ParallelCacheState} {anchor : Option AccountInfo}
    {txs : List (PendingCommit R)} {history : Nat → EntryState} {txid : Nat}
    (hnonce : committer.disableNonceCheck = true)
    (hload : start.dbBasic db committer.beneficiary = (cache, .ok anchor))
    (hrecords : committer.Records txs history txid) (hlen : txid ≤ txs.length) :
    (∀ found returned, scanBefore history anchor txid = .ok found →
      committer.commitAll db cache (txs.take txid) [] = some returned →
      returned.result = .ok (.committed txid) ∧
        (returned.cache.dbBasic db committer.beneficiary).2 = .ok found.resolve) ∧
    ((∀ tx ∈ txs.take txid, committer.Committable cache tx) →
      ∃ returned, committer.commitAll db cache (txs.take txid) [] = some returned) ∧
    ∀ blocker, scanBefore history anchor txid = .error blocker ↔
      blocker < txid ∧ (history blocker).value = .estimate ∧
        ∀ i, blocker < i → i < txid → ∃ effect, (history i).value = .exact effect ∧
          ∀ account, effect ≠ .snapshot account := by
  have hbeneficiary := ParallelCacheState.holds_of_dbBasic hload
  refine ⟨fun found returned hscan hcommit => ?_,
    fun htxs => OrderedCommitter.exists_commitAll hnonce hbeneficiary htxs,
    fun blocker => scanFrom_eq_error_iff⟩
  have hexact : ∀ i e, i < txid → (history i).value = .exact e →
      e = committer.effectAt txs i := by
    intro i e hi hv
    have hget : txs[i]? = some txs[i] := List.getElem?_eq_getElem (by omega)
    rcases hrecords i _ hi hget with hest | ⟨e', he', hv'⟩
    · rw [hest] at hv
      cases hv
    · rw [hv'] at hv
      cases hv
      simp [OrderedCommitter.effectAt, hget, he']
  have hresolve := resolve_of_scanFrom hexact hscan
  have heffect : ∀ k tx, (txs.take txid)[k]? = some tx → ∀ e, committer.effect? tx = some e →
      committer.effectAt txs (([] : List (TxExecutionOutcome R)).length + k) = e := by
    intro k tx hk e he
    rw [List.getElem?_take] at hk
    split at hk
    · simp [OrderedCommitter.effectAt, hk, he]
    · cases hk
  have hholds : cache.Holds committer.beneficiary
      (accountAfter (committer.effectAt txs) anchor ([] : List (TxExecutionOutcome R)).length) :=
    hbeneficiary
  have hcommitted := OrderedCommitter.commitAll_effect hnonce hholds heffect hcommit
  simp only [List.length_nil, Nat.zero_add, List.length_take, Nat.min_eq_left hlen] at hcommitted
  refine ⟨hcommitted.1, ?_⟩
  rw [hcommitted.2.dbBasic db, hresolve]
  rfl

theorem U256.five_ne_zero : (5 : U256) ≠ 0 := by decide

theorem U256.allOnes_ne_zero : (BitVec.allOnes 256 : U256) ≠ 0 := by decide

/-- A database in which account 7 has a balance of three. -/
def Database.oneFunded : Database Unit :=
  { Database.absent with
    basic := fun address =>
      .ok (if address = 7 then some { AccountInfo.empty with balance := 3 } else none) }

/-- A rewarded account is emptied, rewarded with the largest amount, and
rewarded once more, which overflows. -/
def PendingCommit.rewardedAgain (beneficiary : Address) : List (PendingCommit Unit) :=
  let pending (state : EvmState) (deferredReward : Option DeferredBeneficiaryReward) :=
    { caller := 0, nonce := 0, result := { result := (), state, deferredReward } }
  let emptied := (Account.ofInfo .empty).markTouch
  [pending ∅ (some ⟨5, U256.five_ne_zero⟩), pending (AList.singleton beneficiary emptied) none,
    pending ∅ (some ⟨BitVec.allOnes 256, U256.allOnes_ne_zero⟩),
    pending ∅ (some ⟨1, U256.one_ne_zero⟩)]

/-- The entry of transaction 0 is still an estimate: the deletion cuts it
off. -/
def EntryState.rewardedAgain : Nat → EntryState
  | 1 => ⟨1, .exact (.snapshot none)⟩
  | 2 => ⟨1, .exact (.reward ⟨BitVec.allOnes 256, U256.allOnes_ne_zero⟩)⟩
  | 3 => ⟨1, .exact (.reward ⟨1, U256.one_ne_zero⟩)⟩
  | _ => {}

theorem committable_rewardedAgain {cache : ParallelCacheState} (hcached : cache.HasAccount 7)
    {tx : PendingCommit Unit} (htx : tx ∈ PendingCommit.rewardedAgain 7) :
    OrderedCommitter.Committable ⟨7, true⟩ cache tx := by
  have hcases : tx.result.state = ∅ ∨
      tx.result.state = AList.singleton 7 (Account.ofInfo .empty).markTouch ∧
        tx.result.deferredReward = none := by
    simp only [PendingCommit.rewardedAgain, List.mem_cons, List.not_mem_nil, or_false] at htx
    rcases htx with rfl | rfl | rfl | rfl <;> simp
  rcases hcases with hstate | ⟨hstate, hreward⟩
  · refine ⟨fun address account hmem => ?_, fun address account hmem => ?_, fun _ => ?_⟩
    · simp [hstate] at hmem
    · simp [hstate] at hmem
    · simp [hstate]
  · have hmem : ∀ address account, tx.result.state.lookup address = some account →
        address = 7 ∧ account = (Account.ofInfo .empty).markTouch := by
      intro address account h
      rw [hstate] at h
      have hin := AList.mem_lookup_iff.mp h
      simpa using hin
    refine ⟨fun address account h _ => ?_, fun address account h hcreated => ?_, fun h => ?_⟩
    · exact (hmem address account h).1 ▸ hcached
    · obtain ⟨-, rfl⟩ := hmem address account h
      cases hcreated
    · simp [hreward] at h

/-- The changed beneficiary of the database is emptied by the second
result. -/
theorem deferred_rewards_equal_ordered_commits_overflow :
    ∃ cache returned, ParallelCacheState.dbBasic .oneFunded {} 7
        = (cache, .ok (some { AccountInfo.empty with balance := 3 })) ∧
      OrderedCommitter.commitAll ⟨7, true⟩ .oneFunded cache (PendingCommit.rewardedAgain 7) []
        = some returned ∧
      (returned.cache.dbBasic .oneFunded 7).2
        = .ok (some { AccountInfo.empty with balance := BitVec.allOnes 256 }) := by
  have hrecords : OrderedCommitter.Records ⟨7, true⟩ (PendingCommit.rewardedAgain 7)
      EntryState.rewardedAgain 4 := by
    intro i tx hi htx
    obtain rfl | rfl | rfl | rfl : i = 0 ∨ i = 1 ∨ i = 2 ∨ i = 3 := by omega
    · exact .inl rfl
    all_goals
      cases htx
      exact .inr ⟨_, rfl, rfl⟩
  obtain ⟨cache, hload⟩ : ∃ cache, ParallelCacheState.dbBasic .oneFunded {} 7
      = (cache, .ok (some { AccountInfo.empty with balance := 3 })) := ⟨_, rfl⟩
  have hboth := deferred_rewards_equal_ordered_commits rfl hload hrecords (Nat.le_refl 4)
  have hcached : cache.HasAccount 7 := by
    rw [show cache = _ from (congrArg Prod.fst hload).symm]
    rfl
  obtain ⟨returned, hcommit⟩ := hboth.2.1 fun tx htx => committable_rewardedAgain hcached htx
  exact ⟨cache, returned, hload, hcommit, (hboth.1 _ returned rfl hcommit).2⟩

end Grevm
