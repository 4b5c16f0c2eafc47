/-
Grevm.BalanceUpdates — balances changed in bulk outside transactions.

`increment_balances` and `drain_balances` of `src/parallel_state.rs`,
with the transitions they record. Both walk over a list of addresses,
load each account into the cache, change it there and keep the
transition; the transitions are added to the pending ones after the whole
list. A load that fails ends the call with its error and leaves what was
changed before it in the cache, without a transition.

The two functions are one loop (`updateAccounts`). When it succeeds every
account it changed is recorded with the value it has in the cache
(`UpdateLog`). When it fails it has changed the accounts before the first
one that cannot be read (`reached`), and an account that a change moves
never comes back (`AccountUpdate.Moves`): a failed call leaves no trace
exactly when none of them moves.
-/
import Grevm.Bundle
import Grevm.ParallelState
import Grevm.Words

namespace Grevm

open Words

/-! ## Transitions -/

/-- revm's `TransitionAccount`. -/
structure TransitionAccount where
  info : Option AccountInfo
  status : AccountStatus
  previousInfo : Option AccountInfo
  previousStatus : AccountStatus
  storage : AList (fun _ : U256 => EvmStorageSlot) := ∅
  storageWasDestroyed : Bool := false

namespace TransitionAccount

/-- A slot that a later transition changes; a slot that is back at its
original value is dropped. -/
def updateSlot (storage : AList (fun _ : U256 => EvmStorageSlot))
    (entry : Sigma fun _ : U256 => EvmStorageSlot) : AList (fun _ : U256 => EvmStorageSlot) :=
  match storage.lookup entry.1 with
  | none => storage.insert entry.1 entry.2
  | some slot =>
    if slot.originalValue = entry.2.presentValue then storage.erase entry.1
    else storage.insert entry.1 { slot with presentValue := entry.2.presentValue }

/-- revm's `TransitionAccount::update`. -/
def update (transition other : TransitionAccount) : TransitionAccount :=
  if other.status = .destroyed ∨ other.status = .destroyedAgain then
    { transition with
      info := other.info
      status := other.status
      storage := other.storage
      storageWasDestroyed := true }
  else
    { transition with
      info := other.info
      status := other.status
      storage := other.storage.entries.foldl updateSlot transition.storage }

end TransitionAccount

/-- One entry of revm's `TransitionState::add_transitions`. -/
def addTransition (transitions : TransitionMap TransitionAccount)
    (entry : Address × TransitionAccount) : TransitionMap TransitionAccount :=
  match transitions.lookup entry.1 with
  | some transition => transitions.insert entry.1 (transition.update entry.2)
  | none => transitions.insert entry.1 entry.2

def addTransitions (transitions : TransitionMap TransitionAccount)
    (entries : List (Address × TransitionAccount)) : TransitionMap TransitionAccount :=
  entries.foldl addTransition transitions

/-! ## Changing a cached account -/

namespace CacheAccountInfo

/-- `account_info_change`; `none` when the change panics. An account
that does not exist starts from the default. -/
def accountInfoChange {T : Type} (c : CacheAccountInfo)
    (change : AccountInfo → Option (T × AccountInfo)) :
    Option ((T × TransitionAccount) × CacheAccountInfo) :=
  (change (c.account.getD .empty)).map fun (output, info) =>
    let changed := c.change info
    ((output,
      { info := changed.account
        status := changed.status
        previousInfo := c.account
        previousStatus := c.status }), changed)

/-- `increment_balance`: no transition for a zero amount. -/
def incrementBalance (c : CacheAccountInfo) (balance : BitVec 128) :
    Option ((Unit × TransitionAccount) × CacheAccountInfo) :=
  if balance = 0 then none
  else c.accountInfoChange fun info =>
    some ((), { info with balance := satAdd info.balance (balance.setWidth 256) })

/-- `drain_balance`; the conversion of the drained balance panics when it
does not fit. -/
def drainBalance (c : CacheAccountInfo) :
    Option ((BitVec 128 × TransitionAccount) × CacheAccountInfo) :=
  c.accountInfoChange fun info =>
    if info.balance.toNat < 2 ^ 128 then some (info.balance.setWidth 128, { info with balance := 0 })
    else none

end CacheAccountInfo

namespace ParallelCacheState

variable {Err : Type} (db : Database Err)

/-- `load_mut_cache_account`: the cached account, or the one the database
has, which is cached. -/
def loadMutCacheAccount (cache : ParallelCacheState) (address : Address) :
    Except Err (ParallelCacheState × CacheAccountInfo) :=
  match cache.accounts address with
  | some c => .ok (cache, c)
  | none =>
    match db.basic address with
    | .ok info => .ok (cache.setAccount address (.ofDatabase info), .ofDatabase info)
    | .error e => .error e

end ParallelCacheState

/-! ## The loop -/

/-- An account to change and its change. -/
structure AccountUpdate (T : Type) where
  address : Address
  change : CacheAccountInfo → Option ((T × TransitionAccount) × CacheAccountInfo)

/-- What the loop returns: the outputs and the transitions, in order. -/
abbrev UpdateOutcome (Err T : Type) := Except Err (List T × List (Address × TransitionAccount))

/-- The loop of both functions, with what it has collected so far. The
cache keeps every change made before an error; `none` when a change
panics. -/
def updateAccounts {Err T : Type} (db : Database Err) :
    ParallelCacheState → List (AccountUpdate T) → List T → List (Address × TransitionAccount) →
      Option (ParallelCacheState × UpdateOutcome Err T)
  | cache, [], outputs, transitions => some (cache, .ok (outputs, transitions))
  | cache, update :: updates, outputs, transitions =>
    match cache.loadMutCacheAccount db update.address with
    | .error e => some (cache, .error e)
    | .ok (cache, account) =>
      match update.change account with
      | none => none
      | some ((output, transition), account) =>
        updateAccounts db (cache.setAccount update.address account) updates (outputs ++ [output])
          (transitions ++ [(update.address, transition)])

/-- The fields of `ParallelState` that bulk updates use. -/
structure ParallelState where
  cache : ParallelCacheState := {}
  transitionState : Option (TransitionMap TransitionAccount) := none

namespace ParallelState

variable {Err : Type} (db : Database Err)

/-- What `basic` returns; it caches what it loads. -/
def basic (s : ParallelState) (address : Address) : ParallelState × Except Err (Option AccountInfo) :=
  let (cache, result) := s.cache.dbBasic db address
  ({ s with cache }, result)

/-- `apply_transition`. -/
def applyTransition (s : ParallelState) (transitions : List (Address × TransitionAccount)) :
    ParallelState :=
  { s with transitionState := s.transitionState.map fun pending => addTransitions pending transitions }

/-- The loop, and its transitions added at the end. -/
def applyUpdates {T : Type} (s : ParallelState) (updates : List (AccountUpdate T)) :
    Option (ParallelState × Except Err (List T)) :=
  (updateAccounts db s.cache updates [] []).map fun (cache, outcome) =>
    let s := { s with cache }
    match outcome with
    | .ok (outputs, transitions) => (s.applyTransition transitions, .ok outputs)
    | .error e => (s, .error e)

/-- The updates of `increment_balances`; zero amounts are passed over. -/
def incrementUpdates (balances : List (Address × BitVec 128)) : List (AccountUpdate Unit) :=
  (balances.filter fun entry => entry.2 ≠ 0).map fun entry =>
    { address := entry.1, change := fun account => account.incrementBalance entry.2 }

def incrementBalances (s : ParallelState) (balances : List (Address × BitVec 128)) :
    Option (ParallelState × Except Err Unit) :=
  (s.applyUpdates db (incrementUpdates balances)).map fun (s, result) =>
    (s, result.map fun _ => ())

/-- The updates of `drain_balances`. -/
def drainUpdates (addresses : List Address) : List (AccountUpdate (BitVec 128)) :=
  addresses.map fun address => { address, change := CacheAccountInfo.drainBalance }

def drainBalances (s : ParallelState) (addresses : List Address) :
    Option (ParallelState × Except Err (List (BitVec 128))) :=
  s.applyUpdates db (drainUpdates addresses)

end ParallelState

/-! ## Loads and `basic` -/

namespace ParallelCacheState

variable {Err : Type} {db : Database Err} {cache cache' : ParallelCacheState} {address : Address}
  {c : CacheAccountInfo}

/-- The account can be read. -/
def loadable (db : Database Err) (cache : ParallelCacheState) (address : Address) : Bool :=
  (cache.dbBasic db address).2.isOk

/-- What `basic` returns: the cached account, or the one the database
has. -/
theorem dbBasic_snd (db : Database Err) (cache : ParallelCacheState) (address : Address) :
    (cache.dbBasic db address).2 =
      match cache.accounts address with
      | some c => .ok c.account
      | none => (db.basic address).map fun info => (CacheAccountInfo.ofDatabase info).account := by
  unfold dbBasic
  cases hc : cache.accounts address with
  | some c => rfl
  | none =>
    cases db.basic address with
    | error e => rfl
    | ok info => simp [insertLoaded, hc, Except.map]

/-- The accounts of the list before the first one that cannot be read. -/
def reached (db : Database Err) (cache : ParallelCacheState) (addresses : List Address) :
    List Address :=
  addresses.takeWhile (cache.loadable db)

theorem dbBasic_setAccount (other : Address) :
    ((cache.setAccount address c).dbBasic db other).2 =
      if other = address then .ok c.account else (cache.dbBasic db other).2 := by
  rw [dbBasic_snd, dbBasic_snd]
  by_cases heq : other = address <;> simp [setAccount, heq]

/-- A load caches the account without changing what `basic` returns. -/
theorem dbBasic_of_load (h : cache.loadMutCacheAccount db address = .ok (cache', c)) :
    (cache.dbBasic db address).2 = .ok c.account ∧
      ∀ other, (cache'.dbBasic db other).2 = (cache.dbBasic db other).2 := by
  unfold loadMutCacheAccount at h
  split at h
  · rename_i hc
    cases h
    exact ⟨by rw [dbBasic_snd, hc], fun _ => rfl⟩
  · rename_i hnone
    split at h <;> cases h
    rename_i info hinfo
    have haddress : (cache.dbBasic db address).2 = .ok (CacheAccountInfo.ofDatabase info).account := by
      rw [dbBasic_snd, hnone, hinfo]
      rfl
    refine ⟨haddress, fun other => ?_⟩
    rw [dbBasic_setAccount]
    split
    · rename_i heq
      rw [heq, haddress]
    · rfl

theorem accounts_of_load {other : Address}
    (h : cache.loadMutCacheAccount db address = .ok (cache', c)) (hne : other ≠ address) :
    cache'.accounts other = cache.accounts other := by
  unfold loadMutCacheAccount at h
  split at h
  · cases h
    rfl
  · split at h <;> cases h
    simp [setAccount, hne]

theorem dbBasic_of_load_error {e : Err} (h : cache.loadMutCacheAccount db address = .error e) :
    (cache.dbBasic db address).2 = .error e := by
  unfold loadMutCacheAccount at h
  split at h
  · cases h
  · rename_i hnone
    split at h <;> cases h
    rename_i hinfo
    rw [dbBasic_snd, hnone, hinfo]
    rfl

/-- A load and a change of the account that keeps its information are
not seen by `basic`. -/
theorem dbBasic_of_same {c' : CacheAccountInfo}
    (h : cache.loadMutCacheAccount db address = .ok (cache', c)) (hsame : c'.account = c.account)
    (other : Address) :
    ((cache'.setAccount address c').dbBasic db other).2 = (cache.dbBasic db other).2 := by
  obtain ⟨hread, hothers⟩ := dbBasic_of_load h
  rw [dbBasic_setAccount]
  split
  · rename_i heq
    rw [heq, hread, hsame]
  · exact hothers other

end ParallelCacheState

/-! ## An update that fails -/

/-- A change moves the account upwards, or leaves its information as it
is: exactly the accounts that are at rest. -/
structure AccountUpdate.Moves {T : Type} (update : AccountUpdate T)
    (weight : Option AccountInfo → Nat) (rest : Option AccountInfo → Prop) : Prop where
  up : ∀ account output transition changed,
    update.change account = some ((output, transition), changed) →
      changed.account = account.account ∨ weight account.account < weight changed.account
  stays : ∀ account output transition changed,
    update.change account = some ((output, transition), changed) →
      (changed.account = account.account ↔ rest account.account)

section

variable {Err T : Type} {db : Database Err} {cache cache' : ParallelCacheState}
  {updates : List (AccountUpdate T)} {outputs : List T}
  {transitions : List (Address × TransitionAccount)}

/-- One round of the loop: the load fails, or the account is changed and
the loop goes on. -/
theorem updateAccounts_cons {update : AccountUpdate T}
    {result : ParallelCacheState × UpdateOutcome Err T}
    (h : updateAccounts db cache (update :: updates) outputs transitions = some result) :
    (∃ e, cache.loadMutCacheAccount db update.address = .error e ∧ result = (cache, .error e)) ∨
      ∃ loaded account output transition changed,
        cache.loadMutCacheAccount db update.address = .ok (loaded, account) ∧
        update.change account = some ((output, transition), changed) ∧
        updateAccounts db (loaded.setAccount update.address changed) updates (outputs ++ [output])
          (transitions ++ [(update.address, transition)]) = some result := by
  unfold updateAccounts at h
  split at h
  · rename_i e hload
    cases h
    exact .inl ⟨e, hload, rfl⟩
  · rename_i loaded account hload
    split at h
    · cases h
    · rename_i output transition changed hchange
      exact .inr ⟨loaded, account, output, transition, changed, hload, hchange, h⟩

variable {weight : Option AccountInfo → Nat} {rest : Option AccountInfo → Prop}

/-- After a failed loop every account has its information, or has moved
upwards. -/
theorem same_or_up_of_error {e : Err} (hmoves : ∀ update ∈ updates, update.Moves weight rest)
    (h : updateAccounts db cache updates outputs transitions = some (cache', .error e))
    (address : Address) :
    (cache'.dbBasic db address).2 = (cache.dbBasic db address).2 ∨
      ∃ info info', (cache.dbBasic db address).2 = .ok info ∧
        (cache'.dbBasic db address).2 = .ok info' ∧ weight info < weight info' := by
  induction updates generalizing cache outputs transitions with
  | nil => simp [updateAccounts] at h
  | cons update updates ih =>
    rcases updateAccounts_cons h with
      ⟨e', -, heq⟩ | ⟨loaded, account, output, transition, changed, hload, hchange, h⟩
    · cases heq
      exact .inl rfl
    · have hlater := ih (fun other hother => hmoves other (List.mem_cons_of_mem _ hother)) h
      rcases (hmoves update List.mem_cons_self).up _ _ _ _ hchange with hsame | hup
      · rwa [ParallelCacheState.dbBasic_of_same hload hsame] at hlater
      · obtain ⟨hread, hothers⟩ := ParallelCacheState.dbBasic_of_load hload
        rw [ParallelCacheState.dbBasic_setAccount] at hlater
        split at hlater
        · rename_i heq
          subst heq
          rcases hlater with hlater | ⟨info, info', hinfo, hinfo', hlt⟩
          · exact .inr ⟨account.account, changed.account, hread, hlater, hup⟩
          · cases hinfo
            exact .inr ⟨account.account, info', hread, hinfo', hup.trans hlt⟩
        · rwa [hothers] at hlater

/-- **Run lemma.** A failed loop leaves all accounts as they were exactly
when the accounts it has reached are at rest. -/
theorem same_of_error_iff {e : Err} (hmoves : ∀ update ∈ updates, update.Moves weight rest)
    (h : updateAccounts db cache updates outputs transitions = some (cache', .error e)) :
    (∀ address, (cache'.dbBasic db address).2 = (cache.dbBasic db address).2) ↔
      ∀ address ∈ cache.reached db (updates.map AccountUpdate.address),
        ∃ info, (cache.dbBasic db address).2 = .ok info ∧ rest info := by
  induction updates generalizing cache outputs transitions with
  | nil => simp [updateAccounts] at h
  | cons update updates ih =>
    have hmoves' : ∀ other ∈ updates, other.Moves weight rest :=
      fun other hother => hmoves other (List.mem_cons_of_mem _ hother)
    rcases updateAccounts_cons h with
      ⟨e', herror, heq⟩ | ⟨loaded, account, output, transition, changed, hload, hchange, h⟩
    · have hunread : cache.loadable db update.address = false := by
        rw [ParallelCacheState.loadable, ParallelCacheState.dbBasic_of_load_error herror]
        rfl
      cases heq
      simp [ParallelCacheState.reached, hunread]
    · have hread := (ParallelCacheState.dbBasic_of_load hload).1
      have hloadable : cache.loadable db update.address = true := by
        rw [ParallelCacheState.loadable, hread]
        rfl
      have hreached : cache.reached db ((update :: updates).map AccountUpdate.address) =
          update.address :: cache.reached db (updates.map AccountUpdate.address) := by
        simp [ParallelCacheState.reached, hloadable]
      have hstays := (hmoves update List.mem_cons_self).stays _ _ _ _ hchange
      rw [hreached, List.forall_mem_cons]
      by_cases hsame : changed.account = account.account
      · -- The account is at rest, and the rest of the loop starts from what `basic` returns now.
        have hbasic : ∀ other, ((loaded.setAccount update.address changed).dbBasic db other).2 =
            (cache.dbBasic db other).2 := ParallelCacheState.dbBasic_of_same hload hsame
        have hrest := ih hmoves' h
        have hload' : (loaded.setAccount update.address changed).loadable db =
            cache.loadable db := by
          funext other
          rw [ParallelCacheState.loadable, hbasic, ParallelCacheState.loadable]
        simp only [ParallelCacheState.reached, hload', hbasic] at hrest
        rw [hrest]
        exact (and_iff_right ⟨account.account, hread, hstays.mp hsame⟩).symm
      · -- It has moved, and does not come back.
        refine iff_of_false (fun hall => ?_) fun hall => ?_
        · have hup := ((hmoves update List.mem_cons_self).up _ _ _ _ hchange).resolve_left hsame
          have hnow : ((loaded.setAccount update.address changed).dbBasic db update.address).2 =
              .ok changed.account := by
            rw [ParallelCacheState.dbBasic_setAccount, if_pos rfl]
          have hback := (hall update.address).trans hread
          rcases same_or_up_of_error hmoves' h update.address with
            hlater | ⟨info, info', hinfo, hinfo', hlt⟩
          · exact hsame (Except.ok.inj ((hlater.trans hnow).symm.trans hback))
          · cases hnow.symm.trans hinfo
            cases hback.symm.trans hinfo'
            exact absurd (hup.trans hlt) (lt_irrefl _)
        · obtain ⟨info, hinfo, hrest⟩ := hall.1
          cases hread.symm.trans hinfo
          exact hsame (hstays.mpr hrest)

end

namespace ParallelState

/-- The amounts of `increment_balance` saturate: only an account with the
largest balance keeps it. -/
theorem moves_of_mem_incrementUpdates {balances : List (Address × BitVec 128)}
    {update : AccountUpdate Unit} (h : update ∈ incrementUpdates balances) :
    update.Moves (fun account => account.elim 0 fun info => info.balance.toNat + 1)
      fun account => ∃ info, account = some info ∧ info.balance = top 256 := by
  obtain ⟨⟨address, amount⟩, hmem, rfl⟩ := List.mem_map.mp h
  have hne : amount ≠ 0 := by simpa using (List.mem_filter.mp hmem).2
  have hpos : 0 < (amount.setWidth 256).toNat := by
    rw [BitVec.toNat_setWidth_of_le (by omega)]
    exact Nat.pos_of_ne_zero fun hzero => hne (BitVec.eq_of_toNat_eq (by simpa using hzero))
  have hchange : ∀ (account : CacheAccountInfo) output transition changed,
      account.incrementBalance amount = some ((output, transition), changed) →
        changed.account = some { account.account.getD .empty with
          balance := satAdd (account.account.getD .empty).balance (amount.setWidth 256) } := by
    intro account output transition changed h
    rw [CacheAccountInfo.incrementBalance, if_neg hne] at h
    cases h
    rfl
  constructor
  · intro account output transition changed h
    rw [hchange _ _ _ _ h]
    cases account.account with
    | none => exact .inr (by simp)
    | some info =>
      simp only [Option.getD_some, Option.elim_some]
      rcases eq_or_ne (satAdd info.balance (amount.setWidth 256)) info.balance with h | h
      · exact .inl (by rw [h])
      · exact .inr (Nat.succ_lt_succ (lt_satAdd_of_ne h))
  · intro account output transition changed h
    rw [hchange _ _ _ _ h]
    cases account.account with
    | none => simp
    | some info =>
      simp only [Option.getD_some, Option.some.injEq, exists_eq_left']
      rw [← satAdd_eq_self_iff hpos]
      exact ⟨fun h => congrArg AccountInfo.balance h, fun h => by rw [h]⟩

/-- `drain_balance` keeps only an account without balance. -/
theorem moves_of_mem_drainUpdates {addresses : List Address}
    {update : AccountUpdate (BitVec 128)} (h : update ∈ drainUpdates addresses) :
    update.Moves (fun account => account.elim 0 fun info => if info.balance = 0 then 2 else 1)
      fun account => ∃ info, account = some info ∧ info.balance = 0 := by
  obtain ⟨address, -, rfl⟩ := List.mem_map.mp h
  have hchange : ∀ (account : CacheAccountInfo) output transition changed,
      account.drainBalance = some ((output, transition), changed) →
        changed.account = some { account.account.getD .empty with balance := 0 } := by
    intro account output transition changed h
    obtain ⟨⟨drained, info⟩, hinfo, heq⟩ := Option.map_eq_some_iff.mp h
    cases heq
    obtain ⟨-, hinfo⟩ := Option.ite_none_right_eq_some.mp hinfo
    cases hinfo
    rfl
  constructor
  · intro account output transition changed h
    rw [hchange _ _ _ _ h]
    cases account.account with
    | none => exact .inr (by simp)
    | some info =>
      by_cases hzero : info.balance = 0
      · exact .inl (by rw [Option.getD_some, ← hzero])
      · refine .inr ?_
        simp only [Option.getD_some, Option.elim_some, if_neg hzero, if_true]
        decide
  · intro account output transition changed h
    rw [hchange _ _ _ _ h]
    cases account.account with
    | none => simp
    | some info =>
      simp only [Option.getD_some, Option.some.injEq, exists_eq_left']
      exact ⟨fun h => (congrArg AccountInfo.balance h).symm, fun h => by rw [← h]⟩

end ParallelState

/-! ## An update that succeeds -/

/-- The transition of a change goes from the account before it to the
account after it. -/
def AccountUpdate.Records {T : Type} (update : AccountUpdate T) : Prop :=
  ∀ account output transition changed,
    update.change account = some ((output, transition), changed) →
      transition.info = changed.account ∧ transition.status = changed.status ∧
        transition.previousInfo = account.account

theorem CacheAccountInfo.accountInfoChange_records {T : Type} {c changed : CacheAccountInfo}
    {change : AccountInfo → Option (T × AccountInfo)} {output : T}
    {transition : TransitionAccount}
    (h : c.accountInfoChange change = some ((output, transition), changed)) :
    transition.info = changed.account ∧ transition.status = changed.status ∧
      transition.previousInfo = c.account := by
  obtain ⟨⟨_, info⟩, -, heq⟩ := Option.map_eq_some_iff.mp h
  cases heq
  exact ⟨rfl, rfl, rfl⟩

namespace ParallelState

theorem records_of_mem_incrementUpdates {balances : List (Address × BitVec 128)}
    {update : AccountUpdate Unit} (h : update ∈ incrementUpdates balances) : update.Records := by
  obtain ⟨entry, -, rfl⟩ := List.mem_map.mp h
  intro account output transition changed hchange
  simp only [CacheAccountInfo.incrementBalance] at hchange
  split at hchange
  · cases hchange
  · exact CacheAccountInfo.accountInfoChange_records hchange

theorem records_of_mem_drainUpdates {addresses : List Address}
    {update : AccountUpdate (BitVec 128)} (h : update ∈ drainUpdates addresses) :
    update.Records := by
  obtain ⟨address, -, rfl⟩ := List.mem_map.mp h
  intro account output transition changed hchange
  simp only [CacheAccountInfo.drainBalance] at hchange
  exact CacheAccountInfo.accountInfoChange_records hchange

end ParallelState

section

variable {Err : Type} (db : Database Err) (start : ParallelCacheState)
  (pending : TransitionMap TransitionAccount)

/-- What the account was before its pending transition: what `basic`
returned at the start of the call, or what a transition that was pending
already says. -/
def previousAccount (address : Address) : Except Err (Option AccountInfo) :=
  match pending.lookup address with
  | none => (start.dbBasic db address).2
  | some earlier => .ok earlier.previousInfo

/-- The account is pending with the value it has in the cache and the
value it had before. -/
def Recorded (cache : ParallelCacheState) (transitions : TransitionMap TransitionAccount)
    (address : Address) : Prop :=
  ∃ transition c, transitions.lookup address = some transition ∧
    cache.accounts address = some c ∧ transition.info = c.account ∧ transition.status = c.status ∧
    previousAccount db start pending address = .ok transition.previousInfo

/-- The cache and the transitions after the accounts in `touched` have
been changed. -/
structure UpdateLog (touched : List Address) (cache : ParallelCacheState)
    (transitions : TransitionMap TransitionAccount) : Prop where
  recorded : ∀ address ∈ touched, Recorded db start pending cache transitions address
  untouched : ∀ address, address ∉ touched →
    (cache.dbBasic db address).2 = (start.dbBasic db address).2 ∧
      transitions.lookup address = pending.lookup address

end

section

variable {Err T : Type} {db : Database Err} {start cache loaded : ParallelCacheState}
  {pending transitions : TransitionMap TransitionAccount} {touched : List Address}

theorem TransitionAccount.update_info (transition other : TransitionAccount) :
    (transition.update other).info = other.info ∧ (transition.update other).status = other.status ∧
      (transition.update other).previousInfo = transition.previousInfo := by
  unfold update
  split <;> exact ⟨rfl, rfl, rfl⟩

theorem addTransition_of_ne {entry : Address × TransitionAccount} {address : Address}
    (hne : address ≠ entry.1) :
    (addTransition transitions entry).lookup address = transitions.lookup address := by
  unfold addTransition
  split <;> exact AList.lookup_insert_ne hne

/-- The entry of an account after a transition of it. -/
theorem lookup_addTransition (transitions : TransitionMap TransitionAccount) (address : Address)
    (transition : TransitionAccount) :
    ∃ recorded, (addTransition transitions (address, transition)).lookup address = some recorded ∧
      recorded.info = transition.info ∧ recorded.status = transition.status ∧
      recorded.previousInfo =
        ((transitions.lookup address).map TransitionAccount.previousInfo).getD
          transition.previousInfo := by
  unfold addTransition
  cases transitions.lookup address with
  | none => exact ⟨transition, AList.lookup_insert _, rfl, rfl, rfl⟩
  | some earlier => exact ⟨_, AList.lookup_insert _, earlier.update_info transition⟩

/-- What the next transition of an account starts from. -/
theorem UpdateLog.previous {address : Address} {account : Option AccountInfo}
    (h : UpdateLog db start pending touched cache transitions)
    (hbasic : (cache.dbBasic db address).2 = .ok account) :
    previousAccount db start pending address =
      .ok (((transitions.lookup address).map TransitionAccount.previousInfo).getD account) := by
  by_cases htouched : address ∈ touched
  · -- A second change of the account keeps where the first one started.
    obtain ⟨earlier, _, hearlier, -, -, -, hprevious⟩ := h.recorded _ htouched
    rw [hearlier]
    exact hprevious
  · obtain ⟨hsame, hpending⟩ := h.untouched _ htouched
    rw [previousAccount, hpending]
    cases pending.lookup address with
    | none => exact hsame.symm.trans hbasic
    | some earlier => rfl

theorem UpdateLog.step {update : AccountUpdate T} {account changed : CacheAccountInfo} {output : T}
    {transition : TransitionAccount} (h : UpdateLog db start pending touched cache transitions)
    (hload : cache.loadMutCacheAccount db update.address = .ok (loaded, account))
    (hrecords : update.Records)
    (hchange : update.change account = some ((output, transition), changed)) :
    UpdateLog db start pending (update.address :: touched)
      (loaded.setAccount update.address changed)
      (addTransition transitions (update.address, transition)) := by
  obtain ⟨hinfo, hstatus, hprevious⟩ := hrecords _ _ _ _ hchange
  obtain ⟨hbasic, hothers⟩ := ParallelCacheState.dbBasic_of_load hload
  refine ⟨fun address hmem => ?_, fun address hnot => ?_⟩
  · by_cases heq : address = update.address
    · subst heq
      obtain ⟨recorded, hlookup, hrinfo, hrstatus, hrprevious⟩ :=
        lookup_addTransition transitions update.address transition
      refine ⟨recorded, changed, hlookup, by simp [ParallelCacheState.setAccount],
        hrinfo.trans hinfo, hrstatus.trans hstatus, ?_⟩
      rw [h.previous hbasic, hrprevious, hprevious]
    · obtain ⟨recorded, c, hlookup, hc, hrest⟩ :=
        h.recorded address ((List.mem_cons.mp hmem).resolve_left heq)
      refine ⟨recorded, c, ?_, ?_, hrest⟩
      · rw [addTransition_of_ne heq]
        exact hlookup
      · rw [← hc, ← ParallelCacheState.accounts_of_load hload heq]
        simp [ParallelCacheState.setAccount, heq]
  · obtain ⟨hne, hnot⟩ := not_or.mp (mt List.mem_cons.mpr hnot)
    obtain ⟨hsame, hlookup⟩ := h.untouched address hnot
    rw [ParallelCacheState.dbBasic_setAccount, if_neg hne, hothers, addTransition_of_ne hne]
    exact ⟨hsame, hlookup⟩

/-- The whole loop. -/
theorem UpdateLog.run {cache' : ParallelCacheState} {updates : List (AccountUpdate T)}
    {outputs outputs' : List T} {collected collected' : List (Address × TransitionAccount)}
    (h : UpdateLog db start pending touched cache (addTransitions pending collected))
    (hrecords : ∀ update ∈ updates, update.Records)
    (hrun : updateAccounts db cache updates outputs collected =
      some (cache', .ok (outputs', collected'))) :
    UpdateLog db start pending ((updates.map AccountUpdate.address).reverse ++ touched) cache'
      (addTransitions pending collected') := by
  induction updates generalizing touched cache outputs collected with
  | nil =>
    cases hrun
    exact h
  | cons update updates ih =>
    rcases updateAccounts_cons hrun with
      ⟨e, -, heq⟩ | ⟨loaded, account, output, transition, changed, hload, hchange, hrun⟩
    · cases heq
    · have hstep := h.step hload (hrecords update List.mem_cons_self) hchange
      have hlog := ih (by simpa [addTransitions] using hstep)
        (fun other hother => hrecords other (List.mem_cons_of_mem _ hother)) hrun
      simpa using hlog

end

/-! ## The two functions -/

namespace ParallelState

variable {Err T : Type} {db : Database Err} {s s' : ParallelState}
  {updates : List (AccountUpdate T)} {outputs : List T}

/-- All that a call has changed is recorded: the accounts in the list are
pending with their new values, and the others are as before. -/
def AllRecorded (db : Database Err) (s s' : ParallelState) (addresses : List Address) : Prop :=
  ∀ pending, s.transitionState = some pending →
    ∃ transitions, s'.transitionState = some transitions ∧
      ∀ address, (address ∈ addresses →
          Recorded db s.cache pending s'.cache transitions address) ∧
        (address ∉ addresses →
          (s'.basic db address).2 = (s.basic db address).2 ∧
            transitions.lookup address = pending.lookup address)

/-- A failed call keeps the pending transitions, and leaves all accounts
as they were exactly when those it has reached are at rest. -/
theorem applyUpdates_error {e : Err} {weight : Option AccountInfo → Nat}
    {rest : Option AccountInfo → Prop} (hmoves : ∀ update ∈ updates, update.Moves weight rest)
    (h : s.applyUpdates db updates = some (s', .error e)) :
    s'.transitionState = s.transitionState ∧
      ((∀ address, (s'.basic db address).2 = (s.basic db address).2) ↔
        ∀ address ∈ s.cache.reached db (updates.map AccountUpdate.address),
          ∃ info, (s.basic db address).2 = .ok info ∧ rest info) := by
  obtain ⟨⟨cache', outcome⟩, hrun, heq⟩ := Option.map_eq_some_iff.mp h
  cases outcome with
  | ok outcome => cases heq
  | error e' =>
    cases heq
    exact ⟨rfl, same_of_error_iff hmoves hrun⟩

/-- A call that succeeds has recorded all it changed. -/
theorem applyUpdates_ok (hrecords : ∀ update ∈ updates, update.Records)
    (h : s.applyUpdates db updates = some (s', .ok outputs)) :
    AllRecorded db s s' (updates.map AccountUpdate.address) := by
  intro pending hpending
  obtain ⟨⟨cache', outcome⟩, hrun, heq⟩ := Option.map_eq_some_iff.mp h
  cases outcome with
  | error e => cases heq
  | ok outcome =>
    obtain ⟨outputs', collected⟩ := outcome
    cases heq
    have hlog : UpdateLog db s.cache pending [] s.cache (addTransitions pending []) :=
      ⟨fun _ hmem => absurd hmem List.not_mem_nil, fun _ _ => ⟨rfl, rfl⟩⟩
    have hlog := hlog.run hrecords hrun
    refine ⟨addTransitions pending collected, by simp [applyTransition, hpending], ?_⟩
    intro address
    refine ⟨fun hmem => hlog.recorded address (by simpa using hmem), fun hnot => ?_⟩
    exact hlog.untouched address (by simpa using hnot)

/-- The addresses whose balance `increment_balances` changes. -/
def incremented (balances : List (Address × BitVec 128)) : List Address :=
  (balances.filter fun entry => entry.2 ≠ 0).map Prod.fst

theorem map_address_incrementUpdates (balances : List (Address × BitVec 128)) :
    (incrementUpdates balances).map AccountUpdate.address = incremented balances := by
  simp [incrementUpdates, incremented]

theorem map_address_drainUpdates (addresses : List Address) :
    (drainUpdates addresses).map AccountUpdate.address = addresses := by
  simp [drainUpdates, Function.comp_def]

theorem exists_ok_some_iff {result : Except Err (Option AccountInfo)} {p : AccountInfo → Prop} :
    (∃ account, result = .ok account ∧ ∃ info, account = some info ∧ p info) ↔
      ∃ info, result = .ok (some info) ∧ p info := by
  constructor
  · rintro ⟨_, hok, info, rfl, hp⟩
    exact ⟨info, hok, hp⟩
  · rintro ⟨info, hok, hp⟩
    exact ⟨some info, hok, info, rfl, hp⟩

/-- **Bulk updates of balances.** A call that succeeds has recorded all it
changed. A call that fails keeps the pending transitions; it has changed
no account exactly when every account before the first one that cannot
be read exists and has the balance that the call gives it, the largest
one or none. -/
theorem bulk_balance_updates_are_atomic (db : Database Err) (s : ParallelState) :
    (∀ balances s' e, s.incrementBalances db balances = some (s', .error e) →
      s'.transitionState = s.transitionState ∧
        ((∀ address, (s'.basic db address).2 = (s.basic db address).2) ↔
          ∀ address ∈ s.cache.reached db (incremented balances),
            ∃ info, (s.basic db address).2 = .ok (some info) ∧ info.balance = top 256)) ∧
    (∀ addresses s' e, s.drainBalances db addresses = some (s', .error e) →
      s'.transitionState = s.transitionState ∧
        ((∀ address, (s'.basic db address).2 = (s.basic db address).2) ↔
          ∀ address ∈ s.cache.reached db addresses,
            ∃ info, (s.basic db address).2 = .ok (some info) ∧ info.balance = 0)) ∧
    (∀ balances s', s.incrementBalances db balances = some (s', .ok ()) →
      AllRecorded db s s' (incremented balances)) ∧
    ∀ addresses s' outputs, s.drainBalances db addresses = some (s', .ok outputs) →
      AllRecorded db s s' addresses := by
  refine ⟨fun balances s' e h => ?_, fun addresses s' e h => ?_,
    fun balances s' h => ?_, fun addresses s' outputs h => ?_⟩
  · obtain ⟨⟨s₁, result⟩, hupdates, heq⟩ := Option.map_eq_some_iff.mp h
    cases result with
    | ok outputs => cases heq
    | error e' =>
      cases heq
      have hfailed := applyUpdates_error (fun _ => moves_of_mem_incrementUpdates) hupdates
      rw [map_address_incrementUpdates] at hfailed
      simpa only [exists_ok_some_iff] using hfailed
  · have hfailed := applyUpdates_error (fun _ => moves_of_mem_drainUpdates) h
    rw [map_address_drainUpdates] at hfailed
    simpa only [exists_ok_some_iff] using hfailed
  · obtain ⟨⟨s₁, result⟩, hupdates, heq⟩ := Option.map_eq_some_iff.mp h
    cases result with
    | error e => cases heq
    | ok outputs =>
      cases heq
      rw [← map_address_incrementUpdates]
      exact applyUpdates_ok (fun _ => records_of_mem_incrementUpdates) hupdates
  · rw [← map_address_drainUpdates addresses]
    exact applyUpdates_ok (fun _ => records_of_mem_drainUpdates) h

/-- A database that can read one account, with a balance of 5. -/
def oneReadable : Database Unit where
  basic address := if address = 1 then .ok (some { AccountInfo.empty with balance := 5 }) else .error ()
  code _ := .error ()
  storage _ _ := .error ()

/-- The unreadable account comes first, and a readable one stands before
another unreadable one: nothing happens. Draining the account twice
drains it once. -/
theorem bulk_balance_updates_are_atomic_oneReadable :
    (∃ s', ({ transitionState := some ∅ } : ParallelState).incrementBalances oneReadable
        [(2, 10), (1, 10), (3, 10)] = some (s', .error ()) ∧
      (s'.basic oneReadable 1).2 = .ok (some { AccountInfo.empty with balance := 5 })) ∧
    (∃ s', ({ transitionState := some ∅ } : ParallelState).drainBalances oneReadable [1, 2] =
        some (s', .error ()) ∧
      ¬ ∀ address, (s'.basic oneReadable address).2 =
        (({ transitionState := some ∅ } : ParallelState).basic oneReadable address).2) ∧
    ∃ s', ({ transitionState := some ∅ } : ParallelState).drainBalances oneReadable [1, 1] =
        some (s', .ok [5, 0]) ∧
      AllRecorded oneReadable { transitionState := some ∅ } s' [1, 1] := by
  obtain ⟨hincrement, hdrain, -, hdrained⟩ :=
    bulk_balance_updates_are_atomic oneReadable { transitionState := some ∅ }
  refine ⟨⟨_, rfl, ?_⟩, ⟨_, rfl, fun hall => ?_⟩, ⟨_, rfl, hdrained [1, 1] _ _ rfl⟩⟩
  · have hnone : ({} : ParallelCacheState).reached oneReadable
        (incremented [(2, 10), (1, 10), (3, 10)]) = [] := by decide
    obtain ⟨-, hiff⟩ := hincrement [(2, 10), (1, 10), (3, 10)] _ () rfl
    exact (hiff.mpr (hnone ▸ List.forall_mem_nil _) 1).trans rfl
  · have hone : ({} : ParallelCacheState).reached oneReadable [1, 2] = [1] := by decide
    obtain ⟨info, hinfo, hbalance⟩ :=
      (hdrain [1, 2] _ () rfl).2.mp hall 1 (hone ▸ List.mem_cons_self)
    cases hinfo
    exact absurd hbalance (by decide)

/-- The readable account comes first: its balance has changed in the
cache after the failed call, and no transition is pending for it. -/
theorem failed_bulk_update_keeps_its_changes :
    (∃ s', ({ transitionState := some ∅ } : ParallelState).incrementBalances oneReadable
        [(1, 10), (2, 10)] = some (s', .error ()) ∧
      (({ transitionState := some ∅ } : ParallelState).basic oneReadable 1).2 =
        .ok (some { AccountInfo.empty with balance := 5 }) ∧
      (s'.basic oneReadable 1).2 = .ok (some { AccountInfo.empty with balance := 15 }) ∧
      s'.transitionState = some ∅) ∧
    ∃ s', ({ transitionState := some ∅ } : ParallelState).drainBalances oneReadable [1, 2] =
        some (s', .error ()) ∧
      (s'.basic oneReadable 1).2 = .ok (some { AccountInfo.empty with balance := 0 }) ∧
      s'.transitionState = some ∅ :=
  ⟨⟨_, rfl, rfl, rfl, rfl⟩, ⟨_, rfl, rfl, rfl⟩⟩

end ParallelState

end Grevm
