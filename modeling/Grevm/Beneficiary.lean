/-
Grevm.Beneficiary — deferred rewards and the beneficiary history.

`src/beneficiary/reward.rs` and `src/beneficiary/history.rs`. Every
transaction owns one history entry; an entry is an estimate until an
execution records the exact effect of its incarnation, and a reader walks
the entries backwards until it meets a snapshot or the block-start
anchor. The walk holds one entry lock at a time, so `ScanState.step` is
one step of an interleaving and `scanBefore` is the walk over entries
that do not change under it.
-/
import Grevm.Model

namespace Grevm

/-! ## Rewards -/

/-- `apply_to`: checked addition, an overflowing reward leaves the
balance as it was; an absent account is materialized. -/
def DeferredBeneficiaryReward.applyTo (reward : DeferredBeneficiaryReward)
    (account : Option AccountInfo) : AccountInfo :=
  let account := account.getD AccountInfo.empty
  if account.balance.toNat + reward.amount.toNat < 2 ^ 256 then
    { account with balance := account.balance + reward.amount }
  else account

/-! ## Entries -/

/-- One transaction's exact effect on the beneficiary account. -/
inductive BeneficiaryEffect where
  | unchanged
  | reward (reward : DeferredBeneficiaryReward)
  | snapshot (account : Option AccountInfo)
  deriving DecidableEq

/-- `from_execution`. A deferred reward beside a finalized beneficiary
account fails the assertion, which is `none` here. -/
def BeneficiaryEffect.fromExecution (deferredReward : Option DeferredBeneficiaryReward)
    (account : Option Account) : Option BeneficiaryEffect :=
  match deferredReward, account with
  | some _, some _ => none
  | some r, none => some (.reward r)
  | none, none => some .unchanged
  | none, some account =>
    match FinalizedAccount.ofAccount account with
    | .unchanged => some .unchanged
    | .deleted => some (.snapshot none)
    | .created info | .updated info => some (.snapshot (some info))

inductive EntryValue where
  | estimate
  | exact (effect : BeneficiaryEffect)
  deriving DecidableEq

structure EntryState where
  incarnation : Nat := 0
  value : EntryValue := .estimate
  deriving DecidableEq

namespace EntryState

/-- `HistoryEntry::record`: the first publication of a newer incarnation
replaces the entry; anything else is refused. -/
def record (entry : EntryState) (incarnation : Nat) (value : EntryValue) : Option EntryState :=
  if incarnation ≤ entry.incarnation then none else some { incarnation, value }

/-- `HistoryEntry::invalidate`: only the incarnation that validation
inspected turns into an estimate. -/
def invalidate (entry : EntryState) (incarnation : Nat) : Option EntryState :=
  if entry.incarnation = incarnation then some { entry with value := .estimate } else none

variable {entry : EntryState} {n : Nat} {value : EntryValue}

theorem record_of_lt (h : entry.incarnation < n) :
    entry.record n value = some { incarnation := n, value } := by
  simp [record, Nat.not_le.mpr h]

theorem record_eq_some_iff {entry' : EntryState} :
    entry.record n value = some entry' ↔
      entry.incarnation < n ∧ entry' = { incarnation := n, value } := by
  unfold record
  split
  · simp; omega
  · simp; constructor
    · rintro rfl; exact ⟨by omega, rfl⟩
    · rintro ⟨_, rfl⟩; rfl

theorem invalidate_self : entry.invalidate entry.incarnation
    = some { entry with value := .estimate } := by
  simp [invalidate]

end EntryState

/-! ## Scans -/

/-- The result of a complete backwards walk. -/
structure HistoryScan where
  base : Option AccountInfo
  rewardsNewestFirst : List DeferredBeneficiaryReward
  version : BeneficiaryReadVersion
  deriving DecidableEq

/-- The rewards of a walk, oldest first, on an account. -/
def payRewards (rewardsNewestFirst : List DeferredBeneficiaryReward)
    (account : Option AccountInfo) : Option AccountInfo :=
  rewardsNewestFirst.reverse.foldl (fun account reward => some (reward.applyTo account)) account

/-- `HistoryScan::resolve`: fold the rewards in transaction order. -/
def HistoryScan.resolve (scan : HistoryScan) : Option AccountInfo :=
  payRewards scan.rewardsNewestFirst scan.base

/-- A walk in progress: the entries below `writer` are still to be
visited. -/
structure ScanState where
  writer : Nat
  origins : List TxVersion := []
  rewardsNewestFirst : List DeferredBeneficiaryReward := []
  deriving DecidableEq

/-- What one visit leads to. -/
inductive ScanStep where
  | more (state : ScanState)
  | done (scan : HistoryScan)
  | blocked (writer : Nat)
  deriving DecidableEq

namespace ScanState

/-- One iteration of `scan_before`: copy the next entry and account for
its effect. Below the first transaction the walk ends at the anchor. -/
def step (anchor : Option AccountInfo) (history : Nat → EntryState) (state : ScanState) :
    ScanStep :=
  match state.writer with
  | 0 =>
    .done { base := anchor, rewardsNewestFirst := state.rewardsNewestFirst,
            version := { origins := state.origins } }
  | writer + 1 =>
    match (history writer).value with
    | .estimate => .blocked writer
    | .exact effect =>
      let origins := state.origins ++ [⟨writer, (history writer).incarnation⟩]
      match effect with
      | .unchanged => .more { state with writer, origins }
      | .reward reward =>
        .more { writer, origins, rewardsNewestFirst := state.rewardsNewestFirst ++ [reward] }
      | .snapshot account =>
        .done { base := account, rewardsNewestFirst := state.rewardsNewestFirst,
                version := { origins } }

end ScanState

/-- The rest of a walk over entries that do not change. -/
def scanFrom (history : Nat → EntryState) (anchor : Option AccountInfo) :
    Nat → List TxVersion → List DeferredBeneficiaryReward → Except Nat HistoryScan
  | 0, origins, rewards =>
    .ok { base := anchor, rewardsNewestFirst := rewards, version := { origins } }
  | n + 1, origins, rewards =>
    match (history n).value with
    | .estimate => .error n
    | .exact effect =>
      let origins := origins ++ [⟨n, (history n).incarnation⟩]
      match effect with
      | .unchanged => scanFrom history anchor n origins rewards
      | .reward reward => scanFrom history anchor n origins (rewards ++ [reward])
      | .snapshot account =>
        .ok { base := account, rewardsNewestFirst := rewards, version := { origins } }

/-- `scan_before` over entries that do not change; an error names the
estimate that blocks. -/
def scanBefore (history : Nat → EntryState) (anchor : Option AccountInfo) (txid : Nat) :
    Except Nat HistoryScan :=
  scanFrom history anchor txid [] []

/-! ## Walks over changing entries -/

section

variable {history history' : Nat → EntryState} {anchor : Option AccountInfo} {txid : Nat}
  {scan : ScanState}

/-- The walk of transaction `txid` has come to `scan`, and the entries
it has visited are as they were. -/
inductive Walked (history : Nat → EntryState) (anchor : Option AccountInfo) (txid : Nat) :
    ScanState → Prop where
  | start : Walked history anchor txid { writer := txid }
  | more {scan scan' : ScanState} : Walked history anchor txid scan →
      scan.step anchor history = .more scan' → Walked history anchor txid scan'

/-- A visit goes one entry back. -/
theorem ScanState.writer_of_more {scan' : ScanState}
    (h : scan.step anchor history = .more scan') : scan.writer = scan'.writer + 1 := by
  unfold ScanState.step at h
  split at h
  · cases h
  · rename_i writer hw
    split at h
    · cases h
    · dsimp only at h
      split at h <;> cases h <;> exact hw

theorem Walked.writer_le (h : Walked history anchor txid scan) : scan.writer ≤ txid := by
  induction h with
  | start => exact le_rfl
  | more _ hs ih =>
    have := ScanState.writer_of_more hs
    omega

/-- One visit of the walk over entries that do not change. -/
theorem scanFrom_eq_step :
    scanFrom history anchor scan.writer scan.origins scan.rewardsNewestFirst =
      match scan.step anchor history with
      | .more scan' =>
        scanFrom history anchor scan'.writer scan'.origins scan'.rewardsNewestFirst
      | .done found => .ok found
      | .blocked writer => .error writer := by
  obtain ⟨writer, origins, rewards⟩ := scan
  cases writer with
  | zero => rfl
  | succ n =>
    simp only [scanFrom, ScanState.step]
    cases (history n).value with
    | estimate => rfl
    | exact effect => cases effect <;> rfl

/-- What is left of a walk decides its result. -/
theorem Walked.scanBefore_eq (h : Walked history anchor txid scan) :
    scanBefore history anchor txid
      = scanFrom history anchor scan.writer scan.origins scan.rewardsNewestFirst := by
  induction h with
  | start => rfl
  | more _ hs ih => rw [ih, scanFrom_eq_step, hs]

/-- A visit of an exact entry that has not changed. -/
theorem ScanState.step_congr {next : ScanStep} (hne : ∀ writer, next ≠ .blocked writer)
    (h : scan.step anchor history = next)
    (hq : ∀ t effect, t < scan.writer → (history t).value = .exact effect →
      history' t = history t) : scan.step anchor history' = next := by
  subst h
  unfold ScanState.step at hne ⊢
  cases hw : scan.writer with
  | zero => rfl
  | succ n =>
    simp only [hw] at hne ⊢
    cases he : (history n).value with
    | estimate => simp [he] at hne
    | exact effect => rw [hq n effect (by omega) he, he]

/-- Only exact entries are visited on the way. -/
theorem Walked.congr (h : Walked history anchor txid scan)
    (hq : ∀ t effect, t < txid → (history t).value = .exact effect → history' t = history t) :
    Walked history' anchor txid scan := by
  induction h with
  | start => exact .start
  | more hw hs ih =>
    refine .more ih (ScanState.step_congr nofun hs fun t effect ht => hq t effect ?_)
    exact Nat.lt_of_lt_of_le ht hw.writer_le

theorem scanFrom_congr {n : Nat} {origins : List TxVersion}
    {rewards : List DeferredBeneficiaryReward} {found : HistoryScan}
    (hq : ∀ t effect, t < n → (history t).value = .exact effect → history' t = history t)
    (h : scanFrom history anchor n origins rewards = .ok found) :
    scanFrom history' anchor n origins rewards = .ok found := by
  induction n generalizing origins rewards with
  | zero => exact h
  | succ n ih =>
    have hlower : ∀ t effect, t < n → (history t).value = .exact effect →
        history' t = history t := fun t effect ht => hq t effect (by omega)
    simp only [scanFrom] at h ⊢
    cases he : (history n).value with
    | estimate => simp [he] at h
    | exact effect =>
      rw [hq n effect (by omega) he, he]
      simp only [he] at h
      cases effect with
      | unchanged | reward reward => exact ih hlower h
      | snapshot account => exact h

end

/-- `BeneficiaryValidation`: whether the chain still matches, and the
predecessor to wait for. -/
structure BeneficiaryValidation where
  valid : Bool
  dependency : Option Nat
  deriving DecidableEq

def BeneficiaryReadVersion.latestDependency (version : BeneficiaryReadVersion) : Option Nat :=
  version.origins.head?.map TxVersion.txid

/-- `HistoryScan::validate`. -/
def HistoryScan.validate (scan : HistoryScan) (expected : BeneficiaryReadVersion) :
    BeneficiaryValidation :=
  { valid := scan.version == expected, dependency := scan.version.latestDependency }

end Grevm
