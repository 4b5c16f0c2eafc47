/-
Grevm.Delegated.Planner — the cost of an account's later transactions.

`ReservePlanner` of `src/delegated_safety/reserve.rs`. The first query of
a block indexes the transactions by sender, the first query of an account
builds its suffix sums, and a binary search picks the suffix that starts
after the given transaction. A `HashMap` that is only looked up is an
`AList`; a lazily initialised cell is an `Option`. The planner of a block
answers `none` where the code would index out of bounds.

`requiredAfter_eq` is the specification: whatever was asked before, the
answer is the sum of the maximum costs of the later transactions of the
account, cut off at the largest word.
-/
import Grevm.Model
import Grevm.PartitionPoint
import Grevm.Words
import Mathlib.Algebra.Order.BigOperators.Group.List
import Mathlib.Algebra.Order.Group.Nat

namespace Grevm

open Words

/-! ## Transactions -/

inductive TxKind where
  | call (target : Address)
  | create
  deriving DecidableEq

/-- The fields of revm's `TxEnv` that the policy reads. -/
structure TxEnv where
  caller : Address
  kind : TxKind
  value : U256
  gasLimit : BitVec 64
  gasPrice : BitVec 128
  /-- The blob gas of an EIP-4844 transaction and its price limit. -/
  blob : Option (BitVec 64 × BitVec 128) := none
  deriving DecidableEq

/-- `calc_max_data_fee`: a saturating product in 128 bits. -/
def TxEnv.maxDataFee (blobGas : BitVec 64) (price : BitVec 128) : Nat :=
  min (blobGas.toNat * price.toNat) (2 ^ 128 - 1)

/-- revm's `max_balance_spending`: gas limit times gas price, plus the
value, plus the blob fee; `none` when a product or a sum overflows. -/
def TxEnv.maxBalanceSpending (tx : TxEnv) : Option U256 :=
  if tx.gasLimit.toNat * tx.gasPrice.toNat < 2 ^ 128 then
    (checkedAdd (BitVec.ofNat 256 (tx.gasLimit.toNat * tx.gasPrice.toNat)) tx.value).bind
      fun spending =>
        match tx.blob with
        | none => some spending
        | some (blobGas, price) => checkedAdd spending (BitVec.ofNat 256 (maxDataFee blobGas price))
  else none

/-- What the planner counts for a transaction: an overflowing maximum
cost is the largest word. -/
def TxEnv.plannedCost (tx : TxEnv) : U256 := tx.maxBalanceSpending.getD (top 256)

/-! ## The planner -/

/-- `AccountReserveSchedule`: the transactions of one sender in order,
and the saturating cost from each of them on. -/
structure AccountReserveSchedule where
  txids : List Nat
  costFrom : List U256

def AccountReserveSchedule.requiredAfter (schedule : AccountReserveSchedule) (txid : Nat) : U256 :=
  (schedule.costFrom[partitionPoint (fun candidate => decide (candidate ≤ txid)) schedule.txids]?).getD 0

abbrev SenderIndex := AList (fun _ : Address => List Nat)

structure ReservePlanner where
  txs : List TxEnv
  senderIndex : Option SenderIndex := none
  schedules : Address → Option AccountReserveSchedule := fun _ => none

namespace ReservePlanner

/-- `entry(caller).or_insert_with(Vec::new).push(txid)`. -/
def pushSender (index : SenderIndex) (tx : TxEnv) (txid : Nat) : SenderIndex :=
  index.insert tx.caller ((index.lookup tx.caller).getD [] ++ [txid])

/-- The scan of `sender_index`. -/
def buildIndex (txs : List TxEnv) : SenderIndex :=
  txs.zipIdx.foldl (fun index e => pushSender index e.1 e.2) ∅

/-- One iteration of `build_schedule`, which runs from the last
transaction of the sender to the first. -/
def addCost (txs : List TxEnv) (txid : Nat) (costs : U256 × List U256) :
    Option (U256 × List U256) :=
  (txs[txid]?).map fun tx =>
    let suffix := satAdd costs.1 tx.plannedCost
    (suffix, suffix :: costs.2)

def buildSchedule (txs : List TxEnv) (txids : List Nat) : Option AccountReserveSchedule :=
  (txids.foldrM (addCost txs) (0, [])).map fun costs => { txids, costFrom := costs.2 }

/-- `required_after`: the answer, and the planner with the cells the
query initialised. -/
def requiredAfter (planner : ReservePlanner) (txid : Nat) (address : Address) :
    Option (U256 × ReservePlanner) :=
  let index := planner.senderIndex.getD (buildIndex planner.txs)
  let planner := { planner with senderIndex := some index }
  match index.lookup address with
  | none => some (0, planner)
  | some txids =>
    if partitionPoint (fun candidate => decide (candidate ≤ txid)) txids = txids.length then
      some (0, planner)
    else
      let schedule := match planner.schedules address with
        | some schedule => some schedule
        | none => buildSchedule planner.txs txids
      schedule.map fun schedule =>
        (schedule.requiredAfter txid,
          { planner with
            schedules := fun a => if a = address then some schedule else planner.schedules a })

/-- A sequence of queries. -/
def queries (planner : ReservePlanner) : List (Nat × Address) → Option ReservePlanner
  | [] => some planner
  | (txid, address) :: rest =>
    (planner.requiredAfter txid address).bind fun answer => queries answer.2 rest

end ReservePlanner

/-! ## Future cost -/

/-- The maximum costs of the transactions of `address` in a list. -/
def senderCost (txs : List TxEnv) (address : Address) : Nat :=
  ((txs.filter fun tx => tx.caller = address).map fun tx => tx.plannedCost.toNat).sum

/-- The maximum costs of the transactions of `address` after `txid`. -/
def futureCost (txs : List TxEnv) (txid : Nat) (address : Address) : Nat :=
  senderCost (txs.drop (txid + 1)) address

/-- The positions of the transactions of `address`, ascending. -/
def sentBy (txs : List TxEnv) (address : Address) : List Nat :=
  (txs.zipIdx.filter fun e => e.1.caller = address).map Prod.snd

section

variable {txs : List TxEnv} {address : Address} {txid : Nat}

theorem sentBy_append (txs : List TxEnv) (tx : TxEnv) (address : Address) :
    sentBy (txs ++ [tx]) address =
      sentBy txs address ++ if tx.caller = address then [txs.length] else [] := by
  unfold sentBy
  rw [List.zipIdx_append, List.filter_append, List.map_append]
  by_cases h : tx.caller = address <;> simp [h]

theorem mem_sentBy {t : Nat} :
    t ∈ sentBy txs address ↔ ∃ tx, txs[t]? = some tx ∧ tx.caller = address := by
  simp only [sentBy, List.mem_map, List.mem_filter, Prod.exists, List.mem_zipIdx_iff_getElem?,
    decide_eq_true_eq]
  constructor
  · rintro ⟨tx, _, ⟨htx, hc⟩, rfl⟩
    exact ⟨tx, htx, hc⟩
  · rintro ⟨tx, htx, hc⟩
    exact ⟨tx, t, ⟨htx, hc⟩, rfl⟩

theorem sentBy_pairwise (txs : List TxEnv) (address : Address) :
    (sentBy txs address).Pairwise (· < ·) := by
  induction txs using List.reverseRecOn with
  | nil => exact List.Pairwise.nil
  | append_singleton txs tx ih =>
    rw [sentBy_append]
    refine List.pairwise_append.mpr ⟨ih, by split <;> simp, fun x hx y hy => ?_⟩
    obtain ⟨_, hx, -⟩ := mem_sentBy.mp hx
    obtain ⟨hlt, -⟩ := List.getElem?_eq_some_iff.mp hx
    split at hy
    · simp only [List.mem_singleton] at hy
      omega
    · cases hy

theorem partitioned_sentBy (txs : List TxEnv) (address : Address) (txid : Nat) :
    Partitioned (fun candidate => decide (candidate ≤ txid)) (sentBy txs address) := by
  refine (sentBy_pairwise txs address).imp fun {a b} hab => ?_
  simp only [decide_eq_true_eq]
  omega

theorem futureCost_append (txs : List TxEnv) (tx : TxEnv) (txid : Nat) (address : Address) :
    futureCost (txs ++ [tx]) txid address = futureCost txs txid address +
      if txid < txs.length ∧ tx.caller = address then tx.plannedCost.toNat else 0 := by
  unfold futureCost senderCost
  rw [List.drop_append, List.filter_append, List.map_append, List.sum_append]
  congr 1
  by_cases hlt : txid < txs.length
  · have hzero : txid + 1 - txs.length = 0 := by omega
    by_cases hc : tx.caller = address <;> simp [hzero, hlt, hc]
  · have hdrop : [tx].drop (txid + 1 - txs.length) = [] := by
      rw [List.drop_eq_nil_iff]
      simp only [List.length_singleton]
      omega
    simp [hdrop, hlt]

/-- The costs of the transactions at the given positions. -/
def costsAt (txs : List TxEnv) (txids : List Nat) : List U256 :=
  txids.filterMap fun t => (txs[t]?).map TxEnv.plannedCost

/-- The positions after `txid` are those of the transactions after
`txid`. -/
theorem sum_costsAt_sentBy (txs : List TxEnv) (txid : Nat) (address : Address) :
    ((costsAt txs ((sentBy txs address).filter fun t => decide (txid < t))).map BitVec.toNat).sum =
      futureCost txs txid address := by
  induction txs using List.reverseRecOn with
  | nil => simp [costsAt, futureCost, senderCost]
  | append_singleton txs tx ih =>
    have hold : costsAt (txs ++ [tx]) ((sentBy txs address).filter fun t => decide (txid < t)) =
        costsAt txs ((sentBy txs address).filter fun t => decide (txid < t)) := by
      refine List.filterMap_congr fun t ht => ?_
      obtain ⟨_, hget, -⟩ := mem_sentBy.mp (List.mem_of_mem_filter ht)
      obtain ⟨hlt, -⟩ := List.getElem?_eq_some_iff.mp hget
      rw [List.getElem?_append_left hlt]
    have hnew : ((costsAt (txs ++ [tx]) ((if tx.caller = address then [txs.length] else []).filter
        fun t => decide (txid < t))).map BitVec.toNat).sum =
        if txid < txs.length ∧ tx.caller = address then tx.plannedCost.toNat else 0 := by
      by_cases hc : tx.caller = address <;> by_cases hlt : txid < txs.length <;>
        simp [costsAt, hc, hlt]
    rw [futureCost_append, ← ih, ← hold, ← hnew, sentBy_append, List.filter_append]
    simp only [costsAt, List.filterMap_append, List.map_append, List.sum_append]

/-- Suffix sums that start after a transaction only shrink. -/
theorem futureCost_anti {txid' : Nat} (h : txid ≤ txid') :
    futureCost txs txid' address ≤ futureCost txs txid address := by
  unfold futureCost senderCost
  refine List.Sublist.sum_le_sum (List.Sublist.map _ (List.Sublist.filter _ ?_)) fun _ _ => ?_
  swap
  · exact Nat.zero_le _
  rw [show txid' + 1 = (txid + 1) + (txid' - txid) by omega, ← List.drop_drop]
  exact List.drop_sublist _ _

/-! ## The index and the schedules -/

theorem lookup_pushSender (index : SenderIndex) (tx : TxEnv) (txid : Nat) (address : Address) :
    ((ReservePlanner.pushSender index tx txid).lookup address).getD [] =
      (index.lookup address).getD [] ++ if tx.caller = address then [txid] else [] := by
  unfold ReservePlanner.pushSender
  by_cases h : tx.caller = address
  · subst h
    simp
  · rw [AList.lookup_insert_ne (Ne.symm h)]
    simp [h]

/-- The index holds the positions of every sender, and no empty list. -/
theorem lookup_buildIndex (txs : List TxEnv) (address : Address) :
    ((ReservePlanner.buildIndex txs).lookup address).getD [] = sentBy txs address := by
  induction txs using List.reverseRecOn with
  | nil => rfl
  | append_singleton txs tx ih =>
    have hfold : ReservePlanner.buildIndex (txs ++ [tx]) =
        ReservePlanner.pushSender (ReservePlanner.buildIndex txs) tx txs.length := by
      simp [ReservePlanner.buildIndex, List.zipIdx_append]
    rw [hfold, lookup_pushSender, ih, sentBy_append]

/-- The loop of `build_schedule` leaves in each place the saturating sum
of the costs from there on. -/
theorem foldrM_addCost {txids : List Nat} (h : ∀ t ∈ txids, t < txs.length) :
    ∃ costs : List U256,
      txids.foldrM (ReservePlanner.addCost txs) (0, []) = some (satSum (costsAt txs txids), costs) ∧
        costs.length = txids.length ∧
        ∀ k < txids.length, costs[k]? = some (satSum (costsAt txs (txids.drop k))) := by
  induction txids with
  | nil => exact ⟨[], rfl, rfl, nofun⟩
  | cons t txids ih =>
    obtain ⟨costs, hfold, hlen, hcosts⟩ := ih fun x hx => h x (.tail _ hx)
    obtain ⟨tx, htx⟩ : ∃ tx, txs[t]? = some tx :=
      ⟨_, List.getElem?_eq_getElem (h t (.head _))⟩
    have hcons : satSum (costsAt txs (t :: txids)) =
        satAdd (satSum (costsAt txs txids)) tx.plannedCost := by
      simp [costsAt, htx]
    refine ⟨satSum (costsAt txs (t :: txids)) :: costs, ?_, by simp [hlen], fun k hk => ?_⟩
    · rw [List.foldrM_cons, hfold]
      simp [ReservePlanner.addCost, htx, hcons]
    · cases k with
      | zero => rfl
      | succ k => exact hcosts k (by simpa using hk)

/-- A schedule of `address`: its positions with their suffix sums. -/
structure AccountReserveSchedule.Of (txs : List TxEnv) (address : Address)
    (schedule : AccountReserveSchedule) : Prop where
  txids : schedule.txids = sentBy txs address
  length : schedule.costFrom.length = (sentBy txs address).length
  costs : ∀ k < (sentBy txs address).length,
    schedule.costFrom[k]? = some (satSum (costsAt txs ((sentBy txs address).drop k)))

theorem buildSchedule_eq (txs : List TxEnv) (address : Address) :
    ∃ schedule, ReservePlanner.buildSchedule txs (sentBy txs address) = some schedule ∧
      schedule.Of txs address := by
  have hin : ∀ t ∈ sentBy txs address, t < txs.length := fun t ht => by
    obtain ⟨_, hget, -⟩ := mem_sentBy.mp ht
    exact (List.getElem?_eq_some_iff.mp hget).1
  obtain ⟨costs, hfold, hlen, hcosts⟩ := foldrM_addCost hin
  exact ⟨_, by rw [ReservePlanner.buildSchedule, hfold]; rfl, rfl, hlen, hcosts⟩

/-- The binary search finds the suffix that starts after `txid`. -/
theorem AccountReserveSchedule.Of.requiredAfter_eq {schedule : AccountReserveSchedule}
    (h : schedule.Of txs address) (txid : Nat) :
    (schedule.requiredAfter txid).toNat = min (futureCost txs txid address) (2 ^ 256 - 1) := by
  have hpart := partitioned_sentBy txs address txid
  have hdrop : (sentBy txs address).drop
      (partitionPoint (fun candidate => decide (candidate ≤ txid)) (sentBy txs address)) =
        (sentBy txs address).filter fun t => decide (txid < t) := by
    rw [drop_partitionPoint hpart, hpart.dropWhile_eq]
    exact List.filter_congr fun t _ => by simp [← decide_not]
  rw [← sum_costsAt_sentBy, ← hdrop, ← toNat_satSum, AccountReserveSchedule.requiredAfter, h.txids]
  generalize partitionPoint (fun candidate => decide (candidate ≤ txid)) (sentBy txs address) = k
  by_cases hk : k < (sentBy txs address).length
  · rw [h.costs k hk]
    rfl
  · have hnone : schedule.costFrom[k]? = none := by
      rw [List.getElem?_eq_none_iff, h.length]
      omega
    rw [hnone, List.drop_eq_nil_of_le (by omega)]
    rfl

/-- No transaction of the sender is left after `txid`. -/
theorem AccountReserveSchedule.Of.futureCost_of_end {schedule : AccountReserveSchedule}
    (h : schedule.Of txs address)
    (hend : partitionPoint (fun candidate => decide (candidate ≤ txid)) (sentBy txs address) =
      (sentBy txs address).length) : futureCost txs txid address = 0 := by
  have hnone : schedule.requiredAfter txid = 0 := by
    rw [AccountReserveSchedule.requiredAfter, h.txids, hend, ← h.length]
    simp
  have hmin := h.requiredAfter_eq txid
  rw [hnone] at hmin
  have hpos : 0 < 2 ^ 256 - 1 := by decide
  simp only [BitVec.ofNat_eq_ofNat, BitVec.toNat_ofNat, Nat.zero_mod] at hmin
  omega

/-! ## Queries -/

/-- The cells that are initialised hold what their first query built. -/
structure ReservePlanner.Ok (txs : List TxEnv) (planner : ReservePlanner) : Prop where
  txs_eq : planner.txs = txs
  index : ∀ index, planner.senderIndex = some index → index = ReservePlanner.buildIndex txs
  schedules : ∀ address schedule, planner.schedules address = some schedule →
    schedule.Of txs address

theorem ReservePlanner.ok_new (txs : List TxEnv) : ReservePlanner.Ok txs { txs } :=
  ⟨rfl, nofun, nofun⟩

/-- One query: the capped future cost, and a planner as good as before. -/
theorem ReservePlanner.Ok.requiredAfter_eq {planner : ReservePlanner} (h : planner.Ok txs)
    (txid : Nat) (address : Address) :
    ∃ cost planner', planner.requiredAfter txid address = some (cost, planner') ∧
      planner'.Ok txs ∧ cost.toNat = min (futureCost txs txid address) (2 ^ 256 - 1) := by
  have hindex : planner.senderIndex.getD (buildIndex planner.txs) = buildIndex txs := by
    rw [h.txs_eq]
    cases hi : planner.senderIndex with
    | none => rfl
    | some index => exact h.index index hi
  have hok : ReservePlanner.Ok txs { planner with senderIndex := some (buildIndex txs) } :=
    ⟨h.txs_eq, fun _ he => by cases he; rfl, h.schedules⟩
  unfold ReservePlanner.requiredAfter
  simp only [hindex]
  cases hlook : (buildIndex txs).lookup address with
  | none =>
    have hnil : sentBy txs address = [] := by rw [← lookup_buildIndex, hlook]; rfl
    have hzero : futureCost txs txid address = 0 := by
      rw [← sum_costsAt_sentBy, hnil]
      rfl
    exact ⟨0, _, rfl, hok, by simp [hzero]⟩
  | some txids =>
    obtain rfl : txids = sentBy txs address := by rw [← lookup_buildIndex, hlook]; rfl
    obtain ⟨built, hbuilt, hof⟩ := buildSchedule_eq txs address
    dsimp only
    split
    · rename_i hend
      have hzero : futureCost txs txid address = 0 := hof.futureCost_of_end hend
      exact ⟨0, _, rfl, hok, by simp [hzero]⟩
    · have hsched : ∃ schedule, (match planner.schedules address with
          | some schedule => some schedule
          | none => buildSchedule planner.txs (sentBy txs address)) = some schedule ∧
            schedule.Of txs address := by
        cases hs : planner.schedules address with
        | some schedule => exact ⟨schedule, rfl, h.schedules address schedule hs⟩
        | none => exact ⟨built, h.txs_eq ▸ hbuilt, hof⟩
      obtain ⟨schedule, heq, hof⟩ := hsched
      rw [heq, Option.map_some]
      refine ⟨_, _, rfl, ⟨h.txs_eq, fun _ he => by cases he; rfl, ?_⟩,
        hof.requiredAfter_eq txid⟩
      intro a s hs
      dsimp only at hs
      split at hs
      · rename_i ha
        cases hs
        exact ha ▸ hof
      · exact h.schedules a s hs

theorem ReservePlanner.Ok.queries {planner : ReservePlanner} (h : planner.Ok txs)
    (asked : List (Nat × Address)) :
    ∃ planner', planner.queries asked = some planner' ∧ planner'.Ok txs := by
  induction asked generalizing planner with
  | nil => exact ⟨planner, rfl, h⟩
  | cons q asked ih =>
    obtain ⟨cost, planner₁, heq, hok, -⟩ := h.requiredAfter_eq q.1 q.2
    obtain ⟨planner', hq, hok'⟩ := ih hok
    exact ⟨planner', by rw [ReservePlanner.queries, heq]; exact hq, hok'⟩

end

/-- **The planner answers with the capped future cost.** After any
sequence of queries, the answer for a transaction and an address is the
sum of the maximum costs of the later transactions of that address, cut
off at the largest word; it does not grow with the transaction. -/
theorem required_after_is_capped_future_cost (txs : List TxEnv) (asked : List (Nat × Address))
    (txid : Nat) (address : Address) :
    ∃ planner cost planner', ReservePlanner.queries { txs } asked = some planner ∧
      planner.requiredAfter txid address = some (cost, planner') ∧
      cost.toNat = min (2 ^ 256 - 1) (futureCost txs txid address) ∧
      ∀ k, ∃ cost' planner'',
        planner.requiredAfter (txid + k) address = some (cost', planner'') ∧ cost' ≤ cost := by
  obtain ⟨planner, hq, hok⟩ := (ReservePlanner.ok_new txs).queries asked
  obtain ⟨cost, planner', heq, -, hcost⟩ := hok.requiredAfter_eq txid address
  refine ⟨planner, cost, planner', hq, heq, by rw [hcost, Nat.min_comm], fun k => ?_⟩
  obtain ⟨cost', planner'', heq', -, hcost'⟩ := hok.requiredAfter_eq (txid + k) address
  refine ⟨cost', planner'', heq', BitVec.le_def.mpr ?_⟩
  rw [hcost, hcost']
  exact min_le_min_right _ (futureCost_anti (Nat.le_add_right txid k))

end Grevm
