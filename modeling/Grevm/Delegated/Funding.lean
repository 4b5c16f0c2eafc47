/-
Grevm.Delegated.Funding — the reserve policy as a funding guarantee.

A block under `reserve_delegated_balance` is a sequence of balances, one
before each transaction. A transaction is skipped, or its gas is charged,
its journal executed, and the handler of `Grevm.Delegated.Handler`
settles it: with the reserve check passed, or with a charged revert. The
assumptions on an execution are the fields of `Journal.Fair`: only
accounts with code are debited inside execution, an account with code
other than a designator sends no transaction, and nothing but debits
lowers a balance.

If an account covers the maximum costs of its own transactions from here
on, it covers those after this one when it is done. Before its first
debit the account has lost at most the gas and the value of its own
transaction (`Journal.Fair.covered`); from the first debit on the check
compares the final balance with what the account had then.
-/
import Grevm.Delegated.Handler

namespace Grevm

open Words

/-! ## One transaction -/

/-- What is assumed of the execution of transaction `i` of a block. -/
structure Journal.Fair (txs : List TxEnv) (i : Nat) (tx : TxEnv) (journal : Journal)
    (checkpoint : Nat) (world : Nat → World) : Prop where
  /-- An account without code is never debited inside execution. -/
  coded : ∀ address k, journal.Debits checkpoint tx address k →
    journal.loaded address = true ∧
      ∃ code, journal.world.code address = some code ∧ code ≠ []
  /-- EIP-3607: code other than a designator sends no transaction. -/
  senders : ∀ address code, journal.world.code address = some code → code ≠ [] →
    isEip7702 code = false → ∀ t ∈ txs.drop i, t.caller ≠ address
  /-- Absolute balance changes lower no balance. -/
  raises : ∀ k address old, checkpoint ≤ k →
    journal.entries[k]? = some (.balanceChange address old) →
      old ≤ (world (k + 1)).balance address

/-- Transaction `i` leads from balances `b` to balances `b'`. -/
inductive BlockStep (txs : List TxEnv) (i : Nat) (b : Address → U256) :
    (Address → U256) → Prop where
  /-- The transaction is invalid and skipped. -/
  | skipped : BlockStep txs i b b
  /-- The gas is charged, the journal executed and settled, and the
  beneficiary rewarded. -/
  | executed {Err Gas ResultGas Init : Type} (hooks : RevmHooks Err Gas ResultGas Init)
      (tx : TxEnv) (spending charge : U256) (planner : ReservePlanner) (journal : Journal)
      (checkpoint : Nat) (world : Nat → World) (execResult : FrameResult Gas) (init : Init)
      (authRefund : Int) (settled : SettledResult Gas ResultGas) (beneficiary : Address)
      (reward : U256)
      (htx : txs[i]? = some tx)
      (hspending : tx.maxBalanceSpending = some spending)
      (hfunds : spending ≤ b tx.caller)
      (hcharge : charge.toNat + tx.value.toNat ≤ spending.toNat)
      (hcharged : (world checkpoint).balance =
        Function.update b tx.caller (b tx.caller - charge))
      (hrun : journal.Replays checkpoint world)
      (hfair : journal.Fair txs i tx checkpoint world)
      (hplanner : planner.Ok txs)
      (hsettled : beforeReward hooks i tx planner journal (some checkpoint) execResult init
        authRefund = some (.ok settled)) :
      BlockStep txs i b (settled.journal.world.credit beneficiary reward).balance

/-! ## Balances along the journal -/

section

variable {entry : JournalEntry} {b b' : Address → U256} {D : Address} {tx : TxEnv}

/-- An entry that is no debit of an account lowers its balance only by an
absolute change. -/
theorem JournalEntry.Moves.le_of_not_source (h : entry.Moves b b') (hs : entry.source? ≠ some D)
    (hraise : ∀ old, entry = .balanceChange D old → old ≤ b' D) :
    (b D).toNat ≤ (b' D).toNat := by
  cases entry with
  | balanceTransfer source target value =>
    simp only [Moves] at h
    by_cases hst : source = target
    · rw [if_pos hst] at h
      rw [h]
    · rw [if_neg hst] at h
      obtain ⟨hsource, htarget, hrest⟩ := h
      by_cases hsd : source = D
      · subst hsd
        have hzero : value = 0 := by
          by_contra hv
          exact hs (by simp only [source?]; rw [if_pos ⟨hst, hv⟩])
        simp [hzero] at hsource
        omega
      · by_cases htd : target = D
        · subst htd
          omega
        · rw [hrest D (Ne.symm hsd) (Ne.symm htd)]
  | accountDestroyed address target had =>
    obtain ⟨hbefore, hafter, htarget, hrest⟩ := h
    by_cases had' : address = D
    · subst had'
      have hzero : had = 0 := by
        by_contra hv
        exact hs (by simp only [source?]; rw [if_pos hv])
      simp [hbefore, hzero]
    · by_cases htd : target = D
      · subst htd
        have := htarget (Ne.symm had')
        omega
      · rw [hrest D (Ne.symm had') (Ne.symm htd)]
  | balanceChange address old =>
    obtain ⟨hbefore, hrest⟩ := h
    by_cases hd : address = D
    · subst hd
      have := BitVec.le_def.mp (hraise old rfl)
      rw [hbefore]
      exact this
    · rw [hrest D (Ne.symm hd)]
  | _ =>
    obtain rfl : b' = b := h
    exact le_rfl

/-- The root transfer lowers only the balance of the caller, by the value
of the transaction. -/
theorem JournalEntry.Moves.le_of_root (h : entry.Moves b b')
    (hroot : isRootValueTransfer entry tx = true) :
    (b D).toNat ≤ (b' D).toNat + if tx.caller = D then tx.value.toNat else 0 := by
  cases entry with
  | balanceTransfer source target value =>
    simp only [isRootValueTransfer] at hroot
    split at hroot
    · cases hroot
    · rename_i hcond
      simp only [not_or, not_not] at hcond
      obtain ⟨rfl, rfl⟩ := hcond
      simp only [Moves] at h
      by_cases hst : tx.caller = target
      · rw [if_pos hst] at h
        rw [h]
        omega
      · rw [if_neg hst] at h
        obtain ⟨hsource, htarget, hrest⟩ := h
        by_cases hsd : tx.caller = D
        · subst hsd
          rw [if_pos rfl]
          omega
        · by_cases htd : target = D
          · subst htd
            omega
          · rw [hrest D (Ne.symm hsd) (Ne.symm htd)]
            omega
  | _ => cases hroot

end

section

variable {txs : List TxEnv} {i : Nat} {tx : TxEnv} {journal : Journal} {checkpoint : Nat}
  {world : Nat → World} {D : Address}

theorem Journal.IsRootTransfer.unique {j k : Nat}
    (hj : journal.IsRootTransfer checkpoint tx j) (hk : journal.IsRootTransfer checkpoint tx k) :
    j = k := by
  have hjk : ¬ j < k := fun hlt => hk.2.2.2 j hj.2.1 hlt hj.2.2.1
  have hkj : ¬ k < j := fun hlt => hj.2.2.2 k hk.2.1 hlt hk.2.2.1
  omega

open Classical in
/-- Before its first debit an account has lost at most the value of its
own transaction. -/
theorem Journal.Fair.covered (hfair : journal.Fair txs i tx checkpoint world)
    (hrun : journal.Replays checkpoint world) {k : Nat} (hk : checkpoint ≤ k)
    (hle : k ≤ journal.entries.length)
    (hno : ∀ j < k, ¬ journal.Debits checkpoint tx D j) :
    ((world checkpoint).balance D).toNat ≤ ((world k).balance D).toNat +
      if tx.caller = D ∧ ∃ r < k, journal.IsRootTransfer checkpoint tx r
        then tx.value.toNat else 0 := by
  induction k, hk using Nat.le_induction with
  | base => omega
  | succ k hk ih =>
    have hlt : k < journal.entries.length := hle
    have hentry := List.getElem?_eq_getElem hlt
    have hmoves := hrun.moves k _ hk hentry
    have ih := ih (by omega) fun j hj => hno j (by omega)
    by_cases hroot : journal.IsRootTransfer checkpoint tx k
    · -- the value leaves the caller here, and nowhere else
      have hnone : ¬ ∃ r < k, journal.IsRootTransfer checkpoint tx r := by
        rintro ⟨r, hr, hr'⟩
        have := hr'.unique hroot
        omega
      have hstep := hmoves.le_of_root (D := D)
        ((Journal.matchesRoot_iff tx hentry).mp hroot.2.2.1)
      rw [if_neg (fun h => hnone h.2)] at ih
      by_cases hc : tx.caller = D
      · rw [if_pos ⟨hc, k, by omega, hroot⟩]
        rw [if_pos hc] at hstep
        omega
      · rw [if_neg (fun h => hc h.1)]
        rw [if_neg hc] at hstep
        omega
    · have hsource : (journal.entries[k]).source? ≠ some D := fun hs =>
        hno k (by omega) ⟨hk, ⟨_, hentry, hs⟩, hroot⟩
      have hstep := hmoves.le_of_not_source hsource fun old hold =>
        hfair.raises k D old hk (hold ▸ hentry)
      have hiff : (∃ r < k + 1, journal.IsRootTransfer checkpoint tx r) ↔
          ∃ r < k, journal.IsRootTransfer checkpoint tx r := by
        constructor
        · rintro ⟨r, hr, hr'⟩
          have hne : r ≠ k := by
            rintro rfl
            exact hroot hr'
          exact ⟨r, by omega, hr'⟩
        · rintro ⟨r, hr, hr'⟩
          exact ⟨r, by omega, hr'⟩
      simp only [hiff]
      omega

end

/-! ## The reimbursement -/

section

variable {txs : List TxEnv} {i : Nat} {tx : TxEnv} {journal journal' : Journal} {checkpoint : Nat}
  {world world' : Nat → World} {D : Address} {amount : U256}

/-- A journal with at most one more entry, which is a credit. -/
structure Journal.Credited (journal journal' : Journal) : Prop where
  loaded : ∀ address, journal.loaded address = true → journal'.loaded address = true
  code : journal'.world.code = journal.world.code
  entry : ∀ (k : Nat) entry, journal'.entries[k]? = some entry →
    journal.entries[k]? = some entry ∨
      ∃ address, entry = .balanceChange address (journal.world.balance address) ∧
        k + 1 = journal'.entries.length ∧
        journal.world.balance address ≤ journal'.world.balance address
  kept : ∀ (k : Nat) entry, journal.entries[k]? = some entry → journal'.entries[k]? = some entry

theorem Journal.incrBalance_credited (journal : Journal) (address : Address) (amount : U256) :
    journal.Credited (journal.incrBalance address amount) := by
  unfold Journal.incrBalance
  split
  · exact ⟨fun _ h => h, rfl, fun _ _ h => .inl h, fun _ _ h => h⟩
  · rename_i balance hadd
    split
    · exact ⟨fun _ h => h, rfl, fun _ _ h => .inl h, fun _ _ h => h⟩
    · refine ⟨fun _ h => h, rfl, fun k entry h => ?_, fun k entry h => ?_⟩
      · by_cases hlt : k < journal.entries.length
        · exact .inl ((List.getElem?_append_left hlt).symm.trans h)
        · have hk : k = journal.entries.length := by
            have := (List.getElem?_eq_some_iff.mp h).1
            simp only [List.length_append, List.length_singleton] at this
            omega
          subst hk
          simp only [List.getElem?_concat_length, Option.some.injEq] at h
          refine .inr ⟨address, h.symm, by simp, BitVec.le_def.mpr ?_⟩
          simp only [Function.update_self]
          unfold checkedAdd at hadd
          split at hadd
          · rename_i hlt
            cases hadd
            rw [toNat_add_of_lt hlt]
            omega
          · cases hadd
      · have hlt := (List.getElem?_eq_some_iff.mp h).1
        exact (List.getElem?_append_left hlt).trans h

theorem Journal.Credited.congr {loaded : Journal} (h : loaded.Credited journal')
    (hw : loaded.world = journal.world) (he : loaded.entries = journal.entries)
    (hl : ∀ address, journal.loaded address = true → loaded.loaded address = true) :
    journal.Credited journal' :=
  ⟨fun a ha => h.loaded a (hl a ha), hw ▸ h.code, he ▸ hw ▸ h.entry, he ▸ h.kept⟩

theorem Journal.Credited.matchesRoot (h : journal.Credited journal') (k : Nat) :
    journal'.MatchesRoot tx k ↔ journal.MatchesRoot tx k := by
  constructor
  · rintro ⟨entry, he, hroot⟩
    rcases h.entry k entry he with he | ⟨address, rfl, -⟩
    · exact ⟨entry, he, hroot⟩
    · cases hroot
  · rintro ⟨entry, he, hroot⟩
    exact ⟨entry, h.kept k entry he, hroot⟩

theorem Journal.Credited.debits (h : journal.Credited journal') {k : Nat} :
    journal'.Debits checkpoint tx D k → journal.Debits checkpoint tx D k := by
  rintro ⟨hk, ⟨entry, he, hs⟩, hroot⟩
  rcases h.entry k entry he with he | ⟨address, rfl, -⟩
  · refine ⟨hk, ⟨entry, he, hs⟩, fun hr => hroot ?_⟩
    simpa only [Journal.IsRootTransfer, h.matchesRoot] using hr
  · cases hs

/-- The credit of the reimbursement is fair. -/
theorem Journal.Fair.credited (hfair : journal.Fair txs i tx checkpoint world)
    (h : journal.Credited journal') (hrun : journal'.Replays checkpoint world')
    (hsame : ∀ k ≤ journal.entries.length, world' k = world k) :
    journal'.Fair txs i tx checkpoint world' := by
  refine ⟨fun address k hd => ?_, fun address code hc => ?_, fun k address old hk he => ?_⟩
  · obtain ⟨hload, hcode⟩ := hfair.coded address k (h.debits hd)
    exact ⟨h.loaded address hload, h.code ▸ hcode⟩
  · exact hfair.senders address code (h.code ▸ hc)
  · rcases h.entry k _ he with he | ⟨a, heq, hlen, hle⟩
    · have hlt := (List.getElem?_eq_some_iff.mp he).1
      rw [hsame (k + 1) hlt]
      exact hfair.raises k address old hk he
    · cases heq
      rw [hlen, hrun.final]
      exact hle

end

/-! ## The check -/

section

variable {txs : List TxEnv} {i : Nat} {planner planner' : ReservePlanner}

/-- A check that passes has compared every candidate. -/
theorem reserveViolation_false {candidates : List DelegatedDebit} (hok : planner.Ok txs)
    (h : reserveViolation i planner candidates = some (false, planner')) :
    ∀ c ∈ candidates, min c.balanceBefore.toNat (min (futureCost txs i c.address) (2 ^ 256 - 1)) ≤
      c.finalBalance.toNat := by
  induction candidates generalizing planner with
  | nil => nofun
  | cons c candidates ih =>
    obtain ⟨cost, planner₁, hcost, hok₁, hval⟩ := hok.requiredAfter_eq i c.address
    simp only [reserveViolation, hcost, Option.bind_some] at h
    have hrest : reserveViolation i planner₁ candidates = some (false, planner') ∧
        min c.balanceBefore.toNat cost.toNat ≤ c.finalBalance.toNat := by
      split at h
      · rename_i hzero
        exact ⟨h, by simp [hzero]⟩
      · by_cases hle : c.balanceBefore ≤ cost
        · rw [if_pos hle] at h
          split at h
          · cases h
          · rename_i hlt
            rw [BitVec.lt_def] at hlt
            exact ⟨h, by omega⟩
        · rw [if_neg hle] at h
          split at h
          · cases h
          · rename_i hlt
            rw [BitVec.lt_def] at hlt
            exact ⟨h, by omega⟩
    intro c' hc'
    rcases List.mem_cons.mp hc' with rfl | hc'
    · rw [← hval]
      exact hrest.2
    · exact ih hok₁ hrest.1 c' hc'

end

/-! ## The guarantee -/

section

variable {txs : List TxEnv} {i : Nat} {b b' : Address → U256} {D : Address}

theorem senderCost_drop {tx : TxEnv} (h : txs[i]? = some tx) (D : Address) :
    senderCost (txs.drop i) D =
      (if tx.caller = D then tx.plannedCost.toNat else 0) + futureCost txs i D := by
  obtain ⟨hlt, rfl⟩ := List.getElem?_eq_some_iff.mp h
  unfold futureCost senderCost
  rw [List.drop_eq_getElem_cons hlt, List.filter_cons]
  by_cases hc : txs[i].caller = D
  · simp only [hc, decide_true, if_true, List.map_cons, List.sum_cons]
  · simp only [hc, decide_false, Bool.false_eq_true, if_false, Nat.zero_add]

theorem World.le_credit (world : World) (address : Address) (amount : U256) (D : Address) :
    (world.balance D).toNat ≤ ((world.credit address amount).balance D).toNat := by
  unfold World.credit
  by_cases hd : D = address
  · subst hd
    simp only [Function.update_self]
    unfold checkedAdd
    split
    · rename_i hlt
      rw [Option.getD_some, toNat_add_of_lt hlt]
      omega
    · exact le_rfl
  · simp [hd]

theorem senderCost_drop_le (txs : List TxEnv) (i : Nat) (D : Address) :
    senderCost (txs.drop (i + 1)) D ≤ senderCost (txs.drop i) D := by
  by_cases hlt : i < txs.length
  · rw [senderCost_drop (List.getElem?_eq_getElem hlt)]
    exact Nat.le_add_left _ _
  · rw [List.drop_eq_nil_of_le (by omega), List.drop_eq_nil_of_le (by omega)]

theorem World.createNonce_balance (world : World) (tx : TxEnv) :
    (world.createNonce tx).balance = world.balance := by
  unfold World.createNonce
  split <;> rfl

theorem credited_of_settleGas {Err Gas ResultGas Init : Type}
    {hooks : RevmHooks Err Gas ResultGas Init} {tx : TxEnv} {journal journal' : Journal}
    {execResult execResult' : FrameResult Gas} {init : Init} {authRefund : Int}
    {resultGas : ResultGas}
    (h : settleGas hooks tx journal execResult init authRefund =
      .ok (resultGas, execResult', journal')) : journal.Credited journal' := by
  obtain ⟨-, loaded, hl, rfl⟩ := settleGas_eq h
  obtain ⟨hw, he⟩ := Journal.load_eq hl
  refine (loaded.incrBalance_credited _ _).congr hw he fun address ha => ?_
  unfold Journal.load at hl
  split at hl
  · cases hl
    exact ha
  · split at hl
    · cases hl
    · cases hl
      by_cases hc : address = tx.caller <;> simp [Function.update, hc, ha]

/-- At the checkpoint the account covers its later costs, and its own
value if it is the caller. -/
theorem charged_covers {tx : TxEnv} {spending charge : U256} {start : Address → U256}
    (htx : txs[i]? = some tx) (hspending : tx.maxBalanceSpending = some spending)
    (hfunds : spending ≤ b tx.caller) (hcharge : charge.toNat + tx.value.toNat ≤ spending.toNat)
    (hcharged : start = Function.update b tx.caller (b tx.caller - charge))
    (hD : senderCost (txs.drop i) D ≤ (b D).toNat) :
    futureCost txs i D + (if tx.caller = D then tx.value.toNat else 0) ≤ (start D).toNat := by
  rw [senderCost_drop htx] at hD
  rw [hcharged]
  by_cases hc : tx.caller = D
  · subst hc
    have hfunds := BitVec.le_def.mp hfunds
    have hplanned : tx.plannedCost = spending := by rw [TxEnv.plannedCost, hspending]; rfl
    rw [if_pos rfl, hplanned] at hD
    rw [if_pos rfl, Function.update_self, toNat_sub_of_le (by omega)]
    omega
  · rw [if_neg hc] at hD ⊢
    rw [Function.update_of_ne (Ne.symm hc)]
    omega

/-- A journal that passes the check leaves the account its later
costs. -/
theorem Journal.Fair.funded {tx : TxEnv} {journal : Journal} {checkpoint : Nat}
    {world : Nat → World} {planner planner' : ReservePlanner}
    (hfair : journal.Fair txs i tx checkpoint world) (hrun : journal.Replays checkpoint world)
    (hplanner : planner.Ok txs)
    (hpass : reserveViolation i planner (journal.delegatedDebitsSince checkpoint tx) =
      some (false, planner'))
    (hstart : futureCost txs i D + (if tx.caller = D then tx.value.toNat else 0) ≤
      ((world checkpoint).balance D).toNat) :
    futureCost txs i D ≤ (journal.world.balance D).toNat := by
  have htrace : journal.Trace checkpoint fun k => (world k).balance :=
    ⟨hrun.moves, by rw [hrun.final]⟩
  have hcovered {k : Nat} (hk : checkpoint ≤ k) (hle : k ≤ journal.entries.length)
      (hno : ∀ j < k, ¬ journal.Debits checkpoint tx D j) :
      futureCost txs i D ≤ ((world k).balance D).toNat := by
    have hcov := hfair.covered hrun hk hle hno
    by_cases hc : tx.caller = D
    · rw [if_pos hc] at hstart
      split at hcov <;> omega
    · rw [if_neg hc] at hstart
      rw [if_neg fun h => hc h.1] at hcov
      omega
  by_cases hdebit : ∃ k, journal.Debits checkpoint tx D k
  · obtain ⟨k, hk⟩ := hdebit
    obtain ⟨first, -, hfirst⟩ := hk.exists_first
    obtain ⟨entry, hentry, -⟩ := hfirst.1.2.1
    have hlt := (List.getElem?_eq_some_iff.mp hentry).1
    obtain ⟨hload, code, hcode, hne⟩ := hfair.coded D first hfirst.1
    cases hdesignator : isEip7702 code with
    | true =>
      -- the check has compared the final balance with the one before the first debit
      have hdelegated : journal.isDelegated D = true := by
        simp [Journal.isDelegated, hload, hcode, hdesignator]
      have hmem : ⟨D, (world first).balance D, journal.world.balance D⟩ ∈
          journal.delegatedDebitsSince checkpoint tx :=
        (htrace.mem_delegatedDebitsSince hrun.le).mpr ⟨hdelegated, rfl, first, hfirst, rfl,
          htrace.checkedUndo_eq D hfirst.1.1 hlt.le⟩
      have hcheck := reserveViolation_false hplanner hpass _ hmem
      have hbefore := hcovered hfirst.1.1 hlt.le hfirst.2
      have hword := ((world first).balance D).isLt
      simp only at hcheck
      omega
    | false =>
      -- an account with other code has no later transaction
      have hnone := hfair.senders D code hcode hne hdesignator
      have hzero : futureCost txs i D = 0 := by
        have hfilter : (txs.drop (i + 1)).filter (fun t => t.caller = D) = [] := by
          refine List.filter_eq_nil_iff.mpr fun t ht => ?_
          have hsub := List.drop_sublist_drop_left txs (Nat.le_succ i)
          simpa using hnone t (hsub.subset ht)
        rw [futureCost, senderCost, hfilter]
        rfl
      omega
  · rw [← hrun.final]
    exact hcovered hrun.le le_rfl fun j _ hd => hdebit ⟨j, hd⟩

/-- A transaction leaves every account that covers its own costs from
here on with the costs after it. -/
theorem BlockStep.funded (h : BlockStep txs i b b')
    (hD : senderCost (txs.drop i) D ≤ (b D).toNat) :
    senderCost (txs.drop (i + 1)) D ≤ (b' D).toNat := by
  cases h with
  | skipped => exact (senderCost_drop_le txs i D).trans hD
  | executed hooks tx spending charge planner journal checkpoint world execResult init authRefund
      settled beneficiary reward htx hspending hfunds hcharge hcharged hrun hfair hplanner
      hsettled =>
    refine le_trans ?_ (World.le_credit _ _ _ _)
    have hstart := charged_covers htx hspending hfunds hcharge hcharged hD
    obtain ⟨_, _, reimbursed, planner', hsettle, hcase⟩ := beforeReward_cases hsettled
    obtain ⟨world', hrun', hsame⟩ := hrun.settleGas hsettle
    have hfair' := hfair.credited (credited_of_settleGas hsettle) hrun' hsame
    rw [← hsame checkpoint hrun.le] at hstart
    rcases hcase with ⟨hpass, heq⟩ | ⟨-, gas, result, hroll⟩
    · rw [heq]
      exact hfair'.funded hrun' hplanner hpass hstart
    · rw [(rollBack_eq hrun' hroll).2.1]
      refine le_trans ?_ (World.le_credit _ _ _ _)
      rw [World.createNonce_balance]
      exact (Nat.le_add_right _ _).trans hstart

end

/-- **The reserve policy is a funding guarantee.** In every block, an
account that covers the maximum costs of its transactions from `i` on
before transaction `i` covers those after it when transaction `i` is
done, whoever sent it and whether or not the check reverted it. An
account that covers all its maximum costs at the start of the block
covers the maximum cost of each of its transactions when its turn
comes. -/
theorem reserve_policy_funds {txs : List TxEnv} {balances : Nat → Address → U256}
    (hblock : ∀ i < txs.length, BlockStep txs i (balances i) (balances (i + 1))) :
    (∀ i < txs.length, ∀ D, senderCost (txs.drop i) D ≤ (balances i D).toNat →
        senderCost (txs.drop (i + 1)) D ≤ (balances (i + 1) D).toNat) ∧
      ∀ D, senderCost txs D ≤ (balances 0 D).toNat → ∀ i tx, txs[i]? = some tx →
        tx.caller = D → tx.plannedCost ≤ balances i D := by
  have hstep : ∀ i < txs.length, ∀ D, senderCost (txs.drop i) D ≤ (balances i D).toNat →
      senderCost (txs.drop (i + 1)) D ≤ (balances (i + 1) D).toNat :=
    fun i hi D hD => (hblock i hi).funded hD
  refine ⟨hstep, fun D hD i tx htx hcaller => ?_⟩
  -- the account stays funded from transaction to transaction
  have hrun : ∀ k ≤ i, senderCost (txs.drop k) D ≤ (balances k D).toNat := by
    intro k hk
    induction k with
    | zero => exact hD
    | succ k ih =>
      have hlt := (List.getElem?_eq_some_iff.mp htx).1
      exact hstep k (by omega) D (ih (by omega))
  have hfunded := hrun i le_rfl
  rw [senderCost_drop htx, if_pos hcaller] at hfunded
  exact BitVec.le_def.mpr (by omega)

/-- No account with code other than a designator. -/
theorem World.delegated_code {balance : Address → U256} {address : Address} {code : Bytecode}
    (h : (World.delegated balance).code address = some code) : isEip7702 code = true := by
  by_cases ha : address = 1
  · subst ha
    cases h
    decide
  · have hnone : (World.delegated balance).code address = none := if_neg ha
    rw [hnone] at h
    cases h

theorem drainDelegated_fair :
    drainDelegated.Fair callThenSpend 0 callDelegated 1 drainStates where
  coded := by
    rintro address k ⟨hk, ⟨entry, he, hs⟩, -⟩
    obtain ⟨hlt, rfl⟩ := List.getElem?_eq_some_iff.mp he
    obtain rfl : k = 1 := Nat.le_antisymm (Nat.le_of_lt_succ hlt) hk
    cases hs
    exact ⟨rfl, designator, by decide, by decide⟩
  senders address code hcode _ hd := by
    rw [World.delegated_code hcode] at hd
    cases hd
  raises k address old hk he := by
    obtain ⟨hlt, heq⟩ := List.getElem?_eq_some_iff.mp he
    obtain rfl : k = 1 := Nat.le_antisymm (Nat.le_of_lt_succ hlt) hk
    cases heq

/-- The call that drains account 1 is executed and reverted; its caller
has paid for five units of gas. -/
theorem drained_blockStep :
    ∃ b, BlockStep callThenSpend 0 fundedBalance b ∧ b 1 = 90 := by
  obtain ⟨settled, hsettled, hbalance⟩ : ∃ settled,
      beforeReward (plainHooks callDelegated) 0 callDelegated { txs := callThenSpend }
        drainDelegated (some 1) ⟨.success, [], 5⟩ () 0 = some (.ok settled) ∧
      (settled.journal.world.credit 9 5).balance 1 = 90 := ⟨_, rfl, by decide⟩
  exact ⟨_, .executed (plainHooks callDelegated) callDelegated 10 10 _ _ 1 _ _ () 0 settled 9 5 rfl
    rfl (by decide) (by decide) rfl drainDelegated_replays drainDelegated_fair
    (ReservePlanner.ok_new callThenSpend) hsettled, hbalance⟩

/-- Account 1 sends its own transaction and pays for twenty-five units of
gas. -/
theorem delegatedSpends_blockStep {b : Address → U256} (hb : b 1 = 90) :
    ∃ b', BlockStep callThenSpend 1 b b' ∧ b' 1 = 65 := by
  obtain ⟨rest, rfl⟩ : ∃ rest, b = Function.update rest 1 90 :=
    ⟨b, by rw [← hb, Function.update_eq_self]⟩
  have hstarted := preExecution_atRest delegatedSpends (Function.update rest 1 90)
  have hfair : (Journal.charged delegatedSpends (Function.update rest 1 90)).Fair callThenSpend 1
      delegatedSpends 1
      fun _ => (Journal.charged delegatedSpends (Function.update rest 1 90)).world := by
    refine ⟨fun address k hdebit => ?_, fun address code hcode _ hd => ?_,
      fun k address old hk he => ?_⟩
    · obtain ⟨hk, ⟨entry, he, -⟩, -⟩ := hdebit
      have hlt := (List.getElem?_eq_some_iff.mp he).1
      exact absurd hlt (Nat.not_lt.mpr hk)
    · rw [World.delegated_code hcode] at hd
      cases hd
    · have hlt := (List.getElem?_eq_some_iff.mp he).1
      exact absurd hlt (Nat.not_lt.mpr hk)
  have hcredit : (Journal.charged delegatedSpends (Function.update rest 1 90)).incrBalance 1 15 =
      { world := .delegated (Function.update rest 1 65)
        loaded := fun _ => true
        entries := [.balanceChange 1 90, .balanceChange 1 50] } := by
    simp [Journal.charged, World.delegated, delegatedSpends, TxEnv.gasPaid, Journal.incrBalance,
      checkedAdd]
  have hsettle : settleGas (plainHooks delegatedSpends) delegatedSpends
      (.charged delegatedSpends (Function.update rest 1 90)) ⟨.success, [], 15⟩ () 0 =
      .ok (15, ⟨.success, [], 15⟩, (Journal.charged delegatedSpends
        (Function.update rest 1 90)).incrBalance 1 15) := rfl
  obtain ⟨settled, hsettled, hbalance⟩ : ∃ settled,
      beforeReward (plainHooks delegatedSpends) 1 delegatedSpends { txs := callThenSpend }
        (.charged delegatedSpends (Function.update rest 1 90)) (some 1) ⟨.success, [], 15⟩ () 0 =
          some (.ok settled) ∧
      (settled.journal.world.credit 9 25).balance 1 = 65 := by
    rw [hcredit] at hsettle
    simp only [beforeReward, hsettle]
    exact ⟨_, rfl, by simp [World.credit, World.delegated]⟩
  exact ⟨_, .executed (plainHooks delegatedSpends) delegatedSpends 40 40 _ _ 1 _ _ () 0 settled 9 25
    rfl rfl (by simp [delegatedSpends]) (by decide) rfl (replays_of_preExecution hstarted) hfair
    (ReservePlanner.ok_new callThenSpend) hsettled, hbalance⟩

/-- Account 1 is left with the maximum cost of its own transaction, and
executes it. -/
theorem reserve_policy_funds_drained :
    ∃ b b', BlockStep callThenSpend 0 fundedBalance b ∧ BlockStep callThenSpend 1 b b' ∧
      delegatedSpends.plannedCost ≤ b 1 ∧ b' 1 = 65 := by
  obtain ⟨b, hfirst, hb⟩ := drained_blockStep
  obtain ⟨b', hsecond, hb'⟩ := delegatedSpends_blockStep hb
  have hblock : ∀ i < callThenSpend.length, BlockStep callThenSpend i
      ((fun i => if i = 0 then fundedBalance else if i = 1 then b else b') i)
      ((fun i => if i = 0 then fundedBalance else if i = 1 then b else b') (i + 1)) := by
    intro i hi
    rcases i with _ | _ | i
    · exact hfirst
    · exact hsecond
    · exact absurd hi (by simp [callThenSpend])
  have hstart : senderCost callThenSpend 1 ≤ (fundedBalance 1).toNat := by decide
  exact ⟨b, b', hfirst, hsecond, (reserve_policy_funds hblock).2 1 hstart 1 _ rfl rfl, hb'⟩

end Grevm
