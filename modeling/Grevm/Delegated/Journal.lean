/-
Grevm.Delegated.Journal — balance debits in the surviving journal.

`delegated_debits_since` of `src/delegated_safety/reserve.rs` over revm's
journal. The scan walks the entries after a checkpoint, passes over the
one transfer of the transaction's own value, and remembers the first
debit of every account that holds an EIP-7702 designator; the balance
before that debit is rebuilt by undoing the entries from the end.

The specification of a journal is a sequence of balances, one before each
entry, in which every entry is a real move (`JournalEntry.Moves`). The
two loops are described by what they leave behind: `scanDebits_spec` for
the forward scan and `undo_moves` for the reconstruction.
-/
import Grevm.Delegated.Planner
import Mathlib.Logic.Function.Basic

namespace Grevm

open Words

/-! ## The journal -/

/-- revm's `JournalEntry`; entries that concern neither balances, nonces,
code nor storage are `other`. -/
inductive JournalEntry where
  | balanceTransfer (source target : Address) (balance : U256)
  | accountDestroyed (address target : Address) (hadBalance : U256)
  | balanceChange (address : Address) (oldBalance : U256)
  | nonceChange (address : Address) (previousNonce : BitVec 64)
  | nonceBump (address : Address)
  | accountCreated (address : Address)
  | codeChange (address : Address)
  | storageChanged (address : Address) (key hadValue : U256)
  | other
  deriving DecidableEq

/-- The consensus-visible part of the journaled state. -/
@[ext]
structure World where
  balance : Address → U256
  nonce : Address → BitVec 64
  code : Address → Option Bytecode
  storage : Address → U256 → U256

structure Journal where
  world : World
  /-- The accounts in the journaled state. -/
  loaded : Address → Bool
  entries : List JournalEntry

/-- `is_eip7702`: the designator `0xef0100` and an address. -/
def isEip7702 (code : Bytecode) : Bool :=
  code.length == 23 && code.take 3 == [0xef, 0x01, 0x00]

/-- The account is loaded and its current code is a designator. -/
def Journal.isDelegated (journal : Journal) (address : Address) : Bool :=
  journal.loaded address && (journal.world.code address).any isEip7702

/-! ## Debits -/

/-- The account that a non-zero debit entry takes balance from. -/
def JournalEntry.source? : JournalEntry → Option Address
  | .balanceTransfer source target balance =>
    if source ≠ target ∧ balance ≠ 0 then some source else none
  | .accountDestroyed address _ hadBalance => if hadBalance ≠ 0 then some address else none
  | _ => none

/-- `is_root_value_transfer`. -/
def isRootValueTransfer (entry : JournalEntry) (tx : TxEnv) : Bool :=
  match entry with
  | .balanceTransfer source target balance =>
    if source ≠ tx.caller ∨ balance ≠ tx.value then false
    else match tx.kind with
      | .call callee => target == callee
      | .create => true
  | _ => false

structure DelegatedDebit where
  address : Address
  balanceBefore : U256
  finalBalance : U256
  deriving DecidableEq

/-- The state of the forward scan: whether the root transfer is still to
come, and the first debit of each account. -/
structure DebitScan where
  rootValuePending : Bool
  firstDebit : AList (fun _ : Address => Nat) := ∅

/-- One entry of the scan; `or_insert` keeps the first debit. -/
def DebitScan.visit (journal : Journal) (tx : TxEnv) (scan : DebitScan) (entry : JournalEntry)
    (index : Nat) : DebitScan :=
  if scan.rootValuePending && isRootValueTransfer entry tx then
    { scan with rootValuePending := false }
  else
    match entry.source? with
    | none => scan
    | some source =>
      if journal.isDelegated source && (scan.firstDebit.lookup source).isNone then
        { scan with firstDebit := scan.firstDebit.insert source index }
      else scan

def scanDebits (journal : Journal) (tx : TxEnv) :
    List JournalEntry → Nat → DebitScan → DebitScan
  | [], _, scan => scan
  | entry :: entries, index, scan =>
    scanDebits journal tx entries (index + 1) (scan.visit journal tx entry index)

/-- One step of `balance_before_entry`: undo the entry for `address`. -/
def undoBalance (address : Address) (entry : JournalEntry) (balance : U256) : U256 :=
  match entry with
  | .balanceTransfer source target value =>
    if source = address ∧ target ≠ address then satAdd balance value
    else if target = address ∧ source ≠ address then satSub balance value
    else balance
  | .accountDestroyed destroyed target hadBalance =>
    if destroyed = address then satAdd balance hadBalance
    else if target = address then satSub balance hadBalance
    else balance
  | .balanceChange changed oldBalance => if changed = address then oldBalance else balance
  | _ => balance

def balanceBeforeEntry (entries : List JournalEntry) (index : Nat) (address : Address)
    (finalBalance : U256) : U256 :=
  (entries.drop index).foldr (undoBalance address) finalBalance

/-- The record of an account whose first debit is at `index`. -/
def Journal.debitAt (journal : Journal) (address : Address) (index : Nat) :
    Option DelegatedDebit :=
  if journal.loaded address then
    let finalBalance := journal.world.balance address
    some { address
           balanceBefore := balanceBeforeEntry journal.entries index address finalBalance
           finalBalance }
  else none

/-- `delegated_debits_since`; the order of the records is that of the
`HashMap` of first debits. -/
def Journal.delegatedDebitsSince (journal : Journal) (checkpoint : Nat) (tx : TxEnv) :
    List DelegatedDebit :=
  let scan := scanDebits journal tx (journal.entries.drop checkpoint) checkpoint
    { rootValuePending := tx.value != 0 }
  scan.firstDebit.entries.filterMap fun e => journal.debitAt e.1 e.2

/-! ## Real moves -/

/-- The entry records the move from balances `b` to balances `b'`, and
nothing overflows. A self-transfer moves nothing; an account that
destroys itself in favour of itself loses its balance. -/
def JournalEntry.Moves (entry : JournalEntry) (b b' : Address → U256) : Prop :=
  match entry with
  | .balanceTransfer source target value =>
    if source = target then b' = b
    else (b source).toNat = (b' source).toNat + value.toNat ∧
      (b' target).toNat = (b target).toNat + value.toNat ∧
      ∀ a, a ≠ source → a ≠ target → b' a = b a
  | .accountDestroyed address target hadBalance =>
    b address = hadBalance ∧ b' address = 0 ∧
      (target ≠ address → (b' target).toNat = (b target).toNat + hadBalance.toNat) ∧
      ∀ a, a ≠ address → a ≠ target → b' a = b a
  | .balanceChange address oldBalance =>
    b address = oldBalance ∧ ∀ a, a ≠ address → b' a = b a
  | _ => b' = b

/-- Undoing with checked operations: `none` where a saturating one would
saturate. -/
def checkedUndo (address : Address) (entry : JournalEntry) (balance : U256) : Option U256 :=
  match entry with
  | .balanceTransfer source target value =>
    if source = address ∧ target ≠ address then checkedAdd balance value
    else if target = address ∧ source ≠ address then checkedSub balance value
    else some balance
  | .accountDestroyed destroyed target hadBalance =>
    if destroyed = address then checkedAdd balance hadBalance
    else if target = address then checkedSub balance hadBalance
    else some balance
  | .balanceChange changed oldBalance => some (if changed = address then oldBalance else balance)
  | _ => some balance

section

variable {entry : JournalEntry} {b b' : Address → U256} {address : Address}

/-- Undoing a real move gives the balance before it. -/
theorem JournalEntry.Moves.checkedUndo_eq (h : entry.Moves b b') (address : Address) :
    checkedUndo address entry (b' address) = some (b address) := by
  cases entry with
  | balanceTransfer source target value =>
    simp only [Moves] at h
    simp only [checkedUndo]
    by_cases hst : source = target
    · subst hst
      rw [if_pos rfl] at h
      subst h
      by_cases ha : source = address <;> simp [ha]
    · rw [if_neg hst] at h
      obtain ⟨hsource, htarget, hrest⟩ := h
      by_cases hs : source = address
      · subst hs
        rw [if_pos ⟨rfl, Ne.symm hst⟩]
        exact checkedAdd_eq_some hsource
      · by_cases ht : target = address
        · subst ht
          rw [if_neg (by simp), if_pos ⟨rfl, hst⟩]
          exact checkedSub_eq_some htarget.symm
        · rw [if_neg (by simp [hs]), if_neg (by simp [ht]), hrest address (Ne.symm hs) (Ne.symm ht)]
  | accountDestroyed destroyed target hadBalance =>
    obtain ⟨hbefore, hafter, htarget, hrest⟩ := h
    simp only [checkedUndo]
    by_cases hd : destroyed = address
    · subst hd
      rw [if_pos rfl, hafter]
      exact checkedAdd_eq_some (by simp [hbefore])
    · by_cases ht : target = address
      · subst ht
        rw [if_neg hd, if_pos rfl]
        exact checkedSub_eq_some (htarget (Ne.symm hd)).symm
      · rw [if_neg hd, if_neg ht, hrest address (Ne.symm hd) (Ne.symm ht)]
  | balanceChange changed oldBalance =>
    obtain ⟨hbefore, hrest⟩ := h
    simp only [checkedUndo]
    by_cases hc : changed = address
    · rw [if_pos hc, ← hbefore, hc]
    · rw [if_neg hc, hrest address (Ne.symm hc)]
  | _ =>
    obtain rfl : b' = b := h
    rfl

/-- A move that neither overflows nor underflows does not saturate. -/
theorem saturating_of_checked {debited credited : Prop} [Decidable debited] [Decidable credited]
    {balance value result : U256}
    (h : (if debited then checkedAdd balance value
      else if credited then checkedSub balance value else some balance) = some result) :
    (if debited then satAdd balance value
      else if credited then satSub balance value else balance) = result := by
  split at h
  · rename_i hc
    rw [if_pos hc]
    exact satAdd_of_checkedAdd h
  · rename_i hc
    rw [if_neg hc]
    split at h
    · rename_i hc'
      rw [if_pos hc']
      exact satSub_of_checkedSub h
    · rename_i hc'
      rw [if_neg hc']
      exact Option.some.inj h

/-- Where the checked step succeeds the saturating one agrees. -/
theorem undoBalance_of_checkedUndo {balance result : U256}
    (h : checkedUndo address entry balance = some result) :
    undoBalance address entry balance = result := by
  cases entry with
  | balanceTransfer source target value | accountDestroyed destroyed target hadBalance =>
    exact saturating_of_checked h
  | balanceChange changed oldBalance => exact Option.some.inj h
  | _ => exact Option.some.inj h

end

/-! ## Traces -/

/-- The balances before each entry after the checkpoint, up to the
current ones. -/
structure Journal.Trace (journal : Journal) (checkpoint : Nat) (bal : Nat → Address → U256) :
    Prop where
  moves : ∀ i entry, checkpoint ≤ i → journal.entries[i]? = some entry →
    entry.Moves (bal i) (bal (i + 1))
  final : bal journal.entries.length = journal.world.balance

section

variable {journal : Journal} {checkpoint : Nat} {tx : TxEnv} {bal : Nat → Address → U256}
  {address : Address}

/-- The reconstruction meets every balance of the trace on its way back,
and no operation saturates. -/
theorem Journal.Trace.checkedUndo_eq (h : journal.Trace checkpoint bal) (address : Address)
    {i : Nat} (hi : checkpoint ≤ i) (hle : i ≤ journal.entries.length) :
    (journal.entries.drop i).foldrM (checkedUndo address) (journal.world.balance address) =
      some (bal i address) := by
  -- from the end of the journal to `i`
  induction hn : journal.entries.length - i generalizing i with
  | zero =>
    obtain rfl : i = journal.entries.length := by omega
    rw [List.drop_length, h.final]
    rfl
  | succ n ih =>
    have hlt : i < journal.entries.length := by omega
    rw [List.drop_eq_getElem_cons hlt, List.foldrM_cons,
      ih (by omega) (by omega) (by omega)]
    exact (h.moves i _ hi (List.getElem?_eq_getElem hlt)).checkedUndo_eq address

/-- Where every checked step succeeds the saturating fold agrees. -/
theorem foldr_undoBalance {entries : List JournalEntry} {final result : U256}
    (h : entries.foldrM (checkedUndo address) final = some result) :
    entries.foldr (undoBalance address) final = result := by
  induction entries generalizing result with
  | nil => exact Option.some.inj h
  | cons entry entries ih =>
    rw [List.foldrM_cons] at h
    obtain ⟨mid, hmid, hstep⟩ := Option.bind_eq_some_iff.mp h
    rw [List.foldr_cons, ih hmid]
    exact undoBalance_of_checkedUndo hstep

theorem Journal.Trace.balanceBeforeEntry_eq (h : journal.Trace checkpoint bal)
    (address : Address) {i : Nat} (hi : checkpoint ≤ i) (hle : i ≤ journal.entries.length) :
    balanceBeforeEntry journal.entries i address (journal.world.balance address) =
      bal i address :=
  foldr_undoBalance (h.checkedUndo_eq address hi hle)

/-! ## First debits -/

/-- Entry `i` looks like the transfer of the transaction's own value. -/
def Journal.MatchesRoot (journal : Journal) (tx : TxEnv) (i : Nat) : Prop :=
  ∃ entry, journal.entries[i]? = some entry ∧ isRootValueTransfer entry tx = true

/-- The root value transfer: the first entry after the checkpoint that
looks like it, for a transaction that moves value. -/
def Journal.IsRootTransfer (journal : Journal) (checkpoint : Nat) (tx : TxEnv) (i : Nat) : Prop :=
  tx.value ≠ 0 ∧ checkpoint ≤ i ∧ journal.MatchesRoot tx i ∧
    ∀ j, checkpoint ≤ j → j < i → ¬ journal.MatchesRoot tx j

/-- Entry `i` is a surviving non-zero debit of `address` other than the
root value transfer. -/
def Journal.Debits (journal : Journal) (checkpoint : Nat) (tx : TxEnv) (address : Address)
    (i : Nat) : Prop :=
  checkpoint ≤ i ∧ (∃ entry, journal.entries[i]? = some entry ∧ entry.source? = some address) ∧
    ¬ journal.IsRootTransfer checkpoint tx i

def Journal.FirstDebit (journal : Journal) (checkpoint : Nat) (tx : TxEnv) (address : Address)
    (i : Nat) : Prop :=
  journal.Debits checkpoint tx address i ∧ ∀ j < i, ¬ journal.Debits checkpoint tx address j

/-- An account with a debit has a first one. -/
theorem Journal.Debits.exists_first {i : Nat} (h : journal.Debits checkpoint tx address i) :
    ∃ j ≤ i, journal.FirstDebit checkpoint tx address j := by
  classical
  have hex : ∃ k, journal.Debits checkpoint tx address k := ⟨i, h⟩
  exact ⟨Nat.find hex, Nat.find_min' hex h, Nat.find_spec hex, fun j hj => Nat.find_min hex hj⟩

/-- What the scan knows when it comes to entry `n`. -/
structure DebitScan.Scanned (journal : Journal) (checkpoint : Nat) (tx : TxEnv) (n : Nat)
    (scan : DebitScan) : Prop where
  pending : scan.rootValuePending = true ↔
    tx.value ≠ 0 ∧ ∀ j, checkpoint ≤ j → j < n → ¬ journal.MatchesRoot tx j
  first : ∀ address i, scan.firstDebit.lookup address = some i ↔
    journal.isDelegated address = true ∧ journal.FirstDebit checkpoint tx address i ∧ i < n

theorem Journal.matchesRoot_iff (tx : TxEnv) {entry : JournalEntry} {n : Nat}
    (h : journal.entries[n]? = some entry) :
    journal.MatchesRoot tx n ↔ isRootValueTransfer entry tx = true := by
  constructor
  · rintro ⟨e, he, hm⟩
    rw [h] at he
    cases he
    exact hm
  · exact fun hm => ⟨entry, h, hm⟩

theorem Journal.debits_iff {entry : JournalEntry} {n : Nat} (hn : checkpoint ≤ n)
    (h : journal.entries[n]? = some entry) :
    journal.Debits checkpoint tx address n ↔
      entry.source? = some address ∧ ¬ journal.IsRootTransfer checkpoint tx n := by
  constructor
  · rintro ⟨-, ⟨e, he, hs⟩, hr⟩
    rw [h] at he
    cases he
    exact ⟨hs, hr⟩
  · rintro ⟨hs, hr⟩
    exact ⟨hn, ⟨entry, h, hs⟩, hr⟩

variable {scan : DebitScan} {entry : JournalEntry} {n : Nat}

/-- An entry without a new first debit. -/
theorem DebitScan.Scanned.pass (h : scan.Scanned journal checkpoint tx n) {pending : Bool}
    (hpending : pending = true ↔
      tx.value ≠ 0 ∧ ∀ j, checkpoint ≤ j → j < n + 1 → ¬ journal.MatchesRoot tx j)
    (hno : ∀ address, journal.isDelegated address = true →
      ¬ journal.FirstDebit checkpoint tx address n) :
    DebitScan.Scanned journal checkpoint tx (n + 1)
      { scan with rootValuePending := pending } := by
  refine ⟨hpending, fun address i => (h.first address i).trans ?_⟩
  constructor
  · rintro ⟨hd, hf, hi⟩
    exact ⟨hd, hf, by omega⟩
  · rintro ⟨hd, hf, hi⟩
    have hne : i ≠ n := by
      rintro rfl
      exact hno address hd hf
    exact ⟨hd, hf, by omega⟩

/-- One entry of the scan. -/
theorem DebitScan.Scanned.visit (h : scan.Scanned journal checkpoint tx n) (hn : checkpoint ≤ n)
    (hentry : journal.entries[n]? = some entry) :
    (scan.visit journal tx entry n).Scanned journal checkpoint tx (n + 1) := by
  have hmatch := Journal.matchesRoot_iff tx hentry
  have hbefore : (∀ j, checkpoint ≤ j → j < n + 1 → ¬ journal.MatchesRoot tx j) ↔
      (∀ j, checkpoint ≤ j → j < n → ¬ journal.MatchesRoot tx j) ∧
        ¬ journal.MatchesRoot tx n := by
    constructor
    · exact fun hall => ⟨fun j hj hlt => hall j hj (by omega), hall n hn (by omega)⟩
    · rintro ⟨hall, hnot⟩ j hj hlt
      rcases Nat.lt_succ_iff_lt_or_eq.mp hlt with hlt | rfl
      · exact hall j hj hlt
      · exact hnot
  unfold DebitScan.visit
  split
  · -- the root transfer is passed over
    rename_i hroot
    obtain ⟨hp, hm⟩ := (Bool.and_eq_true _ _).mp hroot
    obtain ⟨hvalue, hnone⟩ := h.pending.mp hp
    have hisRoot : journal.IsRootTransfer checkpoint tx n :=
      ⟨hvalue, hn, hmatch.mpr hm, hnone⟩
    refine h.pass ?_ fun address _ hf => hf.1.2.2 hisRoot
    simp only [hbefore, hmatch.mpr hm, not_true_eq_false, and_false, Bool.false_eq_true]
  · rename_i hroot
    have hnotRoot : ¬ journal.IsRootTransfer checkpoint tx n := by
      rintro ⟨hvalue, -, hm, hnone⟩
      exact hroot ((Bool.and_eq_true _ _).mpr ⟨h.pending.mpr ⟨hvalue, hnone⟩, hmatch.mp hm⟩)
    have hpending : scan.rootValuePending = true ↔
        tx.value ≠ 0 ∧ ∀ j, checkpoint ≤ j → j < n + 1 → ¬ journal.MatchesRoot tx j := by
      rw [h.pending, hbefore]
      constructor
      · rintro ⟨hvalue, hnone⟩
        exact ⟨hvalue, hnone, fun hm => hnotRoot ⟨hvalue, hn, hm, hnone⟩⟩
      · rintro ⟨hvalue, hnone, -⟩
        exact ⟨hvalue, hnone⟩
    have hdebits (address : Address) :
        journal.Debits checkpoint tx address n ↔ entry.source? = some address := by
      simp [Journal.debits_iff hn hentry, hnotRoot]
    split
    · rename_i hsource
      refine h.pass hpending fun address _ hf => ?_
      simpa [hsource] using (hdebits address).mp hf.1
    · rename_i source hsource
      split
      · -- the first debit of a delegated account
        rename_i hnew
        obtain ⟨hd, hnone⟩ := (Bool.and_eq_true _ _).mp hnew
        rw [Option.isNone_iff_eq_none] at hnone
        have hfirst : journal.FirstDebit checkpoint tx source n := by
          refine ⟨(hdebits source).mpr hsource, fun j hj hdj => ?_⟩
          obtain ⟨i, hi, hf⟩ := hdj.exists_first
          have := (h.first source i).mpr ⟨hd, hf, by omega⟩
          rw [hnone] at this
          cases this
        refine ⟨hpending, fun address i => ?_⟩
        by_cases ha : address = source
        · subst ha
          rw [AList.lookup_insert]
          constructor
          · intro hi
            cases hi
            exact ⟨hd, hfirst, by omega⟩
          · rintro ⟨-, hf, -⟩
            have : ¬ n < i := fun hlt => hf.2 n hlt hfirst.1
            have : ¬ i < n := fun hlt => hfirst.2 i hlt hf.1
            exact congrArg some (by omega)
        · rw [AList.lookup_insert_ne ha, h.first]
          constructor
          · rintro ⟨hda, hf, hi⟩
            exact ⟨hda, hf, by omega⟩
          · rintro ⟨hda, hf, hi⟩
            have hne : i ≠ n := by
              rintro rfl
              have := (hdebits address).mp hf.1
              rw [hsource] at this
              exact ha (Option.some.inj this).symm
            exact ⟨hda, hf, by omega⟩
      · -- the account is not delegated, or had a debit before
        rename_i hold
        refine h.pass hpending fun address hda hf => ?_
        have hsame := (hdebits address).mp hf.1
        rw [hsource] at hsame
        cases hsame
        cases hlook : scan.firstDebit.lookup source with
        | none => exact hold (by simp [hda, hlook])
        | some i =>
          obtain ⟨-, hfi, hi⟩ := (h.first source i).mp hlook
          exact hf.2 i hi hfi.1

/-- The scan of the rest of the journal. -/
theorem DebitScan.Scanned.rest {rest : List JournalEntry} (hn : checkpoint ≤ n)
    (hrest : journal.entries.drop n = rest) (hle : n ≤ journal.entries.length)
    (h : scan.Scanned journal checkpoint tx n) :
    (scanDebits journal tx rest n scan).Scanned journal checkpoint tx
      journal.entries.length := by
  induction rest generalizing n scan with
  | nil =>
    obtain rfl : n = journal.entries.length := by
      have := List.drop_eq_nil_iff.mp hrest
      omega
    exact h
  | cons entry rest ih =>
    have hlt : n < journal.entries.length := by
      by_contra hge
      rw [List.drop_eq_nil_of_le (by omega)] at hrest
      cases hrest
    rw [List.drop_eq_getElem_cons hlt] at hrest
    obtain ⟨hentry, hrest⟩ := List.cons_eq_cons.mp hrest
    exact ih (by omega) hrest hlt (h.visit hn (by rw [List.getElem?_eq_getElem hlt, hentry]))

/-- The forward scan finds the first debit of every delegated account. -/
theorem scanDebits_spec (journal : Journal) (tx : TxEnv)
    (hle : checkpoint ≤ journal.entries.length) :
    (scanDebits journal tx (journal.entries.drop checkpoint) checkpoint
      { rootValuePending := tx.value != 0 }).Scanned journal checkpoint tx
        journal.entries.length := by
  refine DebitScan.Scanned.rest le_rfl rfl hle ⟨?_, fun address i => ?_⟩
  · simp only [bne_iff_ne, ne_eq]
    exact ⟨fun hv => ⟨hv, fun j hj hlt => absurd hlt (by omega)⟩, fun hv => hv.1⟩
  · simp only [AList.lookup_empty, reduceCtorEq, false_iff]
    rintro ⟨-, hf, hi⟩
    exact absurd hf.1.1 (by omega)

theorem Journal.debitAt_addresses (journal : Journal) (l : List (Sigma fun _ : Address => Nat)) :
    ((l.filterMap fun e => journal.debitAt e.1 e.2).map DelegatedDebit.address).Sublist
      (l.map Sigma.fst) := by
  induction l with
  | nil => exact List.Sublist.refl _
  | cons e l ih =>
    by_cases hload : journal.loaded e.1 = true
    · simpa [List.filterMap_cons, debitAt, hload] using ih
    · simpa [List.filterMap_cons, debitAt, hload] using ih.cons e.1

/-- The record of an account: its current balance, and the one that the
trace has before the debit. -/
theorem Journal.Trace.debitAt_eq (h : journal.Trace checkpoint bal) {i : Nat}
    (hd : journal.isDelegated address = true) (hi : checkpoint ≤ i)
    (hle : i ≤ journal.entries.length) :
    journal.debitAt address i =
      some { address, balanceBefore := bal i address
             finalBalance := journal.world.balance address } := by
  have hload : journal.loaded address = true := ((Bool.and_eq_true _ _).mp hd).1
  rw [debitAt, if_pos hload]
  dsimp only
  rw [h.balanceBeforeEntry_eq address hi hle]

/-- The records are those of the first debits. -/
theorem Journal.Trace.mem_delegatedDebitsSince (h : journal.Trace checkpoint bal)
    (hle : checkpoint ≤ journal.entries.length) {debit : DelegatedDebit} :
    debit ∈ journal.delegatedDebitsSince checkpoint tx ↔
      journal.isDelegated debit.address = true ∧
        debit.finalBalance = journal.world.balance debit.address ∧
        ∃ i, journal.FirstDebit checkpoint tx debit.address i ∧
          debit.balanceBefore = bal i debit.address ∧
          (journal.entries.drop i).foldrM (checkedUndo debit.address) debit.finalBalance =
            some debit.balanceBefore := by
  have hscan := scanDebits_spec journal tx hle
  unfold Journal.delegatedDebitsSince
  generalize scanDebits journal tx (journal.entries.drop checkpoint) checkpoint
    { rootValuePending := tx.value != 0 } = scan at hscan ⊢
  simp only [List.mem_filterMap]
  constructor
  · rintro ⟨⟨address, i⟩, hmem, heq⟩
    obtain ⟨hd, hf, hi⟩ := (hscan.first address i).mp (AList.mem_lookup_iff.mpr hmem)
    rw [h.debitAt_eq hd hf.1.1 hi.le] at heq
    cases heq
    exact ⟨hd, rfl, i, hf, rfl, h.checkedUndo_eq address hf.1.1 hi.le⟩
  · rintro ⟨hd, hfinal, i, hf, hbefore, -⟩
    have hi : i < journal.entries.length := by
      obtain ⟨e, he, -⟩ := hf.1.2.1
      exact (List.getElem?_eq_some_iff.mp he).1
    refine ⟨⟨debit.address, i⟩,
      AList.mem_lookup_iff.mp ((hscan.first debit.address i).mpr ⟨hd, hf, hi⟩), ?_⟩
    rw [h.debitAt_eq hd hf.1.1 hi.le, ← hfinal, ← hbefore]

end

/-- **The debits are exact.** For a journal whose entries after the
checkpoint are real balance moves, the result has one record for each
account whose current code is a designator and that has a surviving
non-zero debit other than the root value transfer. The record holds its
current balance and the balance before its first such debit, and no
operation of the reconstruction saturates. -/
theorem delegated_debits_are_exact {journal : Journal} {checkpoint : Nat} {tx : TxEnv}
    {bal : Nat → Address → U256} (hle : checkpoint ≤ journal.entries.length)
    (h : journal.Trace checkpoint bal) :
    ((journal.delegatedDebitsSince checkpoint tx).map DelegatedDebit.address).Nodup ∧
      ∀ debit, debit ∈ journal.delegatedDebitsSince checkpoint tx ↔
        journal.isDelegated debit.address = true ∧
          debit.finalBalance = journal.world.balance debit.address ∧
          ∃ i, journal.FirstDebit checkpoint tx debit.address i ∧
            debit.balanceBefore = bal i debit.address ∧
            (journal.entries.drop i).foldrM (checkedUndo debit.address) debit.finalBalance =
              some debit.balanceBefore := by
  refine ⟨?_, fun _ => h.mem_delegatedDebitsSince hle⟩
  unfold Journal.delegatedDebitsSince
  generalize scanDebits journal tx (journal.entries.drop checkpoint) checkpoint
    { rootValuePending := tx.value != 0 } = scan
  have hkeys : (scan.firstDebit.entries.map Sigma.fst).Nodup := scan.firstDebit.nodupKeys
  exact hkeys.sublist (journal.debitAt_addresses _)

/-- A designator that points to the zero address. -/
def designator : Bytecode := [0xef, 0x01, 0x00] ++ List.replicate 20 0

/-- Account 1 sends ten to account 2 with its transaction, and its
delegated code then sends thirty to account 3. -/
def rootAndDebit : Journal where
  world :=
    { balance := fun a => if a = 1 then 60 else if a = 2 then 10 else if a = 3 then 30 else 0
      nonce := fun _ => 0
      code := fun a => if a = 1 then some designator else none
      storage := fun _ _ => 0 }
  loaded := fun _ => true
  entries := [.balanceTransfer 1 2 10, .balanceTransfer 1 3 30]

def rootAndDebitBalances : Nat → Address → U256
  | 0 => fun a => if a = 1 then 100 else 0
  | 1 => fun a => if a = 1 then 90 else if a = 2 then 10 else 0
  | _ => rootAndDebit.world.balance

def sendTen : TxEnv :=
  { caller := 1, kind := .call 2, value := 10, gasLimit := 0, gasPrice := 0 }

theorem rootAndDebit_trace : rootAndDebit.Trace 0 rootAndDebitBalances where
  moves := by
    intro i entry _ hi
    match i with
    | 0 =>
      cases hi
      refine ⟨by decide, by decide, fun a h₁ h₂ => ?_⟩
      simp only [rootAndDebitBalances, if_neg h₁, if_neg h₂]
    | 1 =>
      cases hi
      refine ⟨by decide, by decide, fun a h₁ h₃ => ?_⟩
      simp only [rootAndDebitBalances, rootAndDebit, if_neg h₁, if_neg h₃]
    | i + 2 => cases hi
  final := rfl

theorem delegated_debits_are_exact_root :
    ⟨1, 90, 60⟩ ∈ rootAndDebit.delegatedDebitsSince 0 sendTen := by
  refine ((delegated_debits_are_exact (Nat.zero_le _) rootAndDebit_trace).2 _).mpr
    ⟨by decide, rfl, 1, ⟨⟨Nat.zero_le _, ⟨_, rfl, by decide⟩, ?_⟩, fun j hj => ?_⟩, rfl, by decide⟩
  · rintro ⟨-, -, -, hnone⟩
    exact hnone 0 le_rfl (by decide) ⟨_, rfl, by decide⟩
  · obtain rfl : j = 0 := by omega
    rintro ⟨-, -, hroot⟩
    exact hroot ⟨by decide, le_rfl, ⟨_, rfl, by decide⟩, fun j _ hj => absurd hj (by omega)⟩

end Grevm
