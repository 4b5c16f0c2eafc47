/-
Grevm.CommittedView — a `ParallelState` after a list of commits.

`Commits db cache states` says that the cache has loaded whatever it was
asked for and has committed the change sets `states`, each as a whole and
in this order. Its answers are then those of the database overlaid by
`states` (`Commits.coherent`): a commit as a whole is a run of the single
map operations, for which `Grevm.CacheCoherence` has proved it. The code
of an account is the one carried by the last change set that changed it,
or the one of the database (`Commits.resolvedBasic`).
-/
import Grevm.CacheCoherence
import Mathlib.Data.List.Induction

namespace Grevm

variable {Err : Type}

/-! ## Commits as a whole -/

/-- The cache over `db` after the commits of `states`, with loads at any
time between them. -/
inductive Commits (db : Database Err) : ParallelCacheState → List EvmState → Prop where
  | fresh : Commits db {} []
  | basic {cache states} (address : Address) : Commits db cache states →
      Commits db (cache.dbBasic db address).1 states
  | code {cache states} (codeHash : B256) : Commits db cache states →
      Commits db (cache.dbCodeByHash db codeHash).1 states
  | storage {cache states} (address : Address) (index : U256) : Commits db cache states →
      Commits db (cache.dbStorage db address index).1 states
  | commit {cache cache' states} {state : EvmState} : Commits db cache states →
      cache.applyEvmState state = some cache' → Commits db cache' (states ++ [state])

/-- A run of the map operations of one commit. -/
inductive ApplyRun : ParallelCacheState → ApplyPc → ParallelCacheState → Prop where
  | done {cache pc cache'} (c : Nat) : cache.applyStep c pc = some (cache', none) →
      ApplyRun cache pc cache'
  | step {cache pc cache₁ pc₁ cache'} (c : Nat) : cache.applyStep c pc = some (cache₁, some pc₁) →
      ApplyRun cache₁ pc₁ cache' → ApplyRun cache pc cache'

section

variable {db : Database Err} {cache cache' cache'' : ParallelCacheState} {address : Address}
  {account : Account} {accounts : List (Address × Account)}

/-- The slots are written one after the other. -/
theorem ApplyRun.slots {slots : List (U256 × U256)}
    (h : ApplyRun (cache.updateStorageSlot address slots) (.next accounts) cache') :
    ApplyRun cache (.slots address slots accounts) cache' := by
  induction slots generalizing cache with
  | nil => exact .step 0 rfl h
  | cons slot slots ih => exact .step 0 rfl (ih h)

/-- The account changes and leads on to its contract or its slots. -/
theorem ApplyRun.change {current changed : CacheAccountInfo}
    (hcached : cache.accounts address = some current)
    (hchange : ParallelCacheState.changeAccount account current = changed)
    (h : ApplyRun (cache.setAccount address changed) (ApplyPc.leave address account accounts)
      cache') : ApplyRun cache (.change address account accounts) cache' := by
  refine .step 0 ?_ h
  simp [ParallelCacheState.applyStep, hcached, hchange, ApplyPc.leave]

theorem ApplyRun.contract (hadd : cache.addContract account.info = some cache')
    (h : ApplyRun cache' (.slots address account.changedStorageSlots accounts) cache'') :
    ApplyRun cache (.contract address account accounts) cache'' := by
  refine .step 0 ?_ h
  simp [ParallelCacheState.applyStep, hadd]

/-- `apply_account_state` is a run over one account. -/
theorem ApplyRun.oneAccount (hstep : cache.applyAccountState address account = some cache')
    (h : ApplyRun cache' (.next accounts) cache'') :
    ApplyRun cache (.next ((address, account) :: accounts)) cache'' := by
  unfold ParallelCacheState.applyAccountState at hstep
  refine .step 0 rfl ?_
  cases ht : account.touched with
  | false =>
    simp only [ht, Bool.not_false, if_true, Option.some.injEq] at hstep
    subst hstep
    exact h
  | true =>
    simp only [ht, Bool.not_true, Bool.false_eq_true, if_false] at hstep ⊢
    cases hs : account.selfdestructed with
    | true =>
      simp only [hs, if_true] at hstep
      obtain ⟨c, hcached, rfl⟩ := Option.map_eq_some_iff.mp hstep
      simp only [Bool.true_or, if_true]
      refine .step 0 rfl (.change hcached (by rw [ParallelCacheState.changeAccount, if_pos hs]) ?_)
      rwa [ApplyPc.leave, if_pos hs]
    | false =>
      simp only [hs, Bool.false_eq_true, if_false] at hstep
      cases hc : account.created with
      | true =>
        simp only [hc, if_true] at hstep
        obtain ⟨c, hcached, hstep⟩ := Option.bind_eq_some_iff.mp hstep
        obtain ⟨cache₁, hadd, rfl⟩ := Option.map_eq_some_iff.mp hstep
        simp only [Bool.false_or, Bool.true_or, if_true]
        have hchange : ParallelCacheState.changeAccount account c
            = c.newlyCreated account.info := by
          simp [ParallelCacheState.changeAccount, hs, hc]
        refine .step 0 rfl (.change hcached hchange ?_)
        simp only [ApplyPc.leave, hs, hc, Bool.false_eq_true, if_false, if_true]
        exact .contract hadd (.slots h)
      | false =>
        simp only [hc, Bool.false_eq_true, if_false] at hstep
        cases he : account.isEmpty with
        | true =>
          simp only [he, if_true] at hstep
          obtain ⟨c, hcached, rfl⟩ := Option.map_eq_some_iff.mp hstep
          simp only [Bool.false_or, if_true]
          have hchange : ParallelCacheState.changeAccount account c = c.touchEmptyEip161 := by
            simp [ParallelCacheState.changeAccount, hs, hc, he]
          refine .step 0 rfl (.change hcached hchange ?_)
          simp only [ApplyPc.leave, hs, hc, he, Bool.false_eq_true, if_false, if_true]
          exact h
        | false =>
          simp only [he, Bool.false_eq_true, if_false] at hstep
          obtain ⟨c, hcached, rfl⟩ := Option.map_eq_some_iff.mp hstep
          simp only [Bool.or_false, Bool.false_eq_true, if_false]
          have hchange : ParallelCacheState.changeAccount account c
              = c.change account.info := by
            simp [ParallelCacheState.changeAccount, hs, hc, he]
          refine .change hcached hchange ?_
          simp only [ApplyPc.leave, hs, hc, he, Bool.false_eq_true, if_false]
          exact .slots h

/-- `apply_evm_state` is a run of the map operations of the commit. -/
theorem applyRun_of_applyEvmState {state : EvmState}
    (h : cache.applyEvmState state = some cache') :
    ApplyRun cache (ApplyPc.start state) cache' := by
  unfold ParallelCacheState.applyEvmState at h
  unfold ApplyPc.start
  generalize state.entries = entries at h ⊢
  induction entries generalizing cache with
  | nil =>
    cases h
    exact .done 0 rfl
  | cons e entries ih =>
    obtain ⟨cache₁, hone, hrest⟩ := Option.bind_eq_some_iff.mp h
    exact .oneAccount hone (ih hrest)

/-! ## The answers of the cache -/

/-- A commit takes a cache that answers with the reference before it to
one that answers with the reference after it. -/
theorem ApplyRun.coherent (hdb : db.StorageNeedsCode) {state : EvmState} {pc : ApplyPc}
    {before after : Address → Plain Err} (h : ApplyRun cache pc cache')
    (hok : pc.Ok state after) (hafter : after = Plain.applyState before state)
    (hcoherent : ∀ a, Coherent db cache a (pc.expect before after a)) :
    ∀ a, Coherent db cache' a { plain := after a } := by
  induction h with
  | done c hstep =>
    obtain ⟨-, hfollows⟩ := follows_of_applyStep hdb hok hafter hstep
    exact fun a => (hfollows a).coherent (hcoherent a)
  | step c hstep _ ih =>
    obtain ⟨hok', hfollows⟩ := follows_of_applyStep hdb hok hafter hstep
    exact ih (hok' _ rfl) fun a => (hfollows a).coherent (hcoherent a)

theorem Coherent.loadBasic (hdb : db.StorageNeedsCode) {E : Expect Err} {a : Address}
    (h : Coherent db cache a E) : Coherent db (cache.dbBasic db address).1 a E := by
  unfold ParallelCacheState.dbBasic
  split
  · exact h
  · split
    · exact h.insertLoaded hdb ‹_›
    · exact h

theorem Coherent.loadCode {E : Expect Err} {a : Address} {codeHash : B256}
    (h : Coherent db cache a E) : Coherent db (cache.dbCodeByHash db codeHash).1 a E := by
  unfold ParallelCacheState.dbCodeByHash
  split
  · exact h
  · split
    · refine h.congr ?_ ?_ <;> simp only [ParallelCacheState.insertCode] <;> split <;> rfl
    · exact h

theorem Coherent.loadStorage {p : Plain Err} {a : Address} {index : U256}
    (h : Coherent db cache a { plain := p }) :
    Coherent db (cache.dbStorage db address index).1 a { plain := p } := by
  unfold ParallelCacheState.dbStorage
  split
  · exact h
  · split
    · rename_i hslot value hvalue
      refine h.insertSlot fun ha hvacant => ?_
      subst ha
      have hrest := h.rest rfl index (by simp) hvacant
      intro _
      exact hrest.trans hvalue
    · exact h

theorem ParallelCacheState.accounts_dbCodeByHash (codeHash : B256) :
    (cache.dbCodeByHash db codeHash).1.accounts = cache.accounts := by
  unfold dbCodeByHash
  split
  · rfl
  · split
    · simp only [insertCode]
      split <;> rfl
    · rfl

theorem ParallelCacheState.accounts_dbStorage (address : Address) (index : U256) :
    (cache.dbStorage db address index).1.accounts = cache.accounts := by
  unfold dbStorage
  split
  · rfl
  · split
    · simp only [insertSlot]
      split <;> rfl
    · rfl

/-- After the commits the cache answers with the database overlaid by
them. -/
theorem Commits.coherent (hdb : db.StorageNeedsCode) {states : List EvmState}
    (h : Commits db cache states) (a : Address) :
    Coherent db cache a { plain := Plain.overlay (Plain.ofDatabase db) states a } := by
  induction h generalizing a with
  | fresh => exact ⟨fun _ => rfl, nofun, nofun, nofun, fun _ _ _ _ => rfl⟩
  | basic _ _ ih => exact (ih a).loadBasic hdb
  | code _ _ ih => exact (ih a).loadCode
  | storage _ _ _ ih => exact (ih a).loadStorage
  | @commit cache cache' states state _ happly ih =>
    rw [Plain.overlay_append]
    refine (applyRun_of_applyEvmState happly).coherent hdb (ApplyPc.ok_start state) rfl ?_ a
    intro a
    rw [ApplyPc.expect_start]
    exact ih a

end

/-! ## Code -/

/-- The code of every account of the database is the one of its hash,
whether it comes with the account or is asked for. -/
structure Database.CodeBook (db : Database Err) (codeOf : B256 → Bytecode) : Prop where
  code : ∀ address info, db.basic address = .ok (some info) → info.isEmptyCodeHash = false →
    db.code info.codeHash = .ok (codeOf info.codeHash)
  carried : ∀ address info code, db.basic address = .ok (some info) →
    info.isEmptyCodeHash = false → info.code = some code → code = codeOf info.codeHash

/-- The account a finalized change leaves. -/
def FinalizedAccount.info? : FinalizedAccount → Option AccountInfo
  | .created info | .updated info => some info
  | _ => none

/-- A finalized account with code carries it. -/
def Account.CarriesCode (codeOf : B256 → Bytecode) (account : Account) : Prop :=
  ∀ info, (FinalizedAccount.ofAccount account).info? = some info →
    info.isEmptyCodeHash = false → info.code = some (codeOf info.codeHash)

/-- Every created account carries its code. -/
def EvmState.CreatesCode (codeOf : B256 → Bytecode) (state : EvmState) : Prop :=
  ∀ address account, state.lookup address = some account → account.created = true →
    account.CarriesCode codeOf

/-- What the EVM observes of an account whose code is the one of its
hash. -/
def AccountInfo.observed (codeOf : B256 → Bytecode) (info : AccountInfo) : AccountView :=
  { balance := info.balance
    nonce := info.nonce
    codeHash := info.codeHash
    code := if info.isEmptyCodeHash then [] else codeOf info.codeHash }

/-- `basic` of a `ParallelState`, and `code_by_hash` where the code did
not come with the account. -/
def ParallelCacheState.resolvedBasic (db : Database Err) (cache : ParallelCacheState)
    (address : Address) : Except Err (Option AccountView) :=
  let (cache, result) := cache.dbBasic db address
  result.bind fun
    | none => .ok none
    | some info =>
      if !info.isEmptyCodeHash && info.code.isNone then
        (cache.dbCodeByHash db info.codeHash).2.map fun code =>
          some { info with code := some code }.view
      else .ok (some info.view)

/-- A contract that is cached is the one of the book or comes from a change
set, and the book has the others from the database. -/
structure ParallelCacheState.ContractsOk (db : Database Err) (codeOf : B256 → Bytecode)
    (book : B256 → Except Err Bytecode) (cache : ParallelCacheState) : Prop where
  cached : ∀ codeHash code, codeHash ≠ keccakEmpty → cache.contracts codeHash = some code →
    book codeHash = .ok code ∨ code = codeOf codeHash
  absent : ∀ codeHash, cache.contracts codeHash = none → book codeHash = db.code codeHash

section

variable {db : Database Err} {codeOf : B256 → Bytecode} {book : B256 → Except Err Bytecode}
  {cache cache' : ParallelCacheState} {address : Address}

theorem ParallelCacheState.ContractsOk.congr (h : cache.ContractsOk db codeOf book)
    (heq : cache'.contracts = cache.contracts) : cache'.ContractsOk db codeOf book where
  cached codeHash code hne hcode := h.cached codeHash code hne (heq ▸ hcode)
  absent codeHash hcode := h.absent codeHash (heq ▸ hcode)

/-- A contract is added. -/
theorem ParallelCacheState.ContractsOk.insert (h : cache.ContractsOk db codeOf book)
    {codeHash : B256} {code : Bytecode}
    (heq : cache'.contracts = Function.update cache.contracts codeHash (some code))
    (hcode : codeHash ≠ keccakEmpty → book codeHash = .ok code ∨ code = codeOf codeHash) :
    cache'.ContractsOk db codeOf book where
  cached codeHash' code' hne hmem := by
    rw [heq] at hmem
    by_cases hh : codeHash' = codeHash
    · subst hh
      rw [Function.update_self] at hmem
      cases hmem
      exact hcode hne
    · rw [Function.update_of_ne hh] at hmem
      exact h.cached codeHash' code' hne hmem
  absent codeHash' hmem := by
    rw [heq] at hmem
    by_cases hh : codeHash' = codeHash
    · subst hh
      rw [Function.update_self] at hmem
      cases hmem
    · rw [Function.update_of_ne hh] at hmem
      exact h.absent codeHash' hmem

theorem ParallelCacheState.contracts_updateStorageSlot {slots : List (U256 × U256)} :
    (cache.updateStorageSlot address slots).contracts = cache.contracts := by
  induction slots generalizing cache with
  | nil => rfl
  | cons slot slots ih => exact ih

/-- Only the creation of an account adds a contract. -/
theorem ParallelCacheState.contracts_applyAccountState {account : Account}
    (h : cache.applyAccountState address account = some cache') :
    cache'.contracts = cache.contracts ∨ ∃ code,
      FinalizedAccount.ofAccount account = .created account.info ∧
      account.info.code = some code ∧
      cache'.contracts = Function.update cache.contracts account.info.codeHash (some code) := by
  unfold ParallelCacheState.applyAccountState at h
  split at h
  · cases h
    exact .inl rfl
  · rename_i ht
    split at h
    · obtain ⟨c, -, rfl⟩ := Option.map_eq_some_iff.mp h
      exact .inl rfl
    · rename_i hs
      split at h
      · rename_i hc
        obtain ⟨c, -, h⟩ := Option.bind_eq_some_iff.mp h
        obtain ⟨cache₁, hadd, rfl⟩ := Option.map_eq_some_iff.mp h
        rw [contracts_updateStorageSlot]
        unfold addContract at hadd
        split at hadd
        · cases hadd
          exact .inl rfl
        · cases hadd
          rename_i code _ hcode _
          refine .inr ⟨code, ?_, hcode, rfl⟩
          simp only [Bool.not_eq_true', Bool.not_eq_false] at ht
          simp [FinalizedAccount.ofAccount, ht, hs, hc]
        · cases hadd
      · split at h
        · obtain ⟨c, -, rfl⟩ := Option.map_eq_some_iff.mp h
          exact .inl rfl
        · obtain ⟨c, -, rfl⟩ := Option.map_eq_some_iff.mp h
          exact .inl contracts_updateStorageSlot

theorem created_of_ofAccount {account : Account} {info : AccountInfo}
    (h : FinalizedAccount.ofAccount account = .created info) : account.created = true := by
  by_contra hc
  simp only [FinalizedAccount.ofAccount, hc] at h
  grind

theorem ParallelCacheState.ContractsOk.applyEvmState {state : EvmState}
    (h : cache.ContractsOk db codeOf book) (hcreates : state.CreatesCode codeOf)
    (happly : cache.applyEvmState state = some cache') : cache'.ContractsOk db codeOf book := by
  have hlookup : ∀ e ∈ state.entries, state.lookup e.1 = some e.2 :=
    fun e he => AList.mem_lookup_iff.mpr he
  unfold ParallelCacheState.applyEvmState at happly
  generalize state.entries = entries at happly hlookup
  induction entries generalizing cache with
  | nil =>
    cases happly
    exact h
  | cons e entries ih =>
    obtain ⟨cache₁, hone, hrest⟩ := Option.bind_eq_some_iff.mp happly
    refine ih ?_ hrest fun e' he' => hlookup e' (List.mem_cons_of_mem _ he')
    rcases contracts_applyAccountState hone with heq | ⟨code, hcreated, hcode, heq⟩
    · exact h.congr heq
    · refine h.insert heq fun hne => .inr ?_
      have hcarried := hcreates e.1 e.2 (hlookup e (List.mem_cons_self ..))
        (created_of_ofAccount hcreated) e.2.info (by rw [hcreated]; rfl)
        (by simpa [AccountInfo.isEmptyCodeHash] using hne)
      exact Option.some.inj (hcode.symm.trans hcarried)

theorem ParallelCacheState.contracts_dbBasic (db : Database Err) (cache : ParallelCacheState)
    (address : Address) : (cache.dbBasic db address).1.contracts = cache.contracts := by
  unfold dbBasic
  split
  · rfl
  · split
    · simp only [insertLoaded]
      split <;> rfl
    · rfl

theorem ParallelCacheState.ContractsOk.loadBasic (h : cache.ContractsOk db codeOf book)
    (address : Address) : (cache.dbBasic db address).1.ContractsOk db codeOf book :=
  h.congr (cache.contracts_dbBasic db address)

theorem ParallelCacheState.ContractsOk.loadCode (h : cache.ContractsOk db codeOf book)
    {codeHash : B256} : (cache.dbCodeByHash db codeHash).1.ContractsOk db codeOf book := by
  unfold ParallelCacheState.dbCodeByHash
  split
  · exact h
  · split
    · rename_i hvacant _ code hcode
      have hadded : (cache.insertCode codeHash code).1.contracts =
          Function.update cache.contracts codeHash (some code) := by
        simp only [ParallelCacheState.insertCode, hvacant]
      exact h.insert hadded fun _ => .inl (by rw [h.absent codeHash hvacant, hcode])
    · exact h

theorem ParallelCacheState.ContractsOk.loadStorage (h : cache.ContractsOk db codeOf book)
    {index : U256} : (cache.dbStorage db address index).1.ContractsOk db codeOf book := by
  refine h.congr ?_
  unfold ParallelCacheState.dbStorage
  split
  · rfl
  · split
    · simp only [ParallelCacheState.insertSlot]
      split <;> rfl
    · rfl

theorem Commits.contractsOk {states : List EvmState} (h : Commits db cache states)
    (hcreates : ∀ state, state ∈ states → EvmState.CreatesCode codeOf state) :
    cache.ContractsOk db codeOf db.code := by
  induction h with
  | fresh => exact ⟨nofun, fun _ _ => rfl⟩
  | basic address _ ih => exact (ih hcreates).loadBasic address
  | code _ _ ih => exact (ih hcreates).loadCode
  | storage _ _ _ ih => exact (ih hcreates).loadStorage
  | commit _ happly ih =>
    refine (ih fun state hs => hcreates state (List.mem_append_left _ hs)).applyEvmState ?_ happly
    exact hcreates _ (List.mem_append_right _ (List.mem_singleton_self _))

/-- An account with code is cached as the database has it. -/
theorem Plain.ofDatabase_info {info : AccountInfo}
    (hinfo : (ofDatabase db address).basic = .ok (some info))
    (hcode : info.isEmptyCodeHash = false) : db.basic address = .ok (some info) := by
  rw [ofDatabase] at hinfo
  cases hdb : db.basic address with
  | error e =>
    rw [hdb] at hinfo
    cases hinfo
  | ok loaded =>
    rw [hdb] at hinfo
    replace hinfo := Except.ok.inj hinfo
    cases loaded with
    | none => cases hinfo
    | some loaded =>
      by_cases he : loaded.isEmpty = true
      · simp only [CacheAccountInfo.ofDatabase, he, if_true] at hinfo
        cases hinfo
        cases hcode
      · simp only [CacheAccountInfo.ofDatabase, he, Bool.false_eq_true, if_false] at hinfo
        rw [hinfo]

/-- The code of the account is the one of its hash: it comes with the
account, or is in the book. -/
def Plain.CodeKnown (codeOf : B256 → Bytecode) (book : B256 → Except Err Bytecode)
    (q : Plain Err) : Prop :=
  ∀ info, q.basic = .ok (some info) → info.isEmptyCodeHash = false →
    (∀ code, info.code = some code → code = codeOf info.codeHash) ∧
      (info.code = none → book info.codeHash = .ok (codeOf info.codeHash))

theorem Plain.CodeKnown.applyState {q : Address → Plain Err} {state : EvmState}
    (h : (q address).CodeKnown codeOf book)
    (hcarries : ∀ account, state.lookup address = some account → account.CarriesCode codeOf) :
    (Plain.applyState q state address).CodeKnown codeOf book := by
  intro info hinfo hcode
  cases hlook : state.lookup address with
  | none =>
    rw [Plain.applyState, hlook] at hinfo
    exact h info hinfo hcode
  | some account =>
    rw [applyState_of_lookup hlook] at hinfo
    have hcarried := hcarries account hlook
    have hfinal : (FinalizedAccount.ofAccount account).info? = some info →
        (∀ code, info.code = some code → code = codeOf info.codeHash) ∧
          (info.code = none → book info.codeHash = .ok (codeOf info.codeHash)) := by
      intro hfinal
      rw [hcarried info hfinal hcode]
      exact ⟨fun code hcode => (Option.some.inj hcode).symm, fun hnone => by cases hnone⟩
    unfold apply at hinfo
    cases hf : FinalizedAccount.ofAccount account with
    | unchanged =>
      rw [hf] at hinfo
      exact h info hinfo hcode
    | deleted =>
      rw [hf] at hinfo
      cases hinfo
    | created info' | updated info' =>
      rw [hf] at hinfo hfinal
      cases hinfo
      exact hfinal rfl

/-- The code of an account of the overlay comes from the last change set
that touched it, or the account is the one of the database. -/
theorem Plain.codeKnown_overlay {states : List EvmState} (hbook : db.CodeBook codeOf)
    (hcarries : ∀ state : EvmState, state ∈ states → ∀ account,
      state.lookup address = some account → account.CarriesCode codeOf) :
    (overlay (ofDatabase db) states address).CodeKnown codeOf db.code := by
  induction states using List.reverseRecOn with
  | nil =>
    intro info hinfo hcode
    have hdb := ofDatabase_info hinfo hcode
    exact ⟨fun code => hbook.carried address info code hdb hcode,
      fun _ => hbook.code address info hdb hcode⟩
  | append_singleton states state ih =>
    rw [overlay_append]
    refine CodeKnown.applyState (ih fun state' hs => ?_) ?_
    · exact hcarries state' (List.mem_append_left _ hs)
    · exact hcarries state (List.mem_append_right _ (List.mem_singleton_self _))

/-- The cached contract, or the code of the database. -/
theorem ParallelCacheState.dbCodeByHash_eq (db : Database Err) (cache : ParallelCacheState)
    (codeHash : B256) :
    (cache.dbCodeByHash db codeHash).2 = (cache.contracts codeHash).elim (db.code codeHash) .ok := by
  unfold dbCodeByHash
  cases hcached : cache.contracts codeHash with
  | some code => rfl
  | none =>
    cases hcode : db.code codeHash with
    | error e => rfl
    | ok code => simp only [insertCode, hcached, Option.elim_none]

/-- A code that the book has right is answered right. -/
theorem ParallelCacheState.ContractsOk.dbCodeByHash {codeHash : B256}
    (h : cache.ContractsOk db codeOf book) (hne : codeHash ≠ keccakEmpty)
    (hbook : book codeHash = .ok (codeOf codeHash)) :
    (cache.dbCodeByHash db codeHash).2 = .ok (codeOf codeHash) := by
  rw [dbCodeByHash_eq]
  cases hcached : cache.contracts codeHash with
  | none => exact (h.absent codeHash hcached).symm.trans hbook
  | some code =>
    rcases h.cached codeHash code hne hcached with hcode | rfl
    · exact hcode.symm.trans hbook
    · rfl

/-- A coherent cache answers `basic` with the account and the code of its
hash. -/
theorem Coherent.resolvedBasic {q : Plain Err} (h : Coherent db cache address { plain := q })
    (hcontracts : cache.ContractsOk db codeOf book) (hknown : q.CodeKnown codeOf book) :
    cache.resolvedBasic db address =
      q.basic.map (Option.map (AccountInfo.observed codeOf)) := by
  have hloaded := h.dbBasic
  have hcontracts := hcontracts.loadBasic address
  unfold ParallelCacheState.resolvedBasic
  generalize cache.dbBasic db address = loaded at hloaded hcontracts
  obtain ⟨cache₁, result⟩ := loaded
  dsimp only at hloaded hcontracts ⊢
  subst hloaded
  cases hplain : q.basic with
  | error e => rfl
  | ok info? =>
    cases info? with
    | none => rfl
    | some info =>
      simp only [Except.bind, Except.map, Option.map]
      cases he : info.isEmptyCodeHash with
      | true => simp [AccountInfo.observed, AccountInfo.view, he]
      | false =>
        obtain ⟨hcarried, hasked⟩ := hknown info hplain he
        have hne : info.codeHash ≠ keccakEmpty := by simpa [AccountInfo.isEmptyCodeHash] using he
        cases hc : info.code with
        | none =>
          rw [if_pos (by rfl), hcontracts.dbCodeByHash hne (hasked hc)]
          simp_all [AccountInfo.observed, AccountInfo.view, AccountInfo.isEmptyCodeHash]
        | some code => simp [AccountInfo.observed, AccountInfo.view, he, hc, hcarried code hc]

/-- After the commits the cache answers `basic` with the overlay and the
code of the hash. -/
theorem Commits.resolvedBasic (hdb : db.StorageNeedsCode) (hbook : db.CodeBook codeOf)
    {states : List EvmState} (h : Commits db cache states)
    (hcreates : ∀ state, state ∈ states → EvmState.CreatesCode codeOf state)
    (hcarries : ∀ state : EvmState, state ∈ states → ∀ account,
      state.lookup address = some account → account.CarriesCode codeOf) :
    cache.resolvedBasic db address =
      (Plain.overlay (Plain.ofDatabase db) states address).basic.map
        (Option.map (AccountInfo.observed codeOf)) :=
  (h.coherent hdb address).resolvedBasic (h.contractsOk hcreates)
    (Plain.codeKnown_overlay hbook hcarries)

end

end Grevm
