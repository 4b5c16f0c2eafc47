/-
Grevm.Sequential — one transaction after the other.

`Block.sequential` executes the transactions of a block in order over
plain accounts, with every deferred reward paid at once. It is what the
parallel execution is compared with, and knows neither versions nor
incarnations. `ViewAgrees` says that a view of the multi-version memory
and the beneficiary history gives the answers of such a state; it holds
before the first transaction (`viewAgrees_base`) and the publication of a
result leads from the state before it to the state after it
(`ViewAgrees.commit`). What this relies on are guarantees of revm about
the programs of the block: `Prog.Finalizes` for the code of finalized
accounts, and `Prog.Propagates` for failed reads.
-/
import Grevm.ViewAgreement
import Grevm.OrderedCommit

namespace Grevm

variable {Err R : Type}

/-! ## The sequential execution -/

/-- What a state read returns of plain accounts. -/
def Plain.answer (codeOf : B256 → Bytecode) (p : Address → Plain Err) : Call → Except Err Value
  | .basic address =>
    ((p address).basic.map (Option.map (AccountInfo.observed codeOf))).map .account
  | .storage address index => ((p address).storage index).map .word

/-- The account, where it can be read. -/
def Plain.account (q : Plain Err) : Option AccountInfo := q.basic.toOption.join

/-- The change set of a result, with the reward it deferred paid to the
beneficiary. -/
def SpeculativeResult.settled (beneficiary : Address) (account : Option AccountInfo)
    (result : SpeculativeResult R) : EvmState :=
  match result.deferredReward with
  | none => result.state
  | some reward => withReward beneficiary reward account result.state

/-- The plain accounts after a result. -/
def Plain.commit (beneficiary : Address) (p : Address → Plain Err)
    (result : SpeculativeResult R) : Address → Plain Err :=
  Plain.applyState p (result.settled beneficiary (p beneficiary).account)

/-- The results of the first transactions and the accounts after them;
`none` when one of them ends in an error. -/
def Block.sequential (blk : Block Err R) (codeOf : B256 → Bytecode) (start : Address → Plain Err) :
    Nat → Option (List (SpeculativeResult R) × (Address → Plain Err))
  | 0 => some ([], start)
  | n + 1 =>
    (blk.sequential codeOf start n).bind fun (results, p) =>
      ((blk.spec n).run (Plain.answer codeOf p)).toOption.map fun result =>
        (results ++ [result], Plain.commit blk.beneficiary p result)

/-- The accounts at the start of the block. -/
def Base.plain (base : Base Err) (address : Address) : Plain Err where
  basic := if address = base.beneficiary then .ok base.anchor else base.basic address
  storage := base.storage address

/-- The last transaction of a sequential execution. -/
theorem Block.sequential_succ_iff {blk : Block Err R} {codeOf : B256 → Bytecode}
    {start p : Address → Plain Err} {n : Nat} {results : List (SpeculativeResult R)} :
    blk.sequential codeOf start (n + 1) = some (results, p) ↔
      ∃ results' p' result, blk.sequential codeOf start n = some (results', p') ∧
        (blk.spec n).run (Plain.answer codeOf p') = .ok result ∧
        results = results' ++ [result] ∧ p = Plain.commit blk.beneficiary p' result := by
  constructor
  · intro h
    rw [sequential] at h
    obtain ⟨⟨results', p'⟩, hprev, h⟩ := Option.bind_eq_some_iff.mp h
    obtain ⟨result, hrun, heq⟩ := Option.map_eq_some_iff.mp h
    cases heq
    refine ⟨results', p', result, hprev, ?_, rfl, rfl⟩
    cases hr : (blk.spec n).run (Plain.answer codeOf p') with
    | error e =>
      rw [hr] at hrun
      cases hrun
    | ok x =>
      rw [hr] at hrun
      cases hrun
      rfl
  · rintro ⟨results', p', result, hprev, hrun, rfl, rfl⟩
    simp only [sequential, hprev, Option.bind_some, hrun]
    rfl

theorem Block.length_sequential {blk : Block Err R} {codeOf : B256 → Bytecode}
    {start p : Address → Plain Err} {n : Nat} {results : List (SpeculativeResult R)}
    (h : blk.sequential codeOf start n = some (results, p)) : results.length = n := by
  induction n generalizing results p with
  | zero =>
    cases h
    rfl
  | succ n ih =>
    obtain ⟨results', p', result, hprev, -, rfl, -⟩ := sequential_succ_iff.mp h
    rw [List.length_append, ih hprev, List.length_singleton]

/-- Every result of a sequential execution is the one of its transaction
against the accounts before it. -/
theorem Block.sequential_at {blk : Block Err R} {codeOf : B256 → Bytecode}
    {start p : Address → Plain Err} {n i : Nat} {results : List (SpeculativeResult R)}
    {result : SpeculativeResult R} (h : blk.sequential codeOf start n = some (results, p))
    (hresult : results[i]? = some result) :
    ∃ results' p', blk.sequential codeOf start i = some (results', p') ∧
      (blk.spec i).run (Plain.answer codeOf p') = .ok result := by
  induction n generalizing results p with
  | zero =>
    cases h
    cases hresult
  | succ n ih =>
    obtain ⟨results', p', result', hprev, hrun, rfl, -⟩ := sequential_succ_iff.mp h
    have hlen := length_sequential hprev
    by_cases hi : i < results'.length
    · rw [List.getElem?_append_left hi] at hresult
      exact ih hprev hresult
    · have hn : i = n := by
        have := (List.getElem?_eq_some_iff.mp hresult).1
        rw [List.length_append, List.length_singleton] at this
        omega
      subst hn
      rw [← hlen, List.getElem?_concat_length] at hresult
      cases hresult
      exact ⟨results', p', hprev, hrun⟩

/-- A sequential execution has executed every prefix. -/
theorem Block.sequential_of_le {blk : Block Err R} {codeOf : B256 → Bytecode}
    {start p : Address → Plain Err} {n m : Nat} {results : List (SpeculativeResult R)}
    (h : blk.sequential codeOf start n = some (results, p)) (hm : m ≤ n) :
    ∃ results' p', blk.sequential codeOf start m = some (results', p') := by
  rcases Nat.lt_or_eq_of_le hm with hlt | rfl
  · have hlen := length_sequential h
    obtain ⟨results', p', hseq, -⟩ :=
      sequential_at h (List.getElem?_eq_getElem (hlen ▸ hlt))
    exact ⟨results', p', hseq⟩
  · exact ⟨results, p, h⟩

/-! ## Programs -/

/-- What revm guarantees of the code of finalized accounts: it is carried
when it was changed or created, it is the code `basic` returned when it
was not, and it becomes empty only together with a change of the nonce or
the balance. -/
structure Prog.Finalizes (codeOf : B256 → Bytecode) (prog : Prog Err R) : Prop where
  code : ∀ answer result address account info, prog.run answer = .ok result →
    result.state.lookup address = some account →
    (FinalizedAccount.ofAccount account).info? = some info → info.isEmptyCodeHash = false →
      info.code = some (codeOf info.codeHash) ∨
        ∃ view, (.basic address, .ok (.account (some view))) ∈ prog.calls answer ∧
          view.codeHash = info.codeHash ∧ info.code = some view.code
  emptied : ∀ answer result address account info view, prog.run answer = .ok result →
    result.state.lookup address = some account →
    (FinalizedAccount.ofAccount account).info? = some info → info.isEmptyCodeHash = true →
    (.basic address, .ok (.account (some view))) ∈ prog.calls answer →
    view.codeHash ≠ keccakEmpty → info.nonce ≠ view.nonce ∨ info.balance ≠ view.balance

/-- Some read without a preceding write fails with the error. -/
def Base.Fails (base : Base Err) (e : Err) : Prop :=
  (∃ address, base.basic address = .error e) ∨ (∃ codeHash, base.code codeHash = .error e) ∨
    ∃ address index, base.storage address index = .error e

/-- A failed read ends the execution; over a base without failures every
program does this. -/
def Prog.Propagates (base : Base Err) : Prog Err R → Prop
  | .read _ continuation =>
    (∀ e, base.Fails e → ∃ error, continuation (.error e) = .done (.error error)) ∧
      ∀ value, (continuation (.ok value)).Propagates base
  | .done _ => True

theorem Prog.propagates_of_answers {base : Base Err} (h : ∀ e, ¬base.Fails e)
    (prog : Prog Err R) : prog.Propagates base := by
  induction prog with
  | read call continuation ih => exact ⟨fun e he => absurd he (h e), fun value => ih (.ok value)⟩
  | done outcome => trivial

/-- The calls of a program that has followed answers which `answer` gives
too. -/
theorem Prog.calls_of_follow {p q : Prog Err R} {done : List (Call × Except Err Value)}
    {answer : Call → Except Err Value} (h : p.follow done = some q)
    (agree : ∀ c v, (c, v) ∈ done → answer c = v) :
    p.calls answer = done ++ q.calls answer := by
  induction done generalizing p with
  | nil =>
    cases h
    rfl
  | cons head tail ih =>
    obtain ⟨k, rfl, hk⟩ := Prog.follow_cons h
    rw [Prog.calls, agree head.1 head.2 (by simp), List.cons_append,
      ih hk fun c v hc => agree c v (by simp [hc])]

/-- What is left of a program after successful reads. -/
theorem Prog.Propagates.follow {base : Base Err} {p q : Prog Err R}
    {done : List (Call × Except Err Value)} (hp : p.Propagates base) (h : p.follow done = some q)
    (hok : ∀ c v, (c, v) ∈ done → ∃ value, v = .ok value) : q.Propagates base := by
  induction done generalizing p with
  | nil =>
    cases h
    exact hp
  | cons head tail ih =>
    obtain ⟨k, rfl, hk⟩ := Prog.follow_cons h
    obtain ⟨value, hvalue⟩ := hok head.1 head.2 (by simp)
    rw [hvalue] at hk
    exact ih (hp.2 value) hk fun c v hc => hok c v (by simp [hc])

/-! ## Views and plain accounts -/

/-- The view gives the answers of the plain accounts. -/
structure ViewAgrees (codeOf : B256 → Bytecode) (V : View Err) (p : Address → Plain Err) :
    Prop where
  account : ∀ address, AccountAgrees codeOf V (p address) address
  storage : ∀ address index, V.storageAt address index = (p address).storage index

section

variable {codeOf : B256 → Bytecode} {V V' : View Err} {p : Address → Plain Err}
  {base : Base Err}

theorem ViewAgrees.eval (h : ViewAgrees codeOf V p) : V.eval = Plain.answer codeOf p := by
  funext call
  cases call with
  | basic address => exact (h.account address).eval
  | storage address index => rw [View.eval, h.storage, Plain.answer]

/-- The code of every account at the start of the block is the one of its
hash. -/
def Base.CodeBook (base : Base Err) (codeOf : B256 → Bytecode) : Prop :=
  ∀ address info, (base.plain address).basic = .ok (some info) → info.isEmptyCodeHash = false →
    base.code info.codeHash = .ok (codeOf info.codeHash) ∧
      ∀ code, info.code = some code → code = codeOf info.codeHash

/-- The first transaction sees the start of the block. -/
theorem viewAgrees_base (hbook : base.CodeBook codeOf) (mv : MVMemory)
    (history : Nat → EntryState) : ViewAgrees codeOf (base.view mv history 0) base.plain := by
  have haccount : ∀ address, (base.view mv history 0).account address =
      (base.plain address).basic := by
    intro address
    rw [View.account, Base.plain]
    rfl
  refine ⟨fun address => ⟨by rw [haccount], fun info hinfo he => ?_⟩, fun _ _ => rfl⟩
  rw [haccount] at hinfo
  exact hbook address info hinfo he

theorem Prog.answer_of_mem_calls {prog : Prog Err R} {answer : Call → Except Err Value}
    {call : Call} {value : Except Err Value} (h : (call, value) ∈ prog.calls answer) :
    answer call = value := by
  induction prog with
  | done result => cases h
  | read call' continuation ih =>
    rcases List.mem_cons.mp h with heq | h
    · cases heq
      rfl
    · exact ih _ h

/-- The account that was observed. -/
theorem AccountInfo.of_observed {basic : Except Err (Option AccountInfo)} {view : AccountView}
    (h : (basic.map (Option.map (AccountInfo.observed codeOf))).map Value.account =
      .ok (.account (some view))) :
    ∃ loaded, basic = .ok (some loaded) ∧ loaded.observed codeOf = view := by
  rcases basic with e | (_ | loaded)
  · cases h
  · cases h
  · cases h
    exact ⟨loaded, rfl, rfl⟩

/-- A finalized account carries its code when the program has been
answered with the code of the hash. -/
theorem Prog.Finalizes.carriesCode {prog : Prog Err R} (h : prog.Finalizes codeOf)
    {answer : Call → Except Err Value} {result : SpeculativeResult R} {address : Address}
    {account : Account} {q : Plain Err}
    (hanswer : answer (.basic address) =
      (q.basic.map (Option.map (AccountInfo.observed codeOf))).map .account)
    (hrun : prog.run answer = .ok result) (hlook : result.state.lookup address = some account) :
    account.CarriesCode codeOf := by
  intro info hinfo he
  rcases h.code answer result address account info hrun hlook hinfo he with
    hcarried | ⟨view, hcall, hhash, hcode⟩
  · exact hcarried
  · obtain ⟨loaded, -, rfl⟩ :=
      AccountInfo.of_observed (hanswer.symm.trans (Prog.answer_of_mem_calls hcall))
    have hloaded : loaded.codeHash = info.codeHash := hhash
    rw [hcode, AccountInfo.observed,
      if_neg (by simp [AccountInfo.isEmptyCodeHash_congr hloaded, he]), hloaded]

/-- A touched account of a result that the program has against the
view. -/
theorem Prog.Finalizes.publishable {prog : Prog Err R} (h : prog.Finalizes codeOf)
    {result : SpeculativeResult R} {address : Address} {account : Account} {q : Plain Err}
    {snapshots : AList (fun _ : Address => AccountBasic)}
    (hagree : AccountAgrees codeOf V q address) (hrun : prog.run V.eval = .ok result)
    (hlook : result.state.lookup address = some account)
    (hsnapshot : ∀ basic, snapshots.lookup address = some basic →
      (∃ before, V.account address = .ok (some before) ∧ AccountBasic.ofInfo before = basic) ∧
        ∃ value, (.basic address, .ok value) ∈ prog.calls V.eval) :
    account.Publishable codeOf V snapshots address := by
  refine ⟨fun basic hbasic => (hsnapshot basic hbasic).1,
    h.carriesCode hagree.eval hrun hlook, fun info before hinfo hbefore hbasic he hb => ?_⟩
  obtain ⟨value, hcall⟩ := (hsnapshot _ hbasic).2
  have hvalue := Prog.answer_of_mem_calls hcall
  rw [View.eval, hagree.basicInfo, hbefore] at hvalue
  cases hvalue
  have hfields := h.emptied V.eval result address account info _ hrun hlook hinfo he hcall
  rw [AccountInfo.view_resolved] at hfields
  exact hfields (by simpa [AccountInfo.observed, AccountInfo.isEmptyCodeHash] using hb)

/-! ## One result -/

variable {result : SpeculativeResult R} {beneficiary : Address} {effect : BeneficiaryEffect}

/-- Away from the beneficiary a result is its change set. -/
theorem Plain.commit_of_ne {address : Address} (hne : address ≠ beneficiary) :
    Plain.commit beneficiary p result address = Plain.applyState p result.state address := by
  unfold commit SpeculativeResult.settled
  split
  · rfl
  · unfold applyState withReward
    rw [AList.lookup_insert_ne hne]

/-- The beneficiary account after a reward. -/
theorem Plain.applyState_withReward (q : Address → Plain Err) (beneficiary : Address)
    (reward : DeferredBeneficiaryReward) (account : Option AccountInfo) (state : EvmState) :
    applyState q (withReward beneficiary reward account state) beneficiary =
      { basic := .ok (some (reward.applyTo account)), storage := (q beneficiary).storage } := by
  have hlook := AList.lookup_insert (a := beneficiary)
    (b := (Account.ofInfo (reward.applyTo account)).markTouch) state
  unfold withReward
  rw [applyState_of_lookup hlook]
  exact apply_updated rfl rfl rfl (reward.isEmpty_applyTo _)

theorem Plain.commit_reward {reward : DeferredBeneficiaryReward}
    (hreward : result.deferredReward = some reward) :
    Plain.commit beneficiary p result beneficiary =
      { basic := .ok (some (reward.applyTo (p beneficiary).account))
        storage := (p beneficiary).storage } := by
  simp only [commit, SpeculativeResult.settled, hreward]
  exact applyState_withReward p beneficiary reward _ _

/-- A reward changes the balance only. -/
theorem DeferredBeneficiaryReward.bare_applyTo (reward : DeferredBeneficiaryReward)
    {account account' : Option AccountInfo}
    (h : account.map AccountInfo.bare = account'.map AccountInfo.bare) :
    (reward.applyTo account).bare = (reward.applyTo account').bare := by
  have hgetD : (account.getD .empty).bare = (account'.getD .empty).bare := by
    cases account <;> cases account' <;>
      simp only [Option.map_some, Option.map_none, Option.some.injEq, reduceCtorEq] at h
    · rfl
    · exact h
  simp only [AccountInfo.bare, AccountInfo.mk.injEq] at hgetD
  simp only [applyTo, hgetD]
  split
  · simp only [AccountInfo.bare]
  · simp only [AccountInfo.bare, hgetD]

theorem DeferredBeneficiaryReward.codeHash_applyTo (reward : DeferredBeneficiaryReward)
    (account : Option AccountInfo) :
    (reward.applyTo account).codeHash = (account.getD .empty).codeHash := by
  unfold applyTo
  dsimp only
  split <;> rfl

theorem DeferredBeneficiaryReward.code_applyTo (reward : DeferredBeneficiaryReward)
    (account : Option AccountInfo) :
    (reward.applyTo account).code = (account.getD .empty).code := by
  unfold applyTo
  dsimp only
  split <;> rfl

section

variable {n : Nat} {snapshots : AList (fun _ : Address => AccountBasic)} {scan scan' : HistoryScan}

/-- The account of the beneficiary in a view. -/
theorem View.account_beneficiary (hscan : V.history = .ok scan) :
    V.account V.beneficiary = .ok scan.resolve := by
  rw [account, if_pos rfl, hscan]

/-- The code of the beneficiary after a result that does not write it. -/
theorem View.Follows.codeByAddress_beneficiary (hfollows : V.Follows n snapshots result.state V')
    (hunchanged : ∀ account, result.state.lookup V.beneficiary = some account →
      FinalizedAccount.ofAccount account = .unchanged) (codeHash : B256) :
    V'.codeByAddress V.beneficiary codeHash = V.codeByAddress V.beneficiary codeHash :=
  hfollows.codeByAddress_congr
    (hfollows.latest_of_not_writes fun _ => not_writes_of_unchanged hunchanged) codeHash

/-- The beneficiary account after a result. -/
theorem ViewAgrees.commit_beneficiary (h : ViewAgrees codeOf V p)
    (hfollows : V.Follows n snapshots result.state V')
    (hpub : ∀ account, result.state.lookup V.beneficiary = some account →
      account.touched = true → account.Publishable codeOf V snapshots V.beneficiary)
    (heffect : BeneficiaryEffect.fromExecution result.deferredReward
      (result.state.lookup V.beneficiary) = some effect)
    (hscan : V.history = .ok scan) (hscan' : V'.history = .ok scan')
    (hresolve : scan'.resolve = effect.applyTo scan.resolve) :
    AccountAgrees codeOf V' (Plain.commit V.beneficiary p result V.beneficiary) V.beneficiary := by
  have hagree := h.account V.beneficiary
  have hbefore := View.account_beneficiary hscan
  have hafter : V'.account V.beneficiary = .ok (effect.applyTo scan.resolve) := by
    rw [← hfollows.beneficiary, View.account_beneficiary hscan', hresolve]
  have hbare : scan.resolve.map AccountInfo.bare =
      (p V.beneficiary).account.map AccountInfo.bare := by
    have hbare := hagree.bare
    rw [hbefore] at hbare
    rw [Plain.account]
    cases hp : (p V.beneficiary).basic with
    | error e =>
      rw [hp] at hbare
      cases hbare
    | ok info? =>
      rw [hp] at hbare
      exact Except.ok.inj hbare
  have hkept : result.deferredReward = none → effect = .unchanged →
      (∀ account, result.state.lookup V.beneficiary = some account →
        FinalizedAccount.ofAccount account = .unchanged) →
      AccountAgrees codeOf V' (Plain.commit V.beneficiary p result V.beneficiary)
        V.beneficiary := by
    intro hreward heff hunchanged
    subst heff
    have hcommit : Plain.commit V.beneficiary p result V.beneficiary = p V.beneficiary := by
      simp only [Plain.commit, SpeculativeResult.settled, hreward]
      exact Plain.applyState_of_unchanged hunchanged
    rw [hcommit]
    refine ⟨by rw [hafter, ← hagree.bare, hbefore]; rfl, fun info hinfo he => ?_⟩
    rw [hafter] at hinfo
    rw [hfollows.codeByAddress_beneficiary hunchanged]
    exact hagree.code info (hbefore.trans hinfo) he
  cases hreward : result.deferredReward with
  | some reward =>
    cases hlook : result.state.lookup V.beneficiary with
    | some account =>
      rw [hreward, hlook] at heffect
      cases heffect
    | none =>
      rw [hreward, hlook] at heffect
      cases heffect
      rw [Plain.commit_reward hreward]
      refine ⟨?_, fun info hinfo he => ?_⟩
      · rw [hafter]
        exact congrArg (fun i => Except.ok (some i)) (reward.bare_applyTo hbare)
      · rw [hafter] at hinfo
        cases hinfo
        cases hres : scan.resolve with
        | none =>
          rw [hres, AccountInfo.isEmptyCodeHash_congr (reward.codeHash_applyTo none)] at he
          cases he
        | some before =>
          have hhash : (reward.applyTo (some before)).codeHash = before.codeHash :=
            reward.codeHash_applyTo (some before)
          rw [hres, AccountInfo.isEmptyCodeHash_congr hhash] at he
          rw [hhash, reward.code_applyTo (some before),
            hfollows.codeByAddress_beneficiary (by rw [hlook]; exact nofun)]
          exact hagree.code before (by rw [hbefore, hres]) he
  | none =>
    cases hlook : result.state.lookup V.beneficiary with
    | none =>
      rw [hreward, hlook] at heffect
      cases heffect
      exact hkept hreward rfl (by rw [hlook]; exact nofun)
    | some account =>
      rw [hreward, hlook] at heffect
      have hcommit : Plain.commit V.beneficiary p result V.beneficiary =
          (p V.beneficiary).apply account := by
        simp only [Plain.commit, SpeculativeResult.settled, hreward]
        exact Plain.applyState_of_lookup hlook
      have hinPlace : ∀ info, (FinalizedAccount.ofAccount account).info? = some info →
          effect = .snapshot (some info) → ((p V.beneficiary).apply account).basic = .ok (some info) →
          AccountAgrees codeOf V' (Plain.commit V.beneficiary p result V.beneficiary)
            V.beneficiary := by
        intro info hinfo heff hp'
        subst heff
        have htouched : account.touched = true := by
          by_contra ht
          have hf : FinalizedAccount.ofAccount account = .unchanged := by
            simp [FinalizedAccount.ofAccount, ht]
          rw [hf] at hinfo
          cases hinfo
        rw [hcommit]
        refine ⟨by rw [hafter, hp']; rfl, fun info' hinfo' he => ?_⟩
        rw [hafter] at hinfo'
        cases hinfo'
        have hpublishable := hpub account hlook htouched
        refine ⟨hfollows.codeByAddress_of_info hagree hlook hinfo hpublishable he,
          fun code hc => ?_⟩
        rw [hpublishable.carries info hinfo he] at hc
        exact (Option.some.inj hc).symm
      simp only [BeneficiaryEffect.fromExecution] at heffect
      cases hf : FinalizedAccount.ofAccount account with
      | unchanged =>
        rw [hf] at heffect
        cases heffect
        refine hkept hreward rfl fun account' hlook' => ?_
        rw [hlook] at hlook'
        cases hlook'
        exact hf
      | deleted =>
        rw [hf] at heffect
        cases heffect
        rw [hcommit]
        refine ⟨by rw [hafter, Plain.apply, hf]; rfl, fun info hinfo => ?_⟩
        rw [hafter] at hinfo
        cases hinfo
      | created info | updated info =>
        rw [hf] at heffect
        cases heffect
        exact hinPlace info (by rw [hf]; rfl) rfl (by rw [Plain.apply, hf])

/-- **Step lemma.** The publication of a result leads from the view of
the plain accounts before it to the view of those after it. -/
theorem ViewAgrees.commit (h : ViewAgrees codeOf V p)
    (hfollows : V.Follows n snapshots result.state V')
    (hpub : ∀ address account, result.state.lookup address = some account →
      account.touched = true → account.Publishable codeOf V snapshots address)
    (heffect : BeneficiaryEffect.fromExecution result.deferredReward
      (result.state.lookup V.beneficiary) = some effect)
    (hscan : V.history = .ok scan) (hscan' : V'.history = .ok scan')
    (hresolve : scan'.resolve = effect.applyTo scan.resolve) :
    ViewAgrees codeOf V' (Plain.commit V.beneficiary p result) := by
  refine ⟨fun address => ?_, fun address index => ?_⟩
  · by_cases hne : address = V.beneficiary
    · subst hne
      exact h.commit_beneficiary hfollows (hpub V.beneficiary) heffect hscan hscan' hresolve
    · rw [Plain.commit_of_ne hne]
      exact hfollows.accountAgrees hne (h.account address) (hpub address)
  · rw [hfollows.storageAt (h.storage address index)]
    by_cases hne : address = V.beneficiary
    · subst hne
      cases hreward : result.deferredReward with
      | none => simp only [Plain.commit, SpeculativeResult.settled, hreward]
      | some reward =>
        cases hlook : result.state.lookup V.beneficiary with
        | some account =>
          rw [hreward, hlook] at heffect
          cases heffect
        | none => rw [Plain.commit_reward hreward, Plain.applyState, hlook]
    · rw [Plain.commit_of_ne hne]

end

/-! ## The committed accounts -/

/-- The change set of a result leaves the same beneficiary account when
it is applied to accounts that differ in loaded code only. -/
theorem Plain.account_commit {q : Address → Plain Err} {account : Option AccountInfo}
    (hq : (q beneficiary).account.map AccountInfo.bare =
      (p beneficiary).account.map AccountInfo.bare)
    (haccount : account.map AccountInfo.bare = (p beneficiary).account.map AccountInfo.bare) :
    (applyState q (result.settled beneficiary account) beneficiary).account.map AccountInfo.bare =
      (Plain.commit beneficiary p result beneficiary).account.map AccountInfo.bare := by
  cases hreward : result.deferredReward with
  | some reward =>
    rw [commit_reward hreward]
    simp only [SpeculativeResult.settled, hreward]
    rw [applyState_withReward]
    exact congrArg some (reward.bare_applyTo haccount)
  | none =>
    simp only [commit, SpeculativeResult.settled, hreward, applyState]
    cases hlook : result.state.lookup beneficiary with
    | none => exact hq
    | some account =>
      simp only [apply]
      cases FinalizedAccount.ofAccount account with
      | unchanged => exact hq
      | _ => rfl

/-! ## Views of a final prefix -/

section

variable {mv mv' : MVMemory} {history history' : Nat → EntryState} {n : Nat}

theorem scanFrom_eq_of_eq {anchor : Option AccountInfo} {origins : List TxVersion}
    {rewards : List DeferredBeneficiaryReward} (h : ∀ t, t < n → history' t = history t) :
    scanFrom history' anchor n origins rewards = scanFrom history anchor n origins rewards := by
  induction n generalizing origins rewards with
  | zero => rfl
  | succ n ih =>
    have hlower : ∀ t, t < n → history' t = history t := fun t ht => h t (by omega)
    simp only [scanFrom, h n (Nat.lt_succ_self n), ih hlower]

/-- A view depends on the transactions before the reader only. -/
theorem Base.view_congr (hmv : ∀ l t, t < n → mv' l t = mv l t)
    (hhistory : ∀ t, t < n → history' t = history t) :
    base.view mv' history' n = base.view mv history n := by
  simp only [view, scanBefore, scanFrom_eq_of_eq hhistory]
  congr 1
  funext l
  rw [MVMemory.latestBefore_congr fun t ht => hmv l t ht]

/-- Exact entries can be read. -/
theorem scanBefore_of_exact {anchor : Option AccountInfo}
    (h : ∀ t, t < n → ∃ effect, (history t).value = .exact effect) :
    ∃ scan, scanBefore history anchor n = .ok scan := by
  cases hs : scanBefore history anchor n with
  | ok scan => exact ⟨scan, rfl⟩
  | error blocker =>
    obtain ⟨hlt, hest, -⟩ := scanFrom_eq_error_iff.mp hs
    obtain ⟨effect, he⟩ := h blocker hlt
    rw [hest] at he
    cases he

/-- One more entry is one more effect on the account. -/
theorem resolve_scanBefore_succ {anchor : Option AccountInfo} {scan scan' : HistoryScan}
    {effect : BeneficiaryEffect} (he : (history n).value = .exact effect)
    (hscan : scanBefore history anchor n = .ok scan)
    (hscan' : scanBefore history anchor (n + 1) = .ok scan') :
    scan'.resolve = effect.applyTo scan.resolve := by
  -- the effect of every entry that has one
  let effects : Nat → BeneficiaryEffect := fun t =>
    match (history t).value with
    | .exact effect => effect
    | .estimate => .unchanged
  have hexact : ∀ t e, (history t).value = .exact e → e = effects t := by
    intro t e ht
    simp only [effects, ht]
  rw [resolve_of_scanFrom (fun t e _ => hexact t e) hscan',
    resolve_of_scanFrom (fun t e _ => hexact t e) hscan, hexact n effect he]
  rfl

end

end

end Grevm
