/-
Grevm.Scheduler.Deadlock — the threads never wait for each other in a circle.

Thread `th` waits for thread `th'` when the next access of `th` takes a
lock that `th'` holds. The locks are taken in one order, so a chain of
waits descends and ends at a thread that can move. The programs of a block
defer a reward only for a beneficiary outside their change set
(`EvmBlock.rewardApart`), which is what the assertions of the workers and
of the ordered commit ask for; the one place where a thread can stop for
another reason is a panic inside `ParallelStateCommit::commit`.
-/
import Grevm.Scheduler.Agreement
import Grevm.Scheduler.Enabled

namespace Grevm

variable {Err W R : Type} {B : Backing Err}

/-! ## Rewards and change sets -/

section

variable {env : RewardEnv} {normalize : Account → Account}

/-- Paying at once defers nothing, whatever the beneficiary's account. -/
theorem yields_rewardBeneficiary {P : SpeculativeResult R → Prop} (reward : Option U256)
    (journal : Journaled R) {finish : Journaled R → Prog Err R}
    (hfinish : ∀ journal, (finish journal).Yields P) :
    (rewardBeneficiary env reward journal finish).Yields P := by
  cases reward with
  | none => exact hfinish journal
  | some amount =>
    simp only [rewardBeneficiary]
    split
    · exact hfinish _
    · intro answer
      cases answer with
      | ok value => exact hfinish _
      | error e => trivial

theorem rewardApart_apply (reward : Option U256) (journal : Journaled R) :
    (BeneficiaryMode.deferred.apply env reward journal fun journal reward =>
      (journal.intoSpeculative normalize reward : Prog Err R)).Yields
        (SpeculativeResult.RewardApart env.beneficiary) := by
  have hsettled : ∀ journal : Journaled R,
      (journal.intoSpeculative normalize none : Prog Err R).Yields
        (SpeculativeResult.RewardApart env.beneficiary) := by
    intro journal hsome
    cases hsome
  cases reward with
  | none => exact hsettled journal
  | some amount =>
    simp only [BeneficiaryMode.apply]
    split
    · exact yields_rewardBeneficiary _ journal hsettled
    · rename_i h
      intro _
      have habsent : journal.state.lookup env.beneficiary = none := by
        simpa using fun hsome => h (.inr hsome)
      simp [EvmState.lookup_finalize, habsent]

theorem rewardApart_settle (effectiveGasPrice : BitVec 128 → BitVec 128) (body : Body Err R) :
    (body.settle .deferred env normalize effectiveGasPrice).Yields
      (SpeculativeResult.RewardApart env.beneficiary) := by
  induction body with
  | read call continuation ih => exact ih
  | done outcome =>
    cases outcome with
    | error e => trivial
    | ok journal => exact rewardApart_apply _ journal

/-- **A reward is deferred only for a beneficiary outside the change set.** -/
theorem EvmBlock.rewardApart (blk : EvmBlock Err R) (t : Nat) :
    (blk.block.spec t).Yields (SpeculativeResult.RewardApart blk.block.beneficiary) := by
  simp only [EvmBlock.block, EvmTransaction.run]
  split
  · trivial
  · intro answer
    cases answer with
    | error e => trivial
    | ok value =>
      dsimp only
      split
      · trivial
      · simp only [if_true]
        exact rewardApart_settle _ _

end

/-! ## Waiting -/

/-- The next access of the first thread takes a lock the second one
holds. -/
def SchedulerState.WaitsFor (blk : Block Err R) (σ : SchedulerState W R B) :
    Thread W → Thread W → Prop :=
  Locks.WaitsFor (fun th l => l ∈ σ.wants blk th) σ.Holds

section

variable [DecidableEq W] {blk : Block Err R} {σ : SchedulerState W R B} {th : Thread W}
  {backing : B.State}

/-- Behind a lock that is held stands a thread that can move. -/
theorem step_of_isHeld (h : Reachable blk backing σ)
    (hapart : ∀ t, (blk.spec t).Yields (SpeculativeResult.RewardApart blk.beneficiary))
    {l : Lock} (hwants : l ∈ σ.wants blk th) (hl : σ.shared.isHeld l = true) :
    ∃ th', Relation.ReflTransGen (σ.WaitsFor blk) th th' ∧
      ∃ σ', step blk σ ⟨th', σ.choice th'⟩ = some σ' := by
  obtain ⟨th', hchain, ⟨l', hholds⟩, hfree⟩ :=
    (lockOrder_of_reach h).exists_free (holder_of_isHeld h) hwants hl
  -- the commit loop holds no lock
  have hcommit : th' = .commit → σ.CommitGoesOn := by
    rintro rfl
    cases hholds
  exact ⟨th', hchain.to_reflTransGen, step_of_free h hapart hcommit hfree hholds.not_returned⟩

/-- **No deadlock and no failed assertion.** In every reachable state of
every block no thread waits for itself, directly or through others, and a
chain of waits leads from every thread that has not returned to one that
can move, or to the commit loop inside a `ParallelStateCommit::commit`
that panics. -/
theorem scheduler_never_deadlocks (blk : EvmBlock Err R) (h : Reachable blk.block backing σ)
    (th : Thread W) :
    ¬ Relation.TransGen (σ.WaitsFor blk.block) th th ∧
      (σ.Returned th ∨ ∃ th', Relation.ReflTransGen (σ.WaitsFor blk.block) th th' ∧
        ((∃ σ', step blk.block σ ⟨th', σ.choice th'⟩ = some σ') ∨
          th' = .commit ∧ ¬ σ.CommitGoesOn)) := by
  refine ⟨(lockOrder_of_reach h).not_waitsFor_self, ?_⟩
  by_cases hth : σ.Returned th
  · exact .inl hth
  refine .inr ?_
  by_cases hfree : ∀ l ∈ σ.wants blk.block th, σ.shared.isHeld l = false
  · by_cases hcommit : th = .commit → σ.CommitGoesOn
    · exact ⟨th, .refl, .inl (step_of_free h blk.rewardApart hcommit hfree hth)⟩
    · exact ⟨th, .refl, .inr (Classical.not_imp.mp hcommit)⟩
  · obtain ⟨l, hl, hheld⟩ : ∃ l ∈ σ.wants blk.block th, σ.shared.isHeld l = true := by
      simpa using hfree
    obtain ⟨th', hchain, hstep⟩ := step_of_isHeld h blk.rewardApart hl hheld
    exact ⟨th', hchain, .inl hstep⟩

end

/-- Both workers are inside `TxDependency::add`. The one that blocks `2` on
`1` holds the state of `1`, the last lock that the other one needs to block
`1` on `0`; the finality thread waits for the other one to give back the
transaction. -/
theorem scheduler_never_deadlocks_adding :
    ∃ σ : SchedulerState Bool U256 (parallelState .oneContract),
      Reachable EvmBlock.counter.block (ParallelCacheState.dbBasic .oneContract {} 9).1 σ ∧
      σ.WaitsFor EvmBlock.counter.block .finality (.worker true) ∧
      σ.WaitsFor EvmBlock.counter.block (.worker true) (.worker false) ∧
      ¬ Relation.TransGen (σ.WaitsFor EvmBlock.counter.block) .finality .finality ∧
      ∃ th, Relation.ReflTransGen (σ.WaitsFor EvmBlock.counter.block) .finality th ∧
        ∃ σ', step EvmBlock.counter.block σ ⟨th, σ.choice th⟩ = some σ' := by
  have hrun : (Runs.exec (step EvmBlock.counter.block)
      (initial (ParallelCacheState.dbBasic .oneContract {} 9).1 :
        SchedulerState Bool U256 (parallelState .oneContract))
      (stepsOf (.worker true) 23 ++ stepsOf (.worker false) 46 ++ stepsOf (.worker true) 57 ++
        stepsOf (.worker false) 26 ++ stepsOf (.worker true) 14 ++ stepsOf (.worker false) 30 ++
        stepsOf .finality 9)).map (fun σ => (σ.commit.pc.isWaiting, decide
          (.tx 1 ∈ σ.wants EvmBlock.counter.block .finality ∧
            (σ.workers true).locked = some 1 ∧
            .dependent 1 ∈ σ.wants EvmBlock.counter.block (.worker true) ∧
            (σ.workers false).tokens.adding = some (1, .state)))) =
      some (true, true) := by decide +kernel
  obtain ⟨σ, hexec, hend⟩ := Option.map_eq_some_iff.mp hrun
  obtain ⟨hwaiting, hlocks⟩ := Prod.mk.inj hend
  obtain ⟨hfinality, hlocked, hadding, hholds⟩ := of_decide_eq_true hlocks
  have hreach := Runs.reach_of_exec hexec
  obtain ⟨hacyclic, hmoves⟩ := scheduler_never_deadlocks EvmBlock.counter hreach .finality
  refine ⟨σ, hreach, ⟨.tx 1, hfinality, hlocked⟩, ⟨.dependent 1, hadding, .inr hholds⟩,
    hacyclic, ?_⟩
  rcases hmoves with hreturned | ⟨th, hchain, hstep | ⟨-, hpanics⟩⟩
  · have hreturned : σ.finality.pc = .finished := hreturned
    rw [SchedulerState.wants, hreturned] at hfinality
    cases hfinality
  · exact ⟨th, hchain, hstep⟩
  · refine absurd (fun previous result pc happlying => ?_) hpanics
    rw [happlying] at hwaiting
    cases hwaiting

end Grevm
