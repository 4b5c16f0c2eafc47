/-
Grevm.Applied — the change sets behind a state of the backing database.

The database is shared: while one thread commits, the others read, and a
read may change the state too (it fills the cache). `Backing.Applies s
states pc s'` holds when `s'` came from `s` by reads and by commits of
exactly the change sets `states`, one after the other and in this order;
`pc` is where the last commit stands while it has not returned.
`Backing.Finds` is an account look-up made while no commit was under way.
-/
import Grevm.IncarnationDb

namespace Grevm

variable {Err : Type} {B : Backing Err}

/-- The state after one access of a call that reads, or after a whole one. -/
inductive Backing.Reads (B : Backing Err) (s : B.State) : B.State → Prop where
  | basic (pc : B.BasicPc) : B.Reads s (B.basicStep s pc).1
  | code (pc : B.CodePc) : B.Reads s (B.codeStep s pc).1
  | storage (pc : B.StoragePc) : B.Reads s (B.storageStep s pc).1
  | basicNow (address : Address) : B.Reads s (B.basicNow s address).1
  | codeNow (codeHash : B256) : B.Reads s (B.codeNow s codeHash).1
  | storageNow (address : Address) (index : U256) : B.Reads s (B.storageNow s address index).1

/-- From `s` the change sets `states` have been committed, each once and in
this order, and everything else was a read. -/
inductive Backing.Applies (B : Backing Err) (s : B.State) :
    List EvmState → Option B.CommitPc → B.State → Prop where
  | refl : B.Applies s [] none s
  | read {states pc s₁ s₂} (h : B.Applies s states pc s₁) (hread : B.Reads s₁ s₂) :
      B.Applies s states pc s₂
  | start {states s₁} (state : EvmState) (h : B.Applies s states none s₁) :
      B.Applies s (states ++ [state]) (some (B.commitStart state)) s₁
  | step {states pc c s₁ s₂ pc'} (h : B.Applies s states (some pc) s₁)
      (hstep : B.commitStep s₁ pc c = some (s₂, pc')) : B.Applies s states pc' s₂
  | now {states state s₁ s₂} (h : B.Applies s states none s₁)
      (hcommit : B.commitNow s₁ state = some s₂) : B.Applies s (states ++ [state]) none s₂

/-- A look-up of an account that stands at a program point, with exactly
`states` applied at each of its accesses so far. -/
inductive Backing.Looking (B : Backing Err) (s : B.State) (states : List EvmState)
    (address : Address) : B.BasicPc → Prop where
  | start : B.Looking s states address (B.basicStart address)
  | step {pc pc' s₁ s₂} (h : B.Looking s states address pc) (hs : B.Applies s states none s₁)
      (hstep : B.basicStep s₁ pc = (s₂, .inl pc')) : B.Looking s states address pc'

/-- Such a look-up returns the account. -/
def Backing.Finds (B : Backing Err) (s : B.State) (states : List EvmState) (address : Address)
    (info : Option AccountInfo) : Prop :=
  ∃ pc s₁ s₂, B.Looking s states address pc ∧ B.Applies s states none s₁ ∧
    B.basicStep s₁ pc = (s₂, .inr (.ok info))

/-- What a read of another thread leaves. -/
theorem Backing.Applies.of_reads {s s₁ s₂ : B.State} {states : List EvmState}
    {pc : Option B.CommitPc} (h : B.Applies s states pc s₁) (hs : s₂ = s₁ ∨ B.Reads s₁ s₂) :
    B.Applies s states pc s₂ := by
  rcases hs with rfl | hread
  · exact h
  · exact h.read hread

theorem Backing.reads_basicStep {s s' : B.State} {pc : B.BasicPc}
    {next : B.BasicPc ⊕ Except Err (Option AccountInfo)} (h : B.basicStep s pc = (s', next)) :
    B.Reads s s' := by
  have hread := Reads.basic (B := B) (s := s) pc
  rwa [h] at hread

/-- A state read of a transaction leaves the database as it is or reads
from it. -/
theorem callStep_reads {anchor : Option AccountInfo} {txid : Nat} {mv : MVMemory}
    {history : Nat → EntryState} {s s' : B.State} {db db' : IncarnationDb} {pc : CallPc B}
    {next : CallPc B ⊕ Except Err Value}
    (h : callStep anchor txid mv history s db pc = (s', db', next)) :
    s' = s ∨ B.Reads s s' := by
  cases callStep_sound h with
  | @basicMore _ pc _ _ hb | @basicFails _ pc _ _ hb | @basicLoads _ pc _ _ _ hb _ =>
    have hread := Backing.Reads.basic (s := s) pc
    rw [hb] at hread
    exact .inr hread
  | @codeMore _ _ pc _ _ hb | @codeFails _ _ pc _ _ hb | @codeLoads _ _ pc _ _ hb =>
    have hread := Backing.Reads.code (s := s) pc
    rw [hb] at hread
    exact .inr hread
  | @storageMore _ _ pc _ _ hb | @storageFails _ _ pc _ _ hb | @storageLoads _ _ pc _ _ hb =>
    have hread := Backing.Reads.storage (s := s) pc
    rw [hb] at hread
    exact .inr hread
  | _ => exact .inl rfl

end Grevm
