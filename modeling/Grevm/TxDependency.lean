/-
Grevm.TxDependency — retry scheduling of transactions.

`src/tx_dependency.rs`. A transaction is claimable when it is onboard and
has no blocker; reverse edges tell whom a transaction releases. A section
under one lock with one access to the shared index is one step. `remove`
and `key_tx` access the index between other accesses, and `add` waits for
one lock while it holds another, so their program points are explicit and
the locks they hold meanwhile are part of the state.
-/
import Grevm.IncarnationDb
import Mathlib.Logic.Function.Basic

namespace Grevm

structure DependentState where
  onboard : Bool := true
  dependency : Option Nat := none
  deriving DecidableEq

structure TxDependency where
  dependentState : Nat → DependentState := fun _ => {}
  affectTxs : Nat → List Nat := fun _ => []
  index : Nat := 0
  dependentLocked : Nat → Bool := fun _ => false
  affectLocked : Nat → Bool := fun _ => false

namespace TxDependency

@[simps] def setDependent (dep : TxDependency) (txid : Nat) (state : DependentState) : TxDependency :=
  { dep with dependentState := Function.update dep.dependentState txid state }

/-- `index.fetch_min(txid)`. -/
@[simps] def rewindIndex (dep : TxDependency) (txid : Nat) : TxDependency :=
  { dep with index := min dep.index txid }

@[simps] def lockDependent (dep : TxDependency) (txid : Nat) (locked : Bool) : TxDependency :=
  { dep with dependentLocked := Function.update dep.dependentLocked txid locked }

@[simps] def lockAffects (dep : TxDependency) (txid : Nat) (locked : Bool) : TxDependency :=
  { dep with affectLocked := Function.update dep.affectLocked txid locked }

/-- The locked section of `next`: claim the transaction at the index if
it is onboard without a blocker. -/
def claim (dep : TxDependency) (txid : Nat) : Option (TxDependency × Bool) :=
  if dep.dependentLocked txid then none
  else
    let state := dep.dependentState txid
    if state.onboard && state.dependency.isNone then
      some (dep.setDependent txid { state with onboard := false }, true)
    else some (dep, false)

/-- `commit(txid)`: release the successor of a committed transaction. -/
def commit (numTxs : Nat) (dep : TxDependency) (txid : Nat) : Option TxDependency :=
  let next := txid + 1
  if numTxs ≤ next then some dep
  else if dep.dependentLocked next then none
  else
    let state := dep.dependentState next
    if state.onboard then
      some ((dep.setDependent next { state with dependency := none }).rewindIndex next)
    else some dep

/-- `key_tx`, up to the reading of the committed cursor. The result says
whether the index has still to be rewound; the lock is then kept. -/
def keyTx (dep : TxDependency) (txid committed : Nat) : Option (TxDependency × Bool) :=
  if dep.dependentLocked txid then none
  else
    let state := dep.dependentState txid
    let state :=
      { onboard := true
        dependency := if txid > committed then some txid else state.dependency }
    let dep := dep.setDependent txid state
    if state.dependency.isNone then some (dep.lockDependent txid true, true)
    else some (dep, false)

/-- The end of `key_tx`: rewind the index and release the lock. -/
def keyTxRewind (dep : TxDependency) (txid : Nat) : TxDependency :=
  (dep.rewindIndex txid).lockDependent txid false

end TxDependency

/-- Program points of `add`: before its first lock, with the reverse edges
of the blocker locked, and with the blocker's state locked as well. -/
inductive AddPc where
  | start
  | depState
  | state
  deriving DecidableEq

/-- One step of `add(txid, dep_id)`: the next program point, or none when
the call returns. A blocker that does not precede the transaction fails
the assertion. -/
def addStep (dep : TxDependency) (txid : Nat) (depId : Option Nat) (pc : AddPc) :
    Option (TxDependency × Option AddPc) :=
  match depId, pc with
  | some depId, .start =>
    if txid ≤ depId then none
    else if dep.affectLocked depId then none
    else some (dep.lockAffects depId true, some .depState)
  | some depId, .depState =>
    if dep.dependentLocked depId then none
    else some (dep.lockDependent depId true, some .state)
  | some depId, .state =>
    if dep.dependentLocked txid then none
    else
      let depState := dep.dependentState depId
      let dep := dep.setDependent txid { onboard := true, dependency := some depId }
      let dep :=
        { dep with
          affectTxs :=
            Function.update dep.affectTxs depId ((dep.affectTxs depId).insert txid) }
      let dep := dep.setDependent depId { depState with onboard := true }
      let dep := if depState.dependency.isNone then dep.rewindIndex depId else dep
      -- the guards are dropped in the reverse order, when the call returns
      some ((dep.lockDependent depId false).lockAffects depId false, none)
  | none, _ =>
    if dep.dependentLocked txid then none
    else if (dep.dependentState txid).onboard then some (dep, none)
    else
      some ((dep.setDependent txid { onboard := true, dependency := none }).rewindIndex txid,
        none)

/-- Program points of `remove`: before the lock on the reverse edges,
between two dependents, and between clearing a dependent and rewinding
the index for it, with its lock held. -/
inductive RemovePc where
  | start
  | each (remaining : List Nat) (next : Option Nat)
  | rewind (txid : Nat) (remaining : List Nat) (next : Option Nat)
  deriving DecidableEq

/-- One step of `remove(txid, pop_next)`: the next program point or the
successor handed to the caller. -/
def removeStep (dep : TxDependency) (txid : Nat) (popNext : Bool) (pc : RemovePc) (c : Nat) :
    Option (TxDependency × (RemovePc ⊕ Option Nat)) :=
  match pc with
  | .start =>
    if dep.affectLocked txid then none
    else
      match dep.affectTxs txid with
      | [] => some (dep, .inr none)
      | affects =>
        some ({ dep with affectLocked := Function.update dep.affectLocked txid true },
          .inl (.each affects none))
  | .each [] next =>
    some ({ dep with
            affectTxs := Function.update dep.affectTxs txid []
            affectLocked := Function.update dep.affectLocked txid false }, .inr next)
  | .each remaining next =>
    (pick? remaining c).bind fun (tx, remaining) =>
      let dependent := dep.dependentState tx
      if dep.dependentLocked tx then none
      else if dependent.dependency = some txid then
        let cleared := { dependent with dependency := none }
        if dependent.onboard then
          if popNext && tx == txid + 1 && decide (tx < dep.index) then
            some (dep.setDependent tx { cleared with onboard := false },
              .inl (.each remaining (some tx)))
          else
            some ((dep.setDependent tx cleared).lockDependent tx true,
              .inl (.rewind tx remaining next))
        else some (dep.setDependent tx cleared, .inl (.each remaining next))
      else some (dep, .inl (.each remaining next))
  | .rewind tx remaining next =>
    some ((dep.rewindIndex tx).lockDependent tx false, .inl (.each remaining next))

end Grevm
