/-
Grevm.Bundle — the bundle of a block, prepared in parallel.

`src/bundle.rs` against revm's `apply_transitions_and_create_reverts`.
revm folds the transitions over the bundle in one loop; the parallel
version computes from every transition what the loop needs of it and
then updates the bundle in a second, serial loop. It does so only for a
bundle without state, contracts and reverts, and calls revm otherwise.

What a transition yields (`has_new_contract`, `present_bundle_account`,
`create_revert`, the merge into an occupied entry and the size hints) is
a parameter, `TransitionOps`. The two loops agree whenever the addresses
of the transitions are vacant in the bundle, which the keys of the
transition map keep up from one transition to the next
(`foldl_applyProcessed`).
-/
import Grevm.Model

namespace Grevm

variable {Transition Present Revert : Type}

/-! ## Bundles -/

/-- revm's operations on transitions, bundle accounts and reverts. -/
structure TransitionOps (Transition Present Revert : Type) where
  hasNewContract : Transition → Option (B256 × Bytecode)
  presentBundleAccount : Transition → Present
  createRevert : Transition → Option Revert
  /-- Merge a transition into an account that the bundle holds. -/
  updateAndCreateRevert : Present → Transition → Present × Option Revert
  presentSizeHint : Present → Nat
  revertSizeHint : Revert → Nat

inductive BundleRetention where
  | plainState
  | reverts
  deriving DecidableEq

def BundleRetention.includesReverts : BundleRetention → Bool
  | .plainState => false
  | .reverts => true

/-- revm's `BundleState`. -/
structure BundleState (Present Revert : Type) where
  state : AList (fun _ : Address => Present) := ∅
  contracts : AList (fun _ : B256 => Bytecode) := ∅
  reverts : List (List (Address × Revert)) := []
  stateSize : Nat := 0
  revertsSize : Nat := 0

/-- revm's `TransitionState`: the pending transition of each account. -/
abbrev TransitionMap (Transition : Type) := AList (fun _ : Address => Transition)

/-- A transition with its address, as the map yields it. -/
abbrev TransitionEntry (Transition : Type) := Sigma fun _ : Address => Transition

namespace BundleState

variable (ops : TransitionOps Transition Present Revert)

/-! ## The loop of revm -/

/-- The new contract of a transition, if it has one. -/
def insertContract (bundle : BundleState Present Revert) :
    Option (B256 × Bytecode) → BundleState Present Revert
  | some (hash, code) => { bundle with contracts := bundle.contracts.insert hash code }
  | none => bundle

/-- The entry of a transition's account: an occupied entry is merged,
a vacant one is filled if there is something to revert. -/
def updateEntry (bundle : BundleState Present Revert) (address : Address)
    (transition : Transition) : BundleState Present Revert × Option Revert :=
  match bundle.state.lookup address with
  | some present =>
    let (updated, revert) := ops.updateAndCreateRevert present transition
    ({ bundle with
        state := bundle.state.insert address updated
        stateSize := bundle.stateSize - ops.presentSizeHint present + ops.presentSizeHint updated },
      revert)
  | none =>
    let present := ops.presentBundleAccount transition
    match ops.createRevert transition with
    | some revert =>
      ({ bundle with
          state := bundle.state.insert address present
          stateSize := bundle.stateSize + ops.presentSizeHint present },
        some revert)
    | none => (bundle, none)

/-- One transition of `apply_transitions_and_create_reverts`, with the
reverts collected so far. -/
def applyTransition (includeReverts : Bool)
    (acc : BundleState Present Revert × List (Address × Revert))
    (entry : TransitionEntry Transition) : BundleState Present Revert × List (Address × Revert) :=
  let (bundle, reverts) := acc
  let bundle := bundle.insertContract (ops.hasNewContract entry.2)
  let (bundle, revert) := bundle.updateEntry ops entry.1 entry.2
  match revert.filter fun _ => includeReverts with
  | some revert =>
    ({ bundle with revertsSize := bundle.revertsSize + ops.revertSizeHint revert },
      reverts ++ [(entry.1, revert)])
  | none => (bundle, reverts)

def pushReverts (acc : BundleState Present Revert × List (Address × Revert)) :
    BundleState Present Revert :=
  { acc.1 with reverts := acc.1.reverts ++ [acc.2] }

/-- revm's function. -/
def applyTransitionsAndCreateReverts (bundle : BundleState Present Revert)
    (transitions : TransitionMap Transition) (retention : BundleRetention) :
    BundleState Present Revert :=
  pushReverts (transitions.entries.foldl (applyTransition ops retention.includesReverts) (bundle, []))

end BundleState

/-! ## The two phases of `src/bundle.rs` -/

structure ProcessedAccount (Present Revert : Type) where
  address : Address
  present : Present
  revert : Option Revert
  stateSize : Nat
  revertSize : Nat

structure ProcessedTransition (Present Revert : Type) where
  contract : Option (B256 × Bytecode)
  account : Option (ProcessedAccount Present Revert)

/-- The parallel phase: what one transition contributes, from the
transition alone. -/
def processTransition (ops : TransitionOps Transition Present Revert) (includeReverts : Bool)
    (entry : TransitionEntry Transition) : ProcessedTransition Present Revert :=
  let present := ops.presentBundleAccount entry.2
  { contract := ops.hasNewContract entry.2
    account := (ops.createRevert entry.2).map fun revert =>
      { address := entry.1
        present
        revert := if includeReverts then some revert else none
        stateSize := ops.presentSizeHint present
        revertSize := if includeReverts then ops.revertSizeHint revert else 0 } }

namespace BundleState

/-- The serial phase: one processed transition. -/
def applyProcessed (acc : BundleState Present Revert × List (Address × Revert))
    (processed : ProcessedTransition Present Revert) :
    BundleState Present Revert × List (Address × Revert) :=
  let (bundle, reverts) := acc
  let bundle := bundle.insertContract processed.contract
  match processed.account with
  | some account =>
    let bundle :=
      { bundle with
        stateSize := bundle.stateSize + account.stateSize
        revertsSize := bundle.revertsSize + account.revertSize
        state := bundle.state.insert account.address account.present }
    match account.revert with
    | some revert => (bundle, reverts ++ [(account.address, revert)])
    | none => (bundle, reverts)
  | none => (bundle, reverts)

/-- `parallel_apply_transitions_and_create_reverts`; the parallel map
keeps the order of its input. -/
def parallelApplyTransitionsAndCreateReverts (ops : TransitionOps Transition Present Revert)
    (bundle : BundleState Present Revert) (transitions : TransitionMap Transition)
    (retention : BundleRetention) : BundleState Present Revert :=
  if !bundle.state.entries.isEmpty || !bundle.contracts.entries.isEmpty ||
      !bundle.reverts.isEmpty then
    bundle.applyTransitionsAndCreateReverts ops transitions retention
  else
    let processed := transitions.entries.map (processTransition ops retention.includesReverts)
    pushReverts (processed.foldl applyProcessed (bundle, []))

/-! ## The phases agree with the loop -/

variable {ops : TransitionOps Transition Present Revert} {includeReverts : Bool}
  {bundle : BundleState Present Revert} {reverts : List (Address × Revert)}
  {entry : TransitionEntry Transition}

@[simp]
theorem insertContract_state (contract : Option (B256 × Bytecode)) :
    (bundle.insertContract contract).state = bundle.state := by
  cases contract <;> rfl

/-- On a vacant address a processed transition does what the transition
does. -/
theorem applyProcessed_processTransition (h : entry.1 ∉ bundle.state) :
    applyProcessed (bundle, reverts) (processTransition ops includeReverts entry) =
      applyTransition ops includeReverts (bundle, reverts) entry := by
  have hlookup : bundle.state.lookup entry.1 = none := AList.lookup_eq_none.mpr h
  simp only [applyProcessed, processTransition, applyTransition, updateEntry, insertContract_state,
    hlookup]
  cases ops.createRevert entry.2 with
  | none => rfl
  | some revert => cases includeReverts <;> rfl

/-- A transition fills no entry but that of its address. -/
theorem mem_of_mem_updateEntry {address key : Address} {transition : Transition}
    (hne : address ≠ key) (h : address ∈ (bundle.updateEntry ops key transition).1.state) :
    address ∈ bundle.state := by
  unfold updateEntry at h
  split at h
  · exact ((AList.mem_insert _).mp h).resolve_left hne
  · split at h
    · exact ((AList.mem_insert _).mp h).resolve_left hne
    · exact h

theorem mem_of_mem_applyTransition {address : Address} (hne : address ≠ entry.1)
    (h : address ∈ (applyTransition ops includeReverts (bundle, reverts) entry).1.state) :
    address ∈ bundle.state := by
  -- The reverts are collected beside the state.
  have hstate : (applyTransition ops includeReverts (bundle, reverts) entry).1.state =
      ((bundle.insertContract (ops.hasNewContract entry.2)).updateEntry ops entry.1
        entry.2).1.state := by
    simp only [applyTransition]
    split <;> rfl
  rw [hstate] at h
  simpa using mem_of_mem_updateEntry hne h

/-- The serial phase over processed transitions is the loop, when the
addresses are distinct and vacant. -/
theorem foldl_applyProcessed {entries : List (TransitionEntry Transition)}
    (hkeys : (entries.map Sigma.fst).Nodup)
    (hvacant : ∀ entry ∈ entries, entry.1 ∉ bundle.state) :
    (entries.map (processTransition ops includeReverts)).foldl applyProcessed (bundle, reverts) =
      entries.foldl (applyTransition ops includeReverts) (bundle, reverts) := by
  induction entries generalizing bundle reverts with
  | nil => rfl
  | cons entry entries ih =>
    obtain ⟨hnew, hkeys⟩ := List.nodup_cons.mp hkeys
    rw [List.map_cons, List.foldl_cons, List.foldl_cons,
      applyProcessed_processTransition (hvacant entry List.mem_cons_self)]
    have hother : ∀ other ∈ entries,
        other.1 ∉ (applyTransition ops includeReverts (bundle, reverts) entry).1.state := by
      intro other hother hmem
      have hne : other.1 ≠ entry.1 := fun heq => hnew (heq ▸ List.mem_map_of_mem hother)
      exact hvacant other (List.mem_cons_of_mem _ hother) (mem_of_mem_applyTransition hne hmem)
    exact ih hkeys hother

theorem parallelApply_eq (ops : TransitionOps Transition Present Revert)
    (bundle : BundleState Present Revert) (transitions : TransitionMap Transition)
    (retention : BundleRetention) :
    bundle.parallelApplyTransitionsAndCreateReverts ops transitions retention =
      bundle.applyTransitionsAndCreateReverts ops transitions retention := by
  unfold parallelApplyTransitionsAndCreateReverts
  split
  · rfl
  · rename_i hempty
    have hstate : bundle.state.entries = [] := by
      simp only [Bool.or_eq_true, not_or] at hempty
      simpa using hempty.1.1
    refine congrArg pushReverts (foldl_applyProcessed transitions.nodupKeys fun entry _ hmem => ?_)
    have hkeys : entry.1 ∈ bundle.state.keys := hmem
    simp [AList.keys, hstate] at hkeys

/-- **The parallel bundle is revm's bundle**: the same state, contracts,
reverts in the same order, and sizes. -/
theorem parallel_bundle_is_revm_bundle (ops : TransitionOps Transition Present Revert)
    (bundle : BundleState Present Revert) (transitions : TransitionMap Transition)
    (retention : BundleRetention) :
    let parallel := bundle.parallelApplyTransitionsAndCreateReverts ops transitions retention
    let serial := bundle.applyTransitionsAndCreateReverts ops transitions retention
    parallel.state = serial.state ∧ parallel.contracts = serial.contracts ∧
      parallel.reverts = serial.reverts ∧ parallel.stateSize = serial.stateSize ∧
      parallel.revertsSize = serial.revertsSize := by
  simp only [parallelApply_eq, and_self]

end BundleState

/-! ## Taking the bundle -/

/-- The fields of `ParallelState` that hold the changes of a block. -/
structure PendingBundle (Transition Present Revert : Type) where
  transitionState : Option (TransitionMap Transition)
  bundleState : BundleState Present Revert

namespace PendingBundle

variable (ops : TransitionOps Transition Present Revert)

/-- `take_bundle`. -/
def takeBundle (state : PendingBundle Transition Present Revert) :
    PendingBundle Transition Present Revert × BundleState Present Revert :=
  ({ state with bundleState := {} }, state.bundleState)

/-- `merge_transitions`: the transitions are taken and applied by revm's
loop. -/
def mergeTransitions (state : PendingBundle Transition Present Revert)
    (retention : BundleRetention) : PendingBundle Transition Present Revert :=
  match state.transitionState with
  | some transitions =>
    { transitionState := some ∅
      bundleState := state.bundleState.applyTransitionsAndCreateReverts ops transitions retention }
  | none => state

/-- `parallel_take_bundle`. -/
def parallelTakeBundle (state : PendingBundle Transition Present Revert)
    (retention : BundleRetention) :
    PendingBundle Transition Present Revert × BundleState Present Revert :=
  takeBundle
    (match state.transitionState with
    | some transitions =>
      { transitionState := some ∅
        bundleState :=
          state.bundleState.parallelApplyTransitionsAndCreateReverts ops transitions retention }
    | none => state)

/-- Taking the bundle in parallel is merging and taking it as revm
does. -/
theorem parallelTakeBundle_eq (state : PendingBundle Transition Present Revert)
    (retention : BundleRetention) :
    state.parallelTakeBundle ops retention = (state.mergeTransitions ops retention).takeBundle := by
  unfold parallelTakeBundle mergeTransitions
  cases state.transitionState with
  | none => rfl
  | some transitions => simp only [BundleState.parallelApply_eq]

end PendingBundle

end Grevm
