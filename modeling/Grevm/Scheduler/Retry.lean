/-
Grevm.Scheduler.Retry — no retry is lost.

A transaction that has to run again is handed from one mechanism of
`TxDependency` to the next: it is onboard and the index will reach it, a
worker has fetched its index, a worker has claimed it, or it waits for a
blocker that somebody is going to release. `Tokens` are the parts of such
a hand-over that a worker holds between two steps. `DepStep` says how
one step moves the tokens of a worker and the shared dependency state,
and `DepInv` is what every such step preserves: whoever waits, waits for a
live predecessor, and whoever is claimable will be reached.
-/
import Grevm.Locks
import Grevm.TxDependency

namespace Grevm

open Locks

/-- What a worker holds in the middle of a hand-over. -/
structure Tokens where
  /-- An index fetched and not yet looked at. -/
  fetched : Option Nat := none
  /-- A transaction claimed for execution. -/
  claim : Option Nat := none
  /-- A transaction the index is about to be rewound to. -/
  rewind : Option Nat := none
  /-- A transaction that is going to be requeued, or whose dependents
  are going to be released. -/
  release : Option Nat := none
  /-- The dependents still to be visited by `remove`. -/
  removing : Option (Nat × List Nat) := none
  /-- The blocker whose reverse edges `add` has locked. -/
  adding : Option (Nat × AddPc) := none

/-- The worker has the reverse edges of `d` locked. -/
def Tokens.Edges (T : Tokens) (d : Nat) : Prop :=
  (∃ remaining, T.removing = some (d, remaining)) ∨ ∃ pc, T.adding = some (d, pc)

theorem Tokens.not_edges {T : Tokens} (h : T.removing = none ∧ T.adding = none) (d : Nat) :
    ¬ T.Edges d := by
  simp [Tokens.Edges, h.1, h.2]

namespace RemovePc

def next : RemovePc → Option Nat
  | .start => none
  | .each _ next | .rewind _ _ next => next

/-- The tokens of a worker in `remove(txid)`. -/
def tokens (txid : Nat) : RemovePc → Tokens
  | .start => { release := some txid }
  | .each remaining next =>
    { claim := next, release := some txid, removing := some (txid, remaining) }
  | .rewind tx remaining next =>
    { claim := next, rewind := some tx, release := some txid,
      removing := some (txid, remaining) }

end RemovePc

/-- What a worker in `add` holds. -/
def AddPc.holding (blocker : Option Nat) : AddPc → Option (Nat × AddPc)
  | .start => none
  | pc => blocker.map fun d => (d, pc)

/-- One step of a worker: its tokens and the dependency state before and
after. `committed` is the committed cursor, and `released` are the
transactions that another worker is going to release. -/
inductive DepStep (numTxs committed : Nat) (released : Nat → Prop) :
    Tokens → TxDependency → Tokens → TxDependency → Prop where
  | same {T : Tokens} {dep : TxDependency} : DepStep numTxs committed released T dep T dep
  | fetch {dep : TxDependency} :
      DepStep numTxs committed released {} dep { fetched := some dep.index }
        { dep with index := dep.index + 1 }
  | fetchPast {dep : TxDependency} (h : numTxs ≤ dep.index) :
      DepStep numTxs committed released {} dep {} { dep with index := dep.index + 1 }
  | claim {dep dep' : TxDependency} {t : Nat} (h : dep.claim t = some (dep', true)) :
      DepStep numTxs committed released { fetched := some t } dep { claim := some t } dep'
  | missed {dep dep' : TxDependency} {t : Nat} (h : dep.claim t = some (dep', false)) :
      DepStep numTxs committed released { fetched := some t } dep {} dep'
  | start {dep : TxDependency} {t : Nat} :
      DepStep numTxs committed released { claim := some t } dep { release := some t } dep
  | drop {dep : TxDependency} {t : Nat} (h : released t) :
      DepStep numTxs committed released { claim := some t } dep {} dep
  | add {dep dep' : TxDependency} {release : Option Nat} {t : Nat} {blocker : Option Nat}
      {pc pc' : AddPc} (h : addStep dep t blocker pc = some (dep', some pc')) :
      DepStep numTxs committed released { release, adding := pc.holding blocker } dep
        { release, adding := pc'.holding blocker } dep'
  | added {dep dep' : TxDependency} {release : Option Nat} {t : Nat} {blocker : Option Nat}
      {pc : AddPc} (hrelease : release = some t ∨ release = none)
      (hbelow : ∀ d, blocker = some d → d < t)
      (h : addStep dep t blocker pc = some (dep', none)) :
      DepStep numTxs committed released { release, adding := pc.holding blocker } dep {} dep'
  | remove {dep dep' : TxDependency} {d c : Nat} {popNext : Bool} {pc pc' : RemovePc}
      (hnext : pc.next = none ∨ pc.next = some (d + 1))
      (h : removeStep dep d popNext pc c = some (dep', .inl pc')) :
      DepStep numTxs committed released (pc.tokens d) dep (pc'.tokens d) dep'
  | removed {dep dep' : TxDependency} {d c : Nat} {popNext : Bool} {pc : RemovePc}
      {next : Option Nat} (h : removeStep dep d popNext pc c = some (dep', .inr next)) :
      DepStep numTxs committed released (pc.tokens d) dep { claim := next } dep'
  | key {dep dep' : TxDependency} {t : Nat}
      (h : dep.keyTx t committed = some (dep', true)) :
      DepStep numTxs committed released { release := some t } dep { rewind := some t } dep'
  | keyBehind {dep dep' : TxDependency} {t : Nat}
      (h : dep.keyTx t committed = some (dep', false)) :
      DepStep numTxs committed released { release := some t } dep {} dep'
  | keyRewind {dep : TxDependency} {t : Nat} :
      DepStep numTxs committed released { rewind := some t } dep {} (dep.keyTxRewind t)

/-! ## What the operations do -/

namespace TxDependency

variable {dep dep' : TxDependency} {t d : Nat}

theorem claim_eq {claimed : Bool} (h : dep.claim t = some (dep', claimed)) :
    (claimed = true ∧ (dep.dependentState t).onboard = true ∧
      (dep.dependentState t).dependency = none ∧
      dep' = dep.setDependent t { dep.dependentState t with onboard := false }) ∨
    (claimed = false ∧ dep' = dep ∧
      ¬ ((dep.dependentState t).onboard = true ∧ (dep.dependentState t).dependency = none)) := by
  unfold claim at h
  split at h
  · cases h
  · dsimp only at h
    split at h <;> cases h
    · rename_i hc
      simp only [Bool.and_eq_true, Option.isNone_iff_eq_none] at hc
      exact .inl ⟨rfl, hc.1, hc.2, rfl⟩
    · rename_i hc
      simp only [Bool.and_eq_true, Option.isNone_iff_eq_none] at hc
      exact .inr ⟨rfl, rfl, hc⟩

theorem keyTx_eq {committed : Nat} {rewind : Bool}
    (h : dep.keyTx t committed = some (dep', rewind)) :
    ∃ dependency,
      (dependency = some t ∧ committed < t ∨ dependency = (dep.dependentState t).dependency) ∧
      (rewind = true ↔ dependency = none) ∧
      dep'.dependentState = Function.update dep.dependentState t ⟨true, dependency⟩ ∧
      dep'.affectTxs = dep.affectTxs ∧ dep'.affectLocked = dep.affectLocked ∧
      dep'.index = dep.index := by
  unfold keyTx at h
  split at h
  · cases h
  · dsimp only at h
    generalize hdep : (if t > committed then some t else (dep.dependentState t).dependency)
      = dependency at h
    refine ⟨dependency, ?_, ?_⟩
    · rw [← hdep]
      split
      · exact .inl ⟨rfl, ‹_›⟩
      · exact .inr rfl
    · split at h <;> cases h
      · rename_i hn
        exact ⟨by simpa using hn, rfl, rfl, rfl, rfl⟩
      · rename_i hn
        exact ⟨by simpa using hn, rfl, rfl, rfl, rfl⟩

theorem keyTx_onboard {committed : Nat} {rewind : Bool}
    (h : dep.keyTx t committed = some (dep', rewind)) :
    (dep'.dependentState t).onboard = true := by
  obtain ⟨_, -, -, hstates, -⟩ := keyTx_eq h
  simp [hstates]

theorem commit_eq {numTxs : Nat} (h : dep.commit numTxs t = some dep') :
    dep' = dep ∧ (numTxs ≤ t + 1 ∨ (dep.dependentState (t + 1)).onboard = false) ∨
    (dep.dependentState (t + 1)).onboard = true ∧
      dep' = (dep.setDependent (t + 1) ⟨true, none⟩).rewindIndex (t + 1) := by
  simp only [commit] at h
  split at h
  · cases h
    exact .inl ⟨rfl, .inl ‹_›⟩
  · split at h
    · cases h
    · split at h <;> cases h
      · rename_i hb
        exact .inr ⟨hb, by rw [hb]⟩
      · exact .inl ⟨rfl, .inr (Bool.eq_false_iff.mpr ‹_›)⟩

end TxDependency

/-- `t` has been put behind its blocker `d`, and the locks of `d` are
free again. -/
structure Linked (dep : TxDependency) (t d : Nat) (dep' : TxDependency) : Prop where
  states : dep'.dependentState = Function.update
    (Function.update dep.dependentState t ⟨true, some d⟩) d
    { dep.dependentState d with onboard := true }
  affects : dep'.affectTxs = Function.update dep.affectTxs d ((dep.affectTxs d).insert t)
  affectLocked : dep'.affectLocked = Function.update dep.affectLocked d false
  dependentLocked : dep'.dependentLocked = Function.update dep.dependentLocked d false
  index : dep'.index = dep.index ∨ dep'.index = min dep.index d
  rewound : (dep.dependentState d).dependency = none → dep'.index ≤ d

/-- The steps of `add(t, blocker)`. -/
inductive AddStep (dep : TxDependency) (t : Nat) :
    Option Nat → AddPc → TxDependency → Option AddPc → Prop where
  | lockEdges {d : Nat} (hlt : d < t) (h : dep.affectLocked d = false) :
      AddStep dep t (some d) .start (dep.lockAffects d true) (some .depState)
  | lockBlocker {d : Nat} (h : dep.dependentLocked d = false) :
      AddStep dep t (some d) .depState (dep.lockDependent d true) (some .state)
  | link {d : Nat} {dep' : TxDependency} (h : Linked dep t d dep') :
      AddStep dep t (some d) .state dep' none
  | keep {pc : AddPc} (hb : (dep.dependentState t).onboard = true) :
      AddStep dep t none pc dep none
  | release {pc : AddPc} (hb : (dep.dependentState t).onboard = false) :
      AddStep dep t none pc ((dep.setDependent t ⟨true, none⟩).rewindIndex t) none

theorem addStep_sound {dep dep' : TxDependency} {t : Nat} {blocker : Option Nat} {pc : AddPc}
    {res : Option AddPc} (h : addStep dep t blocker pc = some (dep', res)) :
    AddStep dep t blocker pc dep' res := by
  cases blocker with
  | none =>
    simp only [addStep] at h
    split at h
    · cases h
    · split at h <;> cases h
      · exact .keep ‹_›
      · exact .release (Bool.eq_false_iff.mpr ‹_›)
  | some d =>
    cases pc with
    | start =>
      simp only [addStep] at h
      split at h
      · cases h
      · split at h <;> cases h
        exact .lockEdges (Nat.lt_of_not_le ‹_›) (Bool.eq_false_iff.mpr ‹_›)
    | depState =>
      simp only [addStep] at h
      split at h <;> cases h
      exact .lockBlocker (Bool.eq_false_iff.mpr ‹_›)
    | state =>
      simp only [addStep] at h
      split at h
      · cases h
      · cases h
        refine .link ?_
        split
        · exact ⟨rfl, rfl, rfl, rfl, .inr rfl, fun _ => Nat.min_le_right _ _⟩
        · rename_i hsome
          refine ⟨rfl, rfl, rfl, rfl, .inl rfl, fun hnone => ?_⟩
          simp [hnone] at hsome

section

variable {dep dep' : TxDependency} {t : Nat} {blocker : Option Nat} {pc pc' : AddPc}

theorem Linked.index_le {d : Nat} (h : Linked dep t d dep') : dep'.index ≤ dep.index := by
  rcases h.index with heq | heq
  · exact heq.le
  · exact heq.le.trans (Nat.min_le_left _ _)

/-- Until its last step `add` changes nothing but locks. -/
theorem AddStep.frame (h : AddStep dep t blocker pc dep' (some pc')) :
    dep'.dependentState = dep.dependentState ∧ dep'.affectTxs = dep.affectTxs ∧
      dep'.index = dep.index := by
  cases h <;> exact ⟨rfl, rfl, rfl⟩

/-- Whoever is onboard stays there, and the transaction of the call and
its blocker are when it returns. -/
theorem AddStep.onboard (h : AddStep dep t blocker pc dep' none) {x : Nat}
    (hx : x = t ∨ blocker = some x ∨ (dep.dependentState x).onboard = true) :
    (dep'.dependentState x).onboard = true := by
  cases h with
  | keep hb =>
    rcases hx with rfl | hx | hx
    · exact hb
    · cases hx
    · exact hx
  | release hb =>
    by_cases heq : x = t
    · simp [heq]
    · simpa [heq] using hx
  | @link d _ hlink =>
    rw [hlink.states]
    by_cases h₁ : x = d
    · simp [h₁]
    · by_cases h₂ : x = t
      · simp [h₂, h₂ ▸ h₁]
      · have hold : (dep.dependentState x).onboard = true := by simpa [h₂, Ne.symm h₁] using hx
        simpa [h₁, h₂] using hold

end

/-- The steps of `remove(d)`. -/
inductive RemoveStep (dep : TxDependency) (d : Nat) (popNext : Bool) :
    RemovePc → TxDependency → RemovePc ⊕ Option Nat → Prop where
  | empty (h : dep.affectTxs d = []) : RemoveStep dep d popNext .start dep (.inr none)
  | start (h : dep.affectLocked d = false) :
      RemoveStep dep d popNext .start
        { dep with affectLocked := Function.update dep.affectLocked d true }
        (.inl (.each (dep.affectTxs d) none))
  | finish {next : Option Nat} :
      RemoveStep dep d popNext (.each [] next)
        { dep with
          affectTxs := Function.update dep.affectTxs d []
          affectLocked := Function.update dep.affectLocked d false } (.inr next)
  | pop {remaining rest : List Nat} {next : Option Nat} {tx c : Nat}
      (hp : pick? remaining c = some (tx, rest))
      (hd : (dep.dependentState tx).dependency = some d) (htx : tx = d + 1)
      (hpop : popNext = true) :
      RemoveStep dep d popNext (.each remaining next)
        (dep.setDependent tx ⟨false, none⟩) (.inl (.each rest (some tx)))
  | clear {remaining rest : List Nat} {next : Option Nat} {tx c : Nat}
      (hp : pick? remaining c = some (tx, rest))
      (hd : (dep.dependentState tx).dependency = some d)
      (hb : (dep.dependentState tx).onboard = true) :
      RemoveStep dep d popNext (.each remaining next)
        ((dep.setDependent tx ⟨true, none⟩).lockDependent tx true) (.inl (.rewind tx rest next))
  | clearOff {remaining rest : List Nat} {next : Option Nat} {tx c : Nat}
      (hp : pick? remaining c = some (tx, rest))
      (hd : (dep.dependentState tx).dependency = some d)
      (hb : (dep.dependentState tx).onboard = false) :
      RemoveStep dep d popNext (.each remaining next)
        (dep.setDependent tx ⟨false, none⟩) (.inl (.each rest next))
  | skip {remaining rest : List Nat} {next : Option Nat} {tx c : Nat}
      (hp : pick? remaining c = some (tx, rest))
      (hd : (dep.dependentState tx).dependency ≠ some d) :
      RemoveStep dep d popNext (.each remaining next) dep (.inl (.each rest next))
  | rewind {remaining : List Nat} {next : Option Nat} {tx : Nat} :
      RemoveStep dep d popNext (.rewind tx remaining next)
        ((dep.rewindIndex tx).lockDependent tx false) (.inl (.each remaining next))

theorem removeStep_sound {dep dep' : TxDependency} {d c : Nat} {popNext : Bool} {pc : RemovePc}
    {res : RemovePc ⊕ Option Nat} (h : removeStep dep d popNext pc c = some (dep', res)) :
    RemoveStep dep d popNext pc dep' res := by
  cases pc with
  | start =>
    simp only [removeStep] at h
    split at h
    · cases h
    · rename_i hl
      split at h <;> cases h
      · exact .empty ‹_›
      · exact .start (Bool.eq_false_iff.mpr hl)
  | rewind tx remaining next =>
    cases h
    exact .rewind
  | each remaining next =>
    cases remaining with
    | nil =>
      cases h
      exact .finish
    | cons head tail =>
      simp only [removeStep] at h
      obtain ⟨⟨tx, rest⟩, hp, h⟩ := Option.bind_eq_some_iff.mp h
      dsimp only at h
      split at h
      · cases h
      · split at h
        · rename_i hd
          split at h
          · rename_i hb
            split at h <;> cases h
            · rename_i hpop
              simp only [Bool.and_eq_true, beq_iff_eq] at hpop
              exact .pop hp hd hpop.1.2 hpop.1.1
            · rw [hb]
              exact .clear hp hd hb
          · rename_i hb
            have hb : (dep.dependentState tx).onboard = false := Bool.eq_false_iff.mpr hb
            cases h
            rw [hb]
            exact .clearOff hp hd hb
        · cases h
          exact .skip hp ‹_›

/-! ## The invariant -/

/-- Somebody is going to release the dependents of `d`, or to run it
again. -/
def Live {W : Type} (dep : TxDependency) (τ : W → Tokens) (d : Nat) : Prop :=
  (dep.dependentState d).onboard = true ∨
    ∃ w, (τ w).claim = some d ∨ (τ w).release = some d

/-- `t` is onboard, or a worker has claimed it. -/
def Requeued {W : Type} (dep : TxDependency) (τ : W → Tokens) (t : Nat) : Prop :=
  (dep.dependentState t).onboard = true ∨ ∃ w, (τ w).claim = some t

/-- The index is going to reach `t`, or has just reached it. -/
def Reached {W : Type} (dep : TxDependency) (τ : W → Tokens) (t : Nat) : Prop :=
  dep.index ≤ t ∨ ∃ w, (τ w).fetched = some t ∨ (τ w).rewind = some t

structure DepInv {W : Type} (numTxs : Nat) (dep : TxDependency) (τ : W → Tokens) : Prop where
  /-- Whoever has a blocker is onboard. -/
  onboard : ∀ t d, (dep.dependentState t).dependency = some d →
    (dep.dependentState t).onboard = true
  /-- A blocker other than the commit barrier is a predecessor that
  knows its dependent. -/
  edge : ∀ t d, (dep.dependentState t).dependency = some d → d ≠ t →
    d < t ∧ t ∈ dep.affectTxs d
  /-- Whoever is claimable will be reached. -/
  reached : ∀ t, t < numTxs → (dep.dependentState t).onboard = true →
    (dep.dependentState t).dependency = none → Reached dep τ t
  /-- `remove(d)` has yet to visit every dependent of `d`. -/
  removing : ∀ w d remaining, (τ w).removing = some (d, remaining) →
    ∀ t, (dep.dependentState t).dependency = some d → d ≠ t → t ∈ remaining
  /-- `remove` and `add` have the reverse edges for themselves. -/
  edges : Exclusive dep.affectLocked fun w => (τ w).Edges
  /-- A blocker is live. -/
  live : ∀ t d, (dep.dependentState t).dependency = some d → d ≠ t → Live dep τ d

section

variable {W : Type} [DecidableEq W] {numTxs : Nat} {dep dep' : TxDependency} {τ : W → Tokens}
  {w : W} {T' : Tokens}

omit [DecidableEq W] in
theorem Live.of_claim {d : Nat} (hw : (τ w).claim = some d) : Live dep τ d := .inr ⟨w, .inl hw⟩

omit [DecidableEq W] in
theorem Live.of_release {d : Nat} (hw : (τ w).release = some d) : Live dep τ d :=
  .inr ⟨w, .inr hw⟩

/-- What the other workers hold stays held. -/
theorem Live.update {d : Nat} (h : Live dep τ d)
    (honboard : (dep.dependentState d).onboard = true →
      Live dep' (Function.update τ w T') d)
    (hw : (τ w).claim = some d ∨ (τ w).release = some d →
      Live dep' (Function.update τ w T') d) : Live dep' (Function.update τ w T') d := by
  rcases h with hb | ⟨w', hw'⟩
  · exact honboard hb
  · by_cases heq : w' = w
    · subst heq
      exact hw hw'
    · exact .inr ⟨w', by simpa [heq] using hw'⟩

theorem Requeued.update {t : Nat} (h : Requeued dep τ t)
    (honboard : (dep.dependentState t).onboard = true →
      Requeued dep' (Function.update τ w T') t)
    (hw : (τ w).claim = some t → Requeued dep' (Function.update τ w T') t) :
    Requeued dep' (Function.update τ w T') t := by
  rcases h with hb | ⟨w', hw'⟩
  · exact honboard hb
  · by_cases heq : w' = w
    · subst heq
      exact hw hw'
    · exact .inr ⟨w', by simpa [heq] using hw'⟩

theorem Reached.update {t : Nat} (h : Reached dep τ t)
    (hindex : dep.index ≤ t → Reached dep' (Function.update τ w T') t)
    (hw : (τ w).fetched = some t ∨ (τ w).rewind = some t →
      Reached dep' (Function.update τ w T') t) : Reached dep' (Function.update τ w T') t := by
  rcases h with hi | ⟨w', hw'⟩
  · exact hindex hi
  · by_cases heq : w' = w
    · subst heq
      exact hw hw'
    · exact .inr ⟨w', by simpa [heq] using hw'⟩

/-- `remove` tokens of the others stay, and the moving worker has none
left, or fewer dependents to visit. -/
theorem removing_update {d : Nat} {remaining : List Nat} {w' : W}
    (h : (Function.update τ w T' w').removing = some (d, remaining)) :
    w' = w ∧ T'.removing = some (d, remaining) ∨
      w' ≠ w ∧ (τ w').removing = some (d, remaining) := by
  by_cases heq : w' = w
  · subst heq
    exact .inl ⟨rfl, by simpa using h⟩
  · exact .inr ⟨heq, by simpa [heq] using h⟩

/-- The moving worker takes free reverse edges and lets go of its own. -/
theorem DepInv.edges_update (h : DepInv numTxs dep τ)
    (htake : ∀ d, T'.Edges d → dep'.affectLocked d = true ∧
      ((τ w).Edges d ∨ dep.affectLocked d = false))
    (hkeep : ∀ d, dep.affectLocked d = true → dep'.affectLocked d = true ∨ (τ w).Edges d) :
    Exclusive dep'.affectLocked fun w' => (Function.update τ w T' w').Edges :=
  h.edges.step w (fun w' hne d hd => by simpa only [Function.update_of_ne hne] using hd)
    (fun d hd => htake d (by simpa only [Function.update_self] using hd)) hkeep

/-- A step that leaves the locks of the reverse edges alone. -/
theorem DepInv.edges_same (h : DepInv numTxs dep τ) (hT : ∀ d, T'.Edges d → (τ w).Edges d)
    (hlock : dep'.affectLocked = dep.affectLocked) :
    Exclusive dep'.affectLocked fun w' => (Function.update τ w T' w').Edges :=
  h.edges_update (fun d hd => ⟨hlock ▸ h.edges.taken w d (hT d hd), .inl (hT d hd)⟩)
    fun _ hd => .inl (hlock ▸ hd)

theorem DepInv.edges_none (h : DepInv numTxs dep τ) (hT : T'.removing = none ∧ T'.adding = none)
    (hlock : dep'.affectLocked = dep.affectLocked) :
    Exclusive dep'.affectLocked fun w' => (Function.update τ w T' w').Edges :=
  h.edges_same (fun d hd => absurd hd (Tokens.not_edges hT d)) hlock

/-- A step that visits no dependent: a blocker is set by `add` alone, and
`add` has its reverse edges for itself. -/
theorem DepInv.removing_update (h : DepInv numTxs dep τ) (hT : T'.removing = none)
    (hdep : ∀ t d, (dep'.dependentState t).dependency = some d → d ≠ t →
      (dep.dependentState t).dependency = some d ∨ ∃ pc, (τ w).adding = some (d, pc)) :
    ∀ w' d remaining, (Function.update τ w T' w').removing = some (d, remaining) →
      ∀ t, (dep'.dependentState t).dependency = some d → d ≠ t → t ∈ remaining := by
  intro w' d remaining hw t ht hne
  rcases Grevm.removing_update hw with ⟨-, hr⟩ | ⟨hww, hr⟩
  · rw [hT] at hr
    cases hr
  · rcases hdep t d ht hne with hold | hadding
    · exact h.removing w' d remaining hr t hold hne
    · exact absurd (h.edges.unique w' w d (.inl ⟨remaining, hr⟩) (.inr hadding)) hww

/-! ## Every step preserves it -/

/-- Tokens move and the shared state stays. -/
theorem DepInv.move (h : DepInv numTxs dep τ) (hT : T'.removing = none ∧ T'.adding = none)
    (hreached : ∀ t, (dep.dependentState t).onboard = true →
      (dep.dependentState t).dependency = none →
      (τ w).fetched = some t ∨ (τ w).rewind = some t →
        Reached dep (Function.update τ w T') t)
    (hlive : ∀ t d, (dep.dependentState t).dependency = some d → d ≠ t →
      (τ w).claim = some d ∨ (τ w).release = some d → Live dep (Function.update τ w T') d) :
    DepInv numTxs dep (Function.update τ w T') where
  onboard := h.onboard
  edge := h.edge
  reached t ht hb hn := (h.reached t ht hb hn).update .inl (hreached t hb hn)
  removing := h.removing_update hT.1 fun _ _ ht _ => .inl ht
  edges := h.edges_none hT rfl
  live t d ht hne := (h.live t d ht hne).update .inl (hlive t d ht hne)

/-- The index advances past the transaction it was at. -/
theorem DepInv.advance (h : DepInv numTxs dep τ) (hw : τ w = {})
    (hT : T'.removing = none ∧ T'.adding = none)
    (hat : ∀ t, t < numTxs → dep.index = t → T'.fetched = some t) :
    DepInv numTxs { dep with index := dep.index + 1 } (Function.update τ w T') where
  onboard := h.onboard
  edge := h.edge
  reached t ht hb hn := by
    refine (h.reached t ht hb hn).update (fun hi => ?_) (by simp [hw])
    rcases Nat.eq_or_lt_of_le hi with heq | hlt
    · exact .inr ⟨w, .inl (by simpa using hat t ht heq)⟩
    · exact .inl hlt
  removing := h.removing_update hT.1 fun _ _ ht _ => .inl ht
  edges := h.edges_none hT rfl
  live t d ht hne := (h.live t d ht hne).update .inl (by simp [hw])

/-- The transaction at a fetched index is claimed. -/
theorem DepInv.claim {t : Nat} (h : DepInv numTxs dep τ) (hw : τ w = { fetched := some t })
    (hn : (dep.dependentState t).dependency = none) :
    DepInv numTxs (dep.setDependent t { dep.dependentState t with onboard := false })
      (Function.update τ w { claim := some t }) := by
  have hdep : ∀ t' d, ((dep.setDependent t { dep.dependentState t with
      onboard := false }).dependentState t').dependency = some d →
      (dep.dependentState t').dependency = some d ∧ t' ≠ t := by
    intro t' d hd
    by_cases heq : t' = t
    · subst heq
      simp [hn] at hd
    · exact ⟨by simpa [heq] using hd, heq⟩
  refine ⟨fun t' d hd => ?_, fun t' d hd => h.edge t' d (hdep t' d hd).1, fun t' ht' hb hn' => ?_,
    h.removing_update rfl fun t' d hd _ => .inl (hdep t' d hd).1, h.edges_none ⟨rfl, rfl⟩ rfl,
    fun t' d hd hne => ?_⟩
  · obtain ⟨hold, hne⟩ := hdep t' d hd
    simpa [hne] using h.onboard t' d hold
  · have hne : t' ≠ t := by
      rintro rfl
      simp at hb
    simp only [TxDependency.setDependent_dependentState, Function.update_of_ne hne] at hb hn'
    refine (h.reached t' ht' hb hn').update .inl fun htok => ?_
    simp [hw, hne.symm] at htok
  · refine (h.live t' d (hdep t' d hd).1 hne).update (fun hb => ?_) (by simp [hw])
    by_cases heq : d = t
    · subst heq
      exact .of_claim (w := w) (by simp)
    · exact .inl (by simpa [heq] using hb)

/-- `add` takes the locks of its blocker. -/
theorem DepInv.add {t : Nat} {blocker release : Option Nat} {pc pc' : AddPc}
    (h : DepInv numTxs dep τ) (hw : τ w = { release, adding := pc.holding blocker })
    (ha : AddStep dep t blocker pc dep' (some pc')) :
    DepInv numTxs dep' (Function.update τ w { release, adding := pc'.holding blocker }) := by
  obtain ⟨hstates, haffect, hindex⟩ := ha.frame
  refine ⟨fun t d hd => ?_, fun t d hd hne => ?_, fun t ht hb hn => ?_,
    h.removing_update rfl fun t d hd _ => .inl (hstates ▸ hd), ?_, fun t d hd hne => ?_⟩
  · rw [hstates] at hd ⊢
    exact h.onboard t d hd
  · rw [hstates] at hd
    rw [haffect]
    exact h.edge t d hd hne
  · rw [hstates] at hb hn
    exact (h.reached t ht hb hn).update (fun hi => .inl (hindex ▸ hi)) (by simp [hw])
  · cases ha with
    | @lockEdges d hlt hfree =>
      refine h.edges_update (fun d' hd' => ?_) fun d' hd' => .inl ?_
      · obtain rfl : d = d' := by simpa [Tokens.Edges, AddPc.holding] using hd'
        exact ⟨by simp, .inr hfree⟩
      · by_cases heq : d' = d
        · simp [heq]
        · simpa [heq] using hd'
    | lockBlocker =>
      refine h.edges_same (fun d' hd' => ?_) rfl
      rw [hw]
      simpa [Tokens.Edges, AddPc.holding] using hd'
  · rw [hstates] at hd
    refine (h.live t d hd hne).update (fun hb => .inl (hstates ▸ hb)) fun htok => ?_
    exact .of_release (w := w) (by simpa [hw] using htok)

/-- `add` returns without a blocker: the transaction is onboard. -/
theorem DepInv.released {t : Nat} {release : Option Nat} (h : DepInv numTxs dep τ)
    (hw : τ w = { release }) (hrelease : release = some t ∨ release = none)
    (hb : (dep.dependentState t).onboard = false) :
    DepInv numTxs ((dep.setDependent t ⟨true, none⟩).rewindIndex t)
      (Function.update τ w {}) := by
  have hdep : ∀ t' d, (((dep.setDependent t ⟨true, none⟩).rewindIndex t).dependentState
      t').dependency = some d → (dep.dependentState t').dependency = some d ∧ t' ≠ t := by
    intro t' d hd
    by_cases heq : t' = t
    · subst heq
      simp at hd
    · exact ⟨by simpa [heq] using hd, heq⟩
  have hlive : ∀ d, (dep.dependentState d).onboard = true ∨ d = t →
      Live ((dep.setDependent t ⟨true, none⟩).rewindIndex t) (Function.update τ w {}) d := by
    intro d hd
    refine .inl ?_
    by_cases heq : d = t
    · simp [heq]
    · simpa [heq] using hd
  refine ⟨fun t' d hd => ?_, fun t' d hd => h.edge t' d (hdep t' d hd).1,
    fun t' ht' hb' hn' => ?_, h.removing_update rfl fun t' d hd _ => .inl (hdep t' d hd).1,
    h.edges_none ⟨rfl, rfl⟩ rfl, fun t' d hd hne => ?_⟩
  · obtain ⟨hold, hne⟩ := hdep t' d hd
    simpa [hne] using h.onboard t' d hold
  · by_cases heq : t' = t
    · subst heq
      exact .inl (Nat.min_le_right _ _)
    · simp only [TxDependency.rewindIndex_dependentState,
        TxDependency.setDependent_dependentState, Function.update_of_ne heq] at hb' hn'
      refine (h.reached t' ht' hb' hn').update (fun hi => ?_) (by simp [hw])
      exact .inl (Nat.le_trans (Nat.min_le_left _ _) hi)
  · refine (h.live t' d (hdep t' d hd).1 hne).update (fun hb' => hlive d (.inl hb')) fun htok =>
      hlive d (.inr ?_)
    rcases hrelease with rfl | rfl <;> simp_all

/-- `add` returns with a blocker: the transaction waits for it, and the
blocker is onboard. -/
theorem DepInv.linked {t d : Nat} {release : Option Nat} (h : DepInv numTxs dep τ)
    (hw : τ w = { release, adding := some (d, .state) })
    (hrelease : release = some t ∨ release = none) (hlt : d < t) (hlink : Linked dep t d dep') :
    DepInv numTxs dep' (Function.update τ w {}) := by
  have hne : d ≠ t := hlt.ne
  have hself : dep'.dependentState t = ⟨true, some d⟩ := by
    simp [hlink.states, Function.update_of_ne hne.symm]
  have hblocker : dep'.dependentState d = { dep.dependentState d with onboard := true } := by
    simp [hlink.states]
  have hother : ∀ t', t' ≠ t → t' ≠ d → dep'.dependentState t' = dep.dependentState t' := by
    intro t' h₁ h₂
    simp [hlink.states, h₁, h₂]
  have honboard : ∀ t', t' = t ∨ some d = some t' ∨ (dep.dependentState t').onboard = true →
      (dep'.dependentState t').onboard = true := fun t' => (AddStep.link hlink).onboard
  have hdep : ∀ t' d', (dep'.dependentState t').dependency = some d' →
      t' = t ∧ d' = d ∨ t' ≠ t ∧ (dep.dependentState t').dependency = some d' := by
    intro t' d' hd'
    by_cases h₁ : t' = t
    · rw [h₁, hself] at hd'
      exact .inl ⟨h₁, (Option.some.inj hd').symm⟩
    · refine .inr ⟨h₁, ?_⟩
      by_cases h₂ : t' = d
      · rw [h₂, hblocker] at hd'
        exact h₂ ▸ hd'
      · rwa [hother t' h₁ h₂] at hd'
  refine ⟨fun t' d' hd' => ?_, fun t' d' hd' hne' => ?_, fun t' ht' hb' hn' => ?_,
    h.removing_update rfl fun t' d' hd' _ => ?_, ?_, fun t' d' hd' hne' => ?_⟩
  · rcases hdep t' d' hd' with ⟨rfl, -⟩ | ⟨-, hold⟩
    · rw [hself]
    · exact honboard t' (.inr (.inr (h.onboard t' d' hold)))
  · rcases hdep t' d' hd' with ⟨rfl, rfl⟩ | ⟨-, hold⟩
    · exact ⟨hlt, by simp [hlink.affects]⟩
    · obtain ⟨h₁, h₂⟩ := h.edge t' d' hold hne'
      refine ⟨h₁, ?_⟩
      rw [hlink.affects, Function.update_apply]
      split
      · rename_i heq
        exact List.mem_insert_of_mem (heq ▸ h₂)
      · exact h₂
  · have h₁ : t' ≠ t := by
      rintro rfl
      simp [hself] at hn'
    by_cases h₂ : t' = d
    · subst h₂
      rw [hblocker] at hn'
      exact .inl (hlink.rewound hn')
    · rw [hother t' h₁ h₂] at hb' hn'
      refine (h.reached t' ht' hb' hn').update (fun hi => ?_) (by simp [hw])
      exact .inl (hlink.index_le.trans hi)
  · rcases hdep t' d' hd' with ⟨-, rfl⟩ | ⟨-, hold⟩
    · exact .inr ⟨.state, by rw [hw]⟩
    · exact .inl hold
  · refine h.edges_update (fun d' hd' => absurd hd' (Tokens.not_edges ⟨rfl, rfl⟩ d'))
      fun d' hd' => ?_
    by_cases heq : d' = d
    · exact .inr (.inr ⟨.state, by rw [hw, heq]⟩)
    · exact .inl (by simpa [hlink.affectLocked, heq] using hd')
  · rcases hdep t' d' hd' with ⟨-, rfl⟩ | ⟨-, hold⟩
    · exact .inl (honboard d' (.inr (.inl rfl)))
    · refine (h.live t' d' hold hne').update (fun hb' => .inl (honboard d' (.inr (.inr hb'))))
        fun htok => .inl (honboard d' (.inl ?_))
      rcases hrelease with rfl | rfl <;> simp_all

theorem DepInv.added {t : Nat} {blocker release : Option Nat} {pc : AddPc}
    (h : DepInv numTxs dep τ) (hw : τ w = { release, adding := pc.holding blocker })
    (hrelease : release = some t ∨ release = none) (hbelow : ∀ d, blocker = some d → d < t)
    (ha : AddStep dep t blocker pc dep' none) :
    DepInv numTxs dep' (Function.update τ w {}) := by
  cases ha with
  | link hlink => exact h.linked hw hrelease (hbelow _ rfl) hlink
  | keep hb =>
    refine h.move ⟨rfl, rfl⟩ (by simp [hw]) fun t' d _ _ htok => ?_
    have heq : d = t := by rcases hrelease with rfl | rfl <;> simp_all
    exact .inl (heq ▸ hb)
  | release hb =>
    have hnone : pc.holding none = none := by cases pc <;> rfl
    exact h.released (by rw [hw, hnone]) hrelease hb

/-- The commit barrier is installed, or the transaction is onboard and
the index is going to be rewound to it. -/
theorem DepInv.key {t committed : Nat} {rewind : Bool} (h : DepInv numTxs dep τ)
    (hw : τ w = { release := some t }) (hk : dep.keyTx t committed = some (dep', rewind))
    (hT : T' = if rewind then { rewind := some t } else {}) :
    DepInv numTxs dep' (Function.update τ w T') := by
  obtain ⟨dependency, hwhich, hrewind, hstates, haffect, hlocks, hindex⟩ :=
    TxDependency.keyTx_eq hk
  have hself : dep'.dependentState t = ⟨true, dependency⟩ := by simp [hstates]
  have hother : ∀ t', t' ≠ t → dep'.dependentState t' = dep.dependentState t' := by
    intro t' hne
    simp [hstates, hne]
  have hdep : ∀ t' d, (dep'.dependentState t').dependency = some d → d ≠ t' →
      (dep.dependentState t').dependency = some d := by
    intro t' d hd hne
    by_cases heq : t' = t
    · subst heq
      rw [hself] at hd
      rcases hwhich with ⟨hsome, -⟩ | hold
      · rw [hsome] at hd
        exact absurd (Option.some.inj hd).symm hne
      · exact hold ▸ hd
    · rw [hother t' heq] at hd
      exact hd
  have hremoving : T'.removing = none ∧ T'.adding = none := by
    rw [hT]
    split <;> exact ⟨rfl, rfl⟩
  refine ⟨fun t' d hd => ?_, fun t' d hd hne => ?_, fun t' ht' hb' hn' => ?_,
    h.removing_update hremoving.1 fun t' d hd hne => .inl (hdep t' d hd hne),
    h.edges_none hremoving hlocks, fun t' d hd hne => ?_⟩
  · by_cases heq : t' = t
    · rw [heq, hself]
    · rw [hother t' heq] at hd ⊢
      exact h.onboard t' d hd
  · rw [haffect]
    exact h.edge t' d (hdep t' d hd hne) hne
  · by_cases heq : t' = t
    · subst heq
      rw [hself] at hn'
      refine .inr ⟨w, .inr ?_⟩
      simp [hT, hrewind.mpr hn']
    · rw [hother t' heq] at hb' hn'
      refine (h.reached t' ht' hb' hn').update (fun hi => .inl (hindex ▸ hi)) (by simp [hw])
  · refine (h.live t' d (hdep t' d hd hne) hne).update (fun hb' => .inl ?_) fun htok => .inl ?_
    · by_cases heq : d = t
      · rw [heq, hself]
      · rw [hother d heq]
        exact hb'
    · have heq : t = d := by simpa [hw] using htok
      rw [← heq, hself]

/-- The index is rewound. -/
theorem DepInv.rewound {t : Nat} (h : DepInv numTxs dep τ)
    (hrewind : ∀ t', (τ w).fetched = some t' ∨ (τ w).rewind = some t' → t' = t)
    (hkeep : T'.claim = (τ w).claim ∧ T'.release = (τ w).release ∧
      T'.removing = (τ w).removing ∧ T'.adding = (τ w).adding)
    (hstates : dep'.dependentState = dep.dependentState) (haffect : dep'.affectTxs = dep.affectTxs)
    (hlocks : dep'.affectLocked = dep.affectLocked) (hindex : dep'.index = min dep.index t) :
    DepInv numTxs dep' (Function.update τ w T') where
  onboard t' d hd := by
    rw [hstates] at hd ⊢
    exact h.onboard t' d hd
  edge t' d hd hne := by
    rw [hstates] at hd
    rw [haffect]
    exact h.edge t' d hd hne
  reached t' ht' hb hn := by
    rw [hstates] at hb hn
    refine (h.reached t' ht' hb hn).update (fun hi => .inl ?_) fun htok => .inl ?_
    · rw [hindex]
      exact Nat.le_trans (Nat.min_le_left _ _) hi
    · rw [hindex, hrewind t' htok]
      exact Nat.min_le_right _ _
  removing w' d remaining hr := by
    rw [hstates]
    rcases Grevm.removing_update hr with ⟨rfl, hown⟩ | ⟨-, hown⟩
    · exact h.removing w' d remaining (hkeep.2.2.1 ▸ hown)
    · exact h.removing w' d remaining hown
  edges := h.edges_same (fun d hd => by
    simpa only [Tokens.Edges, hkeep.2.2.1, hkeep.2.2.2] using hd) hlocks
  live t' d hd hne := by
    rw [hstates] at hd
    refine (h.live t' d hd hne).update (fun hb => .inl (hstates ▸ hb)) fun htok => .inr ⟨w, ?_⟩
    simpa [hkeep.1, hkeep.2.1] using htok

/-- `remove(d)` begins with every dependent still to be visited. -/
theorem DepInv.removeStart {d : Nat} (h : DepInv numTxs dep τ) (hw : τ w = { release := some d })
    (hfree : dep.affectLocked d = false) :
    DepInv numTxs { dep with affectLocked := Function.update dep.affectLocked d true }
      (Function.update τ w
        { release := some d, removing := some (d, dep.affectTxs d) }) where
  onboard := h.onboard
  edge := h.edge
  reached t ht hb hn := (h.reached t ht hb hn).update .inl (by simp [hw])
  removing w' d' remaining hr t ht hne := by
    rcases Grevm.removing_update hr with ⟨-, hr⟩ | ⟨-, hr⟩
    · cases hr
      exact (h.edge t d ht hne).2
    · exact h.removing w' d' remaining hr t ht hne
  edges := by
    refine h.edges_update (fun d' hd' => ?_) fun d' hd' => .inl ?_
    · obtain rfl : d = d' := by simpa [Tokens.Edges] using hd'
      exact ⟨by simp, .inr hfree⟩
    · by_cases heq : d' = d
      · simp [heq]
      · simpa [heq] using hd'
  live t d' hd hne := by
    refine (h.live t d' hd hne).update .inl fun htok => .inr ⟨w, ?_⟩
    simpa [hw] using htok

/-- `remove(d)` visits one dependent: `tx` is cleared if it still waits
for `d`, and then it is handed to the worker or will be reached. -/
theorem DepInv.visit {d tx : Nat} {remaining rest : List Nat} (h : DepInv numTxs dep τ)
    (hr : (τ w).removing = some (d, remaining)) (hmem : ∀ x, x ∈ remaining ↔ x = tx ∨ x ∈ rest)
    (hfetched : ∀ t, ¬ ((τ w).fetched = some t ∨ (τ w).rewind = some t))
    (hT : T'.removing = some (d, rest) ∧ T'.adding = none)
    (hrelease : T'.release = (τ w).release)
    (hclaim : ∀ x, (τ w).claim = some x → T'.claim = some x)
    (haffect : dep'.affectTxs = dep.affectTxs) (hlocks : dep'.affectLocked = dep.affectLocked)
    (hindex : dep'.index = dep.index)
    (hstates : dep'.dependentState = dep.dependentState ∧
        (dep.dependentState tx).dependency ≠ some d ∨
      ∃ onboard, dep'.dependentState = Function.update dep.dependentState tx ⟨onboard, none⟩ ∧
        (if onboard then T'.rewind = some tx else T'.claim = some tx)) :
    DepInv numTxs dep' (Function.update τ w T') := by
  have hdep : ∀ t d', (dep'.dependentState t).dependency = some d' →
      (dep.dependentState t).dependency = some d' ∧
        dep'.dependentState t = dep.dependentState t ∧ (d' = d → t ≠ tx) := by
    intro t d' hd
    rcases hstates with ⟨heq, hne⟩ | ⟨onboard, heq, -⟩
    · refine ⟨heq ▸ hd, by rw [heq], ?_⟩
      rintro rfl rfl
      exact hne (heq ▸ hd)
    · have ht : t ≠ tx := by
        rintro rfl
        simp [heq] at hd
      rw [heq, Function.update_of_ne ht] at hd
      exact ⟨hd, by rw [heq, Function.update_of_ne ht], fun _ => ht⟩
  refine ⟨fun t d' hd => ?_, fun t d' hd hne => ?_, fun t ht hb hn => ?_,
    fun w' d' r hw' t ht hne => ?_, h.edges_same (fun d' hd' => ?_) hlocks,
    fun t d' hd hne => ?_⟩
  · obtain ⟨hold, heq, -⟩ := hdep t d' hd
    rw [heq]
    exact h.onboard t d' hold
  · rw [haffect]
    exact h.edge t d' (hdep t d' hd).1 hne
  · have hkeep : (dep.dependentState t).onboard = true →
        (dep.dependentState t).dependency = none → Reached dep' (Function.update τ w T') t :=
      fun hb hn => (h.reached t ht hb hn).update (fun hi => .inl (hindex ▸ hi))
        fun htok => absurd htok (hfetched t)
    rcases hstates with ⟨heq, -⟩ | ⟨onboard, heq, htok⟩
    · rw [heq] at hb hn
      exact hkeep hb hn
    · rw [heq, Function.update_apply] at hb hn
      split at hb
      · rename_i hta
        subst hta
        dsimp only at hb
        rw [if_pos hb] at htok
        exact .inr ⟨w, .inr (by simpa using htok)⟩
      · rename_i hta
        rw [if_neg hta] at hn
        exact hkeep hb hn
  · rcases Grevm.removing_update hw' with ⟨rfl, hown⟩ | ⟨-, hown⟩
    · rw [hT.1] at hown
      cases hown
      obtain ⟨hold, -, htx⟩ := hdep t d ht
      exact ((hmem t).mp (h.removing w' d remaining hr t hold hne)).resolve_left (htx rfl)
    · exact h.removing w' d' r hown t (hdep t d' ht).1 hne
  · obtain rfl : d = d' := by simpa [Tokens.Edges, hT.1, hT.2] using hd'
    exact .inl ⟨remaining, hr⟩
  · refine (h.live t d' (hdep t d' hd).1 hne).update (fun hb => ?_) fun htok => .inr ⟨w, ?_⟩
    · rcases hstates with ⟨heq, -⟩ | ⟨onboard, heq, htok⟩
      · exact .inl (heq ▸ hb)
      · by_cases htx : d' = tx
        · subst htx
          cases onboard with
          | true => exact .inl (by simp [heq])
          | false => exact .of_claim (w := w) (by simpa using htok)
        · exact .inl (by simpa [heq, htx] using hb)
    · simp only [Function.update_self]
      rcases htok with hc | hrel
      · exact .inl (hclaim d' hc)
      · exact .inr (hrelease.trans hrel)

/-- `remove(d)` ends: nobody waits for `d` any more. -/
theorem DepInv.removeEnd {d : Nat} {next : Option Nat} (h : DepInv numTxs dep τ)
    (hw : τ w = { claim := next, release := some d, removing := some (d, []) }) :
    DepInv numTxs
      { dep with
        affectTxs := Function.update dep.affectTxs d []
        affectLocked := Function.update dep.affectLocked d false }
      (Function.update τ w { claim := next }) := by
  have hnobody : ∀ t, (dep.dependentState t).dependency = some d → d = t := by
    intro t ht
    by_contra hne
    exact List.not_mem_nil (h.removing w d [] (by rw [hw]) t ht hne)
  refine ⟨h.onboard, fun t d' hd hne => ?_, fun t ht hb hn => ?_,
    h.removing_update rfl fun _ _ hd _ => .inl hd,
    h.edges_update (fun d' hd' => absurd hd' (Tokens.not_edges ⟨rfl, rfl⟩ d')) fun d' hd' => ?_,
    fun t d' hd hne => ?_⟩
  · have hdd : d' ≠ d := by
      rintro rfl
      exact hne (hnobody t hd)
    simpa [hdd] using h.edge t d' hd hne
  · exact (h.reached t ht hb hn).update .inl (by simp [hw])
  · by_cases heq : d' = d
    · exact .inr (.inl ⟨[], by rw [hw, heq]⟩)
    · exact .inl (by simpa [heq] using hd')
  · have hdd : d' ≠ d := by
      rintro rfl
      exact hne (hnobody t hd)
    refine (h.live t d' hd hne).update .inl fun htok => .of_claim (w := w) ?_
    simpa [hw, hdd.symm] using htok

theorem DepInv.remove {d : Nat} {popNext : Bool} {pc pc' : RemovePc} (h : DepInv numTxs dep τ)
    (hw : τ w = pc.tokens d) (hnext : pc.next = none ∨ pc.next = some (d + 1))
    (hs : RemoveStep dep d popNext pc dep' (.inl pc')) :
    DepInv numTxs dep' (Function.update τ w (pc'.tokens d)) := by
  cases hs with
  | start hfree => exact h.removeStart hw hfree
  | pop hp hd htx =>
    refine h.visit (by rw [hw]; rfl) (mem_of_pick? hp) (by simp [hw, RemovePc.tokens]) ⟨rfl, rfl⟩
      (by rw [hw]; rfl) (fun x hx => ?_) rfl rfl rfl (.inr ⟨false, rfl, rfl⟩)
    rw [hw] at hx
    rcases hnext with hn | hn <;> simp only [RemovePc.next, RemovePc.tokens] at hn hx ⊢
    · rw [hn] at hx
      cases hx
    · rw [hn] at hx
      rw [htx, hx]
  | clear hp hd hb =>
    exact h.visit (by rw [hw]; rfl) (mem_of_pick? hp) (by simp [hw, RemovePc.tokens]) ⟨rfl, rfl⟩
      (by rw [hw]; rfl) (fun x hx => by rw [hw] at hx; exact hx) rfl rfl rfl
      (.inr ⟨true, rfl, rfl⟩)
  | clearOff hp hd hb => simp [h.onboard _ _ hd] at hb
  | skip hp hd =>
    exact h.visit (by rw [hw]; rfl) (mem_of_pick? hp) (by simp [hw, RemovePc.tokens]) ⟨rfl, rfl⟩
      (by rw [hw]; rfl) (fun x hx => by rw [hw] at hx; exact hx) rfl rfl rfl (.inl ⟨rfl, hd⟩)
  | rewind =>
    exact h.rewound (by simp [hw, RemovePc.tokens, eq_comm])
      (by rw [hw]; exact ⟨rfl, rfl, rfl, rfl⟩) rfl rfl rfl rfl

theorem DepInv.removed {d : Nat} {popNext : Bool} {pc : RemovePc} {next : Option Nat}
    (h : DepInv numTxs dep τ)
    (hw : τ w = pc.tokens d) (hs : RemoveStep dep d popNext pc dep' (.inr next)) :
    DepInv numTxs dep' (Function.update τ w { claim := next }) := by
  cases hs with
  | empty hempty =>
    refine h.move ⟨rfl, rfl⟩ (by simp [hw, RemovePc.tokens]) fun t d' hd hne htok => ?_
    have heq : d = d' := by simpa [hw, RemovePc.tokens] using htok
    subst heq
    have := (h.edge t d hd hne).2
    simp [hempty] at this
  | finish => exact h.removeEnd hw

/-- **Nothing is lost in a step of a worker.** -/
theorem DepInv.step {committed : Nat} {released : Nat → Prop} (h : DepInv numTxs dep τ)
    (hreleased : ∀ t, released t → ∃ w', w' ≠ w ∧ (τ w').release = some t)
    (hs : DepStep numTxs committed released (τ w) dep T' dep') :
    DepInv numTxs dep' (Function.update τ w T') := by
  generalize hw : τ w = T at hs
  cases hs with
  | same => rwa [← hw, Function.update_eq_self]
  | fetch => exact h.advance hw ⟨rfl, rfl⟩ (by simp)
  | fetchPast hp => exact h.advance hw ⟨rfl, rfl⟩ fun t ht heq => by omega
  | claim hc =>
    rcases TxDependency.claim_eq hc with ⟨-, -, hn, rfl⟩ | ⟨hf, -⟩
    · exact h.claim hw hn
    · cases hf
  | missed hc =>
    rcases TxDependency.claim_eq hc with ⟨hf, -⟩ | ⟨-, rfl, hno⟩
    · cases hf
    · refine h.move ⟨rfl, rfl⟩ (fun t hb hn htok => ?_) (by simp [hw])
      have heq := by simpa [hw] using htok
      subst heq
      exact absurd ⟨hb, hn⟩ hno
  | start =>
    refine h.move ⟨rfl, rfl⟩ (by simp [hw]) fun t d _ _ htok => .of_release (w := w) ?_
    simpa [hw] using htok
  | drop hrel =>
    refine h.move ⟨rfl, rfl⟩ (by simp [hw]) fun t d _ _ htok => ?_
    have heq := by simpa [hw] using htok
    subst heq
    obtain ⟨w', hne, hw'⟩ := hreleased _ hrel
    exact .of_release (w := w') (by simpa [hne] using hw')
  | add ha => exact h.add hw (addStep_sound ha)
  | added hrelease hbelow ha => exact h.added hw hrelease hbelow (addStep_sound ha)
  | remove hnext hs => exact h.remove hw hnext (removeStep_sound hs)
  | removed hs => exact h.removed hw (removeStep_sound hs)
  | key hk | keyBehind hk => exact h.key hw hk rfl
  | keyRewind =>
    exact h.rewound (by simp [hw, eq_comm]) (by rw [hw]; exact ⟨rfl, rfl, rfl, rfl⟩) rfl rfl rfl
      rfl

omit [DecidableEq W] in
/-- Releasing the successor of a committed transaction. -/
theorem DepInv.commit {t : Nat} (h : DepInv numTxs dep τ)
    (hc : dep.commit numTxs t = some dep') : DepInv numTxs dep' τ := by
  rcases TxDependency.commit_eq hc with ⟨rfl, -⟩ | ⟨hb, rfl⟩
  · exact h
  · have hdep : ∀ t' d, (((dep.setDependent (t + 1) ⟨true, none⟩).rewindIndex
        (t + 1)).dependentState t').dependency = some d →
        (dep.dependentState t').dependency = some d ∧ t' ≠ t + 1 := by
      intro t' d hd
      by_cases heq : t' = t + 1
      · subst heq
        simp at hd
      · exact ⟨by simpa [heq] using hd, heq⟩
    have honboard : ∀ t', (dep.dependentState t').onboard = true →
        (((dep.setDependent (t + 1) ⟨true, none⟩).rewindIndex
          (t + 1)).dependentState t').onboard = true := by
      intro t' hb'
      by_cases heq : t' = t + 1
      · simp [heq]
      · simpa [heq] using hb'
    refine ⟨fun t' d hd => honboard t' (h.onboard t' d (hdep t' d hd).1),
      fun t' d hd => h.edge t' d (hdep t' d hd).1, fun t' ht' hb' hn' => ?_,
      fun w d r hr t' hd => h.removing w d r hr t' (hdep t' d hd).1, h.edges,
      fun t' d hd hne => ?_⟩
    · by_cases heq : t' = t + 1
      · subst heq
        exact .inl (Nat.min_le_right _ _)
      · simp only [TxDependency.rewindIndex_dependentState,
          TxDependency.setDependent_dependentState, Function.update_of_ne heq] at hb' hn'
        exact (h.reached t' ht' hb' hn').imp_left (Nat.le_trans (Nat.min_le_left _ _))
    · exact (h.live t' d (hdep t' d hd).1 hne).imp_left (honboard d)

/-- **A retry stays requeued** until the worker that claimed it acts on
the claim. -/
theorem Requeued.step {committed : Nat} {released : Nat → Prop} {t : Nat} (h : DepInv numTxs dep τ)
    (hq : Requeued dep τ t) (hs : DepStep numTxs committed released (τ w) dep T' dep') :
    Requeued dep' (Function.update τ w T') t ∨
      τ w = { claim := some t } ∧ T'.claim = none := by
  generalize hw : τ w = T at hs
  have hkeep : (∀ t, (dep.dependentState t).onboard = true →
      (dep'.dependentState t).onboard = true ∨ T'.claim = some t) →
      ((τ w).claim = some t → T'.claim = some t) →
      Requeued dep' (Function.update τ w T') t ∨ T = { claim := some t } ∧ T'.claim = none := by
    intro honboard hclaim
    refine .inl (hq.update (fun hb => ?_) fun hc => .inr ⟨w, by simpa using hclaim hc⟩)
    rcases honboard t hb with hb | hc
    · exact .inl hb
    · exact .inr ⟨w, by simpa using hc⟩
  have hclaimed : ∀ {t'}, T = { claim := some t' } → T'.claim = none →
      dep' = dep →
      Requeued dep' (Function.update τ w T') t ∨ T = { claim := some t } ∧ T'.claim = none := by
    rintro t' rfl hnone rfl
    by_cases heq : t' = t
    · exact .inr ⟨by rw [heq], hnone⟩
    · exact .inl (hq.update .inl (by simp [hw, heq]))
  cases hs with
  | same => exact hkeep (fun _ => .inl) (by rw [hw]; exact id)
  | fetch | fetchPast | keyRewind => exact hkeep (fun _ => .inl) (by simp [hw])
  | @claim _ _ t' hc =>
    refine hkeep (fun x hb => ?_) (by simp [hw])
    rcases TxDependency.claim_eq hc with ⟨-, -, -, rfl⟩ | ⟨hf, -⟩
    · by_cases heq : x = t'
      · exact .inr (by rw [heq])
      · exact .inl (by simpa [heq] using hb)
    · cases hf
  | missed hc =>
    rcases TxDependency.claim_eq hc with ⟨hf, -⟩ | ⟨-, rfl, -⟩
    · cases hf
    · exact hkeep (fun _ => .inl) (by simp [hw])
  | start | drop => exact hclaimed rfl rfl rfl
  | add ha =>
    obtain ⟨hstates, -⟩ := (addStep_sound ha).frame
    exact hkeep (fun x hb => .inl (hstates ▸ hb)) (by simp [hw])
  | added _ _ ha =>
    exact hkeep (fun x hb => .inl ((addStep_sound ha).onboard (.inr (.inr hb)))) (by simp [hw])
  | @remove _ _ d c popNext pc pc' hnext hs =>
    have hs := removeStep_sound hs
    cases hs with
    | start | skip | rewind => exact hkeep (fun _ => .inl) (by simp [hw, RemovePc.tokens])
    | @pop _ _ _ tx _ hp hd htx =>
      refine hkeep (fun x hb => ?_) fun hc => ?_
      · by_cases heq : x = tx
        · exact .inr (by rw [heq]; rfl)
        · exact .inl (by simpa [heq] using hb)
      · rw [hw] at hc
        rcases hnext with hn | hn <;> simp only [RemovePc.next, RemovePc.tokens] at hn hc ⊢
        · rw [hn] at hc
          cases hc
        · rw [hn] at hc
          rw [htx, hc]
    | @clear _ _ _ tx =>
      refine hkeep (fun x hb => .inl ?_) (by simp [hw, RemovePc.tokens])
      by_cases heq : x = tx
      · simp [heq]
      · simpa [heq] using hb
    | clearOff hp hd hb => simp [h.onboard _ _ hd] at hb
  | removed hs =>
    have hs := removeStep_sound hs
    cases hs with
    | empty | finish => exact hkeep (fun _ => .inl) (by simp [hw, RemovePc.tokens])
  | @key _ _ t' hk | @keyBehind _ _ t' hk =>
    obtain ⟨_, -, -, hstates, -⟩ := TxDependency.keyTx_eq hk
    refine hkeep (fun x hb => .inl ?_) (by simp [hw])
    rw [hstates]
    by_cases heq : x = t'
    · simp [heq]
    · simpa [heq] using hb

omit [DecidableEq W] in
/-- A commit barrier is installed only before the boundary is reached. -/
theorem DepStep.barrier {committed : Nat} {released : Nat → Prop} {T : Tokens} {t : Nat}
    (hs : DepStep numTxs committed released T dep T' dep')
    (ht : (dep'.dependentState t).dependency = some t) :
    (dep.dependentState t).dependency = some t ∨ committed < t := by
  have hkey : ∀ {t' rewind}, dep.keyTx t' committed = some (dep', rewind) →
      (dep.dependentState t).dependency = some t ∨ committed < t := by
    intro t' rewind hk
    obtain ⟨dependency, hwhich, -, hstates, -⟩ := TxDependency.keyTx_eq hk
    rw [hstates, Function.update_apply] at ht
    split at ht
    · rename_i heq
      subst heq
      rcases hwhich with ⟨-, hlt⟩ | hold
      · exact .inr hlt
      · exact .inl (hold ▸ ht)
    · exact .inl ht
  have hclear : ∀ {x onboard}, dep'.dependentState
      = Function.update dep.dependentState x ⟨onboard, none⟩ →
      (dep.dependentState t).dependency = some t ∨ committed < t := by
    intro x onboard hstates
    rw [hstates, Function.update_apply] at ht
    split at ht
    · cases ht
    · exact .inl ht
  cases hs with
  | @claim _ _ t' hc =>
    rcases TxDependency.claim_eq hc with ⟨-, -, hn, rfl⟩ | ⟨hf, -⟩
    · have hstates : (dep.setDependent t' { dep.dependentState t' with
          onboard := false }).dependentState
          = Function.update dep.dependentState t' ⟨false, none⟩ := by
        simp only [hn]
        rfl
      exact hclear hstates
    · cases hf
  | missed hc =>
    rcases TxDependency.claim_eq hc with ⟨hf, -⟩ | ⟨-, rfl, -⟩
    · cases hf
    · exact .inl ht
  | add ha =>
    obtain ⟨hstates, -⟩ := (addStep_sound ha).frame
    exact .inl (hstates ▸ ht)
  | added _ hbelow ha =>
    cases addStep_sound ha with
    | keep => exact .inl ht
    | release => exact hclear rfl
    | @link d _ hlink =>
      have hlt := hbelow d rfl
      rw [hlink.states, Function.update_apply] at ht
      split at ht
      · rename_i heq
        exact .inl (heq ▸ ht)
      · rw [Function.update_apply] at ht
        split at ht
        · cases ht
          omega
        · exact .inl ht
  | remove hnext hs =>
    have hs := removeStep_sound hs
    cases hs with
    | pop | clear | clearOff => exact hclear rfl
    | _ => exact .inl ht
  | removed hs =>
    have hs := removeStep_sound hs
    cases hs <;> exact .inl ht
  | key hk | keyBehind hk => exact hkey hk
  | _ => exact .inl ht

end

end Grevm
