/-
Grevm.RetryQueue — `TxDependency` under any callers.

`src/tx_dependency.rs` called by any number of threads in any order,
without the discipline of the scheduler's workers: `next`, `remove`,
`add`, `key_tx` and `commit` with any transactions, beside the commit loop
that publishes the committed cursor and then releases the successor. The
state keeps a log of the hand-outs and of the calls that put a transaction
back on board.

`Shift` is what a step does to one transaction, and `DepMove` what it does
to the index, the locks and the reverse edges; the invariant follows from
these alone.
-/
import Grevm.Runs
import Grevm.Scheduler.Retry

namespace Grevm

open Locks Runs

/-! ## The machine -/

/-- Program points of the calls. -/
inductive DepPc where
  | idle
  | nextLoad
  | nextFetch
  | nextClaim (index : Nat)
  | remove (txid : Nat) (popNext : Bool) (pc : RemovePc)
  | commit (txid : Nat)
  | keyTx (txid : Nat)
  | keyTxRewind (txid : Nat)
  | add (txid : Nat) (depId : Option Nat) (pc : AddPc)
  deriving DecidableEq

inductive DepCall where
  | next
  | remove (txid : Nat) (popNext : Bool)
  | commit (txid : Nat)
  | keyTx (txid : Nat)
  | add (txid : Nat) (depId : Option Nat)
  deriving DecidableEq

def DepCall.start : DepCall → DepPc
  | .next => .nextLoad
  | .remove txid popNext => .remove txid popNext .start
  | .commit txid => .commit txid
  | .keyTx txid => .keyTx txid
  | .add txid depId => .add txid depId .start

/-- The transactions a call indexes by; they lie in the block. -/
def DepCall.txids : DepCall → List Nat
  | .next | .commit _ => []
  | .remove txid _ | .keyTx txid => [txid]
  | .add txid depId => txid :: depId.toList

inductive DepEvent where
  | handOut (txid : Nat)
  | onboard (txid : Nat)
  deriving DecidableEq

/-- The transactions a call puts back on board. -/
def TxDependency.onboarded (dep : TxDependency) (txids : List Nat) : List DepEvent :=
  (txids.filter fun t => !(dep.dependentState t).onboard).map .onboard

/-- The transaction a visit of `remove` takes for its caller. -/
def RemovePc.handedOff (pc pc' : RemovePc) : List DepEvent :=
  if pc'.next = pc.next then [] else (pc'.next.map DepEvent.handOut).toList

/-- One step of a call. -/
def depCallStep (numTxs committed : Nat) (dep : TxDependency) (c : Nat) :
    DepPc → Option (TxDependency × DepPc × List DepEvent)
  | .idle => none
  | .nextLoad => some (dep, if numTxs ≤ dep.index then .idle else .nextFetch, [])
  | .nextFetch =>
    some ({ dep with index := dep.index + 1 },
      if numTxs ≤ dep.index then .idle else .nextClaim dep.index, [])
  | .nextClaim index =>
    (dep.claim index).map fun (dep, claimed) =>
      (dep, .idle, if claimed then [.handOut index] else [])
  | .remove txid popNext pc =>
    (removeStep dep txid popNext pc c).map fun (dep, result) =>
      match result with
      | .inl pc' => (dep, .remove txid popNext pc', pc.handedOff pc')
      | .inr _ => (dep, .idle, [])
  | .commit txid => (dep.commit numTxs txid).map fun dep => (dep, .idle, [])
  | .keyTx txid =>
    (dep.keyTx txid committed).map fun (dep', rewind) =>
      (dep', if rewind then .keyTxRewind txid else .idle, dep.onboarded [txid])
  | .keyTxRewind txid => some (dep.keyTxRewind txid, .idle, [])
  | .add txid depId pc =>
    (addStep dep txid depId pc).map fun (dep', pc') =>
      match pc' with
      | some pc' => (dep', .add txid depId pc', [])
      | none => (dep', .idle, dep.onboarded (txid :: depId.toList))

/-- `committing` is the transaction whose commit has been published and
whose successor is still to be released. -/
structure DepSystem (W : Type) where
  dep : TxDependency := {}
  callers : W → DepPc := fun _ => .idle
  committed : Nat := 0
  committing : Option Nat := none
  events : List DepEvent := []

inductive DepAction (W : Type) where
  | call (w : W) (call : DepCall)
  | step (w : W) (c : Nat)
  | publish
  | release

def depSystemStep {W : Type} [DecidableEq W] (numTxs : Nat) (s : DepSystem W) :
    DepAction W → Option (DepSystem W)
  | .call w call =>
    if s.callers w = .idle ∧ call.txids.all (· < numTxs) then
      some { s with callers := Function.update s.callers w call.start }
    else none
  | .step w c =>
    (depCallStep numTxs s.committed s.dep c (s.callers w)).map fun (dep, pc, events) =>
      { s with dep, callers := Function.update s.callers w pc, events := s.events ++ events }
  | .publish =>
    if s.committing = none ∧ s.committed < numTxs then
      some { s with committed := s.committed + 1, committing := some s.committed }
    else none
  | .release =>
    s.committing.bind fun txid =>
      (s.dep.commit numTxs txid).map fun dep => { s with dep, committing := none }

/-! ## What a step does -/

/-- What a step does to one transaction. A transaction that becomes
claimable is reached by the index, or locked by the call that is about
to rewind the index to it. -/
inductive Shift (committed : Nat) (dep : TxDependency) (pc : DepPc) (dep' : TxDependency)
    (events : List DepEvent) (t : Nat) : Prop where
  | same (hstate : dep'.dependentState t = dep.dependentState t)
      (hlog : .handOut t ∉ events)
  | handOut (honboard : (dep.dependentState t).onboard = true)
      (hstate : dep'.dependentState t = ⟨false, none⟩)
  | release (hstate : dep'.dependentState t = ⟨true, none⟩)
      (hreach : dep'.index ≤ t ∨ dep'.dependentLocked t = true)
      (honboard : (dep.dependentState t).onboard = true ∨ .onboard t ∈ events)
      (hlog : .handOut t ∉ events)
  | block (d : Nat) (hstate : dep'.dependentState t = ⟨true, some d⟩)
      (hblocker : (dep.dependentState t).dependency = some d ∨ d = t ∧ committed < t ∨
        t ∈ dep'.affectTxs d ∧ pc = .add t (some d) .state)
      (honboard : (dep.dependentState t).onboard = true ∨ .onboard t ∈ events)
      (hlog : .handOut t ∉ events)

def RemovePc.remaining : RemovePc → Option (List Nat)
  | .start => none
  | .each remaining _ | .rewind _ remaining _ => some remaining

/-- The dependents that a call of `remove(d)` has still to visit. -/
def DepPc.removing (d : Nat) : DepPc → Option (List Nat)
  | .remove txid _ pc => if txid = d then pc.remaining else none
  | _ => none

/-- The transaction whose reverse edges the call has locked. -/
def DepPc.edges : DepPc → Option Nat
  | .remove _ _ .start | .add _ _ .start => none
  | .remove txid _ _ => some txid
  | .add _ depId _ => depId
  | _ => none

/-- Behind its assertion `add` knows that the blocker precedes. -/
def DepPc.Precedes : DepPc → Prop
  | .add _ _ .start => True
  | .add txid (some depId) _ => depId < txid
  | _ => True

/-- What a step of a call does. -/
structure DepMove (numTxs committed : Nat) (dep : TxDependency) (pc : DepPc) (dep' : TxDependency)
    (pc' : DepPc) (events : List DepEvent) : Prop where
  shift : ∀ t, Shift committed dep pc dep' events t
  once : ∀ t, events.count (.handOut t) ≤ 1
  index : ∀ t, t < numTxs → dep.index ≤ t → dep'.index ≤ t ∨ pc' = .nextClaim t
  unlock : ∀ t, dep.dependentLocked t = true → dep'.dependentLocked t = true ∨ dep'.index ≤ t ∨
    (dep'.dependentState t).dependency ≠ none
  claim : ∀ t, pc = .nextClaim t → (dep'.dependentState t).onboard = false ∨
    (dep'.dependentState t).dependency ≠ none
  edges : ∀ d t, t ∈ dep.affectTxs d → t ∈ dep'.affectTxs d ∨ pc.removing d = some []
  take : ∀ d, pc'.edges = some d → pc.edges = some d ∧ dep'.affectLocked d = dep.affectLocked d ∨
    dep.affectLocked d = false ∧ dep'.affectLocked d = true
  keep : ∀ d, dep.affectLocked d = true → dep'.affectLocked d = true ∨ pc.edges = some d
  visit : ∀ d remaining, pc'.removing d = some remaining →
    remaining = dep.affectTxs d ∧ dep'.dependentState = dep.dependentState ∨
      ∃ before, pc.removing d = some before ∧
        ∀ t, t ∈ before → t ∈ remaining ∨ (dep'.dependentState t).dependency ≠ some d
  precedes : pc'.Precedes

/-! ## Every step of a call is such a step -/

section

variable {numTxs committed : Nat} {dep dep' : TxDependency} {t : Nat}

theorem TxDependency.mem_onboarded {txids : List Nat} (h : t ∈ txids) :
    (dep.dependentState t).onboard = true ∨ .onboard t ∈ dep.onboarded txids := by
  cases hb : (dep.dependentState t).onboard with
  | true => exact .inl rfl
  | false =>
    exact .inr (List.mem_map.mpr ⟨t, List.mem_filter.mpr ⟨h, by simp [hb]⟩, rfl⟩)

theorem TxDependency.handOut_notMem_onboarded (txids : List Nat) :
    .handOut t ∉ dep.onboarded txids := by
  simp [onboarded]

theorem TxDependency.dependentLocked_keyTx {rewind : Bool}
    (h : dep.keyTx t committed = some (dep', rewind)) :
    dep'.dependentLocked =
      if rewind then Function.update dep.dependentLocked t true else dep.dependentLocked := by
  unfold keyTx at h
  split at h
  · cases h
  · dsimp only at h
    generalize (if t > committed then some t else (dep.dependentState t).dependency)
      = dependency at h
    split at h <;> cases h <;> rfl

theorem DepPc.edges_of_removing {pc : DepPc} {d : Nat} {remaining : List Nat}
    (h : pc.removing d = some remaining) : pc.edges = some d := by
  cases pc with
  | remove txid popNext pc =>
    simp only [removing] at h
    split at h
    · rename_i heq
      cases pc with
      | start => cases h
      | each | rewind => exact congrArg some heq
    · cases h
  | _ => cases h

theorem DepPc.precedes_of_edges {pc : DepPc} (h : pc.edges = none) : pc.Precedes := by
  cases pc with
  | add txid depId pc =>
    cases depId with
    | none | some d => cases pc <;> trivial
  | _ => trivial

/-- A step of a call that leaves the edges alone. -/
theorem DepMove.of_shift {pc pc' : DepPc} {events : List DepEvent}
    (hpc : pc'.edges = none) (haffect : dep'.affectTxs = dep.affectTxs)
    (hlocked : dep'.affectLocked = dep.affectLocked)
    (hshift : ∀ t, Shift committed dep pc dep' events t)
    (honce : ∀ t, events.count (.handOut t) ≤ 1)
    (hindex : ∀ t, t < numTxs → dep.index ≤ t → dep'.index ≤ t ∨ pc' = .nextClaim t)
    (hunlock : ∀ t, dep.dependentLocked t = true →
      dep'.dependentLocked t = true ∨ dep'.index ≤ t)
    (hclaim : ∀ t, pc = .nextClaim t → (dep'.dependentState t).onboard = false ∨
      (dep'.dependentState t).dependency ≠ none) :
    DepMove numTxs committed dep pc dep' pc' events where
  shift := hshift
  once := honce
  index := hindex
  unlock t hl := (hunlock t hl).imp_right .inl
  claim := hclaim
  edges d t hmem := .inl (haffect ▸ hmem)
  take d hd := absurd hd (by simp [hpc])
  keep d hl := .inl (hlocked ▸ hl)
  visit d remaining hr := absurd (DepPc.edges_of_removing hr) (by simp [hpc])
  precedes := DepPc.precedes_of_edges hpc

/-- The state of one transaction is replaced. -/
theorem Shift.of_update {pc : DepPc} {events : List DepEvent} {a : Nat} {state : DependentState}
    (hstates : dep'.dependentState = Function.update dep.dependentState a state)
    (hlog : ∀ t, t ≠ a → .handOut t ∉ events)
    (hself : dep'.dependentState a = state → Shift committed dep pc dep' events a) (t : Nat) :
    Shift committed dep pc dep' events t := by
  by_cases ht : t = a
  · subst ht
    exact hself (by rw [hstates, Function.update_self])
  · exact .same (by rw [hstates, Function.update_of_ne ht]) (hlog t ht)

theorem DepMove.claim_of_claim {claimed : Bool} (h : dep.claim t = some (dep', claimed)) :
    DepMove numTxs committed dep (.nextClaim t) dep' .idle
      (if claimed then [.handOut t] else []) := by
  rcases TxDependency.claim_eq h with ⟨rfl, hb, hn, rfl⟩ | ⟨rfl, rfl, hno⟩
  · refine .of_shift rfl rfl rfl ?_ (fun t' => ?_) (fun _ _ => .inl)
      (fun _ => .inl) fun t' heq => ?_
    · refine Shift.of_update rfl (fun t' ht => by simpa using ht) fun _ => ?_
      exact .handOut hb (by simp [hn])
    · by_cases heq : t = t' <;> simp [heq]
    · cases heq
      simp
  · refine .of_shift rfl rfl rfl (fun _ => .same rfl (by simp)) (by simp)
      (fun _ _ => .inl) (fun _ => .inl) fun t' heq => ?_
    cases heq
    cases hb : (dep'.dependentState t).onboard with
    | false => exact .inl rfl
    | true => exact .inr fun hn => hno ⟨hb, hn⟩

theorem DepMove.commit {pc : DepPc} (hpc : ∀ t, pc ≠ .nextClaim t)
    (h : dep.commit numTxs t = some dep') :
    DepMove numTxs committed dep pc dep' .idle [] := by
  rcases TxDependency.commit_eq h with ⟨rfl, -⟩ | ⟨hb, rfl⟩
  · exact .of_shift rfl rfl rfl (fun _ => .same rfl (by simp)) (by simp)
      (fun _ _ => .inl) (fun _ => .inl) fun t' heq => absurd heq (hpc t')
  · refine .of_shift rfl rfl rfl ?_ (by simp)
      (fun t' _ hi => .inl (Nat.le_trans (Nat.min_le_left _ _) hi)) (fun _ => .inl)
      fun t' heq => absurd heq (hpc t')
    refine Shift.of_update rfl (by simp) fun hstate => ?_
    exact .release hstate (.inl (Nat.min_le_right _ _)) (.inl hb) (by simp)

theorem DepMove.keyTx {rewind : Bool} (h : dep.keyTx t committed = some (dep', rewind)) :
    DepMove numTxs committed dep (.keyTx t) dep'
      (if rewind then .keyTxRewind t else .idle) (dep.onboarded [t]) := by
  obtain ⟨dependency, hdependency, hrewind, hstates, haffect, hlocked, hindex⟩ :=
    TxDependency.keyTx_eq h
  have hlock := TxDependency.dependentLocked_keyTx h
  have honboard : (dep.dependentState t).onboard = true ∨ .onboard t ∈ dep.onboarded [t] :=
    TxDependency.mem_onboarded List.mem_cons_self
  have hlog : ∀ t', .handOut t' ∉ dep.onboarded [t] :=
    fun _ => TxDependency.handOut_notMem_onboarded _
  refine .of_shift (by cases rewind <;> rfl) haffect hlocked ?_
    (fun t' => by rw [List.count_eq_zero.mpr (hlog t')]; omega)
    (fun t' _ hi => .inl (hindex ▸ hi)) (fun t' hl => ?_) (by simp)
  · refine Shift.of_update hstates (fun t' _ => hlog t') fun hstate => ?_
    cases dependency with
    | none =>
      refine .release hstate (.inr ?_) honboard (hlog t)
      rw [hlock, hrewind.mpr rfl]
      simp
    | some d =>
      refine .block d hstate ?_ honboard (hlog t)
      rcases hdependency with ⟨heq, hlt⟩ | hold
      · cases heq
        exact .inr (.inl ⟨rfl, hlt⟩)
      · exact .inl hold.symm
  · rw [hlock]
    split
    · by_cases heq : t' = t
      · simp [heq]
      · exact .inl (by rwa [Function.update_of_ne heq])
    · exact .inl hl

theorem DepMove.keyTxRewind :
    DepMove numTxs committed dep (.keyTxRewind t) (dep.keyTxRewind t) .idle [] := by
  refine .of_shift rfl rfl rfl (fun _ => .same rfl (by simp)) (by simp)
    (fun t' _ hi => .inl (Nat.le_trans (Nat.min_le_left _ _) hi)) (fun t' hl => ?_) (by simp)
  by_cases heq : t' = t
  · exact .inr (heq ▸ Nat.min_le_right _ _)
  · exact .inl (by simpa [TxDependency.keyTxRewind, heq] using hl)

/-- `add` takes the locks of its blocker. -/
theorem DepMove.addLock {depId : Option Nat} {pc pc' : AddPc}
    (hpc : (DepPc.add t depId pc).Precedes) (h : AddStep dep t depId pc dep' (some pc')) :
    DepMove numTxs committed dep (.add t depId pc) dep' (.add t depId pc') [] := by
  obtain ⟨hstates, haffect, hindex⟩ := h.frame
  refine ⟨fun t' => .same (by rw [hstates]) (by simp), by simp,
    fun t' _ hi => .inl (hindex ▸ hi), fun t' hl => .inl ?_, by simp,
    fun d t' hmem => .inl (haffect ▸ hmem), fun d hd => ?_, fun d hl => .inl ?_,
    by simp [DepPc.removing], ?_⟩
  · cases h with
    | lockEdges => exact hl
    | @lockBlocker d =>
      by_cases ht : t' = d
      · simp [ht]
      · simpa [ht] using hl
  · cases h with
    | lockEdges hlt hfree =>
      cases hd
      exact .inr ⟨hfree, by simp⟩
    | lockBlocker => exact .inl ⟨hd, rfl⟩
  · cases h with
    | @lockEdges d' hlt hfree =>
      by_cases hd : d = d'
      · simp [hd]
      · simpa [hd] using hl
    | lockBlocker => exact hl
  · cases h with
    | lockEdges hlt => exact hlt
    | lockBlocker => exact hpc

/-- `add` returns with the transaction behind its blocker. -/
theorem DepMove.link {d : Nat} (hlt : d < t) (h : Linked dep t d dep') :
    DepMove numTxs committed dep (.add t (some d) .state) dep' .idle (dep.onboarded [t, d]) := by
  have hne : t ≠ d := hlt.ne'
  have hlog : ∀ t', .handOut t' ∉ dep.onboarded [t, d] :=
    fun _ => TxDependency.handOut_notMem_onboarded _
  have hself : dep'.dependentState d = ⟨true, (dep.dependentState d).dependency⟩ := by
    rw [h.states, Function.update_self]
  refine ⟨fun t' => ?_, fun t' => ?_, fun t' _ hi => .inl (h.index_le.trans hi), fun t' hl => ?_,
    by simp, fun d' t' hmem => .inl ?_, nofun, fun d' hl => ?_, nofun, trivial⟩
  · by_cases hd : t' = d
    · subst hd
      have honboard : (dep.dependentState t').onboard = true ∨
          .onboard t' ∈ dep.onboarded [t, t'] := TxDependency.mem_onboarded (by simp)
      cases hn : (dep.dependentState t').dependency with
      | none => exact .release (by rw [hself, hn]) (.inl (h.rewound hn)) honboard (hlog t')
      | some e => exact .block e (by rw [hself, hn]) (.inl hn) honboard (hlog t')
    · by_cases ht : t' = t
      · subst ht
        refine .block d ?_ (.inr (.inr ⟨?_, rfl⟩))
          (TxDependency.mem_onboarded List.mem_cons_self) (hlog t')
        · rw [h.states, Function.update_of_ne hne, Function.update_self]
        · rw [h.affects, Function.update_self]
          exact List.mem_insert_self
      · exact .same (by rw [h.states, Function.update_of_ne hd, Function.update_of_ne ht])
          (hlog t')
  · rw [List.count_eq_zero.mpr (hlog t')]
    omega
  · -- the blocker's state is unlocked with the index rewound to it, if it is claimable
    by_cases hd : t' = d
    · subst hd
      cases hn : (dep.dependentState t').dependency with
      | none => exact .inr (.inl (h.rewound hn))
      | some e => exact .inr (.inr (by simp [hself, hn]))
    · exact .inl (by simpa [h.dependentLocked, hd] using hl)
  · rw [h.affects]
    by_cases hd : d' = d
    · subst hd
      rw [Function.update_self]
      exact List.mem_insert_of_mem hmem
    · rwa [Function.update_of_ne hd]
  · by_cases hd : d' = d
    · exact .inr (by rw [hd]; rfl)
    · exact .inl (by simpa [h.affectLocked, hd] using hl)

theorem DepMove.added {depId : Option Nat} {pc : AddPc} (hpc : (DepPc.add t depId pc).Precedes)
    (h : AddStep dep t depId pc dep' none) :
    DepMove numTxs committed dep (.add t depId pc) dep' .idle
      (dep.onboarded (t :: depId.toList)) := by
  have hlog : ∀ t', .handOut t' ∉ dep.onboarded (t :: depId.toList) :=
    fun _ => TxDependency.handOut_notMem_onboarded _
  have honce : ∀ t', (dep.onboarded (t :: depId.toList)).count (.handOut t') ≤ 1 := by
    intro t'
    rw [List.count_eq_zero.mpr (hlog t')]
    omega
  cases h with
  | link hlink => exact .link hpc hlink
  | keep =>
    exact .of_shift rfl rfl rfl (fun t' => .same rfl (hlog t')) honce (fun _ _ => .inl)
      (fun _ => .inl) (by simp)
  | release =>
    refine .of_shift rfl rfl rfl ?_ honce
      (fun t' _ hi => .inl (Nat.le_trans (Nat.min_le_left _ _) hi)) (fun _ => .inl) (by simp)
    refine Shift.of_update rfl (fun t' _ => hlog t') fun hstate => ?_
    exact .release hstate (.inl (Nat.min_le_right _ _))
      (TxDependency.mem_onboarded List.mem_cons_self) (hlog t)

theorem RemovePc.count_handedOff (pc pc' : RemovePc) (t : Nat) :
    (pc.handedOff pc').count (.handOut t) ≤ 1 := by
  unfold handedOff
  split
  · simp
  · cases pc'.next with
    | none => simp
    | some t' => by_cases heq : t' = t <;> simp [heq]

/-- A step of `remove(d)` between two dependents, or of the visit of one:
the sets stay as they are. -/
theorem DepMove.visiting {d : Nat} {popNext : Bool} {pc pc' : RemovePc} {before rest : List Nat}
    (hbefore : pc.remaining = some before) (hrest : pc'.remaining = some rest)
    (haffect : dep'.affectTxs = dep.affectTxs) (hlocked : dep'.affectLocked = dep.affectLocked)
    (hindex : dep'.index ≤ dep.index)
    (hlock : ∀ t, dep.dependentLocked t = true →
      dep'.dependentLocked t = true ∨ dep'.index ≤ t)
    (hshift : ∀ t, Shift committed dep (.remove d popNext pc) dep' (pc.handedOff pc') t)
    (hvisited : ∀ t, t ∈ before → t ∈ rest ∨ (dep'.dependentState t).dependency ≠ some d) :
    DepMove numTxs committed dep (.remove d popNext pc) dep' (.remove d popNext pc')
      (pc.handedOff pc') where
  shift := hshift
  once := RemovePc.count_handedOff pc pc'
  index t _ hi := .inl (Nat.le_trans hindex hi)
  unlock t hl := (hlock t hl).imp_right .inl
  claim t heq := by cases heq
  edges d' t hmem := .inl (haffect ▸ hmem)
  take d' hd' := by
    have hremoving' : (DepPc.remove d popNext pc').removing d = some rest := by
      simp [DepPc.removing, hrest]
    have hremoving : (DepPc.remove d popNext pc).removing d = some before := by
      simp [DepPc.removing, hbefore]
    have hsame := (DepPc.edges_of_removing hremoving).trans
      (DepPc.edges_of_removing hremoving').symm
    exact .inl ⟨hsame.trans hd', by rw [hlocked]⟩
  keep d' hl := .inl (hlocked ▸ hl)
  visit d' remaining hr := by
    by_cases hd : d = d'
    · subst hd
      have heq : remaining = rest := by
        simpa [DepPc.removing, hrest] using hr.symm
      subst heq
      exact .inr ⟨before, by simp [DepPc.removing, hbefore], hvisited⟩
    · simp [DepPc.removing, hd] at hr
  precedes := trivial

/-- A step of `remove`. A transaction with a blocker is onboard, so the
one that is taken for the caller is. -/
theorem DepMove.remove {d c : Nat} {popNext : Bool} {pc : RemovePc}
    {result : RemovePc ⊕ Option Nat}
    (honboard : ∀ t d, (dep.dependentState t).dependency = some d →
      (dep.dependentState t).onboard = true)
    (h : removeStep dep d popNext pc c = some (dep', result)) :
    DepMove numTxs committed dep (.remove d popNext pc) dep'
      (match result with
      | .inl pc' => .remove d popNext pc'
      | .inr _ => .idle)
      (match result with
      | .inl pc' => pc.handedOff pc'
      | .inr _ => []) := by
  cases removeStep_sound h with
  | empty =>
    exact .of_shift rfl rfl rfl (fun _ => .same rfl (by simp)) (by simp)
      (fun _ _ => .inl) (fun _ => .inl) (fun _ h => by cases h)
  | start hfree =>
    refine ⟨fun t => .same rfl (by simp [RemovePc.handedOff, RemovePc.next]), fun t => ?_,
      fun _ _ => .inl, fun _ => .inl, by simp, fun _ _ => .inl, fun d' hd' => .inr ?_,
      fun d' hl => .inl ?_, fun d' remaining hr => .inl ⟨?_, rfl⟩, trivial⟩
    · exact RemovePc.count_handedOff _ _ t
    · cases hd'
      exact ⟨hfree, by simp⟩
    · by_cases hd : d' = d
      · simp [hd]
      · simpa [hd] using hl
    · by_cases hd : d = d'
      · subst hd
        simpa [DepPc.removing, RemovePc.remaining] using hr.symm
      · simp [DepPc.removing, hd] at hr
  | finish =>
    refine ⟨fun t => .same rfl (by simp), by simp, fun _ _ => .inl, fun _ => .inl, by simp,
      fun d' t hmem => ?_, fun _ hd' => ?_, fun d' hl => ?_, fun _ _ hr => ?_, trivial⟩
    · by_cases hd : d' = d
      · exact .inr (by simp [DepPc.removing, RemovePc.remaining, hd])
      · exact .inl (by simpa [hd] using hmem)
    · cases hd'
    · by_cases hd : d' = d
      · exact .inr (by rw [hd]; rfl)
      · exact .inl (by simpa [hd] using hl)
    · cases hr
  | @pop remaining rest next tx _ hp hd htx hpop =>
    refine .visiting rfl rfl rfl rfl le_rfl (fun _ => .inl) ?_ fun t hmem => ?_
    · refine Shift.of_update rfl (fun t ht => ?_) fun hstate => .handOut (honboard tx d hd) hstate
      unfold RemovePc.handedOff
      split
      · simp
      · simpa [RemovePc.next] using ht
    · rcases (mem_of_pick? hp t).mp hmem with rfl | hrest
      · exact .inr (by simp)
      · exact .inl hrest
  | @clear remaining rest next tx _ hp hd hb =>
    have hlog : ∀ t, .handOut t ∉ RemovePc.handedOff (.each remaining next) (.rewind tx rest next) := by
      simp [RemovePc.handedOff, RemovePc.next]
    refine .visiting rfl rfl rfl rfl le_rfl (fun t hl => .inl ?_) ?_ fun t hmem => ?_
    · by_cases ht : t = tx
      · simp [ht]
      · simpa [ht] using hl
    · refine Shift.of_update rfl (fun t _ => hlog t) fun hstate => ?_
      exact .release hstate (.inr (by simp)) (.inl hb) (hlog tx)
    · rcases (mem_of_pick? hp t).mp hmem with rfl | hrest
      · exact .inr (by simp)
      · exact .inl hrest
  | @clearOff remaining rest next tx _ hp hd hb =>
    exact absurd (honboard tx d hd) (by simp [hb])
  | @skip remaining rest next tx _ hp hd =>
    refine .visiting rfl rfl rfl rfl le_rfl (fun _ => .inl)
      (fun t => .same rfl (by simp [RemovePc.handedOff, RemovePc.next])) fun t hmem => ?_
    rcases (mem_of_pick? hp t).mp hmem with rfl | hrest
    · exact .inr hd
    · exact .inl hrest
  | @rewind remaining next tx =>
    refine .visiting rfl rfl rfl rfl (Nat.min_le_left _ _) (fun t hl => ?_)
      (fun t => .same rfl (by simp [RemovePc.handedOff, RemovePc.next])) fun t hmem => .inl hmem
    by_cases ht : t = tx
    · exact .inr (ht ▸ Nat.min_le_right _ _)
    · exact .inl (by simpa [ht] using hl)

theorem depMove_of_step {c : Nat} {pc pc' : DepPc} {events : List DepEvent}
    (honboard : ∀ t d, (dep.dependentState t).dependency = some d →
      (dep.dependentState t).onboard = true) (hprecedes : pc.Precedes)
    (h : depCallStep numTxs committed dep c pc = some (dep', pc', events)) :
    DepMove numTxs committed dep pc dep' pc' events := by
  cases pc with
  | idle => cases h
  | nextLoad =>
    cases h
    refine .of_shift (by split <;> rfl) rfl rfl (fun _ => .same rfl (by simp)) (by simp)
      (fun _ _ => .inl) (fun _ => .inl) (by simp)
  | nextFetch =>
    cases h
    refine .of_shift (by split <;> rfl) rfl rfl (fun _ => .same rfl (by simp)) (by simp)
      (fun t ht hi => ?_) (fun _ => .inl) (by simp)
    rcases Nat.eq_or_lt_of_le hi with rfl | hlt
    · exact .inr (if_neg (by omega))
    · exact .inl hlt
  | nextClaim index =>
    obtain ⟨⟨dep₁, claimed⟩, hclaim, heq⟩ := Option.map_eq_some_iff.mp h
    cases heq
    exact .claim_of_claim hclaim
  | remove d popNext pc =>
    obtain ⟨⟨dep₁, result⟩, hremove, heq⟩ := Option.map_eq_some_iff.mp h
    cases result <;> cases heq <;> exact .remove honboard hremove
  | commit t =>
    obtain ⟨dep₁, hcommit, heq⟩ := Option.map_eq_some_iff.mp h
    cases heq
    exact .commit nofun hcommit
  | keyTx t =>
    obtain ⟨⟨dep₁, rewind⟩, hkey, heq⟩ := Option.map_eq_some_iff.mp h
    cases heq
    exact .keyTx hkey
  | keyTxRewind t =>
    cases h
    exact .keyTxRewind
  | add t depId pc =>
    obtain ⟨⟨dep₁, res⟩, hadd, heq⟩ := Option.map_eq_some_iff.mp h
    cases res with
    | some pc₁ =>
      cases heq
      exact .addLock hprecedes (addStep_sound hadd)
    | none =>
      cases heq
      exact .added hprecedes (addStep_sound hadd)

end

/-! ## The invariant -/

/-- Between two hand-outs of `t` the log has an entry that put it back on
board. -/
def Spaced (t : Nat) (events : List DepEvent) : Prop :=
  ∀ l₁ l₂ l₃, events = l₁ ++ .handOut t :: (l₂ ++ .handOut t :: l₃) → .onboard t ∈ l₂

structure DepSystem.Inv {W : Type} (numTxs : Nat) (s : DepSystem W) : Prop where
  onboard : ∀ t d, (s.dep.dependentState t).dependency = some d →
    (s.dep.dependentState t).onboard = true
  edge : ∀ t d, (s.dep.dependentState t).dependency = some d → d ≠ t → t ∈ s.dep.affectTxs d
  queued : ∀ t, t < numTxs → (s.dep.dependentState t).onboard = true →
    (s.dep.dependentState t).dependency = none →
    s.dep.index ≤ t ∨ (∃ w, s.callers w = .nextClaim t) ∨ s.dep.dependentLocked t = true
  removing : ∀ w d remaining, (s.callers w).removing d = some remaining →
    ∀ t, (s.dep.dependentState t).dependency = some d → d ≠ t → t ∈ remaining
  edges : Exclusive s.dep.affectLocked fun w d => (s.callers w).edges = some d
  precedes : ∀ w, (s.callers w).Precedes
  barrier : ∀ t, t < numTxs → (s.dep.dependentState t).dependency = some t →
    s.committed < t ∨ ∃ c, s.committing = some c ∧ c + 1 = t
  handed : ∀ t l₁ l₂, s.events = l₁ ++ .handOut t :: l₂ →
    .onboard t ∈ l₂ ∨ (s.dep.dependentState t).onboard = false
  spaced : ∀ t, Spaced t s.events

/-- One more step may hand `t` out once, when it was put back on board
after the last time. -/
theorem Spaced.append {t : Nat} {events more : List DepEvent} (h : Spaced t events)
    (honce : more.count (.handOut t) ≤ 1)
    (hagain : .handOut t ∈ more → ∀ l₁ l₂, events = l₁ ++ .handOut t :: l₂ → .onboard t ∈ l₂) :
    Spaced t (events ++ more) := by
  intro l₁ l₂ l₃ heq
  rcases List.append_eq_append_iff.mp heq with ⟨a, rfl, hmore⟩ | ⟨a, hevents, hrest⟩
  · -- Both hand-outs are new.
    simp only [hmore, List.count_append, List.count_cons_self] at honce
    omega
  · cases a with
    | nil =>
      have hmore : more = .handOut t :: (l₂ ++ .handOut t :: l₃) := hrest.symm
      simp only [hmore, List.count_append, List.count_cons_self] at honce
      omega
    | cons e a =>
      simp only [List.cons_append, List.cons.injEq] at hrest
      obtain ⟨rfl, hrest⟩ := hrest
      rcases List.append_eq_append_iff.mp hrest with ⟨b, rfl, hmore⟩ | ⟨b, rfl, hmore⟩
      · cases b with
        | nil =>
          -- The second one is new, and is the first of the step.
          have hmem : DepEvent.handOut t ∈ more := by
            rw [← (List.nil_append more), ← hmore]
            exact List.mem_cons_self
          exact hagain hmem l₁ l₂ (by simpa using hevents)
        | cons e b =>
          simp only [List.cons_append, List.cons.injEq] at hmore
          obtain ⟨rfl, -⟩ := hmore
          exact h l₁ l₂ b hevents
      · have hmem : DepEvent.handOut t ∈ more := by
          rw [hmore]
          exact List.mem_append_right _ List.mem_cons_self
        exact List.mem_append_left _ (hagain hmem l₁ a hevents)

section

variable {W : Type} {numTxs : Nat} {s : DepSystem W} {dep' : TxDependency} {callers' : W → DepPc}
  {pc pc' : DepPc} {events : List DepEvent}

theorem Shift.handed {committed t : Nat} {dep : TxDependency}
    (h : Shift committed dep pc dep' events t) (hlog : .handOut t ∈ events) :
    (dep.dependentState t).onboard = true ∧ dep'.dependentState t = ⟨false, none⟩ := by
  cases h with
  | handOut honboard hstate => exact ⟨honboard, hstate⟩
  | same _ hno | release _ _ _ hno | block _ _ _ _ hno => exact absurd hlog hno

/-- A transaction that is off board comes back only through the log. -/
theorem Shift.off {committed t : Nat} {dep : TxDependency}
    (h : Shift committed dep pc dep' events t) (hoff : (dep.dependentState t).onboard = false) :
    .onboard t ∈ events ∨ (dep'.dependentState t).onboard = false := by
  cases h with
  | same hstate => exact .inr (by rw [hstate, hoff])
  | handOut _ hstate => exact .inr (by rw [hstate])
  | release _ _ honboard | block _ _ _ honboard =>
    exact .inl (honboard.resolve_left (by simp [hoff]))

/-- A blocker after the step is the old one, the barrier, or the one of a
call of `add`. -/
theorem Shift.blocker {committed t d : Nat} {dep : TxDependency}
    (h : Shift committed dep pc dep' events t)
    (hd : (dep'.dependentState t).dependency = some d) :
    (dep.dependentState t).dependency = some d ∨ d = t ∧ committed < t ∨
      t ∈ dep'.affectTxs d ∧ pc = .add t (some d) .state := by
  cases h with
  | same hstate => exact .inl (hstate ▸ hd)
  | block d' hstate hblocker =>
    rw [hstate] at hd
    cases hd
    exact hblocker
  | handOut _ hstate | release hstate => rw [hstate] at hd; cases hd

/-- **Step lemma.** The invariant follows from what a step does. The
mover is a caller, or the commit loop, which never is inside `remove` or
`next`. -/
theorem DepSystem.Inv.move (h : s.Inv numTxs) (mover : Option W)
    (hmove : DepMove numTxs s.committed s.dep pc dep' pc' events)
    (hmover : ∀ w, mover = some w → s.callers w = pc ∧ callers' w = pc')
    (hothers : ∀ w, mover ≠ some w → callers' w = s.callers w)
    (hloop : mover = none → pc.edges = none ∧ ∀ t, pc' ≠ .nextClaim t) :
    DepSystem.Inv numTxs { s with dep := dep', callers := callers', events := s.events ++ events }
    where
  onboard t d hd := by
    dsimp only at hd ⊢
    cases hmove.shift t with
    | same hstate =>
      rw [hstate] at hd ⊢
      exact h.onboard t d hd
    | handOut _ hstate => rw [hstate] at hd; cases hd
    | release hstate | block _ hstate => rw [hstate]
  edge t d hd hne := by
    rcases (hmove.shift t).blocker hd with hold | ⟨heq, -⟩ | ⟨hmem, -⟩
    · rcases hmove.edges d t (h.edge t d hold hne) with hmem | hlast
      · exact hmem
      · -- `remove(d)` forgets its dependents after it has visited all of them.
        cases mover with
        | none => exact absurd (DepPc.edges_of_removing hlast) (by simp [hloop])
        | some w =>
          obtain ⟨hw, -⟩ := hmover w rfl
          have := h.removing w d [] (hw ▸ hlast) t hold hne
          cases this
    · exact absurd heq hne
    · exact hmem
  queued t ht hb hn := by
    dsimp only at hb hn ⊢
    cases hmove.shift t with
    | handOut _ hstate => rw [hstate] at hb; cases hb
    | block _ hstate => rw [hstate] at hn; cases hn
    | release _ hreach => exact hreach.imp_right .inr
    | same hstate =>
      rw [hstate] at hb hn
      rcases h.queued t ht hb hn with hindex | ⟨w, hw⟩ | hlock
      · rcases hmove.index t ht hindex with hindex | hpc
        · exact .inl hindex
        · cases hm : mover with
          | none => exact absurd hpc ((hloop hm).2 t)
          | some w => exact .inr (.inl ⟨w, (hmover w hm).2.trans hpc⟩)
      · by_cases hm : mover = some w
        · obtain ⟨hpc, -⟩ := hmover w hm
          rcases hmove.claim t (hpc.symm.trans hw) with hoff | hsome
          · rw [hstate, hb] at hoff
            cases hoff
          · rw [hstate, hn] at hsome
            exact absurd rfl hsome
        · exact .inr (.inl ⟨w, (hothers w hm).trans hw⟩)
      · rcases hmove.unlock t hlock with hlock | hindex | hsome
        · exact .inr (.inr hlock)
        · exact .inl hindex
        · rw [hstate, hn] at hsome
          exact absurd rfl hsome
  removing w d remaining hw t hd hne := by
    dsimp only at hw hd
    -- whoever puts a transaction behind `d` has the edges of `d`, so nobody else removes them
    have hadds : t ∈ dep'.affectTxs d ∧ pc = .add t (some d) .state →
        ∀ r, (s.callers w).removing d ≠ some r := by
      rintro ⟨-, hpc⟩ r hr
      cases hm : mover with
      | none => exact absurd (hloop hm).1 (by simp [hpc, DepPc.edges])
      | some w' =>
        obtain ⟨hpc', -⟩ := hmover w' hm
        have heq := h.edges.unique w w' d (DepPc.edges_of_removing hr)
          (show (s.callers w').edges = some d by rw [hpc', hpc]; rfl)
        rw [heq, hpc', hpc] at hr
        cases hr
    by_cases hm : mover = some w
    · obtain ⟨hpc, hpc'⟩ := hmover w hm
      rw [hpc'] at hw
      rcases hmove.visit d remaining hw with ⟨rfl, hstates⟩ | ⟨before, hbefore, hvisited⟩
      · rw [hstates] at hd
        exact h.edge t d hd hne
      · rcases (hmove.shift t).blocker hd with hd' | ⟨heq, -⟩ | hnew
        · exact (hvisited t (h.removing w d before (hpc ▸ hbefore) t hd' hne)).resolve_right
            (absurd hd)
        · exact absurd heq hne
        · exact absurd (hpc ▸ hbefore) (hadds hnew before)
    · rw [hothers w hm] at hw
      rcases (hmove.shift t).blocker hd with hd' | ⟨heq, -⟩ | hnew
      · exact h.removing w d remaining hw t hd' hne
      · exact absurd heq hne
      · exact absurd hw (hadds hnew remaining)
  edges := by
    cases hm : mover with
    | none =>
      -- the commit loop takes and releases no reverse edges
      have hsame : callers' = s.callers := funext fun w => hothers w (by simp [hm])
      dsimp only
      rw [hsame]
      refine ⟨fun w d hd => ?_, h.edges.unique⟩
      exact (hmove.keep d (h.edges.taken w d hd)).resolve_right (by simp [hloop hm])
    | some w =>
      obtain ⟨hpc, hpc'⟩ := hmover w hm
      dsimp only
      refine h.edges.step w (fun w' hne d hd => ?_) (fun d hd => ?_) fun d hl => ?_
      · rwa [hothers w' (by simp [hm, Ne.symm hne])] at hd
      · rw [hpc'] at hd
        rcases hmove.take d hd with ⟨hown, heq⟩ | ⟨hfree, hlocked⟩
        · rw [← hpc] at hown
          exact ⟨heq.trans (h.edges.taken w d hown), .inl hown⟩
        · exact ⟨hlocked, .inr hfree⟩
      · rw [hpc]
        exact hmove.keep d hl
  precedes w := by
    by_cases hm : mover = some w
    · dsimp only
      rw [(hmover w hm).2]
      exact hmove.precedes
    · dsimp only
      rw [hothers w hm]
      exact h.precedes w
  barrier t ht hd := by
    rcases (hmove.shift t).blocker hd with hold | ⟨-, hlt⟩ | ⟨-, hpc⟩
    · exact h.barrier t ht hold
    · exact .inl hlt
    · -- a blocker given to `add` precedes
      cases hm : mover with
      | none => exact absurd (hloop hm).1 (by simp [hpc, DepPc.edges])
      | some w =>
        have hlt := h.precedes w
        rw [(hmover w hm).1, hpc] at hlt
        exact absurd hlt (Nat.lt_irrefl t)
  handed t l₁ l₂ heq := by
    have hnew : .handOut t ∈ events → (dep'.dependentState t).onboard = false := by
      intro hlog
      rw [((hmove.shift t).handed hlog).2]
    rcases List.append_eq_append_iff.mp heq with ⟨a, rfl, hevents⟩ | ⟨a, hevents, hrest⟩
    · exact .inr (hnew (by rw [hevents]; exact List.mem_append_right _ List.mem_cons_self))
    · cases a with
      | nil =>
        have hevents : events = .handOut t :: l₂ := hrest.symm
        exact .inr (hnew (by rw [hevents]; exact List.mem_cons_self))
      | cons e a =>
        simp only [List.cons_append, List.cons.injEq] at hrest
        obtain ⟨rfl, rfl⟩ := hrest
        rcases h.handed t l₁ a hevents with hmem | hoff
        · exact .inl (List.mem_append_left _ hmem)
        · exact ((hmove.shift t).off hoff).imp_left (List.mem_append_right _)
  spaced t := by
    refine (h.spaced t).append (hmove.once t) fun hlog l₁ l₂ heq => ?_
    have honboard := ((hmove.shift t).handed hlog).1
    exact (h.handed t l₁ l₂ heq).resolve_right (by simp [honboard])

theorem DepSystem.inv_initial : ({} : DepSystem W).Inv numTxs where
  onboard _ _ hd := by cases hd
  edge _ _ hd := by cases hd
  queued _ _ _ _ := .inl (Nat.zero_le _)
  removing _ _ _ hw := by cases hw
  edges := ⟨fun _ _ hw => (by cases hw), fun _ _ _ hw => (by cases hw)⟩
  precedes _ := trivial
  barrier _ _ hd := by cases hd
  handed _ l₁ _ heq := by cases l₁ <;> cases heq
  spaced _ l₁ _ _ heq := by cases l₁ <;> cases heq

/-- A commit leaves no blocker on the successor of its transaction. -/
theorem commit_clears {dep : TxDependency} {c : Nat} (hc : c + 1 < numTxs)
    (honboard : ∀ d, (dep.dependentState (c + 1)).dependency = some d →
      (dep.dependentState (c + 1)).onboard = true)
    (h : dep.commit numTxs c = some dep') :
    (dep'.dependentState (c + 1)).dependency = none ∧
      ((dep.dependentState (c + 1)).onboard = true → dep'.index ≤ c + 1) := by
  rcases TxDependency.commit_eq h with ⟨rfl, hle | hoff⟩ | ⟨-, rfl⟩
  · omega
  · refine ⟨Option.eq_none_iff_forall_ne_some.mpr fun d hd => ?_, fun hb => ?_⟩
    · simp [honboard d hd] at hoff
    · simp [hb] at hoff
  · exact ⟨by simp, fun _ => Nat.min_le_right _ _⟩

variable [DecidableEq W] {s' : DepSystem W}

/-- A step of the caller `w`. -/
theorem DepSystem.Inv.caller (h : s.Inv numTxs) {w : W}
    (hmove : DepMove numTxs s.committed s.dep (s.callers w) dep' pc' events) :
    DepSystem.Inv numTxs
      { s with
        dep := dep', callers := Function.update s.callers w pc', events := s.events ++ events } :=
  h.move (some w) hmove
    (fun w' hw => by cases hw; exact ⟨rfl, Function.update_self ..⟩)
    (fun w' hw => Function.update_of_ne (fun heq => hw (by rw [heq])) ..) nofun

theorem DepSystem.Inv.step {action : DepAction W} (h : s.Inv numTxs)
    (hs : depSystemStep numTxs s action = some s') : s'.Inv numTxs := by
  cases action with
  | call w call =>
    simp only [depSystemStep] at hs
    split at hs
    · rename_i hcall
      cases hs
      have hmove : DepMove numTxs s.committed s.dep (s.callers w) s.dep call.start [] := by
        rw [hcall.1]
        exact .of_shift (by cases call <;> rfl) rfl rfl (fun _ => .same rfl (by simp)) (by simp)
          (fun _ _ => .inl) (fun _ => .inl) nofun
      simpa using h.caller hmove
    · cases hs
  | step w c =>
    obtain ⟨⟨dep', pc', events⟩, hstep, rfl⟩ := Option.map_eq_some_iff.mp hs
    exact h.caller (depMove_of_step h.onboard (h.precedes w) hstep)
  | publish =>
    simp only [depSystemStep] at hs
    split at hs
    · rename_i hnone
      cases hs
      refine ⟨h.onboard, h.edge, h.queued, h.removing, h.edges, h.precedes, fun t ht hd => ?_,
        h.handed, h.spaced⟩
      rcases h.barrier t ht hd with hlt | ⟨c, hc, -⟩
      · rcases Nat.eq_or_lt_of_le (Nat.succ_le_of_lt hlt) with heq | hlt
        · exact .inr ⟨s.committed, rfl, heq⟩
        · exact .inl hlt
      · rw [hnone.1] at hc
        cases hc
    · cases hs
  | release =>
    obtain ⟨c, hc, hs⟩ := Option.bind_eq_some_iff.mp hs
    obtain ⟨dep', hcommit, rfl⟩ := Option.map_eq_some_iff.mp hs
    have hmove : DepMove numTxs s.committed s.dep (.commit c) dep' .idle [] :=
      .commit nofun hcommit
    have hinv : DepSystem.Inv numTxs { s with dep := dep', events := s.events ++ [] } :=
      h.move none hmove nofun (fun _ _ => rfl) fun _ => ⟨rfl, nofun⟩
    rw [List.append_nil] at hinv
    refine ⟨hinv.onboard, hinv.edge, hinv.queued, hinv.removing, hinv.edges, hinv.precedes,
      fun t ht hd => ?_, hinv.handed, hinv.spaced⟩
    rcases hinv.barrier t ht hd with hlt | ⟨c', hc', rfl⟩
    · exact .inl hlt
    · -- The barrier that the published commit was meant to release is gone.
      obtain rfl : c = c' := Option.some.inj (hc.symm.trans hc')
      have hclear := (commit_clears ht (fun d => h.onboard (c + 1) d) hcommit).1
      exact absurd (hclear.symm.trans hd) nofun

/-- **Run lemma.** -/
theorem DepSystem.inv_of_reach (h : Reach (depSystemStep numTxs) Free ({} : DepSystem W) s) :
    s.Inv numTxs :=
  h.invariant DepSystem.inv_initial fun _ _ _ _ hinv _ hs => hinv.step hs

/-- A step of `remove(d)` clears no other blocker than `d`. -/
theorem RemoveStep.dependency_eq {dep : TxDependency} {d t : Nat} {popNext : Bool} {pc : RemovePc}
    {result : RemovePc ⊕ Option Nat} (h : RemoveStep dep d popNext pc dep' result)
    (ht : (dep.dependentState t).dependency ≠ some d) :
    (dep'.dependentState t).dependency = (dep.dependentState t).dependency := by
  have hne : ∀ tx, (dep.dependentState tx).dependency = some d → t ≠ tx := by
    rintro tx hd rfl
    exact ht hd
  cases h with
  | pop _ hd | clear _ hd | clearOff _ hd => simp [hne _ hd]
  | _ => rfl

omit [DecidableEq W] in
/-- When `remove(d)` returns, nobody is blocked by `d`. -/
theorem DepSystem.Inv.remove_returns (h : s.Inv numTxs) {w : W} {d : Nat} {popNext : Bool}
    {pc : RemovePc} {next : Option Nat} (hw : s.callers w = .remove d popNext pc)
    (hr : RemoveStep s.dep d popNext pc dep' (.inr next)) (t : Nat) (ht : t ≠ d) :
    (dep'.dependentState t).dependency ≠ some d := by
  intro hd
  cases hr with
  | empty hempty =>
    have hmem := h.edge t d hd ht.symm
    rw [hempty] at hmem
    cases hmem
  | finish =>
    have hremaining : (s.callers w).removing d = some [] := by
      rw [hw]
      simp [DepPc.removing, RemovePc.remaining]
    have hmem := h.removing w d [] hremaining t hd ht.symm
    cases hmem

theorem DepSystem.Inv.remove (h : s.Inv numTxs) {w : W} {c d : Nat} {popNext : Bool}
    {pc : RemovePc} (hw : s.callers w = .remove d popNext pc)
    (hs : depSystemStep numTxs s (.step w c) = some s') :
    (∀ t, (s.dep.dependentState t).dependency ≠ some d →
      (s'.dep.dependentState t).dependency = (s.dep.dependentState t).dependency) ∧
    (s'.callers w = .idle → ∀ t, t ≠ d → (s'.dep.dependentState t).dependency ≠ some d) := by
  obtain ⟨⟨dep', pc', events⟩, hstep, rfl⟩ := Option.map_eq_some_iff.mp hs
  rw [hw] at hstep
  obtain ⟨⟨dep₁, result⟩, hremove, heq⟩ := Option.map_eq_some_iff.mp hstep
  have hr := removeStep_sound hremove
  cases result with
  | inl pc₁ =>
    cases heq
    refine ⟨fun t ht => hr.dependency_eq ht, fun hidle => ?_⟩
    simp at hidle
  | inr next =>
    cases heq
    exact ⟨fun t ht => hr.dependency_eq ht, fun _ => h.remove_returns hw hr⟩

end

/-! ## No retry is lost, and none handed out twice -/

/-- Whatever calls interleave. A claimable transaction lies ahead of the
index, or a call of `next` has fetched it and not yet looked at it; a
blocker other than the transaction itself has it among its dependents,
`remove` releases all of them and nobody else; a transaction behind its
own commit barrier waits for a commit that is still to be published or
to be released, and that release clears the barrier; and between two
hand-outs of a transaction some call put it back on board. -/
theorem retries_are_kept_and_handed_out_once {W : Type} [DecidableEq W] {numTxs : Nat}
    {s : DepSystem W} (h : Reach (depSystemStep numTxs) Free {} s) :
    (∀ t, t < numTxs → s.dep.dependentLocked t = false →
      (s.dep.dependentState t).onboard = true → (s.dep.dependentState t).dependency = none →
      s.dep.index ≤ t ∨ ∃ w, s.callers w = .nextClaim t) ∧
    (∀ t d, (s.dep.dependentState t).dependency = some d → d ≠ t → t ∈ s.dep.affectTxs d) ∧
    (∀ w c d popNext pc s', s.callers w = .remove d popNext pc →
      depSystemStep numTxs s (.step w c) = some s' →
      (∀ t, (s.dep.dependentState t).dependency ≠ some d →
        (s'.dep.dependentState t).dependency = (s.dep.dependentState t).dependency) ∧
      (s'.callers w = .idle → ∀ t, t ≠ d → (s'.dep.dependentState t).dependency ≠ some d)) ∧
    (∀ t, t < numTxs → (s.dep.dependentState t).dependency = some t →
      (s.dep.dependentState t).onboard = true ∧
        (s.committed < t ∨ ∃ c, s.committing = some c ∧ c + 1 = t)) ∧
    (∀ c s', s.committing = some c → c + 1 < numTxs →
      depSystemStep numTxs s .release = some s' →
      (s'.dep.dependentState (c + 1)).dependency = none ∧
        ((s.dep.dependentState (c + 1)).onboard = true → s'.dep.index ≤ c + 1)) ∧
    ∀ t l₁ l₂ l₃, s.events = l₁ ++ .handOut t :: (l₂ ++ .handOut t :: l₃) →
      .onboard t ∈ l₂ := by
  have hinv := DepSystem.inv_of_reach h
  refine ⟨fun t ht hlock hb hn => ?_, hinv.edge, fun w c d popNext pc s' hw hs => hinv.remove hw hs,
    fun t ht hd => ⟨hinv.onboard t t hd, hinv.barrier t ht hd⟩, fun c s' hc hlt hs => ?_,
    hinv.spaced⟩
  · rcases hinv.queued t ht hb hn with hindex | hfetched | hlocked
    · exact .inl hindex
    · exact .inr hfetched
    · rw [hlock] at hlocked
      cases hlocked
  · obtain ⟨c', hc', hs⟩ := Option.bind_eq_some_iff.mp hs
    obtain rfl : c = c' := Option.some.inj (hc.symm.trans hc')
    obtain ⟨dep', hcommit, rfl⟩ := Option.map_eq_some_iff.mp hs
    exact commit_clears hlt (fun d => hinv.onboard (c + 1) d) hcommit

/-- Both transactions of a block are handed out; 1 conflicts with 0, which
puts both back on board; 0 is handed out again, and its `remove` hands 1
to its caller. -/
def DepAction.retried : List (DepAction Unit) :=
  let call (call : DepCall) (steps : Nat) : List (DepAction Unit) :=
    .call () call :: List.replicate steps (.step () 0)
  call .next 3 ++ call .next 3 ++ call (.add 1 (some 0)) 3 ++ call .next 3 ++ call .next 3 ++
    call (.remove 0 true) 3

theorem retries_are_kept_and_handed_out_once_retried :
    ∃ s : DepSystem Unit, Reach (depSystemStep 2) Free {} s ∧
      s.events = [.handOut 0, .handOut 1, .onboard 1, .onboard 0, .handOut 0, .handOut 1] ∧
      DepEvent.onboard 1 ∈ [DepEvent.onboard 1, .onboard 0, .handOut 0] := by
  have hrun : (exec (depSystemStep 2) {} DepAction.retried).isSome := rfl
  refine ⟨_, reach_get hrun, rfl, ?_⟩
  exact (retries_are_kept_and_handed_out_once (reach_get hrun)).2.2.2.2.2 1 [.handOut 0] _ [] rfl

end Grevm
