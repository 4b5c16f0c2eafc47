/-
Grevm.BeneficiaryHistory — a history under concurrent callers.

`src/beneficiary/history.rs` used by anybody: executions record exact
effects and estimates and validations invalidate them, in any order and
for any incarnation, stale and repeated ones included, while walks of
`resolve_before` and `validate` visit one entry at a time. The state also
keeps what the calls have done so far: the records that were accepted and
the results that were returned. An entry changes only by an accepted
record of a newer incarnation or by an invalidation, so a version stands
for one record and a list of versions for one walk.
-/
import Grevm.Runs
import Grevm.Reads

namespace Grevm

open Grevm.Runs

/-! ## The machine -/

/-- A call that walks the history. -/
inductive HistoryCall where
  | resolveBefore
  | validate (expected : BeneficiaryReadVersion)
  deriving DecidableEq

/-- A walk of transaction `txid` in progress. -/
structure HistoryReader where
  txid : Nat
  call : HistoryCall
  scan : ScanState
  deriving DecidableEq

/-- What a walking call has returned. A validation also keeps the walk it
is based on, which is missing when an estimate blocked it. -/
inductive HistoryEvent where
  | resolved (txid : Nat) (account : Option AccountInfo) (version : BeneficiaryReadVersion)
  | blocked (txid : Nat) (blocker : Nat)
  | validated (txid : Nat) (expected : BeneficiaryReadVersion) (found : Option HistoryScan)
      (outcome : BeneficiaryValidation)
  deriving DecidableEq

structure HistoryState where
  entries : Nat → EntryState := fun _ => {}
  readers : Nat → Option HistoryReader := fun _ => none
  accepted : List (TxVersion × EntryValue) := []
  events : List HistoryEvent := []

inductive HistoryAction where
  | recordExecution (version : TxVersion) (deferredReward : Option DeferredBeneficiaryReward)
      (account : Option Account)
  | recordEstimate (version : TxVersion)
  | invalidate (version : TxVersion)
  | call (reader : Nat) (txid : Nat) (call : HistoryCall)
  | visit (reader : Nat)

namespace HistoryState

/-- `HistoryEntry::record` under the lock of the entry; a refused record
changes nothing. -/
def record (s : HistoryState) (version : TxVersion) (value : EntryValue) : HistoryState :=
  match (s.entries version.txid).record version.incarnation value with
  | none => s
  | some entry =>
    { s with
      entries := Function.update s.entries version.txid entry
      accepted := s.accepted ++ [(version, value)] }

/-- `HistoryEntry::invalidate` under the lock of the entry. -/
def invalidate (s : HistoryState) (version : TxVersion) : HistoryState :=
  match (s.entries version.txid).invalidate version.incarnation with
  | none => s
  | some entry => { s with entries := Function.update s.entries version.txid entry }

/-- The call of a reader returns. -/
def finish (s : HistoryState) (reader : Nat) (event : HistoryEvent) : HistoryState :=
  { s with
    readers := Function.update s.readers reader none
    events := s.events ++ [event] }

end HistoryState

/-- The event of a call whose walk is complete. -/
def HistoryReader.found (r : HistoryReader) (found : HistoryScan) : HistoryEvent :=
  match r.call with
  | .resolveBefore => .resolved r.txid found.resolve found.version
  | .validate expected => .validated r.txid expected (some found) (found.validate expected)

/-- The event of a call that met an estimate. -/
def HistoryReader.blockedBy (r : HistoryReader) (blocker : Nat) : HistoryEvent :=
  match r.call with
  | .resolveBefore => .blocked r.txid blocker
  | .validate expected =>
    .validated r.txid expected none { valid := false, dependency := some blocker }

/-- One step of a history of `blockSize` entries. An index outside the
block and a reward beside a finalized beneficiary account fail their
assertions. -/
def historyStep (blockSize : Nat) (anchor : Option AccountInfo) (s : HistoryState) :
    HistoryAction → Option HistoryState
  | .recordExecution version deferredReward account =>
    if version.txid < blockSize then
      (BeneficiaryEffect.fromExecution deferredReward account).map fun effect =>
        s.record version (.exact effect)
    else none
  | .recordEstimate version =>
    if version.txid < blockSize then some (s.record version .estimate) else none
  | .invalidate version =>
    if version.txid < blockSize then some (s.invalidate version) else none
  | .call reader txid call =>
    match s.readers reader with
    | some _ => none
    | none =>
      if txid ≤ blockSize then
        some { s with
          readers := Function.update s.readers reader
            (some { txid, call, scan := { writer := txid } }) }
      else none
  | .visit reader =>
    match s.readers reader with
    | none => none
    | some r =>
      match r.scan.step anchor s.entries with
      | .more scan =>
        some { s with readers := Function.update s.readers reader (some { r with scan }) }
      | .done found => some (s.finish reader (r.found found))
      | .blocked blocker => some (s.finish reader (r.blockedBy blocker))

/-! ## A version stands for one record -/

namespace HistoryState

variable {s s' : HistoryState} {version : TxVersion} {value : EntryValue}

/-- The record of a version with an exact effect has been accepted. -/
def Accepts (s : HistoryState) (visit : Visit) : Prop :=
  (visit.1, EntryValue.exact visit.2) ∈ s.accepted

/-- What is accepted against what is stored: no version is accepted
twice, none is newer than its entry, and an exact entry is an accepted
record. -/
structure Faithful (s : HistoryState) : Prop where
  unique : ∀ version value value', (version, value) ∈ s.accepted →
    (version, value') ∈ s.accepted → value = value'
  upto : ∀ version value, (version, value) ∈ s.accepted →
    version.incarnation ≤ (s.entries version.txid).incarnation
  stored : ∀ visit : Visit, visit.Current s.entries → s.Accepts visit

theorem Faithful.start : ({} : HistoryState).Faithful where
  unique := by
    intro version value value' h
    cases h
  upto := by
    intro version value h
    cases h
  stored := by
    intro visit h
    simp [Visit.Current] at h

/-- An accepted record is newer than every record of its entry before
it. -/
theorem Faithful.record (h : s.Faithful) (version : TxVersion) (value : EntryValue) :
    (s.record version value).Faithful := by
  unfold HistoryState.record
  split
  · exact h
  · rename_i entry hrec
    obtain ⟨hlt, rfl⟩ := EntryState.record_eq_some_iff.mp hrec
    have hfresh : ∀ value', (version, value') ∉ s.accepted := by
      intro value' hmem
      have := h.upto version value' hmem
      omega
    constructor
    · intro v a b ha hb
      simp only [List.mem_append, List.mem_singleton, Prod.mk.injEq] at ha hb
      rcases ha with ha | ⟨rfl, rfl⟩
      · rcases hb with hb | ⟨rfl, rfl⟩
        · exact h.unique v a b ha hb
        · exact absurd ha (hfresh a)
      · rcases hb with hb | ⟨-, rfl⟩
        · exact absurd hb (hfresh b)
        · rfl
    · intro v a ha
      simp only [List.mem_append, List.mem_singleton, Prod.mk.injEq] at ha
      rcases ha with ha | ⟨rfl, rfl⟩
      · have hle := h.upto v a ha
        by_cases ht : v.txid = version.txid
        · simp only [ht, Function.update_self] at hle ⊢
          omega
        · simpa [Function.update_of_ne ht] using hle
      · simp
    · rintro ⟨v, effect⟩ hcur
      simp only [Visit.Current] at hcur
      by_cases ht : v.txid = version.txid
      · rw [ht, Function.update_self] at hcur
        injection hcur with hinc hval
        have hv : v = version := by
          cases v
          cases version
          simp_all
        simp [Accepts, hv, hval]
      · rw [Function.update_of_ne ht] at hcur
        exact List.mem_append_left _ (h.stored (v, effect) hcur)

/-- An invalidation hides a record and accepts none. -/
theorem Faithful.invalidate (h : s.Faithful) (version : TxVersion) :
    (s.invalidate version).Faithful := by
  unfold HistoryState.invalidate
  split
  · exact h
  · rename_i entry hinv
    simp only [EntryState.invalidate, Option.ite_none_right_eq_some, Option.some.injEq] at hinv
    obtain ⟨-, rfl⟩ := hinv
    refine ⟨h.unique, ?_, ?_⟩
    · intro v a ha
      have hle := h.upto v a ha
      by_cases ht : v.txid = version.txid
      · simpa [ht] using hle
      · simpa [Function.update_of_ne ht] using hle
    · rintro ⟨v, effect⟩ hcur
      simp only [Visit.Current] at hcur
      by_cases ht : v.txid = version.txid
      · rw [ht, Function.update_self] at hcur
        injection hcur with _ hval
        cases hval
      · rw [Function.update_of_ne ht] at hcur
        exact h.stored (v, effect) hcur

/-- Records are kept. -/
theorem accepted_record (version : TxVersion) (value : EntryValue) :
    s.accepted ⊆ (s.record version value).accepted := by
  unfold HistoryState.record
  split
  · exact List.Subset.refl _
  · exact List.subset_append_left _ _

theorem accepted_invalidate (version : TxVersion) :
    (s.invalidate version).accepted = s.accepted := by
  unfold HistoryState.invalidate
  split <;> rfl

end HistoryState

/-- Versions of accepted records determine their effects. -/
theorem visits_eq_of_accepted {s : HistoryState} (h : s.Faithful) {visits visits' : List Visit}
    (hv : ∀ visit, visit ∈ visits → s.Accepts visit)
    (hv' : ∀ visit, visit ∈ visits' → s.Accepts visit)
    (heq : visits.map Prod.fst = visits'.map Prod.fst) : visits = visits' := by
  induction visits generalizing visits' with
  | nil => simpa using heq.symm
  | cons visit visits ih =>
    cases visits' with
    | nil => simp at heq
    | cons visit' visits' =>
      simp only [List.map_cons, List.cons.injEq] at heq
      have hhead := hv visit List.mem_cons_self
      have hhead' := hv' visit' List.mem_cons_self
      have hvalue : EntryValue.exact visit.2 = .exact visit'.2 :=
        h.unique visit.1 _ _ hhead (by rw [heq.1]; exact hhead')
      have htail : visits = visits' :=
        ih (fun v hmem => hv v (List.mem_cons_of_mem _ hmem))
          (fun v hmem => hv' v (List.mem_cons_of_mem _ hmem)) heq.2
      injection hvalue with heffect
      rw [htail, Prod.ext heq.1 heffect]

/-! ## Walks visit accepted records -/

/-- A finished walk is one over accepted records. -/
def HistoryScan.Over (s : HistoryState) (anchor : Option AccountInfo) (found : HistoryScan) :
    Prop :=
  ∃ visits, found = .ofVisits anchor visits ∧ ∀ visit, visit ∈ visits → s.Accepts visit

/-- The walk behind a result. -/
def HistoryEvent.Over (s : HistoryState) (anchor : Option AccountInfo) : HistoryEvent → Prop
  | .resolved _ account version =>
    ∃ found : HistoryScan, found.Over s anchor ∧ account = found.resolve ∧
      version = found.version
  | .blocked _ _ => True
  | .validated _ expected (some found) outcome =>
    found.Over s anchor ∧ outcome = found.validate expected
  | .validated _ _ none outcome => outcome.valid = false

/-- **The invariant.** -/
structure HistoryState.Inv (anchor : Option AccountInfo) (s : HistoryState) : Prop where
  faithful : s.Faithful
  reading : ∀ reader r, s.readers reader = some r → ∃ visits, r.scan.Visited s.Accepts visits
  returned : ∀ event, event ∈ s.events → event.Over s anchor

section

variable {blockSize : Nat} {anchor : Option AccountInfo} {s s' : HistoryState}
  {found : HistoryScan} {event : HistoryEvent}

theorem HistoryScan.Over.mono (hsub : s.accepted ⊆ s'.accepted) (h : found.Over s anchor) :
    found.Over s' anchor := by
  obtain ⟨visits, hfound, hall⟩ := h
  exact ⟨visits, hfound, fun visit hmem => hsub (hall visit hmem)⟩

theorem HistoryEvent.Over.mono (hsub : s.accepted ⊆ s'.accepted) (h : event.Over s anchor) :
    event.Over s' anchor := by
  cases event with
  | resolved txid account version =>
    obtain ⟨found, hover, hacc, hver⟩ := h
    exact ⟨found, hover.mono hsub, hacc, hver⟩
  | blocked txid blocker => trivial
  | validated txid expected found outcome =>
    cases found with
    | none => exact h
    | some found => exact ⟨h.1.mono hsub, h.2⟩

/-- A step on the entries leaves the walks alone. -/
theorem HistoryState.Inv.of_entries (h : s.Inv anchor) (hf : s'.Faithful)
    (hsub : s.accepted ⊆ s'.accepted) (hreaders : s'.readers = s.readers)
    (hevents : s'.events = s.events) : s'.Inv anchor := by
  refine ⟨hf, ?_, ?_⟩
  · intro reader r hr
    rw [hreaders] at hr
    obtain ⟨visits, hv⟩ := h.reading reader r hr
    exact ⟨visits, hv.origins, hv.rewards, hv.ongoing,
      fun visit hmem => hsub (hv.all visit hmem)⟩
  · intro event hmem
    rw [hevents] at hmem
    exact (h.returned event hmem).mono hsub

/-- A call returns what its walk found. -/
theorem HistoryState.Inv.finish (h : s.Inv anchor) (reader : Nat) (hover : event.Over s anchor) :
    (s.finish reader event).Inv anchor := by
  refine ⟨⟨h.faithful.unique, h.faithful.upto, h.faithful.stored⟩, ?_, ?_⟩
  · intro reader' r hr
    simp only [HistoryState.finish] at hr
    by_cases heq : reader' = reader
    · simp [heq] at hr
    · rw [Function.update_of_ne heq] at hr
      exact h.reading reader' r hr
  · intro event' hmem
    simp only [HistoryState.finish, List.mem_append, List.mem_singleton] at hmem
    rcases hmem with hmem | rfl
    · exact h.returned event' hmem
    · exact hover

theorem HistoryState.record_frame (s : HistoryState) (version : TxVersion) (value : EntryValue) :
    (s.record version value).readers = s.readers ∧ (s.record version value).events = s.events := by
  unfold HistoryState.record
  split <;> exact ⟨rfl, rfl⟩

theorem HistoryState.invalidate_frame (s : HistoryState) (version : TxVersion) :
    (s.invalidate version).readers = s.readers ∧ (s.invalidate version).events = s.events := by
  unfold HistoryState.invalidate
  split <;> exact ⟨rfl, rfl⟩

theorem HistoryState.Inv.record (h : s.Inv anchor) (version : TxVersion) (value : EntryValue) :
    (s.record version value).Inv anchor :=
  h.of_entries (h.faithful.record version value) (HistoryState.accepted_record version value)
    (s.record_frame version value).1 (s.record_frame version value).2

/-- A reader moves on. -/
theorem HistoryState.Inv.read (h : s.Inv anchor) (reader : Nat) {r : HistoryReader}
    {visits : List Visit} (hv : r.scan.Visited s.Accepts visits) :
    HistoryState.Inv anchor { s with readers := Function.update s.readers reader (some r) } := by
  refine ⟨⟨h.faithful.unique, h.faithful.upto, h.faithful.stored⟩, ?_, h.returned⟩
  intro reader' r' hr
  dsimp only at hr
  by_cases heq : reader' = reader
  · rw [heq, Function.update_self] at hr
    cases hr
    exact ⟨visits, hv⟩
  · rw [Function.update_of_ne heq] at hr
    exact h.reading reader' r' hr

theorem HistoryReader.over_found {r : HistoryReader} (hover : found.Over s anchor) :
    (r.found found).Over s anchor := by
  unfold HistoryReader.found
  split
  · exact ⟨found, hover, rfl, rfl⟩
  · exact ⟨hover, rfl⟩

theorem HistoryReader.over_blockedBy {r : HistoryReader} {blocker : Nat} :
    (r.blockedBy blocker).Over s anchor := by
  unfold HistoryReader.blockedBy
  split
  · trivial
  · rfl

/-- **Step lemma.** -/
theorem HistoryState.Inv.step {action : HistoryAction} (h : s.Inv anchor)
    (hs : historyStep blockSize anchor s action = some s') : s'.Inv anchor := by
  cases action with
  | recordExecution version deferredReward account =>
    simp only [historyStep, Option.ite_none_right_eq_some, Option.map_eq_some_iff] at hs
    obtain ⟨-, effect, -, rfl⟩ := hs
    exact h.record version (.exact effect)
  | recordEstimate version =>
    simp only [historyStep, Option.ite_none_right_eq_some, Option.some.injEq] at hs
    obtain ⟨-, rfl⟩ := hs
    exact h.record version .estimate
  | invalidate version =>
    simp only [historyStep, Option.ite_none_right_eq_some, Option.some.injEq] at hs
    obtain ⟨-, rfl⟩ := hs
    exact h.of_entries (h.faithful.invalidate version)
      (HistoryState.accepted_invalidate version ▸ List.Subset.refl _)
      (s.invalidate_frame version).1 (s.invalidate_frame version).2
  | call reader txid call =>
    simp only [historyStep] at hs
    split at hs
    · cases hs
    · simp only [Option.ite_none_right_eq_some, Option.some.injEq] at hs
      obtain ⟨-, rfl⟩ := hs
      exact h.read reader ScanState.visited_start
  | visit reader =>
    simp only [historyStep] at hs
    split at hs
    · cases hs
    · rename_i r hr
      obtain ⟨visits, hv⟩ := h.reading reader r hr
      -- The entry a walk copies is stored, and what is stored was accepted.
      have hstep := hv.step anchor h.faithful.stored
      split at hs
      · rename_i scan hscan
        cases hs
        obtain ⟨visit, hnext⟩ := hstep.1 scan hscan
        exact h.read reader hnext
      · rename_i found hscan
        cases hs
        exact h.finish reader (HistoryReader.over_found (hstep.2 found hscan))
      · cases hs
        exact h.finish reader HistoryReader.over_blockedBy

/-- **Run lemma.** -/
theorem HistoryState.inv_of_reach (h : Reach (historyStep blockSize anchor) Free {} s) :
    s.Inv anchor := by
  refine h.invariant ⟨HistoryState.Faithful.start, ?_, ?_⟩ ?_
  · intro reader r hr
    cases hr
  · intro event hmem
    cases hmem
  · intro s action s' _ hinv _ hs
    exact hinv.step hs

/-- Accepted records stay accepted. -/
theorem historyStep_accepted {action : HistoryAction}
    (hs : historyStep blockSize anchor s action = some s') : s.accepted ⊆ s'.accepted := by
  cases action with
  | recordExecution version deferredReward account =>
    simp only [historyStep, Option.ite_none_right_eq_some, Option.map_eq_some_iff] at hs
    obtain ⟨-, effect, -, rfl⟩ := hs
    exact HistoryState.accepted_record version _
  | recordEstimate version =>
    simp only [historyStep, Option.ite_none_right_eq_some, Option.some.injEq] at hs
    obtain ⟨-, rfl⟩ := hs
    exact HistoryState.accepted_record version _
  | invalidate version =>
    simp only [historyStep, Option.ite_none_right_eq_some, Option.some.injEq] at hs
    obtain ⟨-, rfl⟩ := hs
    rw [HistoryState.accepted_invalidate]
    exact List.Subset.refl _
  | call reader txid call =>
    simp only [historyStep] at hs
    split at hs
    · cases hs
    · simp only [Option.ite_none_right_eq_some, Option.some.injEq] at hs
      obtain ⟨-, rfl⟩ := hs
      exact List.Subset.refl _
  | visit reader =>
    simp only [historyStep] at hs
    split at hs
    · cases hs
    · split at hs <;> cases hs <;> exact List.Subset.refl _

theorem accepted_of_reach (h : Reach (historyStep blockSize anchor) Free s s') :
    s.accepted ⊆ s'.accepted := by
  refine h.invariant (I := fun t => s.accepted ⊆ t.accepted) (List.Subset.refl _) ?_
  intro t action t' _ hsub _ hs
  exact List.Subset.trans hsub (historyStep_accepted hs)

/-- Walks over accepted records that have the same versions resolve to
the same account. -/
theorem HistoryState.Faithful.resolve_eq (h : s.Faithful) {found found' : HistoryScan}
    (hf : found.Over s anchor) (hf' : found'.Over s anchor)
    (heq : found.version = found'.version) : found.resolve = found'.resolve := by
  obtain ⟨visits, rfl, hall⟩ := hf
  obtain ⟨visits', rfl, hall'⟩ := hf'
  have hfst : visits.map Prod.fst = visits'.map Prod.fst :=
    congrArg BeneficiaryReadVersion.origins heq
  rw [visits_eq_of_accepted h hall hall' hfst]

/-! ## A version chain determines the account -/

/-- Whatever is recorded and invalidated in between: a validation that
accepts the version an account was read under has itself walked to that
account; and once a record of an incarnation was accepted, no other exact
effect is ever visible under that incarnation. -/
theorem version_chain_determines_account
    (h : Reach (historyStep blockSize anchor) Free {} s) :
    (∀ txid account version found outcome,
      HistoryEvent.resolved txid account version ∈ s.events →
      HistoryEvent.validated txid version found outcome ∈ s.events → outcome.valid = true →
      found.map HistoryScan.resolve = some account) ∧
    ∀ version value, (version, value) ∈ s.accepted →
      ∀ s', Reach (historyStep blockSize anchor) Free s s' →
        ∀ effect, s'.entries version.txid = ⟨version.incarnation, .exact effect⟩ →
          value = .exact effect := by
  have hinv := HistoryState.inv_of_reach h
  constructor
  · intro txid account version found outcome hread hvalidated hvalid
    obtain ⟨read, hover, rfl, rfl⟩ := hinv.returned _ hread
    have hthen := hinv.returned _ hvalidated
    cases found with
    | none => exact absurd hvalid (by simp [show outcome.valid = false from hthen])
    | some found =>
      obtain ⟨hover', rfl⟩ := hthen
      have hversion : found.version = read.version := by
        simpa [HistoryScan.validate] using hvalid
      simp [hinv.faithful.resolve_eq hover' hover hversion]
  · intro version value hacc s' hreach effect hentry
    have hfaithful := (HistoryState.inv_of_reach (h.trans hreach)).faithful
    exact hfaithful.unique version value (.exact effect) (accepted_of_reach hreach hacc)
      (hfaithful.stored (version, effect) hentry)

end

/-- Transaction 0 is rewarded and transaction 1 leaves the account alone.
The account before transaction 2 is read; while the read is validated,
a second record of transaction 0 is refused and transaction 1, already
visited, is invalidated and recorded again. -/
def HistoryAction.retriedWhileValidated : List HistoryAction :=
  [.recordExecution ⟨0, 1⟩ (some ⟨5, by decide⟩) none, .recordExecution ⟨1, 1⟩ none none,
    .call 0 2 .resolveBefore, .visit 0, .visit 0, .visit 0,
    .call 1 2 (.validate ⟨[⟨1, 1⟩, ⟨0, 1⟩]⟩), .visit 1,
    .recordExecution ⟨0, 1⟩ (some ⟨9, by decide⟩) none, .invalidate ⟨1, 1⟩,
    .recordExecution ⟨1, 2⟩ none none, .visit 1, .visit 1]

theorem version_chain_determines_account_retried :
    ∃ s found outcome, Reach (historyStep 2 none) Free {} s ∧
      HistoryEvent.resolved 2 (some { AccountInfo.empty with balance := 5 })
        ⟨[⟨1, 1⟩, ⟨0, 1⟩]⟩ ∈ s.events ∧
      HistoryEvent.validated 2 ⟨[⟨1, 1⟩, ⟨0, 1⟩]⟩ found outcome ∈ s.events ∧
      outcome.valid = true ∧
      found.map HistoryScan.resolve = some (some { AccountInfo.empty with balance := 5 }) := by
  have hrun : (exec (historyStep 2 none) {} HistoryAction.retriedWhileValidated).isSome := rfl
  have hreach := reach_get hrun
  generalize hs : (exec (historyStep 2 none) {} HistoryAction.retriedWhileValidated).get hrun = s
    at hreach
  have hevents : s.events =
      [.resolved 2 (some { AccountInfo.empty with balance := 5 }) ⟨[⟨1, 1⟩, ⟨0, 1⟩]⟩,
        .validated 2 ⟨[⟨1, 1⟩, ⟨0, 1⟩]⟩
          (some ⟨none, [⟨5, by decide⟩], ⟨[⟨1, 1⟩, ⟨0, 1⟩]⟩⟩) ⟨true, some 1⟩] := by
    rw [← hs]
    rfl
  have hread := hevents ▸ List.mem_cons_self
  have hvalidated := hevents ▸ List.mem_cons_of_mem _ List.mem_cons_self
  exact ⟨s, some _, ⟨true, some 1⟩, hreach, hread, hvalidated, rfl,
    (version_chain_determines_account hreach).1 2 _ _ _ _ hread hvalidated rfl⟩

end Grevm
