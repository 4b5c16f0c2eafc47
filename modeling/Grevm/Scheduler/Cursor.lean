/-
Grevm.Scheduler.Cursor — the rewindable validation cursor.

`RewindableCursor` of `src/scheduler/cursor.rs`. `claim_before` reads the
cursor and moves it with a weak compare-exchange, which may fail although
the value is the expected one; `rewind` is one `fetch_min`. Between the
two accesses of a claim the cursor may be rewound and brought back to the
same value by other claims, so what a claim knows of the cursor is not
what it read but what the compare-exchange found.

The argument is about the order in which claims and rewinds take effect.
`CursorEvent.Trace start events cursor` says that the cursor went from
`start` to `cursor` through `events`, each claim taking the value it
found. Every run leaves such a trace (`traced_of_reach`), and the laws of
the cursor are facts about traces.
-/
import Grevm.Runs
import Grevm.Scheduler.Worker

namespace Grevm

/-! ## The cursor and its calls -/

/-- Program points of `claim_before`: the load, and the compare-exchange
against the value it returned. -/
inductive ClaimPc where
  | load
  | cas (current : Nat)
  deriving DecidableEq

/-- One access of `claim_before(limit)`: the cursor after it, and the
next program point or the value returned. `spurious` is the failure that
`compare_exchange_weak` may report without cause. The claimed index is
below a `usize`, so the increment does not overflow. -/
def claimStep (cursor limit : Nat) (spurious : Bool) : ClaimPc → Nat × (ClaimPc ⊕ Option Nat)
  | .load => (cursor, if limit ≤ cursor then .inr none else .inl (.cas cursor))
  | .cas current =>
    if cursor = current ∧ spurious = false then (current + 1, .inr (some current))
    else (cursor, .inl .load)

/-- A call of `claim_before`, in progress or returned. -/
structure ClaimCall where
  limit : Nat
  progress : ClaimPc ⊕ Option Nat := .inl .load
  deriving DecidableEq

/-- What moves the cursor: the compare-exchange of a call that returns
an index, or a rewind. -/
inductive CursorEvent (C : Type) where
  | claimed (call : C) (index : Nat)
  | rewound (value : Nat)
  deriving DecidableEq

/-- The cursor with the calls made so far, each under its own name, and
the events that moved it, the latest first. -/
structure CursorState (C : Type) where
  cursor : Nat
  calls : C → Option ClaimCall := fun _ => none
  events : List (CursorEvent C) := []

/-- `begin` makes a new call, `access` is the next access of a call in
progress and `rewind` is a whole call of `rewind`. -/
inductive CursorAction (C : Type) where
  | begin (call : C) (limit : Nat)
  | access (call : C) (spurious : Bool)
  | rewind (value : Nat)

namespace CursorState

variable {C : Type} [DecidableEq C]

def setCall (s : CursorState C) (call : C) (c : ClaimCall) : CursorState C :=
  { s with calls := Function.update s.calls call (some c) }

/-- One access of a call in progress. -/
def access (s : CursorState C) (call : C) (limit : Nat) (spurious : Bool) (pc : ClaimPc) :
    CursorState C :=
  let (cursor, progress) := claimStep s.cursor limit spurious pc
  let events :=
    match progress with
    | .inr (some index) => .claimed call index :: s.events
    | _ => s.events
  { (s.setCall call { limit, progress }) with cursor, events }

def step (s : CursorState C) : CursorAction C → Option (CursorState C)
  | .begin call limit =>
    match s.calls call with
    | none => some (s.setCall call { limit })
    | some _ => none
  | .access call spurious =>
    match s.calls call with
    | some ⟨limit, .inl pc⟩ => some (s.access call limit spurious pc)
    | _ => none
  | .rewind value =>
    some { s with cursor := min s.cursor value, events := .rewound value :: s.events }

end CursorState

/-! ## Traces of the cursor -/

/-- The cursor went from `start` to `cursor` through the events, the
latest of which comes first. -/
inductive CursorEvent.Trace {C : Type} (start : Nat) : List (CursorEvent C) → Nat → Prop where
  | start : Trace start [] start
  | claimed {events : List (CursorEvent C)} {index : Nat} (call : C) :
      Trace start events index → Trace start (.claimed call index :: events) (index + 1)
  | rewound {events : List (CursorEvent C)} {cursor : Nat} (value : Nat) :
      Trace start events cursor → Trace start (.rewound value :: events) (min cursor value)

namespace CursorEvent.Trace

variable {C : Type} {start cursor index value : Nat} {events after before : List (CursorEvent C)}

/-- A trace splits where its list of events does. -/
theorem of_append (h : Trace start (after ++ before) cursor) :
    ∃ middle, Trace start before middle ∧ Trace middle after cursor := by
  induction after generalizing cursor with
  | nil => exact ⟨cursor, h, .start⟩
  | cons event after ih =>
    cases h with
    | claimed call h =>
      obtain ⟨middle, hbefore, hafter⟩ := ih h
      exact ⟨middle, hbefore, .claimed call hafter⟩
    | rewound value h =>
      obtain ⟨middle, hbefore, hafter⟩ := ih h
      exact ⟨middle, hbefore, .rewound value hafter⟩

/-- A cursor that passes an index does so by a claim of that index. -/
theorem claimed_of_passed (h : Trace start events cursor) (hle : start ≤ index)
    (hlt : index < cursor) : ∃ call, .claimed call index ∈ events := by
  induction h with
  | start => omega
  | claimed call _ ih =>
    rcases Nat.lt_succ_iff_lt_or_eq.mp hlt with hlt | rfl
    · obtain ⟨call', hmem⟩ := ih hlt
      exact ⟨call', List.mem_cons_of_mem _ hmem⟩
    · exact ⟨call, List.mem_cons_self⟩
  | rewound value _ ih =>
    obtain ⟨call, hmem⟩ := ih (by omega)
    exact ⟨call, List.mem_cons_of_mem _ hmem⟩

/-- A cursor that comes back to an index has been rewound there or
further. -/
theorem rewound_of_returned (h : Trace start events cursor) (hlt : index < start)
    (hle : cursor ≤ index) : ∃ value ≤ index, .rewound value ∈ events := by
  induction h with
  | start => omega
  | claimed call _ ih =>
    obtain ⟨value, hvalue, hmem⟩ := ih (by omega)
    exact ⟨value, hvalue, List.mem_cons_of_mem _ hmem⟩
  | rewound value _ ih =>
    by_cases hvalue : value ≤ index
    · exact ⟨value, hvalue, List.mem_cons_self⟩
    · obtain ⟨value', hvalue', hmem⟩ := ih (by omega)
      exact ⟨value', hvalue', List.mem_cons_of_mem _ hmem⟩

/-- What lies past a rewind was claimed after it. -/
theorem claimed_after_rewound (h : Trace start (after ++ .rewound value :: before) cursor)
    (hle : value ≤ index) (hlt : index < cursor) : ∃ call, .claimed call index ∈ after := by
  obtain ⟨middle, hbefore, hafter⟩ := h.of_append
  cases hbefore
  exact hafter.claimed_of_passed (le_trans (min_le_right _ _) hle) hlt

/-- Two claims of an index have a rewind between them. -/
theorem rewound_between {between : List (CursorEvent C)} {first second : C}
    (h : Trace start (after ++ .claimed second index :: (between ++ .claimed first index :: before))
      cursor) :
    ∃ value ≤ index, .rewound value ∈ between := by
  obtain ⟨_, h, -⟩ := h.of_append
  cases h with
  | claimed _ h =>
    obtain ⟨middle, hbefore, hbetween⟩ := h.of_append
    cases hbefore
    exact hbetween.rewound_of_returned (Nat.lt_succ_self _) le_rfl

end CursorEvent.Trace

/-! ## The trace of a run -/

namespace CursorState

variable {C : Type} {start : Nat} {s s' : CursorState C}

/-- The cursor follows its events, which are the successful calls and
the rewinds, and what a call has read is below its limit. -/
structure Traced (start : Nat) (s : CursorState C) : Prop where
  trace : CursorEvent.Trace start s.events s.cursor
  below : ∀ call limit current, s.calls call = some ⟨limit, .inl (.cas current)⟩ →
    current < limit
  returned : ∀ call limit index, s.calls call = some ⟨limit, .inr (some index)⟩ → index < limit
  events : ∀ call index, .claimed call index ∈ s.events ↔
    ∃ limit, s.calls call = some ⟨limit, .inr (some index)⟩

theorem traced_new : Traced start ({ cursor := start } : CursorState C) where
  trace := .start
  below _ _ _ h := by cases h
  returned _ _ _ h := by cases h
  events _ _ := by simp

variable [DecidableEq C] {a : CursorAction C}

/-- What a step does: a call begins, reads, returns nothing or tries
again; a call takes the index at the cursor; or the cursor is rewound. -/
theorem step_cases (hs : s.step a = some s') :
    (∃ call limit progress, (∀ limit index, s.calls call ≠ some ⟨limit, .inr (some index)⟩) ∧
      (∀ current, progress = .inl (.cas current) → current < limit) ∧
      (∀ index, progress ≠ .inr (some index)) ∧ s' = s.setCall call ⟨limit, progress⟩) ∨
    (∃ call limit, s.calls call = some ⟨limit, .inl (.cas s.cursor)⟩ ∧
      s' = { s.setCall call ⟨limit, .inr (some s.cursor)⟩ with
        cursor := s.cursor + 1, events := .claimed call s.cursor :: s.events }) ∨
    ∃ value, s' = { s with cursor := min s.cursor value, events := .rewound value :: s.events } := by
  cases a with
  | begin call limit =>
    simp only [step] at hs
    split at hs
    · rename_i hcall
      cases hs
      exact .inl ⟨call, limit, .inl .load, by simp [hcall], nofun, nofun, rfl⟩
    · cases hs
  | access call spurious =>
    simp only [step] at hs
    split at hs
    · rename_i limit pc hcall
      cases hs
      cases pc with
      | load =>
        by_cases hle : limit ≤ s.cursor
        · refine .inl ⟨call, limit, .inr none, by simp [hcall], nofun, nofun, ?_⟩
          simp [access, claimStep, hle, setCall]
        · refine .inl ⟨call, limit, .inl (.cas s.cursor), by simp [hcall], ?_, nofun, ?_⟩
          · intro current heq
            cases heq
            omega
          · simp [access, claimStep, hle, setCall]
      | cas current =>
        by_cases htaken : s.cursor = current ∧ spurious = false
        · obtain ⟨rfl, rfl⟩ := htaken
          exact .inr (.inl ⟨call, limit, hcall, by simp [access, claimStep]⟩)
        · refine .inl ⟨call, limit, .inl .load, by simp [hcall], nofun, nofun, ?_⟩
          simp [access, claimStep, htaken, setCall]
    · cases hs
  | rewind value =>
    cases hs
    exact .inr (.inr ⟨value, rfl⟩)

theorem Traced.setCall {call : C} {limit : Nat} {progress : ClaimPc ⊕ Option Nat}
    (h : Traced start s) (hold : ∀ limit index, s.calls call ≠ some ⟨limit, .inr (some index)⟩)
    (hbelow : ∀ current, progress = .inl (.cas current) → current < limit)
    (hnew : ∀ index, progress ≠ .inr (some index)) :
    Traced start (s.setCall call ⟨limit, progress⟩) where
  trace := h.trace
  below other limit' current hother := by
    by_cases heq : other = call
    · subst heq
      simp only [CursorState.setCall, Function.update_self, Option.some.injEq,
        ClaimCall.mk.injEq] at hother
      obtain ⟨rfl, hprogress⟩ := hother
      exact hbelow current hprogress
    · exact h.below other limit' current (by simpa [CursorState.setCall, heq] using hother)
  returned other limit' index hother := by
    by_cases heq : other = call
    · subst heq
      simp [CursorState.setCall, hnew] at hother
    · exact h.returned other limit' index (by simpa [CursorState.setCall, heq] using hother)
  events other index := by
    by_cases heq : other = call
    · subst heq
      have hno := mt (h.events other index).mp (by simpa using fun limit => hold limit index)
      simpa [CursorState.setCall, hnew] using hno
    · simpa [CursorState.setCall, heq] using h.events other index

theorem Traced.claim {call : C} {limit : Nat} (h : Traced start s)
    (hcall : s.calls call = some ⟨limit, .inl (.cas s.cursor)⟩) :
    Traced start { s.setCall call ⟨limit, .inr (some s.cursor)⟩ with
      cursor := s.cursor + 1, events := .claimed call s.cursor :: s.events } where
  trace := .claimed call h.trace
  below other limit' current hother := by
    by_cases heq : other = call
    · subst heq
      simp [CursorState.setCall] at hother
    · exact h.below other limit' current (by simpa [CursorState.setCall, heq] using hother)
  returned other limit' index hother := by
    by_cases heq : other = call
    · subst heq
      simp only [CursorState.setCall, Function.update_self, Option.some.injEq,
        ClaimCall.mk.injEq, Sum.inr.injEq] at hother
      obtain ⟨rfl, rfl⟩ := hother
      exact h.below other limit s.cursor hcall
    · exact h.returned other limit' index (by simpa [CursorState.setCall, heq] using hother)
  events other index := by
    by_cases heq : other = call
    · subst heq
      have hno := mt (h.events other index).mp (by simp [hcall])
      simp [CursorState.setCall, hno, eq_comm]
    · simpa [CursorState.setCall, heq] using h.events other index

theorem Traced.step (h : Traced start s) (hs : s.step a = some s') : Traced start s' := by
  rcases step_cases hs with
    ⟨call, limit, progress, hold, hbelow, hnew, rfl⟩ | ⟨call, limit, hcall, rfl⟩ | ⟨value, rfl⟩
  · exact h.setCall hold hbelow hnew
  · exact h.claim hcall
  · exact
      { trace := .rewound value h.trace
        below := h.below
        returned := h.returned
        events := fun call index => by simpa using h.events call index }

theorem traced_of_reach (h : Runs.Reach step Runs.Free { cursor := start } s) :
    Traced start s :=
  h.invariant traced_new fun _ _ _ _ ht _ hs => ht.step hs

/-- **The laws of the cursor.** A successful claim returns an index below
its limit; what lies past a rewind was claimed after it; and between two
claims of an index the cursor was rewound to the index or below. The
events are the successful calls, in the order of their compare-exchanges,
and the rewinds. -/
theorem rewound_indices_are_reissued
    (h : Runs.Reach step Runs.Free { cursor := start } s) :
    (∀ call limit index, s.calls call = some ⟨limit, .inr (some index)⟩ → index < limit) ∧
    (∀ call index, .claimed call index ∈ s.events ↔
      ∃ limit, s.calls call = some ⟨limit, .inr (some index)⟩) ∧
    (∀ after value before index, s.events = after ++ .rewound value :: before →
      value ≤ index → index < s.cursor → ∃ call, .claimed call index ∈ after) ∧
    ∀ after second between first before index,
      s.events = after ++ .claimed second index :: (between ++ .claimed first index :: before) →
        ∃ value ≤ index, .rewound value ∈ between := by
  have ht := traced_of_reach h
  refine ⟨ht.returned, ht.events, ?_, ?_⟩
  · intro after value before index hevents hle hlt
    have htrace := ht.trace
    rw [hevents] at htrace
    exact htrace.claimed_after_rewound hle hlt
  · intro after second between first before index hevents
    have htrace := ht.trace
    rw [hevents] at htrace
    exact htrace.rewound_between

/-- Call 0 reads 1; the cursor is rewound and brought back to 1 by call 1
before the compare-exchange of call 0, which then takes 1. Index 1 is
taken again only after the next rewind. -/
theorem rewound_indices_are_reissued_aba :
    ∃ s : CursorState (Fin 3),
      Runs.Reach step Runs.Free { cursor := 1 } s ∧ s.cursor = 2 ∧
      s.events =
        [.claimed 2 1, .rewound 1, .claimed 0 1, .claimed 1 0, .rewound 0] ∧
      (∃ call, .claimed call 1 ∈ [(.claimed 2 1 : CursorEvent (Fin 3))]) ∧
      ∃ value ≤ 1, .rewound value ∈ [(.rewound 1 : CursorEvent (Fin 3))] := by
  have hrun : (Runs.exec step ({ cursor := 1 } : CursorState (Fin 3))
      [.begin 0 2, .access 0 false, .rewind 0, .begin 1 2, .access 1 false, .access 1 true,
        .access 1 false, .access 1 false, .access 0 false, .rewind 1, .begin 2 2,
        .access 2 false, .access 2 false]).map (fun s => (s.cursor, s.events)) =
      some (2, [.claimed 2 1, .rewound 1, .claimed 0 1, .claimed 1 0, .rewound 0]) := by
    decide +kernel
  obtain ⟨s, hexec, hs⟩ := Option.map_eq_some_iff.mp hrun
  obtain ⟨hcursor, hevents⟩ := Prod.mk.inj hs
  have hreach := Runs.reach_of_exec hexec
  obtain ⟨-, -, hafter, hbetween⟩ := rewound_indices_are_reissued hreach
  exact ⟨s, hreach, hcursor, hevents, hafter [_] 1 _ 1 hevents le_rfl (by omega),
    hbetween [] 2 [_] 0 _ 1 hevents⟩

end CursorState

/-- The claim steps of a worker are `claim_before` on the validation
cursor. -/
theorem workerStep_claim {Err W R : Type} {B : Backing Err} [DecidableEq W] {blk : Block Err R}
    {w : W} {s : Shared W R B} {limit c : Nat} {pc : ClaimPc} :
    workerStep blk w s
        (match pc with | .load => .claimLoad limit | .cas current => .claimCas limit current) c =
      match claimStep s.ctx.validation limit (decide (c ≠ 0)) pc with
      | (validation, progress) =>
        some ({ s with ctx := { s.ctx with validation } },
          match progress with
          | .inl .load => .claimLoad limit
          | .inl (.cas current) => .claimCas limit current
          | .inr (some index) => .claimLock index
          | .inr none => .dependencyLoad) := by
  cases pc with
  | load =>
    by_cases hle : limit ≤ s.ctx.validation <;> simp [workerStep, claimStep, hle]
  | cas current =>
    by_cases htaken : s.ctx.validation = current ∧ c = 0
    · simp [workerStep, claimStep, htaken]
    · simp [workerStep, claimStep, htaken]

end Grevm
