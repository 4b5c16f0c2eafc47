/-
Grevm.Scheduler.ExecutionFrontier — the execution frontier is exact.

`ExecutionFrontier` of `src/scheduler/context.rs`: `publish` and
`current` over one flag a transaction and the frontier, one access at a
time. The frontier only covers flagged transactions, since a scan knows
the flags it has read (`FrontierPc.Sound`).

That it also reaches the first transaction that is not flagged is a
matter of who is left to move it. A publisher that finds the frontier
elsewhere returns without moving it, and a scan may end just before a
flag is set. `FrontierPc.Helps` names the program points that are bound
to move the frontier past a flagged transaction; while the frontier
stands at one, some call is at such a point, because the call that sets
the flag is, the call that moves the frontier scans on, and a call that
helps keeps helping until the frontier has moved.
-/
import Grevm.Runs
import Grevm.Scheduler.Context
import Mathlib.Order.Bounds.Defs

namespace Grevm

/-! ## One access to the frontier -/

/-- What one access to the frontier does, with the test that it makes. -/
inductive FrontierStep (numTxs : Nat) (ctx : SchedulerContext) :
    FrontierPc → SchedulerContext → FrontierPc ⊕ Nat → Prop where
  | passed {index} (h : index < ctx.frontier) :
      FrontierStep numTxs ctx (.publishLoad index) ctx (.inr 0)
  | ahead {index} (h : ctx.frontier ≤ index) :
      FrontierStep numTxs ctx (.publishLoad index) ctx (.inl (.publishStore index))
  | flag {index} :
      FrontierStep numTxs ctx (.publishStore index)
        { ctx with executed := Function.update ctx.executed index true }
        (.inl (.publishReload index))
  | gap :
      FrontierStep numTxs ctx (.publishReload ctx.frontier) ctx
        (.inl (.advanceScan true ctx.frontier ctx.frontier))
  | elsewhere {index} (h : index ≠ ctx.frontier) :
      FrontierStep numTxs ctx (.publishReload index) ctx (.inr 0)
  | load (h : ctx.frontier < numTxs) :
      FrontierStep numTxs ctx .currentLoad ctx (.inl (.currentCheck ctx.frontier))
  | loadEnd (h : numTxs ≤ ctx.frontier) :
      FrontierStep numTxs ctx .currentLoad ctx (.inr ctx.frontier)
  | flagged {loaded} (h : ctx.executed loaded = true) :
      FrontierStep numTxs ctx (.currentCheck loaded) ctx (.inl (.advanceScan false loaded loaded))
  | unflagged {loaded} (h : ctx.executed loaded = false) :
      FrontierStep numTxs ctx (.currentCheck loaded) ctx (.inr loaded)
  | reload : FrontierStep numTxs ctx .currentReload ctx (.inr ctx.frontier)
  | scan {publishing start finish} (hlt : finish < numTxs) (h : ctx.executed finish = true) :
      FrontierStep numTxs ctx (.advanceScan publishing start finish) ctx
        (.inl (.advanceScan publishing start (finish + 1)))
  | stuckPublish {start} (h : ¬ (start < numTxs ∧ ctx.executed start = true)) :
      FrontierStep numTxs ctx (.advanceScan true start start) ctx (.inr 0)
  | stuckCurrent {start} (h : ¬ (start < numTxs ∧ ctx.executed start = true)) :
      FrontierStep numTxs ctx (.advanceScan false start start) ctx (.inl .currentReload)
  | found {publishing start finish} (h : ¬ (finish < numTxs ∧ ctx.executed finish = true))
      (hne : finish ≠ start) :
      FrontierStep numTxs ctx (.advanceScan publishing start finish) ctx
        (.inl (.advanceMax publishing finish))
  | advance {publishing finish} :
      FrontierStep numTxs ctx (.advanceMax publishing finish)
        { ctx with frontier := max ctx.frontier finish }
        (.inl (.advanceScan publishing (max ctx.frontier finish) (max ctx.frontier finish)))

theorem frontierStep_sound {numTxs : Nat} {ctx ctx' : SchedulerContext} {pc : FrontierPc}
    {next : FrontierPc ⊕ Nat} (h : ctx.frontierStep numTxs pc = (ctx', next)) :
    FrontierStep numTxs ctx pc ctx' next := by
  cases pc with
  | publishLoad index =>
    simp only [SchedulerContext.frontierStep] at h
    split at h <;> cases h
    · exact .passed ‹_›
    · exact .ahead (Nat.le_of_not_lt ‹_›)
  | publishStore index =>
    cases h
    exact .flag
  | publishReload index =>
    simp only [SchedulerContext.frontierStep] at h
    split at h <;> cases h
    · rename_i heq
      subst heq
      exact .gap
    · exact .elsewhere ‹_›
  | currentLoad =>
    simp only [SchedulerContext.frontierStep] at h
    split at h <;> cases h
    · exact .load ‹_›
    · exact .loadEnd (Nat.le_of_not_lt ‹_›)
  | currentCheck loaded =>
    simp only [SchedulerContext.frontierStep] at h
    split at h <;> cases h
    · exact .flagged ‹_›
    · exact .unflagged (Bool.eq_false_iff.mpr ‹_›)
  | currentReload =>
    cases h
    exact .reload
  | advanceScan publishing start finish =>
    simp only [SchedulerContext.frontierStep] at h
    split at h
    · rename_i hflag
      cases h
      exact .scan hflag.1 hflag.2
    · split at h
      · rename_i hstop heq
        subst heq
        cases publishing <;> cases h
        · exact .stuckCurrent hstop
        · exact .stuckPublish hstop
      · cases h
        exact .found ‹_› ‹_›
  | advanceMax publishing finish =>
    cases h
    exact .advance

/-- What a scan of the frontier knows about the flags it has read. -/
def FrontierPc.Sound (ctx : SchedulerContext) : FrontierPc → Prop
  | .currentCheck frontier => ∀ j, j < frontier → ctx.executed j = true
  | .advanceScan _ _ finish | .advanceMax _ finish => ∀ j, j < finish → ctx.executed j = true
  | _ => True

theorem FrontierPc.Sound.mono {ctx ctx' : SchedulerContext} {pc : FrontierPc}
    (h : pc.Sound ctx) (hflags : ∀ j, ctx.executed j = true → ctx'.executed j = true) :
    pc.Sound ctx' := by
  cases pc with
  | currentCheck frontier | advanceScan publishing start finish | advanceMax publishing finish =>
    exact fun j hj => hflags j (h j hj)
  | _ => trivial

namespace SchedulerContext

variable {numTxs : Nat} {ctx ctx' : SchedulerContext} {pc : FrontierPc} {next : FrontierPc ⊕ Nat}

/-- Flags are never taken back. -/
theorem executed_mono_of_frontierStep (h : ctx.frontierStep numTxs pc = (ctx', next)) (j : Nat)
    (hj : ctx.executed j = true) : ctx'.executed j = true := by
  cases frontierStep_sound h with
  | flag =>
    simp only [Function.update_apply]
    split
    · rfl
    · exact hj
  | _ => exact hj

/-- The frontier stays inside the flagged prefix. -/
theorem sound_of_frontierStep (h : ctx.frontierStep numTxs pc = (ctx', next))
    (hfrontier : ∀ j, j < ctx.frontier → ctx.executed j = true) (hpc : pc.Sound ctx) :
    (∀ j, j < ctx'.frontier → ctx'.executed j = true) ∧
      ∀ pc', next = .inl pc' → pc'.Sound ctx' := by
  have hmono := executed_mono_of_frontierStep h
  cases frontierStep_sound h with
  | passed | elsewhere | loadEnd | unflagged | reload | stuckPublish => exact ⟨hfrontier, nofun⟩
  | ahead | stuckCurrent => exact ⟨hfrontier, fun pc' heq => by cases heq; trivial⟩
  | flag => exact ⟨fun j hj => hmono j (hfrontier j hj), fun pc' heq => by cases heq; trivial⟩
  | gap | load => exact ⟨hfrontier, fun pc' heq => by cases heq; exact hfrontier⟩
  | flagged | found => exact ⟨hfrontier, fun pc' heq => by cases heq; exact hpc⟩
  | scan hlt hflag =>
    refine ⟨hfrontier, fun pc' heq => ?_⟩
    cases heq
    intro j hj
    rcases Nat.lt_succ_iff_lt_or_eq.mp hj with hlt | rfl
    · exact hpc j hlt
    · exact hflag
  | @advance publishing finish =>
    have hmax : ∀ j, j < max ctx.frontier finish → ctx.executed j = true := fun j hj => by
      by_cases hlt : j < ctx.frontier
      · exact hfrontier j hlt
      · exact hpc j (by omega)
    exact ⟨hmax, fun pc' heq => by cases heq; exact hmax⟩

/-- `publish(index)` flags `index` before it returns. -/
theorem publish_of_frontierStep {index : Nat}
    (h : ctx.frontierStep numTxs pc = (ctx', next))
    (hfrontier : ∀ j, j < ctx.frontier → ctx.executed j = true)
    (hpc : pc = .publishLoad index ∨ pc = .publishStore index) :
    ctx'.executed index = true ∨ next = .inl (.publishStore index) := by
  rcases hpc with rfl | rfl
  · cases frontierStep_sound h with
    | passed hlt => exact .inl (hfrontier index hlt)
    | ahead => exact .inr rfl
  · cases frontierStep_sound h with
    | flag => simp

/-- Without interleaving the scan passes every flagged prefix. -/
theorem le_advanceNow {executed : Nat → Bool} {f : Nat} (hf : f ≤ numTxs)
    (hflags : ∀ j, j < f → executed j = true) :
    ∀ fuel start, numTxs - start ≤ fuel → f ≤ advanceNow numTxs executed fuel start
  | 0, start, hfuel => by
    show f ≤ start
    omega
  | fuel + 1, start, hfuel => by
    unfold advanceNow
    split
    · exact le_advanceNow hf hflags fuel (start + 1) (by omega)
    · rename_i hstop
      by_contra hlt
      exact hstop ⟨by omega, hflags start (by omega)⟩

theorem le_executionFrontier {f : Nat} (hf : f ≤ numTxs)
    (hflags : ∀ j, j < f → ctx.executed j = true) : f ≤ ctx.executionFrontier numTxs :=
  le_advanceNow hf hflags _ _ le_rfl

end SchedulerContext

/-! ## Calls in progress -/

/-- The two operations on the frontier. -/
inductive FrontierEntry where
  | publish (index : Nat)
  | current
  deriving DecidableEq

namespace FrontierEntry

def start : FrontierEntry → FrontierPc
  | .publish index => .publishLoad index
  | .current => .currentLoad

/-- `publish` indexes the flags of the block. -/
def inBlock (numTxs : Nat) : FrontierEntry → Bool
  | .publish index => index < numTxs
  | .current => true

end FrontierEntry

/-- A call of `publish` or `current`: its program point, or the value
returned, and the number of accesses it has made. -/
structure FrontierCall where
  entry : FrontierEntry
  progress : FrontierPc ⊕ Nat
  accesses : Nat := 0
  deriving DecidableEq

/-- The frontier with the calls made so far, each under its own name. -/
structure FrontierState (C : Type) where
  ctx : SchedulerContext := {}
  calls : C → Option FrontierCall := fun _ => none

/-- `begin` makes a new call and `access` is the next access of a call in
progress. -/
inductive FrontierAction (C : Type) where
  | begin (call : C) (entry : FrontierEntry)
  | access (call : C)

namespace FrontierState

variable {C : Type}

/-- A call of `publish(index)` has been made. -/
def Published (s : FrontierState C) (index : Nat) : Prop :=
  ∃ call c, s.calls call = some c ∧ c.entry = .publish index

/-- The call has begun and has not returned. -/
def inProgress (s : FrontierState C) (call : C) : Bool :=
  (s.calls call).any fun c => c.progress.isLeft

variable [DecidableEq C]

def setCall (s : FrontierState C) (call : C) (c : FrontierCall) : FrontierState C :=
  { s with calls := Function.update s.calls call (some c) }

def step (numTxs : Nat) (s : FrontierState C) : FrontierAction C → Option (FrontierState C)
  | .begin call entry =>
    match s.calls call with
    | none => if entry.inBlock numTxs then some (s.setCall call ⟨entry, .inl entry.start, 0⟩) else none
    | some _ => none
  | .access call =>
    match s.calls call with
    | some ⟨entry, .inl pc, accesses⟩ =>
      let (ctx, progress) := s.ctx.frontierStep numTxs pc
      some { (s.setCall call ⟨entry, progress, accesses + 1⟩) with ctx }
    | _ => none

end FrontierState

/-! ## Program points that move the frontier -/

namespace FrontierPc

/-- What the program point has read of the frontier is not ahead of
it. -/
def Behind (frontier : Nat) : FrontierPc → Prop
  | .currentCheck loaded => loaded ≤ frontier
  | .advanceScan _ start _ => start ≤ frontier
  | _ => True

/-- The call at this point moves the frontier from `frontier`, if that
transaction is flagged and nobody else moves it. -/
def Helps (frontier : Nat) : FrontierPc → Prop
  | .publishReload index => index = frontier
  | .currentLoad | .currentCheck _ | .advanceScan .. | .advanceMax .. => True
  | _ => False

/-- The program points of `publish(index)` before it sets the flag. -/
def Unflagged (index : Nat) (pc : FrontierPc) : Prop :=
  pc = .publishLoad index ∨ pc = .publishStore index

/-- A bound on the accesses a call has still to make. A scan that has
read a flag since the last `fetch_max` has one more to make. -/
def budget (numTxs : Nat) : FrontierPc → Nat
  | .publishLoad _ => 3 * numTxs + 5
  | .publishStore _ => 3 * numTxs + 4
  | .publishReload _ => 3 * numTxs + 3
  | .currentLoad => 3 * numTxs + 4
  | .currentCheck _ => 3 * numTxs + 3
  | .currentReload => 1
  | .advanceScan _ start finish => 3 * (numTxs - finish) + if finish = start then 2 else 4
  | .advanceMax _ finish => 3 * (numTxs - finish) + 3

theorem budget_pos (numTxs : Nat) (pc : FrontierPc) : 1 ≤ pc.budget numTxs := by
  cases pc <;> simp only [budget] <;> first | omega | (split <;> omega)

theorem Behind.mono {frontier frontier' : Nat} {pc : FrontierPc} (h : pc.Behind frontier)
    (hle : frontier ≤ frontier') : pc.Behind frontier' := by
  cases pc with
  | currentCheck loaded | advanceScan publishing start finish => exact le_trans h hle
  | _ => trivial

end FrontierPc

/-- The accesses left to a call, in progress or returned. -/
def FrontierCall.budget (numTxs : Nat) (c : FrontierCall) : Nat :=
  match c.progress with
  | .inl pc => pc.budget numTxs
  | .inr _ => 0

namespace SchedulerContext

variable {numTxs : Nat} {ctx ctx' : SchedulerContext} {pc pc' : FrontierPc}
  {next : FrontierPc ⊕ Nat}

theorem frontier_mono_of_frontierStep (h : ctx.frontierStep numTxs pc = (ctx', next)) :
    ctx.frontier ≤ ctx'.frontier := by
  cases frontierStep_sound h with
  | advance => exact le_max_left _ _
  | _ => exact le_rfl

/-- Only `publish(j)` sets the flag of `j`. -/
theorem flagged_of_frontierStep (h : ctx.frontierStep numTxs pc = (ctx', next)) {j : Nat}
    (hj : ctx'.executed j = true) : ctx.executed j = true ∨ pc = .publishStore j := by
  cases frontierStep_sound h with
  | @flag index =>
    by_cases heq : j = index
    · exact .inr (heq ▸ rfl)
    · exact .inl (by simpa [heq] using hj)
  | _ => exact .inl hj

theorem behind_of_frontierStep (h : ctx.frontierStep numTxs pc = (ctx', .inl pc'))
    (hbehind : pc.Behind ctx.frontier) : pc'.Behind ctx'.frontier := by
  cases frontierStep_sound h with
  | gap | load | advance => exact le_rfl
  | flagged | scan => exact hbehind
  | _ => trivial

/-- No call comes back to the part before its flag. -/
theorem unflagged_of_frontierStep {index : Nat}
    (h : ctx.frontierStep numTxs pc = (ctx', .inl pc')) (hpc' : pc'.Unflagged index) :
    pc.Unflagged index := by
  cases frontierStep_sound h <;> rcases hpc' with hpc' | hpc' <;> cases hpc'
  exact .inl rfl

theorem budget_of_frontierStep (h : ctx.frontierStep numTxs pc = (ctx', .inl pc')) :
    pc'.budget numTxs + 1 ≤ pc.budget numTxs := by
  cases frontierStep_sound h with
  | scan hlt _ =>
    simp only [FrontierPc.budget]
    split <;> split <;> omega
  | found _ hne => simp [FrontierPc.budget, hne]
  | _ => simp only [FrontierPc.budget, if_true]; omega

/-- A call that helps keeps helping. -/
theorem helps_of_frontierStep (h : ctx.frontierStep numTxs pc = (ctx', next))
    (hlt : ctx.frontier < numTxs) (hflags : ∀ j, j ≤ ctx.frontier → ctx.executed j = true)
    (hbehind : pc.Behind ctx.frontier) (hhelps : pc.Helps ctx.frontier) :
    ∃ pc', next = .inl pc' ∧ pc'.Helps ctx'.frontier := by
  cases frontierStep_sound h with
  | passed | ahead | flag | reload => exact hhelps.elim
  | elsewhere hne => exact absurd hhelps hne
  | loadEnd hle => omega
  | unflagged hflag => rw [hflags _ hbehind] at hflag; cases hflag
  -- A scan that found nothing began at the frontier or before it, where all is flagged.
  | stuckPublish hstop => exact absurd ⟨lt_of_le_of_lt hbehind hlt, hflags _ hbehind⟩ hstop
  | stuckCurrent hstop => exact absurd ⟨lt_of_le_of_lt hbehind hlt, hflags _ hbehind⟩ hstop
  | _ => exact ⟨_, rfl, trivial⟩

/-- Whoever brings the frontier to a flagged transaction, or flags the
transaction at the frontier, helps. -/
theorem helps_of_flagged (h : ctx.frontierStep numTxs pc = (ctx', next))
    (hflag : ctx'.executed ctx'.frontier = true) :
    (ctx'.frontier = ctx.frontier ∧ ctx.executed ctx.frontier = true) ∨
      ∃ pc', next = .inl pc' ∧ pc'.Helps ctx'.frontier := by
  cases frontierStep_sound h with
  | @flag index =>
    by_cases heq : ctx.frontier = index
    · exact .inr ⟨_, rfl, heq.symm⟩
    · exact .inl ⟨rfl, by simpa [heq] using hflag⟩
  | advance => exact .inr ⟨_, rfl, trivial⟩
  | _ => exact .inl ⟨rfl, hflag⟩

end SchedulerContext

/-! ## The frontier in every run -/

/-- What is known of a call. -/
structure FrontierCall.Ok (numTxs : Nat) (ctx : SchedulerContext) (c : FrontierCall) : Prop where
  inBlock : c.entry.inBlock numTxs = true
  sound : ∀ pc, c.progress = .inl pc → pc.Sound ctx
  behind : ∀ pc, c.progress = .inl pc → pc.Behind ctx.frontier
  serves : ∀ pc index, c.progress = .inl pc → pc.Unflagged index → c.entry = .publish index
  /-- A publisher past its store has set its flag. -/
  flagged : ∀ index, c.entry = .publish index →
    ctx.executed index = true ∨ ∃ pc, c.progress = .inl pc ∧ pc.Unflagged index
  budget : c.accesses + c.budget numTxs ≤ 3 * numTxs + 5

namespace FrontierCall.Ok

variable {numTxs : Nat} {ctx ctx' : SchedulerContext} {c : FrontierCall} {pc : FrontierPc}
  {next : FrontierPc ⊕ Nat} {entry : FrontierEntry} {accesses : Nat}

theorem begin (h : entry.inBlock numTxs = true) :
    Ok numTxs ctx ⟨entry, .inl entry.start, 0⟩ where
  inBlock := h
  sound pc heq := by
    cases heq
    cases entry <;> trivial
  behind pc heq := by
    cases heq
    cases entry <;> trivial
  serves pc index heq hpc := by
    cases heq
    cases entry <;> rcases hpc with hpc | hpc <;> cases hpc
    rfl
  flagged index heq := by
    cases heq
    exact .inr ⟨_, rfl, .inl rfl⟩
  budget := by
    cases entry <;> simp [FrontierCall.budget, FrontierEntry.start, FrontierPc.budget]

/-- The access of another call. -/
theorem mono (h : c.Ok numTxs ctx) (hmove : ctx.frontierStep numTxs pc = (ctx', next)) :
    c.Ok numTxs ctx' where
  inBlock := h.inBlock
  sound pc heq := (h.sound pc heq).mono (SchedulerContext.executed_mono_of_frontierStep hmove)
  behind pc heq := (h.behind pc heq).mono (SchedulerContext.frontier_mono_of_frontierStep hmove)
  serves := h.serves
  flagged index heq :=
    (h.flagged index heq).imp_left (SchedulerContext.executed_mono_of_frontierStep hmove index)
  budget := h.budget

/-- The access of the call itself. -/
theorem access (h : Ok numTxs ctx ⟨entry, .inl pc, accesses⟩)
    (hflags : ∀ j, j < ctx.frontier → ctx.executed j = true)
    (hmove : ctx.frontierStep numTxs pc = (ctx', next)) :
    Ok numTxs ctx' ⟨entry, next, accesses + 1⟩ where
  inBlock := h.inBlock
  sound := (SchedulerContext.sound_of_frontierStep hmove hflags (h.sound pc rfl)).2
  behind pc' heq := by
    cases heq
    exact SchedulerContext.behind_of_frontierStep hmove (h.behind pc rfl)
  serves pc' index heq hpc' := by
    cases heq
    exact h.serves pc index rfl (SchedulerContext.unflagged_of_frontierStep hmove hpc')
  flagged index heq := by
    rcases h.flagged index heq with hflag | ⟨pc', hpc', hun⟩
    · exact .inl (SchedulerContext.executed_mono_of_frontierStep hmove index hflag)
    · cases hpc'
      rcases SchedulerContext.publish_of_frontierStep hmove hflags hun with hflag | rfl
      · exact .inl hflag
      · exact .inr ⟨_, rfl, .inr rfl⟩
  budget := by
    have hbudget := h.budget
    cases next with
    | inl pc' =>
      have hlt := SchedulerContext.budget_of_frontierStep hmove
      simp only [FrontierCall.budget] at hbudget ⊢
      omega
    | inr value =>
      have hpos := pc.budget_pos numTxs
      simp only [FrontierCall.budget] at hbudget ⊢
      omega

end FrontierCall.Ok

namespace FrontierState

variable {C : Type} {numTxs : Nat} {s s' : FrontierState C}

/-- The flags are those of the calls made, the frontier covers flagged
transactions, and a frontier at a flagged transaction is going to be
moved. -/
structure Exact (numTxs : Nat) (s : FrontierState C) : Prop where
  calls : ∀ call c, s.calls call = some c → c.Ok numTxs s.ctx
  prefixed : ∀ j, j < s.ctx.frontier → s.ctx.executed j = true
  published : ∀ j, s.ctx.executed j = true → s.Published j
  helped : s.ctx.executed s.ctx.frontier = true →
    ∃ call c pc, s.calls call = some c ∧ c.progress = .inl pc ∧ pc.Helps s.ctx.frontier

theorem exact_new : Exact numTxs ({} : FrontierState C) where
  calls _ _ h := by cases h
  prefixed _ h := by cases h
  published _ h := by cases h
  helped h := by cases h

theorem Exact.lt_of_published {j : Nat} (h : Exact numTxs s) (hj : s.Published j) :
    j < numTxs := by
  obtain ⟨call, c, hc, hentry⟩ := hj
  have hin := (h.calls call c hc).inBlock
  rw [hentry] at hin
  exact of_decide_eq_true hin

/-- With no call left, the transaction at the frontier has not been
published. -/
theorem Exact.not_published_frontier (h : Exact numTxs s)
    (hidle : ∀ call, s.inProgress call = false) : ¬ s.Published s.ctx.frontier := by
  have hreturned : ∀ call c pc, s.calls call = some c → c.progress ≠ .inl pc := by
    intro call c pc hc hpc
    have := hidle call
    simp [inProgress, hc, hpc] at this
  rintro ⟨call, c, hc, hentry⟩
  rcases (h.calls call c hc).flagged _ hentry with hflag | ⟨pc, hpc, -⟩
  · obtain ⟨helper, c', pc, hc', hpc, -⟩ := h.helped hflag
    exact hreturned helper c' pc hc' hpc
  · exact hreturned call c pc hc hpc

variable [DecidableEq C]

/-- What is known of all calls stays known when one of them is replaced. -/
theorem calls_setCall {P : FrontierCall → Prop} {call : C} {c : FrontierCall}
    (hcall : P c) (hothers : ∀ other c', other ≠ call → s.calls other = some c' → P c') :
    ∀ other c', (s.setCall call c).calls other = some c' → P c' := by
  intro other c' h
  by_cases heq : other = call
  · subst heq
    simp only [setCall, Function.update_self, Option.some.injEq] at h
    exact h ▸ hcall
  · exact hothers other c' heq (by simpa [setCall, heq] using h)

/-- A call keeps its entry. -/
theorem Published.setCall {call : C} {c : FrontierCall} {j : Nat} (h : s.Published j)
    (hentry : ∀ c', s.calls call = some c' → c.entry = c'.entry) :
    (s.setCall call c).Published j := by
  obtain ⟨other, c', hc', hj⟩ := h
  by_cases heq : other = call
  · subst heq
    exact ⟨other, c, by simp [FrontierState.setCall], (hentry c' hc').trans hj⟩
  · exact ⟨other, c', by simpa [FrontierState.setCall, heq] using hc', hj⟩

theorem Exact.begin {call : C} {entry : FrontierEntry} (h : Exact numTxs s)
    (hnone : s.calls call = none) (hentry : entry.inBlock numTxs = true) :
    Exact numTxs (s.setCall call ⟨entry, .inl entry.start, 0⟩) where
  calls := calls_setCall (.begin hentry) fun other c' _ hc' => h.calls other c' hc'
  prefixed := h.prefixed
  published j hj := (h.published j hj).setCall fun c' hc' => by rw [hnone] at hc'; cases hc'
  helped hflag := by
    obtain ⟨other, c', pc, hc', hpc, hhelps⟩ := h.helped hflag
    have hne : other ≠ call := by
      rintro rfl
      rw [hnone] at hc'
      cases hc'
    exact ⟨other, c', pc, by simpa [setCall, hne] using hc', hpc, hhelps⟩

theorem Exact.access {call : C} {entry : FrontierEntry} {pc : FrontierPc} {accesses : Nat}
    {ctx' : SchedulerContext} {next : FrontierPc ⊕ Nat} (h : Exact numTxs s)
    (hcall : s.calls call = some ⟨entry, .inl pc, accesses⟩)
    (hmove : s.ctx.frontierStep numTxs pc = (ctx', next)) :
    Exact numTxs { s.setCall call ⟨entry, next, accesses + 1⟩ with ctx := ctx' } := by
  have hok := h.calls call _ hcall
  have hself : (s.setCall call ⟨entry, next, accesses + 1⟩).calls call =
      some ⟨entry, next, accesses + 1⟩ := by simp [setCall]
  refine ⟨?_, ?_, fun j hj => ?_, fun hflag => ?_⟩
  · exact calls_setCall (hok.access h.prefixed hmove)
      fun other c' _ hc' => (h.calls other c' hc').mono hmove
  · exact (SchedulerContext.sound_of_frontierStep hmove h.prefixed (hok.sound pc rfl)).1
  · have hbefore : s.Published j := by
      rcases SchedulerContext.flagged_of_frontierStep hmove hj with hj | rfl
      · exact h.published j hj
      · exact ⟨call, _, hcall, hok.serves _ j rfl (.inr rfl)⟩
    exact hbefore.setCall fun c' hc' => by rw [hcall] at hc'; cases hc'; rfl
  · rcases SchedulerContext.helps_of_flagged hmove hflag with ⟨hfrontier, hold⟩ | ⟨pc', rfl, hhelps⟩
    · -- The transaction at the frontier was flagged before, and somebody helped.
      obtain ⟨other, c', pc', hc', hpc', hhelps⟩ := h.helped hold
      by_cases heq : other = call
      · subst heq
        rw [hcall] at hc'
        cases hc'
        cases hpc'
        have hflags : ∀ j, j ≤ s.ctx.frontier → s.ctx.executed j = true := fun j hj => by
          rcases Nat.lt_or_eq_of_le hj with hlt | rfl
          · exact h.prefixed j hlt
          · exact hold
        obtain ⟨pc', rfl, hhelps'⟩ := SchedulerContext.helps_of_frontierStep hmove
          (h.lt_of_published (h.published _ hold)) hflags (hok.behind pc rfl) hhelps
        exact ⟨other, _, pc', hself, rfl, hhelps'⟩
      · refine ⟨other, c', pc', by simpa [setCall, heq] using hc', hpc', ?_⟩
        show pc'.Helps ctx'.frontier
        rw [hfrontier]
        exact hhelps
    · exact ⟨call, _, pc', hself, rfl, hhelps⟩

/-- A step begins a call or makes the next access of one. -/
theorem step_cases {a : FrontierAction C} (hs : s.step numTxs a = some s') :
    (∃ call entry, s.calls call = none ∧ entry.inBlock numTxs = true ∧
      s' = s.setCall call ⟨entry, .inl entry.start, 0⟩) ∨
    ∃ call entry pc accesses ctx' next, s.calls call = some ⟨entry, .inl pc, accesses⟩ ∧
      s.ctx.frontierStep numTxs pc = (ctx', next) ∧
      s' = { s.setCall call ⟨entry, next, accesses + 1⟩ with ctx := ctx' } := by
  cases a with
  | begin call entry =>
    simp only [step] at hs
    split at hs
    · split at hs
      · cases hs
        exact .inl ⟨call, entry, ‹_›, ‹_›, rfl⟩
      · cases hs
    · cases hs
  | access call =>
    simp only [step] at hs
    split at hs
    · cases hs
      exact .inr ⟨call, _, _, _, _, _, ‹_›, rfl, rfl⟩
    · cases hs

theorem exact_of_reach (h : Runs.Reach (step numTxs) Runs.Free {} s) : Exact numTxs s := by
  refine h.invariant exact_new fun s a s' _ hx _ hs => ?_
  rcases step_cases hs with ⟨call, entry, hnone, hentry, rfl⟩ |
    ⟨call, entry, pc, accesses, ctx', next, hcall, hmove, rfl⟩
  · exact hx.begin hnone hentry
  · exact hx.access hcall hmove

theorem frontier_mono_of_step {a : FrontierAction C} (hs : s.step numTxs a = some s') :
    s.ctx.frontier ≤ s'.ctx.frontier := by
  rcases step_cases hs with ⟨call, entry, -, -, rfl⟩ | ⟨call, entry, pc, _, ctx', next, -, hmove, rfl⟩
  · exact le_rfl
  · exact SchedulerContext.frontier_mono_of_frontierStep hmove

/-- **The execution frontier is exact.** It never decreases and only
covers published transactions; a call in progress has made fewer than
`3 * numTxs + 5` accesses and can make the next, so it returns; and
between calls the frontier is the first transaction that was never
published, or the end of the block. -/
theorem execution_frontier_is_exact (h : Runs.Reach (step numTxs) Runs.Free {} s) :
    (∀ a s', s.step numTxs a = some s' → s.ctx.frontier ≤ s'.ctx.frontier) ∧
    (∀ index, index < s.ctx.frontier → s.Published index) ∧
    (∀ call entry pc accesses, s.calls call = some ⟨entry, .inl pc, accesses⟩ →
      accesses < 3 * numTxs + 5 ∧
      ∃ s' progress, s.step numTxs (.access call) = some s' ∧
        s'.calls call = some ⟨entry, progress, accesses + 1⟩) ∧
    ((∀ call, s.inProgress call = false) →
      IsLeast {index | index = numTxs ∨ ¬ s.Published index} s.ctx.frontier) := by
  have hx := exact_of_reach h
  refine ⟨fun a s' hs => frontier_mono_of_step hs, fun index hlt => ?_, ?_, fun hidle => ?_⟩
  · exact hx.published index (hx.prefixed index hlt)
  · intro call entry pc accesses hcall
    have hbudget := (hx.calls call _ hcall).budget
    have hpos := pc.budget_pos numTxs
    simp only [FrontierCall.budget] at hbudget
    refine ⟨by omega, _, (s.ctx.frontierStep numTxs pc).2, by simp only [step, hcall]; rfl, ?_⟩
    simp [setCall]
  · refine ⟨.inr (hx.not_published_frontier hidle), fun index hindex => ?_⟩
    by_contra hlt
    have hpub := hx.published index (hx.prefixed index (by omega))
    rcases hindex with rfl | hnot
    · exact absurd (hx.lt_of_published hpub) (by omega)
    · exact hnot hpub

/-- Call 0 publishes transaction 1 after the scan of call 1 has found it
missing and before that scan moves the frontier, and returns without
moving it; call 1 scans again after its `fetch_max` and passes both. -/
theorem execution_frontier_is_exact_helped :
    ∃ s : FrontierState (Fin 2),
      Runs.Reach (step 2) Runs.Free {} s ∧ (∀ call, s.inProgress call = false) ∧
      s.ctx.frontier = 2 ∧
      IsLeast {index | index = 2 ∨ ¬ s.Published index} s.ctx.frontier := by
  have hrun : (Runs.exec (step 2) ({} : FrontierState (Fin 2))
      ([.begin 0 (.publish 1), .begin 1 (.publish 0), .access 0] ++
        List.replicate 5 (.access 1) ++ [.access 0, .access 0] ++
        List.replicate 5 (.access 1))).map
      (fun s => (s.ctx.frontier, s.inProgress 0, s.inProgress 1)) = some (2, false, false) := by
    decide +kernel
  obtain ⟨s, hexec, hs⟩ := Option.map_eq_some_iff.mp hrun
  simp only [Prod.mk.injEq] at hs
  obtain ⟨hfrontier, hzero, hone⟩ := hs
  have hidle : ∀ call, s.inProgress call = false := Fin.forall_fin_two.mpr ⟨hzero, hone⟩
  have hreach := Runs.reach_of_exec hexec
  exact ⟨s, hreach, hidle, hfrontier, (execution_frontier_is_exact hreach).2.2.2 hidle⟩

end FrontierState

end Grevm
