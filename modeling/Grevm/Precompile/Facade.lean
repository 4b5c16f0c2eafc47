/-
Grevm.Precompile.Facade — the state facade of custom precompiles.

`src/precompile.rs`. An implementation is not trusted: it is an adaptive
program of facade calls that may ignore every error and return what it
likes. The facade remembers its first fault, a database error or an
attempt to change the state in a static call, refuses everything after
it, and the adapter replaces the result of the implementation by that
fault.

A run is described by its events, one for each facade call with its
reply and the journal before and after it. One call is specified by
`call_spec`; what follows is by induction over the program.
-/
import Grevm.Precompile.Internals

namespace Grevm

/-! ## Results -/

/-- revm's `PrecompileHalt`: `Other` with its message, and the reasons
that have a name. -/
inductive PrecompileHalt where
  | other (message : String)
  | named (reason : String)
  deriving DecidableEq

/-- revm's `PrecompileError`. -/
inductive PrecompileError where
  | fatal (message : String)
  | other (message : String)
  deriving DecidableEq

inductive ParallelPrecompileError where
  | halt (reason : PrecompileHalt)
  | fatal (error : PrecompileError)
  deriving DecidableEq

/-- `ParallelPrecompileError::database`. -/
def ParallelPrecompileError.database {Err : Type} [ToString Err] (error : Err) :
    ParallelPrecompileError :=
  .fatal (.fatal (toString error))

inductive PrecompileStatus where
  | success
  | revert
  | halt (reason : PrecompileHalt)
  deriving DecidableEq

/-- revm's `PrecompileOutput`. -/
structure PrecompileOutput where
  status : PrecompileStatus
  gasUsed : Nat
  reservoir : Nat
  bytes : List UInt8
  deriving DecidableEq

/-- `PrecompileOutput::halt`. -/
def PrecompileOutput.halt (reason : PrecompileHalt) (reservoir : Nat) : PrecompileOutput :=
  { status := .halt reason, gasUsed := 0, reservoir, bytes := [] }

abbrev ParallelPrecompileResult := Except ParallelPrecompileError PrecompileOutput

/-! ## The facade -/

inductive FacadeCall where
  | balance (address : Address)
  | sload (address : Address) (key : U256)
  | setBalance (address : Address) (balance : U256)
  | sstore (address : Address) (key value : U256)
  deriving DecidableEq

/-- What a call returns when it does not fail. -/
def FacadeCall.Reply : FacadeCall → Type
  | .balance _ => StateLoad U256
  | .sload _ _ => StateLoad U256
  | .setBalance _ _ => StateLoad Unit
  | .sstore _ _ _ => StateLoad SStoreResult

structure ParallelPrecompileState where
  internals : EvmInternals
  isStatic : Bool
  fault : Option ParallelPrecompileError := none

namespace ParallelPrecompileState

def ensureHealthy (state : ParallelPrecompileState) : Except ParallelPrecompileError Unit :=
  match state.fault with
  | some fault => .error fault
  | none => .ok ()

/-- `record_fault`: the first fault stays. -/
def recordFault {α : Type} (state : ParallelPrecompileState) (fault : ParallelPrecompileError) :
    ParallelPrecompileState × Except ParallelPrecompileError α :=
  let fault := state.fault.getD fault
  ({ state with fault := some fault }, .error fault)

def ensureMutable (state : ParallelPrecompileState) :
    ParallelPrecompileState × Except ParallelPrecompileError Unit :=
  match state.ensureHealthy with
  | .error fault => (state, .error fault)
  | .ok () =>
    if state.isStatic then state.recordFault (.halt (.other "state change during static call"))
    else (state, .ok ())

variable {Err : Type} [ToString Err] (db : FailingDatabase Err)

/-- An operation of the internals whose error is recorded. -/
def access {α : Type} (state : ParallelPrecompileState)
    (operation : EvmInternals → EvmInternals × Except Err α) :
    ParallelPrecompileState × Except ParallelPrecompileError α :=
  match operation state.internals with
  | (internals, .ok load) => ({ state with internals }, .ok load)
  | (internals, .error error) => { state with internals }.recordFault (.database error)

/-- A facade method that reads. -/
def read {α : Type} (state : ParallelPrecompileState)
    (operation : EvmInternals → EvmInternals × Except Err α) :
    ParallelPrecompileState × Except ParallelPrecompileError α :=
  match state.ensureHealthy with
  | .error fault => (state, .error fault)
  | .ok () => state.access operation

/-- A facade method that writes. -/
def write {α : Type} (state : ParallelPrecompileState)
    (operation : EvmInternals → EvmInternals × Except Err α) :
    ParallelPrecompileState × Except ParallelPrecompileError α :=
  match state.ensureMutable with
  | (state, .error fault) => (state, .error fault)
  | (state, .ok ()) => state.access operation

def balance (state : ParallelPrecompileState) (address : Address) :
    ParallelPrecompileState × Except ParallelPrecompileError (StateLoad U256) :=
  state.read fun internals =>
    match internals.loadAccountMut db address with
    | (internals, result) =>
      (internals, result.map fun load => ⟨load.data.info.balance, load.isCold⟩)

def sload (state : ParallelPrecompileState) (address : Address) (key : U256) :
    ParallelPrecompileState × Except ParallelPrecompileError (StateLoad U256) :=
  state.read fun internals => internals.sload db address key

def setBalance (state : ParallelPrecompileState) (address : Address) (balance : U256) :
    ParallelPrecompileState × Except ParallelPrecompileError (StateLoad Unit) :=
  state.write fun internals => internals.setBalance db address balance

def sstore (state : ParallelPrecompileState) (address : Address) (key value : U256) :
    ParallelPrecompileState × Except ParallelPrecompileError (StateLoad SStoreResult) :=
  state.write fun internals => internals.sstore db address key value

/-- One facade call. -/
def call (state : ParallelPrecompileState) :
    (c : FacadeCall) → ParallelPrecompileState × Except ParallelPrecompileError c.Reply
  | .balance address => state.balance db address
  | .sload address key => state.sload db address key
  | .setBalance address balance => state.setBalance db address balance
  | .sstore address key value => state.sstore db address key value

def takeFault (state : ParallelPrecompileState) :
    ParallelPrecompileState × Option ParallelPrecompileError :=
  ({ state with fault := none }, state.fault)

end ParallelPrecompileState

/-! ## Implementations and the adapter -/

/-- Alloy's `PrecompileInput` without its internals. -/
structure PrecompileInput where
  data : List UInt8
  gas : Nat
  reservoir : Nat
  caller : Address
  value : U256
  targetAddress : Address
  bytecodeAddress : Address
  isStatic : Bool

/-- A run of an implementation: facade calls, each chosen from the
replies so far, and a result. -/
inductive FacadeProg where
  | call (c : FacadeCall) (continuation : Except ParallelPrecompileError c.Reply → FacadeProg)
  | done (result : ParallelPrecompileResult)

/-- `ParallelPrecompile::call`: what the implementation does with its
input. -/
abbrev ParallelPrecompile := PrecompileInput → FacadeProg

/-- The facade of a call, as `from_alloy` builds it. -/
def PrecompileInput.facade (input : PrecompileInput) (internals : EvmInternals) :
    ParallelPrecompileState :=
  { internals, isStatic := input.isStatic }

section

variable {Err : Type} [ToString Err] (db : FailingDatabase Err)

def FacadeProg.run : FacadeProg → ParallelPrecompileState →
    ParallelPrecompileState × ParallelPrecompileResult
  | .call c continuation, state =>
    match state.call db c with
    | (state, reply) => (continuation reply).run state
  | .done result, state => (state, result)

/-- What Alloy gets for the result of a precompile: a halt keeps the
forwarded reservoir. -/
def ParallelPrecompileResult.toAlloy (reservoir : Nat) :
    ParallelPrecompileResult → Except PrecompileError PrecompileOutput
  | .ok output => .ok output
  | .error (.halt reason) => .ok (.halt reason reservoir)
  | .error (.fatal error) => .error error

/-- The adapter of `to_alloy`: a recorded fault replaces the result. -/
def ParallelPrecompile.toAlloy (precompile : ParallelPrecompile) (input : PrecompileInput)
    (internals : EvmInternals) : EvmInternals × Except PrecompileError PrecompileOutput :=
  let reservoir := input.reservoir
  let (state, result) := (precompile input).run db (input.facade internals)
  let (state, fault) := state.takeFault
  let result := match fault with
    | some fault => .error fault
    | none => result
  (state.internals, ParallelPrecompileResult.toAlloy reservoir result)

end

/-! ## One call -/

/-- The error of a reply. -/
def faultOf {α : Type} : Except ParallelPrecompileError α → Option ParallelPrecompileError
  | .error fault => some fault
  | .ok _ => none

/-- What a facade call may do: a faulty facade refuses it, a healthy one
records its fault, and in a static call no value changes. -/
structure CallSpec {Err α : Type} (db : FailingDatabase Err)
    (state state' : ParallelPrecompileState) (reply : Except ParallelPrecompileError α) : Prop where
  refused : ∀ fault, state.fault = some fault → state' = state ∧ faultOf reply = some fault
  recorded : state.fault = none → state'.fault = faultOf reply
  isStatic : state'.isStatic = state.isStatic
  unchanged : state.isStatic = true → EvmInternals.SameValues db state.internals state'.internals

/-- The error that a call returns is the recorded one. -/
theorem CallSpec.fault_eq {Err α : Type} {db : FailingDatabase Err}
    {state state' : ParallelPrecompileState} {reply : Except ParallelPrecompileError α}
    {fault : ParallelPrecompileError} (h : CallSpec db state state' reply)
    (hreply : faultOf reply = some fault) : state'.fault = some fault := by
  cases hfault : state.fault with
  | none => rw [h.recorded hfault, hreply]
  | some first =>
    obtain ⟨rfl, hfirst⟩ := h.refused first hfault
    rw [hfault, ← hfirst, hreply]

namespace ParallelPrecompileState

variable {Err α : Type} [ToString Err] {db : FailingDatabase Err}
  {state state' : ParallelPrecompileState} {reply : Except ParallelPrecompileError α}
  {operation : EvmInternals → EvmInternals × Except Err α}

theorem access_cases (hhealthy : state.fault = none) (h : state.access operation = (state', reply)) :
    state'.fault = faultOf reply ∧ state'.isStatic = state.isStatic ∧
      state'.internals = (operation state.internals).1 := by
  unfold access at h
  split at h
  · rename_i hop
    cases h
    exact ⟨hhealthy, rfl, by rw [hop]⟩
  · rename_i hop
    cases h
    exact ⟨by simp [faultOf], rfl, by rw [hop]⟩

omit [ToString Err] in
/-- A faulty facade. -/
theorem refuse_spec {fault : ParallelPrecompileError} (hfault : state.fault = some fault) :
    CallSpec db state state (.error fault : Except ParallelPrecompileError α) where
  refused f hf := by
    rw [hfault] at hf
    cases hf
    exact ⟨rfl, rfl⟩
  recorded hnone := by
    rw [hfault] at hnone
    cases hnone
  isStatic := rfl
  unchanged _ := .refl

omit [ToString Err] in
/-- A healthy facade. -/
theorem healthy_spec (hhealthy : state.fault = none) (hrecorded : state'.fault = faultOf reply)
    (hstatic : state'.isStatic = state.isStatic)
    (hsame : state.isStatic = true → EvmInternals.SameValues db state.internals state'.internals) :
    CallSpec db state state' reply where
  refused f hf := by
    rw [hhealthy] at hf
    cases hf
  recorded _ := hrecorded
  isStatic := hstatic
  unchanged := hsame

/-- A method that reads, if its operation changes no value. -/
theorem read_spec
    (hop : ∀ internals, EvmInternals.SameValues db internals (operation internals).1)
    (h : state.read operation = (state', reply)) : CallSpec db state state' reply := by
  unfold read ensureHealthy at h
  cases hfault : state.fault with
  | some fault =>
    rw [hfault] at h
    cases h
    exact refuse_spec hfault
  | none =>
    rw [hfault] at h
    obtain ⟨hrecorded, hstatic, hinternals⟩ := access_cases hfault h
    refine healthy_spec hfault hrecorded hstatic fun _ => ?_
    rw [hinternals]
    exact hop _

/-- A method that writes; in a static call it does not reach its
operation. -/
theorem write_spec (h : state.write operation = (state', reply)) :
    CallSpec db state state' reply := by
  unfold write ensureMutable ensureHealthy at h
  cases hfault : state.fault with
  | some fault =>
    rw [hfault] at h
    cases h
    exact refuse_spec hfault
  | none =>
    rw [hfault] at h
    cases hstatic : state.isStatic with
    | true =>
      simp only [hstatic, if_true, recordFault] at h
      cases h
      exact healthy_spec hfault rfl hstatic.symm fun _ => .of_accounts rfl
    | false =>
      simp only [hstatic, Bool.false_eq_true, if_false] at h
      obtain ⟨hrecorded, hsame, -⟩ := access_cases hfault h
      refine healthy_spec hfault hrecorded hsame fun htrue => ?_
      rw [hstatic] at htrue
      cases htrue

/-- Every facade call meets the specification. -/
theorem call_spec {c : FacadeCall} {reply : Except ParallelPrecompileError c.Reply}
    (h : state.call db c = (state', reply)) : CallSpec db state state' reply := by
  cases c with
  | balance address =>
    exact read_spec (fun internals => (EvmInternals.sameValues_loadAccountMut rfl).1) h
  | sload address key => exact read_spec (fun internals => EvmInternals.sameValues_sload rfl) h
  | setBalance address balance | sstore address key value => exact write_spec h

end ParallelPrecompileState

/-! ## Runs -/

/-- A facade call of a run. -/
structure FacadeEvent where
  call : FacadeCall
  reply : Except ParallelPrecompileError call.Reply
  before : EvmInternals
  after : EvmInternals

def FacadeEvent.fault (event : FacadeEvent) : Option ParallelPrecompileError :=
  faultOf event.reply

/-- The facade calls of a run, in order. -/
def FacadeProg.events {Err : Type} [ToString Err] (db : FailingDatabase Err) :
    FacadeProg → ParallelPrecompileState → List FacadeEvent
  | .call c continuation, state =>
    match state.call db c with
    | (state', reply) =>
      { call := c, reply, before := state.internals, after := state'.internals } ::
        (continuation reply).events db state'
  | .done _, _ => []

/-- The first error that a facade call of the run returned. -/
def firstFault (events : List FacadeEvent) : Option ParallelPrecompileError :=
  events.findSome? FacadeEvent.fault

namespace FacadeProg

variable {Err : Type} [ToString Err] {db : FailingDatabase Err}
  {state : ParallelPrecompileState}

/-- A faulty facade refuses all that follows and leaves the journal
alone. -/
theorem refused_of_fault {fault : ParallelPrecompileError} (db : FailingDatabase Err)
    (prog : FacadeProg)
    (hfault : state.fault = some fault) :
    (∀ event ∈ prog.events db state, event.fault = some fault ∧ event.after = event.before) ∧
      (prog.run db state).1 = state := by
  induction prog with
  | done result => exact ⟨fun _ hmem => absurd hmem List.not_mem_nil, rfl⟩
  | call c continuation ih =>
    rcases hcall : state.call db c with ⟨state', reply⟩
    obtain ⟨rfl, hreply⟩ := (ParallelPrecompileState.call_spec hcall).refused fault hfault
    obtain ⟨hevents, hrun⟩ := ih reply
    simp only [events, run, hcall]
    refine ⟨fun event hmem => ?_, hrun⟩
    rcases List.mem_cons.mp hmem with rfl | hmem
    · exact ⟨hreply, rfl⟩
    · exact hevents event hmem

/-- After a fault every call returns it, and the journal stays as the
faulty call left it. -/
theorem refused_after_fault {prog : FacadeProg} {before after : List FacadeEvent}
    {event : FacadeEvent} {fault : ParallelPrecompileError}
    (h : prog.events db state = before ++ event :: after) (hfault : event.fault = some fault) :
    (∀ later ∈ after, later.fault = some fault ∧ later.after = later.before) ∧
      (prog.run db state).1.internals = event.after := by
  induction prog generalizing state before with
  | done result => simp [events] at h
  | call c continuation ih =>
    rcases hcall : state.call db c with ⟨state', reply⟩
    simp only [events, hcall] at h
    simp only [run, hcall]
    cases before with
    | nil =>
      obtain ⟨rfl, rfl⟩ := List.cons.inj h
      have hrest := refused_of_fault db (continuation reply)
        ((ParallelPrecompileState.call_spec hcall).fault_eq hfault)
      exact ⟨hrest.1, by rw [hrest.2]⟩
    | cons first before => exact ih reply (List.cons.inj h).2

/-- The facade ends with the first fault of the run. -/
theorem run_fault (prog : FacadeProg) (hhealthy : state.fault = none) :
    (prog.run db state).1.fault = firstFault (prog.events db state) := by
  induction prog generalizing state with
  | done result => exact hhealthy
  | call c continuation ih =>
    rcases hcall : state.call db c with ⟨state', reply⟩
    have hspec := ParallelPrecompileState.call_spec hcall
    simp only [run, events, hcall, firstFault, List.findSome?_cons, FacadeEvent.fault]
    cases hreply : faultOf reply with
    | some fault => rw [(refused_of_fault db _ (hspec.fault_eq hreply)).2, hspec.fault_eq hreply]
    | none =>
      have hhealthy' : state'.fault = none := by rw [hspec.recorded hhealthy, hreply]
      exact ih reply hhealthy'

/-- No value changes in a static run. -/
theorem sameValues_of_static (prog : FacadeProg) (hstatic : state.isStatic = true) :
    (∀ event ∈ prog.events db state, EvmInternals.SameValues db state.internals event.after) ∧
      EvmInternals.SameValues db state.internals (prog.run db state).1.internals := by
  induction prog generalizing state with
  | done result => exact ⟨fun _ hmem => absurd hmem List.not_mem_nil, .refl⟩
  | call c continuation ih =>
    rcases hcall : state.call db c with ⟨state', reply⟩
    have hspec := ParallelPrecompileState.call_spec hcall
    have hsame := hspec.unchanged hstatic
    obtain ⟨hevents, hrun⟩ := ih reply (hspec.isStatic.trans hstatic)
    simp only [events, run, hcall]
    refine ⟨fun event hmem => ?_, hsame.trans hrun⟩
    rcases List.mem_cons.mp hmem with rfl | hmem
    · exact hsame
    · exact hsame.trans (hevents event hmem)

end FacadeProg

/-! ## Failing closed -/

section

variable {Err : Type} [ToString Err]

/-- **The facade fails closed.** After a fault every facade call returns
that fault and leaves the journal as it is; in a static call no balance
and no slot changes; and the adapter returns the first fault if there was
one, and the result of the implementation otherwise. -/
theorem precompile_facade_fails_closed (db : FailingDatabase Err) (precompile : ParallelPrecompile)
    (input : PrecompileInput) (internals : EvmInternals) :
    (∀ before event after fault,
      (precompile input).events db (input.facade internals) = before ++ event :: after →
      event.fault = some fault →
        (∀ later ∈ after, later.fault = some fault ∧ later.after = later.before) ∧
          (precompile.toAlloy db input internals).1 = event.after) ∧
    (input.isStatic = true →
      (∀ event ∈ (precompile input).events db (input.facade internals),
        EvmInternals.SameValues db internals event.after) ∧
      EvmInternals.SameValues db internals (precompile.toAlloy db input internals).1) ∧
    (precompile.toAlloy db input internals).2 =
      match firstFault ((precompile input).events db (input.facade internals)) with
      | some (.halt reason) => .ok (.halt reason input.reservoir)
      | some (.fatal error) => .error error
      | none =>
        ParallelPrecompileResult.toAlloy input.reservoir
          ((precompile input).run db (input.facade internals)).2 := by
  refine ⟨fun before event after fault hevents hfault => ?_, fun hstatic => ?_, ?_⟩
  · exact FacadeProg.refused_after_fault hevents hfault
  · exact FacadeProg.sameValues_of_static (precompile input) hstatic
  · have hfault : ((precompile input).run db (input.facade internals)).1.fault =
        firstFault ((precompile input).events db (input.facade internals)) :=
      FacadeProg.run_fault (precompile input) rfl
    rw [← hfault]
    simp only [ParallelPrecompile.toAlloy, ParallelPrecompileState.takeFault]
    cases ((precompile input).run db (input.facade internals)).1.fault with
    | none => rfl
    | some fault => cases fault <;> rfl

end

/-- Writes a slot, reads a balance, ignores what the facade says and
reports success. -/
def ParallelPrecompile.ignoring : ParallelPrecompile := fun input =>
  .call (.sstore 0x42 4 11) fun _ => .call (.balance 0x42) fun _ =>
    .done (.ok { status := .success, gasUsed := 0, reservoir := input.reservoir, bytes := [] })

/-- A call with a reservoir of 7. -/
def PrecompileInput.reservoirSeven (isStatic : Bool) : PrecompileInput where
  data := []
  gas := 100000
  reservoir := 7
  caller := 1
  value := 2
  targetAddress := 0xfe
  bytecodeAddress := 0xfe
  isStatic

/-- An empty database whose calls fail from the given one on. -/
def FailingDatabase.failingFrom (first : Nat) : FailingDatabase String where
  basic _ := none
  storage _ _ := 0
  fails n := if first ≤ n then some "injected database failure" else none

/-- In a static call the write halts the call; with a failing database
loading the slot is fatal. -/
theorem precompile_facade_fails_closed_ignoring :
    (ParallelPrecompile.ignoring.toAlloy (.failingFrom 9) (.reservoirSeven true) {}).2 =
      .ok (.halt (.other "state change during static call") 7) ∧
    EvmInternals.SameValues (FailingDatabase.failingFrom 9) {}
      (ParallelPrecompile.ignoring.toAlloy (.failingFrom 9) (.reservoirSeven true) {}).1 ∧
    (ParallelPrecompile.ignoring.toAlloy (.failingFrom 1) (.reservoirSeven false) {}).2 =
      .error (.fatal "injected database failure") := by
  obtain ⟨-, hstatic, hhalt⟩ := precompile_facade_fails_closed (FailingDatabase.failingFrom 9)
    ParallelPrecompile.ignoring (.reservoirSeven true) {}
  obtain ⟨-, -, hfatal⟩ := precompile_facade_fails_closed (FailingDatabase.failingFrom 1)
    ParallelPrecompile.ignoring (.reservoirSeven false) {}
  exact ⟨hhalt.trans rfl, (hstatic rfl).2, hfatal.trans rfl⟩

end Grevm
