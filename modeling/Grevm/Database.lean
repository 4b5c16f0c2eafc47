/-
Grevm.Database — the database interface of an execution.

A transaction is an adaptive program over the two state reads of revm's
`Database`: it asks for an account or a slot, continues with the answer,
and ends in a speculative result or an error. `View` is everything such a
read can depend on at one moment, and `View.eval` is the answer it gets
then; `Prog.run` is the program executed against one view.

`Backing` is the database behind the multi-version memory as the
scheduler's threads use it: every call is a machine of its own, so that
the steps of concurrent calls and of an ordered commit interleave.
-/
import Grevm.Beneficiary

namespace Grevm

/-! ## Calls and programs -/

/-- A state read of the EVM. -/
inductive Call where
  | basic (address : Address)
  | storage (address : Address) (index : U256)
  deriving DecidableEq

/-- What a state read returns. -/
inductive Value where
  | account (account : Option AccountView)
  | word (value : U256)
  deriving DecidableEq

/-- A deterministic adaptive program: one execution of a transaction. -/
inductive Prog (Err R : Type) where
  | read (call : Call) (continuation : Except Err Value → Prog Err R)
  | done (result : Except (EVMError Err) (SpeculativeResult R))

namespace Prog

variable {Err R : Type}

/-- The program executed with every read answered by `answer`. -/
def run (answer : Call → Except Err Value) :
    Prog Err R → Except (EVMError Err) (SpeculativeResult R)
  | .read call continuation => run answer (continuation (answer call))
  | .done result => result

/-- The calls such an execution makes, with their answers. -/
def calls (answer : Call → Except Err Value) : Prog Err R → List (Call × Except Err Value)
  | .read call continuation => (call, answer call) :: calls answer (continuation (answer call))
  | .done _ => []

/-- The program left after the answers of a list of calls, when they are
the calls it makes. -/
def follow : Prog Err R → List (Call × Except Err Value) → Option (Prog Err R)
  | p, [] => some p
  | p, (call', answer) :: rest =>
    match p with
    | .read call continuation =>
      if call = call' then follow (continuation answer) rest else none
    | .done _ => none
termination_by structural _ done => done

/-- A program that follows a first answer reads that call. -/
theorem follow_cons {p q : Prog Err R} {call : Call} {answer : Except Err Value}
    {rest : List (Call × Except Err Value)} (h : p.follow ((call, answer) :: rest) = some q) :
    ∃ k, p = .read call k ∧ (k answer).follow rest = some q := by
  cases p with
  | done r => cases h
  | read call' k =>
    simp only [follow] at h
    by_cases heq : call' = call
    · rw [if_pos heq] at h
      exact ⟨k, heq ▸ rfl, h⟩
    · rw [if_neg heq] at h
      cases h

theorem follow_append {p q : Prog Err R} {done rest : List (Call × Except Err Value)}
    (h : p.follow done = some q) : p.follow (done ++ rest) = q.follow rest := by
  induction done generalizing p with
  | nil =>
    cases h
    rfl
  | cons head tail ih =>
    obtain ⟨k, rfl, hk⟩ := follow_cons h
    rw [← ih hk, List.cons_append, follow, if_pos rfl]

/-- A program that has followed answers which `answer` gives too runs to
the same result as its remainder. -/
theorem run_of_follow {p q : Prog Err R} {done : List (Call × Except Err Value)}
    {answer : Call → Except Err Value} (h : p.follow done = some q)
    (agree : ∀ c v, (c, v) ∈ done → answer c = v) : p.run answer = q.run answer := by
  induction done generalizing p with
  | nil =>
    cases h
    rfl
  | cons head tail ih =>
    obtain ⟨k, rfl, hk⟩ := follow_cons h
    rw [run, agree head.1 head.2 (by simp)]
    exact ih hk fun c v hc => agree c v (by simp [hc])

end Prog

/-! ## Views -/

/-- Everything a state read of one transaction depends on: the latest
preceding write of each location, the walk over the beneficiary history,
and the backing database. -/
structure View (Err : Type) where
  beneficiary : Address
  latest : LocationAndType → Option (Nat × MemoryValue)
  history : Except Nat HistoryScan
  basic : Address → Except Err (Option AccountInfo)
  code : B256 → Except Err Bytecode
  storage : Address → U256 → Except Err U256

namespace View

variable {Err : Type}

/-- `code_by_address`. -/
def codeByAddress (V : View Err) (address : Address) (codeHash : B256) : Except Err Bytecode :=
  match V.latest (.code address) with
  | some (_, .code code) => .ok code
  | _ => V.code codeHash

/-- The end of `IncarnationDb::basic`: load the code of an account that
has some but came without it. -/
def withCode (V : View Err) (address : Address) :
    Option AccountInfo → Except Err (Option AccountInfo)
  | none => .ok none
  | some info =>
    if !info.isEmptyCodeHash && info.code.isNone then
      (V.codeByAddress address info.codeHash).map fun code => some { info with code := some code }
    else .ok (some info)

/-- `IncarnationDb::basic` against one view. -/
def basicInfo (V : View Err) (address : Address) : Except Err (Option AccountInfo) :=
  if address = V.beneficiary then
    match V.history with
    | .ok scan => V.withCode address scan.resolve
    | .error _ => .ok none
  else
    match V.latest (.basic address) with
    | some (_, .basic account) => V.withCode address account
    | _ => (V.basic address).bind (V.withCode address)

/-- `IncarnationDb::storage` against one view. -/
def storageAt (V : View Err) (address : Address) (index : U256) : Except Err U256 :=
  let reset : Option Nat :=
    match V.latest (.storageReset address) with
    | some (txid, .storageReset) => some txid
    | _ => none
  match V.latest (.storage address index), reset with
  | some (slot, .storage value), some reset => if reset ≤ slot then .ok value else .ok 0
  | some (_, .storage value), none => .ok value
  | _, some _ => .ok 0
  | _, none => V.storage address index

/-- The answer of a state read against one view. -/
def eval (V : View Err) : Call → Except Err Value
  | .basic address => (V.basicInfo address).map fun info => .account (info.map AccountInfo.view)
  | .storage address index => (V.storageAt address index).map .word

end View

/-! ## The backing database -/

/-- The database behind the multi-version memory, shared by the workers
and the ordered commit. A call starts at a program point and moves by
single accesses to the shared state until it returns; `commitStep` also
takes the choice of the next account of the change set, and has no step
where the code panics. The `Now` operations are the same calls without
interleaving. -/
structure Backing (Err : Type) where
  State : Type
  BasicPc : Type
  CodePc : Type
  StoragePc : Type
  CommitPc : Type
  basicStart : Address → BasicPc
  basicStep : State → BasicPc → State × (BasicPc ⊕ Except Err (Option AccountInfo))
  codeStart : B256 → CodePc
  codeStep : State → CodePc → State × (CodePc ⊕ Except Err Bytecode)
  storageStart : Address → U256 → StoragePc
  storageStep : State → StoragePc → State × (StoragePc ⊕ Except Err U256)
  commitStart : EvmState → CommitPc
  commitStep : State → CommitPc → Nat → Option (State × Option CommitPc)
  basicNow : State → Address → State × Except Err (Option AccountInfo)
  codeNow : State → B256 → State × Except Err Bytecode
  storageNow : State → Address → U256 → State × Except Err U256
  commitNow : State → EvmState → Option State

/-- revm's `EmptyDB`: no account, no storage, and nothing is kept. -/
def Backing.emptyDB (Err : Type) : Backing Err where
  State := Unit
  BasicPc := Unit
  CodePc := Unit
  StoragePc := Unit
  CommitPc := Unit
  basicStart _ := ()
  basicStep _ _ := ((), .inr (.ok none))
  codeStart _ := ()
  codeStep _ _ := ((), .inr (.ok []))
  storageStart _ _ := ()
  storageStep _ _ := ((), .inr (.ok 0))
  commitStart _ := ()
  commitStep _ _ _ := some ((), none)
  basicNow _ _ := ((), .ok none)
  codeNow _ _ := ((), .ok [])
  storageNow _ _ _ := ((), .ok 0)
  commitNow _ _ := some ()

end Grevm
