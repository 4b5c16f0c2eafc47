/-
Grevm.Reads — what the answers of an incarnation depend on.

The reads of an incarnation happen one after another while other
transactions publish and remove, so no single memory explains them. Each
look-up is an `Observation` instead: the version it met together with
the value behind that version. An answer is `Justified` by observations
when every view that agrees with them gives it, and the read set `Tracks`
observations when it holds their versions. `callStep_observes` is the
step of a state read, and `agrees_of_readSetHolds` says what a successful
validation buys: the memory at that moment agrees with every observation
the read set tracks.
-/
import Grevm.IncarnationDb

namespace Grevm

variable {Err : Type}

/-! ## The state behind the multi-version memory -/

/-- What a read without a preceding write resolves to. -/
structure Base (Err : Type) where
  beneficiary : Address
  anchor : Option AccountInfo
  basic : Address → Except Err (Option AccountInfo)
  code : B256 → Except Err Bytecode
  storage : Address → U256 → Except Err U256

/-- The view of transaction `txid` over memory that does not change. -/
def Base.view (base : Base Err) (mv : MVMemory) (history : Nat → EntryState) (txid : Nat) :
    View Err :=
  { beneficiary := base.beneficiary
    latest := fun l => (MVMemory.latestBefore (mv l) txid).map fun found => (found.1, found.2.data)
    history := scanBefore history base.anchor txid
    basic := base.basic
    code := base.code
    storage := base.storage }

/-- A view that answers from `base` where it has no preceding write. -/
structure View.Over (V : View Err) (base : Base Err) : Prop where
  beneficiary : V.beneficiary = base.beneficiary
  basic : V.basic = base.basic
  code : V.code = base.code
  storage : V.storage = base.storage

theorem Base.view_over {base : Base Err} {mv : MVMemory} {history : Nat → EntryState}
    {txid : Nat} : (base.view mv history txid).Over base :=
  ⟨rfl, rfl, rfl, rfl⟩

/-- `IncarnationDb::basic` up to the code. -/
def View.account (V : View Err) (address : Address) : Except Err (Option AccountInfo) :=
  if address = V.beneficiary then
    match V.history with
    | .ok scan => .ok scan.resolve
    | .error _ => .ok none
  else
    match V.latest (.basic address) with
    | some (_, .basic account) => .ok account
    | _ => V.basic address

theorem View.basicInfo_eq {V : View Err} {address : Address} :
    V.basicInfo address = (V.account address).bind (V.withCode address) := by
  unfold basicInfo account
  split
  · cases V.history <;> rfl
  · rcases V.latest (.basic address) with _ | ⟨writer, data⟩
    · rfl
    · cases data <;> rfl

/-! ## Walks over the beneficiary history -/

/-- An entry a walk has visited: its version and its effect. -/
abbrev Visit := TxVersion × BeneficiaryEffect

/-- The entry still is the one visited. -/
def Visit.Current (history : Nat → EntryState) (visit : Visit) : Prop :=
  history visit.1.txid = ⟨visit.1.incarnation, .exact visit.2⟩

/-- The effect belongs to the version: the entry has moved on, or holds
no other effect. -/
def Visit.Recorded (history : Nat → EntryState) (visit : Visit) : Prop :=
  visit.1.incarnation ≤ (history visit.1.txid).incarnation ∧
    ((history visit.1.txid).incarnation = visit.1.incarnation →
      ∀ effect, (history visit.1.txid).value = .exact effect → effect = visit.2)

def Visit.reward? (visit : Visit) : Option DeferredBeneficiaryReward :=
  match visit.2 with
  | .reward reward => some reward
  | _ => none

/-- The result of a walk that has visited the entries of a list. -/
def HistoryScan.ofVisits (anchor : Option AccountInfo) (visits : List Visit) : HistoryScan :=
  { base := match visits.getLast? with
      | some (_, .snapshot account) => account
      | _ => anchor
    rewardsNewestFirst := visits.filterMap Visit.reward?
    version := { origins := visits.map Prod.fst } }

/-- A walk in progress has visited the entries of a list, none of them a
snapshot and all of them such that `P`. -/
structure ScanState.Visited (P : Visit → Prop) (scan : ScanState) (visits : List Visit) :
    Prop where
  origins : scan.origins = visits.map Prod.fst
  rewards : scan.rewardsNewestFirst = visits.filterMap Visit.reward?
  ongoing : ∀ visit, visit ∈ visits → ∀ account, visit.2 ≠ .snapshot account
  all : ∀ visit, visit ∈ visits → P visit

section

variable {history history' : Nat → EntryState} {anchor : Option AccountInfo} {scan : ScanState}
  {visits visits' : List Visit} {txid : Nat} {P : Visit → Prop} {found : HistoryScan}

theorem Visit.Current.recorded {visit : Visit} (h : visit.Current history) :
    visit.Recorded history := by
  unfold Recorded
  rw [h]
  exact ⟨le_rfl, fun _ effect he => by cases he; rfl⟩

theorem Visit.current_self {writer : Nat} {effect : BeneficiaryEffect}
    (h : (history writer).value = .exact effect) :
    Visit.Current history (⟨writer, (history writer).incarnation⟩, effect) := by
  unfold Current
  rw [← h]

theorem ScanState.visited_start : ({ writer := txid } : ScanState).Visited P [] :=
  ⟨rfl, rfl, nofun, nofun⟩

theorem HistoryScan.base_ofVisits_ongoing (anchor : Option AccountInfo)
    (h : ∀ visit, visit ∈ visits → ∀ account, visit.2 ≠ .snapshot account) :
    (HistoryScan.ofVisits anchor visits).base = anchor := by
  unfold ofVisits
  dsimp only
  split
  · rename_i version account hlast
    exact absurd rfl (h _ (List.mem_of_getLast? hlast) account)
  · rfl

/-- One visit of a walk. -/
theorem ScanState.Visited.step (h : scan.Visited P visits) (anchor : Option AccountInfo)
    (hP : ∀ visit : Visit, visit.Current history → P visit) :
    (∀ scan', scan.step anchor history = .more scan' →
      ∃ visit, scan'.Visited P (visits ++ [visit])) ∧
    ∀ found, scan.step anchor history = .done found →
      ∃ visits', found = .ofVisits anchor visits' ∧ ∀ visit, visit ∈ visits' → P visit := by
  unfold ScanState.step
  cases hw : scan.writer with
  | zero =>
    refine ⟨nofun, fun found hf => ⟨visits, ?_, h.all⟩⟩
    cases hf
    have hbase := HistoryScan.base_ofVisits_ongoing anchor h.ongoing
    simp only [HistoryScan.ofVisits] at hbase ⊢
    rw [hbase, h.origins, h.rewards]
  | succ writer =>
    cases hv : (history writer).value with
    | estimate => simp [hv]
    | exact effect =>
      simp only [hv]
      have hall : ∀ visit, visit ∈ visits ++ [(⟨writer, (history writer).incarnation⟩, effect)] →
          P visit := by
        intro visit hmem
        rcases List.mem_append.mp hmem with hm | hm
        · exact h.all visit hm
        · rw [List.mem_singleton.mp hm]
          exact hP _ (Visit.current_self hv)
      have hongoing : (∀ account, effect ≠ .snapshot account) →
          ∀ visit, visit ∈ visits ++ [(⟨writer, (history writer).incarnation⟩, effect)] →
            ∀ account, visit.2 ≠ .snapshot account := by
        intro hne visit hmem
        rcases List.mem_append.mp hmem with hm | hm
        · exact h.ongoing visit hm
        · rw [List.mem_singleton.mp hm]
          exact hne
      cases effect with
      | unchanged | reward reward =>
        refine ⟨fun scan' hs => ⟨_, ?_, ?_, hongoing nofun, hall⟩, nofun⟩ <;> cases hs
        · simp [h.origins]
        · simp [h.rewards, Visit.reward?]
      | snapshot account =>
        refine ⟨nofun, fun found hf => ⟨_, ?_, hall⟩⟩
        cases hf
        simp [HistoryScan.ofVisits, h.origins, h.rewards, Visit.reward?]

/-- The rest of a walk over entries that do not change. -/
theorem ScanState.Visited.scanFrom (h : scan.Visited P visits)
    (hP : ∀ visit : Visit, visit.Current history → P visit)
    (hf : scanFrom history anchor scan.writer scan.origins scan.rewardsNewestFirst = .ok found) :
    ∃ visits', found = .ofVisits anchor visits' ∧ ∀ visit, visit ∈ visits' → P visit := by
  induction hn : scan.writer generalizing scan visits with
  | zero =>
    rw [scanFrom_eq_step] at hf
    have hstep := h.step anchor hP
    cases hs : scan.step anchor history with
    | more scan' =>
      have hw := ScanState.writer_of_more hs
      omega
    | done found' =>
      rw [hs] at hf
      cases hf
      exact hstep.2 _ hs
    | blocked writer => rw [hs] at hf; cases hf
  | succ n ih =>
    rw [scanFrom_eq_step] at hf
    have hstep := h.step anchor hP
    cases hs : scan.step anchor history with
    | more scan' =>
      have hw := ScanState.writer_of_more hs
      rw [hs] at hf
      obtain ⟨visit, hvisit⟩ := hstep.1 scan' hs
      exact ih hvisit hf (by omega)
    | done found' =>
      rw [hs] at hf
      cases hf
      exact hstep.2 _ hs
    | blocked writer => rw [hs] at hf; cases hf

/-- Two walks over the same versions have met the same effects. -/
theorem visits_eq (h : ∀ visit : Visit, visit ∈ visits → visit.Recorded history)
    (h' : ∀ visit : Visit, visit ∈ visits' → visit.Current history)
    (heq : visits.map Prod.fst = visits'.map Prod.fst) : visits = visits' := by
  induction visits generalizing visits' with
  | nil => simpa using heq.symm
  | cons visit rest ih =>
    cases visits' with
    | nil => simp at heq
    | cons visit' rest' =>
      simp only [List.map_cons, List.cons.injEq] at heq
      obtain ⟨hver, hrest⟩ := heq
      have hcur : visit'.Current history := h' visit' (by simp)
      have heff : visit'.2 = visit.2 := by
        refine (h visit (by simp)).2 ?_ visit'.2 ?_ <;> rw [hver, hcur]
      rw [ih (fun v hv => h v (by simp [hv])) (fun v hv => h' v (by simp [hv])) hrest,
        Prod.ext hver heff.symm]

end

/-! ## Observations -/

/-- What a look-up met: the version and value of a location, or the
entries of the beneficiary history. -/
inductive Observation where
  | memory (found : Option (TxVersion × MemoryValue))
  | history (visits : List Visit)

namespace Observation

/-- The version the read set keeps of it. -/
def version : Observation → ReadVersion
  | .memory (some (version, _)) => .mvMemory version
  | .memory none => .storage
  | .history visits => .beneficiary { origins := visits.map Prod.fst }

/-- The value belongs to the version: no entry of that version holds
another. -/
def Recorded (mv : MVMemory) (history : Nat → EntryState) (location : LocationAndType) :
    Observation → Prop
  | .memory (some (version, data)) => ∀ entry, mv location version.txid = some entry →
      entry.incarnation = version.incarnation → entry.data = data
  | .memory none => True
  | .history visits => ∀ visit : Visit, visit ∈ visits → visit.Recorded history

/-- The look-up of transaction `txid` has met it in the memory. -/
def Met (mv : MVMemory) (txid : Nat) (location : LocationAndType) : Observation → Prop
  | .memory (some (version, data)) => version.txid < txid ∧
      ∃ estimate, mv location version.txid = some ⟨version.incarnation, data, estimate⟩
  | _ => True

/-- The view has the value observed. -/
def Agrees (anchor : Option AccountInfo) (V : View Err) (location : LocationAndType) :
    Observation → Prop
  | .memory found => V.latest location = found.map fun found => (found.1.txid, found.2)
  | .history visits => V.history = .ok (.ofVisits anchor visits)

/-- The observation of a look-up. -/
def ofFound (found : Option (Nat × MemoryEntry)) : Observation :=
  .memory (found.map fun found => (⟨found.1, found.2.incarnation⟩, found.2.data))

end Observation

abbrev Observations := List (LocationAndType × Observation)

/-- The read set holds the version of every observation, and every
observation belongs to its version. -/
structure Tracks (mv : MVMemory) (history : Nat → EntryState) (readSet : ReadSet)
    (obs : Observations) : Prop where
  version : ∀ l o, (l, o) ∈ obs → readSet.lookup l = some o.version
  recorded : ∀ l o, (l, o) ∈ obs → o.Recorded mv history l

/-- A view over `base` that has every value observed. -/
structure Explains (base : Base Err) (obs : Observations) (V : View Err) : Prop where
  overBase : V.Over base
  agrees : ∀ l o, (l, o) ∈ obs → o.Agrees base.anchor V l

/-- Every view that explains the observations gives the answer. -/
def Justified (base : Base Err) (obs : Observations) (call : Call) (value : Value) : Prop :=
  ∀ V : View Err, Explains base obs V → V.eval call = .ok value

section

variable {base : Base Err} {mv : MVMemory} {history : Nat → EntryState} {readSet : ReadSet}
  {obs obs' : Observations} {V : View Err} {txid : Nat}

theorem Explains.mono (h : Explains base obs' V) (hsub : obs ⊆ obs') : Explains base obs V :=
  ⟨h.overBase, fun l o ho => h.agrees l o (hsub ho)⟩

theorem Justified.mono {call : Call} {value : Value} (h : Justified base obs call value)
    (hsub : obs ⊆ obs') : Justified base obs' call value :=
  fun V hV => h V (hV.mono hsub)

/-- A successful validation: the memory agrees with every observation. -/
theorem explains_of_readSetHolds (h : Tracks mv history readSet obs)
    (hvalid : readSetHolds mv history base.anchor txid readSet = true) :
    Explains base obs (base.view mv history txid) := by
  refine ⟨base.view_over, fun l o ho => ?_⟩
  have hmem : (⟨l, o.version⟩ : Sigma fun _ : LocationAndType => ReadVersion) ∈ readSet.entries :=
    AList.mem_lookup_iff.mp (h.version l o ho)
  have hread := List.all_eq_true.mp hvalid _ hmem
  have hrec := h.recorded l o ho
  match o with
  | .memory none =>
    simp only [Observation.version, readHolds, checkRead] at hread
    cases hl : MVMemory.latestBefore (mv l) txid with
    | none => simp [Observation.Agrees, Base.view, hl]
    | some found => simp [hl] at hread
  | .memory (some (version, data)) =>
    simp only [Observation.version, readHolds, checkRead] at hread
    cases hl : MVMemory.latestBefore (mv l) txid with
    | none => simp [hl] at hread
    | some found =>
      obtain ⟨writer, entry⟩ := found
      simp [hl] at hread
      obtain ⟨-, rfl, hinc⟩ := hread
      have hdata := hrec entry (MVMemory.latestBefore_entry hl) hinc.symm
      simp [Observation.Agrees, Base.view, hl, hdata]
  | .history visits =>
    simp only [Observation.version, readHolds, validateBeneficiary] at hread
    cases hs : scanBefore history base.anchor txid with
    | error writer => simp [hs] at hread
    | ok scan =>
      simp [hs, HistoryScan.validate] at hread
      have hstart : ({ writer := txid } : ScanState).Visited (Visit.Current history) [] :=
        ScanState.visited_start
      obtain ⟨visits', rfl, hcur⟩ := hstart.scanFrom (fun _ hc => hc) hs
      have heq := visits_eq hrec hcur (congrArg BeneficiaryReadVersion.origins hread).symm
      simp [Observation.Agrees, Base.view, hs, heq]

end

/-! ## State reads -/

section

variable {B : Backing Err} {base : Base Err} {mv mv' : MVMemory}
  {history history' : Nat → EntryState} {db db' : IncarnationDb} {obs obs' : Observations}
  {txid : Nat} {backing backing' : B.State} {address : Address}

/-- An account whose code is still to be looked up. -/
def AccountInfo.needsCode (info : AccountInfo) : Bool :=
  !info.isEmptyCodeHash && info.code.isNone

/-- What a state read knows at each of its points. -/
def CallPc.Ok (base : Base Err) (history : Nat → EntryState) (obs : Observations) :
    CallPc B → Prop
  | .basicMv address | .basicBacking address _ => address ≠ base.beneficiary
  | .basicScan address scan => address = base.beneficiary ∧
      ∃ visits, scan.Visited (Visit.Recorded history) visits
  | .codeMv address info | .codeBacking address info _ => info.needsCode = true ∧
      ∀ V : View Err, Explains base obs V → V.account address = .ok (some info)
  | .storageReset _ _ => True
  | .storageSlot address _ resetTxid => ∃ found,
      (.storageReset address, .ofFound found) ∈ obs ∧ resetTxid = found.map Prod.fst ∧
        ∀ f, found = some f → f.2.data = .storageReset
  | .storageBacking address index _ => (.storageReset address, .memory none) ∈ obs ∧
      (.storage address index, .memory none) ∈ obs

/-- An access that ends a call to the backing database returns the value
of `base`. -/
def CallPc.BackedBy (base : Base Err) (backing : B.State) : CallPc B → Prop
  | .basicBacking address pc => ∀ backing' result,
      B.basicStep backing pc = (backing', .inr result) → result = base.basic address
  | .codeBacking _ info pc => ∀ backing' result,
      B.codeStep backing pc = (backing', .inr result) → result = base.code info.codeHash
  | .storageBacking address index pc => ∀ backing' result,
      B.storageStep backing pc = (backing', .inr result) → result = base.storage address index
  | _ => True

theorem CallPc.ok_start (call : Call) :
    (call.start base.beneficiary txid : CallPc B).Ok base history obs := by
  cases call with
  | basic address =>
    simp only [Call.start]
    split
    · exact ⟨‹_›, [], ScanState.visited_start⟩
    · exact ‹_›
  | storage address index => trivial

/-! ## Other transactions -/

/-- Entries of the beneficiary history change by a newer incarnation, or
become estimates. -/
def HistoryMoves (history history' : Nat → EntryState) : Prop :=
  ∀ t, history' t = history t ∨ (history t).incarnation < (history' t).incarnation ∨
    (history' t).incarnation = (history t).incarnation ∧ (history' t).value = .estimate

theorem HistoryMoves.update {writer : Nat} {entry : EntryState}
    (h : (history writer).incarnation < entry.incarnation ∨
      entry.incarnation = (history writer).incarnation ∧ entry.value = .estimate) :
    HistoryMoves history (Function.update history writer entry) := by
  intro t
  by_cases ht : t = writer
  · subst ht
    simpa using .inr h
  · exact .inl (Function.update_of_ne ht _ _)

theorem HistoryMoves.refl (history : Nat → EntryState) : HistoryMoves history history :=
  fun _ => .inl rfl

theorem HistoryMoves.record {writer n : Nat} {value : EntryValue} {entry : EntryState}
    (h : (history writer).record n value = some entry) :
    HistoryMoves history (Function.update history writer entry) := by
  obtain ⟨hlt, rfl⟩ := EntryState.record_eq_some_iff.mp h
  exact .update (.inl hlt)

theorem HistoryMoves.invalidate {writer n : Nat} {entry : EntryState}
    (h : (history writer).invalidate n = some entry) :
    HistoryMoves history (Function.update history writer entry) := by
  unfold EntryState.invalidate at h
  split at h <;> cases h
  exact .update (.inr ⟨rfl, rfl⟩)

theorem Visit.Recorded.moves {visit : Visit} (h : visit.Recorded history)
    (hm : HistoryMoves history history') : visit.Recorded history' := by
  rcases hm visit.1.txid with heq | hlt | ⟨hinc, hval⟩
  · unfold Recorded
    rw [heq]
    exact h
  · exact ⟨Nat.le_of_lt (Nat.lt_of_le_of_lt h.1 hlt), fun heq => absurd hlt (by have := h.1; omega)⟩
  · exact ⟨hinc ▸ h.1, fun _ effect he => by rw [hval] at he; cases he⟩

theorem CallPc.Ok.moves {pc : CallPc B} (h : pc.Ok base history obs)
    (hm : HistoryMoves history history') : pc.Ok base history' obs := by
  cases pc with
  | basicScan address scan =>
    obtain ⟨rfl, visits, hv⟩ := h
    exact ⟨rfl, visits, hv.origins, hv.rewards, hv.ongoing, fun v hmem => (hv.all v hmem).moves hm⟩
  | _ => exact h

/-- Observations stay recorded while no entry of an observed version
changes its value. -/
theorem Tracks.moves {readSet : ReadSet} (h : Tracks mv history readSet obs)
    (hmv : ∀ l version data, (l, .memory (some (version, data))) ∈ obs →
      ∀ entry', mv' l version.txid = some entry' → entry'.incarnation = version.incarnation →
        ∃ entry, mv l version.txid = some entry ∧ entry.incarnation = version.incarnation ∧
          entry.data = entry'.data)
    (hm : HistoryMoves history history') : Tracks mv' history' readSet obs := by
  refine ⟨h.version, fun l o ho => ?_⟩
  have hrec := h.recorded l o ho
  match o with
  | .memory none => trivial
  | .memory (some (version, data)) =>
    intro entry' he hinc
    obtain ⟨entry, hentry, hinc₀, hdata⟩ := hmv l version data ho entry' he hinc
    rw [← hdata]
    exact hrec entry hentry hinc₀
  | .history visits => exact fun visit hmem => (hrec visit hmem).moves hm

/-! ## One access -/

/-- No version recorded changes. -/
def ReadSet.Extends (readSet' readSet : ReadSet) : Prop :=
  ∀ l version, readSet.lookup l = some version → readSet'.lookup l = some version

theorem Tracks.extend {readSet readSet' : ReadSet} (h : Tracks mv history readSet obs)
    (hext : readSet'.Extends readSet) : Tracks mv history readSet' obs :=
  ⟨fun l o ho => hext l _ (h.version l o ho), h.recorded⟩

/-- A new observation, recorded in the read set. -/
theorem Tracks.cons {readSet readSet' : ReadSet} {l : LocationAndType} {o : Observation}
    (h : Tracks mv history readSet obs) (hext : readSet'.Extends readSet)
    (hl : readSet'.lookup l = some o.version) (hrec : o.Recorded mv history l) :
    Tracks mv history readSet' ((l, o) :: obs) := by
  refine ⟨fun l' o' ho => ?_, fun l' o' ho => ?_⟩ <;> rcases List.mem_cons.mp ho with heq | ho
  · cases heq
    exact hl
  · exact hext l' _ (h.version l' o' ho)
  · cases heq
    exact hrec
  · exact h.recorded l' o' ho

theorem Explains.head {l : LocationAndType} {o : Observation} {V : View Err}
    (h : Explains base ((l, o) :: obs) V) : o.Agrees base.anchor V l :=
  h.agrees l o (by simp)

theorem Explains.tail {l : LocationAndType} {o : Observation} {V : View Err}
    (h : Explains base ((l, o) :: obs) V) : Explains base obs V :=
  h.mono (List.subset_cons_self _ _)

theorem met_lookup (mv : MVMemory) (txid : Nat) (l : LocationAndType) :
    (Observation.ofFound (lookup mv txid l)).Met mv txid l := by
  unfold lookup Observation.ofFound
  cases hl : MVMemory.latestBefore (mv l) txid with
  | none => simp [Observation.Met]
  | some found =>
    by_cases hm : found.2.data.matchesLocation l = true
    · simp only [Option.filter_some, hm, if_true, Option.map_some]
      exact ⟨MVMemory.latestBefore_lt hl, found.2.estimate, MVMemory.latestBefore_entry hl⟩
    · simp [Option.filter_some, hm, Observation.Met]

/-- What has just been met belongs to its version. -/
theorem Observation.Met.recorded {l : LocationAndType} {found : Option (Nat × MemoryEntry)}
    (h : (ofFound found).Met mv txid l) : (ofFound found).Recorded mv history l := by
  cases found with
  | none => trivial
  | some found =>
    obtain ⟨-, estimate, hentry⟩ := h
    intro entry he _
    rw [hentry] at he
    cases he
    rfl

/-- A look-up records the version of what it found. -/
theorem lookup_look (db : IncarnationDb) (l : LocationAndType)
    (found : Option (Nat × MemoryEntry)) :
    (db.look l found).readSet.lookup l = some (Observation.ofFound found).version := by
  cases found with
  | none => exact AList.lookup_insert _
  | some found =>
    simp only [IncarnationDb.look, IncarnationDb.recordRead]
    exact AList.lookup_insert _

/-- An estimate blocks. -/
theorem isBlocked_blockOn (db : IncarnationDb) (writer : Nat) :
    (db.blockOn writer true).isBlocked = true := by
  have hmem : writer ∈ db.blockingTxs.insert writer := List.mem_insert_self
  cases hl : db.blockingTxs.insert writer with
  | nil => rw [hl] at hmem; cases hmem
  | cons => simp [IncarnationDb.isBlocked, IncarnationDb.blockOn, hl]

theorem isBlocked_blockOn_mono (writer : Nat) (estimate : Bool) (h : db.isBlocked = true) :
    (db.blockOn writer estimate).isBlocked = true := by
  cases estimate with
  | false => exact h
  | true => exact isBlocked_blockOn db writer

theorem isBlocked_look_mono (l : LocationAndType) (found : Option (Nat × MemoryEntry))
    (h : db.isBlocked = true) : (db.look l found).isBlocked = true := by
  cases found with
  | none => exact h
  | some found => exact isBlocked_blockOn_mono found.1 found.2.estimate h

@[simp] theorem isBlocked_snapshot {account : Option AccountInfo} :
    (db.snapshot address account).isBlocked = db.isBlocked := by
  cases account <;> rfl

@[simp] theorem isBlocked_recordRead {l : LocationAndType} {version : ReadVersion} :
    (db.recordRead l version).isBlocked = db.isBlocked := rfl

/-- A blocked incarnation stays blocked. -/
theorem isBlocked_of_callStep {anchor : Option AccountInfo} {pc : CallPc B}
    {result : CallPc B ⊕ Except Err Value}
    (hstep : callStep anchor txid mv history backing db pc = (backing', db', result))
    (h : db.isBlocked = true) : db'.isBlocked = true := by
  cases callStep_sound hstep with
  | block => exact isBlocked_blockOn db _
  | resolve | basicLoads => simpa using h
  | basicHit =>
    rw [isBlocked_snapshot]
    exact isBlocked_look_mono _ _ h
  | codeHit | reset | slotHit | slotCleared | slotMiss => exact isBlocked_look_mono _ _ h
  | _ => exact h

@[simp] theorem readSet_snapshot {account : Option AccountInfo} :
    (db.snapshot address account).readSet = db.readSet := by
  cases account <;> rfl

/-- What a state read comes to at one access: a new point, or an answer. -/
def CallResult (base : Base Err) (history : Nat → EntryState) (obs : Observations) (call : Call) :
    CallPc B ⊕ Except Err Value → Prop
  | .inl pc => pc.call = call ∧ pc.Ok base history obs
  | .inr (.ok value) => Justified base obs call value
  | .inr (.error _) => True

theorem eval_basic_of_account {V : View Err} {account : Option AccountInfo}
    (h : V.account address = .ok account) :
    V.eval (.basic address) = (V.withCode address account).map
      fun info => .account (info.map AccountInfo.view) := by
  rw [View.eval, View.basicInfo_eq, h]
  rfl

/-- Once the account is known. -/
theorem callResult_finishBasic {account : Option AccountInfo}
    (h : ∀ V : View Err, Explains base obs V → V.account address = .ok account) :
    CallResult base history obs (.basic address)
      (finishBasic address account : CallPc B ⊕ Except Err Value) := by
  cases account with
  | none =>
    intro V hV
    rw [eval_basic_of_account (h V hV)]
    rfl
  | some info =>
    by_cases hcode : (!info.isEmptyCodeHash && info.code.isNone) = true
    · rw [finishBasic, if_pos hcode]
      exact ⟨rfl, hcode, h⟩
    · rw [finishBasic, if_neg hcode]
      intro V hV
      rw [eval_basic_of_account (h V hV), View.withCode, if_neg hcode]
      rfl

/-- Once its code is known too. -/
theorem justified_withCode {info : AccountInfo} {code : Bytecode} (hcode : info.needsCode = true)
    (h : ∀ V : View Err, Explains base obs V → V.account address = .ok (some info))
    (hlook : ∀ V : View Err, Explains base obs V →
      V.codeByAddress address info.codeHash = .ok code) :
    CallResult base history obs (.basic address)
      (.inr (withCode info code) : CallPc B ⊕ Except Err Value) := by
  intro V hV
  unfold AccountInfo.needsCode at hcode
  rw [eval_basic_of_account (h V hV), View.withCode, if_pos hcode, hlook V hV]
  rfl

/-- The look-up of an account that is not the beneficiary's. -/
theorem View.account_of_memory {V : View Err} {found : Option (Nat × MemoryEntry)}
    {account : Option AccountInfo} (hne : address ≠ base.beneficiary)
    (hV : Explains base ((.basic address, .ofFound found) :: obs) V)
    (hfound : match found with
      | some f => f.2.data = .basic account
      | none => base.basic address = .ok account) : V.account address = .ok account := by
  have hlatest := hV.head
  rw [View.account, hV.overBase.beneficiary, if_neg hne]
  cases found with
  | none =>
    have hlatest : V.latest (.basic address) = none := hlatest
    rw [hlatest, hV.overBase.basic]
    exact hfound
  | some f =>
    have hlatest : V.latest (.basic address) = some (f.1, f.2.data) := hlatest
    rw [hlatest, show f.2.data = .basic account from hfound]

/-- The look-up of a code. -/
theorem View.codeByAddress_of_memory {V : View Err} {found : Option (Nat × MemoryEntry)}
    {codeHash : B256} {code : Bytecode}
    (hV : Explains base ((.code address, .ofFound found) :: obs) V)
    (hfound : match found with
      | some f => f.2.data = .code code
      | none => base.code codeHash = .ok code) : V.codeByAddress address codeHash = .ok code := by
  have hlatest := hV.head
  rw [View.codeByAddress]
  cases found with
  | none =>
    have hlatest : V.latest (.code address) = none := hlatest
    rw [hlatest, hV.overBase.code]
    exact hfound
  | some f =>
    have hlatest : V.latest (.code address) = some (f.1, f.2.data) := hlatest
    rw [hlatest, show f.2.data = .code code from hfound]

/-- The look-ups of a slot: of the last reset of the account, and of the
slot itself. -/
theorem View.storageAt_of_memory {V : View Err} {index : U256}
    {reset slot : Option (Nat × MemoryEntry)} (hV : Explains base obs V)
    (hreset : (.storageReset address, .ofFound reset) ∈ obs)
    (hslot : (.storage address index, .ofFound slot) ∈ obs)
    (hresetData : ∀ f, reset = some f → f.2.data = .storageReset) :
    V.storageAt address index =
      match slot.map fun f => (f.1, f.2.data), reset.map Prod.fst with
      | some (slot, .storage value), some reset => if reset ≤ slot then .ok value else .ok 0
      | some (_, .storage value), none => .ok value
      | _, some _ => .ok 0
      | _, none => base.storage address index := by
  have hlatest : V.latest (.storage address index) = slot.map fun f => (f.1, f.2.data) := by
    rw [show V.latest _ = _ from hV.agrees _ _ hslot]
    cases slot <;> rfl
  have hlast : V.latest (.storageReset address) = reset.map fun f => (f.1, f.2.data) := by
    rw [show V.latest _ = _ from hV.agrees _ _ hreset]
    cases reset <;> rfl
  rw [View.storageAt, hlatest, hlast, hV.overBase.storage]
  cases reset with
  | none => rcases slot with _ | ⟨t, n, data, estimate⟩ <;> [rfl; cases data <;> rfl]
  | some f =>
    obtain ⟨writer, n, data, estimate⟩ := f
    obtain rfl : data = .storageReset := hresetData _ rfl
    rcases slot with _ | ⟨t, n, data, estimate⟩ <;> [rfl; cases data <;> rfl]

/-- An access has added observations of what it has met, the new read set
tracks them, and they support what the access came to. -/
def Observes (base : Base Err) (mv : MVMemory) (history : Nat → EntryState) (txid : Nat)
    (obs : Observations) (readSet : ReadSet) (call : Call)
    (result : CallPc B ⊕ Except Err Value) : Prop :=
  ∃ obs', obs ⊆ obs' ∧ (∀ l o, (l, o) ∈ obs' → (l, o) ∈ obs ∨ o.Met mv txid l) ∧
    Tracks mv history readSet obs' ∧ CallResult base history obs' call result

/-- An access that looks nothing up. -/
theorem Observes.same {readSet readSet' : ReadSet} {call : Call}
    {result : CallPc B ⊕ Except Err Value} (h : Tracks mv history readSet obs)
    (hext : readSet'.Extends readSet) (hr : CallResult base history obs call result) :
    Observes base mv history txid obs readSet' call result :=
  ⟨obs, List.Subset.refl _, fun _ _ ho => .inl ho, h.extend hext, hr⟩

/-- An access that looks one location up. -/
theorem Observes.cons {readSet readSet' : ReadSet} {call : Call} {l : LocationAndType}
    {o : Observation} {result : CallPc B ⊕ Except Err Value} (h : Tracks mv history readSet obs)
    (hext : readSet'.Extends readSet) (hl : readSet'.lookup l = some o.version)
    (hmet : o.Met mv txid l) (hrec : o.Recorded mv history l)
    (hr : CallResult base history ((l, o) :: obs) call result) :
    Observes base mv history txid obs readSet' call result := by
  refine ⟨_, List.subset_cons_self _ _, fun l' o' ho => ?_, h.cons hext hl hrec, hr⟩
  rcases List.mem_cons.mp ho with heq | ho
  · cases heq
    exact .inr hmet
  · exact .inl ho

/-- One access of a state read: what it has looked up is observed, and it
goes on, or has an answer, that these observations justify. -/
theorem callStep_observes {pc : CallPc B} {result : CallPc B ⊕ Except Err Value}
    (hok : pc.Ok base history obs) (htracks : Tracks mv history db.readSet obs)
    (hbacked : pc.BackedBy base backing)
    (hstep : callStep base.anchor txid mv history backing db pc = (backing', db', result))
    (hext : db'.readSet.Extends db.readSet) (hfree : db'.isBlocked = false) :
    Observes base mv history txid obs db'.readSet pc.call result := by
  cases callStep_sound hstep with
  | visit hs =>
    obtain ⟨rfl, visits, hvisits⟩ := hok
    obtain ⟨visit, hvisit⟩ := (hvisits.step base.anchor fun visit hc => hc.recorded).1 _ hs
    exact .same htracks hext ⟨rfl, rfl, _, hvisit⟩
  | resolve hs hnext =>
    obtain ⟨rfl, visits, hvisits⟩ := hok
    obtain ⟨visits', rfl, hrec⟩ := (hvisits.step base.anchor fun visit hc => hc.recorded).2 _ hs
    subst hnext
    refine .cons (l := .basic base.beneficiary) (o := .history visits') htracks hext ?_ trivial hrec
      (callResult_finishBasic fun V hV => ?_)
    · rw [readSet_snapshot]
      exact AList.lookup_insert _
    · have hhist : V.history = .ok (.ofVisits base.anchor visits') := hV.head
      rw [View.account, hV.overBase.beneficiary, if_pos rfl, hhist]
  | block =>
    exact absurd hfree (Bool.eq_false_iff.not.mpr (not_not.mpr (isBlocked_blockOn db _)))
  | basicMiss | basicMore | codeMiss | codeMore | storageMore =>
    exact .same htracks hext ⟨rfl, hok⟩
  | basicFails | codeFails | storageFails => exact .same htracks hext trivial
  | @basicHit address _ _ _ _ hl hdata hnext =>
    have hmet := met_lookup mv txid (.basic address)
    rw [hl] at hmet
    subst hnext
    refine .cons htracks hext ?_ hmet hmet.recorded
      (callResult_finishBasic fun V hV => View.account_of_memory hok hV hdata)
    rw [readSet_snapshot]
    exact lookup_look _ _ _
  | @basicLoads address _ _ _ _ hb hnext =>
    subst hnext
    refine .cons (l := .basic address) (o := .ofFound none) htracks hext (AList.lookup_insert _)
      trivial trivial (callResult_finishBasic fun V hV => View.account_of_memory hok hV ?_)
    exact (hbacked _ _ hb).symm
  | @codeHit address _ _ _ _ hl hdata =>
    obtain ⟨hcode, hacc⟩ := hok
    have hmet := met_lookup mv txid (.code address)
    rw [hl] at hmet
    exact .cons htracks hext (lookup_look _ _ _) hmet hmet.recorded
      (justified_withCode hcode (fun V hV => hacc V hV.tail)
        fun V hV => View.codeByAddress_of_memory hV hdata)
  | @codeLoads address _ _ _ _ hb =>
    obtain ⟨hcode, hacc⟩ := hok
    refine .cons (l := .code address) (o := .ofFound none) htracks hext (AList.lookup_insert _)
      trivial trivial (justified_withCode hcode (fun V hV => hacc V hV.tail)
        fun V hV => View.codeByAddress_of_memory hV ?_)
    exact (hbacked _ _ hb).symm
  | @reset address _ =>
    have hmet := met_lookup mv txid (.storageReset address)
    refine .cons htracks hext (lookup_look _ _ _) hmet hmet.recorded
      ⟨rfl, _, List.mem_cons_self, rfl, fun f hf => ?_⟩
    have hm := matches_of_lookup hf
    cases hd : f.2.data <;> simp [hd, MemoryValue.matchesLocation] at hm
    rfl
  | @slotMiss address index hl =>
    obtain ⟨reset, hreset, hnone, -⟩ := hok
    cases reset with
    | some _ => cases hnone
    | none =>
      have hmet := met_lookup mv txid (.storage address index)
      refine .cons htracks hext (lookup_look _ _ _) hmet hmet.recorded
        ⟨rfl, List.mem_cons_of_mem _ hreset, ?_⟩
      rw [hl]
      exact List.mem_cons_self
  | @slotHit address index _ _ _ _ hl hdata hle =>
    -- the answer is what both look-ups say
    obtain ⟨reset, hreset, rfl, hresetData⟩ := hok
    have hmet := met_lookup mv txid (.storage address index)
    refine .cons htracks hext (lookup_look _ _ _) hmet hmet.recorded fun V hV => ?_
    have hat := View.storageAt_of_memory hV (List.mem_cons_of_mem _ hreset) List.mem_cons_self
      hresetData
    rw [hl] at hat
    cases reset with
    | none => simp [CallPc.call, View.eval, hat, hdata, Except.map]
    | some found =>
      simp [CallPc.call, View.eval, hat, hdata, Except.map, hle _ rfl]
  | @slotCleared address index _ hlt =>
    obtain ⟨reset, hreset, hsome, hresetData⟩ := hok
    have hmet := met_lookup mv txid (.storage address index)
    refine .cons htracks hext (lookup_look _ _ _) hmet hmet.recorded fun V hV => ?_
    have hat := View.storageAt_of_memory hV (List.mem_cons_of_mem _ hreset) List.mem_cons_self
      hresetData
    cases reset with
    | none => cases hsome
    | some found =>
      cases hsome
      cases hl : lookup mv txid (.storage address index) with
      | none => simp [CallPc.call, View.eval, hat, hl, Except.map]
      | some slot =>
        obtain ⟨value, hdata⟩ := storage_of_lookup hl
        have hnot : ¬ found.1 ≤ slot.1 := Nat.not_le.mpr (hlt _ _ hl)
        simp [CallPc.call, View.eval, hat, hl, hdata, Except.map, hnot]
  | storageLoads hb =>
    obtain ⟨hreset, hslot⟩ := hok
    refine .same htracks hext fun V hV => ?_
    have hreset : (.storageReset _, .ofFound none) ∈ obs := hreset
    have hslot : (.storage _ _, .ofFound none) ∈ obs := hslot
    have hat := View.storageAt_of_memory hV hreset hslot (by rintro _ ⟨⟩)
    simp only [CallPc.call, View.eval, hat]
    rw [← hbacked _ _ hb]
    rfl

end

end Grevm
