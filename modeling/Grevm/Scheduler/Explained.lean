/-
Grevm.Scheduler.Explained — what an execution has read and published.

An execution that is not blocked has followed its program along answers
that are all justified by observations its read set tracks
(`Answered`), and its entries in the memory are the writes of its change
set that it has published so far (`Column.Publishes`). Another
transaction may overwrite or remove what was observed, but a version
never gets a second value (`Column.Recorded`), so the observations stay
good for a later validation. When the execution returns, all of this is
left with its result (`ResultExplained`). The invariant `Explained` needs
two conditions on the run (`AccessesOk`): the backing database returns
what it held at the start of the block, up to what final transactions have
written since (`CallPc.Served`), and no location changes its version
between two reads of one execution (`StableReads`). An execution that has
met such a write is `Overtaken`, and does not pass its validation.
-/
import Grevm.LiveReads
import Grevm.Scheduler.Finality

namespace Grevm

variable {Err W R : Type} {B : Backing Err}

/-! ## Snapshots -/

/-- The fields `publish_writes` compares, of an account that was
observed. -/
def AccountView.basic (view : AccountView) : AccountBasic :=
  { balance := view.balance
    nonce := view.nonce
    codeHash := if view.codeHash == keccakEmpty then none else some view.codeHash }

/-- The account a state read has found and whose code it is looking up. -/
def CallPc.loaded : CallPc B → Option (Address × AccountInfo)
  | .codeMv address info | .codeBacking address info _ => some (address, info)
  | _ => none

/-- Every snapshot is the one of an account that `basic` has returned, or
of the account `loaded` that it is about to return. -/
def IncarnationDb.Snapshots (db : IncarnationDb) (log : List (Call × Except Err Value))
    (loaded : Option (Address × AccountInfo)) : Prop :=
  ∀ address basic, db.accountSnapshots.lookup address = some basic →
    (∃ view, (.basic address, .ok (.account (some view))) ∈ log ∧ view.basic = basic) ∨
      ∃ info, loaded = some (address, info) ∧ AccountBasic.ofInfo info = basic

section

variable {db db' : IncarnationDb} {log : List (Call × Except Err Value)}
  {loaded : Option (Address × AccountInfo)} {address : Address}

/-- What a state read comes to, for the snapshots. -/
def SnapshotsAfter (db : IncarnationDb) (log : List (Call × Except Err Value)) (call : Call) :
    CallPc B ⊕ Except Err Value → Prop
  | .inl pc => db.Snapshots log pc.loaded
  | .inr (.ok value) => db.Snapshots (log ++ [(call, .ok value)]) none
  | .inr (.error _) => True

theorem IncarnationDb.Snapshots.append (h : db.Snapshots log none)
    (entry : Call × Except Err Value) : db.Snapshots (log ++ [entry]) none := by
  intro address basic hlook
  rcases h address basic hlook with ⟨view, hmem, hview⟩ | ⟨info, hloaded, -⟩
  · exact .inl ⟨view, List.mem_append_left _ hmem, hview⟩
  · cases hloaded

theorem IncarnationDb.Snapshots.congr (h : db.Snapshots log loaded)
    (hsame : db'.accountSnapshots = db.accountSnapshots) : db'.Snapshots log loaded := by
  intro address basic hlook
  exact h address basic (hsame ▸ hlook)

/-- The account has been found; its snapshot has been taken. -/
theorem snapshotsAfter_finishBasic {account : Option AccountInfo} (h : db.Snapshots log none)
    (hsame : db'.accountSnapshots = (db.snapshot address account).accountSnapshots) :
    SnapshotsAfter db' log (.basic address)
      (finishBasic address account : CallPc B ⊕ Except Err Value) := by
  cases account with
  | none => exact (h.congr hsame).append _
  | some info =>
    have hlook : ∀ a basic, db'.accountSnapshots.lookup a = some basic →
        db.accountSnapshots.lookup a = some basic ∨ a = address ∧ AccountBasic.ofInfo info = basic := by
      intro a basic hlook
      rw [hsame] at hlook
      by_cases ha : a = address
      · subst ha
        exact .inr ⟨rfl, Option.some.inj ((AList.lookup_insert _).symm.trans hlook)⟩
      · exact .inl ((AList.lookup_insert_ne ha).symm.trans hlook)
    unfold finishBasic
    dsimp only
    split
    · intro a basic ha
      rcases hlook a basic ha with hold | ⟨rfl, hbasic⟩
      · rcases h a basic hold with hlog | ⟨info', hloaded, -⟩
        · exact .inl hlog
        · cases hloaded
      · exact .inr ⟨info, rfl, hbasic⟩
    · intro a basic ha
      rcases hlook a basic ha with hold | ⟨rfl, hbasic⟩
      · exact h.append _ a basic hold
      · exact .inl ⟨info.view, by simp, hbasic⟩

/-- The code has been found too. -/
theorem snapshotsAfter_withCode {info : AccountInfo} {code : Bytecode}
    (h : db.Snapshots log (some (address, info)))
    (hsame : db'.accountSnapshots = db.accountSnapshots) :
    SnapshotsAfter db' log (.basic address)
      (.inr (withCode info code) : CallPc B ⊕ Except Err Value) := by
  intro a basic ha
  rcases h a basic (hsame ▸ ha) with ⟨view, hmem, hview⟩ | ⟨info', hloaded, hbasic⟩
  · exact .inl ⟨view, List.mem_append_left _ hmem, hview⟩
  · cases hloaded
    exact .inl ⟨AccountInfo.view { info with code := some code }, by simp, hbasic⟩

theorem accountSnapshots_blockOn (txid : Nat) (estimate : Bool) :
    (db.blockOn txid estimate).accountSnapshots = db.accountSnapshots := by
  unfold IncarnationDb.blockOn
  split <;> rfl

theorem accountSnapshots_look (location : LocationAndType) (found : Option (Nat × MemoryEntry)) :
    (db.look location found).accountSnapshots = db.accountSnapshots := by
  cases found with
  | none => rfl
  | some found => exact accountSnapshots_blockOn found.1 found.2.estimate

/-- A snapshot taken after a look-up. -/
theorem accountSnapshots_snapshot {account : Option AccountInfo}
    (hsame : db'.accountSnapshots = db.accountSnapshots) :
    (db'.snapshot address account).accountSnapshots =
      (db.snapshot address account).accountSnapshots := by
  cases account with
  | none => exact hsame
  | some info => simp only [IncarnationDb.snapshot, hsame]

/-- One access of a state read. -/
theorem callStep_snapshots {anchor : Option AccountInfo} {txid : Nat} {mv : MVMemory}
    {history : Nat → EntryState} {backing backing' : B.State} {pc : CallPc B}
    {result : CallPc B ⊕ Except Err Value} (h : db.Snapshots log pc.loaded)
    (hstep : callStep anchor txid mv history backing db pc = (backing', db', result)) :
    SnapshotsAfter db' log pc.call result := by
  cases callStep_sound hstep with
  | resolve _ hnext =>
    exact hnext ▸ snapshotsAfter_finishBasic h (accountSnapshots_snapshot rfl)
  | block => exact (h.congr (accountSnapshots_blockOn _ _)).append _
  | basicHit _ _ hnext =>
    exact hnext ▸ snapshotsAfter_finishBasic h
      (accountSnapshots_snapshot (accountSnapshots_look _ _))
  | basicLoads _ hnext => exact hnext ▸ snapshotsAfter_finishBasic h rfl
  | codeHit => exact snapshotsAfter_withCode h (accountSnapshots_look _ _)
  | codeLoads => exact snapshotsAfter_withCode h rfl
  | basicFails | codeFails | storageFails => trivial
  | reset | slotMiss => exact h.congr (accountSnapshots_look _ _)
  | slotHit | slotCleared => exact (h.congr (accountSnapshots_look _ _)).append _
  | storageLoads => exact h.append _
  | _ => exact h

/-- The access ends a call to the backing database with the error. -/
def CallPc.FailsWith (backing : B.State) (e : Err) : CallPc B → Prop
  | .basicBacking _ pc => (B.basicStep backing pc).2 = .inr (.error e)
  | .codeBacking _ _ pc => (B.codeStep backing pc).2 = .inr (.error e)
  | .storageBacking _ _ pc => (B.storageStep backing pc).2 = .inr (.error e)
  | _ => False

/-- A state read fails only where the backing database does. -/
theorem failsWith_of_callStep {anchor : Option AccountInfo} {txid : Nat}
    {mv : MVMemory} {history : Nat → EntryState} {backing backing' : B.State} {pc : CallPc B}
    {e : Err}
    (hstep : callStep anchor txid mv history backing db pc = (backing', db', .inr (.error e))) :
    pc.FailsWith backing e := by
  have hfinish : ∀ {address : Address} {account : Option AccountInfo},
      (finishBasic address account : CallPc B ⊕ Except Err Value) ≠ .inr (.error e) := by
    intro address account
    unfold finishBasic
    split
    · split <;> simp
    · simp
  cases callStep_sound hstep with
  | resolve _ hnext | basicHit _ _ hnext | basicLoads _ hnext => exact absurd hnext hfinish
  | basicFails hb | codeFails hb | storageFails hb => exact congrArg Prod.snd hb

end

/-! ## Versions in a column -/

namespace Column

/-- Incarnation `n` has published `x` at `l`: no entry of that
incarnation holds another value, and while it is the current one, the
entry is there. -/
structure Recorded (c : Column Err R) (l : LocationAndType) (n : Nat) (x : MemoryValue) :
    Prop where
  old : n ≤ c.state.incarnation
  data : ∀ e, c.entries l = some e → e.incarnation = n → e.data = x
  present : c.state.incarnation = n → ∃ e, c.entries l = some e ∧ e.incarnation = n

/-- Incarnation `n` has published the writes of a change set that are not
`pending`. -/
def Publishes (c : Column Err R) (n : Nat) (beneficiary : Address)
    (snapshots : AList (fun _ : Address => AccountBasic)) (state : EvmState)
    (pending : List Write) : Prop :=
  ∀ l x, Writes beneficiary snapshots state l x ↔
    (∃ e, c.entries l = some e ∧ e.incarnation = n ∧ e.data = x) ∨ (l, x) ∈ pending

section

variable {c c' : Column Err R} {l l' : LocationAndType} {n m : Nat} {x y : MemoryValue}
  {blocked : Bool} {new old : List LocationAndType} {beneficiary : Address}
  {snapshots : AList (fun _ : Address => AccountBasic)} {state : EvmState}
  {pending pending' : List Write}

theorem Recorded.congr (h : c.Recorded l m x) (hentries : c'.entries = c.entries)
    (hinc : c'.state.incarnation = c.state.incarnation) : c'.Recorded l m x where
  old := hinc ▸ h.old
  data := by
    rw [hentries]
    exact h.data
  present := by
    rw [hentries, hinc]
    exact h.present

/-- A new incarnation begins. -/
theorem Recorded.claim (h : c.Recorded l m x) (hentries : c'.entries = c.entries)
    (hinc : c'.state.incarnation = c.state.incarnation + 1) : c'.Recorded l m x where
  old := by
    have := h.old
    omega
  data := by
    rw [hentries]
    exact h.data
  present hm := by
    have := h.old
    omega

theorem Recorded.mark (h : c.Recorded l m x) (l' : LocationAndType) :
    (c.mark l').Recorded l m x where
  old := h.old
  data e he hm := by
    simp only [Column.mark] at he
    split at he
    · obtain ⟨e', he', rfl⟩ := Option.map_eq_some_iff.mp he
      exact h.data e' he' hm
    · exact h.data e he hm
  present hm := by
    obtain ⟨e, he, hinc⟩ := h.present hm
    simp only [Column.mark]
    split
    · exact ⟨{ e with estimate := true }, by rw [he]; rfl, hinc⟩
    · exact ⟨e, he, hinc⟩

/-- The current incarnation publishes a location; if it has done so
before, then with the same value. -/
theorem Recorded.insert (h : c.Recorded l m x) (hc : c.state.incarnation = n)
    (hc' : c'.state.incarnation = n)
    (hentries : c'.entries = Function.update c.entries l' (some ⟨n, y, blocked⟩))
    (hsame : ∀ e, c.entries l' = some e → e.incarnation = n → e.data = y) :
    c'.Recorded l m x := by
  by_cases hl : l = l'
  · subst hl
    have hself : c'.entries l = some ⟨n, y, blocked⟩ := by rw [hentries, Function.update_self]
    refine ⟨hc' ▸ hc ▸ h.old, fun e he hm => ?_, fun hm => ⟨_, hself, hc'.symm.trans hm⟩⟩
    rw [hself] at he
    cases he
    obtain ⟨e, he, hinc⟩ := h.present (hc.trans hm)
    rw [← hsame e he (hinc.trans hm.symm)]
    exact h.data e he hinc
  · have hother : c'.entries l = c.entries l := by rw [hentries, Function.update_of_ne hl]
    refine ⟨hc' ▸ hc ▸ h.old, fun e he => h.data e (hother ▸ he), fun hm => ?_⟩
    rw [hother]
    exact h.present (hc.trans (hc'.symm.trans hm))

/-- The current incarnation removes what an older one has left. -/
theorem Recorded.remove (h : c.Recorded l m x) (hc : c.state.incarnation = n)
    (hc' : c'.state.incarnation = n) (hentries : c'.entries = Function.update c.entries l' none)
    (hstale : ∀ e, c.entries l' = some e → e.incarnation < n) : c'.Recorded l m x := by
  by_cases hl : l = l'
  · subst hl
    have hself : c'.entries l = none := by rw [hentries, Function.update_self]
    refine ⟨hc' ▸ hc ▸ h.old, fun e he => ?_, fun hm => ?_⟩
    · rw [hself] at he
      cases he
    · obtain ⟨e, he, hinc⟩ := h.present (hc.trans (hc'.symm.trans hm))
      have := hstale e he
      omega
  · have hother : c'.entries l = c.entries l := by rw [hentries, Function.update_of_ne hl]
    refine ⟨hc' ▸ hc ▸ h.old, fun e he => h.data e (hother ▸ he), fun hm => ?_⟩
    rw [hother]
    exact h.present (hc.trans (hc'.symm.trans hm))

theorem Publishes.congr (h : c.Publishes n beneficiary snapshots state pending)
    (hentries : c'.entries = c.entries)
    (hpending : ∀ w, w ∈ pending ↔ w ∈ pending') :
    c'.Publishes n beneficiary snapshots state pending' := by
  intro l x
  rw [hentries, ← hpending]
  exact h l x

/-- Nothing is published yet. -/
theorem Stale.publishes (h : c.Stale n) (state : EvmState) :
    c.Publishes n beneficiary snapshots state
      ((Publishing.start state).pending beneficiary snapshots) := by
  intro l x
  rw [Publishing.mem_pending_start]
  refine ⟨.inr, fun hw => hw.resolve_left ?_⟩
  rintro ⟨e, he, hinc, -⟩
  exact Nat.ne_of_lt (h.est l e he).2 hinc

/-- One publication. -/
theorem Publishes.insert (h : c.Publishes n beneficiary snapshots state pending)
    (hpending : ∀ w, w ∈ pending ↔ w = (l', y) ∨ w ∈ pending')
    (hentries : c'.entries = Function.update c.entries l' (some ⟨n, y, blocked⟩)) :
    c'.Publishes n beneficiary snapshots state pending' := by
  have hwrites : Writes beneficiary snapshots state l' y :=
    (h l' y).mpr (.inr ((hpending _).mpr (.inl rfl)))
  intro l x
  by_cases hl : l = l'
  · subst hl
    have hself : c'.entries l = some ⟨n, y, blocked⟩ := by rw [hentries, Function.update_self]
    rw [hself]
    constructor
    · intro hw
      exact .inl ⟨_, rfl, rfl, hwrites.functional hw⟩
    · rintro (⟨e, he, -, rfl⟩ | hmem)
      · cases he
        exact hwrites
      · exact (h l x).mpr (.inr ((hpending _).mpr (.inr hmem)))
  · rw [h l x, hpending, hentries, Function.update_of_ne hl]
    have hne : (l, x) ≠ (l', y) := fun heq => hl (congrArg Prod.fst heq)
    simp only [hne, false_or]

/-- Only what older incarnations have left is removed. -/
theorem Publishes.remove (h : c.Publishes n beneficiary snapshots state pending)
    (hentries : c'.entries = Function.update c.entries l' none)
    (hstale : ∀ e, c.entries l' = some e → e.incarnation < n) :
    c'.Publishes n beneficiary snapshots state pending := by
  intro l x
  rw [h l x, hentries]
  by_cases hl : l = l'
  · subst hl
    rw [Function.update_self]
    refine or_congr_left ⟨?_, ?_⟩
    · rintro ⟨e, he, hinc, -⟩
      exact absurd hinc (Nat.ne_of_lt (hstale e he))
    · rintro ⟨e, he, -⟩
      cases he
  · rw [Function.update_of_ne hl]

theorem Publishes.mark (h : c.Publishes n beneficiary snapshots state pending)
    (l' : LocationAndType) : (c.mark l').Publishes n beneficiary snapshots state pending := by
  intro l x
  rw [h l x]
  refine or_congr_left ?_
  simp only [Column.mark]
  split
  · constructor
    · rintro ⟨e, he, hinc, hdata⟩
      exact ⟨{ e with estimate := true }, by rw [he]; rfl, hinc, hdata⟩
    · rintro ⟨e, he, hinc, hdata⟩
      obtain ⟨e', he', rfl⟩ := Option.map_eq_some_iff.mp he
      exact ⟨e', he', hinc, hdata⟩
  · exact Iff.rfl

end

end Column

/-! ## Answers -/

/-- The base is the state at the start of the block. -/
structure Base.StartOf (base : Base Err) (blk : Block Err R) : Prop where
  beneficiary : base.beneficiary = blk.beneficiary
  anchor : base.anchor = blk.anchor

/-- The program of transaction `t` has followed the answers of `log` up to
`rest`, and observations that the read set tracks vouch for all of
them. -/
structure Answered (blk : Block Err R) (codeOf : B256 → Bytecode) (base : Base Err)
    (s : Shared W R B) (t : Nat) (readSet : ReadSet) (log : List (Call × Except Err Value))
    (obs : Observations) (rest : Prog Err R) : Prop where
  tracks : Tracks s.mvMemory s.history readSet obs
  recorded : ∀ l version x, (l, .memory (some (version, x))) ∈ obs →
    (s.column version.txid).Recorded l version.incarnation x
  answers : ∀ call answer, (call, answer) ∈ log →
    ∃ value, answer = .ok value ∧ Vouched base codeOf obs call value
  follow : (blk.spec t).follow log = some rest

/-- One of the first `n` transactions, and before `t`, has written the
location. -/
def Shared.Written (s : Shared W R B) (n t : Nat) (l : LocationAndType) : Prop :=
  ∃ u e, u < n ∧ u < t ∧ s.mvMemory l u = some e

/-- The read set holds a location as unwritten that is written. -/
def Overtaken (s : Shared W R B) (n t : Nat) (readSet : ReadSet) : Prop :=
  ∃ l, s.Written n t l ∧ readSet.lookup l = some .storage

/-- What every step keeps: versions have one value each, in the memory
and in the beneficiary history. -/
structure Shared.Moves (s s' : Shared W R B) : Prop where
  history : HistoryMoves s.history s'.history
  recorded : ∀ t l n x, (s.column t).Recorded l n x → (s'.column t).Recorded l n x

/-- What a step keeps when the first `n` transactions are final before it
and the first `n'` after it: the values of versions, and the entries of
final transactions. -/
structure Shared.Keeps (s : Shared W R B) (n : Nat) (s' : Shared W R B) (n' : Nat) : Prop where
  moves : s.Moves s'
  final : ∀ l u, u < n → s'.mvMemory l u = s.mvMemory l u
  le : n ≤ n'

section

variable {blk : Block Err R} {codeOf : B256 → Bytecode} {base : Base Err} {s s' : Shared W R B}
  {n n' t : Nat} {db db' : IncarnationDb} {readSet readSet' : ReadSet}
  {log : List (Call × Except Err Value)} {obs : Observations} {rest : Prog Err R}

theorem Answered.moves (h : Answered blk codeOf base s t readSet log obs rest)
    (hm : s.Moves s') : Answered blk codeOf base s' t readSet log obs rest := by
  have hrecorded : ∀ l version x, (l, .memory (some (version, x))) ∈ obs →
      (s'.column version.txid).Recorded l version.incarnation x :=
    fun l version x ho => hm.recorded _ _ _ _ (h.recorded l version x ho)
  refine ⟨⟨h.tracks.version, fun l o ho => ?_⟩, hrecorded, h.answers, h.follow⟩
  have hrec := h.tracks.recorded l o ho
  cases o with
  | memory found =>
    cases found with
    | none => trivial
    | some found => exact (hrecorded l found.1 found.2 ho).data
  | history visits => exact fun visit hmem => (hrec visit hmem).moves hm.history

theorem Overtaken.keeps (h : Overtaken s n t readSet) (hk : s.Keeps n s' n') :
    Overtaken s' n' t readSet := by
  obtain ⟨l, ⟨u, e, hn, ht, he⟩, hl⟩ := h
  exact ⟨l, ⟨u, e, Nat.lt_of_lt_of_le hn hk.le, ht, (hk.final l u hn).trans he⟩, hl⟩

theorem Overtaken.extend (h : Overtaken s n t readSet) (hext : readSet'.Extends readSet) :
    Overtaken s n t readSet' := by
  obtain ⟨l, hwritten, hl⟩ := h
  exact ⟨l, hwritten, hext l _ hl⟩

/-- An overtaken execution does not pass its validation. -/
theorem Overtaken.readSetHolds (h : Overtaken s n t readSet) (anchor : Option AccountInfo) :
    readSetHolds s.mvMemory s.history anchor t readSet = false := by
  obtain ⟨l, ⟨u, e, -, ht, he⟩, hl⟩ := h
  have hmem : (⟨l, .storage⟩ : Sigma fun _ : LocationAndType => ReadVersion) ∈ readSet.entries :=
    AList.mem_lookup_iff.mp hl
  refine Bool.eq_false_iff.mpr fun hall => ?_
  have hread := List.all_eq_true.mp hall _ hmem
  simp only [readHolds, checkRead] at hread
  cases hfound : MVMemory.latestBefore (s.mvMemory l) t with
  | none =>
    rw [MVMemory.latestBefore_eq_none_iff.mp hfound u ht] at he
    cases he
  | some found => simp [hfound] at hread

/-- Every entry is of an incarnation that has begun. -/
def Shared.EntriesBegun (s : Shared W R B) : Prop :=
  ∀ l t e, s.mvMemory l t = some e → e.incarnation ≤ (s.txStates t).incarnation

theorem Shared.EntriesBegun.recorded (h : s.EntriesBegun) {l : LocationAndType} {e : MemoryEntry}
    (he : s.mvMemory l t = some e) : (s.column t).Recorded l e.incarnation e.data where
  old := h l t e he
  data e' he' _ := by
    have he' : s.mvMemory l t = some e' := he'
    rw [he] at he'
    cases he'
    rfl
  present _ := ⟨e, he, rfl⟩

/-- What one access of a state read leads to. -/
def AnsweredAfter (blk : Block Err R) (codeOf : B256 → Bytecode) (base : Base Err)
    (s : Shared W R B) (t : Nat) (db : IncarnationDb) (log : List (Call × Except Err Value))
    (call : Call) (k : Except Err Value → Prog Err R) : CallPc B ⊕ Except Err Value → Prop
  | .inl pc => ∃ obs, Answered blk codeOf base s t db.readSet log obs (.read pc.call k) ∧
      pc.Known base s.history obs
  | .inr (.ok value) => ∃ obs,
      Answered blk codeOf base s t db.readSet (log ++ [(call, .ok value)]) obs (k (.ok value))
  | .inr (.error _) => True

/-- One access of an execution whose answers are vouched for: they still
are, or the access has found a write that the read set does not have. -/
theorem Answered.read {pc : CallPc B} {k : Except Err Value → Prog Err R}
    {backing : B.State} {result : CallPc B ⊕ Except Err Value} (hstart : base.StartOf blk)
    (h : Answered blk codeOf base s t db.readSet log obs (.read pc.call k))
    (hok : pc.Known base s.history obs) (hbegun : s.EntriesBegun)
    (hserved : pc.Served base codeOf (s.Written n t) s.backing)
    (hstep : callStep blk.anchor t s.mvMemory s.history s.backing db pc = (backing, db', result))
    (hext : db'.readSet.Extends db.readSet) (hfree : db'.isBlocked = false) :
    Overtaken s n t db'.readSet ∨ AnsweredAfter blk codeOf base s t db' log pc.call k result := by
  rw [← hstart.anchor] at hstep
  rcases callStep_vouches hok h.tracks hserved hstep hext hfree with hover |
    ⟨obs', hsub, hmet, htracks, hresult⟩
  · exact .inl hover
  have hrecorded : ∀ l version x, (l, .memory (some (version, x))) ∈ obs' →
      (s.column version.txid).Recorded l version.incarnation x := by
    intro l version x ho
    rcases hmet l _ ho with ho | ⟨-, estimate, hentry⟩
    · exact h.recorded l version x ho
    · exact hbegun.recorded hentry
  have hanswers : ∀ call answer, (call, answer) ∈ log →
      ∃ value, answer = .ok value ∧ Vouched base codeOf obs' call value := by
    intro call answer hmem
    obtain ⟨value, hvalue, hvouched⟩ := h.answers call answer hmem
    exact ⟨value, hvalue, hvouched.mono hsub⟩
  refine .inr ?_
  cases result with
  | inl pc' =>
    exact ⟨obs', ⟨htracks, hrecorded, hanswers, by rw [hresult.1]; exact h.follow⟩, hresult.2⟩
  | inr answer =>
    cases answer with
    | error e => trivial
    | ok value =>
      refine ⟨obs', htracks, hrecorded, fun call answer hmem => ?_, ?_⟩
      · rcases List.mem_append.mp hmem with hmem | hmem
        · exact hanswers call answer hmem
        · cases List.mem_singleton.mp hmem
          exact ⟨value, rfl, hresult⟩
      · rw [Prog.follow_append h.follow]
        simp only [Prog.follow, if_true]

end

/-! ## Executions -/

/-- The program of transaction `t` has come to `rest` by answers of which
`Q` holds, or it has been overtaken. -/
def Accounted (blk : Block Err R) (codeOf : B256 → Bytecode) (base : Base Err) (s : Shared W R B)
    (n t : Nat) (db : IncarnationDb) (rest : Prog Err R)
    (Q : List (Call × Except Err Value) → Observations → Prop) : Prop :=
  Overtaken s n t db.readSet ∨
    ∃ log obs, Answered blk codeOf base s t db.readSet log obs rest ∧ Q log obs

/-- The program of transaction `t` has returned `result`. -/
def Returned (blk : Block Err R) (codeOf : B256 → Bytecode) (base : Base Err) (s : Shared W R B)
    (n t : Nat) (db : IncarnationDb) (result : SpeculativeResult R) : Prop :=
  Accounted blk codeOf base s n t db (.done (.ok result)) fun log _ => db.Snapshots log none

/-- The effect in the beneficiary history is the one of the result. -/
def EffectOk (blk : Block Err R) (s : Shared W R B) (t : Nat) (result : SpeculativeResult R) :
    Prop :=
  ∀ effect, (s.history t).value = .exact effect →
    BeneficiaryEffect.fromExecution result.deferredReward
      (result.state.lookup blk.beneficiary) = some effect

/-- An execution that has published everything. -/
structure Execution.Explained (blk : Block Err R) (codeOf : B256 → Bytecode) (base : Base Err)
    (s : Shared W R B) (n : Nat) (v : TxVersion) (e : Execution R) : Prop where
  published : (s.column v.txid).Publishes v.incarnation blk.beneficiary e.db.accountSnapshots
    e.result.state []
  returned : e.db.isBlocked = false → Returned blk codeOf base s n v.txid e.db e.result

/-- What `execute_task` has read and published at each of its points. -/
def ExecExplained (blk : Block Err R) (codeOf : B256 → Bytecode) (base : Base Err)
    (s : Shared W R B) (n : Nat) (v : TxVersion) : ExecPc R B → Prop
  | .running db k pc => db.isBlocked = false →
      Accounted blk codeOf base s n v.txid db (.read pc.call k) fun log obs =>
        pc.Known base s.history obs ∧ db.Snapshots log pc.loaded
  | .publishing db result p =>
    (s.column v.txid).Publishes v.incarnation blk.beneficiary db.accountSnapshots result.state
        (p.pending blk.beneficiary db.accountSnapshots) ∧
      (db.isBlocked = false → Returned blk codeOf base s n v.txid db result)
  | .removing e _ | .recording e | .blockerLoad e | .adding e _ _ =>
    e.Explained blk codeOf base s n v
  | .releasing e _ | .settling e _ =>
    e.Explained blk codeOf base s n v ∧ EffectOk blk s v.txid e.result
  | _ => True

/-- What an access of an execution of `v` may come to: it is served up to
writes of final transactions, its errors are those of `faults`, and no
version that was recorded changes. -/
structure AccessOk (blk : Block Err R) (codeOf : B256 → Bytecode) (base faults : Base Err)
    (s : Shared W R B) (n : Nat) (v : TxVersion) (db : IncarnationDb) (pc : CallPc B) : Prop where
  served : pc.Served base codeOf (s.Written n v.txid) s.backing
  failed : ∀ e, pc.FailsWith s.backing e → faults.Fails e
  stable : (callStep blk.anchor v.txid s.mvMemory s.history s.backing db pc).2.1.readSet.Extends
    db.readSet

section

variable {blk : Block Err R} {codeOf : B256 → Bytecode} {base faults : Base Err}
  {s s' : Shared W R B} {n n' : Nat} {v : TxVersion} {db : IncarnationDb}
  {result : SpeculativeResult R} {e : Execution R} {rest : Prog Err R}
  {Q Q' : List (Call × Except Err Value) → Observations → Prop}

theorem Accounted.keeps {t : Nat} (h : Accounted blk codeOf base s n t db rest Q)
    (hk : s.Keeps n s' n') (hQ : ∀ log obs, Q log obs → Q' log obs) :
    Accounted blk codeOf base s' n' t db rest Q' := by
  rcases h with hover | ⟨log, obs, hanswered, hq⟩
  · exact .inl (hover.keeps hk)
  · exact .inr ⟨log, obs, hanswered.moves hk.moves, hQ log obs hq⟩

theorem Returned.keeps {t : Nat} (h : Returned blk codeOf base s n t db result)
    (hk : s.Keeps n s' n') : Returned blk codeOf base s' n' t db result :=
  Accounted.keeps h hk fun _ _ => id

theorem Execution.Explained.keeps (h : e.Explained blk codeOf base s n v) (hk : s.Keeps n s' n')
    (hentries : (s'.column v.txid).entries = (s.column v.txid).entries) :
    e.Explained blk codeOf base s' n' v :=
  ⟨h.published.congr hentries fun _ => Iff.rfl, fun hb => (h.returned hb).keeps hk⟩

/-- Other transactions move. -/
theorem ExecExplained.keeps {pc : ExecPc R B} (h : ExecExplained blk codeOf base s n v pc)
    (hk : s.Keeps n s' n') (hsame : s'.column v.txid = s.column v.txid) :
    ExecExplained blk codeOf base s' n' v pc := by
  have hentries : (s'.column v.txid).entries = (s.column v.txid).entries := by rw [hsame]
  have hhistory : s'.history v.txid = s.history v.txid := congrArg Column.entry hsame
  have heffect : ∀ result, EffectOk blk s v.txid result → EffectOk blk s' v.txid result := by
    intro result heff effect heffect
    rw [hhistory] at heffect
    exact heff effect heffect
  cases pc with
  | running db k pc =>
    exact fun hb => (h hb).keeps hk fun log obs hq => ⟨hq.1.moves hk.moves.history, hq.2⟩
  | publishing db result p =>
    exact ⟨h.1.congr hentries fun _ => Iff.rfl, fun hb => (h.2 hb).keeps hk⟩
  | removing e remaining | recording e | blockerLoad e | adding e blocker pc =>
    exact Execution.Explained.keeps h hk hentries
  | releasing e pc | settling e next => exact ⟨h.1.keeps hk hentries, heffect _ h.2⟩
  | _ => trivial

/-- The next state read begins, or the publications do. -/
theorem execExplained_enterExec {s₀ : Shared W R B} {prog : Prog Err R}
    (hstart : base.StartOf blk) (hstale : (s.column v.txid).Stale v.incarnation)
    (h : db.isBlocked = false →
      Accounted blk codeOf base s n v.txid db prog fun log _ => db.Snapshots log none) :
    ExecExplained blk codeOf base s n v (enterExec blk s₀ v.txid db prog) := by
  cases prog with
  | read call k =>
    intro hb
    refine (h hb).imp_right ?_
    rintro ⟨log, obs, hanswered, hsnapshots⟩
    refine ⟨log, obs, ?_, ?_, ?_⟩
    · rw [CallPc.call_start]
      exact hanswered
    · rw [← hstart.beneficiary]
      exact (CallPc.ok_start call).known
    · have hloaded : (call.start blk.beneficiary v.txid : CallPc B).loaded = none := by
        cases call with
        | basic address =>
          simp only [Call.start]
          split <;> rfl
        | storage address index => rfl
      rw [hloaded]
      exact hsnapshots
  | done result =>
    cases result with
    | error e => trivial
    | ok result => exact ⟨hstale.publishes result.state, h⟩

/-- One access of an execution that is not blocked after it. -/
theorem ExecExplained.read {pc : CallPc B} {k : Except Err Value → Prog Err R}
    {backing : B.State} {db' : IncarnationDb} {next : CallPc B ⊕ Except Err Value}
    (hx : ExecExplained blk codeOf base s n v (.running db k pc)) (hstart : base.StartOf blk)
    (hbegun : s.EntriesBegun) (haccess : AccessOk blk codeOf base faults s n v db pc)
    (hstep : callStep blk.anchor v.txid s.mvMemory s.history s.backing db pc =
      (backing, db', next)) (hfree : db'.isBlocked = false) :
    Overtaken s n v.txid db'.readSet ∨ ∃ log,
      (∃ obs, Answered blk codeOf base s v.txid db.readSet log obs (.read pc.call k)) ∧
      AnsweredAfter blk codeOf base s v.txid db' log pc.call k next ∧
      SnapshotsAfter db' log pc.call next := by
  have hext := haccess.stable
  rw [hstep] at hext
  have hb : db.isBlocked = false := by
    by_contra hb
    rw [isBlocked_of_callStep hstep (by simpa using hb)] at hfree
    cases hfree
  rcases hx hb with hover | ⟨log, obs, hanswered, hknown, hsnapshots⟩
  · exact .inl (hover.extend hext)
  · refine (hanswered.read hstart hknown hbegun haccess.served hstep hext hfree).imp_right ?_
    exact fun hafter => ⟨log, ⟨obs, hanswered⟩, hafter, callStep_snapshots hsnapshots hstep⟩

/-- A state read has an answer. -/
theorem execExplained_answer {s₀ : Shared W R B} {pc : CallPc B}
    {k : Except Err Value → Prog Err R} {backing : B.State} {db' : IncarnationDb}
    {answer : Except Err Value} (hstart : base.StartOf blk)
    (hprop : (blk.spec v.txid).Propagates faults)
    (hstale : (s.column v.txid).Stale v.incarnation) (hbegun : s.EntriesBegun)
    (hx : ExecExplained blk codeOf base s n v (.running db k pc))
    (haccess : AccessOk blk codeOf base faults s n v db pc)
    (hstep : callStep blk.anchor v.txid s.mvMemory s.history s.backing db pc
      = (backing, db', .inr answer)) :
    ExecExplained blk codeOf base s n v (enterExec blk s₀ v.txid db' (k answer)) := by
  by_cases hfree : db'.isBlocked = true
  · exact execExplained_enterExec hstart hstale fun hb => by rw [hfree] at hb; cases hb
  · rw [Bool.not_eq_true] at hfree
    rcases hx.read hstart hbegun haccess hstep hfree with hover |
      ⟨log, ⟨obs, hanswered⟩, hafter, hsnapshots⟩
    · exact execExplained_enterExec hstart hstale fun _ => .inl hover
    · cases answer with
      | ok value =>
        obtain ⟨obs', hanswered'⟩ := hafter
        exact execExplained_enterExec hstart hstale fun _ => .inr ⟨_, obs', hanswered', hsnapshots⟩
      | error e =>
        -- a failed read ends the execution
        have hrest := hprop.follow hanswered.follow fun call answer hmem => by
          obtain ⟨value, hvalue, -⟩ := hanswered.answers call answer hmem
          exact ⟨value, hvalue⟩
        obtain ⟨error, herror⟩ := hrest.1 e (haccess.failed e (failsWith_of_callStep hstep))
        rw [herror]
        trivial

/-- One step of `execute_task`. -/
theorem ExecStep.explained {pc pc' : ExecPc R B} {p' : WorkerPc R B} {v' : TxVersion}
    (h : ExecStep blk s v pc s' p')
    (hp' : p' = .exec v' pc') (hstart : base.StartOf blk)
    (hprop : (blk.spec v.txid).Propagates faults)
    (hok : ExecOk v.incarnation (s.column v.txid) pc) (hbegun : s.EntriesBegun)
    (hx : ExecExplained blk codeOf base s n v pc) (hk : s.Keeps n s' n)
    (haccess : ∀ db k cpc, pc = .running db k cpc →
      AccessOk blk codeOf base faults s n v db cpc) :
    ExecExplained blk codeOf base s' n v' pc' := by
  cases h with
  | @read db k cpc backing db' cpc' hstep =>
    cases hp'
    intro hfree
    rcases hx.read hstart hbegun (haccess db k cpc rfl) hstep hfree with hover |
      ⟨log, -, ⟨obs', hanswered', hknown'⟩, hsnapshots⟩
    · exact .inl (hover.keeps hk)
    · exact .inr ⟨log, obs', hanswered'.moves hk.moves, hknown', hsnapshots⟩
  | @answer db k cpc backing db' answer hstep =>
    cases hp'
    exact (execExplained_answer hstart hprop hok.2 hbegun hx (haccess db k cpc rfl)
      hstep).keeps hk rfl
  | publish hnext =>
    cases hp'
    obtain ⟨hpub, hret⟩ := hx
    exact ⟨hpub.insert (fun w => Publishing.mem_pending_of_publish hnext) Column.entries_insert,
      fun hb => (hret hb).keeps hk⟩
  | chooseAccount hnext =>
    cases hp'
    obtain ⟨hpub, hret⟩ := hx
    exact ⟨hpub.congr rfl fun w => Publishing.mem_pending_of_choose hnext, hret⟩
  | @compare db result p hdone =>
    cases hp'
    obtain ⟨hpub, hret⟩ := hx
    refine ⟨hpub.congr rfl fun w => ?_, hret⟩
    simp only [Publishing.finished, Bool.and_eq_true, List.isEmpty_iff] at hdone
    simp [Publishing.pending, hdone]
  | unpublish hpick =>
    cases hp'
    obtain ⟨-, hw, hdis, -⟩ := hok
    have hl := hdis _ ((mem_of_pick? hpick _).mpr (.inl rfl))
    exact ⟨hx.published.remove Column.entries_remove fun e he => (hw.stale _ e hl he).2,
      fun hb => (hx.returned hb).keeps hk⟩
  | unpublished | loadBlocker =>
    cases hp'
    exact hx
  | recordEstimate hb hrec | addLock =>
    cases hp'
    exact Execution.Explained.keeps hx hk rfl
  | @recordExact e effect entry hb heff hrec =>
    cases hp'
    refine ⟨Execution.Explained.keeps hx hk rfl, fun effect' heffect => ?_⟩
    obtain ⟨-, rfl⟩ := EntryState.record_eq_some_iff.mp hrec
    simp only [Shared.setEntry_history, Function.update_self] at heffect
    cases heffect
    exact heff
  | recordStale => cases hp'; trivial
  | addBlocker hadd =>
    cases hp'
    obtain ⟨-, -, -, hentry⟩ := hok
    refine ⟨Execution.Explained.keeps hx hk rfl, fun effect heffect => ?_⟩
    have hentry : s.history v.txid = ⟨v.incarnation, .estimate⟩ := hentry
    simp only [hentry] at heffect
    cases heffect
  | release hrem | released hrem =>
    cases hp'
    exact ⟨hx.1.keeps hk rfl, hx.2⟩
  | errRecord hrec =>
    cases hp'
    split <;> trivial
  | frontierFinish => rename_i tail _ _ _ _ _; cases tail <;> cases hp'
  | rewindFinish => rename_i tail _ _ _; cases tail <;> cases hp'
  | parallelErrorEnd => cases hp'
  | _ => cases hp'; trivial

end

/-! ## Versions under the steps of the machine -/

section

variable {blk : Block Err R} {codeOf : B256 → Bytecode} {base : Base Err} {s s' : Shared W R B}
  {n : Nat} {v : TxVersion} {p p' : WorkerPc R B} {σ : SchedulerState W R B}

theorem ExecOk.entry_le {n : Nat} {c : Column Err R} {pc : ExecPc R B} {l : LocationAndType}
    {e : MemoryEntry} (h : ExecOk n c pc) (hn : c.state.incarnation = n)
    (he : c.entries l = some e) : e.incarnation ≤ n := by
  have hstale : ∀ {m}, c.Stale m → m ≤ n + 1 → e.incarnation ≤ n := by
    intro m hs hm
    have := (hs.est l e he).2
    omega
  have hwriting : ∀ {blocked new old}, c.Writing n blocked new old → e.incarnation ≤ n := by
    intro blocked new old hw
    by_cases hl : l ∈ new
    · exact Nat.le_of_eq (hw.fresh l e hl he).1
    · exact Nat.le_of_lt (hw.stale l e hl he).2
  have htail : ∀ {tail}, TailOk c tail → e.incarnation ≤ n := by
    intro tail ht
    cases tail with
    | conflict => exact hstale ht.2 (by omega)
    | _ => exact Nat.le_of_eq ((ht.2.1.exact l e he).2.trans hn)
  cases pc with
  | running | errMarking | errRecording => exact hstale h.2 (by omega)
  | publishing | removing | recording => exact hwriting h.2.1
  | blockerLoad | adding | releasing | settling => exact hwriting h.2.2.1
  | frontier | rewinding => exact htail h
  | parallelError => exact h.elim
  | _ => exact hstale h.2 (by omega)

theorem ValOk.entry_le {n : Nat} {c : Column Err R} {pc : ValPc} {l : LocationAndType}
    {e : MemoryEntry} (h : ValOk n c pc) (hn : c.state.incarnation = n)
    (he : c.entries l = some e) : e.incarnation ≤ n := by
  cases pc with
  | scanning | scanningHistory | unconfirming =>
    exact Nat.le_of_eq ((h.2.1.exact l e he).2.trans hn)
  | marking | invalidating => exact Nat.le_of_eq (h.2.inc l e he)
  | parallelError => exact h.elim
  | _ => exact Nat.le_of_lt_succ (h.2.est l e he).2

theorem Column.FreeOk.entry_le {c : Column Err R} {l : LocationAndType} {e : MemoryEntry}
    (h : c.FreeOk) (he : c.entries l = some e) : e.incarnation ≤ c.state.incarnation := by
  unfold FreeOk at h
  split at h
  · rw [h.2.1 l] at he
    cases he
  · exact Nat.le_of_lt (h.est l e he).2
  · exact Nat.le_of_lt_succ (h.est l e he).2
  · exact Nat.le_of_eq (h.exact l e he).2
  · exact Nat.le_of_eq (h.1.exact l e he).2

theorem Core.entriesBegun (h : Core σ) : σ.shared.EntriesBegun := by
  intro l t e he
  have he : (σ.shared.column t).entries l = some e := he
  by_cases hl : ∃ w, σ.shared.txLocks t = some (.worker w)
  · obtain ⟨w, hw⟩ := hl
    have hlocked := (h.locked w t).mp hw
    have hown := h.owned w
    cases hp : σ.workers w <;> rw [hp] at hlocked hown <;> cases hlocked
    · obtain ⟨hi, hok⟩ := hown _ rfl
      rw [hi]
      exact ExecOk.entry_le hok hi he
    · obtain ⟨hi, hok⟩ := hown _ rfl
      rw [hi]
      exact ValOk.entry_le hok hi he
  · exact (h.free t fun w hw => hl ⟨w, hw⟩).entry_le he

theorem Shared.Moves.of_same (hmv : s'.mvMemory = s.mvMemory)
    (hhistory : HistoryMoves s.history s'.history)
    (hinc : ∀ t, (s'.txStates t).incarnation = (s.txStates t).incarnation) : s.Moves s' where
  history := hhistory
  recorded t l n x h := h.congr (by simp only [Shared.column, hmv]) (hinc t)

theorem Shared.incarnation_setStatus (status : TransactionStatus) (t i : Nat) :
    ((s.setStatus t status).txStates i).incarnation = (s.txStates i).incarnation := by
  by_cases hi : i = t
  · subst hi
    simp
  · simp [hi]

/-- A step that changes only the column of `t`. -/
theorem Shared.Moves.of_column {t : Nat} (hother : ∀ i, i ≠ t → SameAt s s' i)
    (hhistory : HistoryMoves s.history s'.history)
    (h : ∀ l n x, (s.column t).Recorded l n x → (s'.column t).Recorded l n x) : s.Moves s' where
  history := hhistory
  recorded i l n x hrec := by
    by_cases hi : i = t
    · subst hi
      exact h l n x hrec
    · rw [(hother i hi).1]
      exact hrec

theorem finishExec_moves (ctx : SchedulerContext) (tail : ExecTail) :
    s.Moves (finishExec { s with ctx } v tail).1 := by
  cases tail with
  | revalidate =>
    exact .of_same rfl (.refl _) (Shared.incarnation_setStatus (s := s.setLock v.txid none) _ _)
  | _ => exact .of_same rfl (.refl _) fun _ => rfl

/-- The owner publishes only what its execution has not published with
another value, and removes only what older incarnations have left. -/
theorem ExecStep.moves {pc : ExecPc R B} (h : ExecStep blk s v pc s' p')
    (hi : (s.txStates v.txid).incarnation = v.incarnation)
    (hok : ExecOk v.incarnation (s.column v.txid) pc)
    (hx : ExecExplained blk codeOf base s n v pc) : s.Moves s' := by
  have hother : ∀ i, i ≠ v.txid → SameAt s s' i := fun i hne => h.sameAt hne
  cases h with
  | @publish db result p p' l x c hnext =>
    refine .of_column hother (.refl _) fun l' n y hrec =>
      hrec.insert hi hi Column.entries_insert fun e he hinc => ?_
    have hwrites := (hx.1 l x).mpr (.inr ((Publishing.mem_pending_of_publish hnext).mpr (.inl rfl)))
    exact ((hx.1 l e.data).mpr (.inl ⟨e, he, hinc, rfl⟩)).functional hwrites
  | unpublish hpick =>
    obtain ⟨-, hw, hdis, -⟩ := hok
    have hl := hdis _ ((mem_of_pick? hpick _).mpr (.inl rfl))
    exact .of_column hother (.refl _) fun l' n y hrec =>
      hrec.remove hi hi Column.entries_remove fun e he => (hw.stale _ e hl he).2
  | errMark hpick =>
    refine .of_column hother (.refl _) fun l' n y hrec => ?_
    rw [Column.column_markEstimate]
    exact hrec.mark _
  | recordEstimate hb hrec | recordExact hb he hrec | errRecord hrec =>
    exact .of_same rfl (.record hrec) fun _ => rfl
  | @settle e next =>
    exact .of_same rfl (.refl _) (Shared.incarnation_setStatus
      (s := s.setResult v.txid (some ⟨e.db.readSet, e.writeSet, .ok e.result⟩)) _ _)
  | errSettle => exact .of_same rfl (.refl _) (Shared.incarnation_setStatus _ _)
  | parallelError | parallelErrorEnd => exact hok.elim
  | @frontierFinish tail pc ctx n h ht | @rewindFinish tail pc ctx h =>
    exact finishExec_moves ctx tail
  | _ => exact .of_same rfl (.refl _) fun _ => rfl

theorem ValStep.moves {pc : ValPc} (h : ValStep blk s v pc s' p')
    (hok : ValOk v.incarnation (s.column v.txid) pc) : s.Moves s' := by
  have hother : ∀ i, i ≠ v.txid → SameAt s s' i := fun i hne => h.sameAt hne
  have hstate : ∀ (s : Shared W R B) status dependency i,
      ((s.setState v.txid { s.txStates v.txid with status, dependency }).txStates i).incarnation
        = (s.txStates i).incarnation := by
    intro s status dependency i
    by_cases hi : i = v.txid
    · subst hi
      simp
    · simp [hi]
  cases h with
  | mark hpick =>
    refine .of_column hother (.refl _) fun l' n y hrec => ?_
    rw [Column.column_markEstimate]
    exact hrec.mark _
  | invalidateLast hinv hn =>
    exact .of_same rfl (.invalidate hinv) (hstate (s.setEntry v.txid _) _ _)
  | invalidate hinv hn => exact .of_same rfl (.invalidate hinv) fun _ => rfl
  | rewound h | unconfirm => exact .of_same rfl (.refl _) (hstate _ _ _)
  | parallelError | parallelErrorEnd => exact hok.elim
  | _ => exact .of_same rfl (.refl _) fun _ => rfl

/-- A step of a worker. -/
theorem WorkerStep.moves {w : W} (h : WorkerStep blk w s p s' p')
    (hown : ∀ v, p.owned = some v → (s.txStates v.txid).incarnation = v.incarnation ∧
      PcOk (s.column v.txid) p)
    (hx : ∀ v pc, p = .exec v pc → ExecExplained blk codeOf base s n v pc) : s.Moves s' := by
  cases h with
  | claimed => exact .of_same rfl (.refl _) (Shared.incarnation_setStatus _ _)
  | @startTask t fromNext hl hs =>
    refine .of_column (t := t) (fun i hi => by simp [SameAt, Shared.column, hi]) (.refl _)
      fun l n x hrec => hrec.claim rfl ?_
    simp [Shared.column]
  | @exec v pc s' p' hs =>
    obtain ⟨hi, hok⟩ := hown v rfl
    exact hs.moves hi hok (hx v pc rfl)
  | @val v pc s' p' hs =>
    obtain ⟨-, hok⟩ := hown v rfl
    exact hs.moves hok
  | _ => exact .of_same rfl (.refl _) fun _ => rfl

end

/-! ## Results -/

/-- The transaction has a result that is, or may become, valid. -/
def TransactionStatus.isSettled : TransactionStatus → Bool
  | .executed | .validating | .unconfirmed | .finality => true
  | .initial | .executing | .conflict => false

/-- A result comes from an execution that was not blocked, and what it has
published is there. -/
def ResultExplained (blk : Block Err R) (codeOf : B256 → Bytecode) (base : Base Err)
    (s : Shared W R B) (n t : Nat) : Prop :=
  (s.txStates t).status.isSettled = true →
    ∀ r x, s.txResults t = some r → r.executeResult = .ok x →
      ∃ db : IncarnationDb, db.readSet = r.readSet ∧
        (s.column t).Publishes (s.txStates t).incarnation blk.beneficiary db.accountSnapshots
          x.state [] ∧
        Returned blk codeOf base s n t db x ∧ EffectOk blk s t x

/-- **What has been read and published.** -/
structure Explained (blk : Block Err R) (codeOf : B256 → Bytecode) (base : Base Err)
    (σ : SchedulerState W R B) : Prop where
  exec : ∀ w v pc, σ.workers w = .exec v pc →
    ExecExplained blk codeOf base σ.shared σ.finality.idx v pc
  result : ∀ t, ResultExplained blk codeOf base σ.shared σ.finality.idx t

section

variable {blk : Block Err R} {codeOf : B256 → Bytecode} {base : Base Err} {s s' : Shared W R B}
  {n n' : Nat} {v : TxVersion} {t : Nat} {p p' : WorkerPc R B}

theorem ResultExplained.keeps (h : ResultExplained blk codeOf base s n t) (hk : s.Keeps n s' n')
    (hstatus : (s'.txStates t).status.isSettled = true → (s.txStates t).status.isSettled = true)
    (hinc : (s'.txStates t).incarnation = (s.txStates t).incarnation)
    (hresult : s'.txResults t = s.txResults t)
    (hentries : ∀ {n beneficiary snapshots state},
      (s.column t).Publishes n beneficiary snapshots state [] →
        (s'.column t).Publishes n beneficiary snapshots state [])
    (heffect : ∀ effect, (s'.history t).value = .exact effect →
      (s.history t).value = .exact effect) : ResultExplained blk codeOf base s' n' t := by
  intro hsettled r x hr hx
  rw [hresult] at hr
  obtain ⟨db, hreads, hpub, hret, heff⟩ := h (hstatus hsettled) r x hr hx
  refine ⟨db, hreads, ?_, hret.keeps hk, fun effect he => heff effect (heffect effect he)⟩
  rw [hinc]
  exact hentries hpub

/-- Nothing that a result depends on changes. -/
theorem ResultExplained.same (h : ResultExplained blk codeOf base s n t) (hk : s.Keeps n s' n')
    (hcolumn : s'.column t = s.column t) : ResultExplained blk codeOf base s' n' t := by
  have hstate : s'.txStates t = s.txStates t := congrArg Column.state hcolumn
  have hhistory : s'.history t = s.history t := congrArg Column.entry hcolumn
  refine h.keeps hk (by rw [hstate]; exact id) (by rw [hstate]) (congrArg Column.result hcolumn)
    (fun hpub => by rw [hcolumn]; exact hpub) (fun effect he => by rw [← hhistory]; exact he)

theorem resultExplained_of_unsettled (h : (s.txStates t).status.isSettled = false) :
    ResultExplained blk codeOf base s n t := by
  intro hsettled
  rw [h] at hsettled
  cases hsettled

theorem finishExec_resultExplained {ctx : SchedulerContext} (tail : ExecTail)
    (h : ResultExplained blk codeOf base s n v.txid)
    (hk : s.Keeps n (finishExec { s with ctx } v tail).1 n)
    (hst : (s.txStates v.txid).status = .executed ∨ tail ≠ .revalidate) :
    ResultExplained blk codeOf base (finishExec { s with ctx } v tail).1 n v.txid := by
  cases tail with
  | revalidate =>
    have hst := hst.resolve_right (fun hne => hne rfl)
    refine h.keeps hk (fun _ => by rw [hst]; rfl) ?_ rfl (fun hpub => hpub) fun _ => id
    simp [finishExec]
  | _ => exact h.same hk rfl

/-- A step of `execute_task`: the result of an execution that was not
blocked is explained by it. -/
theorem ExecStep.resultExplained {pc : ExecPc R B} (h : ExecStep blk s v pc s' p')
    (hi : (s.txStates v.txid).incarnation = v.incarnation)
    (hok : ExecOk v.incarnation (s.column v.txid) pc)
    (hx : ExecExplained blk codeOf base s n v pc) (hk : s.Keeps n s' n)
    (hr : ResultExplained blk codeOf base s n v.txid) :
    ResultExplained blk codeOf base s' n v.txid := by
  have hexecuting : (s.txStates v.txid).status = .executing →
      (s.txStates v.txid).status.isSettled = false := fun hst => by rw [hst]; rfl
  have htail : ∀ {tail}, TailOk (s.column v.txid) tail →
      (s.txStates v.txid).status = .executed ∨ tail ≠ .revalidate := by
    intro tail ht
    cases tail with
    | revalidate => exact .inl ht.1
    | _ => exact .inr nofun
  cases h with
  | @settle e next =>
    obtain ⟨⟨hpub, hret⟩, heff⟩ := hx
    by_cases hb : e.db.isBlocked = true
    · refine resultExplained_of_unsettled ?_
      simp [hb, TransactionStatus.isSettled]
    · rw [Bool.not_eq_true] at hb
      intro hsettled r x hres hx
      simp only [Shared.setStatus_txResults, Shared.setResult_txResults, Function.update_self,
        Option.some.injEq] at hres
      subst hres
      cases hx
      refine ⟨e.db, rfl, ?_, (hret hb).keeps hk, heff⟩
      have hinc := Shared.incarnation_setStatus
        (s := s.setResult v.txid (some ⟨e.db.readSet, e.writeSet, .ok e.result⟩))
        (if e.db.isBlocked then .conflict else .executed) v.txid v.txid
      rw [hinc, Shared.setResult_txStates, hi]
      exact hpub
  | frontier | frontierRewind | rewind => exact hr.same hk rfl
  | frontierFinish | rewindFinish => exact finishExec_resultExplained _ hr hk (htail hok)
  | errSettle =>
    refine resultExplained_of_unsettled ?_
    simp [TransactionStatus.isSettled]
  | parallelError | parallelErrorEnd => exact hok.elim
  | _ => exact resultExplained_of_unsettled (hexecuting hok.1)

/-- A step of `validate`. -/
theorem ValStep.resultExplained {pc : ValPc} (h : ValStep blk s v pc s' p')
    (hok : ValOk v.incarnation (s.column v.txid) pc) (hk : s.Keeps n s' n)
    (hr : ResultExplained blk codeOf base s n v.txid) :
    ResultExplained blk codeOf base s' n v.txid := by
  cases h with
  | mark hpick =>
    refine hr.keeps hk id rfl rfl (fun hpub => ?_) fun _ => id
    rw [Column.column_markEstimate]
    exact hpub.mark _
  | invalidateLast | rewound =>
    refine resultExplained_of_unsettled ?_
    simp [TransactionStatus.isSettled]
  | invalidate hinv hn =>
    refine hr.keeps hk id rfl rfl (fun hpub => hpub) fun effect he => ?_
    unfold EntryState.invalidate at hinv
    split at hinv <;> cases hinv
    simp at he
  | unconfirm =>
    have hst : (s.txStates v.txid).status = .validating := hok.1
    refine hr.keeps hk (fun _ => by rw [hst]; rfl) (by simp) rfl (fun hpub => hpub) fun _ => id
  | parallelError | parallelErrorEnd => exact hok.elim
  | _ => exact hr.same hk rfl

end

/-! ## Runs -/

/-- A worker that ends a call to the backing database gets the value of
the base. -/
def FixedReads (base : Base Err) (σ : SchedulerState W R B) (a : Action W) : Prop :=
  ∀ w v db k pc, a.thread = .worker w → σ.workers w = .exec v (.running db k pc) →
    pc.BackedBy base σ.shared.backing

/-- No location the execution has read before changes its version when it
is read again. -/
def StableReads (blk : Block Err R) (σ : SchedulerState W R B) (a : Action W) : Prop :=
  ∀ w v db k pc, a.thread = .worker w → σ.workers w = .exec v (.running db k pc) →
    (callStep blk.anchor v.txid σ.shared.mvMemory σ.shared.history σ.shared.backing db
      pc).2.1.readSet.Extends db.readSet

/-- Every access of a worker is served up to writes of final
transactions. -/
def AccessesOk (blk : Block Err R) (codeOf : B256 → Bytecode) (base faults : Base Err)
    (σ : SchedulerState W R B) (a : Action W) : Prop :=
  ∀ w v db k pc, a.thread = .worker w → σ.workers w = .exec v (.running db k pc) →
    AccessOk blk codeOf base faults σ.shared σ.finality.idx v db pc

section

variable {blk : Block Err R} {codeOf : B256 → Bytecode} {base faults : Base Err}
  {σ σ' : SchedulerState W R B} {s' : Shared W R B}

/-- What the base returns is served. -/
theorem CallPc.BackedBy.served {written : LocationAndType → Prop} {backing : B.State}
    {pc : CallPc B} (h : pc.BackedBy base backing) (hbook : base.CodeBook codeOf) :
    pc.Served base codeOf written backing := by
  cases pc with
  | basicBacking address pc =>
    intro hne backing' account hstep
    have hbasic := h _ _ hstep
    refine .inl ⟨by rw [← hbasic]; rfl, fun info code hinfo he hcode => ?_⟩
    rw [hinfo] at hbasic
    have hplain : (base.plain address).basic = .ok (some info) := (if_neg hne).trans hbasic.symm
    exact (hbook address info hplain he).2 code hcode
  | codeBacking address info pc => exact fun _ _ _ hstep => .inl (h _ _ hstep).symm
  | storageBacking address index pc => exact fun _ _ hstep => .inl (h _ _ hstep).symm
  | _ => trivial

theorem CallPc.BackedBy.fails {backing : B.State} {pc : CallPc B} {e : Err}
    (h : pc.BackedBy base backing) (he : pc.FailsWith backing e) : base.Fails e := by
  cases pc with
  | basicBacking address pc => exact .inl ⟨address, (h _ _ (Prod.ext rfl he)).symm⟩
  | codeBacking address info pc =>
    exact .inr (.inl ⟨info.codeHash, (h _ _ (Prod.ext rfl he)).symm⟩)
  | storageBacking address index pc =>
    exact .inr (.inr ⟨address, index, (h _ _ (Prod.ext rfl he)).symm⟩)
  | _ => exact he.elim

theorem accessesOk_of_fixedReads {a : Action W} (hbook : base.CodeBook codeOf)
    (hfixed : FixedReads base σ a) (hstable : StableReads blk σ a) :
    AccessesOk blk codeOf base base σ a := by
  intro w v db k pc ha hw
  have hbacked := hfixed w v db k pc ha hw
  exact ⟨hbacked.served hbook, fun e => hbacked.fails, hstable w v db k pc ha hw⟩

theorem Explained.worker [DecidableEq W] {w : W} {p' : WorkerPc R B} {a : Action W}
    (h : Explained blk codeOf base σ) (hcore : Core σ)
    (hstart : base.StartOf blk) (hprop : ∀ t, (blk.spec t).Propagates faults)
    (ha : a.thread = .worker w) (haccesses : AccessesOk blk codeOf base faults σ a)
    (hstep : WorkerStep blk w σ.shared (σ.workers w) s' p') :
    Explained blk codeOf base
      { σ with shared := s', workers := Function.update σ.workers w p' } := by
  have hk : σ.shared.Keeps σ.finality.idx s' σ.finality.idx := by
    refine ⟨hstep.moves (hcore.owned w) (h.exec w), fun l u hu => ?_, Nat.le_refl _⟩
    exact congrFun (congrArg Column.entries
      (hcore.worker_sameAt hstep ((hcore.final u).mpr hu)).1) l
  refine ⟨fun w' v pc hw' => ?_, fun t => ?_⟩
  · by_cases hww : w' = w
    · subst hww
      simp only [Function.update_self] at hw'
      have hown := hcore.owned w'
      have hx := h.exec w'
      have haccess := fun v db k pc => haccesses w' v db k pc ha
      generalize σ.workers w' = p at hstep hown hx haccess
      cases hstep with
      | idle hp hp₁ | frontier h hp hp₁ => subst hw'; cases hp₁
      | execute hl hs hi =>
        cases hw'
        have hstale : (σ.shared.column v.txid).Stale v.incarnation := by
          have hfree := hcore.free v.txid (by simp [hl])
          rw [← hi]
          simpa only [Column.FreeOk, Shared.column, hs] using hfree
        refine (execExplained_enterExec hstart hstale fun _ => ?_).keeps hk rfl
        exact .inr ⟨[], [], ⟨⟨by simp, by simp⟩, by simp, by simp, rfl⟩,
          fun _ _ hlook => by cases hlook⟩
      | executeInconsistent =>
        cases hw'
        trivial
      | @exec v₀ pc₀ s' p' hs =>
        obtain ⟨-, hok⟩ := hown v₀ rfl
        exact hs.explained hw' hstart (hprop v₀.txid) hok hcore.entriesBegun (hx v₀ pc₀ rfl) hk
          fun db k cpc heq => haccess v₀ db k cpc (by rw [heq])
      | @val v₀ pc₀ s' p' hs =>
        subst hw'
        cases hs
      | busy => rename_i fromNext _ _; cases fromNext <;> cases hw'
      | uselessRemoved => rename_i fromNext _ _ _ _ _; cases fromNext <;> cases hw'
      | _ => cases hw'
    · simp only [Function.update_of_ne hww] at hw'
      have hv : (σ.workers w').owned = some v := by rw [hw']; rfl
      exact (h.exec w' v pc hw').keeps hk (hcore.worker_sameAt_owned hstep hww hv).1
  · have hown := hcore.owned w
    have hx := h.exec w
    generalize σ.workers w = p at hstep hown hx
    have hr := h.result t
    cases hstep with
    | @claimed t' hl hs =>
      by_cases ht : t = t'
      · subst ht
        refine hr.keeps hk (fun _ => ?_) (Shared.incarnation_setStatus _ _ _) rfl
          (fun hpub => hpub) fun _ => id
        rcases hs with hs | hs <;> rw [hs] <;> rfl
      · exact hr.same hk (by simp [Shared.column, ht])
    | @startTask t' fromNext hl hs =>
      by_cases ht : t = t'
      · subst ht
        refine resultExplained_of_unsettled ?_
        simp [TransactionStatus.isSettled]
      · exact hr.same hk (by simp [Shared.column, ht])
    | @exec v₀ pc₀ s' p' hs =>
      by_cases ht : t = v₀.txid
      · subst ht
        obtain ⟨hi, hok⟩ := hown v₀ rfl
        exact hs.resultExplained hi hok (hx v₀ pc₀ rfl) hk hr
      · exact hr.same hk (hs.sameAt ht).1
    | @val v₀ pc₀ s' p' hs =>
      by_cases ht : t = v₀.txid
      · subst ht
        obtain ⟨-, hok⟩ := hown v₀ rfl
        exact hs.resultExplained hok hk hr
      · exact hr.same hk (hs.sameAt ht).1
    | _ => exact hr.same hk rfl

theorem Explained.finality {t' : FinalityThread} (h : Explained blk codeOf base σ)
    (hcore : Core σ) (hstep : FinalityStep blk σ.shared σ.finality s' t') :
    Explained blk codeOf base { σ with shared := s', finality := t' } := by
  obtain ⟨hmv, hhistory, hresults, -, -⟩ := hstep.frame
  have hstates : ∀ t, (s'.txStates t).incarnation = (σ.shared.txStates t).incarnation ∧
      ((s'.txStates t).status.isSettled = true →
        (σ.shared.txStates t).status.isSettled = true) := by
    intro t
    cases hstep
    case finalize hpc _ =>
      have hun := hcore.candidate (by rw [hpc]; rfl)
      refine ⟨Shared.incarnation_setStatus _ _ _, fun hsettled => ?_⟩
      by_cases ht : t = σ.finality.idx
      · rw [ht, hun]
        rfl
      · simpa [ht] using hsettled
    all_goals exact ⟨rfl, id⟩
  have hle : σ.finality.idx ≤ t'.idx := by
    cases hstep <;> first | exact Nat.le_refl _ | exact Nat.le_succ _
  have hk : σ.shared.Keeps σ.finality.idx s' t'.idx := by
    refine ⟨.of_same hmv ?_ fun t => (hstates t).1, fun l u _ => by rw [hmv], hle⟩
    rw [hhistory]
    exact .refl _
  have hentries : ∀ t, (s'.column t).entries = (σ.shared.column t).entries := by
    intro t
    simp only [Shared.column, hmv]
  refine ⟨fun w v pc hw => ?_, fun t => ?_⟩
  · have hx := h.exec w v pc hw
    have hsame : s'.column v.txid = σ.shared.column v.txid := by
      have hstate : s'.txStates v.txid = σ.shared.txStates v.txid := by
        cases hstep
        case finalize hpc _ =>
          have hlocks : σ.finality.pc.locks = true := by rw [hpc]; rfl
          have hlocked : (σ.workers w).locked = some v.txid := by rw [hw]; rfl
          have hne : v.txid ≠ σ.finality.idx := fun ht =>
            (hcore.lock_ne_finality hlocked).2
              (ht ▸ (hcore.finalityLock _).mpr ⟨hlocks, rfl⟩)
          simp [hne]
        all_goals rfl
      simp only [Shared.column, hmv, hhistory, hresults, hstate]
    exact hx.keeps hk hsame
  · refine (h.result t).keeps hk (hstates t).2 (hstates t).1 (congrFun hresults t)
      (fun hpub => hpub.congr (hentries t) fun _ => Iff.rfl) fun effect he => ?_
    rw [hhistory] at he
    exact he

theorem Explained.commit {t' : CommitThread R B} (h : Explained blk codeOf base σ)
    (hcore : Core σ) (hstep : CommitStep blk σ.shared σ.commit s' t') :
    Explained blk codeOf base { σ with shared := s', commit := t' } := by
  obtain ⟨-, hstates, hhistory, hmv, -, hresults⟩ := hstep.columns
  have hk : σ.shared.Keeps σ.finality.idx s' σ.finality.idx := by
    refine ⟨.of_same hmv ?_ fun t => by rw [hstates], fun l u _ => by rw [hmv], Nat.le_refl _⟩
    rw [hhistory]
    exact .refl _
  have hcolumn : ∀ t, s'.txResults t = σ.shared.txResults t →
      s'.column t = σ.shared.column t := by
    intro t hres
    simp only [Shared.column, hmv, hhistory, hstates, hres]
  -- a taken result belongs to a final transaction
  have htaken : ∀ t, s'.txResults t = σ.shared.txResults t ∨
      (σ.shared.txStates t).status = .finality ∧ s'.txResults t = none := by
    intro t
    rcases hresults with heq | ⟨⟨previous, hpc⟩, heq⟩
    · exact .inl (congrFun heq t)
    · by_cases ht : t = σ.commit.idx
      · subst ht
        exact .inr ⟨(hcore.final _).mpr (hcore.taking_lt hpc), by rw [heq, Function.update_self]⟩
      · exact .inl (by rw [heq, Function.update_of_ne ht])
  refine ⟨fun w v pc hw => ?_, fun t => ?_⟩
  · have hv : (σ.workers w).owned = some v := by rw [hw]; rfl
    rcases htaken v.txid with hres | ⟨hfinal, -⟩
    · exact (h.exec w v pc hw).keeps hk (hcolumn _ hres)
    · exact absurd hfinal (hcore.owned_not_final hv)
  · rcases htaken t with hres | ⟨-, hnone⟩
    · exact (h.result t).same hk (hcolumn t hres)
    · intro _ r x hr
      simp only [hnone] at hr
      cases hr

theorem explained_initial (backing : B.State) :
    Explained blk codeOf base (initial backing : SchedulerState W R B) :=
  ⟨nofun, fun _ => resultExplained_of_unsettled rfl⟩

theorem Explained.step [DecidableEq W] {a : Action W} (h : Explained blk codeOf base σ)
    (hcore : Core σ) (hstart : base.StartOf blk) (hprop : ∀ t, (blk.spec t).Propagates faults)
    (haccesses : AccessesOk blk codeOf base faults σ a)
    (hs : Grevm.step blk σ a = some σ') : Explained blk codeOf base σ' := by
  rcases step_threads hs with ⟨w, shared, pc, ha, hw, rfl⟩ | ⟨shared, t', hf, rfl⟩ |
    ⟨shared, t', -, hc, rfl⟩
  · exact h.worker hcore hstart hprop ha haccesses hw
  · exact h.finality hcore hf
  · exact h.commit hcore hc

end

end Grevm
