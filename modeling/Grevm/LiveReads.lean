/-
Grevm.LiveReads — reads of a database that is being committed to.

The ordered commit changes the backing database while later transactions
are executed over it, so that a read without a preceding write does not
always find the account of the block's start. It may find it with its
code loaded, since a commit stores the account as the execution has left
it; the EVM observes the code of the hash either way. Or it finds what a
final transaction has written between the look-up in the multi-version
memory and the call. `CallPc.Served` says that nothing else happens.

With code that is loaded or not, an answer does not follow from the
observations alone: a view may hold code for the address that nobody has
looked up. `Vouched` asks only the views in which code is sound, as that
of a transaction after a serial prefix is. `callStep_vouches` is the step
of a state read: its answer is vouched for, or the read set holds a
location as unwritten that is written.
-/
import Grevm.Sequential

namespace Grevm

variable {Err : Type} {B : Backing Err}

/-! ## Sound views -/

/-- The code a view finds for an account is the one of its hash. -/
def View.CodeSound (codeOf : B256 → Bytecode) (V : View Err) : Prop :=
  ∀ address info, V.account address = .ok (some info) → info.isEmptyCodeHash = false →
    V.codeByAddress address info.codeHash = .ok (codeOf info.codeHash) ∧
      ∀ code, info.code = some code → code = codeOf info.codeHash

theorem ViewAgrees.codeSound {codeOf : B256 → Bytecode} {V : View Err} {p : Address → Plain Err}
    (h : ViewAgrees codeOf V p) : V.CodeSound codeOf :=
  fun address => (h.account address).code

/-- Every sound view that explains the observations gives the answer. -/
def Vouched (base : Base Err) (codeOf : B256 → Bytecode) (obs : Observations) (call : Call)
    (value : Value) : Prop :=
  ∀ V : View Err, Explains base obs V → V.CodeSound codeOf → V.eval call = .ok value

section

variable {base : Base Err} {codeOf : B256 → Bytecode} {obs obs' : Observations} {V : View Err}
  {address : Address} {call : Call} {value : Value}

/-- In a sound view an account is observed with the code of its hash. -/
theorem View.CodeSound.eval (h : V.CodeSound codeOf) (address : Address) :
    V.eval (.basic address) =
      ((V.account address).map (Option.map (AccountInfo.observed codeOf))).map .account := by
  have hagree : AccountAgrees codeOf V ⟨V.account address, V.storageAt address⟩ address :=
    ⟨rfl, h address⟩
  exact hagree.eval

theorem Vouched.mono (h : Vouched base codeOf obs call value) (hsub : obs ⊆ obs') :
    Vouched base codeOf obs' call value :=
  fun V hV => h V (hV.mono hsub)

theorem Justified.vouched (h : Justified base obs call value) :
    Vouched base codeOf obs call value :=
  fun V hV _ => h V hV

/-- An account is observed as another one that differs in loaded code
only. -/
theorem View.CodeSound.eval_of_bare (h : V.CodeSound codeOf) (account : Option AccountInfo)
    (hbare : (V.account address).map (Option.map AccountInfo.bare) =
      .ok (account.map AccountInfo.bare)) :
    V.eval (.basic address) = .ok (.account (account.map (AccountInfo.observed codeOf))) := by
  rw [h.eval]
  cases hfound : V.account address with
  | error e =>
    rw [hfound] at hbare
    cases hbare
  | ok found =>
    rw [hfound] at hbare
    have hobserved := congrArg (Option.map (AccountInfo.observed codeOf)) (Except.ok.inj hbare)
    rw [Option.map_map, Option.map_map] at hobserved
    exact congrArg (fun o => Except.ok (Value.account o)) hobserved

/-- The account that is left once its code field is forgotten. -/
theorem View.account_of_bare {info : AccountInfo}
    (hbare : (V.account address).map (Option.map AccountInfo.bare) = .ok (some info.bare)) :
    ∃ found, V.account address = .ok (some found) ∧ found.codeHash = info.codeHash := by
  cases hfound : V.account address with
  | error e =>
    rw [hfound] at hbare
    cases hbare
  | ok found =>
    rw [hfound] at hbare
    obtain ⟨found, rfl, heq⟩ := Option.map_eq_some_iff.mp (Except.ok.inj hbare)
    have hhash : found.bare.codeHash = info.bare.codeHash := by rw [heq]
    exact ⟨found, rfl, hhash⟩

theorem AccountInfo.isEmptyCodeHash_of_needsCode {info : AccountInfo}
    (h : info.needsCode = true) : info.isEmptyCodeHash = false := by
  simp only [needsCode, Bool.and_eq_true, Bool.not_eq_true'] at h
  exact h.1

/-- The code that a sound view finds for an account with code. -/
theorem View.CodeSound.codeByAddress (h : V.CodeSound codeOf) {info : AccountInfo}
    (hcode : info.needsCode = true)
    (hbare : (V.account address).map (Option.map AccountInfo.bare) = .ok (some info.bare)) :
    V.codeByAddress address info.codeHash = .ok (codeOf info.codeHash) := by
  obtain ⟨found, hfound, hhash⟩ := View.account_of_bare hbare
  have hempty : found.isEmptyCodeHash = false := by
    rw [AccountInfo.isEmptyCodeHash_congr hhash]
    exact AccountInfo.isEmptyCodeHash_of_needsCode hcode
  rw [← hhash]
  exact (h address found hfound hempty).1

end

/-! ## What the database may answer -/

/-- The account of the base, up to the code that is loaded with it. -/
structure Base.Gives (base : Base Err) (codeOf : B256 → Bytecode) (address : Address)
    (account : Option AccountInfo) : Prop where
  bare : (base.basic address).map (Option.map AccountInfo.bare) =
    .ok (account.map AccountInfo.bare)
  code : ∀ info code, account = some info → info.isEmptyCodeHash = false →
    info.code = some code → code = codeOf info.codeHash

/-- A value that ends a call to the backing database is the one of the
base, or a preceding transaction has written the location. The account of
the beneficiary and the code of an account without code are never asked
for. -/
def CallPc.Served (base : Base Err) (codeOf : B256 → Bytecode)
    (written : LocationAndType → Prop) (backing : B.State) : CallPc B → Prop
  | .basicBacking address pc => address ≠ base.beneficiary → ∀ backing' account,
      B.basicStep backing pc = (backing', .inr (.ok account)) →
        base.Gives codeOf address account ∨ written (.basic address)
  | .codeBacking _ info pc => info.isEmptyCodeHash = false → ∀ backing' code,
      B.codeStep backing pc = (backing', .inr (.ok code)) →
        base.code info.codeHash = .ok code ∨ code = codeOf info.codeHash
  | .storageBacking address index pc => ∀ backing' value,
      B.storageStep backing pc = (backing', .inr (.ok value)) →
        base.storage address index = .ok value ∨ written (.storage address index) ∨
          written (.storageReset address)
  | _ => True

/-- What a state read knows at each of its points; the code of an account
may have come with the account of the base. -/
def CallPc.Known (base : Base Err) (history : Nat → EntryState) (obs : Observations) :
    CallPc B → Prop
  | .codeMv address info | .codeBacking address info _ => info.needsCode = true ∧
      ∀ V : View Err, Explains base obs V →
        (V.account address).map (Option.map AccountInfo.bare) = .ok (some info.bare)
  | pc => pc.Ok base history obs

/-- What a state read comes to at one access. -/
def VouchedResult (base : Base Err) (codeOf : B256 → Bytecode) (history : Nat → EntryState)
    (obs : Observations) (call : Call) : CallPc B ⊕ Except Err Value → Prop
  | .inl pc => pc.call = call ∧ pc.Known base history obs
  | .inr (.ok value) => Vouched base codeOf obs call value
  | .inr (.error _) => True

/-- An access has added observations of what it has met, the new read set
tracks them, and they vouch for what the access came to. -/
def Vouches (base : Base Err) (codeOf : B256 → Bytecode) (mv : MVMemory)
    (history : Nat → EntryState) (txid : Nat) (obs : Observations) (readSet : ReadSet)
    (call : Call) (result : CallPc B ⊕ Except Err Value) : Prop :=
  ∃ obs', obs ⊆ obs' ∧ (∀ l o, (l, o) ∈ obs' → (l, o) ∈ obs ∨ o.Met mv txid l) ∧
    Tracks mv history readSet obs' ∧ VouchedResult base codeOf history obs' call result

section

variable {base : Base Err} {codeOf : B256 → Bytecode} {mv : MVMemory}
  {history history' : Nat → EntryState} {obs : Observations} {db db' : IncarnationDb}
  {txid : Nat} {backing backing' : B.State} {address : Address} {readSet readSet' : ReadSet}
  {call : Call} {result : CallPc B ⊕ Except Err Value}

theorem CallPc.Ok.known {pc : CallPc B} (h : pc.Ok base history obs) :
    pc.Known base history obs := by
  cases pc with
  | codeMv address info | codeBacking address info pc =>
    refine ⟨h.1, fun V hV => ?_⟩
    rw [h.2 V hV]
    rfl
  | _ => exact h

theorem CallPc.Known.moves {pc : CallPc B} (h : pc.Known base history obs)
    (hm : HistoryMoves history history') : pc.Known base history' obs := by
  cases pc with
  | codeMv address info | codeBacking address info pc => exact h
  | basicScan address scan =>
    have hok : (CallPc.basicScan address scan : CallPc B).Ok base history obs := h
    exact hok.moves hm
  | _ => exact h

theorem Observes.vouches (h : Observes base mv history txid obs readSet call result) :
    Vouches base codeOf mv history txid obs readSet call result := by
  obtain ⟨obs', hsub, hmet, htracks, hresult⟩ := h
  refine ⟨obs', hsub, hmet, htracks, ?_⟩
  cases result with
  | inl pc => exact ⟨hresult.1, CallPc.Ok.known hresult.2⟩
  | inr answer =>
    cases answer with
    | ok value => exact Justified.vouched hresult
    | error e => trivial

/-- An access that looks nothing up. -/
theorem Vouches.same (h : Tracks mv history readSet obs) (hext : readSet'.Extends readSet)
    (hr : VouchedResult base codeOf history obs call result) :
    Vouches base codeOf mv history txid obs readSet' call result :=
  ⟨obs, List.Subset.refl _, fun _ _ ho => .inl ho, h.extend hext, hr⟩

/-- An access that looks one location up. -/
theorem Vouches.cons {l : LocationAndType} {o : Observation} (h : Tracks mv history readSet obs)
    (hext : readSet'.Extends readSet) (hl : readSet'.lookup l = some o.version)
    (hmet : o.Met mv txid l) (hrec : o.Recorded mv history l)
    (hr : VouchedResult base codeOf history ((l, o) :: obs) call result) :
    Vouches base codeOf mv history txid obs readSet' call result := by
  refine ⟨_, List.subset_cons_self _ _, fun l' o' ho => ?_, h.cons hext hl hrec, hr⟩
  rcases List.mem_cons.mp ho with heq | ho
  · cases heq
    exact .inr hmet
  · exact .inl ho

/-- The account without a preceding write is the one of the base. -/
theorem View.account_of_unwritten {V : View Err} (hne : address ≠ base.beneficiary)
    (hV : Explains base ((.basic address, .ofFound none) :: obs) V) :
    V.account address = base.basic address := by
  have hlatest : V.latest (.basic address) = none := hV.head
  rw [View.account, hV.overBase.beneficiary, if_neg hne, hlatest, hV.overBase.basic]

/-- An account with loaded code is observed as one with the code of its
hash. -/
theorem AccountInfo.view_of_carried {info : AccountInfo}
    (hneeds : (!info.isEmptyCodeHash && info.code.isNone) = false)
    (hcode : ∀ code, info.isEmptyCodeHash = false → info.code = some code →
      code = codeOf info.codeHash) : info.view = info.observed codeOf := by
  cases he : info.isEmptyCodeHash with
  | true => simp [AccountInfo.view, AccountInfo.observed, he]
  | false =>
    cases hc : info.code with
    | none => simp [he, hc] at hneeds
    | some code =>
      have heq := hcode code he hc
      simp [AccountInfo.view, AccountInfo.observed, he, hc, heq]

/-- The account has been found in the database. -/
theorem vouchedResult_finishBasic {account : Option AccountInfo}
    (hbare : ∀ V : View Err, Explains base obs V →
      (V.account address).map (Option.map AccountInfo.bare) =
        .ok (account.map AccountInfo.bare))
    (hcode : ∀ info code, account = some info → info.isEmptyCodeHash = false →
      info.code = some code → code = codeOf info.codeHash) :
    VouchedResult base codeOf history obs (.basic address)
      (finishBasic address account : CallPc B ⊕ Except Err Value) := by
  cases account with
  | none => exact fun V hV hsound => hsound.eval_of_bare none (hbare V hV)
  | some info =>
    cases hneeds : (!info.isEmptyCodeHash && info.code.isNone) with
    | true =>
      rw [finishBasic, if_pos hneeds]
      exact ⟨rfl, hneeds, hbare⟩
    | false =>
      rw [finishBasic, if_neg (by simp [hneeds])]
      intro V hV hsound
      rw [hsound.eval_of_bare (some info) (hbare V hV)]
      rw [AccountInfo.view_of_carried hneeds fun code => hcode info code rfl]
      rfl

/-- Its code has been found too. -/
theorem vouchedResult_withCode {info : AccountInfo} {code : Bytecode}
    (hbare : ∀ V : View Err, Explains base obs V →
      (V.account address).map (Option.map AccountInfo.bare) = .ok (some info.bare))
    (hfound : ∀ V : View Err, Explains base obs V → V.CodeSound codeOf →
      code = codeOf info.codeHash) :
    VouchedResult base codeOf history obs (.basic address)
      (.inr (withCode info code) : CallPc B ⊕ Except Err Value) := by
  intro V hV hsound
  rw [hsound.eval_of_bare (some info) (hbare V hV)]
  obtain rfl := hfound V hV hsound
  refine congrArg (fun view => Except.ok (Value.account (some view))) (Eq.symm ?_)
  refine AccountInfo.view_of_carried (by simp) fun code _ hc => ?_
  exact (Option.some.inj hc).symm

/-- **One access of a state read.** What it has looked up is observed, and
these observations vouch for what it comes to; or it has returned a value
that a preceding transaction has written, and its read set holds the
location as unwritten. -/
theorem callStep_vouches {written : LocationAndType → Prop} {pc : CallPc B}
    (hok : pc.Known base history obs) (htracks : Tracks mv history db.readSet obs)
    (hserved : pc.Served base codeOf written backing)
    (hstep : callStep base.anchor txid mv history backing db pc = (backing', db', result))
    (hext : db'.readSet.Extends db.readSet) (hfree : db'.isBlocked = false) :
    (∃ l, written l ∧ db'.readSet.lookup l = some .storage) ∨
      Vouches base codeOf mv history txid obs db'.readSet pc.call result := by
  have hsame : Observes base mv history txid obs db'.readSet pc.call result →
      (∃ l, written l ∧ db'.readSet.lookup l = some .storage) ∨
        Vouches base codeOf mv history txid obs db'.readSet pc.call result :=
    fun h => .inr h.vouches
  cases callStep_sound hstep with
  | visit | resolve | block | basicHit | basicMiss | reset | slotHit | slotCleared | slotMiss =>
    exact hsame (callStep_observes hok htracks trivial hstep hext hfree)
  | basicMore | codeMiss | codeMore => exact .inr (.same htracks hext ⟨rfl, hok⟩)
  | basicFails | codeFails | storageFails => exact .inr (.same htracks hext trivial)
  | @basicLoads address _ _ _ _ hb hnext =>
    subst hnext
    rcases hserved hok _ _ hb with hgives | hwritten
    · refine .inr (.cons (l := .basic address) (o := .ofFound none) htracks hext
        (AList.lookup_insert _) trivial trivial (vouchedResult_finishBasic (fun V hV => ?_)
          hgives.code))
      rw [View.account_of_unwritten hok hV, hgives.bare]
    · exact .inl ⟨_, hwritten, AList.lookup_insert _⟩
  | @codeHit address info _ _ code hl hdata =>
    obtain ⟨hcode, hacc⟩ := hok
    have hmet := met_lookup mv txid (.code address)
    rw [hl] at hmet
    refine .inr (.cons htracks hext (lookup_look _ _ _) hmet hmet.recorded
      (vouchedResult_withCode (fun V hV => hacc V hV.tail) fun V hV hsound => ?_))
    have hlook : V.codeByAddress address info.codeHash = .ok code :=
      View.codeByAddress_of_memory hV hdata
    rw [hsound.codeByAddress hcode (hacc V hV.tail)] at hlook
    exact (Except.ok.inj hlook).symm
  | @codeLoads address _ _ _ _ hb =>
    obtain ⟨hcode, hacc⟩ := hok
    refine .inr (.cons (l := .code address) (o := .ofFound none) htracks hext
      (AList.lookup_insert _) trivial trivial
      (vouchedResult_withCode (fun V hV => hacc V hV.tail) fun V hV hsound => ?_))
    -- without a write the view asks the base for the code too
    have hlatest : V.latest (.code address) = none := hV.head
    have hlook := hsound.codeByAddress hcode (hacc V hV.tail)
    rw [View.codeByAddress, hlatest, hV.overBase.code] at hlook
    rcases hserved (AccountInfo.isEmptyCodeHash_of_needsCode hcode) _ _ hb with heq | heq
    · exact Except.ok.inj (heq.symm.trans hlook)
    · exact heq
  | storageMore hb =>
    refine hsame (callStep_observes hok htracks (fun _ _ hr => ?_) hstep hext hfree)
    cases hb.symm.trans hr
  | @storageLoads address index pc _ _ hb =>
    have hok : (CallPc.storageBacking address index pc : CallPc B).Ok base history obs := hok
    have hunwritten : ∀ l, (l, .memory none) ∈ obs → db.readSet.lookup l = some .storage :=
      fun l hl => htracks.version l _ hl
    rcases hserved _ _ hb with heq | hwritten | hwritten
    · refine hsame (callStep_observes hok htracks (fun _ _ hr => ?_) hstep hext hfree)
      cases hb.symm.trans hr
      exact heq.symm
    · exact .inl ⟨_, hwritten, hunwritten _ hok.2⟩
    · exact .inl ⟨_, hwritten, hunwritten _ hok.1⟩

end

end Grevm
