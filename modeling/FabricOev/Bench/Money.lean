import FabricOev.Bench.Operations
import FabricOev.Bench.ReplayJobs

/-!
# Money accounting

The money in a database is the integer sum of the balances of its accounts. An operation
that names two accounts reads both before it writes either, so for one account given twice
the record of the receiver replaces that of the sender; balances wrap; and a new account
replaces an old one without looking. Where none of this happens, an operation changes the
sum by its amounts and by nothing else.
-/

namespace FabricOev.Bench

open Go Ledger Lib List FinMap Option Int64

def AccountRecord.money (acc : AccountRecord) : ℤ := acc.checking.toInt + acc.savings.toInt

/-- What an entry of the database counts: the balances of an account, else nothing. -/
def entryMoney (k : CompositeKey) (v : VersionedValue) : ℤ :=
  if k.ns = ccSmallBank ∧ str "account:" <+: k.key then
    (AccountRecord.unmarshal v.value).elim 0 AccountRecord.money
  else 0

def money (db : StateDb) : ℤ := total entryMoney db.state

def worth (db : View) (id : GoString) : ℤ :=
  ((db (sbKey id)).bind AccountRecord.unmarshal).elim 0 AccountRecord.money

variable {db : View} {k k' : GoString}

theorem HasAccount.worth_eq {id : GoString} {acc : AccountRecord} (h : HasAccount db id acc) :
    worth db id = acc.money := by
  obtain ⟨data, hd, hacc⟩ := h
  rw [worth, hd, bind_some, hacc]
  rfl

theorem entryMoney_account (id : GoString) (v : VersionedValue) :
    entryMoney ⟨ccSmallBank, sbKey id⟩ v =
      (AccountRecord.unmarshal v.value).elim 0 AccountRecord.money :=
  if_pos ⟨rfl, prefix_append _ _⟩

theorem worth_eq_entry (a : StateDbAdapter) (id : GoString) :
    worth (a.getState ccSmallBank) id =
      (a.flush.state[CompositeKey.mk ccSmallBank (sbKey id)]?).elim 0
        (entryMoney ⟨ccSmallBank, sbKey id⟩) := by
  rw [worth, getState_eq_flush, StateDb.getState]
  cases a.flush.state[CompositeKey.mk ccSmallBank (sbKey id)]? with
  | none => rfl
  | some v => exact (entryMoney_account id v).symm

/-- Storing a record exchanges what its key was worth for the record's balances. -/
theorem money_putState (a : StateDbAdapter) (id : GoString) (acc : AccountRecord) :
    money (a.putState ccSmallBank (sbKey id) acc.marshal).flush =
      money a.flush - worth (a.getState ccSmallBank) id + acc.money := by
  rw [money, flush_putState, total_insert, ← worth_eq_entry, entryMoney_account,
    AccountRecord.unmarshal_marshal]
  rfl

theorem toList_insert_empty (k : GoString) (v : Bytes) :
    ((∅ : WriteMap).insert k v).toList = [(k, v)] := by
  have hself : ((∅ : WriteMap).insert k v)[k]? = some v := by simp
  have hp := toList_perm_cons_others hself
  exact perm_singleton.mp (hp.trans ((others_insert_perm ∅ k v).cons _))

theorem toList_insert_insert (v v' : Bytes) (h : k ≠ k') :
    (((∅ : WriteMap).insert k v).insert k' v').toList.Perm [(k', v'), (k, v)] := by
  have hself : (((∅ : WriteMap).insert k v).insert k' v')[k']? = some v' := by simp
  have hp := toList_perm_cons_others hself
  have hothers : others ((∅ : WriteMap).insert k v) k' = [(k, v)] := by
    rw [others, toList_insert_empty]
    simp [h]
  exact hp.trans ((hothers ▸ others_insert_perm _ k' v').cons _)

theorem insert_insert_self (k : GoString) (v v' : Bytes) :
    ((∅ : WriteMap).insert k v).insert k v' = (∅ : WriteMap).insert k v' := by
  apply Std.ExtTreeMap.ext_getElem?
  intro x
  by_cases hx : k = x
  · simp [hx]
  · simp [hx]

theorem putWrites_insert (a : StateDbAdapter) (k : GoString) (v : Bytes) :
    putWrites ccSmallBank ((∅ : WriteMap).insert k v).toList a = a.putState ccSmallBank k v := by
  rfl

theorem putWrites_insert_insert (a : StateDbAdapter) (v v' : Bytes) (h : k ≠ k') :
    putWrites ccSmallBank (((∅ : WriteMap).insert k v).insert k' v').toList a =
      (a.putState ccSmallBank k' v').putState ccSmallBank k v := by
  have hd := pairwise_ne_toList (((∅ : WriteMap).insert k v).insert k' v')
  rw [putWrites_eq, adapterStore.putAll_perm (inNamespace_perm (toList_insert_insert v v' h))
    (inNamespace_pairwise hd)]
  rfl

theorem money_putState_two (a : StateDbAdapter) {src dst : GoString} (acc acc' : AccountRecord)
    (h : sbKey src ≠ sbKey dst) :
    money (putWrites ccSmallBank (((∅ : WriteMap).insert (sbKey src) acc.marshal).insert
        (sbKey dst) acc'.marshal).toList a).flush =
      money a.flush - worth (a.getState ccSmallBank) src - worth (a.getState ccSmallBank) dst +
        acc.money + acc'.money := by
  have hsrc : (a.putState ccSmallBank (sbKey dst) acc'.marshal).getState ccSmallBank (sbKey src) =
      a.getState ccSmallBank (sbKey src) :=
    adapterStore.get_put_ne a ⟨ccSmallBank, sbKey dst⟩ ⟨ccSmallBank, sbKey src⟩ _
      fun he => h (congrArg CompositeKey.key he).symm
  have hworth : worth ((a.putState ccSmallBank (sbKey dst) acc'.marshal).getState ccSmallBank) src =
      worth (a.getState ccSmallBank) src := by
    rw [worth, hsrc]
    rfl
  rw [putWrites_insert_insert a _ _ h, money_putState, hworth, money_putState]
  ring

/-! ## Machine integers -/

def FitsInt64 (z : ℤ) : Prop := -2 ^ 63 ≤ z ∧ z < 2 ^ 63

theorem toInt_ofInt_eq_iff (z : ℤ) : (ofInt z).toInt = z ↔ FitsInt64 z := by
  constructor
  · intro h
    rw [← h]
    exact ⟨le_toInt _, toInt_lt _⟩
  · intro h
    obtain ⟨hle, hlt⟩ := h
    have hsize : (size : ℤ) = 2 ^ 64 := rfl
    rw [toInt_ofInt]
    apply Int.bmod_eq_of_le
    · omega
    · omega

variable (x y : Int64)

theorem add_eq_ofInt : x + y = ofInt (x.toInt + y.toInt) := by
  rw [ofInt_add, ofInt_toInt, ofInt_toInt]

theorem sub_eq_ofInt : x - y = ofInt (x.toInt - y.toInt) := by
  rw [ofInt_sub, ofInt_toInt, ofInt_toInt]

theorem toInt_add_eq_iff : (x + y).toInt = x.toInt + y.toInt ↔ FitsInt64 (x.toInt + y.toInt) := by
  rw [add_eq_ofInt, toInt_ofInt_eq_iff]

theorem toInt_sub_eq_iff : (x - y).toInt = x.toInt - y.toInt ↔ FitsInt64 (x.toInt - y.toInt) := by
  rw [sub_eq_ofInt, toInt_ofInt_eq_iff]

namespace SbOp

/-- The amounts pass the sign checks of the contract, which looks at no sign in
`TransactSavings`. -/
def Signed : SbOp → Prop
  | .createAccount _ _ checking savings => 0 ≤ checking ∧ 0 ≤ savings
  | .depositChecking _ amount => 0 ≤ amount
  | .transactSavings _ _ => True
  | .writeCheck _ amount => 0 ≤ amount
  | .amalgamate _ _ => True
  | .sendPayment _ _ amount => 0 ≤ amount
  | .balance => True

/-- A check that is not covered costs one unit more. -/
def penalty (db : View) (id : GoString) (amount : Int64) : ℤ :=
  if worth db id < amount.toInt then 1 else 0

/-- The money an operation should bring in. -/
def change (db : View) : SbOp → ℤ
  | .createAccount _ _ checking savings => checking.toInt + savings.toInt
  | .depositChecking _ amount => amount.toInt
  | .transactSavings _ amount => amount.toInt
  | .writeCheck id amount => -(amount.toInt + penalty db id amount)
  | .amalgamate _ _ => 0
  | .sendPayment _ _ _ => 0
  | .balance => 0

/-- The new balance fits, the cover of a check is compared exactly, two accounts have two keys
unless nothing moves, and a new account replaces no money. -/
def Exact (db : View) : SbOp → Prop
  | .createAccount id _ _ _ => worth db id = 0
  | .depositChecking id amount =>
    ∀ acc, HasAccount db id acc → FitsInt64 (acc.checking.toInt + amount.toInt)
  | .transactSavings id amount =>
    ∀ acc, HasAccount db id acc → FitsInt64 (acc.savings.toInt + amount.toInt)
  | .writeCheck id amount => ∀ acc, HasAccount db id acc → (acc.checking + acc.savings < amount ↔
      acc.checking.toInt + acc.savings.toInt < amount.toInt) ∧
    FitsInt64 (acc.checking.toInt - (amount.toInt + penalty db id amount))
  | .amalgamate src dst => ∀ acc, HasAccount db src acc → ∀ acc', HasAccount db dst acc' →
    if sbKey src = sbKey dst then acc.checking + acc.savings = 0
    else FitsInt64 (acc'.checking.toInt + (acc.checking.toInt + acc.savings.toInt))
  | .sendPayment src dst amount => ∀ acc', HasAccount db dst acc' →
    if sbKey src = sbKey dst then amount = 0
    else FitsInt64 (acc'.checking.toInt + amount.toInt)
  | .balance => True

end SbOp

theorem HasAccount.forall_iff {id : GoString} {acc : AccountRecord} (h : HasAccount db id acc)
    {P : AccountRecord → Prop} :
    (∀ acc', HasAccount db id acc' → P acc') ↔ P acc := by
  constructor
  · intro hall
    exact hall acc h
  · intro hp acc' h'
    exact h.unique h' ▸ hp

section Step

variable {a : StateDbAdapter} {id src dst : GoString} {acc acc' : AccountRecord} {amount : Int64}
  {r : AccountRecord × AccountRecord}

theorem money_one_iff (h : HasAccount (a.getState ccSmallBank) id acc) (d : ℤ) :
    money (putWrites ccSmallBank ((∅ : WriteMap).insert (sbKey id) acc'.marshal).toList a).flush =
        money a.flush + d ↔ acc'.money = acc.money + d := by
  rw [putWrites_insert, money_putState, h.worth_eq]
  omega

theorem money_two_iff (hs : HasAccount (a.getState ccSmallBank) src acc)
    (hd : HasAccount (a.getState ccSmallBank) dst acc') (hne : sbKey src ≠ sbKey dst)
    (r : AccountRecord × AccountRecord) :
    money (putWrites ccSmallBank (((∅ : WriteMap).insert (sbKey src) r.1.marshal).insert
        (sbKey dst) r.2.marshal).toList a).flush = money a.flush + 0 ↔
      r.1.money + r.2.money = acc.money + acc'.money := by
  rw [money_putState_two a r.1 r.2 hne, hs.worth_eq, hd.worth_eq]
  omega

/-- One account given twice: only the receiver's record is stored. -/
theorem money_same_iff (hd : HasAccount (a.getState ccSmallBank) dst acc')
    (he : sbKey src = sbKey dst) (r : AccountRecord × AccountRecord) :
    money (putWrites ccSmallBank (((∅ : WriteMap).insert (sbKey src) r.1.marshal).insert
        (sbKey dst) r.2.marshal).toList a).flush = money a.flush + 0 ↔
      r.2.money = acc'.money := by
  rw [he, insert_insert_self, money_one_iff hd, add_zero]

theorem HasAccount.eq_of_key (hs : HasAccount db src acc) (hd : HasAccount db dst acc')
    (he : sbKey src = sbKey dst) : acc = acc' := by
  obtain ⟨data, hdata, hacc⟩ := hs
  exact HasAccount.unique ⟨data, he ▸ hdata, hacc⟩ hd

theorem depositChecking_money (hf : depositChecking acc amount = .ok acc') :
    acc'.money = acc.money + amount.toInt ↔ FitsInt64 (acc.checking.toInt + amount.toInt) := by
  cases hf
  rw [← toInt_add_eq_iff, AccountRecord.money, AccountRecord.money]
  dsimp only
  omega

theorem transactSavings_money (hf : transactSavings acc amount = .ok acc') :
    acc'.money = acc.money + amount.toInt ↔ FitsInt64 (acc.savings.toInt + amount.toInt) := by
  unfold transactSavings at hf
  split at hf
  · cases hf
  · cases hf
    rw [← toInt_add_eq_iff, AccountRecord.money, AccountRecord.money]
    dsimp only
    omega

/-- The cost of a check is taken modulo `2 ^ 64`: a wrong penalty never cancels. -/
theorem writeCheck_money {p : ℤ} (hp : p = if acc.money < amount.toInt then 1 else 0)
    (hf : writeCheck acc amount = .ok acc') :
    acc'.money = acc.money + -(amount.toInt + p) ↔ (acc.checking + acc.savings < amount ↔
        acc.checking.toInt + acc.savings.toInt < amount.toInt) ∧
      FitsInt64 (acc.checking.toInt - (amount.toInt + p)) := by
  have hone : (1 : Int64).toInt = 1 := rfl
  have hcost : acc'.checking = ofInt (acc.checking.toInt -
        (amount.toInt + if acc.checking + acc.savings < amount then 1 else 0)) ∧
      acc'.savings = acc.savings := by
    unfold writeCheck at hf
    split_ifs at hf with hlt
    · cases hf
      refine ⟨?_, rfl⟩
      rw [if_pos hlt, ofInt_sub, ofInt_add, ofInt_toInt, ofInt_toInt]
      rfl
    · cases hf
      refine ⟨?_, rfl⟩
      rw [if_neg hlt, add_zero, ← sub_eq_ofInt]
  have hsum : acc'.money = acc.money + -(amount.toInt + p) ↔
      acc'.checking.toInt = acc.checking.toInt - (amount.toInt + p) := by
    rw [AccountRecord.money, AccountRecord.money, hcost.2]
    omega
  rw [hsum, hcost.1]
  by_cases hiff : acc.checking + acc.savings < amount ↔
      acc.checking.toInt + acc.savings.toInt < amount.toInt
  · have hp' : p = if acc.checking + acc.savings < amount then 1 else 0 := by
      rw [hp]
      exact if_congr hiff.symm rfl rfl
    rw [← hp', toInt_ofInt_eq_iff]
    exact (and_iff_right hiff).symm
  · refine iff_of_false (fun he => ?_) fun h => hiff h.1
    have hsize : (size : ℤ) = 2 ^ 64 := rfl
    rw [toInt_ofInt, Int.bmod_eq_iff (by decide)] at he
    obtain ⟨-, -, hdvd⟩ := he
    rw [hsize] at hdvd
    have hcases : p = 1 ∧ ¬ acc.checking + acc.savings < amount ∨
        p = 0 ∧ acc.checking + acc.savings < amount := by
      unfold AccountRecord.money at hp
      by_cases hlt : acc.checking + acc.savings < amount
      · refine .inr ⟨?_, hlt⟩
        rw [hp, if_neg fun h => hiff (iff_of_true hlt h)]
      · refine .inl ⟨?_, hlt⟩
        rw [hp, if_pos (not_not.mp fun h => hiff (iff_of_false hlt h))]
    obtain ⟨rfl, hlt⟩ | ⟨rfl, hlt⟩ := hcases
    · rw [if_neg hlt] at hdvd
      omega
    · rw [if_pos hlt] at hdvd
      omega

theorem amalgamate_money (hf : amalgamate acc acc' = .ok r) :
    r.1.money + r.2.money = acc.money + acc'.money ↔
      FitsInt64 (acc'.checking.toInt + (acc.checking.toInt + acc.savings.toInt)) := by
  cases hf
  have hsum : acc'.checking + (acc.checking + acc.savings) =
      ofInt (acc'.checking.toInt + (acc.checking.toInt + acc.savings.toInt)) := by
    rw [ofInt_add, ofInt_add, ofInt_toInt, ofInt_toInt, ofInt_toInt]
  have hzero : (0 : Int64).toInt = 0 := rfl
  rw [← toInt_ofInt_eq_iff, ← hsum]
  simp only [AccountRecord.money, hzero]
  omega

theorem amalgamate_self_money (hf : amalgamate acc acc = .ok r) :
    r.2.money = acc.money ↔ acc.checking + acc.savings = 0 := by
  cases hf
  have hcancel : acc.checking + (acc.checking + acc.savings) = acc.checking ↔
      acc.checking + acc.savings = 0 := add_eq_left
  rw [← hcancel, ← toInt_inj, AccountRecord.money, AccountRecord.money]
  dsimp only
  omega

/-- What the sender has covers the payment, so only the receiver's balance can wrap. -/
theorem sendPayment_money (hpos : 0 ≤ amount) (hf : sendPayment amount acc acc' = .ok r) :
    r.1.money + r.2.money = acc.money + acc'.money ↔
      FitsInt64 (acc'.checking.toInt + amount.toInt) := by
  unfold sendPayment at hf
  split at hf
  · cases hf
  · rename_i hle
    cases hf
    have hzero : (0 : Int64).toInt = 0 := rfl
    have hpos' := le_iff_toInt_le.mp hpos
    have hle' := Int64.le_iff_toInt_le.mp (Int64.not_lt.mp hle)
    have hlt := toInt_lt acc.checking
    have hsub : (acc.checking - amount).toInt = acc.checking.toInt - amount.toInt := by
      apply (toInt_sub_eq_iff _ _).mpr
      constructor
      · omega
      · omega
    rw [← toInt_add_eq_iff]
    simp only [AccountRecord.money, hsub]
    omega

theorem sendPayment_self_money (hf : sendPayment amount acc acc = .ok r) :
    r.2.money = acc.money ↔ amount = 0 := by
  unfold sendPayment at hf
  split at hf
  · cases hf
  · cases hf
    have hcancel : acc.checking + amount = acc.checking ↔ amount = 0 := add_eq_left
    rw [← hcancel, ← toInt_inj, AccountRecord.money, AccountRecord.money]
    dsimp only
    omega

/-- A replayed operation changes the money by its amounts exactly under its condition. -/
theorem SbOp.money_iff {op : SbOp} {ws : WriteMap} (hop : op.Performs (a.getState ccSmallBank) ws)
    (hsigned : op.Signed) :
    money (putWrites ccSmallBank ws.toList a).flush =
        money a.flush + op.change (a.getState ccSmallBank) ↔
      op.Exact (a.getState ccSmallBank) := by
  cases hop with
  | @createAccount id name n n' =>
    rw [putWrites_insert, money_putState]
    show _ = money a.flush + (n.toInt + n'.toInt) ↔ worth (a.getState ccSmallBank) id = 0
    rw [AccountRecord.money]
    dsimp only
    omega
  | depositChecking hacc hf =>
    simp only [SbOp.Exact, hacc.forall_iff]
    exact (money_one_iff hacc _).trans (depositChecking_money hf)
  | transactSavings hacc hf =>
    simp only [SbOp.Exact, hacc.forall_iff]
    exact (money_one_iff hacc _).trans (transactSavings_money hf)
  | @writeCheck id n acc acc' hacc hf =>
    have hp : SbOp.penalty (a.getState ccSmallBank) id n =
        if acc.money < n.toInt then 1 else 0 := by
      rw [SbOp.penalty, hacc.worth_eq]
    simp only [SbOp.Exact, hacc.forall_iff]
    exact (money_one_iff hacc _).trans (writeCheck_money hp hf)
  | @amalgamate src dst acc acc' r hs hd hf =>
    simp only [SbOp.Exact, hs.forall_iff, hd.forall_iff]
    by_cases he : sbKey src = sbKey dst
    · obtain rfl := hs.eq_of_key hd he
      rw [if_pos he]
      exact (money_same_iff hd he r).trans (amalgamate_self_money hf)
    · rw [if_neg he]
      exact (money_two_iff hs hd he r).trans (amalgamate_money hf)
  | @sendPayment src dst n acc acc' r hs hd hf =>
    simp only [SbOp.Exact, hd.forall_iff]
    by_cases he : sbKey src = sbKey dst
    · obtain rfl := hs.eq_of_key hd he
      rw [if_pos he]
      exact (money_same_iff hd he r).trans (sendPayment_self_money hf)
    · rw [if_neg he]
      exact (money_two_iff hs hd he r).trans (sendPayment_money hsigned hf)
  | balance =>
    show money (putWrites ccSmallBank [] a).flush = money a.flush + 0 ↔ True
    rw [add_zero]
    exact iff_of_true rfl trivial

end Step

/-! ## Runs -/

abbrev SbCall := GoString × List GoString

def replayCall (order : WriteMap → List (GoString × Bytes)) (a : StateDbAdapter) (c : SbCall) :
    StateDbAdapter :=
  mergeReplay order a a (some ⟨ccSmallBank, c.1, c.2⟩)

section Runs

variable (order : WriteMap → List (GoString × Bytes)) {c : SbCall} {op : SbOp}

/-- Something holds of every call, on the state it is replayed on. -/
def AlongRun (P : StateDbAdapter → SbCall → Prop) : StateDbAdapter → List SbCall → Prop
  | _, [] => True
  | a, c :: cs => P a c ∧ AlongRun P (replayCall order a c) cs

def CallSucceeds (a : StateDbAdapter) (c : SbCall) : Prop :=
  (Invocation.replay ⟨ccSmallBank, c.1, c.2⟩ a).isSome = true

instance (a : StateDbAdapter) (c : SbCall) : Decidable (CallSucceeds a c) :=
  inferInstanceAs (Decidable (_ = true))

def CallSigned (c : SbCall) : Prop := ∀ op, SbOp.parse c.1 c.2 = some op → op.Signed

def CallExact (a : StateDbAdapter) (c : SbCall) : Prop :=
  ∀ op, SbOp.parse c.1 c.2 = some op → op.Exact (a.getState ccSmallBank)

theorem callSigned_iff (h : SbOp.parse c.1 c.2 = some op) : CallSigned c ↔ op.Signed := by
  rw [CallSigned, h]
  simp

variable {a : StateDbAdapter}

theorem callExact_iff (h : SbOp.parse c.1 c.2 = some op) :
    CallExact a c ↔ op.Exact (a.getState ccSmallBank) := by
  rw [CallExact, h]
  simp

def callChange (a : StateDbAdapter) (c : SbCall) : ℤ :=
  (SbOp.parse c.1 c.2).elim 0 (SbOp.change (a.getState ccSmallBank))

def runChange : StateDbAdapter → List SbCall → ℤ
  | _, [] => 0
  | a, c :: cs => callChange a c + runChange (replayCall order a c) cs

variable {order}

/-- One replayed call, whatever order its write map is ranged over in. -/
theorem money_replayCall_iff (ho : ∀ m, (order m).Perm m.toList) (hc : CallSucceeds a c)
    (hsigned : CallSigned c) :
    money (replayCall order a c).flush = money a.flush + callChange a c ↔ CallExact a c := by
  obtain ⟨ws, hws⟩ := isSome_iff_exists.mp hc
  have hput : replayCall order a c = putWrites ccSmallBank ws.toList a := by
    rw [replayCall, mergeReplay_eq ho, Store.merge, invJob, bind_some, hws, putWrites_eq]
    rfl
  have hok : replaySmallBank (a.getState ccSmallBank) c.1 c.2 = .ok ws :=
    Invocation.replay_eq_some.mp hws
  obtain ⟨op, hop, hperf⟩ := smallBank_performs hok
  rw [hput, callExact_iff hop, callChange, hop]
  exact SbOp.money_iff hperf (hsigned op hop)

/-- Over a run of replayed operations whose amounts passed the sign checks, the money is at
every point what the amounts make it, exactly if every call meets its condition. -/
theorem money_accounting (ho : ∀ m, (order m).Perm m.toList) (a : StateDbAdapter)
    (calls : List SbCall) (hrun : AlongRun order CallSucceeds a calls)
    (hsigned : ∀ c ∈ calls, CallSigned c) :
    (∀ cs, cs <+: calls →
        money (cs.foldl (replayCall order) a).flush = money a.flush + runChange order a cs) ↔
      AlongRun order CallExact a calls := by
  induction calls generalizing a with
  | nil =>
    refine iff_of_true (fun cs hcs => ?_) trivial
    obtain rfl := prefix_nil.mp hcs
    exact (add_zero _).symm
  | cons c calls ih =>
    obtain ⟨hc, hrun⟩ := hrun
    have hstep := money_replayCall_iff ho hc (hsigned c (by simp))
    have hrest := ih (replayCall order a c) hrun fun c' hc' => hsigned c' (mem_cons_of_mem _ hc')
    constructor
    · intro h
      have hone := h [c] (prefix_append [c] calls)
      have hexact : money (replayCall order a c).flush = money a.flush + callChange a c := by
        simpa [runChange] using hone
      refine ⟨hstep.mp hexact, hrest.mp fun cs hcs => ?_⟩
      have hcs' := h (c :: cs) (cons_prefix_cons.mpr ⟨rfl, hcs⟩)
      rw [foldl_cons, runChange, ← add_assoc, ← hexact] at hcs'
      exact hcs'
    · intro h cs hcs
      obtain ⟨hexact, hexacts⟩ := h
      cases cs with
      | nil => exact (add_zero _).symm
      | cons c' cs =>
        obtain ⟨rfl, hcs'⟩ := cons_prefix_cons.mp hcs
        rw [foldl_cons, hrest.mpr hexacts cs hcs', hstep.mpr hexact, runChange, add_assoc]

end Runs

def freshAdapter : StateDbAdapter := .new .empty 1 1

def createCall : SbCall := (str "CreateAccount", [str "a", str "n", str "10", str "2"])

theorem parse_createCall : SbOp.parse createCall.1 createCall.2 =
    some (.createAccount (str "a") (str "n") 10 2) := by decide +kernel

theorem callSigned_createCall : CallSigned createCall :=
  (callSigned_iff parse_createCall).mpr ⟨by decide, by decide⟩

def depositCall : SbCall := (str "DepositChecking", [str " a", str "5"])

/-- Create an account and pay five into it. -/
theorem create_and_deposit_accounted :
    money ([createCall, depositCall].foldl (replayCall fun m => m.toList) freshAdapter).flush =
      17 := by
  have hrun : AlongRun (fun m => m.toList) CallSucceeds freshAdapter [createCall, depositCall] :=
    ⟨by decide +kernel, by decide +kernel, trivial⟩
  have hparse : SbOp.parse depositCall.1 depositCall.2 = some (.depositChecking (str " a") 5) := by
    decide +kernel
  have hsigned : ∀ c ∈ [createCall, depositCall], CallSigned c := by
    simp only [forall_mem_cons, not_mem_nil, false_imp_iff, implies_true, and_true]
    exact ⟨callSigned_createCall, (callSigned_iff hparse).mpr (by decide : (0 : Int64) ≤ 5)⟩
  have hworth : worth (freshAdapter.getState ccSmallBank) (str "a") = 0 := by decide +kernel
  have hacc : HasAccount ((replayCall (fun m => m.toList) freshAdapter createCall).getState
      ccSmallBank) (str " a") ⟨str "a", str "n", 10, 2⟩ :=
    ⟨AccountRecord.marshal ⟨str "a", str "n", 10, 2⟩, by decide +kernel, by decide +kernel⟩
  have hexact : AlongRun (fun m => m.toList) CallExact freshAdapter [createCall, depositCall] :=
    ⟨(callExact_iff parse_createCall).mpr hworth,
      (callExact_iff hparse).mpr (hacc.forall_iff.mpr ⟨by decide, by decide⟩), trivial⟩
  have h := (money_accounting (fun m => List.Perm.refl m.toList) freshAdapter
    [createCall, depositCall] hrun hsigned).mpr hexact _ (prefix_refl _)
  have hstart : money freshAdapter.flush = 0 := by decide +kernel
  have hchange : runChange (fun m => m.toList) freshAdapter [createCall, depositCall] = 17 := by
    decide +kernel
  rfl

def selfPaymentCall : SbCall := (str "SendPayment", [str "a", str " a", str "5"])

/-- An account pays five to itself, its id once with a blank: the five are created. -/
theorem self_payment_creates_money :
    AlongRun (fun m => m.toList) CallSucceeds freshAdapter [createCall, selfPaymentCall] ∧
      (∀ c ∈ [createCall, selfPaymentCall], CallSigned c) ∧
      runChange (fun m => m.toList) freshAdapter [createCall, selfPaymentCall] = 12 ∧
      money freshAdapter.flush = 0 ∧
      money ([createCall, selfPaymentCall].foldl (replayCall fun m => m.toList)
        freshAdapter).flush = 17 := by
  have hparse : SbOp.parse selfPaymentCall.1 selfPaymentCall.2 =
      some (.sendPayment (str "a") (str " a") 5) := by decide +kernel
  refine ⟨⟨by decide +kernel, by decide +kernel, trivial⟩, ?_, by decide +kernel,
    by decide +kernel, by decide +kernel⟩
  simp only [forall_mem_cons, not_mem_nil, false_imp_iff, implies_true, and_true]
  exact ⟨callSigned_createCall, (callSigned_iff hparse).mpr (by decide : (0 : Int64) ≤ 5)⟩

end FabricOev.Bench
