import FabricOev.Bench.Enabled
import FabricOev.Ledger.InvalidTransactions

/-!
# Flags of replayed transactions

A scheduled transaction is flagged valid before its replay runs, and nothing looks at the
flag again. So the flag says that the replay succeeded exactly when it does succeed: when
the operation is enabled on the state the earlier batches leave, and no lookup of a
scheduled id stops the replay of the whole block.
-/

namespace FabricOev.Ledger

open Go Protos Bench Lib Result Except List MetadataIndex Std.ExtTreeMap KvLedger StateDb

def Holds (k : CompositeKey) (a : StateDbAdapter) : Prop := (a.batch.get k.ns k.key).isSome

variable {k : CompositeKey} {a : StateDbAdapter}

theorem Holds.put (h : Holds k a) (k' : CompositeKey) (v : Bytes) :
    Holds k (adapterStore.put a k' v) := by
  show ((a.batch.insert k' ⟨some v, a.height⟩)[k]?).isSome
  rw [Std.ExtTreeMap.getElem?_insert]
  split
  · rfl
  · exact h

theorem Holds.runBatches (h : Holds k a) (bs : List (List (Option Invocation))) :
    Holds k (runBatches bs a) :=
  foldlRecOn bs _ h fun _ hacc invs _ =>
    adapterStore.parallel_invariant (fun _ k' v hk => hk.put k' v) invJob invs hacc

theorem holds_putAll {ws : List (CompositeKey × Bytes)} (hk : k ∈ ws.map (·.1))
    (a : StateDbAdapter) : Holds k (adapterStore.putAll a ws) := by
  induction ws generalizing a with
  | nil => cases hk
  | cons w ws ih =>
    rcases mem_cons.mp hk with rfl | hk
    · refine foldlRecOn ws _ ?_ fun acc hacc w' _ => hacc.put w'.1 w'.2
      show ((a.batch.insert w.1 ⟨some w.2, a.height⟩)[w.1]?).isSome
      rw [getElem?_insert_self]
      rfl
    · exact ih hk _

/-- Every write of a transaction of a batch is in the adapter after the batch. -/
theorem holds_parallel {invs : List (Option Invocation)} {inv : Invocation} (hinv : some inv ∈ invs)
    {ws : WriteMap} (hws : inv.replay a = some ws) {k : GoString} (hk : k ∈ ws) :
    Holds ⟨inv.ccName, k⟩ (adapterStore.parallel invJob invs a) := by
  obtain ⟨l1, l2, rfl⟩ := append_of_mem hinv
  have hmem : (⟨inv.ccName, k⟩ : CompositeKey) ∈ (inNamespace inv.ccName ws.toList).map (·.1) := by
    obtain ⟨v, hv⟩ := Option.isSome_iff_exists.mp (isSome_getElem?_iff_mem.mpr hk)
    have hpair : (k, v) ∈ ws.toList := mem_toList_iff_getElem?_eq_some.mpr hv
    exact mem_map.mpr ⟨_, mem_map_of_mem hpair, rfl⟩
  have hjob : invJob (some inv) a = some (inNamespace inv.ccName ws.toList) := by simp [invJob, hws]
  rw [Store.parallel, foldl_append, foldl_cons]
  refine foldlRecOn l2 _ ?_ fun acc hacc inv' _ => ?_
  · rw [Store.merge, hjob]
    exact holds_putAll hmem _
  · unfold Store.merge
    split
    · exact foldlRecOn _ _ hacc fun acc' hacc' w _ => hacc'.put w.1 w.2
    · exact hacc

/-! ## Success -/

def AdapterAfter (order : MapOrder) (block : Block) (db : StateDb) (earlier : List BatchEntry)
    (a : StateDbAdapter) : Prop :=
  replayBatches order block 0 earlier
    (StateDbAdapter.new db block.header.number block.data.length) = .ok a

/-- The invocation was found and decoded, its replay at its place returned writes, and they were
flushed. -/
def ReplaySucceeded (order : MapOrder) (block : Block) (s : BatchSchedule) (db : StateDb)
    (earlier : List BatchEntry) (id : GoString) : Prop :=
  ∃ a inv ws flushed, AdapterAfter order block db earlier a ∧
    lookupInvocation block id = .ok (some inv) ∧ inv.replay a = some ws ∧
    replaySchedule order block s db = .ok flushed ∧ ∀ k ∈ ws, Holds ⟨inv.ccName, k⟩ flushed

def LookupsReturn (block : Block) (s : BatchSchedule) : Prop :=
  ∀ id ∈ s.allTxIds, ∃ o, lookupInvocation block id = .ok o

/-- The operation of an id is enabled on the state the batches before it leave. -/
def EnabledAfter (order : MapOrder) (block : Block) (db : StateDb) (earlier : List BatchEntry)
    (id : GoString) : Prop :=
  ∃ inv, lookupInvocation block id = .ok (some inv) ∧
    ∀ a, AdapterAfter order block db earlier a → Enabled a.getState inv

section Success

variable {order : MapOrder} {block : Block} {s : BatchSchedule} {db : StateDb}
  {earlier : List BatchEntry} {later : List BatchEntry} {e : BatchEntry}

theorem lookupBatches_isOk {es : List BatchEntry} :
    (∃ bs, lookupBatches block es = .ok bs) ↔
      ∀ e ∈ es, ∀ id ∈ e.txIds, ∃ o, lookupInvocation block id = .ok o := by
  simp only [lookupBatches, mapM_isOk]

theorem lookupsReturn_iff :
    LookupsReturn block s ↔ ∃ bs, lookupBatches block s.batches = .ok bs := by
  simp only [LookupsReturn, BatchSchedule.mem_allTxIds, lookupBatches_isOk]
  constructor
  · exact fun h e he id hid => h id ⟨e, he, hid⟩
  · exact fun h id ⟨e, he, hid⟩ => h e he id hid

theorem adapterAfter_iff :
    AdapterAfter order block db earlier a ↔ ∃ bs, lookupBatches block earlier = .ok bs ∧
      runBatches bs (StateDbAdapter.new db block.header.number block.data.length) = a := by
  rw [AdapterAfter, replayBatches_eq]
  cases lookupBatches block earlier with
  | error f | ok bs => simp [Except.map]

theorem replaySchedule_split (order : MapOrder) (db : StateDb)
    (hs : s.batches = earlier ++ e :: later) (h : LookupsReturn block s) :
    ∃ a invs bs, AdapterAfter order block db earlier a ∧
      e.txIds.mapM (lookupInvocation block) = .ok invs ∧
      replaySchedule order block s db =
        .ok (runBatches bs (adapterStore.parallel invJob invs a)) := by
  have hret := lookupBatches_isOk.mp (lookupsReturn_iff.mp h)
  rw [hs] at hret
  obtain ⟨bs, hbs⟩ : ∃ bs, lookupBatches block earlier = .ok bs :=
    lookupBatches_isOk.mpr fun x hx => hret x (by simp [hx])
  obtain ⟨invs, hinvs⟩ := mapM_isOk.mpr (hret e (by simp))
  obtain ⟨bs', hbs'⟩ : ∃ bs, lookupBatches block later = .ok bs :=
    lookupBatches_isOk.mpr fun x hx => hret x (by simp [hx])
  have hall : lookupBatches block s.batches = .ok (bs ++ invs :: bs') := by
    rw [hs]
    exact mapM_eq_ok.mpr (rel_append (mapM_eq_ok.mp hbs) (.cons hinvs (mapM_eq_ok.mp hbs')))
  refine ⟨_, invs, bs', adapterAfter_iff.mpr ⟨bs, hbs, rfl⟩, hinvs, ?_⟩
  rw [replaySchedule_eq, hall]
  simp [Except.map, runBatches]

theorem replaySucceeded_iff (hs : s.batches = earlier ++ e :: later) {id : GoString}
    (hid : id ∈ e.txIds) :
    ReplaySucceeded order block s db earlier id ↔
      LookupsReturn block s ∧ EnabledAfter order block db earlier id := by
  constructor
  · rintro ⟨a, inv, ws, flushed, ha, hinv, hws, hrun, -⟩
    constructor
    · rw [replaySchedule_eq] at hrun
      refine lookupsReturn_iff.mpr ?_
      cases hb : lookupBatches block s.batches with
      | error f => simp [hb, Except.map] at hrun
      | ok bs => exact ⟨bs, rfl⟩
    · refine ⟨inv, hinv, fun a' ha' => ?_⟩
      obtain rfl : a = a' := ok.inj (ha.symm.trans ha')
      exact Invocation.replay_isSome.mp ⟨ws, hws⟩
  · rintro ⟨hlook, inv, hinv, henabled⟩
    obtain ⟨a, invs, bs, ha, hinvs, hrun⟩ := replaySchedule_split order db hs hlook
    obtain ⟨ws, hws⟩ := Invocation.replay_isSome.mpr (henabled a ha)
    have hmem : some inv ∈ invs := by
      obtain ⟨o, ho, hlookup⟩ := mem_of_mapM_eq_ok hinvs hid
      obtain rfl : some inv = o := ok.inj (hinv.symm.trans hlookup)
      exact ho
    exact ⟨a, inv, ws, _, ha, hinv, hws, hrun,
      fun k hk => (holds_parallel hmem hws hk).runBatches bs⟩

end Success

/-- The flag of a scheduled transaction of a stored block, whose id no other envelope has, says
that its replay succeeded, if and only if no lookup of a scheduled id panics and the operation is
enabled at its place. -/
theorem flag_tells_replay_iff {cfg : Config} {order : MapOrder} {l : KvLedger} {block b : Block}
    {s : BatchSchedule} {flags : TxFlags}
    (hstored : (commitWithBatchSchedule cfg order l block s).ledger.blocks = l.blocks ++ [b])
    (hflags : b.metadataAt transactionsFilter = .ok flags)
    {earlier later : List BatchEntry} {e : BatchEntry}
    (hs : s.batches = earlier ++ e :: later) {id : GoString} (hid : id ∈ e.txIds) {i : Nat}
    (hi : TxIdAt block.data i id) (hone : ∀ j, TxIdAt block.data j id → j = i) :
    (FlaggedValid flags i ↔ ReplaySucceeded order block s l.stateDb earlier id) ↔
      LookupsReturn block s ∧ EnabledAfter order block l.stateDb earlier id := by
  obtain ⟨st⟩ := stored_of_blocks hstored
  have p := st.prepared
  have hmem : id ∈ s.allTxIds := BatchSchedule.mem_allTxIds.mpr ⟨e, by simp [hs], hid⟩
  have hvalid : FlaggedValid flags i := by
    obtain rfl : p.flagsOut = flags := ok.inj (p.stored_flags.symm.trans hflags)
    exact p.scheduled hmem (txIdIndexMap_one p.index_eq hi hone)
  rw [← replaySucceeded_iff hs hid]
  exact iff_true_left hvalid

/-- An account is created and its flag says so. -/
theorem create_account_flag :
    let s := scheduleOf [[str "t1"]]
    let block := firstBlock [createAccountTx (str "t1") (str "a")] [0] s
    FlaggedValid [0] 0 ↔ ReplaySucceeded MapOrder.sorted block s empty [] (str "t1") := by
  intro s block
  let inv : Invocation :=
    ⟨ccSmallBank, str "CreateAccount", [str "a", str "name", str "1", str "1"]⟩
  have hstored : (commitWithBatchSchedule replayConfig MapOrder.sorted empty block
      s).ledger.blocks = empty.blocks ++ [block] := by decide +kernel
  have hlook : lookupInvocation block (str "t1") = .ok (some inv) := by decide +kernel
  have hids : ∀ id ∈ s.allTxIds, id = str "t1" := by decide +kernel
  refine (flag_tells_replay_iff hstored rfl (show s.batches = [] ++ ⟨0, [str "t1"]⟩ :: [] from rfl)
    (by simp) (by decide +kernel) (fun j hj => Nat.lt_one_iff.mp hj.lt)).mpr ⟨?_, ?_⟩
  · intro id hid
    exact ⟨_, hids id hid ▸ hlook⟩
  · refine ⟨inv, hlook, fun a _ => .smallBank ?_⟩
    have hone : IsAmount (str "1") 1 := by
      show parseInt (trimSpace (str "1")) = .ok 1
      decide +kernel
    exact .createAccount hone hone

/-- A deposit to an account that does not exist fails, changes nothing and is stored as
valid. -/
theorem failed_deposit_flagged_valid :
    let s := scheduleOf [[str "t1"]]
    let tx := SignedTx.bare (str "t1") ccSmallBank [str "DepositChecking", str "a", str "5"]
    let block := firstBlock [tx] [0] s
    let run := commitWithBatchSchedule replayConfig MapOrder.sorted empty block s
    let inv : Invocation := ⟨ccSmallBank, str "DepositChecking", [str "a", str "5"]⟩
    run.outcome = .ok () ∧ run.ledger.blocks.map (·.metadataAt transactionsFilter) =
        [.ok [TxValidationCode.valid.toByte]] ∧
      lookupInvocation block (str "t1") = .ok (some inv) ∧
      inv.replay (StateDbAdapter.new empty 0 1) = none ∧
      run.ledger.stateDb.getState ccSmallBank (str "account:a") = none := by
  decide +kernel

end FabricOev.Ledger
