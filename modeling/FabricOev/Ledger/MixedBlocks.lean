import FabricOev.Ledger.MvccSerial
import FabricOev.Ledger.Recovery
import FabricOev.Orderer.ParallelReplay

/-!
# Blocks that mix replayed and endorsed transactions

A scheduled commit validates the unscheduled transactions against the state before the
block, flushes the replay, and applies the validated writes last. That is the serial
execution of the replays followed by the validated transactions, provided no validated
transaction read a key that a scheduled one writes; nothing checks this, and otherwise an
update of the replay is lost.
-/

namespace FabricOev.Ledger

open Go Protos Bench Orderer Lib List Option Nat Except FinMap MetadataIndex StateDb

def execReplay (h : Height) (db : StateDb) (t : TxIntent) : StateDb :=
  (replayIntent ⟨db, ∅, h⟩ t).flush

variable {db : StateDb} {a : StateDbAdapter} {ts : List TxIntent}

/-- A step on the adapter, flushed, is the step on the flushed database. -/
theorem flush_replayIntent (h : a.flush.state = db.state) (t : TxIntent) :
    (replayIntent a t).flush = execReplay a.height db t := by
  have hview : a.getState = (⟨db, ∅, a.height⟩ : StateDbAdapter).getState := by
    funext ns key
    rw [getState_eq_flush, getState_eq_flush, getState, getState, h, flush_empty]
  have hreplay : t.invocation.replay a = t.invocation.replay ⟨db, ∅, a.height⟩ := by
    rw [Invocation.replay, Invocation.replay, hview]
  unfold execReplay replayIntent mergeReplay
  simp only [hreplay]
  cases t.invocation.replay ⟨db, ∅, a.height⟩ with
  | none =>
    have hst : a.flush.state = (⟨db, ∅, a.height⟩ : StateDbAdapter).flush.state := by
      rw [h, flush_empty]
    exact congrArg (fun m => (⟨m, some a.height⟩ : StateDb)) hst
  | some ws => simp only [flush_putWrites, h, flush_empty]

theorem replayIntent_height (a : StateDbAdapter) (t : TxIntent) :
    (replayIntent a t).height = a.height := by
  unfold replayIntent mergeReplay
  dsimp only
  split
  · rfl
  · exact foldlRecOn (motive := fun b : StateDbAdapter => b.height = a.height) _ _ rfl
      fun _ h _ _ => h

/-- Replaying on the adapter and flushing once is replaying on the database. -/
theorem flush_serialReplay (hne : ts ≠ []) (h : a.flush.state = db.state) :
    (serialReplay ts a).flush = ts.foldl (execReplay a.height) db := by
  induction ts generalizing a db with
  | nil => exact absurd rfl hne
  | cons t ts ih =>
    have hstep := flush_replayIntent h t
    cases ts with
    | nil => exact hstep
    | cons t' ts =>
      have := ih (by simp) (congrArg state hstep)
      rw [replayIntent_height] at this
      exact this

section Distinct

variable {block : Block} {intents : List TxIntent}
  (hx : extractIntentsFromBlock block.data = .ok intents) (hd : (txIdsOf block.data).Nodup)
include hx hd

theorem distinctIntents_of_nodup : DistinctIntents intents := by
  obtain ⟨os, hos, rfl⟩ := extractIntents_forall₂ hx
  have hsub : (os.reduceOption.map (·.txId)).Sublist (txIdsOf block.data) := by
    clear hx hd
    generalize block.data = data at hos
    induction hos with
    | nil => exact List.Sublist.refl _
    | @cons d o ds os hd _ ih =>
      cases o with
      | none => exact ih.trans ((sublist_cons_self d ds).filterMap _)
      | some t =>
        rw [reduceOption_cons_of_some, map_cons, txIdsOf_cons (extractIntent_some hd).1]
        exact ih.cons_cons _
  exact hd.sublist hsub

theorem findsOwn_of_nodup (hutf : ∀ t ∈ intents, coerceUtf8 t.txId = t.txId) :
    FindsOwn block.data := by
  have hdist := distinct_of_nodup hd
  obtain ⟨os, hos, hints⟩ := extractIntents_forall₂ hx
  intro i hi t ht
  have hext : extractIntentFromEnvBytes block.data[i] = .ok (some t) := toOption_join_eq_some.mp ht
  have hi' : i < os.length := hos.length_eq ▸ hi
  have hget := (forall₂_iff_get.mp hos).2 i hi hi'
  have hos' : os.get ⟨i, hi'⟩ = some t := ok.inj (hget.symm.trans hext)
  have hmem : t ∈ intents := by
    rw [← hints, reduceOption_mem_iff, ← hos']
    exact get_mem _ _
  refine ⟨hutf t hmem, fun d hd' hid => ?_⟩
  obtain ⟨j, hj, rfl⟩ := mem_iff_getElem.mp hd'
  rw [length_take] at hj
  rw [getElem_take] at hid
  have hji : j = i := hdist j i t.txId ⟨_, getElem?_eq_getElem (by omega), hid⟩
    ⟨_, getElem?_eq_getElem hi, (extractIntent_some hext).1⟩
  omega

end Distinct

/-! ## The serial order -/

def Unscheduled (block : Block) (s : BatchSchedule) (j : Nat) : Prop :=
  ∀ id ∈ s.allTxIds, ¬ TxIdAt block.data j id

/-- What validation accepted is what is unscheduled and valid in the stored block. -/
theorem Prepared.validated_iff {cfg : Config} {order : MapOrder} {block block' : Block}
    {s : BatchSchedule} {updates : UpdateBatch} (p : Prepared cfg order db block s block' updates)
    (hd : DistinctTxIds block.data) (j : Nat) :
    FlaggedValid p.flagsValidated j ↔ Unscheduled block s j ∧ FlaggedValid p.flagsOut j := by
  by_cases hun : Unscheduled block s j
  · have hlook : ∀ id ∈ s.allTxIds, p.index.lookup id ≠ some j := by
      intro id hid hl
      obtain ⟨k, hk, hat⟩ := txIdIndexMap_sound p.index_eq hl
      rw [zero_add] at hk
      exact hun id hid (hk ▸ hat)
    have hout := (p.unscheduled hlook).2
    rw [FlaggedValid, FlaggedValid, hout]
    exact ⟨fun h => ⟨hun, h⟩, fun h => h.2⟩
  · refine ⟨fun hv => absurd hv ?_, fun h => absurd h.1 hun⟩
    obtain ⟨id, hid, hat⟩ : ∃ id ∈ s.allTxIds, TxIdAt block.data j id := by
      simpa [Unscheduled] using hun
    have hmark : p.flagsMarked[j]? = some TxValidationCode.notValidated.toByte :=
      scheduledFlags_touched p.marked_eq ((order.ids_perm 2 _).mem_iff.mpr hid)
        (txIdIndexMap_distinct p.index_eq hd hat)
    have hnot : ¬ FlaggedValid p.flagsMarked j := by
      rw [FlaggedValid, hmark]
      decide
    rw [FlaggedValid, (validateLoop_flags p.loop_eq).2.1 j hnot]
    exact hnot

theorem flush_untouched {h : Height} {k : CompositeKey} (hext : ∀ t ∈ ts, t.Extracted)
    (hk : ∀ t ∈ ts, k ∉ t.footprint.writes) :
    (adapterStore.serial intentJob ts ⟨db, ∅, h⟩).flush.getState k.ns k.key =
      db.getState k.ns k.key := by
  let P := fun a : StateDbAdapter => a.db = db ∧ a.batch[k]? = none
  have hinit : P ⟨db, ∅, h⟩ := ⟨rfl, by simp⟩
  have hput : ∀ a, ∀ k' ∈ {k' | k' ≠ k}, ∀ v, P a → P (adapterStore.put a k' v) := by
    rintro a k' hne v ⟨hdb, hb⟩
    refine ⟨hdb, ?_⟩
    have hc : ¬ compare k' k = .eq := fun h' => hne (Std.LawfulEqOrd.eq_of_compare h')
    show (a.batch.insert k' ⟨some v, a.height⟩)[k]? = none
    rw [Std.ExtTreeMap.getElem?_insert, if_neg hc, hb]
  have hkeep : P (adapterStore.serial intentJob ts ⟨db, ∅, h⟩) := by
    refine adapterStore.serial_invariant hput ?_ hinit
    intro t ht a ws hws w hw he
    exact hk t ht (he ▸ (hext t ht).respects.within a ws hws w hw)
  rw [StateDbAdapter.flush, getState_applyUpdates, hkeep.1, UpdateBatch.get, hkeep.2]
  rfl

/-- The state after a scheduled commit of a block with distinct ids, if no unscheduled
transaction that ends up valid reads a key a scheduled one declares to write: the scheduled
transactions replayed one after the other, batch by batch in any arrangement, then the
unscheduled valid ones in the order of the block, the versions each has read current at its
place. -/
theorem mixed_commit_serial {cfg : Config} {order : MapOrder} {l : KvLedger} {block b : Block}
    {intents : List TxIntent} {bytes : Bytes} {s : BatchSchedule} {flags : TxFlags}
    {arr : List (List TxIntent)} (hx : extractIntentsFromBlock block.data = .ok intents)
    (hb : analyzeBatchAndSchedule block = .ok (some bytes))
    (hs : BatchSchedule.unmarshal bytes = some s) (hd : (txIdsOf block.data).Nodup)
    (hutf : ∀ t ∈ intents, coerceUtf8 t.txId = t.txId)
    (hstored : (commitWithBatchSchedule cfg order l block s).ledger.blocks = l.blocks ++ [b])
    (hflags : b.metadataAt transactionsFilter = .ok flags)
    (hreads : ∀ j rw, Unscheduled block s j → FlaggedValid flags j → EndorserTx block.data j rw →
      ∀ k, ReadsKey rw k → ∀ t ∈ intents, k ∉ t.footprint.writes)
    (harr : Arrangement intents s arr) :
    ∃ acc : List (Nat × TxRwSet), acc.Pairwise (fun x y => x.1 < y.1) ∧ (∀ j rw, (j, rw) ∈ acc ↔
        Unscheduled block s j ∧ FlaggedValid flags j ∧ EndorserTx block.data j rw) ∧
      acc.foldlM (execEndorsed cfg.hash block.header.number (blockHeight block))
        (arr.flatten.foldl (execReplay (blockHeight block)) l.stateDb) =
          some (commitWithBatchSchedule cfg order l block s).ledger.stateDb := by
  obtain ⟨st⟩ := stored_of_blocks hstored
  have p := st.prepared
  obtain rfl : p.flagsOut = flags := ok.inj (p.stored_flags.symm.trans hflags)
  have hdist := distinctIntents_of_nodup hx hd
  have hown := findsOwn_of_nodup hx hd hutf
  have hreplay := replaySchedule_serial hx hb hs hdist hown harr order l.stateDb
  have hperm := arrangement_flatten hx hb hs hdist hown harr
  have hnonempty : arr.flatten ≠ [] := by
    intro hnil
    exact analyzed_nonempty hx hb (List.Perm.eq_nil (hnil ▸ hperm.symm))
  let a := adapterStore.serial intentJob arr.flatten
    (StateDbAdapter.new l.stateDb block.header.number block.data.length)
  have hflush : a.flush = arr.flatten.foldl (execReplay (blockHeight block)) l.stateDb := by
    show (adapterStore.serial intentJob arr.flatten _).flush = _
    rw [← serialReplay_eq]
    exact flush_serialReplay hnonempty (flush_empty l.stateDb _)
  have hagree : ∀ k rw, FlaggedValid p.flagsValidated (0 + k) → EndorserTx block.data k rw →
      ∀ key, ReadsKey rw key → a.flush.getState key.ns key.key =
        l.stateDb.getState key.ns key.key := by
    intro k rw hv htx key hkey
    rw [zero_add] at hv
    obtain ⟨hun, hout⟩ := (p.validated_iff (distinct_of_nodup hd) k).mp hv
    have hmem : ∀ t ∈ arr.flatten, t ∈ intents := fun t ht => hperm.mem_iff.mp ht
    exact flush_untouched (fun t ht => intents_extracted hx t (hmem t ht))
      fun t ht => hreads k rw hun hout htx key hkey t (hmem t ht)
  obtain ⟨acc, hacc, hexec⟩ := validateLoop_serial (blockHeight block) p.loop_eq hagree
  refine ⟨acc, hacc.ordered, fun j rw => ?_, ?_⟩
  · rw [hacc.complete]
    constructor
    · rintro ⟨k, rfl, hv, htx⟩
      rw [zero_add] at hv ⊢
      obtain ⟨hun, hout⟩ := (p.validated_iff (distinct_of_nodup hd) k).mp hv
      exact ⟨hun, hout, htx⟩
    · rintro ⟨hun, hout, htx⟩
      have hv := (p.validated_iff (distinct_of_nodup hd) j).mpr ⟨hun, hout⟩
      exact ⟨j, (zero_add j).symm, hv, htx⟩
  · have hstart : a.flush.applyUpdates ∅ (blockHeight block) = a.flush := by
      have hsave : a.flush.savepoint = some (blockHeight block) :=
        congrArg some (replaySchedule_adapter hreplay).2
      show (⟨overlay Update.toValue a.flush.state ∅, some (blockHeight block)⟩ : StateDb) = _
      rw [overlay_empty, ← hsave]
    rw [hstart] at hexec
    rw [← hflush, hexec, st.stateDb, hreplay]

/-- A ledger of one block whose state has the accounts `a` and `b`. -/
def accountsLedger : KvLedger := ⟨[⟨⟨0, [], []⟩, [], none⟩], twoAccounts, HistoryDb.empty⟩

/-- Block 1 with the given envelopes, all valid, and the given schedule. -/
def secondBlock (data : List Bytes) (s : BatchSchedule) : Block :=
  ⟨⟨1, [], []⟩, data, some [[], [], data.map fun _ => 0, Metadata.marshal ⟨s.marshal⟩]⟩

def secondSchedule (batches : List (List GoString)) : BatchSchedule :=
  { scheduleOf batches with blockNumber := 1 }

theorem endorsedRwSet_envelope {t : SignedTx} (h : t.Reads) {rw : TxRwSet}
    (hrw : TxRwSet.fromProtoBytes t.results = some rw) : EndorsedRwSet t.envelope rw :=
  ⟨_, h.getActionFromEnvelope, hrw⟩

/-- A deposit replayed next to a write of another chaincode to its own namespace. -/
theorem deposit_beside_put_serial :
    let d := depositIntent (str "t1") (str "a") (str "5")
    let block := secondBlock [d.envelope, (putTx (str "t2") (str "k") (str "v")).envelope]
      (secondSchedule [[str "t1"]])
    let run := commitWithBatchSchedule replayConfig MapOrder.sorted accountsLedger block
      (secondSchedule [[str "t1"]])
    ∃ acc : List (Nat × TxRwSet), acc.Pairwise (fun x y => x.1 < y.1) ∧
      (∀ j rw, (j, rw) ∈ acc ↔ Unscheduled block (secondSchedule [[str "t1"]]) j ∧
        FlaggedValid [0, 0] j ∧ EndorserTx block.data j rw) ∧
      acc.foldlM (execEndorsed replayConfig.hash 1 (blockHeight block))
        ([d].foldl (execReplay (blockHeight block)) twoAccounts) = some run.ledger.stateDb := by
  intro d block run
  have hx : extractIntentsFromBlock block.data = .ok [d] := by decide +kernel
  have hb : analyzeBatchAndSchedule block = .ok (some (secondSchedule [[str "t1"]]).marshal) := by
    decide +kernel
  have hstored : run.ledger.blocks = accountsLedger.blocks ++ [block] := by decide +kernel
  have harr : Arrangement [d] (secondSchedule [[str "t1"]]) [[d]] := .cons (by decide +kernel) .nil
  refine mixed_commit_serial hx hb (by decide +kernel) (by decide +kernel) (by decide +kernel)
    hstored rfl ?_ harr
  rintro j rw - hv ⟨e, chdr, he, -, -, hrw⟩ k ⟨set, hset, hns, -⟩ t ht ⟨hk, -⟩
  obtain rfl : t = d := mem_singleton.mp ht
  have hj : j < 2 := hv.lt
  interval_cases j
  · obtain rfl : d.envelope = e := some.inj he
    have hempty : EndorsedRwSet d.envelope [] :=
      endorsedRwSet_envelope (SignedTx.reads (by decide +kernel)) rfl
    rw [hrw.unique hempty] at hset
    cases hset
  · obtain rfl : (putTx (str "t2") (str "k") (str "v")).envelope = e := some.inj he
    have hput : EndorsedRwSet (putTx (str "t2") (str "k") (str "v")).envelope
        [⟨str "mycc", [], [], [⟨str "k", false, some (str "v")⟩]⟩] :=
      endorsedRwSet_envelope (SignedTx.reads (by decide +kernel)) (by decide +kernel)
    rw [hrw.unique hput] at hset
    obtain rfl := mem_singleton.mp hset
    rw [← hns] at hk
    exact absurd hk (by decide +kernel)

/-- Chaincode `mycc` has read account `a` as the state has it, and sets its checking
balance to 20. -/
def setBalanceTx (txId : GoString) : SignedTx :=
  { SignedTx.bare txId (str "mycc") [str "set"] with
    results := TxRwSet.toProtoBytes [⟨ccSmallBank, [⟨str "account:a", some ⟨0, 1⟩⟩], [],
      [⟨str "account:a", false, some (AccountRecord.marshal ⟨str "a", str "name", 20, 10⟩)⟩]⟩] }

/-- The deposit is lost: both transactions end up valid and the balance is 20. After the
deposit the endorsed write is no longer current; before it, it would give 25. -/
theorem deposit_lost_to_endorsed_write :
    let d := depositIntent (str "t1") (str "a") (str "5")
    let tx := setBalanceTx (str "t2")
    let block := secondBlock [d.envelope, tx.envelope] (secondSchedule [[str "t1"]])
    let run := commit replayConfig MapOrder.sorted accountsLedger block
    let h := blockHeight block
    let checking (db : StateDb) : Option Int64 :=
      (sbGetAccount (fun k => (db.getState ccSmallBank k).map (·.value)) (str "a")).toOption.map
        (·.checking)
    analyzeBatchAndSchedule block = .ok (some (secondSchedule [[str "t1"]]).marshal) ∧
      run.outcome = .ok () ∧
      run.ledger.blocks.map (·.metadataAt transactionsFilter) =
        [.error (.panic .nilDereference), .ok [0, 0]] ∧
      checking run.ledger.stateDb = some 20 ∧
      ∀ rw ∈ TxRwSet.fromProtoBytes tx.results,
        (execEndorsed replayConfig.hash 1 h (execReplay h twoAccounts d) (1, rw)).isNone = true ∧
          (execEndorsed replayConfig.hash 1 h twoAccounts (1, rw)).map
            (fun db => checking (execReplay h db d)) = some (some 25) := by
  decide +kernel

end FabricOev.Ledger
