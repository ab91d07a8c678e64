import FabricOev.Ledger.InvalidTransactions

/-!
# Two peers, one block

What a commit does to the state and the flags depends on the header, the data, the
incoming flags and the batches of the schedule, and on nothing else: not on the order of
Go's maps, not on the rest of the metadata, not on the history database. The schedule
stands in a part of the block that neither the hash nor the signature covers, so peers
that receive different schedules part ways.
-/

namespace FabricOev.Ledger

open Go Protos Bench KvLedger MapOrder Option MetadataIndex

structure SameContent (b b' : Block) : Prop where
  header : b.header = b'.header
  data : b.data = b'.data
  filter : b.metadataAt transactionsFilter = b'.metadataAt transactionsFilter

namespace SameContent

variable {b b' : Block}

theorem txsFilter (h : SameContent b b') : b.txsFilter = b'.txsFilter := by
  rw [Block.txsFilter, Block.txsFilter, h.filter, h.data]

theorem blockHeight (h : SameContent b b') : blockHeight b = blockHeight b' := by
  rw [Ledger.blockHeight, Ledger.blockHeight, h.header, h.data]

theorem setFilter (h : SameContent b b') {flags : TxFlags} (hf : b.txsFilter = .ok flags)
    (fs : TxFlags) : SameContent (b.setFilter fs) (b'.setFilter fs) := by
  obtain ⟨raw, hraw, -⟩ := bind_ok.mp hf
  refine ⟨h.header, h.data, ?_⟩
  rw [Block.metadataAt_set_ok hraw, Block.metadataAt_set_ok (h.filter ▸ hraw)]

end SameContent

def SamePrepared (x y : Block × UpdateBatch) : Prop := SameContent x.1 y.1 ∧ x.2 = y.2

theorem SameContent.validateAndPrepareBatch {b b' : Block} (h : SameContent b b')
    (hash : Bytes → Bytes) (db : StateDb) (mvcc : Bool) :
    Result.Related SamePrepared (validateAndPrepareBatch hash db b mvcc)
      (validateAndPrepareBatch hash db b' mvcc) := by
  rw [Ledger.validateAndPrepareBatch, Ledger.validateAndPrepareBatch, ← h.txsFilter, h.header,
    h.data]
  cases hf : b.txsFilter with
  | error f => exact .error f
  | ok flags =>
    refine (Result.Related.refl (validateLoop hash db _ mvcc 0 _ (flags, ∅))).bind ?_
    rintro ⟨fs, updates⟩ _ rfl
    exact .ok ⟨h.setFilter hf fs, rfl⟩

section Schedules

variable {s s' : BatchSchedule} (hs : s.batchIds = s'.batchIds)
include hs

variable {b b' : Block}

theorem replaySchedule_batchIds (order order' : MapOrder) (h : SameContent b b') (db : StateDb) :
    replaySchedule order b s db = replaySchedule order' b' s' db := by
  rw [replaySchedule_congr order order' (congrArg BlockHeader.number h.header) h.data s db,
    replaySchedule_eq, replaySchedule_eq, lookupBatches_eq, lookupBatches_eq, hs]

theorem SameContent.prepareWithBatchSchedule {cfg cfg' : Config} (hcfg : cfg.hash = cfg'.hash)
    (order order' : MapOrder) (h : SameContent b b') (db : StateDb) :
    Result.Related SamePrepared (prepareWithBatchSchedule cfg order db b s)
      (prepareWithBatchSchedule cfg' order' db b' s') := by
  have hids : ∀ i, (order.ids i s.allTxIds).Perm (order'.ids i s'.allTxIds) := fun i => by
    rw [s.allTxIds_eq, s'.allTxIds_eq, hs]
    exact (order.ids_perm i _).trans (order'.ids_perm i _).symm
  simp only [Ledger.prepareWithBatchSchedule, scheduledFlags_perm (hids _), ← h.txsFilter,
    h.data, ← hcfg]
  refine (Result.Related.refl (buildTxIdIndexMap 0 b'.data)).bind ?_
  rintro index _ rfl
  cases hf : b.txsFilter with
  | error f => exact .error f
  | ok flags =>
    refine (Result.Related.refl (setScheduledFlags .notValidated index _ flags)).bind ?_
    rintro marked _ rfl
    refine ((h.setFilter hf marked).validateAndPrepareBatch cfg.hash db true).bind ?_
    rintro ⟨c, updates⟩ ⟨c', _⟩ ⟨hc, rfl⟩
    cases hraw : c.metadataAt transactionsFilter with
    | error f => rw [← hc.filter, hraw]; exact .error f
    | ok raw =>
      rw [← hc.filter, hraw]
      refine (Result.Related.refl (setScheduledFlags .valid index _ raw)).bind ?_
      rintro out _ rfl
      exact .ok ⟨hc.setFilter (bind_ok.mpr ⟨raw, hraw, rfl⟩) out, rfl⟩

end Schedules

/-- What peers compare: the flags of the stored blocks and the state. -/
def KvLedger.flags (l : KvLedger) : List (Result TxFlags) :=
  l.blocks.map (·.metadataAt transactionsFilter)

def SameFlags (bs bs' : List Block) : Prop :=
  bs.map (·.metadataAt transactionsFilter) = bs'.map (·.metadataAt transactionsFilter)

theorem SameContent.addBlock {b b' : Block} (h : SameContent b b') (blocks : List Block) :
    Result.Related SameFlags (addBlock blocks b) (addBlock blocks b') := by
  rw [Ledger.addBlock, Ledger.addBlock, h.header, h.data, h.filter]
  split
  · exact .error _
  · refine (Result.Related.refl (b'.data.mapM extractTxId)).bind ?_
    rintro ids _ rfl
    refine (Result.Related.refl (b'.metadataAt transactionsFilter)).bind ?_
    rintro flags _ rfl
    split
    · exact .error _
    · refine .ok ?_
      simp [SameFlags, h.filter]

/-- The part of the ledger that peers have to agree on. -/
def SameState (l l' : KvLedger) : Prop := l.stateDb = l'.stateDb ∧ l.flags = l'.flags

variable {cfg cfg' : Config}

theorem SameState.commitHistory {l l' : KvLedger} (h : SameState l l') {b b' : Block}
    {start start' : KvLedger} {rest rest' : List KvLedger} (hl : rest.getLastD start = l)
    (hl' : rest'.getLastD start' = l') :
    SameState (commitHistory cfg b start rest l).ledger
      (commitHistory cfg' b' start' rest' l').ledger := by
  obtain ⟨hbs, hdb⟩ := commitHistory_ledger cfg b start rest l hl
  obtain ⟨hbs', hdb'⟩ := commitHistory_ledger cfg' b' start' rest' l' hl'
  constructor
  · rw [hdb, hdb', h.1]
  · rw [flags, flags, hbs, hbs']
    exact h.2

theorem SameContent.commitWithBatchSchedule {s s' : BatchSchedule} (hs : s.batchIds = s'.batchIds)
    (hcfg : cfg.hash = cfg'.hash) (order order' : MapOrder) {b b' : Block} (h : SameContent b b')
    (l : KvLedger) :
    SameState (commitWithBatchSchedule cfg order l b s).ledger
      (commitWithBatchSchedule cfg' order' l b' s').ledger := by
  rw [Ledger.commitWithBatchSchedule, Ledger.commitWithBatchSchedule]
  have hprep := h.prepareWithBatchSchedule hs hcfg order order' l.stateDb
  generalize Ledger.prepareWithBatchSchedule cfg order l.stateDb b s = x at hprep
  generalize Ledger.prepareWithBatchSchedule cfg' order' l.stateDb b' s' = y at hprep
  cases hprep with
  | error f => exact ⟨rfl, rfl⟩
  | @ok p p' hp =>
    obtain ⟨c, updates⟩ := p
    obtain ⟨c', updates'⟩ := p'
    obtain ⟨hc, rfl⟩ : SameContent c c' ∧ updates = updates' := hp
    have hadd := hc.addBlock l.blocks
    have hreplay : commitBenchmarkTxs order c s l.stateDb =
        commitBenchmarkTxs order' c' s' l.stateDb := by
      rw [commitBenchmarkTxs, commitBenchmarkTxs, replaySchedule_batchIds hs order order' hc]
    dsimp only
    generalize Ledger.addBlock l.blocks c = bs at hadd
    generalize Ledger.addBlock l.blocks c' = bs' at hadd
    cases hadd with
    | error f => exact ⟨rfl, rfl⟩
    | ok hbs =>
      rw [hreplay]
      cases commitBenchmarkTxs order' c' s' l.stateDb with
      | error f => exact ⟨rfl, hbs⟩
      | ok db =>
        refine SameState.commitHistory ?_ rfl rfl
        exact ⟨congrArg (db.applyUpdates updates) hc.blockHeight, hbs⟩

theorem SameContent.commitMvcc (hcfg : cfg.hash = cfg'.hash) {b b' : Block} (h : SameContent b b')
    (l : KvLedger) :
    SameState (commitMvcc cfg l b).ledger (commitMvcc cfg' l b').ledger := by
  rw [Ledger.commitMvcc, Ledger.commitMvcc, ← hcfg]
  have hprep := h.validateAndPrepareBatch cfg.hash l.stateDb true
  generalize Ledger.validateAndPrepareBatch cfg.hash l.stateDb b true = x at hprep
  generalize Ledger.validateAndPrepareBatch cfg.hash l.stateDb b' true = y at hprep
  cases hprep with
  | error f => exact ⟨rfl, rfl⟩
  | @ok p p' hp =>
    obtain ⟨c, updates⟩ := p
    obtain ⟨c', updates'⟩ := p'
    obtain ⟨hc, rfl⟩ : SameContent c c' ∧ updates = updates' := hp
    have hadd := hc.addBlock l.blocks
    dsimp only
    generalize Ledger.addBlock l.blocks c = bs at hadd
    generalize Ledger.addBlock l.blocks c' = bs' at hadd
    cases hadd with
    | error f => exact ⟨rfl, rfl⟩
    | ok hbs =>
      refine SameState.commitHistory ?_ rfl rfl
      exact ⟨congrArg (l.stateDb.applyUpdates updates) hc.blockHeight, hbs⟩

/-- Peers with replay enabled that commit blocks of the same content, with the same
batches, to equal ledgers end with equal states and equal flags. -/
theorem peers_agree (hash : Bytes → Bytes) (history history' : Bool) (order order' : MapOrder)
    (l : KvLedger) {b b' : Block} (h : SameContent b b')
    (hs : (parseBatchSchedule b).map (·.batchIds) = (parseBatchSchedule b').map (·.batchIds)) :
    let run := commit ⟨true, history, hash⟩ order l b
    let run' := commit ⟨true, history', hash⟩ order' l b'
    run.ledger.stateDb = run'.ledger.stateDb ∧ run.ledger.flags = run'.ledger.flags := by
  intro run run'
  have hhash : (⟨true, history, hash⟩ : Config).hash = (⟨true, history', hash⟩ : Config).hash := rfl
  simp only [run, run', commit, if_true]
  cases hb : parseBatchSchedule b with
  | none =>
    cases hb' : parseBatchSchedule b' with
    | none => exact h.commitMvcc hhash l
    | some s' => simp [hb, hb'] at hs
  | some s =>
    cases hb' : parseBatchSchedule b' with
    | none => simp [hb, hb'] at hs
    | some s' =>
      rw [hb, hb', map_some, map_some, some.injEq] at hs
      exact h.commitWithBatchSchedule hs hhash order order' l

/-- Only the signatures and the block number of the schedule differ. -/
theorem create_account_peers_agree :
    let block := firstBlock [createAccountTx (str "t1") (str "a")] [0] (scheduleOf [[str "t1"]])
    let schedule : BatchSchedule := { scheduleOf [[str "t1"]] with blockNumber := 7 }
    let block' : Block :=
      { block with metadata := some [[1], [], [0], Metadata.marshal ⟨schedule.marshal⟩] }
    let run := commit ⟨true, true, id⟩ sorted empty block
    let run' := commit ⟨true, false, id⟩ sorted empty block'
    run.ledger.stateDb = run'.ledger.stateDb ∧ run.ledger.flags = run'.ledger.flags :=
  peers_agree id true false sorted sorted empty ⟨rfl, rfl, rfl⟩ (by decide +kernel)

/-- Creates an account after a read that is not current. -/
def staleCreateTx : SignedTx :=
  { createAccountTx (str "t1") (str "a") with
    results := TxRwSet.toProtoBytes [⟨ccSmallBank, [⟨str "account:a", some ⟨7, 0⟩⟩], [], []⟩] }

/-- With the schedule the account is created and the transaction valid; without it the
read conflicts and there is no account. -/
theorem peers_part_on_schedule :
    let block := firstBlock [staleCreateTx] [0] (scheduleOf [[str "t1"]])
    let block' : Block := { block with metadata := some [[], [], [0]] }
    let run := commit replayConfig sorted empty block
    let run' := commit replayConfig sorted empty block'
    run.outcome = .ok () ∧ run'.outcome = .ok () ∧
      run.ledger.flags = [.ok [TxValidationCode.valid.toByte]] ∧
      run'.ledger.flags = [.ok [TxValidationCode.mvccReadConflict.toByte]] ∧
      (run.ledger.stateDb.getState ccSmallBank (str "account:a")).isSome = true ∧
      run'.ledger.stateDb.getState ccSmallBank (str "account:a") = none := by
  decide +kernel

end FabricOev.Ledger
