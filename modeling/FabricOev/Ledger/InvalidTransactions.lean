import FabricOev.Ledger.CommitSteps

/-!
# Transactions that come in invalid

The committer's validator has flagged the transactions of a block before it is
committed. On the ordinary path an invalid transaction stays invalid and writes nothing.
The scheduled path sets the flag of every scheduled transaction to valid and replays it
whatever its flag says, so there the same holds exactly as long as no scheduled
transaction came in invalid.
-/

namespace FabricOev.Ledger

open Go Protos Bench Except List KvLedger

variable {s : BatchSchedule}

def ScheduledValid (block : Block) (flags : TxFlags) (s : BatchSchedule) : Prop :=
  ∀ i id, TxIdAt block.data i id → id ∈ s.allTxIds → FlaggedValid flags i

/-- A transaction that came in invalid is invalid in `b`, and the state is the same without it. -/
def InvalidWithoutEffect (cfg : Config) (order : MapOrder) (l : KvLedger) (block : Block)
    (s : BatchSchedule) (flags : TxFlags) (b : Block) : Prop :=
  ∀ i, ¬ FlaggedValid flags i →
    (∃ fs, b.metadataAt MetadataIndex.transactionsFilter = .ok fs ∧ ¬ FlaggedValid fs i) ∧
    ∀ id, TxIdAt block.data i id → ∀ order',
      (commitWithBatchSchedule cfg order' l block (s.remove id)).ledger.stateDb =
        (commitWithBatchSchedule cfg order l block s).ledger.stateDb

theorem commit_eq_scheduled {cfg : Config} {order : MapOrder} {l : KvLedger} {block : Block}
    (hen : cfg.benchReplayEnabled = true) (hs : parseBatchSchedule block = some s) :
    commit cfg order l block = commitWithBatchSchedule cfg order l block s := by
  simp only [commit, hen, hs, if_true]

theorem invalid_without_effect_iff {cfg : Config} {order : MapOrder} {l : KvLedger}
    {block b : Block} {s : BatchSchedule} {flags : TxFlags}
    (hen : cfg.benchReplayEnabled = true) (hs : parseBatchSchedule block = some s)
    (hin : block.txsFilter = .ok flags)
    (hstored : (commit cfg order l block).ledger.blocks = l.blocks ++ [b]) :
    (ScheduledValid block flags s → InvalidWithoutEffect cfg order l block s flags b) ∧
      (DistinctTxIds block.data → InvalidWithoutEffect cfg order l block s flags b →
        ScheduledValid block flags s) := by
  rw [commit_eq_scheduled hen hs] at hstored
  obtain ⟨st⟩ := stored_of_blocks hstored
  have p := st.prepared
  have hflags : p.flagsIn = flags := ok.inj (p.flagsIn_eq.symm.trans hin)
  constructor
  · intro hvalid i hi
    have hun : ∀ id ∈ s.allTxIds, p.index.lookup id ≠ some i := by
      intro id hid hl
      obtain ⟨k, rfl, hk⟩ := txIdIndexMap_sound p.index_eq hl
      rw [Nat.zero_add] at hi
      exact hi (hvalid k id hk hid)
    have hout := p.invalid_untouched hun (hflags ▸ hi)
    constructor
    · refine ⟨p.flagsOut, p.stored_flags, ?_⟩
      rwa [FlaggedValid, hout, hflags]
    · intro id hid order'
      have hnot : id ∉ s.allTxIds := fun hmem => hi (hvalid i id hid hmem)
      rw [s.remove_of_notMem hnot, commitSchedule_order cfg order' order]
  · intro hd heff i id hid hmem
    by_contra hv
    obtain ⟨⟨fs, hfs, hfv⟩, -⟩ := heff i hv
    obtain rfl : p.flagsOut = fs := ok.inj (p.stored_flags.symm.trans hfs)
    exact hfv (p.scheduled hmem (txIdIndexMap_distinct p.index_eq hd hid))

/-- Creates account `id` with one unit in each balance; nobody endorsed it. -/
def createAccountTx (txId id : GoString) : SignedTx :=
  SignedTx.bare txId ccSmallBank [str "CreateAccount", id, str "name", str "1", str "1"]

/-- The first block of a chain with the given transactions, flags and schedule. -/
def firstBlock (txs : List SignedTx) (flags : TxFlags) (s : BatchSchedule) : Block :=
  ⟨⟨0, [], []⟩, txs.map SignedTx.envelope,
    some [[], [], flags, Metadata.marshal ⟨BatchSchedule.marshal s⟩]⟩

def replayConfig : Config := ⟨true, false, id⟩

/-- A scheduled transaction and an unscheduled one that failed its endorsement policy. -/
theorem invalid_unscheduled_without_effect :
    InvalidWithoutEffect replayConfig MapOrder.sorted empty
      (firstBlock [createAccountTx (str "t1") (str "a"), createAccountTx (str "t2") (str "b")]
        [0, 10] (scheduleOf [[str "t1"]]))
      (scheduleOf [[str "t1"]]) [0, 10]
      (firstBlock [createAccountTx (str "t1") (str "a"), createAccountTx (str "t2") (str "b")]
        [0, 10] (scheduleOf [[str "t1"]])) := by
  refine (invalid_without_effect_iff rfl (by decide +kernel) (by decide +kernel)
    (by decide +kernel)).1 ?_
  intro i id hid hmem
  obtain rfl : id = str "t1" := mem_singleton.mp hmem
  have hi : i < 2 := hid.lt
  interval_cases i
  · rfl
  · exact absurd hid (by decide +kernel)

/-- A transaction flagged with a policy failure is stored as valid and its account is
created; without it in the schedule there is no account. -/
theorem unendorsed_scheduled_takes_effect :
    let block := firstBlock [createAccountTx (str "t1") (str "a")] [10] (scheduleOf [[str "t1"]])
    let run := commit replayConfig MapOrder.sorted empty block
    let without := commitWithBatchSchedule replayConfig MapOrder.sorted empty block
      ((scheduleOf [[str "t1"]]).remove (str "t1"))
    parseBatchSchedule block = some (scheduleOf [[str "t1"]]) ∧
      block.txsFilter = .ok [TxValidationCode.endorsementPolicyFailure.toByte] ∧
      run.ledger.blocks.map (·.txsFilter) = [.ok [TxValidationCode.valid.toByte]] ∧
      (run.ledger.stateDb.getState ccSmallBank (str "account:a")).isSome = true ∧
      without.ledger.stateDb.getState ccSmallBank (str "account:a") = none := by
  decide +kernel

end FabricOev.Ledger
