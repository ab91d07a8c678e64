import FabricOev.Ledger.InvalidTransactions

/-!
# Recovery after a crash

A commit writes to disk step by step, and a crash leaves the ledger of one of its steps. Recovery
compares savepoints and recommits the last block from its stored flags and endorsed write sets. At
the crash points of a scheduled commit it brings the state to that of any uninterrupted commit only
once `txtmgmt.Commit` has been made: the flush of the replay already moves the savepoint, and a
recommit does not replay.
-/

namespace FabricOev.Ledger

open Go Protos Bench UInt64 List KvLedger

/-- Where a scheduled commit may be interrupted. -/
inductive CrashPoint where
  | beforeAddBlock
  | beforeFlush
  | beforeCommit
  | beforeHistory
  | afterHistory
deriving DecidableEq, Repr

def CrashPoint.index : CrashPoint → Nat
  | .beforeAddBlock => 0
  | .beforeFlush => 1
  | .beforeCommit => 2
  | .beforeHistory => 3
  | .afterHistory => 4

/-- The ledger on disk; without a history database the last two points are one. -/
def CommitRun.crashedAt (r : CommitRun) (c : CrashPoint) : KvLedger :=
  (r.trail[c.index]?).getD r.ledger

/-! ## Ledgers in step -/

def savedHeight (savepoint : Option Height) : Nat :=
  (savepoint.map fun h => h.blockNum.toNat + 1).getD 0

/-- The databases have all blocks of the block store. -/
structure InSync (cfg : Config) (l : KvLedger) : Prop where
  state : savedHeight l.stateDb.savepoint = l.blocks.length
  history : cfg.historyDbEnabled = true → savedHeight l.historyDb.savepoint = l.blocks.length

instance (cfg : Config) (l : KvLedger) : Decidable (InSync cfg l) :=
  decidable_of_iff (savedHeight l.stateDb.savepoint = l.blocks.length ∧
    (cfg.historyDbEnabled = true → savedHeight l.historyDb.savepoint = l.blocks.length))
    ⟨fun h => ⟨h.1, h.2⟩, fun h => ⟨h.state, h.history⟩⟩

def recoverFrom (savepoint : Option Height) (last : UInt64) : Bool × UInt64 :=
  match savepoint with
  | none => (true, 0)
  | some h => (h.blockNum ≠ last, h.blockNum + 1)

variable {n : UInt64} {h : Height}

/-- A database that lacks only the last block is recovered from there. -/
theorem recoverFrom_behind {savepoint : Option Height} (h : savedHeight savepoint = n.toNat) :
    recoverFrom savepoint n = (true, n) := by
  cases savepoint with
  | none =>
    have hn : n = 0 := UInt64.toNat_inj.mp h.symm
    rw [hn]
    rfl
  | some sp =>
    have hsp : sp.blockNum.toNat + 1 = n.toNat := h
    have hlt := n.toNat_lt
    have hne : sp.blockNum ≠ n := by
      intro he
      rw [he] at hsp
      omega
    have hsucc : sp.blockNum + 1 = n := by
      apply UInt64.toNat_inj.mp
      show (sp.blockNum.toNat + 1) % 2 ^ 64 = n.toNat
      rw [hsp, Nat.mod_eq_of_lt hlt]
    simp [recoverFrom, hne, hsucc]

theorem recoverFrom_level (hn : h.blockNum = n) : (recoverFrom (some h) n).1 = false := by
  simp [recoverFrom, hn]

theorem shouldRecover_state (cfg : Config) (l : KvLedger) (last : UInt64) :
    shouldRecover cfg l last .state = recoverFrom l.stateDb.savepoint last := by
  unfold shouldRecover recoverFrom
  cases l.stateDb.savepoint <;> rfl

theorem shouldRecover_history (cfg : Config) (l : KvLedger) (last : UInt64) :
    shouldRecover cfg l last .history =
      if cfg.historyDbEnabled then recoverFrom l.historyDb.savepoint last else (false, 0) := by
  unfold shouldRecover recoverFrom
  cases l.historyDb.savepoint <;> rfl

theorem last_block_number {k : Nat} (h : n.toNat = k) : ofNat (k + 1) - 1 = n := by
  have hk : ofNat (k + 1) = n + 1 := by
    apply UInt64.toNat_inj.mp
    rw [UInt64.toNat_ofNat', UInt64.toNat_add, ← h]
    rfl
  rw [hk, UInt64.add_sub_cancel]

theorem recoverDbs_inSync {cfg : Config} {l : KvLedger} (h : InSync cfg l) :
    recoverDbs cfg l = .ok l := by
  unfold recoverDbs
  split
  · rfl
  · rename_i hne
    have hpos : 0 < l.blocks.length := length_pos_iff.mpr hne
    have hlevel : ∀ sp, savedHeight sp = l.blocks.length →
        (recoverFrom sp (ofNat l.blocks.length - 1)).1 = false := by
      intro sp hsp
      cases sp with
      | none =>
        have : 0 = l.blocks.length := hsp
        omega
      | some sp =>
        have hlen : l.blocks.length = sp.blockNum.toNat + 1 := hsp.symm
        rw [hlen, last_block_number rfl]
        exact recoverFrom_level rfl
    have hs := hlevel _ h.state
    simp only [shouldRecover_state, shouldRecover_history]
    cases he : cfg.historyDbEnabled with
    | false => simp [hs]
    | true =>
      have hh := hlevel _ (h.history he)
      simp [hs, hh]

section LastBlock

variable {cfg : Config} {l : KvLedger} {blocks : List Block} {block : Block}
  (hb : l.blocks = blocks ++ [block]) (hn : block.header.number.toNat = blocks.length)
include hb hn

theorem recommit_last (rs : List Recoverable) :
    recommitLostBlocks cfg block.header.number block.header.number rs l =
      rs.foldlM (fun l r => commitLostBlock cfg l block r) l := by
  have hrange : block.header.number.toNat + 1 - block.header.number.toNat = 1 := by omega
  have hget : l.blocks[block.header.number.toNat]? = some block := by
    rw [hb, hn]
    simp
  simp only [recommitLostBlocks, hrange, range'_one, foldlM_cons, foldlM_nil, hget, bind_pure]

theorem recoverDbs_last :
    recoverDbs cfg l =
      let (rs, fs) := recoverFrom l.stateDb.savepoint block.header.number
      let (rh, fh) := if cfg.historyDbEnabled then
        recoverFrom l.historyDb.savepoint block.header.number else (false, 0)
      if rs && rh then
        if fh < fs then do
          let l ← recommitLostBlocks cfg fh (fs - 1) [.history] l
          recommitLostBlocks cfg fs block.header.number [.history, .state] l
        else if fs < fh then do
          let l ← recommitLostBlocks cfg fs (fh - 1) [.state] l
          recommitLostBlocks cfg fh block.header.number [.state, .history] l
        else recommitLostBlocks cfg fs block.header.number [.state, .history] l
      else if rs then recommitLostBlocks cfg fs block.header.number [.state] l
      else if rh then recommitLostBlocks cfg fh block.header.number [.history] l
      else .ok l := by
  have hne : l.blocks ≠ [] := by simp [hb]
  have hlast : ofNat l.blocks.length - 1 = block.header.number := by
    rw [hb, length_append]
    exact last_block_number hn
  rw [recoverDbs, if_neg hne]
  simp only [hlast, shouldRecover_state, shouldRecover_history]

/-- A state database that has the last block is left alone; the history database may
still get it. -/
theorem recoverDbs_state_level (hs : l.stateDb.savepoint = some h)
    (hh : h.blockNum = block.header.number)
    (hist : cfg.historyDbEnabled = true → savedHeight l.historyDb.savepoint = blocks.length) :
    recoverDbs cfg l =
      if cfg.historyDbEnabled then commitLostBlock cfg l block .history else .ok l := by
  have hlevel : (recoverFrom (some h) block.header.number).1 = false := recoverFrom_level hh
  rw [recoverDbs_last hb hn, hs]
  cases he : cfg.historyDbEnabled with
  | false => simp [hlevel]
  | true =>
    have hbehind := recoverFrom_behind ((hist he).trans hn.symm)
    simp [hlevel, hbehind, recommit_last hb hn]

theorem recoverDbs_behind (hs : savedHeight l.stateDb.savepoint = blocks.length)
    (hist : cfg.historyDbEnabled = true → savedHeight l.historyDb.savepoint = blocks.length) :
    recoverDbs cfg l = commitLostBlock cfg l block .state >>= fun l =>
      if cfg.historyDbEnabled then commitLostBlock cfg l block .history else .ok l := by
  have hbehind := recoverFrom_behind (hs.trans hn.symm)
  rw [recoverDbs_last hb hn]
  cases he : cfg.historyDbEnabled with
  | false =>
    simp only [hbehind, recommit_last hb hn, Bool.and_false, Bool.false_eq_true, if_false, if_true,
      foldlM_cons, foldlM_nil]
    rfl
  | true =>
    have hbehind' := recoverFrom_behind ((hist he).trans hn.symm)
    have hirr : ¬ block.header.number < block.header.number := UInt64.lt_irrefl _
    simp only [hbehind, hbehind', recommit_last hb hn, Bool.and_true, if_true, if_neg hirr,
      foldlM_cons, foldlM_nil, bind_pure]

end LastBlock

/-! ## Commits that went through -/

structure Completed (cfg : Config) (order : MapOrder) (l : KvLedger) (block : Block)
    (s : BatchSchedule) where
  block' : Block
  updates : UpdateBatch
  adapter : StateDbAdapter
  history : HistoryDb
  prepare_eq : prepareWithBatchSchedule cfg order l.stateDb block s = .ok (block', updates)
  prepared : Prepared cfg order l.stateDb block s block' updates
  number : block'.header.number.toNat = l.blocks.length
  replayed : replaySchedule order block s l.stateDb = .ok adapter
  history_eq : if cfg.historyDbEnabled then l.historyDb.commit block' = .ok history
    else history = l.historyDb
  crashed : ∀ c, (commitWithBatchSchedule cfg order l block s).crashedAt c =
    match c with
    | .beforeAddBlock => l
    | .beforeFlush => ⟨l.blocks ++ [block'], l.stateDb, l.historyDb⟩
    | .beforeCommit => ⟨l.blocks ++ [block'], adapter.flush, l.historyDb⟩
    | .beforeHistory =>
      ⟨l.blocks ++ [block'], adapter.flush.applyUpdates updates (blockHeight block'), l.historyDb⟩
    | .afterHistory =>
      ⟨l.blocks ++ [block'], adapter.flush.applyUpdates updates (blockHeight block'), history⟩
  ledger : (commitWithBatchSchedule cfg order l block s).ledger =
    ⟨l.blocks ++ [block'], adapter.flush.applyUpdates updates (blockHeight block'), history⟩

theorem completed_of_ok {cfg : Config} {order : MapOrder} {l : KvLedger} {block : Block}
    {s : BatchSchedule} (h : (commitWithBatchSchedule cfg order l block s).outcome = .ok ()) :
    Nonempty (Completed cfg order l block s) := by
  cases hp : prepareWithBatchSchedule cfg order l.stateDb block s with
  | error f => simp [commitWithBatchSchedule, hp] at h
  | ok pr =>
    obtain ⟨block', updates⟩ := pr
    cases ha : addBlock l.blocks block' with
    | error f => simp [commitWithBatchSchedule, hp, ha] at h
    | ok blocks =>
      obtain ⟨p⟩ := prepareSchedule_ok hp
      obtain ⟨hnum, rfl⟩ := addBlock_ok ha
      have hreplay : replaySchedule order block' s l.stateDb =
          replaySchedule order block s l.stateDb :=
        replaySchedule_congr order order (by rw [p.block_eq]; rfl) (by rw [p.block_eq]; rfl) s _
      cases hr : replaySchedule order block s l.stateDb with
      | error f =>
        simp [commitWithBatchSchedule, hp, ha, commitBenchmarkTxs, hreplay, hr, bind,
          Except.bind] at h
      | ok a =>
        have hrun : commitWithBatchSchedule cfg order l block s = commitHistory cfg block' l
              [⟨l.blocks ++ [block'], l.stateDb, l.historyDb⟩,
                ⟨l.blocks ++ [block'], a.flush, l.historyDb⟩,
                ⟨l.blocks ++ [block'], a.flush.applyUpdates updates (blockHeight block'),
                  l.historyDb⟩]
              ⟨l.blocks ++ [block'], a.flush.applyUpdates updates (blockHeight block'),
                l.historyDb⟩ := by
          simp only [commitWithBatchSchedule, hp, ha, commitBenchmarkTxs, hreplay, hr, bind,
            Except.bind]
        rw [hrun] at h
        unfold commitHistory at h hrun
        cases he : cfg.historyDbEnabled with
        | false =>
          simp only [he, Bool.false_eq_true, if_false] at hrun
          refine ⟨⟨block', updates, a, l.historyDb, hp, p, hnum, hr, by simp [he], ?_, ?_⟩⟩
          · intro c
            rw [hrun]
            cases c <;> rfl
          · rw [hrun]
            rfl
        | true =>
          simp only [he, if_true] at hrun h
          cases hc : l.historyDb.commit block' with
          | error f =>
            rw [hc] at h
            cases f <;> simp [Result.panicWith] at h
          | ok hist =>
            simp only [hc] at hrun
            refine ⟨⟨block', updates, a, hist, hp, p, hnum, hr, by simp [he, hc], ?_, ?_⟩⟩
            · intro c
              rw [hrun]
              cases c <;> rfl
            · rw [hrun]
              rfl

section Completed

variable {cfg : Config} {order : MapOrder} {l : KvLedger} {block : Block} {s : BatchSchedule}
  (k : Completed cfg order l block s)

theorem Completed.history_savepoint (he : cfg.historyDbEnabled = true) :
    ∃ h, k.history.savepoint = some h ∧ h.blockNum = k.block'.header.number := by
  have hc := k.history_eq
  rw [if_pos he] at hc
  obtain ⟨flags, -, hc⟩ := bind_ok.mp hc
  obtain ⟨ks, -, hc⟩ := bind_ok.mp hc
  rw [← Except.ok.inj hc]
  exact ⟨_, rfl, rfl⟩

theorem Completed.inSync (k : Completed cfg order l block s) :
    InSync cfg (commitWithBatchSchedule cfg order l block s).ledger := by
  have hnum := k.number
  rw [k.ledger]
  constructor
  · show k.block'.header.number.toNat + 1 = (l.blocks ++ [k.block']).length
    rw [length_append, hnum]
    rfl
  · intro he
    obtain ⟨h, hs, hn⟩ := k.history_savepoint he
    rw [hs, length_append, ← hnum, ← hn]
    rfl

/-- The state database recovery leaves at each crash point. -/
def Completed.recoveredDb (k : Completed cfg order l block s) : CrashPoint → Result StateDb
  | .beforeAddBlock => .ok l.stateDb
  | .beforeFlush => do
    let (block, updates) ← validateAndPrepareBatch cfg.hash l.stateDb k.block' false
    .ok (l.stateDb.applyUpdates updates (blockHeight block))
  | .beforeCommit => .ok k.adapter.flush
  | .beforeHistory | .afterHistory =>
    .ok (k.adapter.flush.applyUpdates k.updates (blockHeight k.block'))

/-- Step 8 can be made up for after a crash whenever it went through without one. -/
theorem Completed.commitLost_history (he : cfg.historyDbEnabled = true) (l' : KvLedger)
    (hl : l'.historyDb = l.historyDb) :
    commitLostBlock cfg l' k.block' .history = .ok { l' with historyDb := k.history } := by
  have hc := k.history_eq
  rw [if_pos he] at hc
  simp only [commitLostBlock, hl, hc, bind, Except.bind]

theorem Completed.adapter_height : k.adapter.height = blockHeight k.block' := by
  have hheight := (replaySchedule_adapter k.replayed).2
  rw [hheight, k.prepared.block_eq]
  rfl

/-- Once the state has the block, recovery leaves it alone. -/
theorem Completed.recoverDbs_saved (hl : InSync cfg l) {db : StateDb}
    (hdb : db.savepoint = some (blockHeight k.block')) :
    (recoverDbs cfg ⟨l.blocks ++ [k.block'], db, l.historyDb⟩).map (·.stateDb) = .ok db := by
  have hrec : recoverDbs cfg ⟨l.blocks ++ [k.block'], db, l.historyDb⟩ =
      if cfg.historyDbEnabled then
        commitLostBlock cfg ⟨l.blocks ++ [k.block'], db, l.historyDb⟩ k.block' .history
      else .ok ⟨l.blocks ++ [k.block'], db, l.historyDb⟩ :=
    recoverDbs_state_level rfl k.number hdb rfl hl.history
  rw [hrec]
  split
  · rename_i he
    rw [k.commitLost_history he ⟨l.blocks ++ [k.block'], db, l.historyDb⟩ rfl]
    rfl
  · rfl

/-- Recovery at every crash point of a commit that would have gone through. -/
theorem Completed.recoverDbs_crashed (hl : InSync cfg l) (c : CrashPoint) :
    (recoverDbs cfg ((commitWithBatchSchedule cfg order l block s).crashedAt c)).map (·.stateDb) =
      k.recoveredDb c := by
  rw [k.crashed c]
  cases c with
  | beforeAddBlock =>
    rw [recoverDbs_inSync hl]
    rfl
  | beforeFlush =>
    have hrec : recoverDbs cfg ⟨l.blocks ++ [k.block'], l.stateDb, l.historyDb⟩ = _ :=
      recoverDbs_behind rfl k.number hl.state hl.history
    rw [hrec]
    simp only [commitLostBlock, Completed.recoveredDb]
    cases validateAndPrepareBatch cfg.hash l.stateDb k.block' false with
    | error f => rfl
    | ok r =>
      split
      · rename_i he
        have hc := k.history_eq
        rw [if_pos he] at hc
        simp only [hc, bind, Except.bind]
        rfl
      · rfl
  | beforeCommit => exact k.recoverDbs_saved hl (congrArg some k.adapter_height)
  | beforeHistory => exact k.recoverDbs_saved hl rfl
  | afterHistory =>
    have hin := k.inSync
    rw [k.ledger] at hin
    rw [recoverDbs_inSync hin]
    rfl

end Completed

/-- After a crash at `c`, recovery leaves the state of the uninterrupted commit. -/
def Recovers (cfg : Config) (order : MapOrder) (l : KvLedger) (block : Block) (s : BatchSchedule)
    (c : CrashPoint) : Prop :=
  (recoverDbs cfg ((commitWithBatchSchedule cfg order l block s).crashedAt c)).map (·.stateDb) =
    .ok (commitWithBatchSchedule cfg order l block s).ledger.stateDb

/-- A transaction of chaincode `mycc` whose endorsed set writes one key. -/
def putTx (txId key value : GoString) : SignedTx :=
  { SignedTx.bare txId (str "mycc") [str "put"] with
    results := TxRwSet.toProtoBytes [⟨str "mycc", [], [], [⟨key, false, some value⟩]⟩] }

/-- An account created by replay and a key put by an endorsed write set. -/
def mixedBlock : Block :=
  firstBlock [createAccountTx (str "t1") (str "a"), putTx (str "t2") (str "k") (str "v")] [0, 0]
    (scheduleOf [[str "t1"]])

def mixedEffects (db : StateDb) : Bool × Bool :=
  ((db.getState ccSmallBank (str "account:a")).isSome, (db.getState (str "mycc") (str "k")).isSome)

end FabricOev.Ledger
