import FabricOev.Bench.Commit
import FabricOev.Ledger.StateValidator
import FabricOev.Ledger.Storage

/-!
# The ledger

`kvLedger.Commit` with its two paths, and the recovery that runs when a ledger is
opened. A commit is given by its trail: the ledger before the first write to disk and
after every one of them, so that the last entry is the ledger it leaves and the others
are the ledgers a crash can leave.
-/

namespace FabricOev.Ledger

open Go Protos Bench Result UInt64

/-- The configuration of a peer, and the hash function it uses. -/
structure Config where
  benchReplayEnabled : Bool
  historyDbEnabled : Bool
  hash : Bytes → Bytes

structure KvLedger where
  blocks : List Block
  stateDb : StateDb
  historyDb : HistoryDb

def KvLedger.empty : KvLedger := ⟨[], StateDb.empty, HistoryDb.empty⟩

/-- A commit: the ledgers on disk in the order they came about, and how it ended. -/
structure CommitRun where
  start : KvLedger
  rest : List KvLedger
  outcome : Result Unit

namespace CommitRun

def trail (r : CommitRun) : List KvLedger := r.start :: r.rest

def ledger (r : CommitRun) : KvLedger := r.rest.getLastD r.start

end CommitRun

/-- The savepoint height of a block: `uint64(len(block.Data.Data)-1)` wraps at zero. -/
def blockHeight (block : Block) : Height := ⟨block.header.number, ofNat block.data.length - 1⟩

/-- Step 8 and the end of the ordinary path. An error of the history database panics. -/
def commitHistory (cfg : Config) (block : Block) (start : KvLedger) (rest : List KvLedger)
    (l : KvLedger) : CommitRun :=
  if cfg.historyDbEnabled then
    match l.historyDb.commit block with
    | .ok h => ⟨start, rest ++ [{ l with historyDb := h }], .ok ()⟩
    | .error (.error _) =>
      ⟨start, rest, panicWith (.explicit (str "Error during commit to history db"))⟩
    | .error (.panic p) => ⟨start, rest, panicWith p⟩
  else ⟨start, rest, .ok ()⟩

/-- Set the flag of every scheduled transaction that the block has. -/
def setScheduledFlags (code : TxValidationCode) (index : List (GoString × Nat)) :
    List GoString → TxFlags → Result TxFlags
  | [], flags => .ok flags
  | id :: ids, flags =>
    match index.lookup id with
    | none => setScheduledFlags code index ids flags
    | some i => do
      let flags ← flags.setFlag i code
      setScheduledFlags code index ids flags

/-- Steps 1 to 4: the block with its final flags, and the batch. -/
def prepareWithBatchSchedule (cfg : Config) (order : MapOrder) (db : StateDb) (block : Block)
    (s : BatchSchedule) : Result (Block × UpdateBatch) := do
  let index ← buildTxIdIndexMap 0 block.data
  let flags ← block.txsFilter
  let flags ← setScheduledFlags .notValidated index (order.ids 2 s.allTxIds) flags
  let (block, updates) ← validateAndPrepareBatch cfg.hash db (block.setFilter flags) true
  let flags ← block.metadataAt MetadataIndex.transactionsFilter
  let flags ← setScheduledFlags .valid index (order.ids 4 s.allTxIds) flags
  .ok (block.setFilter flags, updates)

def commitWithBatchSchedule (cfg : Config) (order : MapOrder) (l : KvLedger) (block : Block)
    (s : BatchSchedule) : CommitRun :=
  match prepareWithBatchSchedule cfg order l.stateDb block s with
  | .error f => ⟨l, [], .error f⟩
  | .ok (block, updates) =>
    -- Step 5
    match addBlock l.blocks block with
    | .error f => ⟨l, [], .error f⟩
    | .ok blocks =>
      let l₁ := { l with blocks := blocks }
      -- Step 6
      match commitBenchmarkTxs order block s l₁.stateDb with
      | .error f => ⟨l, [l₁], .error f⟩
      | .ok db =>
        let l₂ := { l₁ with stateDb := db }
        -- Step 7
        let l₃ := { l₂ with stateDb := l₂.stateDb.applyUpdates updates (blockHeight block) }
        commitHistory cfg block l [l₁, l₂, l₃] l₃

/-- The path of a block without a schedule. -/
def commitMvcc (cfg : Config) (l : KvLedger) (block : Block) : CommitRun :=
  match validateAndPrepareBatch cfg.hash l.stateDb block true with
  | .error f => ⟨l, [], .error f⟩
  | .ok (block, updates) =>
    match addBlock l.blocks block with
    | .error f => ⟨l, [], .error f⟩
    | .ok blocks =>
      let l₁ := { l with blocks := blocks }
      let l₂ := { l₁ with stateDb := l₁.stateDb.applyUpdates updates (blockHeight block) }
      commitHistory cfg block l [l₁, l₂] l₂

def commit (cfg : Config) (order : MapOrder) (l : KvLedger) (block : Block) : CommitRun :=
  if cfg.benchReplayEnabled then
    match parseBatchSchedule block with
    | some s => commitWithBatchSchedule cfg order l block s
    | none => commitMvcc cfg l block
  else commitMvcc cfg l block

/-- What recovery can bring up to date. -/
inductive Recoverable where
  | state
  | history
deriving DecidableEq, Repr

/-- `ShouldRecover`: whether, and from which block. -/
def shouldRecover (cfg : Config) (l : KvLedger) (last : UInt64) : Recoverable → Bool × UInt64
  | .state =>
    match l.stateDb.savepoint with
    | none => (true, 0)
    | some h => (h.blockNum ≠ last, h.blockNum + 1)
  | .history =>
    if cfg.historyDbEnabled then
      match l.historyDb.savepoint with
      | none => (true, 0)
      | some h => (h.blockNum ≠ last, h.blockNum + 1)
    else (false, 0)

/-- `CommitLostBlock`; the state database is recommitted without the version checks. -/
def commitLostBlock (cfg : Config) (l : KvLedger) (block : Block) :
    Recoverable → Result KvLedger
  | .state => do
    let (block, updates) ← validateAndPrepareBatch cfg.hash l.stateDb block false
    .ok { l with stateDb := l.stateDb.applyUpdates updates (blockHeight block) }
  | .history => do
    let h ← l.historyDb.commit block
    .ok { l with historyDb := h }

/-- `recommitLostBlocks` over the block numbers from `first` to `last`. -/
def recommitLostBlocks (cfg : Config) (first last : UInt64) (rs : List Recoverable)
    (l : KvLedger) : Result KvLedger :=
  (List.range' first.toNat (last.toNat + 1 - first.toNat)).foldlM (fun l n =>
    match l.blocks[n]? with
    | none => errorf "Entry not found in index"
    | some block => rs.foldlM (fun l r => commitLostBlock cfg l block r) l) l

def recoverDbs (cfg : Config) (l : KvLedger) : Result KvLedger :=
  if l.blocks = [] then .ok l
  else
    let last := ofNat l.blocks.length - 1
    let (rs, fs) := shouldRecover cfg l last .state
    let (rh, fh) := shouldRecover cfg l last .history
    if rs && rh then
      -- the database that lags is brought level with the other one first
      if fh < fs then do
        let l ← recommitLostBlocks cfg fh (fs - 1) [.history] l
        recommitLostBlocks cfg fs last [.history, .state] l
      else if fs < fh then do
        let l ← recommitLostBlocks cfg fs (fh - 1) [.state] l
        recommitLostBlocks cfg fh last [.state, .history] l
      else recommitLostBlocks cfg fs last [.state, .history] l
    else if rs then recommitLostBlocks cfg fs last [.state] l
    else if rh then recommitLostBlocks cfg fh last [.history] l
    else .ok l

end FabricOev.Ledger
