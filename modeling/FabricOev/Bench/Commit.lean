import FabricOev.Bench.Replay
import FabricOev.Bench.Schedule
import FabricOev.Ledger.StateDb

/-!
# Committing benchmark transactions

`CommitBenchmarkTxs`: the scheduled transactions of a block are replayed batch by batch on an
adapter over the state database and flushed in one write. A batch of several runs every transaction
against the adapter before the batch and merges the write maps in the order of the list. A failed
replay leaves no trace. The validation flags are not looked at.
-/

namespace FabricOev.Bench

open Go Protos Ledger Result

structure StateDbAdapter where
  db : StateDb
  batch : UpdateBatch
  height : Height

namespace StateDbAdapter

/-- `uint64(numTxs-1)` wraps for an empty block. -/
def new (db : StateDb) (blockNum : UInt64) (numTxs : Nat) : StateDbAdapter :=
  ⟨db, ∅, ⟨blockNum, UInt64.ofNat numTxs - 1⟩⟩

/-- Own writes first, then the database. -/
def getState (a : StateDbAdapter) (ns key : GoString) : Option Bytes :=
  match a.batch.get ns key with
  | some u => u.value
  | none => (a.db.getState ns key).map (·.value)

/-- The values the replay engines write are never nil. -/
def putState (a : StateDbAdapter) (ns key : GoString) (value : Bytes) : StateDbAdapter :=
  { a with batch := a.batch.insert ⟨ns, key⟩ ⟨some value, a.height⟩ }

def flush (a : StateDbAdapter) : StateDb := a.db.applyUpdates a.batch a.height

end StateDbAdapter

/-- The envelope's TxID; `none` if a part of it does not decode. A missing header panics. -/
def txIdOf (data : Bytes) : Result (Option GoString) := do
  match ← (channelHeaderOf data).attempt with
  | .error _ => .ok none
  | .ok chdr => .ok (some chdr.txId)

/-- `findTxInBlock`: the first envelope with that TxID, of whatever type. -/
def findTxInBlock : List Bytes → GoString → Result (Option Bytes)
  | [], _ => .ok none
  | d :: ds, txId => do
    if (← txIdOf d) = some txId then .ok (some d) else findTxInBlock ds txId

structure Invocation where
  ccName : GoString
  funcName : GoString
  args : List GoString
deriving DecidableEq, Repr

def extractInvocationFromEnvBytes (data : Bytes) : Result Invocation := do
  let env ← getEnvelopeFromBlock data
  let payload ← getPayload env
  let hdrExt ← getChaincodeHeaderExtension payload.header
  let ccId ← deref hdrExt.chaincodeId
  let tx ← getTransaction payload.data
  match tx.actions with
  | [] => errorf "no actions in tx"
  | act :: _ => do
    let cap ← getChaincodeActionPayload act.payload
    let cpp ← getChaincodeProposalPayload cap.chaincodeProposalPayload
    let cis ← ofOption .proto (ChaincodeInvocationSpec.unmarshal cpp.input)
    let spec ← deref cis.chaincodeSpec
    let input ← deref spec.input
    match input.args with
    | [] => errorf "empty args"
    | funcName :: args => .ok ⟨ccId.name, funcName, args⟩

/-- The invocation a scheduled id stands for: found and decoded, or not. -/
def lookupInvocation (block : Block) (txId : GoString) : Result (Option Invocation) := do
  match ← findTxInBlock block.data txId with
  | none => .ok none
  | some data =>
    match ← (extractInvocationFromEnvBytes data).attempt with
    | .error _ => .ok none
    | .ok inv => .ok (some inv)

/-- The write map of one invocation, and the namespace it goes to; `none` if the replay
fails. -/
def Invocation.replay (inv : Invocation) (a : StateDbAdapter) : Option WriteMap :=
  (replayTx a.getState inv.ccName inv.funcName inv.args).toOption

/-- The order in which Go ranges over its maps: any permutation of their entries, at
every visit anew. -/
structure MapOrder where
  writes : Nat → Nat → WriteMap → List (GoString × Bytes)
  writes_perm : ∀ i j m, (writes i j m).Perm m.toList
  ids : Nat → List GoString → List GoString
  ids_perm : ∀ i l, (ids i l).Perm l

def MapOrder.sorted : MapOrder where
  writes _ _ m := m.toList
  writes_perm _ _ _ := List.Perm.refl _
  ids _ l := l
  ids_perm _ _ := List.Perm.refl _

def putWrites (ccName : GoString) (ws : List (GoString × Bytes)) (a : StateDbAdapter) :
    StateDbAdapter :=
  ws.foldl (fun a w => a.putState ccName w.1 w.2) a

/-- Replay one invocation on `base` and merge its writes into `a`. -/
def mergeReplay (order : WriteMap → List (GoString × Bytes)) (base a : StateDbAdapter)
    (inv : Option Invocation) : StateDbAdapter :=
  match inv with
  | none => a
  | some inv =>
    match inv.replay base with
    | none => a
    | some ws => putWrites inv.ccName (order ws) a

def replaySingleTx (order : WriteMap → List (GoString × Bytes)) (block : Block)
    (a : StateDbAdapter) (txId : GoString) : Result StateDbAdapter := do
  let inv ← lookupInvocation block txId
  .ok (mergeReplay order a a inv)

/-- The merge loop of a parallel batch, over the results of `replayTxForParallel` on `base`. -/
def mergeResults (order : Nat → WriteMap → List (GoString × Bytes)) (base : StateDbAdapter) :
    Nat → List (Option Invocation) → StateDbAdapter → StateDbAdapter
  | _, [], a => a
  | j, inv :: invs, a => mergeResults order base (j + 1) invs (mergeReplay (order j) base a inv)

/-- One batch: at most one transaction runs directly, more run in parallel. -/
def replayBatch (order : Nat → WriteMap → List (GoString × Bytes)) (block : Block)
    (a : StateDbAdapter) (txIds : List GoString) : Result StateDbAdapter :=
  match txIds with
  | [] => .ok a
  | [txId] => replaySingleTx (order 0) block a txId
  | txIds => do
    let invs ← txIds.mapM (lookupInvocation block)
    .ok (mergeResults order a 0 invs a)

def replayBatches (order : MapOrder) (block : Block) :
    Nat → List BatchEntry → StateDbAdapter → Result StateDbAdapter
  | _, [], a => .ok a
  | i, e :: es, a => do
    let a ← replayBatch (order.writes i) block a e.txIds
    replayBatches order block (i + 1) es a

/-- The adapter after all batches; its batch is what is flushed. -/
def replaySchedule (order : MapOrder) (block : Block) (s : BatchSchedule) (db : StateDb) :
    Result StateDbAdapter :=
  replayBatches order block 0 s.batches
    (StateDbAdapter.new db block.header.number block.data.length)

def commitBenchmarkTxs (order : MapOrder) (block : Block) (s : BatchSchedule) (db : StateDb) :
    Result StateDb := do
  let a ← replaySchedule order block s db
  .ok a.flush

/-- `BuildTxIDIndexMap` from index `i` on: a later envelope replaces an earlier one. -/
def buildTxIdIndexMap : Nat → List Bytes → Result (List (GoString × Nat))
  | _, [] => .ok []
  | i, d :: ds => do
    let id ← txIdOf d
    let m ← buildTxIdIndexMap (i + 1) ds
    match id with
    | none => .ok m
    | some id => .ok (m ++ [(id, i)])

end FabricOev.Bench
