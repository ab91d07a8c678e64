import FabricOev.Go.VarUint
import FabricOev.Ledger.Block
import FabricOev.Ledger.RwSet

/-!
# Block store and history database

The two other stores of a ledger. The block store is the list of blocks it holds, its
length the height; a block with an envelope that does not decode is refused, except that
an undecodable payload is indexed under the empty TxID. The history database holds one
key per endorsed write of a transaction flagged valid, whatever the state database did
with it.
-/

namespace FabricOev.Ledger

open Go Protos Result UInt64

/-- `extractTxID` of the block serialisation. -/
def extractTxId (data : Bytes) : Result GoString := do
  let env ← getEnvelopeFromBlock data
  match ← (getPayload env).attempt with
  | .error _ => .ok []
  | .ok payload => do
    let hdr ← deref payload.header
    let chdr ← unmarshalChannelHeader hdr.channelHeader
    .ok chdr.txId

/-- `addBlock`. The index reads a flag for every transaction. -/
def addBlock (blocks : List Block) (block : Block) : Result (List Block) := do
  if block.header.number.toNat ≠ blocks.length then
    fail (.text (str "Block number should have been " ++ formatNat blocks.length ++
      str " but was " ++ formatNat block.header.number.toNat))
  else do
    let _ ← block.data.mapM extractTxId
    let flags ← block.metadataAt MetadataIndex.transactionsFilter
    if flags.length < block.data.length then panicWith .indexOutOfRange
    else .ok (blocks ++ [block])

/-- `GetTransactionByID` finds a transaction. -/
def hasTransaction (blocks : List Block) (txId : GoString) : Bool :=
  blocks.any fun b => b.data.any fun d => extractTxId d = .ok txId

/-- `ConstructCompositeHistoryKey`. -/
def historyKey (ns key : GoString) (blockNum tranNum : UInt64) : Bytes :=
  ns ++ [0] ++ key ++ [0] ++ encodeOrderPreservingVarUint64 blockNum ++
    encodeOrderPreservingVarUint64 tranNum

structure HistoryDb where
  entries : Std.ExtTreeSet Bytes compare
  savepoint : Option Height

def HistoryDb.empty : HistoryDb := ⟨∅, none⟩

def historyKeysOf (blockNum : UInt64) (i : Nat) (data : Bytes) : Result (List Bytes) := do
  let chdr ← channelHeaderOf data
  if chdr.headerType ≠ HeaderType.endorserTransaction then .ok []
  else do
    let action ← getActionFromEnvelope data
    let rw ← ofOption .proto (TxRwSet.fromProtoBytes action.results)
    .ok (rw.flatMap fun s => s.writes.map fun w => historyKey s.ns w.key blockNum (ofNat i))

def historyLoop (blockNum : UInt64) (flags : TxFlags) :
    Nat → List Bytes → Result (List Bytes)
  | _, [] => .ok []
  | i, d :: ds => do
    let ks ← if ← flags.isValid i then historyKeysOf blockNum i d else .ok []
    let rest ← historyLoop blockNum flags (i + 1) ds
    .ok (ks ++ rest)

def HistoryDb.commit (h : HistoryDb) (block : Block) : Result HistoryDb := do
  let flags ← block.txsFilter
  let ks ← historyLoop block.header.number flags 0 block.data
  .ok ⟨ks.foldl (fun s k => s.insert k) h.entries,
    some ⟨block.header.number, ofNat block.data.length⟩⟩

end FabricOev.Ledger
