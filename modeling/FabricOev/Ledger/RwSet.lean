import FabricOev.Ledger.StateDb
import FabricOev.Lib.LevelTree
import FabricOev.Protos.Messages

/-!
# Read-write sets

The endorsed read-write set of a transaction (`rwsetutil.TxRwSet`) and the Merkle
summary that stands for the results of a large range query. The hash function is a
parameter of the summary.
-/

namespace FabricOev.Ledger

open Go Go.Wire UInt64 Lib

structure KvRead where
  key : GoString
  version : Option Height
deriving DecidableEq, Repr

structure KvWrite where
  key : GoString
  isDelete : Bool
  value : Option Bytes
deriving DecidableEq, Repr

structure MerkleSummary where
  maxDegree : Nat
  maxLevel : Nat
  hashes : List Bytes
deriving DecidableEq, Repr

inductive ReadsInfo where
  | absent
  | rawReads (reads : List KvRead)
  | merkleHashes (summary : MerkleSummary)
deriving DecidableEq, Repr

structure RangeQueryInfo where
  startKey : GoString
  endKey : GoString
  itrExhausted : Bool
  readsInfo : ReadsInfo
deriving DecidableEq, Repr

structure NsRwSet where
  ns : GoString
  reads : List KvRead
  rangeQueries : List RangeQueryInfo
  writes : List KvWrite
deriving DecidableEq, Repr

abbrev TxRwSet := List NsRwSet

def versionDesc : Desc := [(1, .varint), (2, .varint)]

def heightOfFields (fs : List Field) : Height := ⟨ofNat (lastVarint 1 fs), ofNat (lastVarint 2 fs)⟩

def kvReadDesc : Desc := [(1, .bytes), (2, .bytes)]

def KvRead.ofFields (fs : List Field) : Option KvRead := do
  let v ← subMessage 2 versionDesc fs
  some ⟨lastString 1 fs, v.map heightOfFields⟩

def kvReads (num : Nat) (fs : List Field) : Option (List KvRead) := do
  let rs ← subMessages num kvReadDesc fs
  rs.mapM KvRead.ofFields

def KvWrite.ofFields (fs : List Field) : KvWrite :=
  ⟨lastString 1 fs, lastVarint 2 fs ≠ 0, lastBytes 3 fs⟩

/-- A `oneof` keeps the member read last; an earlier one is replaced, not merged. -/
def ReadsInfo.ofField (f : Field) : Option ReadsInfo :=
  match f.val with
  | .varint _ => some .absent
  | .bytes b =>
    if f.num = 4 then do
      let fs ← decodeFields [(1, .bytes)] b
      let rs ← kvReads 1 fs
      some (.rawReads rs)
    else do
      let fs ← decodeFields [(1, .varint), (2, .varint), (3, .bytes)] b
      some (.merkleHashes ⟨lastVarint 1 fs % 2 ^ 32, lastVarint 2 fs % 2 ^ 32, allBytes 3 fs⟩)

def RangeQueryInfo.ofFields (fs : List Field) : Option RangeQueryInfo := do
  let infos ← (fs.filter fun f => f.num = 4 ∨ f.num = 5).mapM ReadsInfo.ofField
  some ⟨lastString 1 fs, lastString 2 fs, lastVarint 3 fs ≠ 0, infos.getLast?.getD .absent⟩

def NsRwSet.unmarshal (ns : GoString) (b : Bytes) : Option NsRwSet := do
  let fs ← decodeFields [(1, .bytes), (2, .bytes), (3, .bytes)] b
  let reads ← kvReads 1 fs
  let qs ← subMessages 2 [(1, .bytes), (2, .bytes), (3, .varint), (4, .oneof), (5, .oneof)] fs
  let qs ← qs.mapM RangeQueryInfo.ofFields
  let ws ← subMessages 3 [(1, .bytes), (2, .varint), (3, .bytes)] fs
  some ⟨ns, reads, qs, ws.map KvWrite.ofFields⟩

def TxRwSet.fromProtoBytes (b : Bytes) : Option TxRwSet := do
  let fs ← decodeFields [(1, .varint), (2, .bytes)] b
  let sets ← subMessages 2 [(1, .bytes), (2, .bytes)] fs
  sets.mapM fun s => NsRwSet.unmarshal (lastString 1 s) (lastString 2 s)

def Height.marshal (h : Height) : Bytes :=
  encodeFields (varintField 1 h.blockNum.toNat ++ varintField 2 h.txNum.toNat)

def KvRead.marshal (r : KvRead) : Bytes :=
  encodeFields (bytesField 1 r.key ++ (r.version.map fun v => messageField 2 v.marshal).getD [])

def KvWrite.marshal (w : KvWrite) : Bytes :=
  encodeFields (bytesField 1 w.key ++ varintField 2 w.isDelete.toNat ++
    bytesField 3 (w.value.getD []))

def MerkleSummary.marshal (m : MerkleSummary) : Bytes :=
  encodeFields (varintField 1 m.maxDegree ++ varintField 2 m.maxLevel ++
    m.hashes.flatMap (messageField 3))

def ReadsInfo.toFields : ReadsInfo → List Field
  | .absent => []
  | .rawReads rs => messageField 4 (encodeFields (rs.flatMap fun r => messageField 1 r.marshal))
  | .merkleHashes m => messageField 5 m.marshal

def RangeQueryInfo.marshal (q : RangeQueryInfo) : Bytes :=
  encodeFields (bytesField 1 q.startKey ++ bytesField 2 q.endKey ++
    varintField 3 q.itrExhausted.toNat ++ q.readsInfo.toFields)

def NsRwSet.marshal (s : NsRwSet) : Bytes :=
  encodeFields (s.reads.flatMap (fun r => messageField 1 r.marshal) ++
    s.rangeQueries.flatMap (fun q => messageField 2 q.marshal) ++
    s.writes.flatMap fun w => messageField 3 w.marshal)

def TxRwSet.toProtoBytes (rw : TxRwSet) : Bytes :=
  encodeFields (rw.flatMap fun s =>
    messageField 2 (encodeFields (bytesField 1 s.ns ++ bytesField 2 s.marshal)))

def serializeKvReads (rs : List KvRead) : Bytes :=
  encodeFields (rs.flatMap fun r => messageField 1 r.marshal)

/-- `RangeQueryResultsHelper` with hashing on; the tree is the list of its levels, leaves first. -/
structure ResultsHelper where
  pending : List KvRead
  tree : List (List Bytes)
  maxDegree : Nat
deriving DecidableEq, Repr

def computeCombinedHash (hash : Bytes → Bytes) (hashes : List Bytes) : Bytes := hash hashes.flatten

namespace ResultsHelper

/-- `NewRangeQueryResultsHelper`; a degree below 2 is an error. -/
def new (maxDegree : Nat) : Option ResultsHelper :=
  if maxDegree < 2 then none else some ⟨[], [[]], maxDegree⟩

variable (hash : Bytes → Bytes)

/-- `merkleTree.update`: a level that overflows is combined into a node of the next. -/
abbrev update := LevelTree.push (computeCombinedHash hash)

def processPendingResults (r : ResultsHelper) : ResultsHelper :=
  { r with pending := [], tree := update hash r.maxDegree (hash (serializeKvReads r.pending)) r.tree }

def addResult (r : ResultsHelper) (kv : KvRead) : ResultsHelper :=
  let r := { r with pending := r.pending ++ [kv] }
  if r.maxDegree < r.pending.length then r.processPendingResults hash else r

/-- `merkleTree.done`. -/
abbrev complete := LevelTree.complete (computeCombinedHash hash)

/-- `getSummery`. -/
def summary (r : ResultsHelper) : MerkleSummary :=
  ⟨r.maxDegree, r.tree.length, LevelTree.top r.tree⟩

def isEmpty (r : ResultsHelper) : Bool := r.tree = [[]]

/-- The summary part of `Done`: nil if nothing was ever hashed. -/
def done (r : ResultsHelper) : Option MerkleSummary :=
  if r.isEmpty then none
  else
    let r := if r.pending = [] then r else r.processPendingResults hash
    some ({ r with tree := complete hash r.maxDegree r.tree }).summary

end ResultsHelper

end FabricOev.Ledger
