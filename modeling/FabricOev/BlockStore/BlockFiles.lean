import FabricOev.BlockStore.Index
import FabricOev.Lib.CrashLog

/-!
# Block files

Blocks are appended to numbered files, each behind its length, and read back one after the
other. A file that a crash has cut ends with a part of a block; the reader tells this from a
whole block by the length. The files and the index database are what is left of a block store
when its process is gone.
-/

namespace FabricOev.BlockStore

open Go Go.Wire Protos Ledger Lib Result Option

def errUnexpectedEndOfBlockfile : GoError := .text (str "unexpected end of blockfile")

structure BlockPlacementInfo where
  fileNum : Nat
  blockStartOffset : Nat
  blockBytesOffset : Nat
deriving DecidableEq, Repr

/-- `blockfileStream`: the number of the open file and the offset in it. -/
structure BlockfileStream where
  fileNum : Nat
  currentOffset : Nat
deriving DecidableEq, Repr

/-- What a stream returns: the bytes of a block with its place, or nothing at the end. -/
abbrev NextBlock := Option (Bytes × BlockPlacementInfo)

/-- `nextBlockBytesAndPlacementInfo` of one file; at most eight bytes are read for the length. -/
def BlockfileStream.next (s : BlockfileStream) (file : Bytes) :
    Result (NextBlock × BlockfileStream) :=
  if s.currentOffset = file.length then .ok (none, s)
  else if file.length < s.currentOffset then errorf "bufio: negative count"
  else
    let rest := file.drop s.currentOffset
    let lenBytes := rest.take 8
    match decodeVarint lenBytes with
    | none =>
      if rest.length < 8 then fail errUnexpectedEndOfBlockfile
      else panicWith (.explicit (str "Error in decoding varint bytes"))
    | some (length, behind) =>
      let n := lenBytes.length - behind.length
      if rest.length < n + length then fail errUnexpectedEndOfBlockfile
      else
        .ok (some ((rest.drop n).take length, ⟨s.fileNum, s.currentOffset, s.currentOffset + n⟩),
          { s with currentOffset := s.currentOffset + (n + length) })

def openFile (files : List Bytes) (fileNum : Nat) : Result Bytes :=
  ofOption (.text (str "no such file or directory")) files[fileNum]?

/-- `nextBlockBytesAndPlacementInfo` of a `blockStream`, up to `endFileNum` or the last file. -/
def blockStreamLoop (files : List Bytes) (endFileNum : Option Nat) :
    Nat → BlockfileStream → Result (NextBlock × BlockfileStream)
  | 0, s => .ok (none, s)
  | fuel + 1, s => do
    let file ← openFile files s.fileNum
    let (block, s) ← s.next file
    if block = none ∧ endFileNum.all (s.fileNum < ·) then do
      let _ ← openFile files (s.fileNum + 1)
      blockStreamLoop files endFileNum fuel ⟨s.fileNum + 1, 0⟩
    else .ok (block, s)

/-- There are no more files to go through than there are files. -/
def blockStreamNext (files : List Bytes) (endFileNum : Option Nat) (s : BlockfileStream) :
    Result (NextBlock × BlockfileStream) :=
  blockStreamLoop files endFileNum (files.length - s.fileNum + 1) s

/-- The loop of `scanForLastCompleteBlock`: a part of a block ends it like the end of the
file. -/
def scanLoop (file : Bytes) : Nat → BlockfileStream → Nat → Result (Nat × Nat)
  | 0, s, numBlocks => .ok (s.currentOffset, numBlocks)
  | fuel + 1, s, numBlocks => do
    match ← (s.next file).attempt with
    | .error e =>
      if e = errUnexpectedEndOfBlockfile then .ok (s.currentOffset, numBlocks) else fail e
    | .ok (none, s) => .ok (s.currentOffset, numBlocks)
    | .ok (some _, s) => scanLoop file fuel s (numBlocks + 1)

/-- The end of the last whole block from an offset on, and the number of blocks up to it. -/
def scanForLastCompleteBlock (file : Bytes) (fileNum startingOffset : Nat) : Result (Nat × Nat) :=
  scanLoop file (file.length + 1) ⟨fileNum, startingOffset⟩ 0

structure CheckpointInfo where
  latestFileChunkSuffixNum : Nat
  latestFileChunksize : Nat
  isChainEmpty : Bool
  lastBlockNumber : UInt64
deriving DecidableEq, Repr

namespace CheckpointInfo

def marshal (i : CheckpointInfo) : Bytes :=
  encodeVarint i.latestFileChunkSuffixNum ++ encodeVarint i.latestFileChunksize ++
    encodeVarint i.lastBlockNumber.toNat ++ encodeVarint (if i.isChainEmpty then 1 else 0)

def unmarshal (b : Bytes) : Option CheckpointInfo := do
  let (suffix, b) ← decodeVarint b
  let (size, b) ← decodeVarint b
  let (last, b) ← decodeVarint b
  let (marker, _) ← decodeVarint b
  some ⟨suffix, size, marker = 1, UInt64.ofNat last⟩

theorem unmarshal_marshal {i : CheckpointInfo} (hn : i.latestFileChunkSuffixNum < 2 ^ 64)
    (hs : i.latestFileChunksize < 2 ^ 64) : unmarshal i.marshal = some i := by
  obtain ⟨suffix, size, empty, last⟩ := i
  have hmarker : decodeVarint (encodeVarint (if empty = true then 1 else 0)) =
      some (if empty = true then 1 else 0, []) := by
    cases empty <;> rfl
  simp only [unmarshal, marshal, List.append_assoc, decode_encodeVarint hn,
    decode_encodeVarint hs, decode_encodeVarint last.toNat_lt, hmarker,
    bind_eq_bind, bind_some, UInt64.ofNat_toNat]
  cases empty <;> rfl

end CheckpointInfo

structure Disk where
  files : List (CrashLog UInt8)
  db : CrashLog LevelBatch

/-- A change of what is on disk. Files are made when first opened, in the order of their numbers. -/
inductive DiskEffect where
  | openFile (fileNum : Nat)
  | append (fileNum : Nat) (b : Bytes)
  | syncFile (fileNum : Nat)
  | truncate (fileNum size : Nat)
  | write (batch : LevelBatch) (sync : Bool)

/-- `Put`, as a batch of its own. -/
def putBatch (key value : Bytes) : LevelBatch := FinMap.insertAll ∅ [(key, some value)]

namespace Disk

def empty : Disk := ⟨[], .empty⟩

def contents (d : Disk) : List Bytes := d.files.map (·.entries)

def dbOf (log : List LevelBatch) : LevelDb := log.foldl LevelDb.writeBatch ∅

def levelDb (d : Disk) : LevelDb := dbOf d.db.entries

def apply (d : Disk) : DiskEffect → Disk
  | .openFile n => { d with files := if n < d.files.length then d.files else d.files ++ [.empty] }
  | .append n b => { d with files := d.files.modify n (·.append b) }
  | .syncFile n => { d with files := d.files.modify n (·.sync) }
  | .truncate n size =>
    { d with files := d.files.modify n fun f =>
        if size < f.entries.length then f.truncate size else f }
  | .write batch sync =>
    { d with db := if sync then (d.db.append [batch]).sync else d.db.append [batch] }

/-- After a crash that keeps some bytes of every file and some writes of the database. -/
def crash (d : Disk) (bytes : Nat → Nat) (writes : Nat) : Disk :=
  ⟨d.files.mapIdx fun i f => f.crash (bytes i), d.db.crash writes⟩

end Disk

end FabricOev.BlockStore
