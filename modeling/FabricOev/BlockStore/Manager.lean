import FabricOev.BlockStore.BlockFiles

/-!
# The block file manager

`blockfileMgr`: `addBlock` appends a block to the current file, saves the checkpoint, indexes
the block and then updates what it holds in memory. It reads nothing from disk, so that it is
a list of steps computed in advance. `newBlockfileMgr` brings checkpoint, file and index back in
line with each other after the process has ended anywhere in between.
-/

namespace FabricOev.BlockStore

open Go Go.Wire Protos Ledger Lib Result UInt64 Prod

structure BlockchainInfo where
  height : UInt64
  currentBlockHash : Bytes
  previousBlockHash : Bytes
deriving DecidableEq, Repr

structure BlockfileMgr where
  cpInfo : CheckpointInfo
  bcInfo : BlockchainInfo
deriving DecidableEq, Repr

/-- The configuration of a store, and the hash of block headers. -/
structure StoreConf where
  maxBlockfileSize : Nat
  attrs : IndexConfig
  hash : BlockHeader → Bytes

structure Store where
  disk : Disk
  mgr : BlockfileMgr

inductive StoreStep where
  | disk (e : DiskEffect)
  | updateCheckpoint (cpInfo : CheckpointInfo)
  | updateBlockchainInfo (latestBlockHash previousHash : Bytes)

namespace Store

def apply (s : Store) : StoreStep → Store
  | .disk e => { s with disk := s.disk.apply e }
  | .updateCheckpoint cpInfo => { s with mgr := { s.mgr with cpInfo := cpInfo } }
  | .updateBlockchainInfo hash previousHash =>
    { s with mgr := { s.mgr with bcInfo := ⟨s.mgr.bcInfo.height + 1, hash, previousHash⟩ } }

def applyAll (s : Store) (steps : List StoreStep) : Store := steps.foldl apply s

end Store

def saveCurrentInfo (cpInfo : CheckpointInfo) (sync : Bool) : StoreStep :=
  .disk (.write (putBatch blkMgrInfoKey cpInfo.marshal) sync)

/-- The checkpoint of `moveToNextFile`: the chain is taken to have a block. -/
def CheckpointInfo.nextFile (cpInfo : CheckpointInfo) : CheckpointInfo :=
  ⟨cpInfo.latestFileChunkSuffixNum + 1, 0, false, cpInfo.lastBlockNumber⟩

def moveToNextFile (cpInfo : CheckpointInfo) : List StoreStep :=
  [.disk (.openFile cpInfo.nextFile.latestFileChunkSuffixNum),
    saveCurrentInfo cpInfo.nextFile true, .updateCheckpoint cpInfo.nextFile]

/-- The text of an error behind the one of a caller; library errors carry no text. -/
def wrapError (text : String) : Fault → Fault
  | .error (.text msg) => .error (.text (str text ++ msg))
  | f => f

/-- The offsets of the transactions behind the length of the block. -/
def shiftOffsets (n : Nat) (txOffsets : List TxIndexInfo) : List TxIndexInfo :=
  txOffsets.map fun t => { t with loc := { t.loc with offset := t.loc.offset + n } }

def idxInfo (hash : BlockHeader → Bytes) (b : Block) (flp : FileLocPointer)
    (txOffsets : List TxIndexInfo) : BlockIdxInfo :=
  ⟨b.header.number, hash b.header, flp, txOffsets, b.metadata⟩

def indexSteps (attrs : IndexConfig) (info : BlockIdxInfo) (writeFails : Bool) :
    Result (List StoreStep) := do
  match ← indexBlock attrs info with
  | none => .ok []
  | some batch => .ok (if writeFails then [] else [.disk (.write batch false)])

def appendBlock (conf : StoreConf) (cpInfo : CheckpointInfo) (b : Block) (blockBytes : Bytes)
    (txOffsets : List TxIndexInfo) (indexFails : Bool) : List StoreStep × Result Unit :=
  let encodedLen := encodeVarint blockBytes.length
  let total := blockBytes.length + encodedLen.length
  let newCpInfo : CheckpointInfo :=
    ⟨cpInfo.latestFileChunkSuffixNum, cpInfo.latestFileChunksize + total, false, b.header.number⟩
  let flp : FileLocPointer := ⟨cpInfo.latestFileChunkSuffixNum, ⟨cpInfo.latestFileChunksize, 0⟩⟩
  let file := cpInfo.latestFileChunkSuffixNum
  let stored : List StoreStep :=
    [.disk (.append file encodedLen), .disk (.append file blockBytes), .disk (.syncFile file),
      saveCurrentInfo newCpInfo false]
  match indexSteps conf.attrs (idxInfo conf.hash b flp (shiftOffsets encodedLen.length txOffsets))
      indexFails with
  | .error e => (stored, .error e)
  | .ok indexed =>
    (stored ++ indexed ++ [.updateCheckpoint newCpInfo,
      .updateBlockchainInfo (conf.hash b.header) b.header.previousHash], .ok ())

/-- The file that a block does not fit into is left for the next one. -/
def Rolls (conf : StoreConf) (cpInfo : CheckpointInfo) (blockBytes : Bytes) : Prop :=
  conf.maxBlockfileSize <
    cpInfo.latestFileChunksize + (blockBytes.length + (encodeVarint blockBytes.length).length)

instance (conf : StoreConf) (cpInfo : CheckpointInfo) (blockBytes : Bytes) :
    Decidable (Rolls conf cpInfo blockBytes) := inferInstanceAs (Decidable (_ < _))

/-- `addBlock`, with an index database whose write may fail. -/
def addBlock (conf : StoreConf) (mgr : BlockfileMgr) (b : Block) (indexFails : Bool) :
    List StoreStep × Result Unit :=
  if b.header.number ≠ mgr.bcInfo.height then
    ([], fail (.text (str "Block number should have been " ++
      formatNat mgr.bcInfo.height.toNat ++ str " but was " ++ formatNat b.header.number.toNat)))
  else
    match serializeBlock b with
    | .error e => ([], .error (wrapError "Error while serializing block: " e))
    | .ok (blockBytes, txOffsets) =>
      if Rolls conf mgr.cpInfo blockBytes then
        let rest := appendBlock conf mgr.cpInfo.nextFile b blockBytes txOffsets indexFails
        (moveToNextFile mgr.cpInfo ++ rest.1, rest.2)
      else appendBlock conf mgr.cpInfo b blockBytes txOffsets indexFails

def lookupLoc (attrs : IndexConfig) (attr : IndexableAttr) (db : LevelDb) (key : Bytes) :
    Result FileLocPointer :=
  if attrs attr then
    match db[key]? with
    | none => errorf "Entry not found in index"
    | some b => .ok (FileLocPointer.unmarshal b)
  else errorf "Attribute not indexed"

def getBlockLocByHash (attrs : IndexConfig) (db : LevelDb) (blockHash : Bytes) :
    Result FileLocPointer := lookupLoc attrs .blockHash db (constructBlockHashKey blockHash)

def getBlockLocByBlockNum (attrs : IndexConfig) (db : LevelDb) (blockNum : UInt64) :
    Result FileLocPointer := lookupLoc attrs .blockNum db (constructBlockNumKey blockNum)

def getTxLoc (attrs : IndexConfig) (db : LevelDb) (txId : GoString) : Result FileLocPointer :=
  lookupLoc attrs .txId db (constructTxIdKey txId)

def getBlockLocByTxId (attrs : IndexConfig) (db : LevelDb) (txId : GoString) :
    Result FileLocPointer := lookupLoc attrs .blockTxId db (constructBlockTxIdKey txId)

def getTxLocByBlockNumTranNum (attrs : IndexConfig) (db : LevelDb) (blockNum tranNum : UInt64) :
    Result FileLocPointer :=
  lookupLoc attrs .blockNumTranNum db (constructBlockNumTranNumKey blockNum tranNum)

/-- The code is the one byte of the entry. -/
def getTxValidationCodeByTxId (attrs : IndexConfig) (db : LevelDb) (txId : GoString) :
    Result UInt8 :=
  if attrs .txValidationCode then
    match db[constructTxValidationCodeIdKey txId]? with
    | none => errorf "Entry not found in index"
    | some [code] => .ok code
    | some _ => errorf "Invalid value in indexItems"
  else errorf "Attribute not indexed"

/-- `fetchBlockBytes`; at the end of the file it returns nil without an error. -/
def fetchBlockBytes (files : List Bytes) (lp : FileLocPointer) : Result Bytes := do
  let file ← openFile files lp.fileSuffixNum
  let (block, _) ← BlockfileStream.next ⟨lp.fileSuffixNum, lp.loc.offset⟩ file
  .ok ((block.map fst).getD [])

def fetchBlock (files : List Bytes) (lp : FileLocPointer) : Result Block := do
  let blockBytes ← fetchBlockBytes files lp
  deserializeBlock blockBytes

/-- `fetchRawBytes`: `ReadAt` fails if there are not as many bytes. -/
def fetchRawBytes (files : List Bytes) (lp : FileLocPointer) : Result Bytes := do
  let file ← openFile files lp.fileSuffixNum
  if file.length < lp.loc.offset + lp.loc.bytesLength then errorf "EOF"
  else .ok (lp.loc.slice file)

def fetchTransactionEnvelope (files : List Bytes) (lp : FileLocPointer) : Result Envelope := do
  let txEnvelopeBytes ← fetchRawBytes files lp
  envelopeAt txEnvelopeBytes

namespace Store

variable (conf : StoreConf) (s : Store)

def retrieveBlockByHash (blockHash : Bytes) : Result Block := do
  let loc ← getBlockLocByHash conf.attrs s.disk.levelDb blockHash
  fetchBlock s.disk.contents loc

/-- The largest number asks for the last block. -/
def retrieveBlockByNumber (blockNum : UInt64) : Result Block := do
  let blockNum := if blockNum = ofNat (2 ^ 64 - 1) then s.mgr.bcInfo.height - 1 else blockNum
  let loc ← getBlockLocByBlockNum conf.attrs s.disk.levelDb blockNum
  fetchBlock s.disk.contents loc

def retrieveBlockByTxId (txId : GoString) : Result Block := do
  let loc ← getBlockLocByTxId conf.attrs s.disk.levelDb txId
  fetchBlock s.disk.contents loc

def retrieveTxValidationCodeByTxId (txId : GoString) : Result UInt8 :=
  getTxValidationCodeByTxId conf.attrs s.disk.levelDb txId

def retrieveTransactionById (txId : GoString) : Result Envelope := do
  let loc ← getTxLoc conf.attrs s.disk.levelDb txId
  fetchTransactionEnvelope s.disk.contents loc

def retrieveTransactionByBlockNumTranNum (blockNum tranNum : UInt64) : Result Envelope := do
  let loc ← getTxLocByBlockNumTranNum conf.attrs s.disk.levelDb blockNum tranNum
  fetchTransactionEnvelope s.disk.contents loc

end Store

def retrieveBlockHeaderByNumber (attrs : IndexConfig) (d : Disk) (blockNum : UInt64) :
    Result BlockHeader := do
  let loc ← getBlockLocByBlockNum attrs d.levelDb blockNum
  let blockBytes ← fetchBlockBytes d.contents loc
  let info ← extractSerializedBlockInfo blockBytes
  .ok info.blockHeader

def newCpInfo : CheckpointInfo := ⟨0, 0, true, 0⟩

/-- `loadCurrentInfo`: nothing, a checkpoint, or bytes that are none. -/
def loadCurrentInfo (db : LevelDb) : Result (Option CheckpointInfo) :=
  match db[blkMgrInfoKey]? with
  | none => .ok none
  | some b => (ofOption .proto (CheckpointInfo.unmarshal b)).map some

/-- `syncCPInfoFromFS`: blocks in the file behind the checkpoint are counted. -/
def syncCpInfoFromFs (files : List Bytes) (cpInfo : CheckpointInfo) : Result CheckpointInfo :=
  match files[cpInfo.latestFileChunkSuffixNum]? with
  | none => .ok cpInfo
  | some file =>
    if file.length = cpInfo.latestFileChunksize then .ok cpInfo
    else do
      let (endOffset, numBlocks) ← scanForLastCompleteBlock file cpInfo.latestFileChunkSuffixNum
        cpInfo.latestFileChunksize
      let cpInfo := { cpInfo with latestFileChunksize := endOffset }
      if numBlocks = 0 then .ok cpInfo
      else .ok { cpInfo with
        lastBlockNumber :=
          if cpInfo.isChainEmpty then ofNat (numBlocks - 1)
          else cpInfo.lastBlockNumber + ofNat numBlocks
        isChainEmpty := false }

def decodeBlockNum (b : Bytes) : UInt64 := ofNat ((decodeVarint b).elim 0 fst)

def syncedInfo (hash : BlockHeader → Bytes) (info : SerializedBlockInfo)
    (place : BlockPlacementInfo) : BlockIdxInfo :=
  ⟨info.blockHeader.number, hash info.blockHeader, ⟨place.fileNum, ⟨place.blockStartOffset, 0⟩⟩,
    shiftOffsets (place.blockBytesOffset - place.blockStartOffset) info.txOffsets, info.metadata⟩

/-- The loop of `syncIndex`: the batches written, and how it ends. -/
def syncIndexLoop (conf : StoreConf) (files : List Bytes) (endFileNum : Nat) :
    Nat → BlockfileStream → List LevelBatch × Result Unit
  | 0, _ => ([], .ok ())
  | fuel + 1, s =>
    match blockStreamNext files (some endFileNum) s with
    | .error e => ([], .error e)
    | .ok (none, _) => ([], .ok ())
    | .ok (some (blockBytes, place), s) =>
      match extractSerializedBlockInfo blockBytes with
      | .error e => ([], .error e)
      | .ok info =>
        match indexBlock conf.attrs (syncedInfo conf.hash info place) with
        | .error e => ([], .error e)
        | .ok batch =>
          let rest := syncIndexLoop conf files endFileNum fuel s
          (batch.toList ++ rest.1, rest.2)

/-- Where `syncIndex` starts to read, and whether the first block is skipped. -/
def syncIndexStart (attrs : IndexConfig) (db : LevelDb) : Result (BlockfileStream × Bool) :=
  match db[indexCheckpointKey]? with
  | none => .ok (⟨0, 0⟩, false)
  | some b => do
    let flp ← getBlockLocByBlockNum attrs db (decodeBlockNum b)
    .ok (⟨flp.fileSuffixNum, flp.loc.offset⟩, true)

/-- The stream of `syncIndex`, behind the block that is skipped. -/
def syncIndexStream (attrs : IndexConfig) (files : List Bytes) (db : LevelDb)
    (endFileNum : Nat) : Result BlockfileStream := do
  let (s, skipFirstBlock) ← syncIndexStart attrs db
  let _ ← openFile files s.fileNum
  if skipFirstBlock then do
    let (block, s) ← blockStreamNext files (some endFileNum) s
    if block = none then
      errorf "block bytes for block num should not be nil here"
    else .ok s
  else .ok s

/-- No more blocks are read than there are bytes. -/
def syncIndex (conf : StoreConf) (files : List Bytes) (db : LevelDb) (endFileNum : Nat) :
    List LevelBatch × Result Unit :=
  match syncIndexStream conf.attrs files db endFileNum with
  | .error e => ([], .error e)
  | .ok s => syncIndexLoop conf files endFileNum (files.flatten.length + 1) s

/-- `newBlockfileMgr` up to the index: the checkpoint, written if there was none, and the
truncation. -/
def openWriter (d : Disk) : Result (CheckpointInfo × List DiskEffect) := do
  let loaded ← loadCurrentInfo d.levelDb
  let cpInfo ← syncCpInfoFromFs d.contents (loaded.getD newCpInfo)
  .ok (cpInfo,
    (if loaded = none then [.write (putBatch blkMgrInfoKey newCpInfo.marshal) true] else []) ++
      [.openFile cpInfo.latestFileChunkSuffixNum,
        .truncate cpInfo.latestFileChunkSuffixNum cpInfo.latestFileChunksize])

/-- What `newBlockfileMgr` tells of the chain; without the header of the last block it panics. -/
def initialInfo (conf : StoreConf) (d : Disk) (cpInfo : CheckpointInfo) : Result BlockchainInfo :=
  if cpInfo.isChainEmpty then .ok ⟨0, [], []⟩
  else
    match retrieveBlockHeaderByNumber conf.attrs d cpInfo.lastBlockNumber with
    | .error _ => panicWith (.explicit
        (str "Could not retrieve header of the last block form file"))
    | .ok header => .ok ⟨cpInfo.lastBlockNumber + 1, conf.hash header, header.previousHash⟩

/-- `newBlockfileMgr`. Errors of the index are not looked at, all others panic. -/
def newBlockfileMgr (conf : StoreConf) (d : Disk) : List DiskEffect × Result BlockfileMgr :=
  match openWriter d with
  | .error _ => ([], panicWith (.explicit (str "Could not get block file info")))
  | .ok (cpInfo, effects) =>
    let opened := effects.foldl Disk.apply d
    let synced := syncIndex conf opened.contents opened.levelDb cpInfo.latestFileChunkSuffixNum
    let effects := effects ++ synced.1.map fun batch => .write batch false
    match synced.2 with
    | .error (.panic p) => (effects, panicWith p)
    | _ => (effects, do
      let bcInfo ← initialInfo conf (effects.foldl Disk.apply d) cpInfo
      .ok ⟨cpInfo, bcInfo⟩)

end FabricOev.BlockStore
