import FabricOev.BlockStore.Serialization
import FabricOev.Ledger.LevelDb

/-!
# The block index

`blockIndex` of `fsblkstorage`: six kinds of entries and two checkpoints share the keys of one
database handle and are told apart by the first byte. A TxID is whatever a client put there,
and there is one that makes a key of the index the key of the block file checkpoint.
-/

namespace FabricOev.BlockStore

open Go Go.Wire Protos Ledger Lib List FinMap Result

inductive IndexableAttr where
  | blockNum
  | blockHash
  | txId
  | blockNumTranNum
  | blockTxId
  | txValidationCode
deriving DecidableEq, Repr

def constructBlockNumKey (blockNum : UInt64) : Bytes :=
  str "n" ++ encodeOrderPreservingVarUint64 blockNum

def constructBlockHashKey (blockHash : Bytes) : Bytes := str "h" ++ blockHash

def constructTxIdKey (txId : GoString) : Bytes := str "t" ++ txId

def constructBlockTxIdKey (txId : GoString) : Bytes := str "b" ++ txId

def constructTxValidationCodeIdKey (txId : GoString) : Bytes := str "v" ++ txId

def constructBlockNumTranNumKey (blockNum txNum : UInt64) : Bytes :=
  str "a" ++ (encodeOrderPreservingVarUint64 blockNum ++ encodeOrderPreservingVarUint64 txNum)

def indexCheckpointKey : Bytes := str "indexCheckpointKey"

def blkMgrInfoKey : Bytes := str "blkMgrInfo"

/-- What a key of the handle stands for. -/
inductive IndexKey where
  | blockNum (n : UInt64)
  | blockHash (h : Bytes)
  | txId (id : GoString)
  | blockNumTranNum (n t : UInt64)
  | blockTxId (id : GoString)
  | txValidationCode (id : GoString)
  | indexCheckpoint
  | blkMgrInfo
deriving DecidableEq, Repr

def IndexKey.bytes : IndexKey → Bytes
  | .blockNum n => constructBlockNumKey n
  | .blockHash h => constructBlockHashKey h
  | .txId id => constructTxIdKey id
  | .blockNumTranNum n t => constructBlockNumTranNumKey n t
  | .blockTxId id => constructBlockTxIdKey id
  | .txValidationCode id => constructTxValidationCodeIdKey id
  | .indexCheckpoint => indexCheckpointKey
  | .blkMgrInfo => blkMgrInfoKey

structure FileLocPointer where
  fileSuffixNum : Nat
  loc : LocPointer
deriving DecidableEq, Repr

/-- `newFileLocationPointer`. -/
def FileLocPointer.relative (flp : FileLocPointer) (loc : LocPointer) : FileLocPointer :=
  ⟨flp.fileSuffixNum, ⟨flp.loc.offset + loc.offset, loc.bytesLength⟩⟩

def FileLocPointer.marshal (flp : FileLocPointer) : Bytes :=
  encodeVarint flp.fileSuffixNum ++ encodeVarint flp.loc.offset ++ encodeVarint flp.loc.bytesLength

/-- The callers ignore the error: what could not be read stays zero. -/
def FileLocPointer.unmarshal (b : Bytes) : FileLocPointer :=
  match decodeVarint b with
  | none => ⟨0, ⟨0, 0⟩⟩
  | some (suffix, b) =>
    match decodeVarint b with
    | none => ⟨suffix, ⟨0, 0⟩⟩
    | some (offset, b) =>
      match decodeVarint b with
      | none => ⟨suffix, ⟨offset, 0⟩⟩
      | some (bytesLength, _) => ⟨suffix, ⟨offset, bytesLength⟩⟩

structure BlockIdxInfo where
  blockNum : UInt64
  blockHash : Bytes
  flp : FileLocPointer
  txOffsets : List TxIndexInfo
  metadata : Option (List Bytes)
deriving DecidableEq, Repr

abbrev IndexConfig := IndexableAttr → Bool

def IndexConfig.all : IndexConfig := fun _ => true

/-- The puts of the batch that depend on the flags: one byte for each transaction. -/
def validationPuts (flags : TxFlags) : Nat → List TxIndexInfo → Result (List (IndexKey × Bytes))
  | _, [] => .ok []
  | i, t :: ts => do
    let flag ← index flags i
    let ps ← validationPuts flags (i + 1) ts
    .ok ((.txValidationCode t.txId, [flag]) :: ps)

def codePuts (attrs : IndexConfig) (flags : TxFlags) (ts : List TxIndexInfo) :
    Result (List (IndexKey × Bytes)) :=
  if attrs .txValidationCode then validationPuts flags 0 ts else .ok []

/-- The puts of `indexBlock`, in their order. -/
def indexPuts (attrs : IndexConfig) (info : BlockIdxInfo) : Result (List (IndexKey × Bytes)) := do
  let ms ← deref info.metadata
  let flags ← index ms MetadataIndex.transactionsFilter
  let flpBytes := info.flp.marshal
  let codes ← codePuts attrs flags info.txOffsets
  .ok ((if attrs .blockHash then [(IndexKey.blockHash info.blockHash, flpBytes)] else []) ++
    (if attrs .blockNum then [(IndexKey.blockNum info.blockNum, flpBytes)] else []) ++
    (if attrs .txId then info.txOffsets.map fun t =>
      (IndexKey.txId t.txId, (info.flp.relative t.loc).marshal) else []) ++
    (if attrs .blockNumTranNum then info.txOffsets.mapIdx fun i t =>
      (IndexKey.blockNumTranNum info.blockNum (UInt64.ofNat i), (info.flp.relative t.loc).marshal)
      else []) ++
    (if attrs .blockTxId then info.txOffsets.map fun t => (IndexKey.blockTxId t.txId, flpBytes)
      else []) ++
    codes ++ [(IndexKey.indexCheckpoint, encodeVarint info.blockNum.toNat)])

/-- The batch of puts: a later one to the same key replaces an earlier one. -/
def batchOf (puts : List (IndexKey × Bytes)) : LevelBatch :=
  insertAll ∅ (puts.map fun p => (p.1.bytes, some p.2))

/-- The batch `indexBlock` writes; nothing if no attribute is indexed. -/
def indexBlock (attrs : IndexConfig) (info : BlockIdxInfo) : Result (Option LevelBatch) :=
  if attrs .blockNum || attrs .blockHash || attrs .txId || attrs .blockNumTranNum ||
      attrs .blockTxId || attrs .txValidationCode then do
    let puts ← indexPuts attrs info
    .ok (some (batchOf puts))
  else .ok none

/-- A TxID that makes two keys one. -/
def clashingTxId : GoString := str "lkMgrInfo"

def Clash (k k' : IndexKey) : Prop :=
  (k = .blockTxId clashingTxId ∧ k' = .blkMgrInfo) ∨ (k = .blkMgrInfo ∧ k' = .blockTxId clashingTxId)

def IndexKey.split : IndexKey → UInt8 × Bytes
  | .blockNum n => (110, encodeOrderPreservingVarUint64 n)
  | .blockHash h => (104, h)
  | .txId id => (116, id)
  | .blockNumTranNum n t =>
    (97, encodeOrderPreservingVarUint64 n ++ encodeOrderPreservingVarUint64 t)
  | .blockTxId id => (98, id)
  | .txValidationCode id => (118, id)
  | .indexCheckpoint => (105, str "ndexCheckpointKey")
  | .blkMgrInfo => (98, clashingTxId)

theorem IndexKey.bytes_eq_cons (k : IndexKey) : k.bytes = k.split.1 :: k.split.2 := by
  cases k <;> rfl

theorem orderPreserving_inj {n m : UInt64}
    (h : encodeOrderPreservingVarUint64 n = encodeOrderPreservingVarUint64 m) : n = m := by
  have h' : encodeOrderPreservingVarUint64 n ++ [] = encodeOrderPreservingVarUint64 m ++ [] := by
    rw [h]
  exact (encode_append_inj h').1

/-- Two keys are the same bytes only if they are the same key, with the one exception. -/
theorem IndexKey.bytes_eq_iff (k k' : IndexKey) : k.bytes = k'.bytes ↔ k = k' ∨ Clash k k' := by
  rw [bytes_eq_cons, bytes_eq_cons, cons.injEq]
  constructor
  · intro h
    obtain ⟨htag, hrest⟩ := h
    -- the first byte leaves the diagonal and the two kinds that begin with b
    cases k <;> cases k' <;> simp only [split] at htag hrest <;> try contradiction
    case blockNum.blockNum => exact .inl (by rw [orderPreserving_inj hrest])
    case blockHash.blockHash => exact .inl (by rw [hrest])
    case txId.txId => exact .inl (by rw [hrest])
    case blockNumTranNum.blockNumTranNum =>
      obtain ⟨rfl, htran⟩ := encode_append_inj hrest
      exact .inl (by rw [orderPreserving_inj htran])
    case blockTxId.blockTxId => exact .inl (by rw [hrest])
    case blockTxId.blkMgrInfo => exact .inr (.inl ⟨by rw [hrest], rfl⟩)
    case txValidationCode.txValidationCode => exact .inl (by rw [hrest])
    case indexCheckpoint.indexCheckpoint => exact .inl rfl
    case blkMgrInfo.blockTxId => exact .inr (.inr ⟨rfl, by rw [hrest]⟩)
    case blkMgrInfo.blkMgrInfo => exact .inl rfl
  · intro h
    obtain rfl | ⟨rfl, rfl⟩ | ⟨rfl, rfl⟩ := h
    · exact ⟨rfl, rfl⟩
    · exact ⟨rfl, rfl⟩
    · exact ⟨rfl, rfl⟩

/-! ## What indexing a block writes -/

theorem validationPuts_keys {flags : TxFlags} {i : Nat} {ts : List TxIndexInfo}
    {codes : List (IndexKey × Bytes)} (h : validationPuts flags i ts = .ok codes) :
    codes.map Prod.fst = ts.map fun t => .txValidationCode t.txId := by
  induction ts generalizing i codes with
  | nil =>
    cases h
    rfl
  | cons t ts ih =>
    obtain ⟨flag, -, h⟩ := bind_ok.mp h
    obtain ⟨rest, hrest, h⟩ := bind_ok.mp h
    cases h
    rw [map_cons, map_cons, ih hrest]

section Puts

variable {attrs : IndexConfig} {info : BlockIdxInfo} {puts : List (IndexKey × Bytes)}

theorem indexPuts_keys (h : indexPuts attrs info = .ok puts) :
    puts.map Prod.fst = (if attrs .blockHash then [IndexKey.blockHash info.blockHash] else []) ++
      (if attrs .blockNum then [IndexKey.blockNum info.blockNum] else []) ++
      (if attrs .txId then info.txOffsets.map fun t => IndexKey.txId t.txId else []) ++
      (if attrs .blockNumTranNum then info.txOffsets.mapIdx fun i _ =>
        IndexKey.blockNumTranNum info.blockNum (UInt64.ofNat i) else []) ++
      (if attrs .blockTxId then info.txOffsets.map fun t => IndexKey.blockTxId t.txId else []) ++
      (if attrs .txValidationCode then info.txOffsets.map fun t => IndexKey.txValidationCode t.txId
        else []) ++ [IndexKey.indexCheckpoint] := by
  obtain ⟨ms, -, h⟩ := bind_ok.mp h
  obtain ⟨flags, -, h⟩ := bind_ok.mp h
  obtain ⟨codes, hcodes, h⟩ := bind_ok.mp h
  cases h
  have hkeys : codes.map Prod.fst =
      if attrs .txValidationCode then info.txOffsets.map fun t => .txValidationCode t.txId
      else [] := by
    unfold codePuts at hcodes
    split at hcodes
    · rename_i hattr
      rw [if_pos hattr, validationPuts_keys hcodes]
    · rename_i hattr
      cases hcodes
      rw [if_neg hattr]
      rfl
  simp only [map_append, hkeys, apply_ite (map Prod.fst), map_nil, map_cons,
    map_map, mapIdx_eq_zipIdx_map, Function.comp_def]

/-- The block has a transaction whose entry is written over the block file checkpoint. -/
def Overwrites (attrs : IndexConfig) (info : BlockIdxInfo) : Prop :=
  attrs .blockTxId = true ∧ ∃ t ∈ info.txOffsets, t.txId = clashingTxId

instance : Decidable (Overwrites attrs info) := inferInstanceAs (Decidable (_ ∧ _))

theorem blkMgrInfo_notMem_keys (h : indexPuts attrs info = .ok puts) :
    .blkMgrInfo ∉ puts.map Prod.fst := by
  rw [indexPuts_keys h]
  simp only [mem_append, mem_ite_nil_right, mem_singleton, mem_map,
    mem_mapIdx, reduceCtorEq, and_false, exists_false, or_false, not_false_eq_true]

theorem blockTxId_mem_keys_iff (h : indexPuts attrs info = .ok puts) (id : GoString) :
    .blockTxId id ∈ puts.map Prod.fst ↔
      attrs .blockTxId = true ∧ ∃ t ∈ info.txOffsets, t.txId = id := by
  rw [indexPuts_keys h]
  simp only [mem_append, mem_ite_nil_right, mem_singleton, mem_map,
    mem_mapIdx, reduceCtorEq, and_false, exists_false, or_false, false_or,
    IndexKey.blockTxId.injEq]

theorem getElem?_batchOf (puts : List (IndexKey × Bytes)) (db : LevelDb) (key : Bytes) :
    (db.writeBatch (batchOf puts))[key]? =
      (lastOf (puts.map fun p => (p.1.bytes, some p.2)) key).elim db[key]? id := by
  rw [LevelDb.getElem?_writeBatch, batchOf, getElem?_insertAll]
  cases lastOf (puts.map fun p => (p.1.bytes, some p.2)) key <;> rfl

/-- Under a key that no other put shares its bytes with. -/
theorem getElem?_batchOf_bytes {k : IndexKey} (h : ∀ p ∈ puts, p.1.bytes = k.bytes → p.1 = k)
    (db : LevelDb) :
    (db.writeBatch (batchOf puts))[k.bytes]? = (lastOf puts k).or db[k.bytes]? := by
  rw [getElem?_batchOf, lastOf_map (f := IndexKey.bytes) (g := some) h]
  cases lastOf puts k <;> rfl

/-- After a block is indexed, a key shows what the block put there, or else what was there. -/
def KeepsApart (puts : List (IndexKey × Bytes)) : Prop :=
  ∀ (db : LevelDb) (k : IndexKey),
    (db.writeBatch (batchOf puts))[k.bytes]? = (lastOf puts k).or db[k.bytes]?

/-- The keys of the index are apart but for one TxID, and indexing a block touches nothing but
the block's own entries exactly if no transaction has it. -/
theorem index_keeps_apart_iff (attrs : IndexConfig) (info : BlockIdxInfo)
    (puts : List (IndexKey × Bytes)) (h : indexPuts attrs info = .ok puts) :
    (∀ k k' : IndexKey, k.bytes = k'.bytes ↔ k = k' ∨ Clash k k') ∧
      (KeepsApart puts ↔ ¬ Overwrites attrs info) := by
  refine ⟨IndexKey.bytes_eq_iff, ?_⟩
  rw [Overwrites, ← blockTxId_mem_keys_iff h]
  have hinfo := blkMgrInfo_notMem_keys h
  constructor
  · -- the entry of the transaction is what is found as the block file checkpoint
    intro hapart hmem
    have hlook := hapart ∅ .blkMgrInfo
    have hnone : lastOf puts .blkMgrInfo = none :=
      lastOf_eq_none_iff.mpr fun p hp hk => hinfo (hk ▸ mem_map_of_mem hp)
    obtain ⟨p, hp, hk⟩ := mem_map.mp hmem
    have hput : lastOf (puts.map fun p => (p.1.bytes, some p.2)) IndexKey.blkMgrInfo.bytes ≠
        none := by
      intro hnone
      refine lastOf_eq_none_iff.mp hnone _ (mem_map_of_mem hp) ?_
      rw [hk]
      rfl
    obtain ⟨v, hv⟩ := Option.ne_none_iff_exists'.mp hput
    rw [getElem?_batchOf, hnone, hv] at hlook
    obtain ⟨q, -, hq⟩ := mem_map.mp (mem_of_lastOf_eq_some hv)
    rw [← (Prod.mk.inj hq).2] at hlook
    simp at hlook
  · intro hclash db k
    refine getElem?_batchOf_bytes (fun p hp hk => ?_) db
    obtain hk | ⟨hk, -⟩ | ⟨hk, -⟩ := (IndexKey.bytes_eq_iff p.1 k).mp hk
    · exact hk
    · exact absurd (hk ▸ mem_map_of_mem hp) hclash
    · exact absurd (hk ▸ mem_map_of_mem hp) hinfo

end Puts

def oneTxInfo (txId : GoString) : BlockIdxInfo :=
  ⟨1, [7], ⟨0, ⟨20, 0⟩⟩, [⟨txId, ⟨4, 9⟩⟩], some [[], [], [0], []]⟩

theorem index_keeps_apart_plain :
    ∃ puts, indexPuts IndexConfig.all (oneTxInfo (str "tx")) = .ok puts ∧ KeepsApart puts :=
  ⟨_, rfl, (index_keeps_apart_iff .all (oneTxInfo (str "tx")) _ rfl).2.mpr (by decide)⟩

/-- The TxID gives the key of the checkpoint, and what is loaded as the checkpoint afterwards
is the place of a block. -/
theorem checkpoint_overwritten :
    constructBlockTxIdKey clashingTxId = blkMgrInfoKey ∧
      ∃ puts, indexPuts IndexConfig.all (oneTxInfo clashingTxId) = .ok puts ∧
        ∀ db : LevelDb, (db.writeBatch (batchOf puts))[blkMgrInfoKey]? =
          some (FileLocPointer.marshal ⟨0, ⟨20, 0⟩⟩) := by
  refine ⟨rfl, _, rfl, fun db => ?_⟩
  rw [getElem?_batchOf]
  rfl

end FabricOev.BlockStore
