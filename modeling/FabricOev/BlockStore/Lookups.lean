import FabricOev.BlockStore.Layout

/-!
# What an index of stored blocks says

The entries of an index into which blocks were put one after the other, and what the getters of
the store return from them and the files: for a number the block with that number, and for a
hash or a TxID the last block or transaction that has it.
-/

namespace FabricOev.BlockStore

open Go Go.Wire Protos Ledger Lib FinMap List IndexKey Placed Result FileLocPointer UInt64 Nat
  Function

namespace Placed

def flp (p : Placed) : FileLocPointer := ⟨p.fileNum, ⟨p.offset, 0⟩⟩

def number (p : Placed) : UInt64 := p.stored.block.header.number

/-- The offsets of the transactions, from the beginning of the length of the block. -/
def txOffsets (p : Placed) : List TxIndexInfo :=
  shiftOffsets (encodeVarint p.stored.bytes.length).length p.stored.txOffsets

def info (hash : BlockHeader → Bytes) (p : Placed) : BlockIdxInfo :=
  idxInfo hash p.stored.block p.flp p.txOffsets

def puts (hash : BlockHeader → Bytes) (p : Placed) : List (IndexKey × Bytes) :=
  [(IndexKey.blockHash (hash p.stored.block.header), p.flp.marshal),
      (.blockNum p.number, p.flp.marshal)] ++
    p.txOffsets.map (fun t => (IndexKey.txId t.txId, (p.flp.relative t.loc).marshal)) ++
    p.txOffsets.zipIdx.map (fun t =>
      (IndexKey.blockNumTranNum p.number (ofNat t.2), (p.flp.relative t.1.loc).marshal)) ++
    p.txOffsets.map (fun t => (IndexKey.blockTxId t.txId, p.flp.marshal)) ++
    (p.txOffsets.zip p.stored.flags).map (fun t => (IndexKey.txValidationCode t.1.txId, [t.2])) ++
    [(IndexKey.indexCheckpoint, encodeVarint p.number.toNat)]

end Placed

theorem validationPuts_eq {flags : TxFlags} {i : Nat} {ts : List TxIndexInfo}
    (h : ts.length + i ≤ flags.length) :
    validationPuts flags i ts =
      .ok ((ts.zip (flags.drop i)).map fun t => (.txValidationCode t.1.txId, [t.2])) := by
  induction ts generalizing i with
  | nil => rfl
  | cons t ts ih =>
    have hlt : i < flags.length := by
      rw [length_cons] at h
      omega
    have hrest : ts.length + (i + 1) ≤ flags.length := by
      rw [length_cons] at h
      omega
    rw [validationPuts, index, getElem?_eq_getElem hlt]
    rw [ok_bind, ih hrest, ok_bind, drop_eq_getElem_cons hlt, zip_cons_cons, map_cons]

theorem length_txOffsets (p : Placed) : p.txOffsets.length = p.stored.txOffsets.length :=
  length_map _

section Puts

variable (hash : BlockHeader → Bytes) (p : Placed)

theorem indexPuts_placed : indexPuts .all (p.info hash) = .ok (p.puts hash) := by
  obtain ⟨ms, hms, hflags⟩ := bind_ok.mp p.stored.filter
  have hcodes : codePuts .all p.stored.flags p.txOffsets =
      .ok ((p.txOffsets.zip p.stored.flags).map fun t => (.txValidationCode t.1.txId, [t.2])) := by
    show validationPuts p.stored.flags 0 p.txOffsets = _
    rw [validationPuts_eq (by rw [length_txOffsets]; exact p.stored.flagged)]
    rfl
  show (deref p.stored.block.metadata >>= _) = _
  rw [hms, ok_bind, hflags, ok_bind]
  show (codePuts .all p.stored.flags p.txOffsets >>= _) = _
  rw [hcodes, ok_bind]
  simp only [mapIdx_eq_zipIdx_map]
  rfl

theorem indexBlock_placed : indexBlock .all (p.info hash) = .ok (some (batchOf (p.puts hash))) := by
  show (indexPuts .all (p.info hash) >>= _) = _
  rw [indexPuts_placed, ok_bind]

theorem syncedInfo_placed :
    extractSerializedBlockInfo p.stored.bytes =
        .ok ⟨p.stored.block.header, p.stored.txOffsets, p.stored.block.metadata⟩ ∧
      syncedInfo hash ⟨p.stored.block.header, p.stored.txOffsets, p.stored.block.metadata⟩
          ⟨p.fileNum, p.offset, p.offset + (encodeVarint p.stored.bytes.length).length⟩ =
        p.info hash := by
  refine ⟨(deserialize_serialize p.stored.serialized p.stored.sized).2, ?_⟩
  rw [syncedInfo, Nat.add_sub_cancel_left]
  rfl

/-- No entry of the block is under the key of the block file checkpoint. -/
theorem blkMgrInfoKey_notMem_puts : ∀ e ∈ p.puts hash, e.1.bytes ≠ blkMgrInfoKey := by
  intro e he hkey
  have hmem : e.1 ∈ (p.puts hash).map Prod.fst := mem_map_of_mem he
  obtain hk | ⟨hk, -⟩ | ⟨hk, -⟩ := (bytes_eq_iff e.1 .blkMgrInfo).mp hkey
  · exact blkMgrInfo_notMem_keys (indexPuts_placed hash p) (hk ▸ hmem)
  · obtain ⟨-, t, ht, hid⟩ :=
      (blockTxId_mem_keys_iff (indexPuts_placed hash p) clashingTxId).mp (hk ▸ hmem)
    obtain ⟨t', ht', rfl⟩ := mem_map.mp ht
    exact p.stored.apart t' ht' hid
  · exact blkMgrInfo_notMem_keys (indexPuts_placed hash p) (hk ▸ hmem)

end Puts

def IndexOk (hash : BlockHeader → Bytes) (db : LevelDb) (ps : List Placed) : Prop :=
  ∀ k : IndexKey, k.bytes ≠ blkMgrInfoKey → db[k.bytes]? = lastOf (ps.flatMap (Placed.puts hash)) k

section IndexOk

variable {hash : BlockHeader → Bytes} {db : LevelDb} {ps : List Placed}

theorem indexOk_empty : IndexOk hash ∅ [] := fun k _ => by simp [lastOf]

theorem IndexOk.index (h : IndexOk hash db ps) (p : Placed) :
    IndexOk hash (db.writeBatch (batchOf (p.puts hash))) (ps ++ [p]) := by
  intro k hk
  have hapart : ∀ e ∈ p.puts hash, e.1.bytes = k.bytes → e.1 = k := by
    intro e he hbytes
    obtain heq | ⟨-, rfl⟩ | ⟨hinfo, -⟩ := (bytes_eq_iff e.1 k).mp hbytes
    · exact heq
    · exact absurd rfl hk
    · exact absurd (by rw [hinfo]; rfl) (blkMgrInfoKey_notMem_puts hash p e he)
  rw [getElem?_batchOf_bytes hapart, h k hk, flatMap_append, lastOf_append, flatMap_singleton]

theorem getElem?_put (db : LevelDb) (key value key' : Bytes) :
    (db.writeBatch (putBatch key value))[key']? =
      if key = key' then some value else db[key']? := by
  rw [LevelDb.getElem?_writeBatch, putBatch, getElem?_insertAll]
  by_cases hk : key = key'
  · simp [lastOf, hk]
  · simp [lastOf, hk]

theorem IndexOk.put (h : IndexOk hash db ps) (value : Bytes) :
    IndexOk hash (db.writeBatch (putBatch blkMgrInfoKey value)) ps := by
  intro k hk
  rw [getElem?_put, if_neg (Ne.symm hk), h k hk]

theorem checkpoint_index (db : LevelDb) (p : Placed) :
    (db.writeBatch (batchOf (p.puts hash)))[blkMgrInfoKey]? = db[blkMgrInfoKey]? := by
  have hnone : lastOf ((p.puts hash).map fun e => (e.1.bytes, some e.2)) blkMgrInfoKey = none := by
    refine lastOf_eq_none_iff.mpr fun e he => ?_
    obtain ⟨q, hq, rfl⟩ := mem_map.mp he
    exact blkMgrInfoKey_notMem_puts hash p q hq
  rw [getElem?_batchOf, hnone]
  rfl

end IndexOk

def IndexKey.kind : IndexKey → Option IndexableAttr
  | .blockNum _ => some .blockNum
  | .blockHash _ => some .blockHash
  | .txId _ => some .txId
  | .blockNumTranNum _ _ => some .blockNumTranNum
  | .blockTxId _ => some .blockTxId
  | .txValidationCode _ => some .txValidationCode
  | .indexCheckpoint => none
  | .blkMgrInfo => none

theorem lastOf_of_kind {α : Type} {xs : List α} {f : α → IndexKey} {g : α → Bytes} {k : IndexKey}
    (h : ∀ x, (f x).kind ≠ k.kind) : lastOf (xs.map fun x => (f x, g x)) k = none := by
  refine lastOf_eq_none_iff.mpr fun e he hk => ?_
  obtain ⟨x, -, rfl⟩ := mem_map.mp he
  exact h x (by rw [← hk])

theorem ofNat_inj {i j : Nat} (hi : i < 2 ^ 64) (hj : j < 2 ^ 64)
    (h : ofNat i = ofNat j) : i = j := by
  have := congrArg toNat h
  rwa [toNat_ofNat', toNat_ofNat', mod_eq_of_lt hi, mod_eq_of_lt hj] at this

theorem lastOf_eq_of_unique {κ β : Type} [DecidableEq κ] {es : List (κ × β)} {k : κ} {v : β}
    (hmem : (k, v) ∈ es) (huniq : ∀ u, (k, u) ∈ es → u = v) : lastOf es k = some v := by
  cases hlast : lastOf es k with
  | none => exact absurd rfl (lastOf_eq_none_iff.mp hlast _ hmem)
  | some u => rw [huniq u (mem_of_lastOf_eq_some hlast)]

section Kinds

variable (hash : BlockHeader → Bytes) (p : Placed)

theorem lastOf_puts_blockNum (n : UInt64) :
    lastOf (p.puts hash) (.blockNum n) = if p.number = n then some p.flp.marshal else none := by
  simp only [puts, lastOf_append]
  repeat rw [lastOf_of_kind (by simp [kind])]
  simp [lastOf]

theorem lastOf_puts_blockHash (h : Bytes) :
    lastOf (p.puts hash) (.blockHash h) =
      if hash p.stored.block.header = h then some p.flp.marshal else none := by
  simp only [puts, lastOf_append]
  repeat rw [lastOf_of_kind (by simp [kind])]
  simp [lastOf]

theorem lastOf_puts_checkpoint :
    lastOf (p.puts hash) .indexCheckpoint = some (encodeVarint p.number.toNat) := by
  rw [puts, lastOf_concat, if_pos rfl]

theorem lastOf_puts_txId (id : GoString) :
    lastOf (p.puts hash) (.txId id) =
      lastOf (p.txOffsets.map fun t => (t.txId, (p.flp.relative t.loc).marshal)) id := by
  have hkey := lastOf_map_key (c := txId) (fun _ _ h => txId.inj h)
    p.txOffsets TxIndexInfo.txId (fun t => (p.flp.relative t.loc).marshal) id
  simp only [puts, lastOf_append]
  rw [hkey]
  repeat rw [lastOf_of_kind (by simp [kind])]
  simp [lastOf]

theorem lastOf_puts_blockTxId (id : GoString) :
    lastOf (p.puts hash) (.blockTxId id) =
      lastOf (p.txOffsets.map fun t => (t.txId, p.flp.marshal)) id := by
  have hkey := lastOf_map_key (c := blockTxId) (fun _ _ h => blockTxId.inj h)
    p.txOffsets TxIndexInfo.txId (fun _ => p.flp.marshal) id
  simp only [puts, lastOf_append]
  rw [hkey]
  repeat rw [lastOf_of_kind (by simp [kind])]
  simp [lastOf]

theorem lastOf_puts_code (id : GoString) :
    lastOf (p.puts hash) (.txValidationCode id) =
      lastOf ((p.txOffsets.zip p.stored.flags).map fun t => (t.1.txId, [t.2])) id := by
  have hkey := lastOf_map_key (c := txValidationCode)
    (fun _ _ h => txValidationCode.inj h) (p.txOffsets.zip p.stored.flags)
    (fun t => t.1.txId) (fun t => [t.2]) id
  simp only [puts, lastOf_append]
  rw [hkey]
  repeat rw [lastOf_of_kind (by simp [kind])]
  simp [lastOf]

theorem lastOf_puts_blockNumTranNum {i : Nat} {t : TxIndexInfo} (ht : p.txOffsets[i]? = some t)
    (hlen : p.txOffsets.length ≤ 2 ^ 64) :
    lastOf (p.puts hash) (.blockNumTranNum p.number (ofNat i)) =
      some (p.flp.relative t.loc).marshal := by
  have hkey := lastOf_map_key (c := blockNumTranNum p.number)
    (fun _ _ h => (blockNumTranNum.inj h).2) p.txOffsets.zipIdx
    (fun t => ofNat t.2) (fun t => (p.flp.relative t.1.loc).marshal) (ofNat i)
  have hi := lt_length ht
  have huniq : lastOf (p.txOffsets.zipIdx.map fun t =>
      (ofNat t.2, (p.flp.relative t.1.loc).marshal)) (ofNat i) =
        some (p.flp.relative t.loc).marshal := by
    refine lastOf_eq_of_unique ?_ fun u hu => ?_
    · exact mem_map.mpr ⟨(t, i), mem_zipIdx_iff_getElem?.mpr ht, rfl⟩
    · obtain ⟨⟨t', j⟩, hmem, heq⟩ := mem_map.mp hu
      have hget := mem_zipIdx_iff_getElem?.mp hmem
      have hj := lt_length hget
      obtain ⟨hnum, rfl⟩ := Prod.mk.inj heq
      obtain rfl : j = i := ofNat_inj (by omega) (by omega) hnum
      cases ht.symm.trans hget
      rfl
  simp only [puts, lastOf_append]
  rw [hkey, huniq]
  repeat rw [lastOf_of_kind (by simp [kind])]
  simp [lastOf]

theorem lastOf_puts_blockNum_ne {n t : UInt64} (hn : p.number ≠ n) :
    lastOf (p.puts hash) (.blockNumTranNum n t) = none := by
  simp only [puts, lastOf_append]
  have hne : lastOf (p.txOffsets.zipIdx.map fun t => (blockNumTranNum p.number
      (ofNat t.2), (p.flp.relative t.1.loc).marshal)) (.blockNumTranNum n t) = none := by
    refine lastOf_eq_none_iff.mpr fun e he hk => ?_
    obtain ⟨x, -, rfl⟩ := mem_map.mp he
    exact hn (blockNumTranNum.inj hk).1
  rw [hne]
  repeat rw [lastOf_of_kind (by simp [kind])]
  simp [lastOf]

end Kinds

/-! ## Locations -/

theorem FileLocPointer.unmarshal_marshal {flp : FileLocPointer} (hf : flp.fileSuffixNum < 2 ^ 64)
    (ho : flp.loc.offset < 2 ^ 64) (hb : flp.loc.bytesLength < 2 ^ 64) :
    FileLocPointer.unmarshal flp.marshal = flp := by
  have hlast := decode_encodeVarint hb []
  rw [append_nil] at hlast
  rw [marshal, unmarshal, append_assoc, decode_encodeVarint hf]
  dsimp only
  rw [decode_encodeVarint ho]
  dsimp only
  rw [hlast]

structure Placed.Fits (p : Placed) : Prop where
  fileNum : p.fileNum < 2 ^ 64
  offset : p.offset + p.stored.frame.length < 2 ^ 64

/-- A transaction of a placed block, with its envelope and its flag. -/
structure PlacedTx where
  placed : Placed
  data : Bytes
  info : TxIndexInfo
  flag : UInt8

namespace Placed

def txs (p : Placed) : List PlacedTx :=
  (p.stored.block.data.zip (p.txOffsets.zip p.stored.flags)).map fun x => ⟨p, x.1, x.2.1, x.2.2⟩

variable (p : Placed)
include p

theorem located : List.Forall₂ (Located p.stored.bytes) p.stored.block.data p.stored.txOffsets :=
  located_serializeBlock p.stored.serialized

theorem length_data : p.stored.block.data.length = p.txOffsets.length := by
  rw [length_txOffsets]
  exact p.located.length_eq

theorem map_flagged_txs :
    p.txs.map (fun x => (x.info, x.flag)) = p.txOffsets.zip p.stored.flags := by
  have hlen : (p.txOffsets.zip p.stored.flags).length ≤ p.stored.block.data.length := by
    rw [length_data, length_zip]
    omega
  rw [txs, map_map]
  exact map_snd_zip hlen

theorem map_info_txs : p.txs.map PlacedTx.info = p.txOffsets := by
  have hlen : p.txOffsets.length ≤ p.stored.flags.length := by
    rw [length_txOffsets]
    exact p.stored.flagged
  have hfst : (p.txs.map fun x => (x.info, x.flag)).map Prod.fst = p.txOffsets := by
    rw [map_flagged_txs]
    exact map_fst_zip hlen
  rw [map_map] at hfst
  exact hfst

theorem map_data_txs : p.txs.map PlacedTx.data = p.stored.block.data := by
  have hlen : p.stored.block.data.length ≤ (p.txOffsets.zip p.stored.flags).length := by
    have := p.stored.flagged
    rw [length_data, length_zip, length_txOffsets]
    omega
  rw [txs, map_map]
  exact map_fst_zip hlen

omit p

variable {p : Placed} {x : PlacedTx}

theorem located_txs (hx : x ∈ p.txs) :
    ∃ t, Located p.stored.bytes x.data t ∧ x.data ∈ p.stored.block.data ∧
      x.info = ⟨t.txId, ⟨t.loc.offset + (encodeVarint p.stored.bytes.length).length,
        t.loc.bytesLength⟩⟩ := by
  obtain ⟨i, hi⟩ := mem_iff_getElem?.mp hx
  have hdata : p.stored.block.data[i]? = some x.data := by
    rw [← p.map_data_txs, getElem?_map, hi]
    rfl
  have hinfo : p.txOffsets[i]? = some x.info := by
    rw [← p.map_info_txs, getElem?_map, hi]
    rfl
  rw [txOffsets, shiftOffsets, getElem?_map] at hinfo
  obtain ⟨t, ht, hshift⟩ := Option.map_eq_some_iff.mp hinfo
  obtain ⟨hd, hdeq⟩ := List.getElem?_eq_some_iff.mp hdata
  obtain ⟨htl, hteq⟩ := List.getElem?_eq_some_iff.mp ht
  have hloc := (forall₂_iff_get.mp p.located).2 i hd htl
  rw [get_eq_getElem, get_eq_getElem, hdeq, hteq] at hloc
  exact ⟨t, hloc, mem_of_getElem? hdata, hshift.symm⟩

theorem placed_of_mem_txs (hx : x ∈ p.txs) : x.placed = p := by
  obtain ⟨y, -, rfl⟩ := mem_map.mp hx
  rfl

end Placed

section Fetch

variable {l : Layout} {files : List Bytes} {tail : Bytes} {p : Placed} {x : PlacedTx}

theorem fetchEnvelope_placed (hb : Backs files l tail) (hp : p ∈ l.placed)
    (hx : x ∈ p.txs) :
    fetchTransactionEnvelope files (p.flp.relative x.info.loc) = getEnvelopeFromBlock x.data := by
  obtain ⟨pre, post, hfile, hlen⟩ := file_of_placed hb hp
  obtain ⟨t, hloc, hmem, hinfo⟩ := p.located_txs hx
  have hslice : (p.flp.relative x.info.loc).loc.slice
      (pre ++ (encodeRawBytes p.stored.bytes ++ post)) = t.loc.slice p.stored.bytes := by
    have hdrop : (pre ++ (encodeRawBytes p.stored.bytes ++ post)).drop (p.offset +
        (t.loc.offset + (encodeVarint p.stored.bytes.length).length)) =
          p.stored.bytes.drop t.loc.offset ++ post := by
      rw [← hlen, ← drop_drop, drop_left, add_comm t.loc.offset, ← drop_drop,
        encodeRawBytes, append_assoc, drop_left,
        drop_append_of_le_length (by have := hloc.2.2; omega)]
    rw [hinfo, LocPointer.slice, relative]
    show (drop (p.offset + _) _).take t.loc.bytesLength = _
    rw [hdrop, take_append_of_le_length]
    · rfl
    · rw [length_drop]
      have := hloc.2.2
      omega
  have hend : ¬ (pre ++ (encodeRawBytes p.stored.bytes ++ post)).length <
      (p.flp.relative x.info.loc).loc.offset + (p.flp.relative x.info.loc).loc.bytesLength := by
    rw [hinfo]
    show ¬ _ < p.offset + (t.loc.offset + _) + t.loc.bytesLength
    have := hloc.2.2
    simp only [encodeRawBytes, length_append]
    omega
  have hopen : openFile files (p.flp.relative x.info.loc).fileSuffixNum =
      .ok (pre ++ (encodeRawBytes p.stored.bytes ++ post)) := by
    show ofOption _ files[p.fileNum]? = _
    rw [hfile]
    rfl
  rw [fetchTransactionEnvelope, fetchRawBytes, hopen, ok_bind, if_neg hend, ok_bind, hslice]
  exact hloc.envelopeAt (p.stored.sized.envelope x.data hmem)

end Fetch

def txIdOf (d : Bytes) : GoString := (extractTxId d).toOption.getD []

def blockWithHash (hash : BlockHeader → Bytes) (chain : List Block) (h : Bytes) : Option Block :=
  lastOf (chain.map fun b => (hash b.header, b)) h

def envelopeWithId (chain : List Block) (id : GoString) : Option Bytes :=
  lastOf (chain.flatMap fun b => b.data.map fun d => (txIdOf d, d)) id

def blockWithId (chain : List Block) (id : GoString) : Option Block :=
  lastOf (chain.flatMap fun b => b.data.map fun d => (txIdOf d, b)) id

def codeWithId (chain : List Block) (id : GoString) : Option UInt8 :=
  lastOf (chain.flatMap fun b =>
    (b.data.zip ((b.metadataAt MetadataIndex.transactionsFilter).toOption.getD [])).map fun x =>
      (txIdOf x.1, x.2)) id

def found {α β : Type} (o : Option α) (f : α → Result β) : Result β :=
  match o with
  | none => errorf "Entry not found in index"
  | some a => f a

def Layout.chain (l : Layout) : List Block := l.flatten.map StoredBlock.block

theorem Layout.chain_eq (l : Layout) : l.chain = l.placed.map fun p => p.stored.block := by
  rw [chain, ← stored_placeFrom 0 l, map_map]
  rfl

/-! ## What they return -/

def Numbered (ps : List Placed) : Prop := ∀ i p, ps[i]? = some p → p.number = ofNat i

/-- Files and index in which everything of a layout is found. -/
structure Indexed (hash : BlockHeader → Bytes) (files : List Bytes) (db : LevelDb) (l : Layout)
    (tail : Bytes) : Prop where
  backs : Backs files l tail
  index : IndexOk hash db l.placed
  numbered : Numbered l.placed
  fits : ∀ p ∈ l.placed, p.Fits
  short : l.placed.length < 2 ^ 64

section Getters

variable {hash : BlockHeader → Bytes} {files : List Bytes} {db : LevelDb} {l : Layout}
  {tail : Bytes} {p : Placed} {ps : List Placed} {k : IndexKey}

theorem lookupLoc_eq (h : IndexOk hash db ps) (attr : IndexableAttr)
    (hk : k.bytes ≠ blkMgrInfoKey) :
    lookupLoc .all attr db k.bytes = found (lastOf (ps.flatMap (Placed.puts hash)) k) fun b =>
        .ok (FileLocPointer.unmarshal b) := by
  rw [lookupLoc, if_pos (show IndexConfig.all attr = true from rfl), h k hk]
  cases lastOf (ps.flatMap (puts hash)) k <;> rfl

theorem unmarshal_flp (h : p.Fits) : FileLocPointer.unmarshal p.flp.marshal = p.flp :=
  unmarshal_marshal h.fileNum (lt_of_le_of_lt (le_add_right _ _) h.offset)
    (by show 0 < 2 ^ 64; norm_num)

variable {x : PlacedTx} {α : Type} {i : Nat} {b : Block} {β : Type} {id : GoString} {xs : List α}

theorem unmarshal_relative (h : p.Fits) (hx : x ∈ p.txs) :
    FileLocPointer.unmarshal (p.flp.relative x.info.loc).marshal = p.flp.relative x.info.loc := by
  obtain ⟨t, hloc, -, hinfo⟩ := p.located_txs hx
  have hle := hloc.2.2
  have hfit := h.offset
  rw [StoredBlock.frame, encodeRawBytes, length_append] at hfit
  have hoff : (p.flp.relative x.info.loc).loc.offset =
      p.offset + (t.loc.offset + (encodeVarint p.stored.bytes.length).length) := by
    rw [hinfo]
    rfl
  have hbytes : (p.flp.relative x.info.loc).loc.bytesLength = t.loc.bytesLength := by
    rw [hinfo]
    rfl
  refine unmarshal_marshal h.fileNum ?_ ?_
  · omega
  · omega

theorem fetchBlock_found (h : Indexed hash files db l tail) {o : Option Placed}
    (ho : ∀ p ∈ o, p ∈ l.placed) :
    (found (o.map fun p => p.flp.marshal) (fun b => .ok (FileLocPointer.unmarshal b)) >>=
        fetchBlock files) = found (o.map fun p => p.stored.block) .ok := by
  cases o with
  | none => rfl
  | some p =>
    have hp := ho p rfl
    show fetchBlock files (unmarshal p.flp.marshal) = .ok p.stored.block
    rw [unmarshal_flp (h.fits p hp)]
    exact fetchBlock_placed h.backs hp 0

theorem lastOf_mem {κ : Type} [DecidableEq κ] {a : α → κ} {k : κ} {x : α}
    (h : lastOf (xs.map fun x => (a x, x)) k = some x) : x ∈ xs ∧ a x = k := by
  obtain ⟨y, hy, heq⟩ := mem_map.mp (mem_of_lastOf_eq_some h)
  obtain ⟨hkey, rfl⟩ := Prod.mk.inj heq
  exact ⟨hy, hkey⟩

theorem ne_blkMgrInfoKey (hinfo : k ≠ .blkMgrInfo) (hclash : k ≠ .blockTxId clashingTxId) :
    k.bytes ≠ blkMgrInfoKey := by
  intro hk
  obtain heq | ⟨heq, -⟩ | ⟨heq, -⟩ := (bytes_eq_iff k .blkMgrInfo).mp hk
  · exact hinfo heq
  · exact hclash heq
  · exact hinfo heq

theorem fetch_by_hash (h : Indexed hash files db l tail) (blockHash : Bytes) :
    (getBlockLocByHash .all db blockHash >>= fetchBlock files) =
      found (blockWithHash hash l.chain blockHash) .ok := by
  have hputs : lastOf (l.placed.flatMap (puts hash)) (.blockHash blockHash) =
      (lastOf (l.placed.map fun p => (hash p.stored.block.header, p)) blockHash).map
        fun p => p.flp.marshal := by
    rw [← lastOf_map_value, map_eq_flatMap]
    refine lastOf_flatMap_congr fun p _ => ?_
    rw [lastOf_puts_blockHash]
    simp [lastOf]
  have hspec : blockWithHash hash l.chain blockHash =
      (lastOf (l.placed.map fun p => (hash p.stored.block.header, p)) blockHash).map
        fun p => p.stored.block := by
    rw [← lastOf_map_value, blockWithHash, l.chain_eq, map_map]
    rfl
  have hloc := lookupLoc_eq h.index .blockHash (k := .blockHash blockHash)
    (ne_blkMgrInfoKey (by simp) (by simp))
  rw [getBlockLocByHash, show constructBlockHashKey blockHash =
    (IndexKey.blockHash blockHash).bytes from rfl, hloc, hputs, hspec]
  exact fetchBlock_found h fun p hp => (lastOf_mem hp).1

theorem number_ne_of_later (hnum : Numbered ps) (hshort : ps.length < 2 ^ 64)
    (hp : ps[i]? = some p) : ∀ q ∈ ps.drop (i + 1), q.number ≠ p.number := by
  intro q hq heq
  obtain ⟨j, hj⟩ := mem_iff_getElem?.mp hq
  rw [getElem?_drop] at hj
  have hi := lt_length hp
  have hlt := lt_length hj
  rw [hnum _ _ hp, hnum _ _ hj] at heq
  have := ofNat_inj (by omega) (by omega) heq
  omega

/-- An entry that only the block with a number makes. -/
theorem lastOf_puts_of_number (hnum : Numbered ps) (hshort : ps.length < 2 ^ 64)
    (hp : ps[i]? = some p) {v : Bytes} (hv : lastOf (p.puts hash) k = some v)
    (hother : ∀ q : Placed, q.number ≠ p.number → lastOf (q.puts hash) k = none) :
    lastOf (ps.flatMap (Placed.puts hash)) k = some v := by
  obtain ⟨hi, hget⟩ := List.getElem?_eq_some_iff.mp hp
  have hsplit : ps = ps.take i ++ p :: ps.drop (i + 1) := by
    rw [← hget, getElem_cons_drop, take_append_drop]
  have hlater : lastOf ((ps.drop (i + 1)).flatMap (puts hash)) k = none :=
    lastOf_flatMap_eq_none fun q hq => hother q (number_ne_of_later hnum hshort hp q hq)
  rw [hsplit, flatMap_append, flatMap_cons, lastOf_append, lastOf_append, hlater, hv]
  rfl

theorem blockLocByNum_placed (hidx : IndexOk hash db ps) (hnum : Numbered ps)
    (hshort : ps.length < 2 ^ 64) (hp : ps[i]? = some p) (hfits : p.Fits) :
    getBlockLocByBlockNum .all db (ofNat i) = .ok p.flp := by
  have hi : p.number = ofNat i := hnum i p hp
  have hlast := lastOf_puts_of_number hnum hshort hp (k := .blockNum (ofNat i))
    (by rw [lastOf_puts_blockNum hash, if_pos hi])
    (fun q hq => by rw [lastOf_puts_blockNum, if_neg (fun heq => hq (heq.trans hi.symm))])
  have hloc := lookupLoc_eq hidx .blockNum (k := .blockNum (ofNat i))
    (ne_blkMgrInfoKey nofun nofun)
  rw [getBlockLocByBlockNum, show constructBlockNumKey (ofNat i) =
    (blockNum (ofNat i)).bytes from rfl, hloc, hlast]
  exact congrArg Except.ok (unmarshal_flp hfits)

theorem fetch_by_number (h : Indexed hash files db l tail) (hb : l.chain[i]? = some b) :
    (getBlockLocByBlockNum .all db (ofNat i) >>= fetchBlock files) = .ok b := by
  rw [l.chain_eq, getElem?_map] at hb
  obtain ⟨p, hp, rfl⟩ := Option.map_eq_some_iff.mp hb
  have hmem : p ∈ l.placed := mem_of_getElem? hp
  rw [blockLocByNum_placed h.index h.numbered h.short hp (h.fits p hmem), ok_bind]
  exact fetchBlock_placed h.backs hmem 0

theorem fetch_by_numbers (h : Indexed hash files db l tail) {j : Nat} {d : Bytes}
    (hb : l.chain[i]? = some b) (hd : b.data[j]? = some d) :
    (getTxLocByBlockNumTranNum .all db (ofNat i) (ofNat j) >>=
      fetchTransactionEnvelope files) = getEnvelopeFromBlock d := by
  rw [l.chain_eq, getElem?_map] at hb
  obtain ⟨p, hp, rfl⟩ := Option.map_eq_some_iff.mp hb
  have hnum : p.number = ofNat i := h.numbered i p hp
  have hmem : p ∈ l.placed := mem_of_getElem? hp
  rw [← p.map_data_txs, getElem?_map] at hd
  obtain ⟨x, hx, rfl⟩ := Option.map_eq_some_iff.mp hd
  have hxmem : x ∈ p.txs := mem_of_getElem? hx
  have hinfo : p.txOffsets[j]? = some x.info := by
    rw [← p.map_info_txs, getElem?_map, hx]
    rfl
  have hlen : p.txOffsets.length ≤ 2 ^ 64 := by
    have := p.stored.sized.envelopes
    rw [p.length_data] at this
    omega
  have hlast := lastOf_puts_of_number h.numbered h.short hp
    (k := .blockNumTranNum (ofNat i) (ofNat j))
    (by rw [← hnum]; exact lastOf_puts_blockNumTranNum hash p hinfo hlen)
    (fun q hq => lastOf_puts_blockNum_ne hash q (fun heq => hq (heq.trans hnum.symm)))
  have hloc := lookupLoc_eq h.index .blockNumTranNum
    (k := .blockNumTranNum (ofNat i) (ofNat j)) (ne_blkMgrInfoKey nofun nofun)
  rw [getTxLocByBlockNumTranNum, show constructBlockNumTranNumKey (ofNat i)
    (ofNat j) = (blockNumTranNum (ofNat i) (ofNat j)).bytes from rfl,
    hloc, hlast]
  show fetchTransactionEnvelope files (unmarshal _) = _
  rw [unmarshal_relative (h.fits p hmem) hxmem]
  exact fetchEnvelope_placed h.backs hmem hxmem

/-! ## By TxID -/

def txWithId (l : Layout) (id : GoString) : Option PlacedTx :=
  lastOf ((l.placed.flatMap Placed.txs).map fun x => (x.info.txId, x)) id

theorem txIdOf_data (hx : x ∈ p.txs) : txIdOf x.data = x.info.txId := by
  obtain ⟨t, hloc, -, hinfo⟩ := p.located_txs hx
  rw [txIdOf, hloc.1, hinfo]
  rfl

variable (l id)

theorem lastOf_txs {f : Placed → List (GoString × β)} {g : PlacedTx → β}
    (h : ∀ p, f p = p.txs.map fun x => (x.info.txId, g x)) :
    lastOf (l.placed.flatMap f) id = (txWithId l id).map g := by
  rw [txWithId, ← lastOf_map_value, map_flatMap, funext h]

theorem envelopeWithId_eq : envelopeWithId l.chain id = (txWithId l id).map PlacedTx.data := by
  rw [envelopeWithId, l.chain_eq, flatMap_map]
  refine lastOf_txs l id fun p => ?_
  rw [← p.map_data_txs, map_map]
  exact map_congr_left fun x hx => by rw [comp_apply, txIdOf_data hx]

theorem blockWithId_eq :
    blockWithId l.chain id = (txWithId l id).map fun x => x.placed.stored.block := by
  rw [blockWithId, l.chain_eq, flatMap_map]
  refine lastOf_txs l id fun p => ?_
  rw [← p.map_data_txs, map_map]
  refine map_congr_left fun x hx => ?_
  rw [comp_apply, txIdOf_data hx, placed_of_mem_txs hx]

theorem map_zip_zip {γ : Type} {ys : List β} {zs : List γ} (h : xs.length = ys.length) :
    (xs.zip (ys.zip zs)).map (fun x => (x.1, x.2.2)) = xs.zip zs := by
  induction xs generalizing ys zs with
  | nil => rfl
  | cons x xs ih =>
    cases ys with
    | nil => cases h
    | cons y ys =>
      cases zs with
      | nil => rfl
      | cons z zs => rw [zip_cons_cons, zip_cons_cons, map_cons, ih (succ.inj h), zip_cons_cons]

theorem codeWithId_eq : codeWithId l.chain id = (txWithId l id).map PlacedTx.flag := by
  rw [codeWithId, l.chain_eq, flatMap_map]
  refine lastOf_txs l id fun p => ?_
  have hzip : p.stored.block.data.zip p.stored.flags = p.txs.map fun x => (x.data, x.flag) := by
    rw [txs, map_map]
    exact (map_zip_zip p.length_data).symm
  rw [p.stored.filter]
  show (p.stored.block.data.zip p.stored.flags).map _ = _
  rw [hzip, map_map]
  exact map_congr_left fun x hx => by rw [comp_apply, txIdOf_data hx]

variable {l id}

theorem mem_of_txWithId (h : txWithId l id = some x) : x.placed ∈ l.placed ∧ x ∈ x.placed.txs := by
  obtain ⟨p, hp, hx⟩ := mem_flatMap.mp (lastOf_mem h).1
  rw [placed_of_mem_txs hx]
  exact ⟨hp, hx⟩

theorem lastOf_puts_txs (l : Layout) (id : GoString) {f : Placed → List (GoString × Bytes)}
    {g : PlacedTx → Bytes} (hk : ∀ p, lastOf (p.puts hash) k = lastOf (f p) id)
    (hf : ∀ p, f p = p.txs.map fun x => (x.info.txId, g x)) :
    lastOf (l.placed.flatMap (Placed.puts hash)) k = (txWithId l id).map g := by
  rw [lastOf_flatMap_congr fun p _ => hk p]
  exact lastOf_txs l id hf

theorem map_txOffsets (p : Placed) (g : Placed → TxIndexInfo → Bytes) :
    p.txOffsets.map (fun t => (t.txId, g p t)) =
      p.txs.map fun x => (x.info.txId, g x.placed x.info) := by
  rw [← p.map_info_txs, map_map]
  refine map_congr_left fun x hx => ?_
  rw [comp_apply, placed_of_mem_txs hx]

variable (h : Indexed hash files db l tail)
include h

theorem fetch_transaction_by_id (id : GoString) :
    (getTxLoc .all db id >>= fetchTransactionEnvelope files) =
      found (envelopeWithId l.chain id) getEnvelopeFromBlock := by
  have hputs : lastOf (l.placed.flatMap (puts hash)) (.txId id) =
      (txWithId l id).map fun x => (x.placed.flp.relative x.info.loc).marshal :=
    lastOf_puts_txs l id (fun p => lastOf_puts_txId hash p id) fun p =>
      map_txOffsets p fun p t => (p.flp.relative t.loc).marshal
  have hloc := lookupLoc_eq h.index .txId (k := .txId id) (ne_blkMgrInfoKey nofun nofun)
  rw [getTxLoc, show constructTxIdKey id = (txId id).bytes from rfl, hloc, hputs, envelopeWithId_eq]
  cases hx : txWithId l id with
  | none => rfl
  | some x =>
    obtain ⟨hp, hmem⟩ := mem_of_txWithId hx
    show fetchTransactionEnvelope files (unmarshal _) = _
    rw [unmarshal_relative (h.fits _ hp) hmem]
    exact fetchEnvelope_placed h.backs hp hmem

theorem fetch_block_by_id (hid : id ≠ clashingTxId) :
    (getBlockLocByTxId .all db id >>= fetchBlock files) = found (blockWithId l.chain id) .ok := by
  have hputs : lastOf (l.placed.flatMap (puts hash)) (.blockTxId id) =
      (txWithId l id).map fun x => x.placed.flp.marshal :=
    lastOf_puts_txs l id (fun p => lastOf_puts_blockTxId hash p id) fun p =>
      map_txOffsets p fun p _ => p.flp.marshal
  have hloc := lookupLoc_eq h.index .blockTxId (k := .blockTxId id)
    (ne_blkMgrInfoKey nofun fun hk => hid (blockTxId.inj hk))
  rw [getBlockLocByTxId, show constructBlockTxIdKey id = (blockTxId id).bytes from rfl,
    hloc, hputs, blockWithId_eq]
  have hfetch := fetchBlock_found h (o := (txWithId l id).map PlacedTx.placed) fun p hp => by
    obtain ⟨x, hx, rfl⟩ := Option.map_eq_some_iff.mp hp
    exact (mem_of_txWithId hx).1
  rw [Option.map_map, Option.map_map] at hfetch
  exact hfetch

theorem validationCode_by_id (id : GoString) :
    getTxValidationCodeByTxId .all db id = found (codeWithId l.chain id) .ok := by
  have hputs : lastOf (l.placed.flatMap (puts hash)) (.txValidationCode id) =
      (txWithId l id).map fun x => [x.flag] := by
    refine lastOf_puts_txs l id (fun p => lastOf_puts_code hash p id) fun p => ?_
    rw [← p.map_flagged_txs, map_map]
    rfl
  have hdb := h.index (.txValidationCode id) (ne_blkMgrInfoKey nofun nofun)
  rw [hputs] at hdb
  have hdb : db[constructTxValidationCodeIdKey id]? = (txWithId l id).map fun x => [x.flag] := hdb
  rw [getTxValidationCodeByTxId, if_pos (show IndexConfig.all .txValidationCode = true from rfl),
    hdb, codeWithId_eq]
  cases txWithId l id <;> rfl

end Getters

end FabricOev.BlockStore
