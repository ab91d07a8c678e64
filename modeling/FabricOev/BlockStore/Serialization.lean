import FabricOev.Ledger.Storage

/-!
# Serialised blocks

`serializeBlock` of `fsblkstorage`: header, envelopes and metadata one after the other, each
item behind its length. The places of the envelopes are noted for the index on the way, and
again when a block is read back from a file.
-/

namespace FabricOev.BlockStore

open Go Go.Wire Protos Ledger List Result Option UInt8

structure LocPointer where
  offset : Nat
  bytesLength : Nat
deriving DecidableEq, Repr

structure TxIndexInfo where
  txId : GoString
  loc : LocPointer
deriving DecidableEq, Repr

def encodeRawBytes (b : Bytes) : Bytes := encodeVarint b.length ++ b

def addHeaderBytes (h : BlockHeader) : Bytes :=
  encodeVarint h.number.toNat ++ encodeRawBytes h.dataHash ++ encodeRawBytes h.previousHash

/-- The loop of `addDataBytes`, behind what the buffer already has. -/
def addDataBytes (buf : Bytes) : List Bytes → Result (Bytes × List TxIndexInfo)
  | [] => .ok (buf, [])
  | d :: ds => do
    let txId ← extractTxId d
    let (out, infos) ← addDataBytes (buf ++ encodeRawBytes d) ds
    .ok (out, ⟨txId, ⟨buf.length, (encodeRawBytes d).length⟩⟩ :: infos)

/-- The items of nil metadata are a nil dereference. -/
def serializeBlock (b : Block) : Result (Bytes × List TxIndexInfo) := do
  let (buf, infos) ← addDataBytes (addHeaderBytes b.header ++ encodeVarint b.data.length) b.data
  let ms ← deref b.metadata
  .ok (buf ++ (encodeVarint ms.length ++ ms.flatMap encodeRawBytes), infos)

/-- `ledgerutil.Buffer`: what is left, and the position that is counted along. -/
structure Buffer where
  rest : Bytes
  position : Nat
deriving DecidableEq, Repr

def Buffer.decodeVarint (b : Buffer) : Result (Nat × Buffer) :=
  match Wire.decodeVarint b.rest with
  | none => fail .proto
  | some (v, rest) => .ok (v, ⟨rest, b.position + (encodeVarint v).length⟩)

def Buffer.decodeRawBytes (b : Buffer) : Result (Bytes × Buffer) :=
  match Wire.decodeRawBytes b.rest with
  | none => fail .proto
  | some (v, rest) => .ok (v, ⟨rest, b.position + ((encodeVarint v.length).length + v.length)⟩)

def extractHeader (b : Buffer) : Result (BlockHeader × Buffer) := do
  let (number, b) ← b.decodeVarint
  let (dataHash, b) ← b.decodeRawBytes
  let (previousHash, b) ← b.decodeRawBytes
  .ok (⟨UInt64.ofNat number, previousHash, dataHash⟩, b)

def extractTxs : Nat → Buffer → Result ((List Bytes × List TxIndexInfo) × Buffer)
  | 0, b => .ok (([], []), b)
  | n + 1, b => do
    let (d, b') ← b.decodeRawBytes
    let txId ← extractTxId d
    let ((ds, infos), out) ← extractTxs n b'
    .ok ((d :: ds, ⟨txId, ⟨b.position, b'.position - b.position⟩⟩ :: infos), out)

def extractData (b : Buffer) : Result ((List Bytes × List TxIndexInfo) × Buffer) := do
  let (numItems, b) ← b.decodeVarint
  extractTxs numItems b

def extractItems : Nat → Buffer → Result (List Bytes × Buffer)
  | 0, b => .ok ([], b)
  | n + 1, b => do
    let (m, b) ← b.decodeRawBytes
    let (ms, b) ← extractItems n b
    .ok (m :: ms, b)

def extractMetadata (b : Buffer) : Result (List Bytes × Buffer) := do
  let (numItems, b) ← b.decodeVarint
  extractItems numItems b

def deserializeBlock (s : Bytes) : Result Block := do
  let (header, b) ← extractHeader ⟨s, 0⟩
  let ((data, _), b) ← extractData b
  let (ms, _) ← extractMetadata b
  .ok ⟨header, data, some ms⟩

structure SerializedBlockInfo where
  blockHeader : BlockHeader
  txOffsets : List TxIndexInfo
  metadata : Option (List Bytes)
deriving DecidableEq, Repr

def extractSerializedBlockInfo (s : Bytes) : Result SerializedBlockInfo := do
  let (header, b) ← extractHeader ⟨s, 0⟩
  let ((_, txOffsets), b) ← extractData b
  let (ms, _) ← extractMetadata b
  .ok ⟨header, txOffsets, some ms⟩

theorem Buffer.decodeVarint_encode {n : Nat} (hn : n < 2 ^ 64) (rest : Bytes) (p : Nat) :
    Buffer.decodeVarint ⟨encodeVarint n ++ rest, p⟩ =
      .ok (n, ⟨rest, p + (encodeVarint n).length⟩) := by
  rw [Buffer.decodeVarint, decode_encodeVarint hn]

variable {d : Bytes} {buf out : Bytes} {ds : List Bytes} {info : TxIndexInfo}

theorem Buffer.decodeRawBytes_encode (hd : d.length < 2 ^ 64) (rest : Bytes) (p : Nat) :
    Buffer.decodeRawBytes ⟨encodeRawBytes d ++ rest, p⟩ =
      .ok (d, ⟨rest, p + (encodeRawBytes d).length⟩) := by
  rw [Buffer.decodeRawBytes, encodeRawBytes]
  rw [Wire.decodeRawBytes_encode hd, length_append]

theorem extractHeader_encode {h : BlockHeader} (hd : h.dataHash.length < 2 ^ 64)
    (hp : h.previousHash.length < 2 ^ 64) (rest : Bytes) :
    extractHeader ⟨addHeaderBytes h ++ rest, 0⟩ = .ok (h, ⟨rest, (addHeaderBytes h).length⟩) := by
  rw [extractHeader, addHeaderBytes, append_assoc, append_assoc,
    Buffer.decodeVarint_encode h.number.toNat_lt, ok_bind]
  dsimp only
  rw [Buffer.decodeRawBytes_encode hd, ok_bind]
  rw [Buffer.decodeRawBytes_encode hp, ok_bind]
  simp only [UInt64.ofNat_toNat, length_append, Nat.zero_add]

theorem addDataBytes_eq {infos : List TxIndexInfo} (h : addDataBytes buf ds = .ok (out, infos)) :
    out = buf ++ ds.flatMap encodeRawBytes := by
  induction ds generalizing buf infos with
  | nil =>
    cases h
    simp
  | cons d ds ih =>
    obtain ⟨txId, -, h⟩ := bind_ok.mp h
    obtain ⟨⟨out', infos'⟩, hrest, h⟩ := bind_ok.mp h
    cases h
    rw [ih hrest, flatMap_cons, append_assoc]

theorem addDataBytes_isOk_iff (buf : Bytes) :
    (∃ r, addDataBytes buf ds = .ok r) ↔ ∀ d ∈ ds, ∃ txId, extractTxId d = .ok txId := by
  induction ds generalizing buf with
  | nil => exact ⟨fun _ d hd => (nomatch hd), fun _ => ⟨_, rfl⟩⟩
  | cons d ds ih =>
    rw [forall_mem_cons, ← ih (buf ++ encodeRawBytes d), addDataBytes]
    cases extractTxId d with
    | error e => exact ⟨fun h => (nomatch h), fun h => (nomatch h.1)⟩
    | ok txId =>
      cases addDataBytes (buf ++ encodeRawBytes d) ds with
      | error e => exact ⟨fun h => (nomatch h), fun h => (nomatch h.2)⟩
      | ok r => exact ⟨fun _ => ⟨⟨txId, rfl⟩, r, rfl⟩, fun _ => ⟨_, rfl⟩⟩

theorem extractTxs_addDataBytes {infos : List TxIndexInfo}
    (h : addDataBytes buf ds = .ok (out, infos)) (hlen : ∀ d ∈ ds, d.length < 2 ^ 64)
    (rest : Bytes) :
    extractTxs ds.length ⟨ds.flatMap encodeRawBytes ++ rest, buf.length⟩ =
      .ok ((ds, infos), ⟨rest, out.length⟩) := by
  induction ds generalizing buf infos with
  | nil =>
    cases h
    rfl
  | cons d ds ih =>
    obtain ⟨txId, hid, h⟩ := bind_ok.mp h
    obtain ⟨⟨out', infos'⟩, hrest, h⟩ := bind_ok.mp h
    cases h
    have hrest := ih hrest fun x hx => hlen x (mem_cons_of_mem _ hx)
    rw [length_append] at hrest
    rw [length_cons, extractTxs, flatMap_cons, append_assoc,
      Buffer.decodeRawBytes_encode (hlen d mem_cons_self), ok_bind]
    dsimp only
    rw [hid, ok_bind, hrest, ok_bind]
    simp only [Nat.add_sub_cancel_left]

theorem extractItems_encode (ms : List Bytes) (hlen : ∀ m ∈ ms, m.length < 2 ^ 64) (rest : Bytes)
    (p : Nat) :
    ∃ q, extractItems ms.length ⟨ms.flatMap encodeRawBytes ++ rest, p⟩ = .ok (ms, ⟨rest, q⟩) := by
  induction ms generalizing p with
  | nil => exact ⟨p, rfl⟩
  | cons m ms ih =>
    obtain ⟨q, hq⟩ := ih (fun x hx => hlen x (mem_cons_of_mem _ hx)) (p + (encodeRawBytes m).length)
    refine ⟨q, ?_⟩
    rw [length_cons, extractItems, flatMap_cons, append_assoc,
      Buffer.decodeRawBytes_encode (hlen m mem_cons_self), ok_bind]
    dsimp only
    rw [hq, ok_bind]

/-! ## Lengths -/

structure Sized (b : Block) : Prop where
  dataHash : b.header.dataHash.length < 2 ^ 63
  previousHash : b.header.previousHash.length < 2 ^ 63
  envelopes : b.data.length < 2 ^ 63
  envelope : ∀ d ∈ b.data, d.length < 2 ^ 63
  items : ∀ ms, b.metadata = some ms → ms.length < 2 ^ 63
  item : ∀ ms, b.metadata = some ms → ∀ m ∈ ms, m.length < 2 ^ 63

theorem length_le_rawBytes (d : Bytes) : d.length < (encodeRawBytes d).length := by
  have hpos := length_pos_iff.mpr (encodeVarint_ne_nil d.length)
  rw [encodeRawBytes, length_append]
  omega

/-- Every item, and the number of items, is at most as long as all of them. -/
theorem length_le_flatMap_rawBytes (ds : List Bytes) :
    ds.length ≤ (ds.flatMap encodeRawBytes).length ∧
      ∀ d ∈ ds, d.length ≤ (ds.flatMap encodeRawBytes).length := by
  induction ds with
  | nil => simp
  | cons d ds ih =>
    obtain ⟨hcount, hitems⟩ := ih
    have hd := length_le_rawBytes d
    rw [flatMap_cons, length_append, length_cons]
    refine ⟨by omega, fun x hx => ?_⟩
    obtain rfl | hx := mem_cons.mp hx
    · omega
    · have := hitems x hx
      omega

section Blocks

variable {b : Block} {bytes : Bytes} {infos : List TxIndexInfo}

variable (h : serializeBlock b = .ok (bytes, infos))
include h

theorem serializeBlock_eq_ok :
    ∃ ms buf, b.metadata = some ms ∧
      addDataBytes (addHeaderBytes b.header ++ encodeVarint b.data.length) b.data =
        .ok (buf, infos) ∧
      bytes = buf ++ (encodeVarint ms.length ++ ms.flatMap encodeRawBytes) := by
  obtain ⟨⟨buf, infos'⟩, hbuf, h⟩ := bind_ok.mp h
  obtain ⟨ms, hms, h⟩ := bind_ok.mp h
  cases h
  exact ⟨ms, buf, deref_eq_ok hms, hbuf, rfl⟩

theorem sized_of_length_lt (hlen : bytes.length < 2 ^ 63) : Sized b := by
  obtain ⟨ms, buf, hms, hbuf, rfl⟩ := serializeBlock_eq_ok h
  obtain ⟨hcount, hitems⟩ := length_le_flatMap_rawBytes b.data
  obtain ⟨hcount', hitems'⟩ := length_le_flatMap_rawBytes ms
  have hdata := length_le_rawBytes b.header.dataHash
  have hprev := length_le_rawBytes b.header.previousHash
  rw [addDataBytes_eq hbuf] at hlen
  simp only [length_append, addHeaderBytes] at hlen
  constructor
  · omega
  · omega
  · omega
  · intro d hd
    have := hitems d hd
    omega
  · intro ms' hms'
    cases hms.symm.trans hms'
    omega
  · intro ms' hms' m hm
    cases hms.symm.trans hms'
    have := hitems' m hm
    omega

/-- A block is read back from its bytes, with the places of its envelopes. -/
theorem deserialize_serialize (hs : Sized b) :
    deserializeBlock bytes = .ok b ∧
      extractSerializedBlockInfo bytes = .ok ⟨b.header, infos, b.metadata⟩ := by
  obtain ⟨ms, buf, hms, hbuf, rfl⟩ := serializeBlock_eq_ok h
  have hout := addDataBytes_eq hbuf
  have hwide : ∀ {n : Nat}, n < 2 ^ 63 → n < 2 ^ 64 := fun hn => by omega
  have hheader := extractHeader_encode (h := b.header) (hwide hs.dataHash) (hwide hs.previousHash)
    (encodeVarint b.data.length ++ (b.data.flatMap encodeRawBytes ++
      (encodeVarint ms.length ++ ms.flatMap encodeRawBytes)))
  have htxs := extractTxs_addDataBytes hbuf (fun d hd => hwide (hs.envelope d hd))
    (encodeVarint ms.length ++ ms.flatMap encodeRawBytes)
  rw [length_append] at htxs
  obtain ⟨q, hq⟩ := extractItems_encode ms (fun m hm => hwide (hs.item ms hms m hm)) []
    (buf.length + (encodeVarint ms.length).length)
  rw [append_nil] at hq
  have hsplit : buf ++ (encodeVarint ms.length ++ ms.flatMap encodeRawBytes) =
      addHeaderBytes b.header ++ (encodeVarint b.data.length ++ (b.data.flatMap encodeRawBytes ++
        (encodeVarint ms.length ++ ms.flatMap encodeRawBytes))) := by
    rw [hout]
    simp only [append_assoc]
  have hextract : ∀ {α : Type} (f : BlockHeader → List Bytes → List TxIndexInfo → List Bytes → α),
      (do
        let (header, r) ← extractHeader ⟨buf ++ (encodeVarint ms.length ++
          ms.flatMap encodeRawBytes), 0⟩
        let ((data, txOffsets), r) ← extractData r
        let (ms, _) ← extractMetadata r
        .ok (f header data txOffsets ms) : Result α) = .ok (f b.header b.data infos ms) := by
    intro α f
    rw [hsplit, hheader, ok_bind]
    dsimp only
    rw [extractData, Buffer.decodeVarint_encode (hwide hs.envelopes), ok_bind]
    dsimp only
    rw [htxs, ok_bind]
    rw [extractMetadata, Buffer.decodeVarint_encode (hwide (hs.items ms hms)), ok_bind]
    dsimp only
    rw [hq, ok_bind]
  constructor
  · have hblock := hextract fun header data _ ms => (⟨header, data, some ms⟩ : Block)
    rw [← hms] at hblock
    exact hblock
  · rw [hms]
    exact hextract fun header _ txOffsets ms => (⟨header, txOffsets, some ms⟩ : SerializedBlockInfo)

omit h

def Located (bytes d : Bytes) (info : TxIndexInfo) : Prop :=
  extractTxId d = .ok info.txId ∧
    (bytes.drop info.loc.offset).take info.loc.bytesLength = encodeRawBytes d ∧
    info.loc.offset + info.loc.bytesLength ≤ bytes.length

theorem Located.append (h : Located bytes d info) (rest : Bytes) :
    Located (bytes ++ rest) d info := by
  obtain ⟨hid, htake, hle⟩ := h
  refine ⟨hid, ?_, by rw [length_append]; omega⟩
  rw [drop_append_of_le_length (by omega), take_append_of_le_length, htake]
  rw [length_drop]
  omega

theorem located_addDataBytes {infos : List TxIndexInfo}
    (h : addDataBytes buf ds = .ok (out, infos)) : List.Forall₂ (Located out) ds infos := by
  induction ds generalizing buf infos with
  | nil =>
    cases h
    exact .nil
  | cons d ds ih =>
    obtain ⟨txId, hid, h⟩ := bind_ok.mp h
    obtain ⟨⟨out', infos'⟩, hrest, h⟩ := bind_ok.mp h
    cases h
    refine .cons ⟨hid, ?_, ?_⟩ (ih hrest)
    · rw [addDataBytes_eq hrest, append_assoc]
      rw [drop_left, take_left]
    · rw [addDataBytes_eq hrest]
      simp only [length_append]
      omega

theorem located_serializeBlock (h : serializeBlock b = .ok (bytes, infos)) :
    List.Forall₂ (Located bytes) b.data infos := by
  obtain ⟨ms, buf, -, hbuf, rfl⟩ := serializeBlock_eq_ok h
  exact (located_addDataBytes hbuf).imp fun d info hd => hd.append _

/-- All that `serializeBlock` needs of a block. -/
theorem serializeBlock_isOk_iff :
    (∃ r, serializeBlock b = .ok r) ↔
      b.metadata ≠ none ∧ ∀ d ∈ b.data, ∃ txId, extractTxId d = .ok txId := by
  constructor
  · intro h
    obtain ⟨⟨bytes, infos⟩, h⟩ := h
    obtain ⟨ms, buf, hms, hbuf, -⟩ := serializeBlock_eq_ok h
    exact ⟨by rw [hms]; exact some_ne_none ms, (addDataBytes_isOk_iff _).mp ⟨_, hbuf⟩⟩
  · intro h
    obtain ⟨hms, hids⟩ := h
    obtain ⟨ms, hms⟩ := ne_none_iff_exists'.mp hms
    obtain ⟨⟨buf, infos⟩, hbuf⟩ := (addDataBytes_isOk_iff
      (addHeaderBytes b.header ++ encodeVarint b.data.length)).mpr hids
    rw [serializeBlock, hbuf, ok_bind, hms]
    exact ⟨_, rfl⟩

end Blocks

def LocPointer.slice (loc : LocPointer) (bytes : Bytes) : Bytes :=
  (bytes.drop loc.offset).take loc.bytesLength

/-- `fetchTransactionEnvelope` of the bytes at a location; a length in front is skipped. -/
def envelopeAt (raw : Bytes) : Result Envelope :=
  match Wire.decodeVarint raw with
  | none => getEnvelopeFromBlock raw
  | some (_, rest) => getEnvelopeFromBlock rest

theorem Located.envelopeAt {bytes : Bytes} (h : Located bytes d info) (hd : d.length < 2 ^ 63) :
    BlockStore.envelopeAt (info.loc.slice bytes) = getEnvelopeFromBlock d := by
  rw [LocPointer.slice, h.2.1, encodeRawBytes, BlockStore.envelopeAt,
    decode_encodeVarint (by omega)]

def withItems (b : Block) : Block := { b with metadata := some (b.metadata.getD []) }

/-- The block comes back, and writer and reader agree on where its envelopes are. -/
def RoundTrips (b : Block) : Prop :=
  ∃ bytes infos, serializeBlock b = .ok (bytes, infos) ∧
    deserializeBlock bytes = .ok (withItems b) ∧
    extractSerializedBlockInfo bytes = .ok ⟨b.header, infos, (withItems b).metadata⟩ ∧
    List.Forall₂ (fun d info => extractTxId d = .ok info.txId ∧
      envelopeAt (info.loc.slice bytes) = getEnvelopeFromBlock d) b.data infos

def HaveHeaders (b : Block) : Prop :=
  ∀ d ∈ b.data, ∃ env payload hdr, getEnvelopeFromBlock d = .ok env ∧
    getPayload env = .ok payload ∧ payload.header = some hdr

theorem extractTxId_isOk_iff {env : Envelope} {payload : Payload} {hdr : Header}
    (henv : getEnvelopeFromBlock d = .ok env) (hpayload : getPayload env = .ok payload)
    (hhdr : payload.header = some hdr) :
    (∃ txId, extractTxId d = .ok txId) ↔ ∃ chdr, channelHeaderOf d = .ok chdr := by
  have hid : extractTxId d = (do
      let chdr ← unmarshalChannelHeader hdr.channelHeader
      .ok chdr.txId) := by
    rw [extractTxId, henv, ok_bind, hpayload, attempt, ok_bind]
    dsimp only
    rw [hhdr, deref, ok_bind]
  have hch : channelHeaderOf d = unmarshalChannelHeader hdr.channelHeader := by
    rw [channelHeaderOf, henv, ok_bind, hpayload, ok_bind, hhdr, deref, ok_bind]
  rw [hid, hch]
  cases unmarshalChannelHeader hdr.channelHeader with
  | error e => simp [bind, Except.bind]
  | ok chdr => exact ⟨fun _ => ⟨chdr, rfl⟩, fun _ => ⟨chdr.txId, rfl⟩⟩

/-- A block is read back as it was written if its metadata is there and its channel headers
decode; a block without metadata is never written. -/
theorem roundTrips_iff (b : Block) (hh : HaveHeaders b) (hs : Sized b) :
    RoundTrips b ↔ b.metadata ≠ none ∧ ∀ d ∈ b.data, ∃ chdr, channelHeaderOf d = .ok chdr := by
  have hids : (∀ d ∈ b.data, ∃ chdr, channelHeaderOf d = .ok chdr) ↔
      ∀ d ∈ b.data, ∃ txId, extractTxId d = .ok txId := by
    refine forall₂_congr fun d hd => ?_
    obtain ⟨env, payload, hdr, henv, hpayload, hhdr⟩ := hh d hd
    exact (extractTxId_isOk_iff henv hpayload hhdr).symm
  rw [hids, ← serializeBlock_isOk_iff]
  constructor
  · intro h
    obtain ⟨bytes, infos, h, -⟩ := h
    exact ⟨_, h⟩
  · intro h
    obtain ⟨⟨bytes, infos⟩, h⟩ := h
    obtain ⟨hblock, hinfo⟩ := deserialize_serialize h hs
    obtain ⟨ms, -, hms, -, -⟩ := serializeBlock_eq_ok h
    have hsame : withItems b = b := by rw [withItems, hms, getD_some, ← hms]
    have hwhere := (forall₂_and_left b.data infos).mpr ⟨hs.envelope, located_serializeBlock h⟩
    refine ⟨bytes, infos, h, ?_, ?_, ?_⟩
    · rw [hsame, hblock]
    · rw [hsame, hinfo]
    · exact hwhere.imp fun d info hd => ⟨hd.2.1, hd.2.envelopeAt hd.1⟩

/-- An envelope whose channel header has the given TxID and nothing else. -/
def bareEnvelope (txId : GoString) : Bytes :=
  let chdr := [8, 3, 42, ofNat txId.length] ++ txId
  let hdr := [10, ofNat chdr.length] ++ chdr
  let payload := [10, ofNat hdr.length] ++ hdr
  [10, ofNat payload.length] ++ payload

theorem roundTrips_two_envelopes :
    RoundTrips ⟨⟨7, [1, 2], []⟩, [bareEnvelope (str "t1"), bareEnvelope (str "t2")],
      some [[], [], [0, 9], []]⟩ := by
  refine (roundTrips_iff _ ?_ ?_).mpr ⟨by decide, ?_⟩
  · intro d hd
    fin_cases hd
    · exact ⟨_, _, _, rfl, rfl, rfl⟩
    · exact ⟨_, _, _, rfl, rfl, rfl⟩
  · constructor <;> decide
  · intro d hd
    fin_cases hd
    · exact ⟨_, rfl⟩
    · exact ⟨_, rfl⟩

/-- The branch for nil metadata writes the number of items, and the loop behind it
dereferences the nil. -/
theorem serializeBlock_nil_metadata :
    serializeBlock ⟨⟨7, [1, 2], []⟩, [bareEnvelope (str "t1")], none⟩ = panicWith .nilDereference ∧
      ¬ RoundTrips ⟨⟨7, [1, 2], []⟩, [bareEnvelope (str "t1")], none⟩ := by
  have h : serializeBlock ⟨⟨7, [1, 2], []⟩, [bareEnvelope (str "t1")], none⟩ =
      panicWith .nilDereference := by decide +kernel
  refine ⟨h, fun hr => ?_⟩
  obtain ⟨bytes, infos, hok, -⟩ := hr
  exact (nomatch hok)

end FabricOev.BlockStore
