import FabricOev.Go.JsonDecode
import FabricOev.Ledger.Block

/-!
# Batch schedules

The schedule an orderer computes for the benchmark transactions of a block
(`bench.BatchSchedule`), its JSON form, and how a peer reads it from the ORDERER slot
of the block metadata. Whatever does not parse as a version `v1` schedule counts as no
schedule at all.
-/

namespace FabricOev.Bench

open Go Ledger Option List Json

structure BatchEntry where
  batchId : Int64
  txIds : List GoString
deriving DecidableEq, Repr

structure BatchSchedule where
  blockNumber : UInt64
  batches : List BatchEntry
  version : GoString
deriving DecidableEq, Repr

namespace BatchSchedule

/-- The scheduled transaction ids in the order of the batches, duplicates kept. -/
def txIdList (s : BatchSchedule) : List GoString := s.batches.flatMap (·.txIds)

/-- `AllTxIDs`: a set, here without duplicates. -/
def allTxIds (s : BatchSchedule) : List GoString := s.txIdList.dedup

/-- The batches as lists of ids: all that a schedule means to a peer. -/
def batchIds (s : BatchSchedule) : List (List GoString) := s.batches.map (·.txIds)

def remove (s : BatchSchedule) (id : GoString) : BatchSchedule :=
  { s with batches := s.batches.map fun e => { e with txIds := e.txIds.filter (· ≠ id) } }

end BatchSchedule

variable (s : BatchSchedule) {α : Type}

theorem BatchSchedule.allTxIds_eq : s.allTxIds = s.batchIds.flatten.dedup := by
  rw [allTxIds, txIdList, batchIds, flatMap_def]

def scheduleOf (batches : List (List GoString)) : BatchSchedule :=
  ⟨0, batches.zipIdx.map fun e => ⟨Int64.ofNat e.2, e.1⟩, str "v1"⟩

theorem BatchSchedule.mem_allTxIds {s : BatchSchedule} {id : GoString} :
    id ∈ s.allTxIds ↔ ∃ e ∈ s.batches, id ∈ e.txIds := by
  simp [allTxIds, txIdList]

theorem BatchSchedule.remove_of_notMem {id : GoString} (h : id ∉ s.allTxIds) : s.remove id = s := by
  have hb : ∀ e ∈ s.batches, { e with txIds := e.txIds.filter (· ≠ id) } = e := by
    intro e he
    have hf : e.txIds.filter (· ≠ id) = e.txIds := by
      refine filter_eq_self.mpr fun x hx => ?_
      have hne : x ≠ id := fun h' => h (mem_allTxIds.mpr ⟨e, he, h' ▸ hx⟩)
      simpa using hne
    rw [hf]
  rw [remove, map_congr_left hb, List.map_id']

def BatchEntry.toJson (e : BatchEntry) : Json :=
  .obj [(str "batch_id", .num (formatInt e.batchId)), (str "tx_ids", .arr (e.txIds.map .str))]

def BatchSchedule.toJson (s : BatchSchedule) : Json :=
  .obj [(str "block_number", .num (formatNat s.blockNumber.toNat)),
    (str "batches", .arr (s.batches.map BatchEntry.toJson)),
    (str "version", .str s.version)]

def BatchSchedule.marshal (s : BatchSchedule) : Bytes := s.toJson.encode

def BatchEntry.zero : BatchEntry := ⟨0, []⟩

def BatchSchedule.zero : BatchSchedule := ⟨0, [], []⟩

def BatchEntry.fields : Json.Fields BatchEntry :=
  [(str "batch_id", fun e j => (decodeInt e.batchId j).map ({ e with batchId := · })),
    (str "tx_ids", fun e j => (decodeSlice [] decodeString e.txIds j).map ({ e with txIds := · }))]

def BatchSchedule.fields : Json.Fields BatchSchedule :=
  [(str "block_number", fun s j =>
      (decodeUint s.blockNumber j).map ({ s with blockNumber := · })),
    (str "batches", fun s j =>
      (decodeSlice BatchEntry.zero (decodeStruct BatchEntry.fields) s.batches j).map
        ({ s with batches := · })),
    (str "version", fun s j => (decodeString s.version j).map ({ s with version := · }))]

def BatchSchedule.unmarshal (b : Bytes) : Option BatchSchedule :=
  Json.unmarshal BatchSchedule.zero (Json.decodeStruct BatchSchedule.fields) b

def parseBatchSchedule (block : Block) : Option BatchSchedule :=
  match block.metadata with
  | none => none
  | some ms =>
    match ms[MetadataIndex.orderer]? with
    | none => none
    | some raw =>
      if raw = [] then none
      else
        match Protos.Metadata.unmarshal raw with
        | none => none
        | some ordererMeta =>
          if ordererMeta.value = [] then none
          else
            match BatchSchedule.unmarshal ordererMeta.value with
            | none => none
            | some s => if s.version = str "v1" then some s else none

/-- The schedule a peer reads back: every id coerced to valid UTF-8. -/
def BatchEntry.coerce (e : BatchEntry) : BatchEntry := { e with txIds := e.txIds.map coerceUtf8 }

def BatchSchedule.coerce (s : BatchSchedule) : BatchSchedule :=
  { s with batches := s.batches.map BatchEntry.coerce, version := coerceUtf8 s.version }

variable (f : α → Json)

theorem canonicalElems_map (h : ∀ x, Json.Canonical (f x)) (xs : List α) :
    Json.CanonicalElems (xs.map f) := by
  induction xs with
  | nil => trivial
  | cons x xs ih => exact ⟨h x, ih⟩

variable (e : BatchEntry)

theorem BatchEntry.canonical_toJson : Json.Canonical e.toJson :=
  ⟨isIntLit_formatInt _, canonicalElems_map str (fun _ => trivial) _, trivial⟩

theorem BatchSchedule.canonical_toJson : Json.Canonical s.toJson :=
  ⟨⟨_, .inl rfl⟩, canonicalElems_map _ BatchEntry.canonical_toJson _, trivial, trivial⟩

theorem coerceElems_map (xs : List α) : coerceElems (xs.map f) = xs.map fun x => (f x).coerce := by
  induction xs with
  | nil => rfl
  | cons x xs ih => simp [coerceElems, ih]

theorem coerceUtf8_str {s : String} (h : ∀ b ∈ str s, b < 0x80) : coerceUtf8 (str s) = str s :=
  coerceUtf8_ascii h

theorem BatchEntry.decode_toJson :
    decodeStruct BatchEntry.fields BatchEntry.zero e.toJson.coerce = some e.coerce := by
  have hids := decodeElems_map [] decodeString str id (e.txIds.map coerceUtf8) fun _ _ => rfl
  have hshape : e.toJson.coerce = .obj [(str "batch_id", .num (formatInt e.batchId)),
        (str "tx_ids", .arr ((e.txIds.map coerceUtf8).map .str))] := by
    simp only [toJson, Json.coerce, Json.coerceMembers, coerceElems_map,
      coerceUtf8_str (s := "batch_id") (by decide +kernel),
      coerceUtf8_str (s := "tx_ids") (by decide +kernel), List.map_map]
    rfl
  have h1 : decodeMember BatchEntry.fields BatchEntry.zero
      (str "batch_id", .num (formatInt e.batchId)) = some ⟨e.batchId, []⟩ := by
    change (decodeInt _ _).map _ = _
    rw [decodeInt_formatInt]
    rfl
  have h2 : decodeMember BatchEntry.fields ⟨e.batchId, []⟩
      (str "tx_ids", .arr ((e.txIds.map coerceUtf8).map .str)) = some e.coerce := by
    change (decodeElems _ _ _ _).map _ = _
    rw [hids]
    simp [coerce]
  rw [hshape]
  change foldlM _ _ _ = _
  simp only [foldlM_cons, h1, h2, bind_eq_bind, bind_some, foldlM_nil]
  rfl

/-- A peer that unmarshals an encoded schedule gets it back with every string coerced. -/
theorem BatchSchedule.unmarshal_marshal : BatchSchedule.unmarshal s.marshal = some s.coerce := by
  have hbs := decodeElems_map BatchEntry.zero (decodeStruct BatchEntry.fields)
    (fun e : BatchEntry => e.toJson.coerce) BatchEntry.coerce s.batches
    fun e _ => BatchEntry.decode_toJson e
  have hshape : s.toJson.coerce = .obj [(str "block_number", .num (formatNat s.blockNumber.toNat)),
        (str "batches", .arr (s.batches.map fun e => e.toJson.coerce)),
        (str "version", .str (coerceUtf8 s.version))] := by
    simp only [toJson, Json.coerce, Json.coerceMembers, coerceElems_map,
      coerceUtf8_str (s := "block_number") (by decide +kernel),
      coerceUtf8_str (s := "batches") (by decide +kernel),
      coerceUtf8_str (s := "version") (by decide +kernel)]
  have h1 : decodeMember BatchSchedule.fields BatchSchedule.zero
      (str "block_number", .num (formatNat s.blockNumber.toNat)) =
        some ⟨s.blockNumber, [], []⟩ := by
    change (decodeUint _ _).map _ = _
    rw [decodeUint_formatNat]
    rfl
  have h2 : decodeMember BatchSchedule.fields ⟨s.blockNumber, [], []⟩
      (str "batches", .arr (s.batches.map fun e => e.toJson.coerce)) =
        some ⟨s.blockNumber, s.batches.map BatchEntry.coerce, []⟩ := by
    change (decodeElems _ _ _ _).map _ = _
    rw [hbs]
    rfl
  have h3 : decodeMember BatchSchedule.fields ⟨s.blockNumber, s.batches.map BatchEntry.coerce, []⟩
      (str "version", .str (coerceUtf8 s.version)) = some s.coerce := rfl
  rw [BatchSchedule.unmarshal, BatchSchedule.marshal, Json.unmarshal_encode s.canonical_toJson,
    hshape]
  change foldlM _ _ _ = _
  simp only [foldlM_cons, h1, h2, h3, bind_eq_bind, bind_some, foldlM_nil]
  rfl

end FabricOev.Bench
