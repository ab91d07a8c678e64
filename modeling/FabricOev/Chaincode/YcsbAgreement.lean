import FabricOev.Chaincode.Ycsb
import FabricOev.Go.JsonStrings

/-!
# Replay against the YCSB chaincode

No operation of the replay looks at the state, and a value payload goes through
`json.Unmarshal` where the contract uses a decoder. The two agree exactly where the
contract's checks pass and the payload is one JSON text with a value and nothing after it.
-/

namespace FabricOev.Chaincode.Ycsb

open Go Bench List Json Result Option

def HasPayload (raw value : GoString) : Prop :=
  unmarshal [] (decodeStruct ycsbValueFields) raw = some value ∧ value ≠ []

variable {raw : GoString} {value : GoString} {key : GoString} {keep : GoString → Bool}

/-- What `json.Unmarshal` decodes, a decoder decodes from the front of the text. -/
theorem decodeFirst_of_unmarshal {α : Type} {zero x : α} {dec : Json.Decoder α}
    (h : unmarshal zero dec raw = some x) : decodeFirst zero dec raw = some x := by
  obtain ⟨j, hj, hdec⟩ := bind_eq_some_iff.mp h
  obtain ⟨r, hr, -⟩ := parse_eq_some hj
  rw [decodeFirst, hr]
  exact hdec

theorem decodeFirst_value (h : decodeFirst [] (decodeStruct ycsbValueFields) raw = some value)
    (hne : value ≠ []) : Json.ReadString (coerceUtf8 raw).length value := by
  obtain ⟨⟨j, r⟩, hj, hdec⟩ := bind_eq_some_iff.mp h
  let Q := fun s : GoString => s = [] ∨ Json.ReadString (coerceUtf8 raw).length s
  have hzero : Q [] := .inl rfl
  have hQ : Q value := by
    refine decodeStruct_keeps (Q := Q) ?_ hzero (parseValue_strings hj) hdec
    intro f hf cur j cur' hcur hstr hf'
    obtain rfl := mem_singleton.mp hf
    rcases decodeString_cases hf' with h | h
    · exact h ▸ hcur
    · rw [h] at hstr
      exact .inr hstr
  exact hQ.resolve_left hne

theorem ycsbMarshal_inj {v v' : GoString} (h : ycsbMarshal key v = ycsbMarshal key v') :
    coerceUtf8 v = coerceUtf8 v' := by
  have hcanon : ∀ x, Json.Canonical (.obj [(str "key", .str key), (str "value", .str x)]) :=
    fun x => ⟨trivial, trivial, trivial⟩
  have hparse := congrArg parse h
  rw [ycsbMarshal, ycsbMarshal, parse_encode (hcanon v), parse_encode (hcanon v')] at hparse
  simp only [coerce, coerceMembers, some.injEq, obj.injEq, cons.injEq,
    Prod.mk.injEq, str.injEq, true_and, and_true] at hparse
  exact hparse

/-- Contract and replay store the same record if and only if the payload is a single text. -/
theorem payload_iff (key : GoString) :
    (normalizeValuePayload raw = .ok value ∧
        ycsbMarshal key (ycsbNormalizeValue raw) = ycsbMarshal key value) ↔
      HasPayload raw value := by
  constructor
  · intro h
    obtain ⟨hnorm, hsame⟩ := h
    unfold normalizeValuePayload at hnorm
    cases hfirst : decodeFirst [] (decodeStruct ycsbValueFields) raw with
    | none => simp [hfirst] at hnorm
    | some v =>
      simp only [hfirst] at hnorm
      split at hnorm
      · cases hnorm
      · rename_i hne
        cases hnorm
        unfold ycsbNormalizeValue at hsame
        cases hall : unmarshal [] (decodeStruct ycsbValueFields) raw with
        | some v' =>
          have heq := (decodeFirst_of_unmarshal hall).symm.trans hfirst
          exact ⟨hall.trans heq, hne⟩
        | none =>
          -- the replay would store the raw text, which is longer than the value
          rw [hall] at hsame
          obtain ⟨hvalid, hlen⟩ := decodeFirst_value hfirst hne
          have heq := ycsbMarshal_inj hsame
          rw [hvalid] at heq
          rw [heq] at hlen
          omega
  · intro h
    obtain ⟨hall, hne⟩ := h
    constructor
    · rw [normalizeValuePayload, decodeFirst_of_unmarshal hall]
      exact if_neg hne
    · rw [ycsbNormalizeValue, hall]
      simp only [if_neg hne]

/-! ## Stores -/

theorem writeMap_success (txId requestId : GoString) (operation : String) (key : GoString)
    (payload : Bytes) :
    (successWithOptionalReceipt txId requestId operation key payload).writeMap
        (fun k => !isReceiptKey k) =
      if isReceiptKey key then ∅ else (∅ : WriteMap).insert key payload := by
  have hreceipt : ∀ r, isReceiptKey (putReceipt r).1 = true := fun r =>
    isPrefixOf_iff_prefix.mpr (prefix_append _ _)
  rw [Response.writeMap, successWithOptionalReceipt]
  by_cases hreq : requestId = []
  · rw [if_pos hreq]
    cases hk : isReceiptKey key <;> simp [hk]
  · rw [if_neg hreq]
    cases hk : isReceiptKey key <;> simp [hk, hreceipt]

/-- Both store: the contract's check of the key has passed. -/
theorem store_agrees {operation : String} {txId : GoString} {args : List GoString} :
    Agrees (fun k => !isReceiptKey k) (store operation txId key raw args)
        (.ok ((∅ : WriteMap).insert key (ycsbMarshal key (ycsbNormalizeValue raw)))) ↔
      isReceiptKey key = false ∧ ∃ value, HasPayload raw value := by
  rw [agrees_ok_iff]
  constructor
  · intro h
    obtain ⟨r, hcc, hws⟩ := h
    obtain ⟨value, hvalue, hcc⟩ := bind_ok.mp hcc
    cases hcc
    rw [writeMap_success] at hws
    split at hws
    · have hmem : key ∈ (∅ : WriteMap) := hws ▸ by simp
      simp at hmem
    · rename_i hk
      refine ⟨by simpa using hk, value, (payload_iff key).mp ⟨hvalue, ?_⟩⟩
      exact (insert_empty_inj.mp hws).2
  · intro h
    obtain ⟨hk, value, hvalue⟩ := h
    obtain ⟨hnorm, hsame⟩ := (payload_iff key).mpr hvalue
    refine ⟨_, bind_ok.mpr ⟨value, hnorm, rfl⟩, ?_⟩
    rw [writeMap_success, hk, hsame]
    rfl

def HasRecord (db : View) (key : GoString) : Prop :=
  ∃ payload record, db key = some payload ∧ decodeStoredRecord key payload = .ok record

theorem existingRecord_isOk {db : View} :
    (∃ record, getExistingRecord db key = .ok record) ↔ key ≠ [] ∧ HasRecord db key := by
  unfold getExistingRecord HasRecord
  by_cases hk : key = []
  · simp [hk]
  · rw [if_neg hk]
    cases db key with
    | none => simp
    | some payload => simp [hk]

/-- What a write needs besides the state of its key. -/
structure WriteFaithful (key raw : GoString) (rest : List GoString) : Prop where
  surplus : rest.length ≤ 1
  key_ne : key ≠ []
  not_receipt : isReceiptKey key = false
  payload : ∃ value, HasPayload raw value

def InsertFaithful (db : View) (args : List GoString) : Prop :=
  ∀ key raw rest, args = key :: raw :: rest → WriteFaithful key raw rest ∧ db key = none

def UpdateFaithful (db : View) (args : List GoString) : Prop :=
  ∀ key raw rest, args = key :: raw :: rest → WriteFaithful key raw rest ∧ HasRecord db key

section Writes

variable {db : View} {txId : GoString} {args : List GoString}

theorem insert_agrees :
    Agrees (fun k => !isReceiptKey k) (insert db txId args) (replayYcsb (str "Insert") args) ↔
      InsertFaithful db args := by
  match args with
  | [] | [_] => exact iff_of_true trivial fun _ _ _ h => nomatch h
  | key :: raw :: rest =>
    have hreplay : replayYcsb (str "Insert") (key :: raw :: rest) =
        .ok ((∅ : WriteMap).insert key (ycsbMarshal key (ycsbNormalizeValue raw))) :=
      if_pos (.inl rfl)
    have hone : InsertFaithful db (key :: raw :: rest) ↔
        WriteFaithful key raw rest ∧ db key = none := forall_eq_cons_cons
    rw [hreplay, hone, insert]
    by_cases hlen : 1 < rest.length
    · rw [if_pos hlen]
      exact iff_of_false id fun h => absurd h.1.surplus (by omega)
    rw [if_neg hlen]
    by_cases hkey : key = []
    · rw [if_pos hkey]
      exact iff_of_false id fun h => h.1.key_ne hkey
    rw [if_neg hkey]
    by_cases hdb : (db key).isSome = true
    · rw [if_pos hdb]
      refine iff_of_false id fun h => ?_
      rw [h.2] at hdb
      cases hdb
    rw [if_neg hdb, store_agrees]
    have hnone : db key = none := by simpa using hdb
    constructor
    · intro h
      exact ⟨⟨by omega, hkey, h.1, h.2⟩, hnone⟩
    · intro h
      exact ⟨h.1.not_receipt, h.1.payload⟩

theorem update_agrees :
    Agrees (fun k => !isReceiptKey k) (update db txId args) (replayYcsb (str "Update") args) ↔
      UpdateFaithful db args := by
  match args with
  | [] | [_] => exact iff_of_true trivial fun _ _ _ h => nomatch h
  | key :: raw :: rest =>
    have hreplay : replayYcsb (str "Update") (key :: raw :: rest) =
        .ok ((∅ : WriteMap).insert key (ycsbMarshal key (ycsbNormalizeValue raw))) :=
      if_pos (.inr rfl)
    have hone : UpdateFaithful db (key :: raw :: rest) ↔
        WriteFaithful key raw rest ∧ HasRecord db key := forall_eq_cons_cons
    rw [hreplay, hone, update]
    by_cases hlen : 1 < rest.length
    · rw [if_pos hlen]
      exact iff_of_false id fun h => absurd h.1.surplus (by omega)
    rw [if_neg hlen]
    cases hrec : getExistingRecord db key with
    | error e =>
      refine iff_of_false id fun h => ?_
      obtain ⟨record, hok⟩ := existingRecord_isOk.mpr ⟨h.1.key_ne, h.2⟩
      rw [hrec] at hok
      cases hok
    | ok record =>
      obtain ⟨hkey, hhas⟩ := existingRecord_isOk.mp ⟨record, hrec⟩
      refine store_agrees.trans ?_
      constructor
      · intro h
        exact ⟨⟨by omega, hkey, h.1, h.2⟩, hhas⟩
      · intro h
        exact ⟨h.1.not_receipt, h.1.payload⟩

end Writes

def ReadFaithful (db : View) (args : List GoString) : Prop :=
  ∃ key, args = [key] ∧ key ≠ [] ∧ HasRecord db key

theorem read_agrees {db : View} {args : List GoString} :
    Agrees keep (read db args) (.ok ∅) ↔ ReadFaithful db args := by
  rw [agrees_ok_iff]
  constructor
  · intro h
    obtain ⟨r, hcc, -⟩ := h
    match args with
    | [] => cases hcc
    | [key] =>
      obtain ⟨record, hrec, -⟩ := bind_ok.mp hcc
      exact ⟨key, rfl, existingRecord_isOk.mp ⟨record, hrec⟩⟩
    | _ :: _ :: _ => cases hcc
  · intro h
    obtain ⟨key, rfl, hkey⟩ := h
    obtain ⟨record, hrec⟩ := existingRecord_isOk.mpr hkey
    exact ⟨_, bind_ok.mpr ⟨record, hrec, rfl⟩, rfl⟩

def Decodes (e : GoString × Bytes) : Prop := ∃ record, decodeStoredRecord e.1 e.2 = .ok record

variable {maxCap : Nat}

/-- A scan from `startKey` decodes the first `limit` entries that are not receipts. -/
def ScanFaithful (maxCap : Nat) (db : NsState) (args : List GoString) : Prop :=
  ∃ startKey limitArg limit items, args = [startKey, limitArg] ∧ startKey ≠ [] ∧
    parseInt limitArg = .ok limit ∧ 0 < limit ∧ limit.toInt.toNat ≤ maxCap ∧
    stateByRange db startKey = .ok items ∧
    ∀ e ∈ (items.filter fun e => !isReceiptKey e.1).take limit.toInt.toNat, Decodes e

theorem scanLoop_isOk {limit : Nat} {items : List (GoString × Bytes)} {records : List YcsbRecord} :
    (∃ out, scanLoop limit items records = .ok out) ↔
      ∀ e ∈ (items.filter fun e => !isReceiptKey e.1).take (limit - records.length), Decodes e := by
  induction items generalizing records with
  | nil => simp [scanLoop]
  | cons item items ih =>
    rw [scanLoop]
    by_cases hfull : limit ≤ records.length
    · rw [if_pos hfull, Nat.sub_eq_zero_of_le hfull]
      simp
    rw [if_neg hfull]
    by_cases hr : isReceiptKey item.1 = true
    · rw [if_pos hr, ih, filter_cons_of_neg (by simp [hr])]
    rw [if_neg hr, filter_cons_of_pos (by simpa using hr)]
    obtain ⟨k, hk⟩ : ∃ k, limit - records.length = k + 1 := ⟨limit - records.length - 1, by omega⟩
    rw [hk, take_succ_cons, forall_mem_cons]
    simp only [bind_ok]
    constructor
    · intro h
      obtain ⟨out, record, hrec, hout⟩ := h
      refine ⟨⟨record, hrec⟩, ?_⟩
      have hrest := ih.mp ⟨out, hout⟩
      rwa [length_append, length_singleton, ← Nat.sub_sub, hk] at hrest
    · intro h
      obtain ⟨⟨record, hrec⟩, hrest⟩ := h
      obtain ⟨out, hout⟩ : ∃ out, scanLoop limit items (records ++ [record]) = .ok out := by
        rw [ih, length_append, length_singleton, ← Nat.sub_sub, hk]
        exact hrest
      exact ⟨out, record, hrec, hout⟩

theorem scan_agrees {db : NsState} {args : List GoString} :
    Agrees keep (scan maxCap db args) (.ok ∅) ↔ ScanFaithful maxCap db args := by
  rw [agrees_ok_iff]
  constructor
  · intro h
    obtain ⟨r, hcc, -⟩ := h
    match args with
    | [] | [_] => cases hcc
    | [startKey, limitArg] =>
      simp only [scan] at hcc
      split at hcc
      · cases hcc
      · rename_i hstart
        split at hcc
        · cases hcc
        · rename_i limit hlimit
          split at hcc
          · cases hcc
          · rename_i hpos
            obtain ⟨items, hitems, hcc⟩ := bind_ok.mp hcc
            split at hcc
            · cases hcc
            · rename_i hcap
              obtain ⟨records, hrec, -⟩ := bind_ok.mp hcc
              exact ⟨startKey, limitArg, limit, items, rfl, hstart, hlimit, Int64.not_le.mp hpos,
                Nat.not_lt.mp hcap, hitems, scanLoop_isOk.mp ⟨records, hrec⟩⟩
    | _ :: _ :: _ :: _ => cases hcc
  · intro h
    obtain ⟨startKey, limitArg, limit, items, rfl, hstart, hlimit, hpos, hcap, hitems, hall⟩ := h
    obtain ⟨records, hrec⟩ : ∃ records, scanLoop limit.toInt.toNat items [] = .ok records :=
      scanLoop_isOk.mpr hall
    have hview : ∃ j, scan maxCap db [startKey, limitArg] = .ok (.view j) := by
      simp only [scan, if_neg hstart, hlimit, if_neg (Int64.not_le.mpr hpos), hitems, bind,
        Except.bind, if_neg (Nat.not_lt.mpr hcap), hrec]
      exact ⟨_, rfl⟩
    obtain ⟨j, hj⟩ := hview
    exact ⟨_, hj, rfl⟩

/-- For each function of the contract, the inputs on which the replay may stand for it. -/
def Faithful (maxCap : Nat) (db : NsState) (function : GoString) (args : List GoString) : Prop :=
  if function = str "Ping" then False
  else if function = str "GetReceipt" then
    ReceiptFails id (fun b => (ReceiptRecord.unmarshal b).map ReceiptRecord.toJson) db.view args
  else if function = str "BatchGetReceipts" then ∀ raw, args = [raw] → requestIds raw = none
  else if function = str "Insert" then InsertFaithful db.view args
  else if function = str "Read" then ReadFaithful db.view args
  else if function = str "Update" then UpdateFaithful db.view args
  else if function = str "Scan" then ScanFaithful maxCap db args
  else True

theorem ycsb_unsupported (function : GoString) (args : List GoString)
    (h : ∀ name ∈ ["Insert", "Update", "Read", "Scan"], function ≠ str name) :
    ∃ e, replayYcsb function args = .error e := by
  simp only [mem_cons, not_mem_nil, or_false, forall_eq_or_imp, forall_eq] at h
  obtain ⟨h1, h2, h3, h4⟩ := h
  refine ⟨.text (str "unsupported ycsb function: " ++ function), ?_⟩
  unfold replayYcsb
  rw [if_neg (not_or.mpr ⟨h1, h2⟩), if_neg h3, if_neg h4]

/-- The replay agrees with the contract exactly on these inputs, for every contents of the
namespace, function name and argument list. -/
theorem replayYcsb_agrees_iff (maxCap : Nat) (db : NsState) (txId function : GoString)
    (args : List GoString) :
    Agrees (fun k => !isReceiptKey k) (invoke maxCap db txId function args)
        (replayYcsb function args) ↔
      Faithful maxCap db function args := by
  refine agrees_ite (fun h => ?_) fun h1 => ?_
  · obtain ⟨e, he⟩ := ycsb_unsupported function args (by simp [h, str_inj])
    rw [he]
    exact iff_of_false id id
  refine agrees_ite (fun h => ?_) fun h2 => ?_
  · obtain ⟨e, he⟩ := ycsb_unsupported function args (by simp [h, str_inj])
    rw [he]
    exact getReceiptWith_agrees
  refine agrees_ite (fun h => ?_) fun h3 => ?_
  · obtain ⟨e, he⟩ := ycsb_unsupported function args (by simp [h, str_inj])
    rw [he]
    exact batchReceipts_agrees
  refine agrees_ite (fun h => ?_) fun h4 => ?_
  · rw [h]
    exact insert_agrees
  refine agrees_ite (fun h => ?_) fun h5 => ?_
  · rw [h, replayYcsb_read]
    exact read_agrees
  refine agrees_ite (fun h => ?_) fun h6 => ?_
  · rw [h]
    exact update_agrees
  refine agrees_ite (fun h => ?_) fun h7 => ?_
  · rw [h, replayYcsb_scan]
    exact scan_agrees
  · obtain ⟨e, he⟩ := ycsb_unsupported function args (by simp [h4, h5, h6, h7])
    rw [he]
    exact iff_of_true trivial trivial

/-- A payload with text after it: the contract stores the value, the replay the whole
payload. And an insert of a key that exists: the contract refuses, the replay
overwrites. -/
theorem trailing_payload_replayed :
    let raw := str "\x7b\"value\":\"x\"\x7d tail"
    let out (r : Response) := (r.writeMap fun k => !isReceiptKey k).toList
    let db : NsState := (∅ : NsState).insert (str "k") (ycsbMarshal (str "k") (str "old"))
    (invoke 1000 ∅ (str "t1") (str "Insert") [str "k", raw]).map out =
        .ok [(str "k", ycsbMarshal (str "k") (str "x"))] ∧
      (replayYcsb (str "Insert") [str "k", raw]).map (·.toList) =
        .ok [(str "k", ycsbMarshal (str "k") raw)] ∧
      (invoke 1000 db (str "t1") (str "Insert")
        [str "k", str "\x7b\"value\":\"x\"\x7d"]).isOk = false ∧
      (replayYcsb (str "Insert") [str "k", str "\x7b\"value\":\"x\"\x7d"]).isOk = true := by
  decide +kernel

end FabricOev.Chaincode.Ycsb
