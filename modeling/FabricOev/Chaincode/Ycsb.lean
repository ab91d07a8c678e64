import FabricOev.Chaincode.Receipts

/-!
# The YCSB chaincode

`YCSBChaincode.Invoke`, function by function, on the contents of its namespace. A value
payload is decoded by a `json.Decoder`, which stops after the first value of the text.
-/

namespace FabricOev.Chaincode.Ycsb

open Go Bench Json

abbrev NsState := Std.ExtTreeMap GoString Bytes compare

def NsState.view (db : NsState) : View := fun key => db[key]?

structure ReceiptRecord where
  benchmark : GoString
  requestId : GoString
  operation : GoString
  key : GoString
  txId : GoString

namespace ReceiptRecord

def zero : ReceiptRecord := ⟨[], [], [], [], []⟩

/-- The key is left out if it is empty. -/
def toJson (r : ReceiptRecord) : Json :=
  .obj ([(str "benchmark", .str r.benchmark), (str "request_id", .str r.requestId),
    (str "operation", .str r.operation)] ++ (if r.key = [] then [] else [(str "key", .str r.key)]) ++
    [(str "tx_id", .str r.txId)])

def fields : Json.Fields ReceiptRecord :=
  [(str "benchmark", fun r j => (decodeString r.benchmark j).map ({ r with benchmark := · })),
    (str "request_id", fun r j => (decodeString r.requestId j).map ({ r with requestId := · })),
    (str "operation", fun r j => (decodeString r.operation j).map ({ r with operation := · })),
    (str "key", fun r j => (decodeString r.key j).map ({ r with key := · })),
    (str "tx_id", fun r j => (decodeString r.txId j).map ({ r with txId := · }))]

def unmarshal (b : Bytes) : Option ReceiptRecord := Json.unmarshal zero (Json.decodeStruct fields) b

end ReceiptRecord

/-- The id is not trimmed here. -/
def getReceipt : View → List GoString → Outcome :=
  getReceiptWith id "request_id must not be empty" fun b =>
    (ReceiptRecord.unmarshal b).map ReceiptRecord.toJson

/-- `putYCSBReceipt`. -/
def putReceipt (r : ReceiptRecord) : GoString × Bytes := (receiptKey r.requestId, r.toJson.encode)

/-- `ycsbSuccessWithOptionalReceipt`, after the record has been put. -/
def successWithOptionalReceipt (txId requestId : GoString) (operation : String) (key : GoString)
    (payload : Bytes) : Response :=
  ⟨payload, (key, payload) :: if requestId = [] then []
    else [putReceipt ⟨str "ycsb", requestId, str operation, key, txId⟩]⟩

/-- `optionalYCSBRequestID`. -/
def optionalRequestId (args : List GoString) (baseArgCount : Nat) : GoString :=
  if args.length = baseArgCount + 1 then args.getD baseArgCount [] else []

structure YcsbRecord where
  key : GoString
  value : GoString
deriving DecidableEq, Repr

def YcsbRecord.fields : Json.Fields YcsbRecord :=
  [(str "key", fun r j => (decodeString r.key j).map ({ r with key := · })),
    (str "value", fun r j => (decodeString r.value j).map ({ r with value := · }))]

def marshalRecord (r : YcsbRecord) : Bytes := ycsbMarshal r.key r.value

def decodeStoredRecord (key : GoString) (payload : Bytes) : Except GoError YcsbRecord :=
  match unmarshal ⟨[], []⟩ (decodeStruct YcsbRecord.fields) payload with
  | none => .error .json
  | some r => .ok (if r.key = [] then { r with key := key } else r)

def getExistingRecord (db : View) (key : GoString) : Except GoError YcsbRecord :=
  if key = [] then .error (.text (str "key must not be empty"))
  else
    match db key with
    | none => .error (.text (str "record not found for key: " ++ key))
    | some payload => decodeStoredRecord key payload

def normalizeValuePayload (raw : GoString) : Except GoError GoString :=
  match decodeFirst [] (decodeStruct ycsbValueFields) raw with
  | none => .error .json
  | some value =>
    if value = [] then .error (.text (str "value must not be empty")) else .ok value

/-- Store the value payload under a key that has passed its check. -/
def store (operation : String) (txId key raw : GoString) (args : List GoString) : Outcome := do
  let value ← normalizeValuePayload raw
  .ok (successWithOptionalReceipt txId (optionalRequestId args 2) operation key
    (marshalRecord ⟨key, value⟩))

def insert (db : View) (txId : GoString) (args : List GoString) : Outcome :=
  match args with
  | key :: raw :: rest =>
    if 1 < rest.length then
      .error (.text (str "incorrect number of arguments. expecting 2 or 3"))
    else if key = [] then .error (.text (str "key must not be empty"))
    else if (db key).isSome then .error (.text (str "record already exists for key: " ++ key))
    else store "Insert" txId key raw args
  | _ => .error (.text (str "incorrect number of arguments. expecting 2 or 3"))

def update (db : View) (txId : GoString) (args : List GoString) : Outcome :=
  match args with
  | key :: raw :: rest =>
    if 1 < rest.length then
      .error (.text (str "incorrect number of arguments. expecting 2 or 3"))
    else do
      let _ ← getExistingRecord db key
      store "Update" txId key raw args
  | _ => .error (.text (str "incorrect number of arguments. expecting 2 or 3"))

def read (db : View) (args : List GoString) : Outcome :=
  match args with
  | [key] => do
    let record ← getExistingRecord db key
    .ok ⟨marshalRecord record, []⟩
  | _ => .error (.text (str "incorrect number of arguments. expecting 1"))

def isReceiptKey (key : GoString) : Bool := (str "receipt:").isPrefixOf key

/-- `string(utf8.MaxRune)`. -/
def maxRune : GoString := [0xF4, 0x8F, 0xBF, 0xBF]

/-- `GetStateByRange` from a start key to the largest rune. `validateSimpleKeys` of the shim keeps it
from the composite keys. -/
def stateByRange (db : NsState) (startKey : GoString) : Except GoError (List (GoString × Bytes)) :=
  if startKey.head? = some 0 then
    .error (.text (str "First character of the key [" ++ startKey ++
      str "] contains a null character which is not allowed"))
  else .ok (db.toList.filter fun e => startKey ≤ e.1 ∧ e.1 < maxRune)

/-- The loop of `scan`: receipts are passed over, and it stops at `limit` records. -/
def scanLoop (limit : Nat) : List (GoString × Bytes) → List YcsbRecord →
    Except GoError (List YcsbRecord)
  | [], records => .ok records
  | item :: items, records =>
    if limit ≤ records.length then .ok records
    else if isReceiptKey item.1 then scanLoop limit items records
    else do
      let record ← decodeStoredRecord item.1 item.2
      scanLoop limit items (records ++ [record])

-- the largest capacity that `make` gives a slice of records; more is a panic, which ends the
-- chaincode and with it the invocation
variable (maxCap : Nat)

def scan (db : NsState) (args : List GoString) : Outcome :=
  match args with
  | [startKey, limitArg] =>
    if startKey = [] then .error (.text (str "start key must not be empty"))
    else
      match parseInt limitArg with
      | .error _ => .error (.text (str "scan length must be a positive integer"))
      | .ok limit =>
        if limit ≤ 0 then .error (.text (str "scan length must be a positive integer"))
        else do
          let items ← stateByRange db startKey
          if maxCap < limit.toInt.toNat then .error (.text (str "makeslice: cap out of range"))
          else do
            let records ← scanLoop limit.toInt.toNat items []
            .ok (.view (.arr (records.map fun r =>
              .obj [(str "key", .str r.key), (str "value", .str r.value)])))
  | _ => .error (.text (str "incorrect number of arguments. expecting 2"))

def invoke (db : NsState) (txId function : GoString) (args : List GoString) : Outcome :=
  if function = str "Ping" then ping "ycsb"
  else if function = str "GetReceipt" then getReceipt db.view args
  else if function = str "BatchGetReceipts" then batchGetReceipts db.view args
  else if function = str "Insert" then insert db.view txId args
  else if function = str "Read" then read db.view args
  else if function = str "Update" then update db.view txId args
  else if function = str "Scan" then scan maxCap db args
  else .error (.text (str "unsupported function: " ++ function))

end FabricOev.Chaincode.Ycsb
