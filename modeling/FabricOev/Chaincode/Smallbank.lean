import FabricOev.Chaincode.Receipts

/-!
# The SmallBank chaincode

`SmallbankChaincode.Invoke`, function by function. The arithmetic on a record is written
the same way as in the replay engine and is shared with it; what differs is everything
around it: the number of arguments, trimming, signs, existence, and the key a record is
put under, which is the id inside the record.
-/

namespace FabricOev.Chaincode.Smallbank

open Go Bench Json

structure ReceiptRecord where
  benchmark : GoString
  requestId : GoString
  operation : GoString
  txId : GoString
  affectedAccount : List GoString

namespace ReceiptRecord

def zero : ReceiptRecord := ⟨[], [], [], [], []⟩

/-- The accounts are left out if there are none. -/
def toJson (r : ReceiptRecord) : Json :=
  .obj ([(str "benchmark", .str r.benchmark), (str "request_id", .str r.requestId),
    (str "operation", .str r.operation), (str "tx_id", .str r.txId)] ++
    if r.affectedAccount = [] then []
    else [(str "affected_accounts", .arr (r.affectedAccount.map .str))])

def fields : Json.Fields ReceiptRecord :=
  [(str "benchmark", fun r j => (decodeString r.benchmark j).map ({ r with benchmark := · })),
    (str "request_id", fun r j => (decodeString r.requestId j).map ({ r with requestId := · })),
    (str "operation", fun r j => (decodeString r.operation j).map ({ r with operation := · })),
    (str "tx_id", fun r j => (decodeString r.txId j).map ({ r with txId := · })),
    (str "affected_accounts", fun r j =>
      (decodeSlice [] decodeString r.affectedAccount j).map ({ r with affectedAccount := · }))]

def unmarshal (b : Bytes) : Option ReceiptRecord := Json.unmarshal zero (Json.decodeStruct fields) b

end ReceiptRecord

def getReceipt : View → List GoString → Outcome :=
  getReceiptWith trimSpace "request_id is required" fun b =>
    (ReceiptRecord.unmarshal b).map ReceiptRecord.toJson

def putReceipt (r : ReceiptRecord) : GoString × Bytes := (receiptKey r.requestId, r.toJson.encode)

/-- `successWithOptionalReceipt`, after the accounts have been put. -/
def successWithOptionalReceipt (txId requestId : GoString) (operation : String)
    (accounts : List GoString) (puts : List (GoString × Bytes)) : Response :=
  ⟨[], puts ++ if requestId = [] then []
    else [putReceipt ⟨str "smallbank", requestId, str operation, txId, accounts⟩]⟩

def optionalRequestId (args : List GoString) (baseArgCount : Nat) : GoString :=
  if args.length = baseArgCount + 1 then trimSpace (args.getD baseArgCount []) else []

def accountKey (accountId : GoString) : GoString := str "account:" ++ accountId

def getAccount (db : View) (accountId : GoString) : Except GoError AccountRecord :=
  if trimSpace accountId = [] then .error (.text (str "account_id is required"))
  else
    match db (accountKey (trimSpace accountId)) with
    | none => .error (.text (str "account not found: " ++ trimSpace accountId))
    | some payload =>
      match AccountRecord.unmarshal payload with
      | none => .error .json
      | some account => .ok account

/-- `putAccount`, and one round of `writeAccounts`. -/
def putAccount (account : AccountRecord) : GoString × Bytes :=
  (accountKey account.accountId, account.marshal)

def parseSignedAmount (field : String) (raw : GoString) : Except GoError Int64 :=
  match parseInt (trimSpace raw) with
  | .error _ => .error (.text (str ("invalid " ++ field ++ ": ") ++ raw))
  | .ok value => .ok value

def parseNonNegativeAmount (field : String) (raw : GoString) : Except GoError Int64 := do
  let value ← parseSignedAmount field raw
  if value < 0 then .error (.text (str (field ++ " must be non-negative"))) else .ok value

/-- The operations on one account with an amount. -/
def oneAccount (name : String) (parse : String → GoString → Except GoError Int64)
    (f : AccountRecord → Int64 → Except GoError AccountRecord) (db : View) (txId : GoString)
    (args : List GoString) : Outcome :=
  match args with
  | accountId :: amountArg :: rest =>
    if 1 < rest.length then .error (.text (str (name ++ " expects 2 or 3 arguments")))
    else do
      let account ← getAccount db accountId
      let amount ← parse "amount" amountArg
      let account ← f account amount
      .ok (successWithOptionalReceipt txId (optionalRequestId args 2) name [account.accountId]
        [putAccount account])
  | _ => .error (.text (str (name ++ " expects 2 or 3 arguments")))

def depositChecking : View → GoString → List GoString → Outcome :=
  oneAccount "DepositChecking" parseNonNegativeAmount Bench.depositChecking

def transactSavings : View → GoString → List GoString → Outcome :=
  oneAccount "TransactSavings" parseSignedAmount Bench.transactSavings

def writeCheck : View → GoString → List GoString → Outcome :=
  oneAccount "WriteCheck" parseNonNegativeAmount Bench.writeCheck

def amalgamate (db : View) (txId : GoString) (args : List GoString) : Outcome :=
  match args with
  | srcId :: dstId :: rest =>
    if 1 < rest.length then .error (.text (str "Amalgamate expects 2 or 3 arguments"))
    else do
      let source ← getAccount db srcId
      let dest ← getAccount db dstId
      let (source, dest) ← Bench.amalgamate source dest
      .ok (successWithOptionalReceipt txId (optionalRequestId args 2) "Amalgamate"
        [source.accountId, dest.accountId] [putAccount source, putAccount dest])
  | _ => .error (.text (str "Amalgamate expects 2 or 3 arguments"))

def sendPayment (db : View) (txId : GoString) (args : List GoString) : Outcome :=
  match args with
  | fromId :: toId :: amountArg :: rest =>
    if 1 < rest.length then .error (.text (str "SendPayment expects 3 or 4 arguments"))
    else do
      let source ← getAccount db fromId
      let dest ← getAccount db toId
      let amount ← parseNonNegativeAmount "amount" amountArg
      let (source, dest) ← Bench.sendPayment amount source dest
      .ok (successWithOptionalReceipt txId (optionalRequestId args 3) "SendPayment"
        [source.accountId, dest.accountId] [putAccount source, putAccount dest])
  | _ => .error (.text (str "SendPayment expects 3 or 4 arguments"))

def createAccount (db : View) (txId : GoString) (args : List GoString) : Outcome :=
  match args with
  | idArg :: nameArg :: checkingArg :: savingsArg :: rest =>
    if 1 < rest.length then .error (.text (str "CreateAccount expects 4 or 5 arguments"))
    else do
      let accountId := trimSpace idArg
      let name := trimSpace nameArg
      let checking ← parseNonNegativeAmount "checking" checkingArg
      let savings ← parseNonNegativeAmount "savings" savingsArg
      if accountId = [] then .error (.text (str "account_id is required"))
      else if name = [] then .error (.text (str "name is required"))
      else if (db (accountKey accountId)).isSome then
        .error (.text (str "account already exists: " ++ accountId))
      else
        .ok (successWithOptionalReceipt txId (optionalRequestId args 4) "CreateAccount" [accountId]
          [putAccount ⟨accountId, name, checking, savings⟩])
  | _ => .error (.text (str "CreateAccount expects 4 or 5 arguments"))

def balance (db : View) (args : List GoString) : Outcome :=
  match args with
  | [accountId] => do
    let account ← getAccount db accountId
    .ok (.view (.obj [(str "account_id", .str account.accountId),
      (str "checking", .num (formatInt account.checking)),
      (str "savings", .num (formatInt account.savings))]))
  | _ => .error (.text (str "Balance expects 1 argument"))

def invoke (db : View) (txId function : GoString) (args : List GoString) : Outcome :=
  if function = str "Ping" then ping "smallbank"
  else if function = str "GetReceipt" then getReceipt db args
  else if function = str "BatchGetReceipts" then batchGetReceipts db args
  else if function = str "CreateAccount" then createAccount db txId args
  else if function = str "Balance" then balance db args
  else if function = str "DepositChecking" then depositChecking db txId args
  else if function = str "TransactSavings" then transactSavings db txId args
  else if function = str "Amalgamate" then amalgamate db txId args
  else if function = str "WriteCheck" then writeCheck db txId args
  else if function = str "SendPayment" then sendPayment db txId args
  else .error (.text (str "unsupported function: " ++ function))

end FabricOev.Chaincode.Smallbank
