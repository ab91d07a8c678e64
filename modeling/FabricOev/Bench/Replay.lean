import FabricOev.Bench.Account

/-!
# The replay engines

`replaySmallBank` and `replayYCSB`: a benchmark operation re-executed on a state, given
by the values its namespace holds. The answer is the map of keys to write, or an error.
Amounts are `int64` and wrap; nothing here checks a sign or the number of surplus
arguments.
-/

namespace FabricOev.Bench

open Go Json

abbrev WriteMap := Std.ExtTreeMap GoString Bytes compare

abbrev View := GoString → Option Bytes

/-! ## SmallBank -/

def sbKey (accountId : GoString) : GoString := str "account:" ++ trimSpace accountId

def sbGetAccount (db : View) (accountId : GoString) : Except GoError AccountRecord :=
  match db (sbKey accountId) with
  | none => .error (.text (str "account not found: " ++ accountId))
  | some data =>
    match AccountRecord.unmarshal data with
    | none => .error .json
    | some acc => .ok acc

/-- `strconv.ParseInt(strings.TrimSpace(arg), 10, 64)`. -/
def parseAmount (arg : GoString) : Except GoError Int64 :=
  match parseInt (trimSpace arg) with
  | .error e => .error (.num e)
  | .ok n => .ok n

/-- The operations on one account with an amount. -/
def sbReplayOne (name : String) (f : AccountRecord → Int64 → Except GoError AccountRecord)
    (db : View) (args : List GoString) : Except GoError WriteMap :=
  match args with
  | accountId :: amountArg :: _ => do
    let amount ← parseAmount amountArg
    let acc ← sbGetAccount db accountId
    let acc ← f acc amount
    .ok ((∅ : WriteMap).insert (sbKey accountId) acc.marshal)
  | _ => .error (.text (str (name ++ " requires 2 args")))

/-- The operations on two accounts: both are read before either is written. -/
def sbReplayTwo (f : AccountRecord → AccountRecord → Except GoError (AccountRecord × AccountRecord))
    (db : View) (srcId dstId : GoString) : Except GoError WriteMap := do
  let src ← sbGetAccount db srcId
  let dst ← sbGetAccount db dstId
  let (src, dst) ← f src dst
  .ok (((∅ : WriteMap).insert (sbKey srcId) src.marshal).insert (sbKey dstId) dst.marshal)

def depositChecking (acc : AccountRecord) (amount : Int64) : Except GoError AccountRecord :=
  .ok { acc with checking := acc.checking + amount }

def transactSavings (acc : AccountRecord) (amount : Int64) : Except GoError AccountRecord :=
  if acc.savings + amount < 0 then .error (.text (str "insufficient funds in savings"))
  else .ok { acc with savings := acc.savings + amount }

def writeCheck (acc : AccountRecord) (amount : Int64) : Except GoError AccountRecord :=
  if acc.checking + acc.savings < amount then
    .ok { acc with checking := acc.checking - (amount + 1) }
  else .ok { acc with checking := acc.checking - amount }

def amalgamate (src dst : AccountRecord) : Except GoError (AccountRecord × AccountRecord) :=
  .ok ({ src with checking := 0, savings := 0 },
    { dst with checking := dst.checking + (src.checking + src.savings) })

def sendPayment (amount : Int64) (src dst : AccountRecord) :
    Except GoError (AccountRecord × AccountRecord) :=
  if src.checking < amount then .error (.text (str "insufficient funds in checking"))
  else .ok ({ src with checking := src.checking - amount },
    { dst with checking := dst.checking + amount })

def sbReplayDepositChecking : View → List GoString → Except GoError WriteMap :=
  sbReplayOne "DepositChecking" depositChecking

def sbReplayTransactSavings : View → List GoString → Except GoError WriteMap :=
  sbReplayOne "TransactSavings" transactSavings

def sbReplayWriteCheck : View → List GoString → Except GoError WriteMap :=
  sbReplayOne "WriteCheck" writeCheck

def sbReplayAmalgamate (db : View) (args : List GoString) : Except GoError WriteMap :=
  match args with
  | srcId :: dstId :: _ => sbReplayTwo amalgamate db srcId dstId
  | _ => .error (.text (str "Amalgamate requires 2 args"))

def sbReplaySendPayment (db : View) (args : List GoString) : Except GoError WriteMap :=
  match args with
  | fromId :: toId :: amountArg :: _ => do
    let amount ← parseAmount amountArg
    sbReplayTwo (sendPayment amount) db fromId toId
  | _ => .error (.text (str "SendPayment requires 3 args"))

/-- The id goes into the record as it was given and into the key trimmed; the state is
not read. -/
def sbReplayCreateAccount (args : List GoString) : Except GoError WriteMap :=
  match args with
  | accountId :: name :: checkingArg :: savingsArg :: _ => do
    let checking ← parseAmount checkingArg
    let savings ← parseAmount savingsArg
    .ok ((∅ : WriteMap).insert (sbKey accountId)
      (AccountRecord.marshal ⟨accountId, name, checking, savings⟩))
  | _ => .error (.text (str "CreateAccount requires 4 args"))

/-- The function names `replaySmallBank` dispatches on. -/
def replaySmallBank (db : View) (funcName : GoString) (args : List GoString) :
    Except GoError WriteMap :=
  if funcName = str "DepositChecking" then sbReplayDepositChecking db args
  else if funcName = str "TransactSavings" then sbReplayTransactSavings db args
  else if funcName = str "WriteCheck" then sbReplayWriteCheck db args
  else if funcName = str "Amalgamate" then sbReplayAmalgamate db args
  else if funcName = str "SendPayment" then sbReplaySendPayment db args
  else if funcName = str "CreateAccount" then sbReplayCreateAccount args
  else if funcName = str "Balance" then .ok ∅
  else .error (.text (str "unsupported smallbank function: " ++ funcName))

def ycsbValueFields : Json.Fields GoString := [(str "value", decodeString)]

/-- `ycsbNormalizeValue`: the `value` member of a JSON payload, else the raw text. -/
def ycsbNormalizeValue (raw : GoString) : GoString :=
  match unmarshal [] (decodeStruct ycsbValueFields) raw with
  | none => raw
  | some v => if v = [] then raw else v

def ycsbMarshal (key value : GoString) : Bytes :=
  (obj [(str "key", .str key), (str "value", .str value)]).encode

/-- No operation reads the state: an update writes the whole record. -/
def replayYcsb (funcName : GoString) (args : List GoString) : Except GoError WriteMap :=
  if funcName = str "Insert" ∨ funcName = str "Update" then
    match args with
    | key :: raw :: _ => .ok ((∅ : WriteMap).insert key (ycsbMarshal key (ycsbNormalizeValue raw)))
    | _ => .error (.text (funcName ++ str " requires at least 2 args (key, value)"))
  else if funcName = str "Read" then .ok ∅
  else if funcName = str "Scan" then .ok ∅
  else .error (.text (str "unsupported ycsb function: " ++ funcName))

def ccSmallBank : GoString := str "smallbank"
def ccYcsb : GoString := str "ycsb"

/-- `replayTx`: dispatch on the chaincode name; `db` is the adapter's `GetState`. -/
def replayTx (db : GoString → View) (ccName funcName : GoString) (args : List GoString) :
    Except GoError WriteMap :=
  if ccName = ccSmallBank then replaySmallBank (db ccSmallBank) funcName args
  else if ccName = ccYcsb then replayYcsb funcName args
  else .error (.text (str "unsupported chaincode for replay: " ++ ccName))

end FabricOev.Bench
