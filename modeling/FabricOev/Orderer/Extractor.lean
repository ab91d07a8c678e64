import FabricOev.Bench.Commit

/-!
# Intents

What the orderer takes a benchmark transaction to read and write, from its arguments
alone: key intervals, a point for each SmallBank account and YCSB record, a half-open
range for a YCSB scan. A transaction it cannot read, or one with too few arguments, has
no intent and is not scheduled.
-/

namespace FabricOev.Orderer

open Go Protos Ledger Bench Result

/-- A point, or the half-open range from `start` to `stop`. -/
structure KeyInterval where
  start : GoString
  stop : GoString
  isRange : Bool
deriving DecidableEq, Repr

structure HypercubeSet where
  readIntervals : List KeyInterval
  writeIntervals : List KeyInterval
deriving DecidableEq, Repr

structure TxIntent where
  txId : GoString
  chaincodeName : GoString
  functionName : GoString
  args : List GoString
  hypercube : HypercubeSet
deriving DecidableEq, Repr

def TxIntent.invocation (t : TxIntent) : Invocation := ⟨t.chaincodeName, t.functionName, t.args⟩

def pointInterval (key : GoString) : KeyInterval := ⟨key, key, false⟩

def buildPointHypercube (readKeys writeKeys : List GoString) : HypercubeSet :=
  ⟨readKeys.map pointInterval, writeKeys.map pointInterval⟩

def sbAccountKey (accountId : GoString) : GoString := str "account:" ++ trimSpace accountId

/-- The hypercube of a SmallBank call; none if the function is unknown or arguments are
missing. -/
def smallBankHypercube (funcName : GoString) (args : List GoString) : Option HypercubeSet :=
  if funcName = str "Balance" then
    match args with
    | a :: _ => some (buildPointHypercube [sbAccountKey a] [])
    | _ => none
  else if funcName = str "CreateAccount" then
    match args with
    | a :: _ :: _ :: _ :: _ => some (buildPointHypercube [sbAccountKey a] [sbAccountKey a])
    | _ => none
  else if funcName = str "DepositChecking" ∨ funcName = str "TransactSavings" ∨
      funcName = str "WriteCheck" then
    match args with
    | a :: _ :: _ => some (buildPointHypercube [sbAccountKey a] [sbAccountKey a])
    | _ => none
  else if funcName = str "Amalgamate" then
    match args with
    | a :: b :: _ =>
      some (buildPointHypercube [sbAccountKey a, sbAccountKey b] [sbAccountKey a, sbAccountKey b])
    | _ => none
  else if funcName = str "SendPayment" then
    match args with
    | a :: b :: _ :: _ =>
      some (buildPointHypercube [sbAccountKey a, sbAccountKey b] [sbAccountKey a, sbAccountKey b])
    | _ => none
  else none

/-- `string(utf8.MaxRune)`. -/
def maxRune : GoString := [0xF4, 0x8F, 0xBF, 0xBF]

def ycsbHypercube (funcName : GoString) (args : List GoString) : Option HypercubeSet :=
  if funcName = str "Read" then
    match args with
    | key :: _ => some (buildPointHypercube [key] [])
    | _ => none
  else if funcName = str "Insert" ∨ funcName = str "Update" then
    match args with
    | key :: _ :: _ => some (buildPointHypercube [key] [key])
    | _ => none
  else if funcName = str "Scan" then
    match args with
    | startKey :: _ :: _ => some ⟨[⟨startKey, maxRune, true⟩], []⟩
    | _ => none
  else none

def extractSmallBankIntent (txId funcName : GoString) (args : List GoString) : Option TxIntent :=
  (smallBankHypercube funcName args).map fun h => ⟨txId, ccSmallBank, funcName, args, h⟩

def extractYcsbIntent (txId funcName : GoString) (args : List GoString) : Option TxIntent :=
  (ycsbHypercube funcName args).map fun h => ⟨txId, ccYcsb, funcName, args, h⟩

def isBenchmarkChaincode (name : GoString) : Bool := name = ccSmallBank || name = ccYcsb

/-- The part of `extractIntentFromEnvBytes` after the header checks. -/
def extractIntentFromPayload (txId ccName : GoString) (payload : Payload) :
    Result (Option TxIntent) := do
  match ← (getTransaction payload.data).attempt with
  | .error _ => .ok none
  | .ok tx =>
    match tx.actions with
    | [] => .ok none
    | act :: _ => do
      match ← (getChaincodeActionPayload act.payload).attempt with
      | .error _ => .ok none
      | .ok cap =>
        match ← (getChaincodeProposalPayload cap.chaincodeProposalPayload).attempt with
        | .error _ => .ok none
        | .ok cpp =>
          match ChaincodeInvocationSpec.unmarshal cpp.input with
          | none => .ok none
          | some cis => do
            let spec ← deref cis.chaincodeSpec
            let input ← deref spec.input
            match input.args with
            | [] => .ok none
            | funcName :: args =>
              if ccName = ccSmallBank then .ok (extractSmallBankIntent txId funcName args)
              else .ok (extractYcsbIntent txId funcName args)

/-- `extractIntentFromEnvBytes`. A missing header, chaincode id or input panics. -/
def extractIntentFromEnvBytes (data : Bytes) : Result (Option TxIntent) := do
  match ← (getEnvelopeFromBlock data).attempt with
  | .error _ => .ok none
  | .ok env =>
    match ← (getPayload env).attempt with
    | .error _ => .ok none
    | .ok payload => do
      let hdr ← deref payload.header
      match ← (unmarshalChannelHeader hdr.channelHeader).attempt with
      | .error _ => .ok none
      | .ok chdr =>
        if chdr.headerType ≠ HeaderType.endorserTransaction then .ok none
        else do
          match ← (getChaincodeHeaderExtension payload.header).attempt with
          | .error _ => .ok none
          | .ok hdrExt => do
            let ccId ← deref hdrExt.chaincodeId
            if isBenchmarkChaincode ccId.name then
              extractIntentFromPayload chdr.txId ccId.name payload
            else .ok none

def extractIntentsFromBlock (data : List Bytes) : Result (List TxIntent) := do
  let intents ← data.mapM extractIntentFromEnvBytes
  .ok intents.reduceOption

end FabricOev.Orderer
