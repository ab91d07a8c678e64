import FabricOev.Committer.MsgValidation
import FabricOev.Ledger.KvLedger

/-!
# The committer's validator

`txValidator.Validate` with `VSCCValidateTx`: the flags a block carries into its commit. Which
endorsement policies are evaluated is decided by the namespaces the endorsed read-write set writes
to; the model records every evaluation beside the flag. The peer around the validator (membership
services, validation chaincodes, channel configuration, packages) is a parameter with a state, which
a configuration transaction changes.
-/

namespace FabricOev.Committer

open Go Go.Wire Protos Ledger Result HeaderType

structure SystemChaincode where
  name : GoString
  invokableExternal : Bool
  invokableCc2cc : Bool
deriving DecidableEq, Repr

def systemChaincodes : List SystemChaincode :=
  [⟨str "cscc", true, false⟩, ⟨str "lscc", true, true⟩, ⟨str "escc", false, false⟩,
    ⟨str "vscc", false, false⟩, ⟨str "qscc", true, true⟩]

def findSysCc (name : GoString) : Option SystemChaincode :=
  systemChaincodes.find? fun c => c.name = name

def isSysCc (name : GoString) : Bool := (findSysCc name).isSome

def isSysCcAndNotInvokableExternal (name : GoString) : Bool :=
  (findSysCc name).elim false fun c => !c.invokableExternal

def isSysCcAndNotInvokableCc2cc (name : GoString) : Bool :=
  (findSysCc name).elim false fun c => !c.invokableCc2cc

def lscc : GoString := str "lscc"

/-- What the validator uses of the peer it runs in. -/
structure Support (σ : Type) where
  hash : Bytes → Bytes
  /-- The creator's identity is valid on the channel and verifies the signature. -/
  verify : σ → GoString → Bytes → Bytes → Bytes → Bool
  /-- A validation chaincode run on an envelope and a policy answers OK. -/
  executeVscc : σ → GoString → GoString → Bytes → Bytes → Bool
  /-- The policy for LSCC on a channel: a signature of any member. -/
  lsccPolicy : σ → GoString → Bytes
  sysCcVersion : GoString
  /-- A configuration decoded and applied. -/
  applyConfig : σ → Bytes → Option σ
  /-- The chaincode a deployment specification names, if its package is acceptable. -/
  deployedChaincode : Bytes → Result ChaincodeId

/-- `ccprovider.ChaincodeData`, as far as validation reads it. -/
structure ChaincodeData where
  version : GoString
  vscc : GoString
  policy : Bytes
deriving DecidableEq, Repr

def ChaincodeData.unmarshal (b : Bytes) : Option ChaincodeData := do
  let fs ← decodeFields [(1, .bytes), (2, .bytes), (3, .bytes), (4, .bytes), (5, .bytes),
    (6, .bytes), (7, .bytes), (8, .bytes)] b
  some ⟨lastString 2 fs, lastString 4 fs, lastString 5 fs⟩

def getCDataForCc (db : StateDb) (ccId : GoString) : Option ChaincodeData :=
  match db.getState lscc ccId with
  | none => none
  | some v =>
    match ChaincodeData.unmarshal v.value with
    | none => none
    | some cd => if cd.vscc = [] ∨ cd.policy = [] then none else some cd

structure ValidateInfo where
  ccVersion : GoString
  vscc : GoString
  policy : Bytes
deriving DecidableEq, Repr

/-- An endorsement policy evaluated on a transaction for a namespace. -/
structure PolicyCheck where
  ns : GoString
  info : ValidateInfo
  accepted : Bool
deriving DecidableEq, Repr

section

variable {σ : Type} (sup : Support σ) (st : σ) (db : StateDb)

def getInfoForValidate (chId ccId : GoString) : Option ValidateInfo :=
  if ccId ≠ lscc then
    (getCDataForCc db ccId).map fun cd => ⟨cd.version, cd.vscc, cd.policy⟩
  else some ⟨sup.sysCcVersion, str "vscc", sup.lsccPolicy st chId⟩

def vsccValidateTxForCc (chId : GoString) (envBytes : Bytes) (ns : GoString)
    (info : ValidateInfo) : PolicyCheck :=
  ⟨ns, info, sup.executeVscc st chId info.vscc envBytes info.policy⟩

/-- The loop over the namespaces an application chaincode writes to. -/
def validateNamespaces (chId ccId ccVer : GoString) (envBytes : Bytes) :
    List GoString → TxValidationCode × List PolicyCheck
  | [] => (.valid, [])
  | ns :: nss =>
    match getInfoForValidate sup st db chId ns with
    | none => (.invalidOtherReason, [])
    | some info =>
      if ns = ccId ∧ info.ccVersion ≠ ccVer then (.expiredChaincode, [])
      else
        let check := vsccValidateTxForCc sup st chId envBytes ns info
        if check.accepted then
          let rest := validateNamespaces chId ccId ccVer envBytes nss
          (rest.1, check :: rest.2)
        else (.endorsementPolicyFailure, [check])

def wrNamespaces (rw : TxRwSet) : List GoString := (rw.filter fun s => s.writes ≠ []).map (·.ns)

def validateWrites (chId ccId ccVer : GoString) (envBytes : Bytes) (rw : TxRwSet) :
    TxValidationCode × List PolicyCheck :=
  let wr := wrNamespaces rw
  if !isSysCc ccId then
    if wr.any (· = lscc) then (.illegalWriteSet, [])
    else if wr.any fun ns => isSysCcAndNotInvokableCc2cc ns || isSysCcAndNotInvokableExternal ns then
      (.illegalWriteSet, [])
    else validateNamespaces sup st db chId ccId ccVer envBytes wr
  else if isSysCcAndNotInvokableExternal ccId then (.illegalWriteSet, [])
  else
    match getInfoForValidate sup st db chId ccId with
    | none => (.invalidOtherReason, [])
    | some info =>
      let check := vsccValidateTxForCc sup st chId envBytes ccId info
      (if check.accepted then .valid else .endorsementPolicyFailure, [check])

/-- `VSCCValidateTx`. Its error is nil exactly if the code is valid. -/
def vsccValidateTx (payload : Payload) (envBytes : Bytes) :
    Result (TxValidationCode × List PolicyCheck) := do
  match ← (getChaincodeHeaderExtension payload.header).attempt with
  | .error _ => .ok (.badHeaderExtension, [])
  | .ok hdrExt => do
    let hdr ← deref payload.header
    match ← (unmarshalChannelHeader hdr.channelHeader).attempt with
    | .error _ => .ok (.badChannelHeader, [])
    | .ok chdr => do
      match ← (getActionFromEnvelope envBytes).attempt with
      | .error _ => .ok (.badResponsePayload, [])
      | .ok respPayload =>
        match TxRwSet.fromProtoBytes respPayload.results with
        | none => .ok (.badRwSet, [])
        | some rw => do
          let ccId ← deref hdrExt.chaincodeId
          let respCcId ← deref respPayload.chaincodeId
          if ccId.name = [] ∨ ccId.name ≠ respCcId.name ∨ respCcId.version = [] then
            .ok (.invalidOtherReason, [])
          else
            .ok (validateWrites sup st db chdr.channelId ccId.name respCcId.version envBytes rw)

/-- `sysccprovider.ChaincodeInstance`; the version is not looked at. -/
structure ChaincodeInstance where
  chainId : GoString
  chaincodeName : GoString
deriving DecidableEq, Repr

/-- `generateCCKey`. -/
def ChaincodeInstance.key (c : ChaincodeInstance) : GoString :=
  c.chaincodeName ++ str "/" ++ c.chainId

/-- The chaincode an upgrade transaction upgrades, from the arguments of LSCC. -/
def getUpgradeTxInstance (chainId : GoString) (cis : ChaincodeInvocationSpec) :
    Result (Option ChaincodeInstance) := do
  let spec ← deref cis.chaincodeSpec
  let input ← deref spec.input
  let func ← index input.args 0
  if func = str "upgrade" then do
    let cds ← index input.args 2
    match ← (sup.deployedChaincode cds).attempt with
    | .error _ => .ok none
    | .ok cc => .ok (some ⟨chainId, cc.name⟩)
  else .ok none

def getTxCcInstance (payload : Payload) :
    Result (ChaincodeInstance × Option ChaincodeInstance) := do
  let hdr ← deref payload.header
  let chdr ← unmarshalChannelHeader hdr.channelHeader
  let hdrExt ← getChaincodeHeaderExtension payload.header
  let invokeCc ← deref hdrExt.chaincodeId
  let invokeIns : ChaincodeInstance := ⟨chdr.channelId, invokeCc.name⟩
  match ← (getTransaction payload.data).attempt with
  | .error _ => .ok (invokeIns, none)
  | .ok tx => do
    let act ← index tx.actions 0
    match ← (getChaincodeActionPayload act.payload).attempt with
    | .error _ => .ok (invokeIns, none)
    | .ok cap =>
      match ← (getChaincodeProposalPayload cap.chaincodeProposalPayload).attempt with
      | .error _ => .ok (invokeIns, none)
      | .ok cpp =>
        match ChaincodeInvocationSpec.unmarshal cpp.input with
        | none => .ok (invokeIns, none)
        | some cis =>
          if invokeCc.name = lscc then do
            let upgradeIns ← getUpgradeTxInstance sup chdr.channelId cis
            .ok (invokeIns, upgradeIns)
          else .ok (invokeIns, none)

end

structure TxOutcome where
  code : TxValidationCode
  checks : List PolicyCheck
  invoked : Option ChaincodeInstance
  upgraded : Option ChaincodeInstance

def TxOutcome.rejected (code : TxValidationCode) (checks : List PolicyCheck) : TxOutcome :=
  ⟨code, checks, none, none⟩

section

variable {σ : Type} (sup : Support σ)

def validateEndorserTx (st : σ) (l : KvLedger) (payload : Payload) (txId : GoString)
    (envBytes : Bytes) : Result TxOutcome := do
  if hasTransaction l.blocks txId then .ok (.rejected .duplicateTxId [])
  else do
    let (code, checks) ← vsccValidateTx sup st l.stateDb payload envBytes
    if code = .valid then do
      match ← (getTxCcInstance sup payload).attempt with
      | .error _ => .ok (.rejected .invalidOtherReason checks)
      | .ok (invoked, upgraded) => .ok ⟨.valid, checks, some invoked, upgraded⟩
    else .ok (.rejected code checks)

/-- The body of the loop of `Validate`. A configuration that does not apply ends it with
an error. -/
def validateTx (st : σ) (l : KvLedger) (d : Bytes) : Result (σ × TxOutcome) := do
  match ← (getEnvelopeFromBlock d).attempt with
  | .error _ => .ok (st, .rejected .invalidOtherReason [])
  | .ok env => do
    let (payload, code) ← validateTransaction sup.hash (sup.verify st) env
    if code ≠ .valid then .ok (st, .rejected code [])
    else do
      let payload ← deref payload
      let hdr ← deref payload.header
      match ← (unmarshalChannelHeader hdr.channelHeader).attempt with
      | .error _ => .ok (st, .rejected .invalidOtherReason [])
      | .ok chdr =>
        if chdr.headerType = endorserTransaction then do
          let out ← validateEndorserTx sup st l payload chdr.txId d
          .ok (st, out)
        else if chdr.headerType = config then
          match sup.applyConfig st (payload.data.getD []) with
          | none => errorf "Error validating config which passed initial validity checks"
          | some st => .ok (st, ⟨.valid, [], none, none⟩)
        else .ok (st, .rejected .unknownTxType [])

def validateTxs (l : KvLedger) : σ → List Bytes → Result (σ × List TxOutcome)
  | st, [] => .ok (st, [])
  | st, d :: ds => do
    let (st, out) ← validateTx sup st l d
    let (st, outs) ← validateTxs l st ds
    .ok (st, out :: outs)

/-- The first loop of `invalidTXsForUpgradeCC`; `final` maps a chaincode to its last upgrade so far.
-/
def upgradeLoop : List (Nat × ChaincodeInstance) → List (GoString × Nat) → TxFlags →
    Result (List (GoString × Nat) × TxFlags)
  | [], final, flags => .ok (final, flags)
  | (i, cc) :: rest, final, flags =>
    match final.lookup cc.key with
    | none => upgradeLoop rest ((cc.key, i) :: final) flags
    | some j => do
      if j < i then do
        let flags ← flags.setFlag j .chaincodeVersionConflict
        upgradeLoop rest ((cc.key, i) :: final) flags
      else do
        let flags ← flags.setFlag i .chaincodeVersionConflict
        upgradeLoop rest final flags

/-- The second loop: an invocation of an upgraded chaincode is invalid. -/
def invokeLoop (final : List (GoString × Nat)) :
    List (Nat × ChaincodeInstance) → TxFlags → Result TxFlags
  | [], flags => .ok flags
  | (i, cc) :: rest, flags =>
    if (final.lookup cc.key).isSome then do
      if ← flags.isValid i then do
        let flags ← flags.setFlag i .chaincodeVersionConflict
        invokeLoop final rest flags
      else invokeLoop final rest flags
    else invokeLoop final rest flags

/-- `invalidTXsForUpgradeCC`; the lists are the entries of its maps in the order Go ranges
over them. -/
def invalidTxsForUpgradeCc (names upgrades : List (Nat × ChaincodeInstance)) (flags : TxFlags) :
    Result TxFlags :=
  if upgrades = [] then .ok flags
  else do
    let (final, flags) ← upgradeLoop upgrades [] flags
    invokeLoop final names flags

/-- An order in which Go ranges over a map from transaction indexes. -/
structure IndexOrder where
  entries : Nat → List (Nat × ChaincodeInstance) → List (Nat × ChaincodeInstance)
  entries_perm : ∀ i l, (entries i l).Perm l

def IndexOrder.ascending : IndexOrder := ⟨fun _ l => l, fun _ _ => List.Perm.refl _⟩

/-- The entries of a map that records something for some of the transactions. -/
def indexed (f : TxOutcome → Option ChaincodeInstance) (outs : List TxOutcome) :
    List (Nat × ChaincodeInstance) :=
  outs.zipIdx.filterMap fun o => (f o.1).map fun c => (o.2, c)

def initBlockMetadata (b : Block) : Block :=
  let ms := b.metadata.getD []
  let missing := MetadataIndex.transactionsFilter + 1 - ms.length
  { b with metadata := some (ms ++ List.replicate missing []) }

/-- A validated block, with the policies evaluated for each of its transactions. -/
structure Validated (σ : Type) where
  state : σ
  block : Block
  flags : TxFlags
  checks : List (List PolicyCheck)
deriving DecidableEq

def validate (order : IndexOrder) (st : σ) (l : KvLedger) (block : Block) :
    Result (Validated σ) := do
  let (st, outs) ← validateTxs sup l st block.data
  let flags ← invalidTxsForUpgradeCc (order.entries 1 (indexed (·.invoked) outs))
    (order.entries 0 (indexed (·.upgraded) outs)) (outs.map (·.code.toByte))
  .ok ⟨st, (initBlockMetadata block).setFilter flags, flags, outs.map (·.checks)⟩

end

end FabricOev.Committer
