import FabricOev.Go.Sha256
import FabricOev.Ledger.Block

/-!
# Message validation

`validation.ValidateTransaction`: that an envelope is properly formed, signed by its
creator, and that its TxID and proposal hash are the ones its parts give. The identities
and the cryptography behind a signature are a parameter. Nothing here looks at an
endorsement.
-/

namespace FabricOev.Committer

open Go Protos Ledger Result HeaderType

/-- The checks on a signature header: a nonce and a creator. -/
def validateSignatureHeader (h : SignatureHeader) : Bool := h.nonce ≠ [] && h.creator ≠ []

/-- The checks on a channel header: a known type and epoch 0. -/
def validateChannelHeader (c : ChannelHeader) : Bool :=
  (c.headerType = endorserTransaction || c.headerType = configUpdate ||
    c.headerType = config) && c.epoch = 0

/-- `validateCommonHeader`; the texts of its errors are only logged. -/
def validateCommonHeader (hdr : Option Header) : Option (ChannelHeader × SignatureHeader) := do
  let hdr ← hdr
  let chdr ← ChannelHeader.unmarshal hdr.channelHeader
  let shdr ← SignatureHeader.unmarshal hdr.signatureHeader
  if validateChannelHeader chdr && validateSignatureHeader shdr then some (chdr, shdr) else none

section

variable (hash : Bytes → Bytes)

def computeProposalTxId (nonce creator : Bytes) : GoString := hexEncode (hash (nonce ++ creator))

/-- The one action: its signature header, and the endorsed hash against that of the proposal. -/
def validateAction (hdr : Header) (act : TransactionAction) : Result Bool :=
  match SignatureHeader.unmarshal act.header with
  | none => .ok false
  | some shdr =>
    if validateSignatureHeader shdr then
      match ChaincodeActionPayload.unmarshal act.payload with
      | none => .ok false
      | some cap => do
        let action ← deref cap.action
        match ProposalResponsePayload.unmarshal (action.proposalResponsePayload.getD []) with
        | none => .ok false
        | some prp =>
          match cap.chaincodeProposalPayload with
          | none => .ok false
          | some cpp => .ok (hash (hdr.channelHeader ++ act.header ++ cpp) = prp.proposalHash)
    else .ok false

/-- `validateEndorserTransaction`: whether it returns no error. -/
def validateEndorserTransaction (data : Option Bytes) (hdr : Header) : Result Bool :=
  match data with
  | none => .ok false
  | some data =>
    match Transaction.unmarshal data with
    | none => .ok false
    | some tx =>
      match tx.actions with
      | [act] => validateAction hash hdr act
      | _ => .ok false

/-- `checkSignatureFromCreator`; `verify` is the creator's identity at work. -/
def checkSignatureFromCreator (verify : GoString → Bytes → Bytes → Bytes → Bool)
    (creator : Bytes) (sig : Option Bytes) (msg : Bytes) (channelId : GoString) : Bool :=
  match sig with
  | none => false
  | some sig => verify channelId creator sig msg

def validateTransaction (verify : GoString → Bytes → Bytes → Bytes → Bool) (env : Envelope) :
    Result (Option Payload × TxValidationCode) :=
  match Payload.unmarshal env.payload with
  | none => .ok (none, .badPayload)
  | some payload =>
    match validateCommonHeader payload.header with
    | none => .ok (none, .badCommonHeader)
    | some (chdr, shdr) =>
      if checkSignatureFromCreator verify shdr.creator env.signature env.payload chdr.channelId then
        if chdr.headerType = endorserTransaction then
          if chdr.txId = computeProposalTxId hash shdr.nonce shdr.creator then do
            let hdr ← deref payload.header
            let ok ← validateEndorserTransaction hash payload.data hdr
            .ok (some payload, if ok then .valid else .invalidEndorserTransaction)
          else .ok (none, .badProposalTxId)
        else if chdr.headerType = config then
          .ok (some payload,
            if payload.data.isSome then .valid else .invalidConfigTransaction)
        else .ok (none, .unsupportedTxPayload)
      else .ok (none, .badCreatorSignature)

end

end FabricOev.Committer
