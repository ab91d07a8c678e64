import FabricOev.Go.Outcome
import FabricOev.Go.Wire

/-!
# Messages

The protobuf messages of a block and of an endorsed transaction, with the fields the
modelled code reads, and the accessors of `protos/utils`. A pointer or `bytes` field
whose nil-ness the code tests or stumbles over is an `Option`. Every declared field of
a message takes part in decoding, so a malformed field nobody reads is still an error.
-/

namespace FabricOev.Protos

open Go Go.Wire Result

structure Envelope where
  payload : Bytes
  signature : Option Bytes
deriving DecidableEq, Repr

structure Header where
  channelHeader : Bytes
  signatureHeader : Bytes
deriving DecidableEq, Repr

structure Payload where
  header : Option Header
  data : Option Bytes
deriving DecidableEq, Repr

structure ChannelHeader where
  headerType : Int32
  channelId : GoString
  txId : GoString
  epoch : UInt64
  extension : Bytes
deriving DecidableEq, Repr

structure SignatureHeader where
  creator : Bytes
  nonce : Bytes
deriving DecidableEq, Repr

def Envelope.unmarshal (b : Bytes) : Option Envelope := do
  let fs ← decodeFields [(1, .bytes), (2, .bytes)] b
  some ⟨lastString 1 fs, lastBytes 2 fs⟩

def Payload.unmarshal (b : Bytes) : Option Payload := do
  let fs ← decodeFields [(1, .bytes), (2, .bytes)] b
  let hdr ← subMessage 1 [(1, .bytes), (2, .bytes)] fs
  some ⟨hdr.map fun h => ⟨lastString 1 h, lastString 2 h⟩, lastBytes 2 fs⟩

def timestampDesc : Desc := [(1, .varint), (2, .varint)]

def ChannelHeader.unmarshal (b : Bytes) : Option ChannelHeader := do
  let fs ← decodeFields [(1, .varint), (2, .varint), (3, .bytes), (4, .bytes), (5, .bytes),
    (6, .varint), (7, .bytes)] b
  let _ ← subMessage 3 timestampDesc fs
  some {
    headerType := Int32.ofNat (lastVarint 1 fs)
    channelId := lastString 4 fs
    txId := lastString 5 fs
    epoch := UInt64.ofNat (lastVarint 6 fs)
    extension := lastString 7 fs }

def SignatureHeader.unmarshal (b : Bytes) : Option SignatureHeader := do
  let fs ← decodeFields [(1, .bytes), (2, .bytes)] b
  some ⟨lastString 1 fs, lastString 2 fs⟩

/-- `common.HeaderType` values the peer accepts. -/
def HeaderType.config : Int32 := 1
def HeaderType.configUpdate : Int32 := 2
def HeaderType.endorserTransaction : Int32 := 3

structure ChaincodeId where
  path : GoString
  name : GoString
  version : GoString
deriving DecidableEq, Repr

def chaincodeIdDesc : Desc := [(1, .bytes), (2, .bytes), (3, .bytes)]

def ChaincodeId.ofFields (fs : List Field) : ChaincodeId :=
  ⟨lastString 1 fs, lastString 2 fs, lastString 3 fs⟩

structure ChaincodeHeaderExtension where
  payloadVisibility : Bytes
  chaincodeId : Option ChaincodeId
deriving DecidableEq, Repr

def ChaincodeHeaderExtension.unmarshal (b : Bytes) : Option ChaincodeHeaderExtension := do
  let fs ← decodeFields [(1, .bytes), (2, .bytes)] b
  let cc ← subMessage 2 chaincodeIdDesc fs
  some ⟨lastString 1 fs, cc.map ChaincodeId.ofFields⟩

structure ChaincodeInput where
  args : List Bytes
deriving DecidableEq, Repr

structure ChaincodeSpec where
  chaincodeId : Option ChaincodeId
  input : Option ChaincodeInput
deriving DecidableEq, Repr

structure ChaincodeInvocationSpec where
  chaincodeSpec : Option ChaincodeSpec
deriving DecidableEq, Repr

def ChaincodeSpec.ofFields (fs : List Field) : Option ChaincodeSpec := do
  let cc ← subMessage 2 chaincodeIdDesc fs
  let input ← subMessage 3 [(1, .bytes)] fs
  some ⟨cc.map ChaincodeId.ofFields, input.map fun i => ⟨allBytes 1 i⟩⟩

def ChaincodeInvocationSpec.unmarshal (b : Bytes) : Option ChaincodeInvocationSpec := do
  let fs ← decodeFields [(1, .bytes), (2, .bytes)] b
  match ← subMessage 1 [(1, .varint), (2, .bytes), (3, .bytes), (4, .varint)] fs with
  | none => some ⟨none⟩
  | some spec => do
    let spec ← ChaincodeSpec.ofFields spec
    some ⟨some spec⟩

structure ChaincodeProposalPayload where
  input : Bytes
deriving DecidableEq, Repr

def ChaincodeProposalPayload.unmarshal (b : Bytes) : Option ChaincodeProposalPayload := do
  let fs ← decodeFields [(1, .bytes), (2, .map)] b
  some ⟨lastString 1 fs⟩

structure TransactionAction where
  header : Bytes
  payload : Bytes
deriving DecidableEq, Repr

structure Transaction where
  actions : List TransactionAction
deriving DecidableEq, Repr

def Transaction.unmarshal (b : Bytes) : Option Transaction := do
  let fs ← decodeFields [(1, .bytes)] b
  let actions ← subMessages 1 [(1, .bytes), (2, .bytes)] fs
  some ⟨actions.map fun a => ⟨lastString 1 a, lastString 2 a⟩⟩

structure Endorsement where
  endorser : Bytes
  signature : Bytes
deriving DecidableEq, Repr

structure ChaincodeEndorsedAction where
  proposalResponsePayload : Option Bytes
  endorsements : List Endorsement
deriving DecidableEq, Repr

structure ChaincodeActionPayload where
  chaincodeProposalPayload : Option Bytes
  action : Option ChaincodeEndorsedAction
deriving DecidableEq, Repr

def ChaincodeEndorsedAction.ofFields (fs : List Field) : Option ChaincodeEndorsedAction := do
  let es ← subMessages 2 [(1, .bytes), (2, .bytes)] fs
  some ⟨lastBytes 1 fs, es.map fun e => ⟨lastString 1 e, lastString 2 e⟩⟩

def ChaincodeActionPayload.unmarshal (b : Bytes) : Option ChaincodeActionPayload := do
  let fs ← decodeFields [(1, .bytes), (2, .bytes)] b
  match ← subMessage 2 [(1, .bytes), (2, .bytes)] fs with
  | none => some ⟨lastBytes 1 fs, none⟩
  | some act => do
    let act ← ChaincodeEndorsedAction.ofFields act
    some ⟨lastBytes 1 fs, some act⟩

structure ProposalResponsePayload where
  proposalHash : Bytes
  extension : Option Bytes
deriving DecidableEq, Repr

def ProposalResponsePayload.unmarshal (b : Bytes) : Option ProposalResponsePayload := do
  let fs ← decodeFields [(1, .bytes), (2, .bytes)] b
  some ⟨lastString 1 fs, lastBytes 2 fs⟩

structure ChaincodeAction where
  results : Bytes
  events : Bytes
  chaincodeId : Option ChaincodeId
deriving DecidableEq, Repr

def ChaincodeAction.unmarshal (b : Bytes) : Option ChaincodeAction := do
  let fs ← decodeFields [(1, .bytes), (2, .bytes), (3, .bytes), (4, .bytes)] b
  let _ ← subMessage 3 [(1, .varint), (2, .bytes), (3, .bytes)] fs
  let cc ← subMessage 4 chaincodeIdDesc fs
  some ⟨lastString 1 fs, lastString 2 fs, cc.map ChaincodeId.ofFields⟩

structure Metadata where
  value : Bytes
deriving DecidableEq, Repr

def metadataDesc : Desc := [(1, .bytes), (2, .bytes)]

def Metadata.unmarshal (b : Bytes) : Option Metadata := do
  let fs ← decodeFields metadataDesc b
  let _ ← subMessages 2 [(1, .bytes), (2, .bytes)] fs
  some ⟨lastString 1 fs⟩

/-- A metadata item with a value and no signatures, as it goes on the wire. -/
def Metadata.marshal (m : Metadata) : Bytes := encodeFields (bytesField 1 m.value)

def getEnvelopeFromBlock (data : Bytes) : Result Envelope :=
  ofOption .proto (Envelope.unmarshal data)

def getPayload (env : Envelope) : Result Payload := ofOption .proto (Payload.unmarshal env.payload)

def unmarshalChannelHeader (b : Bytes) : Result ChannelHeader :=
  ofOption .proto (ChannelHeader.unmarshal b)

def getTransaction (b : Option Bytes) : Result Transaction :=
  ofOption .proto (Transaction.unmarshal (b.getD []))

def getChaincodeActionPayload (b : Bytes) : Result ChaincodeActionPayload :=
  ofOption .proto (ChaincodeActionPayload.unmarshal b)

def getChaincodeProposalPayload (b : Option Bytes) : Result ChaincodeProposalPayload :=
  ofOption .proto (ChaincodeProposalPayload.unmarshal (b.getD []))

def getChaincodeHeaderExtension (hdr : Option Header) : Result ChaincodeHeaderExtension := do
  let hdr ← deref hdr
  let chdr ← unmarshalChannelHeader hdr.channelHeader
  ofOption .proto (ChaincodeHeaderExtension.unmarshal chdr.extension)

/-- `payload.Header.ChannelHeader` of an envelope; a missing header is a nil dereference. -/
def channelHeaderOf (data : Bytes) : Result ChannelHeader := do
  let env ← getEnvelopeFromBlock data
  let payload ← getPayload env
  let hdr ← deref payload.header
  unmarshalChannelHeader hdr.channelHeader

def getPayloads (act : TransactionAction) : Result (ChaincodeActionPayload × ChaincodeAction) := do
  let ccPayload ← getChaincodeActionPayload act.payload
  match ccPayload.action with
  | none => errorf "no payload in ChaincodeActionPayload"
  | some action =>
    match action.proposalResponsePayload with
    | none => errorf "no payload in ChaincodeActionPayload"
    | some prpBytes => do
      let prp ← ofOption .proto (ProposalResponsePayload.unmarshal prpBytes)
      match prp.extension with
      | none => errorf "response payload is missing extension"
      | some ext => do
        let cca ← ofOption .proto (ChaincodeAction.unmarshal ext)
        .ok (ccPayload, cca)

def getActionFromEnvelope (data : Bytes) : Result ChaincodeAction := do
  let env ← getEnvelopeFromBlock data
  let payload ← getPayload env
  let tx ← getTransaction payload.data
  match tx.actions with
  | [] => errorf "At least one TransactionAction is required"
  | act :: _ => do
    let (_, cca) ← getPayloads act
    .ok cca

end FabricOev.Protos
