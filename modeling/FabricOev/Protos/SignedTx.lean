import FabricOev.Protos.Messages

/-!
# Endorser transactions on the wire

The messages of an endorser transaction as a client puts them on the wire
(`utils.CreateSignedTx`), and that a peer reads back what was put there. A transaction is
given by what its parts say; that the parts agree with each other, or that anybody
endorsed them, is not assumed.
-/

namespace FabricOev.Protos

open Go Go.Wire List ProposalResponsePayload Function

def Envelope.toFields (e : Envelope) : List Field :=
  bytesField 1 e.payload ++ bytesField 2 (e.signature.getD [])

def Header.toFields (h : Header) : List Field :=
  bytesField 1 h.channelHeader ++ bytesField 2 h.signatureHeader

def Payload.toFields (p : Payload) : List Field :=
  (p.header.map fun h => messageField 1 (encodeFields h.toFields)).getD [] ++
    bytesField 2 (p.data.getD [])

def ChannelHeader.toFields (c : ChannelHeader) : List Field :=
  varintField 1 c.headerType.toInt64.toUInt64.toNat ++ bytesField 4 c.channelId ++
    bytesField 5 c.txId ++ varintField 6 c.epoch.toNat ++ bytesField 7 c.extension

def SignatureHeader.toFields (h : SignatureHeader) : List Field :=
  bytesField 1 h.creator ++ bytesField 2 h.nonce

def ChaincodeId.toFields (c : ChaincodeId) : List Field :=
  bytesField 1 c.path ++ bytesField 2 c.name ++ bytesField 3 c.version

def ChaincodeHeaderExtension.toFields (x : ChaincodeHeaderExtension) : List Field :=
  bytesField 1 x.payloadVisibility ++
    (x.chaincodeId.map fun c => messageField 2 (encodeFields c.toFields)).getD []

def ChaincodeInput.toFields (i : ChaincodeInput) : List Field := i.args.flatMap (messageField 1)

def ChaincodeSpec.toFields (s : ChaincodeSpec) : List Field :=
  (s.chaincodeId.map fun c => messageField 2 (encodeFields c.toFields)).getD [] ++
    (s.input.map fun i => messageField 3 (encodeFields i.toFields)).getD []

def ChaincodeInvocationSpec.toFields (s : ChaincodeInvocationSpec) : List Field :=
  (s.chaincodeSpec.map fun c => messageField 1 (encodeFields c.toFields)).getD []

def ChaincodeProposalPayload.toFields (p : ChaincodeProposalPayload) : List Field :=
  bytesField 1 p.input

def TransactionAction.toFields (a : TransactionAction) : List Field :=
  bytesField 1 a.header ++ bytesField 2 a.payload

def Transaction.toFields (t : Transaction) : List Field :=
  t.actions.flatMap fun a => messageField 1 (encodeFields a.toFields)

def Endorsement.toFields (e : Endorsement) : List Field :=
  bytesField 1 e.endorser ++ bytesField 2 e.signature

def ChaincodeEndorsedAction.toFields (a : ChaincodeEndorsedAction) : List Field :=
  bytesField 1 (a.proposalResponsePayload.getD []) ++
    a.endorsements.flatMap fun e => messageField 2 (encodeFields e.toFields)

def ChaincodeActionPayload.toFields (p : ChaincodeActionPayload) : List Field :=
  bytesField 1 (p.chaincodeProposalPayload.getD []) ++
    (p.action.map fun a => messageField 2 (encodeFields a.toFields)).getD []

def ProposalResponsePayload.toFields (p : ProposalResponsePayload) : List Field :=
  bytesField 1 p.proposalHash ++ bytesField 2 (p.extension.getD [])

def ChaincodeAction.toFields (a : ChaincodeAction) : List Field :=
  bytesField 1 a.results ++ bytesField 2 a.events ++
    (a.chaincodeId.map fun c => messageField 4 (encodeFields c.toFields)).getD []

/-! ## Reading messages back -/

theorem Envelope.unmarshal_encode {payload sig : Bytes}
    (h : (encodeFields (Envelope.toFields ⟨payload, nonNil sig⟩)).length < 2 ^ 64) :
    Envelope.unmarshal (encodeFields (Envelope.toFields ⟨payload, nonNil sig⟩)) =
      some ⟨payload, nonNil sig⟩ := by
  refine read_fields h (by simp [toFields, lookup]) ?_
  simp [toFields, lastString, lastBytes]

theorem SignatureHeader.unmarshal_encode {s : SignatureHeader}
    (h : (encodeFields s.toFields).length < 2 ^ 64) :
    SignatureHeader.unmarshal (encodeFields s.toFields) = some s := by
  refine read_fields h (by simp [toFields, lookup]) ?_
  simp [toFields, lastString, lastBytes]

theorem Payload.unmarshal_encode {hdr : Header} {data : Bytes}
    (h : (encodeFields (Payload.toFields ⟨some hdr, nonNil data⟩)).length < 2 ^ 64) :
    Payload.unmarshal (encodeFields (Payload.toFields ⟨some hdr, nonNil data⟩)) =
      some ⟨some hdr, nonNil data⟩ := by
  refine read_fields h (by simp [toFields, lookup]) ?_
  refine read_subMessage hdr.toFields h (by simp [toFields]) (by simp [Header.toFields, lookup]) ?_
  simp [toFields, Header.toFields, lastString, lastBytes]

/-- A negative `int32` goes on the wire sign-extended and comes back. -/
theorem int32_ofNat_toUInt64 (x : Int32) : Int32.ofNat x.toInt64.toUInt64.toNat = x := by
  apply Int32.toBitVec_inj.mp
  have h : (Int32.ofNat x.toInt64.toUInt64.toNat).toBitVec =
      (x.toBitVec.signExtend 64).setWidth 32 := by
    rfl
  rw [h]
  ext i hi
  have hi' : i < 64 := by omega
  simp [BitVec.getElem_signExtend, hi, hi']

theorem ChannelHeader.unmarshal_encode {c : ChannelHeader}
    (h : (encodeFields c.toFields).length < 2 ^ 64) :
    ChannelHeader.unmarshal (encodeFields c.toFields) = some c := by
  refine read_fields h (by simp [toFields, lookup]) ?_
  refine read_no_subMessage (by simp [toFields]) ?_
  simp [toFields, lastString, lastBytes, lastVarint, int32_ofNat_toUInt64 c.headerType]

theorem ChaincodeId.declared (c : ChaincodeId) : DeclaredIn chaincodeIdDesc c.toFields := by
  simp [toFields, chaincodeIdDesc, lookup]

theorem ChaincodeId.ofFields_toFields (c : ChaincodeId) : ChaincodeId.ofFields c.toFields = c := by
  simp [ofFields, toFields, lastString, lastBytes]

variable {c : ChaincodeId} {args : List Bytes} {prp : Bytes} {es : List Endorsement}

theorem ChaincodeHeaderExtension.unmarshal_encode {pv : Bytes}
    (h : (encodeFields (ChaincodeHeaderExtension.toFields ⟨pv, some c⟩)).length < 2 ^ 64) :
    ChaincodeHeaderExtension.unmarshal
      (encodeFields (ChaincodeHeaderExtension.toFields ⟨pv, some c⟩)) = some ⟨pv, some c⟩ := by
  refine read_fields h (by simp [toFields, lookup]) ?_
  refine read_subMessage c.toFields h (by simp [toFields]) c.declared ?_
  simp [toFields, lastString, lastBytes, ChaincodeId.ofFields_toFields]

theorem ChaincodeSpec.ofFields_toFields
    (h : (encodeFields (ChaincodeSpec.toFields ⟨some c, some ⟨args⟩⟩)).length < 2 ^ 64) :
    ChaincodeSpec.ofFields (ChaincodeSpec.toFields ⟨some c, some ⟨args⟩⟩) =
      some ⟨some c, some ⟨args⟩⟩ := by
  refine read_subMessage c.toFields h (by simp [toFields]) c.declared ?_
  refine read_subMessage (ChaincodeInput.toFields ⟨args⟩) h (by simp [toFields])
    (by simp [ChaincodeInput.toFields, lookup]) ?_
  simp [ChaincodeId.ofFields_toFields, ChaincodeInput.toFields]

theorem ChaincodeInvocationSpec.unmarshal_encode
    (h : (encodeFields (ChaincodeInvocationSpec.toFields ⟨some ⟨some c, some ⟨args⟩⟩⟩)).length <
      2 ^ 64) :
    ChaincodeInvocationSpec.unmarshal
      (encodeFields (ChaincodeInvocationSpec.toFields ⟨some ⟨some c, some ⟨args⟩⟩⟩)) =
        some ⟨some ⟨some c, some ⟨args⟩⟩⟩ := by
  have hspec : (encodeFields (ChaincodeSpec.toFields ⟨some c, some ⟨args⟩⟩)).length < 2 ^ 64 :=
    lt_of_part 1 h (by simp [toFields])
  refine read_fields h (by simp [toFields, lookup]) ?_
  refine read_subMessage (ChaincodeSpec.toFields ⟨some c, some ⟨args⟩⟩) h (by simp [toFields])
    (by simp [ChaincodeSpec.toFields, lookup]) ?_
  simp [ChaincodeSpec.ofFields_toFields hspec]

theorem ChaincodeProposalPayload.unmarshal_encode {p : ChaincodeProposalPayload}
    (h : (encodeFields p.toFields).length < 2 ^ 64) :
    ChaincodeProposalPayload.unmarshal (encodeFields p.toFields) = some p := by
  refine read_fields h (by simp [toFields, lookup]) ?_
  simp [toFields, lastString, lastBytes]

theorem TransactionAction.ofFields_toFields (a : TransactionAction) :
    (⟨lastString 1 a.toFields, lastString 2 a.toFields⟩ : TransactionAction) = a := by
  simp [toFields, lastString, lastBytes]

theorem Transaction.unmarshal_encode {t : Transaction}
    (h : (encodeFields t.toFields).length < 2 ^ 64) :
    Transaction.unmarshal (encodeFields t.toFields) = some t := by
  refine read_fields h (by simp [toFields, lookup]) ?_
  refine read_subMessages t.actions TransactionAction.toFields h (by simp [toFields])
    (by simp [TransactionAction.toFields, lookup]) ?_
  simp [TransactionAction.ofFields_toFields, comp_def]

theorem Endorsement.ofFields_toFields (e : Endorsement) :
    (⟨lastString 1 e.toFields, lastString 2 e.toFields⟩ : Endorsement) = e := by
  simp [toFields, lastString, lastBytes]

theorem ChaincodeEndorsedAction.ofFields_toFields (hprp : prp ≠ [])
    (h : (encodeFields (ChaincodeEndorsedAction.toFields ⟨some prp, es⟩)).length < 2 ^ 64) :
    ChaincodeEndorsedAction.ofFields (ChaincodeEndorsedAction.toFields ⟨some prp, es⟩) =
      some ⟨some prp, es⟩ := by
  refine read_subMessages es Endorsement.toFields h (by simp [toFields])
    (by simp [Endorsement.toFields, lookup]) ?_
  simp [toFields, lastBytes, nonNil_of_ne hprp, Endorsement.ofFields_toFields, comp_def]

theorem ChaincodeActionPayload.unmarshal_encode {cpp : Bytes} (hprp : prp ≠ [])
    (h : (encodeFields (ChaincodeActionPayload.toFields ⟨nonNil cpp, some ⟨some prp, es⟩⟩)).length <
      2 ^ 64) :
    ChaincodeActionPayload.unmarshal
      (encodeFields (ChaincodeActionPayload.toFields ⟨nonNil cpp, some ⟨some prp, es⟩⟩)) =
        some ⟨nonNil cpp, some ⟨some prp, es⟩⟩ := by
  have hact : (encodeFields (ChaincodeEndorsedAction.toFields ⟨some prp, es⟩)).length < 2 ^ 64 :=
    lt_of_part 2 h (by simp [toFields])
  refine read_fields h (by simp [toFields, lookup]) ?_
  refine read_subMessage (ChaincodeEndorsedAction.toFields ⟨some prp, es⟩) h (by simp [toFields])
    (by simp [ChaincodeEndorsedAction.toFields, lookup]) ?_
  simp [ChaincodeEndorsedAction.ofFields_toFields hprp hact, toFields, lastBytes]

theorem ProposalResponsePayload.unmarshal_encode {hash ext : Bytes} (hext : ext ≠ [])
    (h : (encodeFields (ProposalResponsePayload.toFields ⟨hash, some ext⟩)).length < 2 ^ 64) :
    ProposalResponsePayload.unmarshal
      (encodeFields (ProposalResponsePayload.toFields ⟨hash, some ext⟩)) =
        some ⟨hash, some ext⟩ := by
  refine read_fields h (by simp [toFields, lookup]) ?_
  simp [toFields, lastString, lastBytes, nonNil_of_ne hext]

theorem ChaincodeAction.unmarshal_encode {results events : Bytes}
    (h : (encodeFields (ChaincodeAction.toFields ⟨results, events, some c⟩)).length < 2 ^ 64) :
    ChaincodeAction.unmarshal (encodeFields (ChaincodeAction.toFields ⟨results, events, some c⟩)) =
      some ⟨results, events, some c⟩ := by
  refine read_fields h (by simp [toFields, lookup]) ?_
  refine read_no_subMessage (by simp [toFields]) ?_
  refine read_subMessage c.toFields h (by simp [toFields]) c.declared ?_
  simp [toFields, lastString, lastBytes, ChaincodeId.ofFields_toFields]

/-! ## Signed transactions -/

/-- What the parts of an endorser transaction say. -/
structure SignedTx where
  channelId : GoString
  txId : GoString
  creator : Bytes
  nonce : Bytes
  signature : Bytes
  /-- The invoked chaincode, in the header. -/
  ccId : ChaincodeId
  args : List Bytes
  proposalHash : Bytes
  /-- The endorsed read-write set. -/
  results : Bytes
  events : Bytes
  /-- The chaincode the endorsers name. -/
  actionCcId : ChaincodeId
  endorsements : List Endorsement
deriving DecidableEq, Repr

namespace SignedTx

/-- An invocation nobody endorsed, with an empty read-write set. -/
def bare (txId ccName : GoString) (args : List Bytes) : SignedTx where
  channelId := str "channel"
  txId := txId
  creator := str "client"
  nonce := str "nonce"
  signature := []
  ccId := ⟨[], ccName, []⟩
  args := args
  proposalHash := []
  results := []
  events := []
  actionCcId := ⟨[], ccName, []⟩
  endorsements := []

variable (t : SignedTx)

def hdrExt : ChaincodeHeaderExtension := ⟨[], some t.ccId⟩

def channelHeader : ChannelHeader :=
  ⟨HeaderType.endorserTransaction, t.channelId, t.txId, 0, encodeFields t.hdrExt.toFields⟩

def signatureHeader : SignatureHeader := ⟨t.creator, t.nonce⟩

def header : Header :=
  ⟨encodeFields t.channelHeader.toFields, encodeFields t.signatureHeader.toFields⟩

def invocationSpec : ChaincodeInvocationSpec := ⟨some ⟨some t.ccId, some ⟨t.args⟩⟩⟩

def proposalPayload : ChaincodeProposalPayload := ⟨encodeFields t.invocationSpec.toFields⟩

def chaincodeAction : ChaincodeAction := ⟨t.results, t.events, some t.actionCcId⟩

def responsePayload : ProposalResponsePayload :=
  ⟨t.proposalHash, some (encodeFields t.chaincodeAction.toFields)⟩

def actionPayload : ChaincodeActionPayload :=
  ⟨nonNil (encodeFields t.proposalPayload.toFields),
    some ⟨some (encodeFields t.responsePayload.toFields), t.endorsements⟩⟩

def transaction : Transaction :=
  ⟨[⟨encodeFields t.signatureHeader.toFields, encodeFields t.actionPayload.toFields⟩]⟩

def payload : Payload := ⟨some t.header, nonNil (encodeFields t.transaction.toFields)⟩

def env : Envelope := ⟨encodeFields t.payload.toFields, nonNil t.signature⟩

/-- The envelope as it stands in a block. -/
def envelope : Bytes := encodeFields t.env.toFields

/-- A peer reads every part of the envelope as it was written. -/
structure Reads : Prop where
  envelope : getEnvelopeFromBlock t.envelope = .ok t.env
  payload : getPayload t.env = .ok t.payload
  channelHeader : unmarshalChannelHeader t.header.channelHeader = .ok t.channelHeader
  signatureHeader : SignatureHeader.unmarshal t.header.signatureHeader = some t.signatureHeader
  hdrExt : ChaincodeHeaderExtension.unmarshal t.channelHeader.extension = some t.hdrExt
  transaction : getTransaction t.payload.data = .ok t.transaction
  actionPayload : getChaincodeActionPayload (encodeFields t.actionPayload.toFields) =
    .ok t.actionPayload
  proposalPayload : getChaincodeProposalPayload t.actionPayload.chaincodeProposalPayload =
    .ok t.proposalPayload
  invocationSpec : ChaincodeInvocationSpec.unmarshal t.proposalPayload.input = some t.invocationSpec
  responsePayload : ProposalResponsePayload.unmarshal (encodeFields t.responsePayload.toFields) =
    some t.responsePayload
  chaincodeAction : ChaincodeAction.unmarshal (encodeFields t.chaincodeAction.toFields) =
    some t.chaincodeAction

theorem chaincodeAction_ne_nil : encodeFields t.chaincodeAction.toFields ≠ [] := by
  simp [chaincodeAction, ChaincodeAction.toFields, encodeFields, messageField, encodeField,
    encodeVarint_ne_nil]

theorem payload_ne_nil : encodeFields t.responsePayload.toFields ≠ [] := by
  intro hnil
  have hlt : (encodeFields t.responsePayload.toFields).length < 1 := by simp [hnil]
  have hpart : (encodeFields t.chaincodeAction.toFields).length < 1 :=
    lt_of_part 2 hlt (by
      simp [responsePayload, toFields, present, chaincodeAction_ne_nil])
  exact t.chaincodeAction_ne_nil (length_eq_zero_iff.mp (by omega))

variable {t}

theorem reads (h : t.envelope.length < 2 ^ 64) : t.Reads := by
  -- every part is a field of the part around it, so the bound passes inwards
  have hpay : (encodeFields t.payload.toFields).length < 2 ^ 64 :=
    lt_of_present 1 h (by simp [env, Envelope.toFields])
  have hhdr : (encodeFields t.header.toFields).length < 2 ^ 64 :=
    lt_of_part 1 hpay (by simp [payload, Payload.toFields])
  have htx : (encodeFields t.transaction.toFields).length < 2 ^ 64 :=
    lt_of_present 2 hpay (by simp [payload, Payload.toFields])
  have hch : (encodeFields t.channelHeader.toFields).length < 2 ^ 64 :=
    lt_of_present 1 hhdr (by simp [header, Header.toFields])
  have hsh : (encodeFields t.signatureHeader.toFields).length < 2 ^ 64 :=
    lt_of_present 2 hhdr (by simp [header, Header.toFields])
  have hext : (encodeFields t.hdrExt.toFields).length < 2 ^ 64 :=
    lt_of_present 7 hch (by simp [channelHeader, ChannelHeader.toFields])
  have hact : (encodeFields (TransactionAction.toFields ⟨encodeFields t.signatureHeader.toFields,
      encodeFields t.actionPayload.toFields⟩)).length < 2 ^ 64 :=
    lt_of_part 1 htx (by simp [transaction, Transaction.toFields])
  have hcap : (encodeFields t.actionPayload.toFields).length < 2 ^ 64 :=
    lt_of_present 2 hact (by simp [TransactionAction.toFields])
  have hcpp : (encodeFields t.proposalPayload.toFields).length < 2 ^ 64 :=
    lt_of_present 1 hcap (by simp [actionPayload, ChaincodeActionPayload.toFields])
  have hcea : (encodeFields (ChaincodeEndorsedAction.toFields
      ⟨some (encodeFields t.responsePayload.toFields), t.endorsements⟩)).length < 2 ^ 64 :=
    lt_of_part 2 hcap (by simp [actionPayload, ChaincodeActionPayload.toFields])
  have hprp : (encodeFields t.responsePayload.toFields).length < 2 ^ 64 :=
    lt_of_present 1 hcea (by simp [ChaincodeEndorsedAction.toFields])
  have hcis : (encodeFields t.invocationSpec.toFields).length < 2 ^ 64 :=
    lt_of_present 1 hcpp (by simp [proposalPayload, ChaincodeProposalPayload.toFields])
  have hcca : (encodeFields t.chaincodeAction.toFields).length < 2 ^ 64 :=
    lt_of_present 2 hprp (by simp [responsePayload, toFields])
  exact {
    envelope := by
      rw [getEnvelopeFromBlock, SignedTx.envelope, env, Envelope.unmarshal_encode h]
      rfl
    payload := by
      rw [getPayload, env, SignedTx.payload, Payload.unmarshal_encode hpay]
      rfl
    channelHeader := by
      rw [unmarshalChannelHeader, header, ChannelHeader.unmarshal_encode hch]
      rfl
    signatureHeader := SignatureHeader.unmarshal_encode hsh
    hdrExt := ChaincodeHeaderExtension.unmarshal_encode hext
    transaction := by
      rw [getTransaction, SignedTx.payload, nonNil_getD, Transaction.unmarshal_encode htx]
      rfl
    actionPayload := by
      rw [getChaincodeActionPayload, SignedTx.actionPayload,
        ChaincodeActionPayload.unmarshal_encode t.payload_ne_nil hcap]
      rfl
    proposalPayload := by
      rw [getChaincodeProposalPayload, SignedTx.actionPayload, nonNil_getD,
        ChaincodeProposalPayload.unmarshal_encode hcpp]
      rfl
    invocationSpec := ChaincodeInvocationSpec.unmarshal_encode hcis
    responsePayload := unmarshal_encode t.chaincodeAction_ne_nil hprp
    chaincodeAction := ChaincodeAction.unmarshal_encode hcca }

theorem Reads.channelHeaderOf (h : t.Reads) : channelHeaderOf t.envelope = .ok t.channelHeader := by
  simp only [Protos.channelHeaderOf, h.envelope, h.payload, bind, Except.bind]
  exact h.channelHeader

theorem Reads.getPayloads (h : t.Reads) (hdr : Bytes) :
    getPayloads ⟨hdr, encodeFields t.actionPayload.toFields⟩ =
      .ok (t.actionPayload, t.chaincodeAction) := by
  simp only [Protos.getPayloads, h.actionPayload, bind, Except.bind]
  simp only [SignedTx.actionPayload, h.responsePayload, Result.ofOption]
  simp only [SignedTx.responsePayload, h.chaincodeAction]

theorem Reads.getActionFromEnvelope (h : t.Reads) :
    getActionFromEnvelope t.envelope = .ok t.chaincodeAction := by
  simp only [Protos.getActionFromEnvelope, h.envelope, h.payload, h.transaction, bind, Except.bind]
  simp only [SignedTx.transaction, h.getPayloads]

end SignedTx

end FabricOev.Protos
