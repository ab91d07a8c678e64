import FabricOev.Protos.Messages

/-!
# Blocks and validation flags

A block is its header, its envelopes and its metadata. The header and the data are what
the block hash and the orderer's signature cover; the metadata is not. The validation
flags of the transactions are the bytes of one metadata slot, one byte each, and any
byte can stand there.
-/

namespace FabricOev.Ledger

open Go Result

structure BlockHeader where
  number : UInt64
  previousHash : Bytes
  dataHash : Bytes
deriving DecidableEq, Repr

structure Block where
  header : BlockHeader
  data : List Bytes
  metadata : Option (List Bytes)
deriving DecidableEq, Repr

/-- `common.BlockMetadataIndex`. -/
def MetadataIndex.transactionsFilter : Nat := 2
def MetadataIndex.orderer : Nat := 3

/-- `peer.TxValidationCode`; the scheduled commit marks its transactions `notValidated`. -/
inductive TxValidationCode where
  | valid
  | nilEnvelope
  | badPayload
  | badCommonHeader
  | badCreatorSignature
  | invalidEndorserTransaction
  | invalidConfigTransaction
  | unsupportedTxPayload
  | badProposalTxId
  | duplicateTxId
  | endorsementPolicyFailure
  | mvccReadConflict
  | phantomReadConflict
  | unknownTxType
  | targetChainNotFound
  | marshalTxError
  | nilTxAction
  | expiredChaincode
  | chaincodeVersionConflict
  | badHeaderExtension
  | badChannelHeader
  | badResponsePayload
  | badRwSet
  | illegalWriteSet
  | notValidated
  | invalidOtherReason
deriving DecidableEq, Repr

def TxValidationCode.toByte : TxValidationCode → UInt8
  | .valid => 0
  | .nilEnvelope => 1
  | .badPayload => 2
  | .badCommonHeader => 3
  | .badCreatorSignature => 4
  | .invalidEndorserTransaction => 5
  | .invalidConfigTransaction => 6
  | .unsupportedTxPayload => 7
  | .badProposalTxId => 8
  | .duplicateTxId => 9
  | .endorsementPolicyFailure => 10
  | .mvccReadConflict => 11
  | .phantomReadConflict => 12
  | .unknownTxType => 13
  | .targetChainNotFound => 14
  | .marshalTxError => 15
  | .nilTxAction => 16
  | .expiredChaincode => 17
  | .chaincodeVersionConflict => 18
  | .badHeaderExtension => 19
  | .badChannelHeader => 20
  | .badResponsePayload => 21
  | .badRwSet => 22
  | .illegalWriteSet => 23
  | .notValidated => 254
  | .invalidOtherReason => 255

abbrev TxFlags := List UInt8

namespace TxFlags

/-- `NewTxValidationFlags`: all valid. -/
def new (size : Nat) : TxFlags := List.replicate size TxValidationCode.valid.toByte

def setFlag (flags : TxFlags) (i : Nat) (code : TxValidationCode) : Result TxFlags :=
  if i < flags.length then .ok (flags.set i code.toByte)
  else panicWith .indexOutOfRange

def isValid (flags : TxFlags) (i : Nat) : Result Bool := do
  let b ← index flags i
  .ok (b = TxValidationCode.valid.toByte)

end TxFlags

def FlaggedValid (flags : TxFlags) (i : Nat) : Prop :=
  flags[i]? = some TxValidationCode.valid.toByte

instance (flags : TxFlags) (i : Nat) : Decidable (FlaggedValid flags i) :=
  inferInstanceAs (Decidable (_ = _))

namespace Block

/-- `block.Metadata.Metadata[i]`. -/
def metadataAt (b : Block) (i : Nat) : Result Bytes := do
  let ms ← deref b.metadata
  index ms i

/-- The flags a commit starts from: all valid if the slot is empty. -/
def txsFilter (b : Block) : Result TxFlags := do
  let fs ← b.metadataAt MetadataIndex.transactionsFilter
  .ok (if fs = [] then TxFlags.new b.data.length else fs)

def setFilter (b : Block) (flags : TxFlags) : Block :=
  { b with metadata := b.metadata.map fun ms => ms.set MetadataIndex.transactionsFilter flags }

end Block

@[simp] theorem Block.setFilter_header (b : Block) (fs : TxFlags) :
    (b.setFilter fs).header = b.header := rfl

@[simp] theorem Block.setFilter_data (b : Block) (fs : TxFlags) :
    (b.setFilter fs).data = b.data := rfl

theorem getElem?_concat_eq_some {α : Type} {l : List α} {x y : α} {i : Nat} :
    (l ++ [x])[i]? = some y ↔ l[i]? = some y ∨ i = l.length ∧ x = y := by
  grind

theorem TxFlags.setFlag_eq_ok {flags flags' : TxFlags} {i : Nat} {code : TxValidationCode} :
    flags.setFlag i code = .ok flags' ↔ i < flags.length ∧ flags' = flags.set i code.toByte := by
  unfold setFlag
  split
  · rename_i h
    simp [h, eq_comm]
  · rename_i h
    simp [h, panicWith]

end FabricOev.Ledger
