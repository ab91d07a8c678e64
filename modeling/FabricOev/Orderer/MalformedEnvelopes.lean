import FabricOev.Orderer.ParallelReplay

/-!
# Envelopes that stop the orderer

The extractor gives up on every message that does not decode, but it follows three
pointers without looking: the chaincode id of the header extension, the chaincode
specification of the proposal and the input of that. An empty message decodes with all of
them nil, so a client that leaves one out makes the analysis panic.
-/

namespace FabricOev.Orderer

open Go Protos Ledger Bench Result Option List Wire HeaderType

/-- If the proposal of the first action decodes, it has a specification with an input. -/
def InputPresent (payload : Payload) : Prop :=
  ∀ tx, Transaction.unmarshal (payload.data.getD []) = some tx →
    ∀ act, tx.actions.head? = some act →
    ∀ cap, ChaincodeActionPayload.unmarshal act.payload = some cap →
    ∀ cpp, ChaincodeProposalPayload.unmarshal (cap.chaincodeProposalPayload.getD []) = some cpp →
    ∀ cis, ChaincodeInvocationSpec.unmarshal cpp.input = some cis →
      ∃ spec, cis.chaincodeSpec = some spec ∧ ∃ input, spec.input = some input

/-- An extension that decodes has a chaincode id, and a benchmark chaincode an input. -/
def PointersPresent (data : Bytes) : Prop :=
  ∀ env, Envelope.unmarshal data = some env →
    ∀ payload, Payload.unmarshal env.payload = some payload →
    ∀ hdr, payload.header = some hdr →
    ∀ chdr, ChannelHeader.unmarshal hdr.channelHeader = some chdr →
    chdr.headerType = endorserTransaction →
    ∀ ext, ChaincodeHeaderExtension.unmarshal chdr.extension = some ext →
      ∃ ccId, ext.chaincodeId = some ccId ∧
        (isBenchmarkChaincode ccId.name = true → InputPresent payload)

/-- Every level that does not decode, and a transaction without actions, is skipped. -/
theorem intentFromPayload_isOk (txId ccName : GoString) (payload : Payload) :
    (∃ r, extractIntentFromPayload txId ccName payload = .ok r) ↔ InputPresent payload := by
  unfold extractIntentFromPayload InputPresent getTransaction
  cases Transaction.unmarshal (payload.data.getD []) with
  | none => exact iff_of_true ⟨none, rfl⟩ fun tx h => nomatch h
  | some tx =>
    obtain ⟨actions⟩ := tx
    cases actions with
    | nil =>
      simp only [some.injEq, forall_eq']
      exact iff_of_true ⟨none, rfl⟩ fun act h => nomatch h
    | cons act acts =>
      simp only [head?_cons, some.injEq, forall_eq']
      show (∃ r, ((getChaincodeActionPayload act.payload).attempt >>= _) = .ok r) ↔ _
      refine (attempt_ofOption_isOk ⟨none, rfl⟩).trans
        (forall_congr' fun cap => imp_congr_right fun _ => ?_)
      show (∃ r, ((getChaincodeProposalPayload cap.chaincodeProposalPayload).attempt >>= _) =
        .ok r) ↔ _
      refine (attempt_ofOption_isOk ⟨none, rfl⟩).trans
        (forall_congr' fun cpp => imp_congr_right fun _ => ?_)
      dsimp only
      cases ChaincodeInvocationSpec.unmarshal cpp.input with
      | none => exact iff_of_true ⟨none, rfl⟩ fun cis h => nomatch h
      | some cis =>
        simp only [some.injEq, forall_eq']
        refine deref_bind_isOk.trans (exists_congr fun spec => and_congr_right fun _ => ?_)
        refine deref_bind_isOk.trans (exists_congr fun input => and_iff_left ?_)
        -- past the two pointers every branch returns
        cases input.args with
        | nil => exact ⟨none, rfl⟩
        | cons funcName args =>
          dsimp only
          split
          · exact ⟨_, rfl⟩
          · exact ⟨_, rfl⟩

theorem extractIntent_isOk {data : Bytes} {chdr : ChannelHeader}
    (hdata : channelHeaderOf data = .ok chdr) :
    (∃ r, extractIntentFromEnvBytes data = .ok r) ↔ PointersPresent data := by
  obtain ⟨env, henv, hdata⟩ := bind_ok.mp hdata
  obtain ⟨payload, hpayload, hdata⟩ := bind_ok.mp hdata
  obtain ⟨hdr, hhdr, hchdr⟩ := bind_ok.mp hdata
  have hext : getChaincodeHeaderExtension payload.header =
      ofOption .proto (ChaincodeHeaderExtension.unmarshal chdr.extension) := by
    simp only [getChaincodeHeaderExtension, hhdr, hchdr, bind, Except.bind]
  unfold PointersPresent
  simp only [ofOption_eq_ok.mp henv, ofOption_eq_ok.mp hpayload, deref_eq_ok hhdr,
    ofOption_eq_ok.mp hchdr, some.injEq, forall_eq']
  unfold extractIntentFromEnvBytes
  simp only [henv, hpayload, hhdr, hchdr, hext, attempt, bind, Except.bind]
  split
  · rename_i htype
    exact iff_of_true ⟨none, rfl⟩ fun h => absurd h htype
  · rename_i htype
    rw [not_not] at htype
    simp only [htype, forall_const]
    refine (attempt_ofOption_isOk ⟨none, rfl⟩).trans
      (forall_congr' fun ext => imp_congr_right fun _ => ?_)
    refine deref_bind_isOk.trans (exists_congr fun ccId => and_congr_right fun _ => ?_)
    cases hcc : isBenchmarkChaincode ccId.name with
    | false => exact iff_of_true ⟨none, rfl⟩ fun h => absurd h Bool.false_ne_true
    | true =>
      rw [if_pos rfl, intentFromPayload_isOk]
      constructor
      · intro h _
        exact h
      · intro h
        exact h rfl

/-- Of a block whose payload headers decode, the analysis returns exactly if no pointer that
the extractor follows is nil. -/
theorem analyze_returns_iff (block : Block)
    (hheaders : ∀ d ∈ block.data, ∃ chdr, channelHeaderOf d = .ok chdr) :
    (∃ r, analyzeBatchAndSchedule block = .ok r) ↔ ∀ d ∈ block.data, PointersPresent d := by
  have hextract : (∃ r, analyzeBatchAndSchedule block = .ok r) ↔
      ∃ intents, block.data.mapM extractIntentFromEnvBytes = .ok intents := by
    unfold analyzeBatchAndSchedule extractIntentsFromBlock
    cases block.data.mapM extractIntentFromEnvBytes with
    | error f =>
      apply iff_of_false
      · intro h
        obtain ⟨r, hr⟩ := h
        cases hr
      · intro h
        obtain ⟨intents, hi⟩ := h
        cases hi
    | ok intents =>
      refine iff_of_true ?_ ⟨intents, rfl⟩
      simp only [bind, Except.bind]
      split
      · exact ⟨none, rfl⟩
      · exact ⟨_, rfl⟩
  rw [hextract, mapM_isOk]
  refine forall₂_congr fun d hd => ?_
  obtain ⟨chdr, hchdr⟩ := hheaders d hd
  exact extractIntent_isOk hchdr

/-- An ordinary deposit has all three. -/
theorem deposit_analyzed :
    PointersPresent (depositIntent (str "t1") (str "a") (str "5")).envelope := by
  let d := depositIntent (str "t1") (str "a") (str "5")
  let block : Block := ⟨⟨1, [], []⟩, [d.envelope], none⟩
  have hchdr : channelHeaderOf d.envelope =
      .ok (SignedTx.bare d.txId d.chaincodeName (d.functionName :: d.args)).channelHeader := by
    decide +kernel
  have hheaders : ∀ e ∈ block.data, ∃ chdr, channelHeaderOf e = .ok chdr := by
    intro e he
    obtain rfl := mem_singleton.mp he
    exact ⟨_, hchdr⟩
  have hret : analyzeBatchAndSchedule block =
      .ok (some (BatchSchedule.marshal ⟨1, [⟨0, [str "t1"]⟩], str "v1"⟩)) := by decide +kernel
  exact (analyze_returns_iff block hheaders).mp ⟨_, hret⟩ _ (mem_singleton.mpr rfl)

/-- The channel header of an endorser transaction with that extension. -/
def craftedHeader (extension : Bytes) : ChannelHeader :=
  ⟨endorserTransaction, str "channel", str "t1", 0, extension⟩

def craftedEnvelope (extension txBytes : Bytes) : Bytes :=
  let payload : Payload :=
    ⟨some ⟨encodeFields (craftedHeader extension).toFields, []⟩, some txBytes⟩
  encodeFields (Envelope.toFields ⟨encodeFields payload.toFields, none⟩)

def smallBankExtension : Bytes :=
  encodeFields (ChaincodeHeaderExtension.toFields ⟨[], some ⟨[], ccSmallBank, []⟩⟩)

def emptyActionTx : Bytes := encodeFields (Transaction.toFields ⟨[⟨[], []⟩]⟩)

/-- An empty header extension, and a SmallBank transaction whose first action is empty: both
headers decode, both blocks stop the orderer. -/
theorem empty_messages_stop_orderer :
    let noId := craftedEnvelope [] []
    let noSpec := craftedEnvelope smallBankExtension emptyActionTx
    channelHeaderOf noId = .ok (craftedHeader []) ∧
      analyzeBatchAndSchedule ⟨⟨1, [], []⟩, [noId], none⟩ = panicWith .nilDereference ∧
      channelHeaderOf noSpec = .ok (craftedHeader smallBankExtension) ∧
      analyzeBatchAndSchedule ⟨⟨1, [], []⟩, [noSpec], none⟩ = panicWith .nilDereference := by
  decide +kernel

end FabricOev.Orderer
