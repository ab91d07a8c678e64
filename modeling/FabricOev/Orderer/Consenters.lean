import FabricOev.Orderer.BlockCutter

/-!
# The loops of the consenters

`main` of the solo chain and `processMessagesToBlocks` of the Kafka chain: messages go through the
cutter, batches become blocks, and a timer is to see to it that a batch does not wait for ever. Both
set the timer when the cutter returned no batch and clear it when it did. When its timer expires the
Kafka chain posts a message that tells every orderer to cut.
-/

namespace FabricOev.Orderer

open Go Protos Except List

variable {κ : Type} {limits : BatchSize} (r : Receiver κ)

theorem Receiver.length_batches (limits : BatchSize) (verdict : Option (Committer κ))
    (msg : Envelope) :
    (r.ordered limits verdict msg).1.batches.length =
      (r.ordered limits verdict msg).1.messageBatches.length := by
  rw [Ordered.batches, length_zipWith, length_committerBatches, Nat.min_self]

structure SoloChain (κ : Type) where
  cutter : Receiver κ
  timer : Bool
  blocks : List (Batch κ × Option Bytes)

namespace SoloChain

def new : SoloChain κ := ⟨.new, false, []⟩

/-- `CreateNextBlock`, `AnalyzeBatchAndSchedule` and `WriteBlock`; a panic of the analysis ends
the orderer. -/
def writeBlock (analyze : Nat → List Envelope → Result (Option Bytes)) (ch : SoloChain κ)
    (b : Batch κ) : Result (SoloChain κ) := do
  let batchScheduleBytes ← analyze ch.blocks.length b.messages
  .ok { ch with blocks := ch.blocks ++ [(b, batchScheduleBytes)] }

/-- `case msg := <-ch.sendChan`. -/
def message (analyze : Nat → List Envelope → Result (Option Bytes)) (limits : BatchSize)
    (verdict : Option (Committer κ)) (ch : SoloChain κ) (msg : Envelope) :
    Result (SoloChain κ) :=
  let (o, cutter) := ch.cutter.ordered limits verdict msg
  let ch := { ch with cutter := cutter }
  if o.ok = true ∧ o.messageBatches.length = 0 ∧ ch.timer = false then
    .ok { ch with timer := true }
  else do
    let ch ← o.batches.foldlM (writeBlock analyze) ch
    .ok { ch with timer := ch.timer && o.messageBatches.length = 0 }

/-- `case <-timer`. -/
def expire (analyze : Nat → List Envelope → Result (Option Bytes)) (ch : SoloChain κ) :
    Result (SoloChain κ) :=
  let (b, cutter) := ch.cutter.cut
  let ch := { ch with timer := false, cutter := cutter }
  if b.messages.length = 0 then .ok ch else writeBlock analyze ch b

end SoloChain

/-- A message of the partition. What does not unmarshal is skipped. -/
inductive KafkaMessage where
  | connect
  | timeToCut (blockNumber : Nat)
  | regular (payload : Bytes)
  | unreadable
deriving DecidableEq, Repr

/-- `LastOffsetPersisted` as read back: the encoding of zero has no bytes and reads as nil. -/
def kafkaMetadata (lastOffsetPersisted : Int) : Option Int :=
  if lastOffsetPersisted = 0 then none else some lastOffsetPersisted

structure KafkaBlock (κ : Type) where
  batch : Batch κ
  metadata : Option Int
deriving DecidableEq, Repr

structure KafkaChain (κ : Type) where
  cutter : Receiver κ
  blocks : List (KafkaBlock κ)
  lastCutBlockNumber : Nat
  timer : Bool
deriving DecidableEq, Repr

/-- The errors of `processTimeToCut`. -/
inductive TimeToCutError where
  | noPending
  | larger
deriving DecidableEq, Repr

namespace KafkaChain

def new : KafkaChain κ := ⟨.new, [], 0, false⟩

def writeBlock (ch : KafkaChain κ) (offset : Int) (b : Batch κ) : KafkaChain κ :=
  { ch with
    blocks := ch.blocks ++ [⟨b, kafkaMetadata offset⟩]
    lastCutBlockNumber := ch.lastCutBlockNumber + 1 }

/-- The loop of `processRegular`: a batch with others behind it gets a smaller offset. -/
def writeBatches (receivedOffset : Int) : KafkaChain κ → List (Batch κ) → KafkaChain κ
  | ch, [] => ch
  | ch, b :: bs => writeBatches receivedOffset (ch.writeBlock (receivedOffset - bs.length) b) bs

/-- `processRegular` for an envelope. -/
def processEnvelope (limits : BatchSize) (verdict : Option (Committer κ)) (ch : KafkaChain κ)
    (env : Envelope) (receivedOffset : Int) : KafkaChain κ :=
  let (o, cutter) := ch.cutter.ordered limits verdict env
  let ch := { ch with cutter := cutter }
  if o.ok = true ∧ o.messageBatches.length = 0 ∧ ch.timer = false then { ch with timer := true }
  else
    let ch := writeBatches receivedOffset ch o.batches
    { ch with timer := ch.timer && o.messageBatches.length = 0 }

/-- `processRegular`; the error for bytes that are no envelope is only counted. -/
def processRegular (limits : BatchSize) (verdict : Envelope → Option (Committer κ))
    (ch : KafkaChain κ) (payload : Bytes) (receivedOffset : Int) : KafkaChain κ :=
  match Envelope.unmarshal payload with
  | none => ch
  | some env => ch.processEnvelope limits (verdict env) env receivedOffset

def processTimeToCut (ch : KafkaChain κ) (ttcNumber : Nat) (receivedOffset : Int) :
    Except TimeToCutError (KafkaChain κ) :=
  if ttcNumber = ch.lastCutBlockNumber + 1 then
    let (b, cutter) := ch.cutter.cut
    let ch := { ch with timer := false, cutter := cutter }
    if b.messages.length = 0 then .error .noPending
    else .ok (ch.writeBlock receivedOffset b)
  else if ch.lastCutBlockNumber + 1 < ttcNumber then .error .larger
  else .ok ch

/-- The branch of `processMessagesToBlocks` for a message; an error ends the loop. -/
def processMessage (limits : BatchSize) (verdict : Envelope → Option (Committer κ))
    (ch : KafkaChain κ) (receivedOffset : Int) :
    KafkaMessage → Except TimeToCutError (KafkaChain κ)
  | .connect => .ok ch
  | .unreadable => .ok ch
  | .timeToCut n => ch.processTimeToCut n receivedOffset
  | .regular payload => .ok (ch.processRegular limits verdict payload receivedOffset)

/-- `sendTimeToCut`: the message that is posted, and the chain with its timer cleared. -/
def sendTimeToCut (ch : KafkaChain κ) : KafkaMessage × KafkaChain κ :=
  (.timeToCut (ch.lastCutBlockNumber + 1), { ch with timer := false })

/-! ## Writing the batches of a call -/

variable (o : Int) {ch ch' : KafkaChain κ} {offset : Int}

@[simp] theorem cutter_writeBatches (ch : KafkaChain κ) (bs : List (Batch κ)) :
    (writeBatches o ch bs).cutter = ch.cutter := by
  induction bs generalizing ch with
  | nil => rfl
  | cons b bs ih => exact ih _

@[simp] theorem timer_writeBatches (ch : KafkaChain κ) (bs : List (Batch κ)) :
    (writeBatches o ch bs).timer = ch.timer := by
  induction bs generalizing ch with
  | nil => rfl
  | cons b bs ih => exact ih _

@[simp] theorem lastCut_writeBatches (ch : KafkaChain κ) (bs : List (Batch κ)) :
    (writeBatches o ch bs).lastCutBlockNumber = ch.lastCutBlockNumber + bs.length := by
  induction bs generalizing ch with
  | nil => rfl
  | cons b bs ih =>
    rw [writeBatches, ih, length_cons]
    show ch.lastCutBlockNumber + 1 + bs.length = _
    omega

def kafkaBlocks (receivedOffset : Int) : List (Batch κ) → List (KafkaBlock κ)
  | [] => []
  | b :: bs => ⟨b, kafkaMetadata (receivedOffset - bs.length)⟩ :: kafkaBlocks receivedOffset bs

@[simp] theorem blocks_writeBatches (ch : KafkaChain κ) (bs : List (Batch κ)) :
    (writeBatches o ch bs).blocks = ch.blocks ++ kafkaBlocks o bs := by
  induction bs generalizing ch with
  | nil => simp [writeBatches, kafkaBlocks]
  | cons b bs ih =>
    rw [writeBatches, ih]
    simp [writeBlock, kafkaBlocks]

@[simp] theorem length_kafkaBlocks (bs : List (Batch κ)) :
    (kafkaBlocks o bs).length = bs.length := by
  induction bs with
  | nil => rfl
  | cons b bs ih => rw [kafkaBlocks, length_cons, ih, length_cons]

def written (ch : KafkaChain κ) : List Envelope := ch.blocks.flatMap (·.batch.messages)

theorem messages_kafkaBlocks (bs : List (Batch κ)) :
    (kafkaBlocks o bs).flatMap (·.batch.messages) = bs.flatMap (·.messages) := by
  induction bs with
  | nil => rfl
  | cons b bs ih => rw [kafkaBlocks, flatMap_cons, flatMap_cons, ih]

/-- What processing an envelope does: the batches become blocks, and the timer is set by
whether there were any. -/
theorem processEnvelope_eq (limits : BatchSize) (verdict : Option (Committer κ))
    (ch : KafkaChain κ) (env : Envelope) (offset : Int) :
    ch.processEnvelope limits verdict env offset = ⟨(ch.cutter.ordered limits verdict env).2,
        ch.blocks ++ kafkaBlocks offset (ch.cutter.ordered limits verdict env).1.batches,
        ch.lastCutBlockNumber + (ch.cutter.ordered limits verdict env).1.batches.length,
        if (ch.cutter.ordered limits verdict env).1.batches = [] then verdict.isSome || ch.timer
        else false⟩ := by
  have hlen := ch.cutter.length_batches limits verdict env
  have hok := ch.cutter.ordered_ok limits verdict env
  unfold processEnvelope
  simp only [← hlen, hok, length_eq_zero_iff, timer_writeBatches, cutter_writeBatches,
    lastCut_writeBatches, blocks_writeBatches]
  split
  · rename_i hset
    rw [if_pos hset.2.1, hset.1, hset.2.1]
    simp [kafkaBlocks]
  · by_cases hb : (ch.cutter.ordered limits verdict env).1.batches = []
    · cases hv : verdict.isSome <;> cases ht : ch.timer <;> simp_all
    · simp [hb]

/-- A message to cut that is no error cuts the pending batch, or is for an earlier block. -/
theorem timeToCut_eq_ok {n : Nat} (h : ch.processTimeToCut n offset = .ok ch') :
    (n = ch.lastCutBlockNumber + 1 ∧ ch.cutter.pendingBatch ≠ [] ∧
        ch' = ⟨.new, ch.blocks ++ [⟨ch.cutter.cut.1, kafkaMetadata offset⟩],
          ch.lastCutBlockNumber + 1, false⟩) ∨
      n ≤ ch.lastCutBlockNumber ∧ ch' = ch := by
  unfold processTimeToCut at h
  dsimp only [Receiver.cut] at h
  split at h
  · rename_i hn
    split at h
    · cases h
    · rename_i hne
      cases h
      exact .inl ⟨hn, fun hnil => hne (by rw [hnil]; rfl), rfl⟩
  · split at h
    · cases h
    · cases h
      exact .inr ⟨by omega, rfl⟩

theorem processMessage_eq_ok {verdict : Envelope → Option (Committer κ)} {msg : KafkaMessage}
    (h : ch.processMessage limits verdict offset msg = .ok ch') :
    (ch' = ch ∧ msg ≠ .timeToCut (ch.lastCutBlockNumber + 1) ∧
        ∀ payload, msg = .regular payload → Envelope.unmarshal payload = none) ∨
      (msg = .timeToCut (ch.lastCutBlockNumber + 1) ∧ ch.cutter.pendingBatch ≠ [] ∧
        ch' = ⟨.new, ch.blocks ++ [⟨ch.cutter.cut.1, kafkaMetadata offset⟩],
          ch.lastCutBlockNumber + 1, false⟩) ∨
      ∃ payload env, msg = .regular payload ∧ Envelope.unmarshal payload = some env ∧
        ch' = ch.processEnvelope limits (verdict env) env offset := by
  cases msg with
  | connect | unreadable => exact .inl ⟨(ok.inj h).symm, nofun, nofun⟩
  | timeToCut n =>
    obtain ⟨hn, hne, hch⟩ | ⟨hn, hch⟩ := timeToCut_eq_ok h
    · exact .inr (.inl ⟨by rw [hn], hne, hch⟩)
    · refine .inl ⟨hch, fun hmsg => ?_, nofun⟩
      have := KafkaMessage.timeToCut.inj hmsg
      omega
  | regular payload =>
    have hch := (ok.inj h).symm
    rw [processRegular] at hch
    cases henv : Envelope.unmarshal payload with
    | none =>
      rw [henv] at hch
      refine .inl ⟨hch, nofun, fun payload' hmsg => ?_⟩
      cases hmsg
      exact henv
    | some env =>
      rw [henv] at hch
      exact .inr (.inr ⟨payload, env, rfl, henv, hch⟩)

end KafkaChain

/-- The message goes into a batch of its own after the pending ones were cut, and it does not
fill it. -/
def Receiver.Leaves (r : Receiver κ) (limits : BatchSize) (verdict : Option (Committer κ))
    (msg : Envelope) : Prop :=
  ∃ c, verdict = some c ∧ ¬ Receiver.Isolates limits c msg ∧ r.Overflows limits msg ∧
    ¬ (Receiver.new.enqueue msg c).Full limits

instance (r : Receiver κ) (limits : BatchSize) (verdict : Option (Committer κ)) (msg : Envelope) :
    Decidable (r.Leaves limits verdict msg) :=
  match verdict with
  | none => isFalse fun h => (nomatch h.choose_spec.1)
  | some c =>
    decidable_of_iff (¬ Receiver.Isolates limits c msg ∧ r.Overflows limits msg ∧
      ¬ (Receiver.new.enqueue msg c).Full limits)
      ⟨fun h => ⟨c, rfl, h⟩, fun h => Option.some.inj h.choose_spec.1 ▸ h.choose_spec.2⟩

theorem Receiver.Leaves.batches {r : Receiver κ} {verdict : Option (Committer κ)} {msg : Envelope}
    (h : r.Leaves limits verdict msg) :
    (r.ordered limits verdict msg).1.batches = [r.cut.1] ∧
      (r.ordered limits verdict msg).2.pendingBatch = [msg] := by
  obtain ⟨c, rfl, hi, ho, hf⟩ := h
  obtain ⟨hb, hr⟩ := ordered_joins (r := r) hi
  simp only [if_pos ho, if_neg hf] at hb hr
  exact ⟨by simpa using hb, by rw [hr]; rfl⟩

theorem Receiver.ordered_outcome (limits : BatchSize) (verdict : Option (Committer κ))
    (msg : Envelope) :
    ((r.ordered limits verdict msg).1.batches = [] ∧ ¬ r.Leaves limits verdict msg) ∨
      ((r.ordered limits verdict msg).1.batches ≠ [] ∧
        ((r.ordered limits verdict msg).2.pendingBatch ≠ [] ↔ r.Leaves limits verdict msg)) := by
  cases verdict with
  | none =>
    refine .inl ⟨rfl, fun h => ?_⟩
    obtain ⟨c, hc, -⟩ := h
    exact (nomatch hc)
  | some c =>
    by_cases hi : Isolates limits c msg
    · obtain ⟨hb, hr⟩ := ordered_isolates (r := r) hi
      refine .inr ⟨by simp [hb], ?_⟩
      rw [hr]
      refine iff_of_false (fun h => h ?_) fun h => ?_
      · split
        · assumption
        · rfl
      · obtain ⟨c', hc', hni, -⟩ := h
        cases hc'
        exact hni hi
    · obtain ⟨hb, hr⟩ := ordered_joins (r := r) hi
      have hleaves : r.Leaves limits (some c) msg ↔
          r.Overflows limits msg ∧ ¬ (Receiver.new.enqueue msg c).Full limits := by
        constructor
        · intro h
          obtain ⟨c', hc', -, h⟩ := h
          cases hc'
          exact h
        · intro h
          exact ⟨c, rfl, hi, h⟩
      rw [hb, hr, hleaves]
      by_cases ho : r.Overflows limits msg
      · simp only [if_pos ho]
        refine .inr ⟨by simp, ?_⟩
        by_cases hf : (Receiver.new.enqueue msg c).Full limits
        · rw [if_pos hf]
          exact iff_of_false (fun h => h rfl) fun h => h.2 hf
        · rw [if_neg hf]
          exact iff_of_true (by simp [Receiver.enqueue]) ⟨ho, hf⟩
      · simp only [if_neg ho]
        by_cases hf : (r.enqueue msg c).Full limits
        · rw [if_pos hf, if_pos hf]
          exact .inr ⟨by simp, iff_of_false (fun h => h rfl) fun h => ho h.1⟩
        · rw [if_neg hf]
          exact .inl ⟨rfl, fun h => ho h.1⟩

end FabricOev.Orderer
