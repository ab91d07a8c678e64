import FabricOev.Protos.Messages

/-!
# Cutting batches

`receiver` of the block cutter. A call with one message returns no batch, one or two: the
pending messages may have to go first because the new one does not fit or wants a block of
its own, and the new one may complete its batch.
-/

namespace FabricOev.Orderer

open Go Protos List Result Nat Bool Prod

/-- `ab.BatchSize`, the part that the cutter reads. -/
structure BatchSize where
  maxMessageCount : UInt32
  preferredMaxBytes : UInt32
deriving DecidableEq, Repr

/-- `filter.Committer`: `NoopCommitter`, or one that asks for a block of its own. -/
inductive Committer (κ : Type) where
  | noop
  | isolated (action : κ)
deriving DecidableEq, Repr

variable {κ : Type}

def Committer.isIsolated : Committer κ → Bool
  | .noop => false
  | .isolated _ => true

structure Receiver (κ : Type) where
  pendingBatch : List Envelope
  pendingBatchSizeBytes : UInt32
  pendingCommitters : List (Committer κ)
deriving DecidableEq, Repr

def Receiver.new : Receiver κ := ⟨[], 0, []⟩

def messageLength (msg : Envelope) : Nat := msg.payload.length + (msg.signature.getD []).length

def messageSizeBytes (msg : Envelope) : UInt32 := UInt32.ofNat (messageLength msg)

structure Batch (κ : Type) where
  messages : List Envelope
  committers : List (Committer κ)
deriving DecidableEq, Repr

structure Ordered (κ : Type) where
  messageBatches : List (List Envelope)
  committerBatches : List (List (Committer κ))
  ok : Bool
deriving DecidableEq, Repr

/-- `batches[i]` with `committers[i]`. -/
def Ordered.batches (o : Ordered κ) : List (Batch κ) :=
  o.messageBatches.zipWith Batch.mk o.committerBatches

namespace Receiver

def cut (r : Receiver κ) : Batch κ × Receiver κ := (⟨r.pendingBatch, r.pendingCommitters⟩, new)

/-- A cut on a condition, with its batch in the lists that are returned. -/
def cutWhen (r : Receiver κ) (p : Prop) [Decidable p] : Ordered κ × Receiver κ :=
  if p then (⟨[r.cut.1.messages], [r.cut.1.committers], true⟩, r.cut.2) else (⟨[], [], true⟩, r)

def enqueue (r : Receiver κ) (msg : Envelope) (committer : Committer κ) : Receiver κ :=
  ⟨r.pendingBatch ++ [msg], r.pendingBatchSizeBytes + messageSizeBytes msg,
    r.pendingCommitters ++ [committer]⟩

abbrev Isolates (limits : BatchSize) (committer : Committer κ) (msg : Envelope) : Prop :=
  committer.isIsolated = true ∨ limits.preferredMaxBytes < messageSizeBytes msg

/-- `messageWillOverflowBatchSizeBytes`. -/
abbrev Overflows (r : Receiver κ) (limits : BatchSize) (msg : Envelope) : Prop :=
  limits.preferredMaxBytes < r.pendingBatchSizeBytes + messageSizeBytes msg

abbrev Full (r : Receiver κ) (limits : BatchSize) : Prop :=
  limits.maxMessageCount ≤ UInt32.ofNat r.pendingBatch.length

/-- `Ordered`, with what the filters say about the message. -/
def ordered (r : Receiver κ) (limits : BatchSize) (verdict : Option (Committer κ))
    (msg : Envelope) : Ordered κ × Receiver κ :=
  match verdict with
  | none => (⟨[], [], false⟩, r)
  | some committer =>
    if Isolates limits committer msg then
      let (o, r) := r.cutWhen (0 < r.pendingBatch.length)
      (⟨o.messageBatches ++ [[msg]], o.committerBatches ++ [[committer]], true⟩, r)
    else
      let (o₁, r) := r.cutWhen (r.Overflows limits msg)
      let r := r.enqueue msg committer
      let (o₂, r) := r.cutWhen (r.Full limits)
      (⟨o₁.messageBatches ++ o₂.messageBatches, o₁.committerBatches ++ o₂.committerBatches, true⟩, r)

@[simp] theorem batches_nil (ok : Bool) : Ordered.batches (⟨[], [], ok⟩ : Ordered κ) = [] := rfl

theorem ordered_none (r : Receiver κ) (limits : BatchSize) (msg : Envelope) :
    r.ordered limits none msg = (⟨[], [], false⟩, r) := rfl

section Accepted

variable {r : Receiver κ} {limits : BatchSize} {committer : Committer κ} {msg : Envelope}

/-- A message on its own: what was pending goes before it. -/
theorem ordered_isolates (h : Isolates limits committer msg) :
    (r.ordered limits (some committer) msg).1.batches =
        (if r.pendingBatch = [] then [] else [r.cut.1]) ++ [⟨[msg], [committer]⟩] ∧
      (r.ordered limits (some committer) msg).2 = if r.pendingBatch = [] then r else new := by
  by_cases hp : r.pendingBatch = []
  · simp [ordered, h, cutWhen, hp, Ordered.batches]
  · have hlen : 0 < r.pendingBatch.length := length_pos_iff.mpr hp
    simp [ordered, h, cutWhen, hp, hlen, Ordered.batches, cut]

/-- A message that joins the pending ones, or the empty batch behind them. -/
theorem ordered_joins (h : ¬ Isolates limits committer msg) :
    let r' := (if r.Overflows limits msg then new else r).enqueue msg committer
    (r.ordered limits (some committer) msg).1.batches =
        (if r.Overflows limits msg then [r.cut.1] else []) ++
          (if r'.Full limits then [r'.cut.1] else []) ∧
      (r.ordered limits (some committer) msg).2 = if r'.Full limits then new else r' := by
  by_cases ho : r.Overflows limits msg
  · by_cases hf : ((new : Receiver κ).enqueue msg committer).Full limits
    · simp [ordered, h, cutWhen, ho, hf, Ordered.batches, cut]
    · simp [ordered, h, cutWhen, ho, hf, Ordered.batches, cut]
  · by_cases hf : (r.enqueue msg committer).Full limits
    · simp [ordered, h, cutWhen, ho, hf, Ordered.batches, cut]
    · simp [ordered, h, cutWhen, ho, hf, Ordered.batches]

variable (r limits committer msg) in
/-- The message is behind the pending ones, in the batches or still pending. -/
theorem ordered_messages :
    (r.ordered limits (some committer) msg).1.batches.flatMap (·.messages) ++
      (r.ordered limits (some committer) msg).2.pendingBatch = r.pendingBatch ++ [msg] := by
  by_cases h : Isolates limits committer msg
  · obtain ⟨hb, hr⟩ := ordered_isolates (r := r) h
    rw [hb, hr]
    by_cases hp : r.pendingBatch = []
    · simp [hp]
    · simp [hp, cut, new]
  · obtain ⟨hb, hr⟩ := ordered_joins (r := r) h
    rw [hb, hr]
    by_cases ho : r.Overflows limits msg
    · simp only [if_pos ho]
      split <;> simp [cut, enqueue, new]
    · simp only [if_neg ho]
      split <;> simp [cut, enqueue, new]

variable (limits committer msg) in
theorem ordered_committers (hpar : r.pendingCommitters.length = r.pendingBatch.length) :
    (r.ordered limits (some committer) msg).1.batches.flatMap (·.committers) ++
      (r.ordered limits (some committer) msg).2.pendingCommitters =
        r.pendingCommitters ++ [committer] := by
  by_cases h : Isolates limits committer msg
  · obtain ⟨hb, hr⟩ := ordered_isolates (r := r) h
    rw [hb, hr]
    by_cases hp : r.pendingBatch = []
    · rw [hp, length_nil, length_eq_zero_iff] at hpar
      simp [hp, hpar]
    · simp [hp, cut, new]
  · obtain ⟨hb, hr⟩ := ordered_joins (r := r) h
    rw [hb, hr]
    by_cases ho : r.Overflows limits msg
    · simp only [if_pos ho]
      split <;> simp [cut, enqueue, new]
    · simp only [if_neg ho]
      split <;> simp [cut, enqueue, new]

end Accepted

theorem ordered_ok (r : Receiver κ) (limits : BatchSize) (verdict : Option (Committer κ))
    (msg : Envelope) : (r.ordered limits verdict msg).1.ok = verdict.isSome := by
  cases verdict with
  | none => rfl
  | some committer =>
    unfold ordered
    dsimp only
    split <;> rfl

theorem length_committerBatches (r : Receiver κ) (limits : BatchSize)
    (verdict : Option (Committer κ)) (msg : Envelope) :
    (r.ordered limits verdict msg).1.committerBatches.length =
      (r.ordered limits verdict msg).1.messageBatches.length := by
  have hcut : ∀ (r : Receiver κ) (p : Prop) [Decidable p],
      (r.cutWhen p).1.committerBatches.length = (r.cutWhen p).1.messageBatches.length := by
    intro r p _
    unfold cutWhen
    split <;> rfl
  cases verdict with
  | none => rfl
  | some committer =>
    unfold ordered
    dsimp only
    split <;> simp [hcut]

end Receiver

/-! ## Runs of a receiver -/

/-- A batch that was handed out, with the limits of that moment. -/
structure Returned (κ : Type) extends Batch κ where
  limits : BatchSize
  byOrdered : Bool

/-- A receiver with what it has been given and what it has returned. -/
structure Cutting (κ : Type) where
  receiver : Receiver κ
  limits : BatchSize
  accepted : List (Envelope × Committer κ)
  returned : List (Returned κ)
  /-- The last call cut an isolated message. -/
  configCut : Bool

namespace Cutting

def init (limits : BatchSize) : Cutting κ := ⟨.new, limits, [], [], false⟩

def ordered (s : Cutting κ) (verdict : Option (Committer κ)) (msg : Envelope) : Cutting κ :=
  let (o, r) := s.receiver.ordered s.limits verdict msg
  { receiver := r
    limits := s.limits
    accepted := s.accepted ++ (verdict.map fun c => (msg, c)).toList
    returned := s.returned ++ o.batches.map fun b => ⟨b, s.limits, true⟩
    configCut := verdict.any Committer.isIsolated }

def cut (s : Cutting κ) : Cutting κ :=
  { s with
    receiver := s.receiver.cut.2
    returned := s.returned ++ [⟨s.receiver.cut.1, s.limits, false⟩]
    configCut := false }

end Cutting

theorem Cutting.receiver_ordered (s : Cutting κ) (verdict : Option (Committer κ)) (msg : Envelope) :
    (s.ordered verdict msg).receiver = (s.receiver.ordered s.limits verdict msg).2 := rfl

theorem Cutting.returned_ordered (s : Cutting κ) (verdict : Option (Committer κ)) (msg : Envelope) :
    (s.ordered verdict msg).returned = s.returned ++
      (s.receiver.ordered s.limits verdict msg).1.batches.map fun b => ⟨b, s.limits, true⟩ := rfl

def totalLength (msgs : List Envelope) : Nat := (msgs.map messageLength).sum

/-- One call. The limits change only once an isolated message has been cut. -/
inductive Cutting.Step : Cutting κ → Cutting κ → Prop
  | ordered (s : Cutting κ) (verdict : Option (Committer κ)) (msg : Envelope)
      (hsum : totalLength s.receiver.pendingBatch + messageLength msg < 2 ^ 32) :
      Step s (s.ordered verdict msg)
  | cut (s : Cutting κ) : Step s s.cut
  | config (s : Cutting κ) (limits : BatchSize) (h : s.configCut = true) :
      Step s { s with limits := limits, configCut := false }

/-- At most the allowed number of messages and bytes, or a single message. -/
def Batch.Within (b : Batch κ) (limits : BatchSize) : Prop :=
  b.messages.length = 1 ∨ b.messages.length ≤ limits.maxMessageCount.toNat ∧
      totalLength b.messages ≤ limits.preferredMaxBytes.toNat

/-- What is pending fits the limits and waits for more. -/
structure Receiver.Waiting (r : Receiver κ) (limits : BatchSize) : Prop where
  parallel : r.pendingCommitters.length = r.pendingBatch.length
  bytes : r.pendingBatchSizeBytes.toNat = totalLength r.pendingBatch
  bytes_le : totalLength r.pendingBatch ≤ limits.preferredMaxBytes.toNat
  count : r.pendingBatch = [] ∨ r.pendingBatch.length < limits.maxMessageCount.toNat
  mixed : ∀ c ∈ r.pendingCommitters, c.isIsolated = false

/-- A batch that was handed out as it should be. -/
structure Returned.Proper (b : Returned κ) : Prop where
  parallel : b.committers.length = b.messages.length
  nonempty : b.byOrdered = true → b.messages ≠ []
  within : b.Within b.limits
  alone : ∀ c ∈ b.committers, c.isIsolated = true → b.messages.length = 1

/-- Everything that was accepted is in the batches and in what is pending, in its order. -/
structure Cutting.Accounted (s : Cutting κ) : Prop where
  messages : s.returned.flatMap (·.messages) ++ s.receiver.pendingBatch = s.accepted.map fst
  committers :
    s.returned.flatMap (·.committers) ++ s.receiver.pendingCommitters = s.accepted.map snd
  proper : ∀ b ∈ s.returned, b.Proper
  waiting : s.receiver.Waiting s.limits

theorem totalLength_concat (msgs : List Envelope) (msg : Envelope) :
    totalLength (msgs ++ [msg]) = totalLength msgs + messageLength msg := by
  simp [totalLength]

theorem toNat_messageSize {msg : Envelope} (h : messageLength msg < 2 ^ 32) :
    (messageSizeBytes msg).toNat = messageLength msg := by
  rw [messageSizeBytes, UInt32.toNat_ofNat_of_lt' h]

theorem le_of_not_isolates {limits : BatchSize} {committer : Committer κ} {msg : Envelope}
    (h : ¬ Receiver.Isolates limits committer msg) (hmsg : messageLength msg < 2 ^ 32) :
    messageLength msg ≤ limits.preferredMaxBytes.toNat := by
  rw [← toNat_messageSize hmsg, ← UInt32.le_iff_toNat_le]
  exact UInt32.not_lt.mp fun h' => h (.inr h')

namespace Receiver.Waiting

variable {r : Receiver κ} {limits : BatchSize} {committer : Committer κ} {msg : Envelope}

theorem new (limits : BatchSize) : (Receiver.new : Receiver κ).Waiting limits where
  parallel := rfl
  bytes := rfl
  bytes_le := zero_le _
  count := .inl rfl
  mixed := fun _ hc => (nomatch hc)

theorem proper_cut (h : r.Waiting limits) {byOrdered : Bool}
    (hne : byOrdered = true → r.pendingBatch ≠ []) :
    Returned.Proper ⟨r.cut.1, limits, byOrdered⟩ where
  parallel := h.parallel
  nonempty := hne
  within := by
    refine .inr ⟨?_, h.bytes_le⟩
    show r.pendingBatch.length ≤ _
    obtain hnil | hlt := h.count
    · rw [hnil]
      exact zero_le _
    · exact le_of_lt hlt
  alone := fun c hc hiso => absurd hiso (by rw [h.mixed c hc]; exact false_ne_true)

/-- Without a wrap the sizes are compared as numbers. -/
theorem overflows_iff (h : r.Waiting limits)
    (hsum : totalLength r.pendingBatch + messageLength msg < 2 ^ 32) :
    r.Overflows limits msg ↔
      limits.preferredMaxBytes.toNat < totalLength r.pendingBatch + messageLength msg := by
  have hmsg : messageLength msg < 2 ^ 32 := by omega
  rw [Overflows, UInt32.lt_iff_toNat_lt, UInt32.toNat_add, h.bytes, toNat_messageSize hmsg,
    mod_eq_of_lt hsum]

/-- A message that fits is added; the batch is complete then, or waits on. -/
theorem enqueue (msg : Envelope) (h : r.Waiting limits)
    (hfit : totalLength r.pendingBatch + messageLength msg ≤ limits.preferredMaxBytes.toNat)
    (hiso : committer.isIsolated = false) :
    ((r.enqueue msg committer).Full limits →
        Returned.Proper ⟨(r.enqueue msg committer).cut.1, limits, true⟩) ∧
      (¬ (r.enqueue msg committer).Full limits → (r.enqueue msg committer).Waiting limits) := by
  have hmax := limits.maxMessageCount.toNat_lt
  have hpref := limits.preferredMaxBytes.toNat_lt
  have hlen : (r.enqueue msg committer).pendingBatch.length = r.pendingBatch.length + 1 := by
    simp [Receiver.enqueue]
  have hparallel : (r.enqueue msg committer).pendingCommitters.length =
      (r.enqueue msg committer).pendingBatch.length := by
    simp [Receiver.enqueue, h.parallel]
  have htotal : totalLength (r.enqueue msg committer).pendingBatch =
      totalLength r.pendingBatch + messageLength msg := totalLength_concat _ _
  have hmixed : ∀ c ∈ (r.enqueue msg committer).pendingCommitters, c.isIsolated = false := by
    intro c hc
    obtain hc | hc := mem_append.mp hc
    · exact h.mixed c hc
    · rw [mem_singleton.mp hc, hiso]
  have hcount : r.pendingBatch.length = 0 ∨
      r.pendingBatch.length < limits.maxMessageCount.toNat := by
    obtain hnil | hlt := h.count
    · exact .inl (by rw [hnil]; rfl)
    · exact .inr hlt
  constructor
  · intro _
    refine ⟨hparallel, fun _ => ?_, ?_, fun c hc hc' => ?_⟩
    · simp [Receiver.enqueue, Receiver.cut]
    · show (r.enqueue msg committer).pendingBatch.length = 1 ∨ _ ∧ _
      obtain hnil | hlt := hcount
      · exact .inl (by omega)
      · exact .inr ⟨le_trans (le_of_eq hlen) hlt, le_trans (le_of_eq htotal) hfit⟩
    · exact absurd hc' (by rw [hmixed c hc]; exact false_ne_true)
  · intro hfull
    have hsmall : r.pendingBatch.length + 1 < 2 ^ 32 := by obtain hnil | hlt := hcount <;> omega
    refine ⟨hparallel, ?_, by omega, .inr ?_, hmixed⟩
    · rw [htotal]
      show (r.pendingBatchSizeBytes + messageSizeBytes msg).toNat = _
      rw [UInt32.toNat_add, h.bytes, toNat_messageSize (by omega), mod_eq_of_lt (by omega)]
    · rw [Full, hlen, UInt32.le_iff_toNat_le, UInt32.toNat_ofNat_of_lt' hsmall] at hfull
      omega

end Receiver.Waiting

namespace Cutting

structure Inv (s : Cutting κ) : Prop extends s.Accounted where
  configCut : s.configCut = true → s.receiver.pendingBatch = []

theorem inv_init (limits : BatchSize) : (init limits : Cutting κ).Inv where
  messages := rfl
  committers := rfl
  proper := fun _ hb => (nomatch hb)
  waiting := .new limits
  configCut := fun _ => rfl

theorem proper_single (msg : Envelope) (c : Committer κ) (limits : BatchSize) :
    Returned.Proper ⟨⟨[msg], [c]⟩, limits, true⟩ where
  parallel := rfl
  nonempty := fun _ => cons_ne_nil _ _
  within := .inl rfl
  alone := fun _ _ _ => rfl

theorem proper_ordered {r : Receiver κ} {limits : BatchSize} {c : Committer κ} {msg : Envelope}
    (h : r.Waiting limits) (hsum : ¬ Receiver.Isolates limits c msg →
      totalLength r.pendingBatch + messageLength msg < 2 ^ 32) :
    (∀ b ∈ (r.ordered limits (some c) msg).1.batches, Returned.Proper ⟨b, limits, true⟩) ∧
      (r.ordered limits (some c) msg).2.Waiting limits := by
  by_cases hi : Receiver.Isolates limits c msg
  · obtain ⟨hb, hr⟩ := Receiver.ordered_isolates (r := r) hi
    rw [hb, hr]
    by_cases hp : r.pendingBatch = []
    · rw [if_pos hp, if_pos hp]
      exact ⟨by simpa using proper_single msg c limits, h⟩
    · rw [if_neg hp, if_neg hp]
      exact ⟨by simpa using ⟨h.proper_cut fun _ => hp, proper_single msg c limits⟩, .new limits⟩
  · obtain ⟨hb, hr⟩ := Receiver.ordered_joins (r := r) hi
    rw [hb, hr]
    specialize hsum hi
    have hiso : c.isIsolated = false := by
      rw [← not_eq_true]
      exact fun h' => hi (.inl h')
    have hfits := le_of_not_isolates hi (by omega)
    by_cases ho : r.Overflows limits msg
    · -- the pending messages go; the cutter is as if it were new
      have hne : r.pendingBatch ≠ [] := by
        intro hnil
        have hover := (h.overflows_iff hsum).mp ho
        rw [hnil] at hover
        exact absurd hover (by simp [totalLength, hfits])
      obtain ⟨hfull, hwait⟩ := (Receiver.Waiting.new limits).enqueue msg
        (by simpa [Receiver.new, totalLength] using hfits) hiso
      simp only [if_pos ho]
      by_cases hf : (Receiver.new.enqueue msg c).Full limits
      · rw [if_pos hf, if_pos hf]
        exact ⟨by simpa using ⟨h.proper_cut fun _ => hne, hfull hf⟩, .new limits⟩
      · rw [if_neg hf, if_neg hf]
        exact ⟨by simpa using h.proper_cut fun _ => hne, hwait hf⟩
    · obtain ⟨hfull, hwait⟩ := h.enqueue msg (by rw [h.overflows_iff hsum] at ho; omega) hiso
      simp only [if_neg ho]
      by_cases hf : (r.enqueue msg c).Full limits
      · rw [if_pos hf, if_pos hf]
        exact ⟨by simpa using hfull hf, .new limits⟩
      · rw [if_neg hf, if_neg hf]
        exact ⟨by simp, hwait hf⟩

variable {s : Cutting κ}

theorem inv_ordered (h : s.Inv) (verdict : Option (Committer κ)) (msg : Envelope)
    (hsum : totalLength s.receiver.pendingBatch + messageLength msg < 2 ^ 32) :
    (s.ordered verdict msg).Inv := by
  cases verdict with
  | none =>
    refine ⟨⟨?_, ?_, ?_, h.waiting⟩, fun hc => (nomatch hc)⟩
    · simpa [ordered, Receiver.ordered_none] using h.messages
    · simpa [ordered, Receiver.ordered_none] using h.committers
    · simpa [ordered, Receiver.ordered_none] using h.proper
  | some c =>
    obtain ⟨hproper, hwait⟩ := proper_ordered (c := c) h.waiting fun _ => hsum
    refine ⟨⟨?_, ?_, ?_, hwait⟩, fun hc => ?_⟩
    · have hmsgs := Receiver.ordered_messages s.receiver s.limits c msg
      show _ = (s.accepted ++ [(msg, c)]).map fst
      rw [returned_ordered, receiver_ordered, map_append, ← h.messages, append_assoc,
        map_singleton, ← hmsgs, flatMap_append, flatMap_map, append_assoc]
    · have hcs := Receiver.ordered_committers s.limits c msg h.waiting.parallel
      show _ = (s.accepted ++ [(msg, c)]).map snd
      rw [returned_ordered, receiver_ordered, map_append, ← h.committers, append_assoc,
        map_singleton, ← hcs, flatMap_append, flatMap_map, append_assoc]
    · intro b hb
      obtain hb | hb := mem_append.mp hb
      · exact h.proper b hb
      · obtain ⟨b', hb', rfl⟩ := mem_map.mp hb
        exact hproper b' hb'
    · have hi : Receiver.Isolates s.limits c msg := .inl hc
      show (s.receiver.ordered s.limits (some c) msg).2.pendingBatch = []
      rw [(Receiver.ordered_isolates hi).2]
      split
      · assumption
      · rfl

theorem inv_cut (h : s.Inv) : s.cut.Inv where
  messages := by
    show _ = s.accepted.map fst
    rw [← h.messages]
    simp [cut, Receiver.cut, Receiver.new]
  committers := by
    show _ = s.accepted.map snd
    rw [← h.committers]
    simp [cut, Receiver.cut, Receiver.new]
  proper := by
    intro b hb
    obtain hb | hb := mem_append.mp hb
    · exact h.proper b hb
    · rw [mem_singleton.mp hb]
      exact h.waiting.proper_cut fun h' => (nomatch h')
  waiting := .new s.limits
  configCut := fun h' => (nomatch h')

theorem inv_step {s s' : Cutting κ} (h : s.Inv) (hstep : Step s s') : s'.Inv := by
  cases hstep with
  | ordered verdict msg hsum => exact inv_ordered h verdict msg hsum
  | cut => exact inv_cut h
  | config limits hcut =>
    -- nothing is pending when the limits change
    have hnil := h.configCut hcut
    refine ⟨⟨h.messages, h.committers, h.proper, ?_⟩, fun h' => (nomatch h')⟩
    exact ⟨h.waiting.parallel, h.waiting.bytes, by rw [hnil]; exact zero_le _, .inl hnil,
      h.waiting.mixed⟩

/-- Whatever the calls are: nothing is lost or reordered, every batch is within the limits
that held when it was returned, and has its committers. -/
theorem accounted_of_run (limits : BatchSize) (s : Cutting κ)
    (h : Relation.ReflTransGen Step (init limits) s) :
    s.Accounted ∧ ∀ (verdict : Option (Committer κ)) (msg : Envelope),
      (s.receiver.ordered s.limits verdict msg).1.committerBatches.length =
        (s.receiver.ordered s.limits verdict msg).1.messageBatches.length := by
  have hinv : s.Inv := by
    induction h with
    | refl => exact inv_init limits
    | tail _ hstep ih => exact inv_step ih hstep
  exact ⟨hinv.toAccounted, s.receiver.length_committerBatches s.limits⟩

/-- A message, one that is isolated, and new limits. -/
theorem accounted_new_limits :
    Accounted ({ ((init ⟨3, 100⟩ : Cutting Unit).ordered (some .noop) ⟨[1, 2], none⟩).ordered
      (some (.isolated ())) ⟨[3], some [4]⟩ with limits := ⟨1, 50⟩, configCut := false }) := by
  refine (accounted_of_run ⟨3, 100⟩ _ ?_).1
  refine .tail (.tail (.single (.ordered _ (some .noop) ⟨[1, 2], none⟩ ?_))
    (.ordered _ (some (.isolated ())) ⟨[3], some [4]⟩ ?_)) (.config _ ⟨1, 50⟩ rfl)
  · decide
  · decide

end Cutting

/-! ## Sums of 32 bits -/

/-- `ab.BatchSize`, with the bound that the size filter puts on a message. -/
structure ConfiguredBatchSize extends BatchSize where
  absoluteMaxBytes : UInt32

def ConfiguredBatchSize.validateBatchSize (b : ConfiguredBatchSize) : Result Unit :=
  if b.maxMessageCount = 0 then
    errorf "Attempted to set the batch size max message count to an invalid value: 0"
  else if b.absoluteMaxBytes = 0 then
    errorf "Attempted to set the batch size absolute max bytes to an invalid value: 0"
  else if b.preferredMaxBytes = 0 then
    errorf "Attempted to set the batch size preferred max bytes to an invalid value: 0"
  else if b.absoluteMaxBytes < b.preferredMaxBytes then
    fail (.text (str "Attempted to set the batch size preferred max bytes (" ++
      formatNat b.preferredMaxBytes.toNat ++ str ") greater than the absolute max bytes (" ++
      formatNat b.absoluteMaxBytes.toNat ++ str ")."))
  else .ok ()

namespace Receiver

/-- The receivers after calls with messages that are not larger than the configured bound. -/
inductive Reached (b : ConfiguredBatchSize) : Receiver κ → Prop
  | new : Reached b new
  | ordered {r : Receiver κ} (h : Reached b r) (verdict : Option (Committer κ)) (msg : Envelope)
      (hmsg : messageLength msg ≤ b.absoluteMaxBytes.toNat) :
      Reached b (r.ordered b.toBatchSize verdict msg).2
  | cut {r : Receiver κ} (h : Reached b r) : Reached b r.cut.2

/-- The sums of a call are the true ones, and the pending messages are cut by them. -/
structure SumsExact (r : Receiver κ) (limits : BatchSize) (committer : Committer κ)
    (msg : Envelope) : Prop where
  message : (messageSizeBytes msg).toNat = messageLength msg
  pending : r.pendingBatchSizeBytes.toNat = totalLength r.pendingBatch
  sum : ¬ Isolates limits committer msg → (r.pendingBatchSizeBytes + messageSizeBytes msg).toNat =
    totalLength r.pendingBatch + messageLength msg
  cuts : ¬ Isolates limits committer msg → (r.Overflows limits msg ↔
    limits.preferredMaxBytes.toNat < totalLength r.pendingBatch + messageLength msg)

variable {b : ConfiguredBatchSize} {r : Receiver κ} {committer : Committer κ} {msg : Envelope}

theorem Waiting.sum_lt (h : r.Waiting b.toBatchSize)
    (hb : b.maxMessageCount = 1 ∨ b.preferredMaxBytes.toNat < 2 ^ 31)
    (hmsg : messageLength msg ≤ b.absoluteMaxBytes.toNat)
    (hi : ¬ Isolates b.toBatchSize committer msg) :
    totalLength r.pendingBatch + messageLength msg < 2 ^ 32 := by
  have habs := b.absoluteMaxBytes.toNat_lt
  rcases hb with hb | hb
  · -- nothing is pending when every message fills a batch
    have hnil : r.pendingBatch = [] := by
      rcases h.count with hnil | hlt
      · exact hnil
      · rw [hb] at hlt
        exact length_eq_zero_iff.mp (lt_one_iff.mp hlt)
    rw [hnil]
    show 0 + _ < _
    omega
  · have hpending := h.bytes_le
    have hfits := le_of_not_isolates hi (by omega)
    omega

theorem Reached.waiting (hb : b.maxMessageCount = 1 ∨ b.preferredMaxBytes.toNat < 2 ^ 31)
    (h : r.Reached b) : r.Waiting b.toBatchSize := by
  induction h with
  | new => exact .new _
  | ordered _ verdict msg hmsg ih =>
    cases verdict with
    | none => exact ih
    | some c => exact (Cutting.proper_ordered ih (ih.sum_lt hb hmsg)).2
  | cut => exact .new _

/-- A message that fills a batch by its size waits for others, and another one like it is
added to it. -/
theorem sum_twice {limits : BatchSize} (hmax : 1 < limits.maxMessageCount.toNat)
    (hmsg : messageLength msg = limits.preferredMaxBytes.toNat) :
    let r : Receiver κ := (new.ordered limits (some .noop) msg).2
    totalLength r.pendingBatch + messageLength msg = 2 * limits.preferredMaxBytes.toNat ∧
      ¬ Isolates limits (.noop : Committer κ) msg ∧
      (r.pendingBatchSizeBytes + messageSizeBytes msg).toNat =
        2 * limits.preferredMaxBytes.toNat % 2 ^ 32 := by
  have hsize : messageSizeBytes msg = limits.preferredMaxBytes := by
    rw [messageSizeBytes, hmsg, UInt32.ofNat_toNat]
  have hi : ¬ Isolates limits (.noop : Committer κ) msg := by
    simp [Isolates, Committer.isIsolated, hsize, UInt32.lt_irrefl]
  have ho : ¬ (new : Receiver κ).Overflows limits msg := by
    simp [Overflows, new, hsize, UInt32.lt_irrefl]
  have hf : ¬ ((new : Receiver κ).enqueue msg .noop).Full limits := by exact not_le.mpr hmax
  have hr : (new.ordered limits (some .noop) msg).2 = (new : Receiver κ).enqueue msg .noop := by
    rw [(ordered_joins hi).2, if_neg ho, if_neg hf]
  rw [hr]
  refine ⟨?_, hi, ?_⟩
  · rw [two_mul, ← hmsg]
    simp [enqueue, new, totalLength]
  · show (0 + messageSizeBytes msg + messageSizeBytes msg).toNat = _
    rw [hsize, UInt32.zero_add, UInt32.toNat_add, two_mul]

/-- The sums are exact for all messages exactly if every batch has one message or two of the
largest that share a batch stay below `2 ^ 32` bytes. -/
theorem sumsExact_iff (b : ConfiguredBatchSize) (hvalid : b.validateBatchSize = .ok ()) :
    (∀ r : Receiver κ, r.Reached b → ∀ committer msg, messageLength msg ≤ b.absoluteMaxBytes.toNat →
          r.SumsExact b.toBatchSize committer msg) ↔
      b.maxMessageCount = 1 ∨ b.preferredMaxBytes.toNat < 2 ^ 31 := by
  have habs := b.absoluteMaxBytes.toNat_lt
  constructor
  · intro hexact
    by_contra hb
    push Not at hb
    obtain ⟨hcount, hlarge⟩ := hb
    simp only [ConfiguredBatchSize.validateBatchSize, errorf, fail, ite_error_eq_ok] at hvalid
    obtain ⟨hzero, -, -, hle, -⟩ := hvalid
    let msg : Envelope := ⟨replicate b.preferredMaxBytes.toNat 0, none⟩
    have hmsg : messageLength msg = b.preferredMaxBytes.toNat := by simp [messageLength, msg]
    have hfits : messageLength msg ≤ b.absoluteMaxBytes.toNat := by
      rw [UInt32.lt_iff_toNat_lt] at hle
      omega
    have hmax : 1 < b.maxMessageCount.toNat := by
      have h0 : b.maxMessageCount.toNat ≠ 0 := fun h => hzero (UInt32.toNat_inj.mp h)
      have h1 : b.maxMessageCount.toNat ≠ 1 := fun h => hcount (UInt32.toNat_inj.mp h)
      omega
    obtain ⟨htotal, hi, hsum⟩ := sum_twice (κ := κ) hmax hmsg
    have htrue := (hexact _ (.ordered .new (some .noop) msg hfits) .noop msg hfits).sum hi
    omega
  · intro hb r hr committer msg hmsg
    have hw := hr.waiting hb
    have hsize : (messageSizeBytes msg).toNat = messageLength msg :=
      toNat_messageSize (by omega)
    refine ⟨hsize, hw.bytes, fun hi => ?_, fun hi => hw.overflows_iff (hw.sum_lt hb hmsg hi)⟩
    rw [UInt32.toNat_add, hw.bytes, hsize, mod_eq_of_lt (hw.sum_lt hb hmsg hi)]

/-- The sizes of the sample configuration. -/
theorem sumsExact_sample :
    let b : ConfiguredBatchSize := ⟨⟨10, 524288⟩, 10485760⟩
    let r : Receiver Unit := (new.ordered b.toBatchSize (some .noop) ⟨[1, 2], some [3]⟩).2
    r.pendingBatch ≠ [] ∧ r.SumsExact b.toBatchSize .noop ⟨[4], none⟩ := by
  intro b r
  refine ⟨by decide, (sumsExact_iff b (by decide)).mpr (by decide) r ?_ .noop _ (by decide)⟩
  exact .ordered .new (some .noop) _ (by decide)

/-- Two messages of `2 ^ 31` bytes add up to 0: the second does not overflow the batch. -/
theorem two_halves_share_batch :
    let b : ConfiguredBatchSize := ⟨⟨10, 2147483648⟩, 2147483648⟩
    let msg : Envelope := ⟨replicate 2147483648 0, none⟩
    let r : Receiver Unit := (new.ordered b.toBatchSize (some .noop) msg).2
    b.validateBatchSize = .ok () ∧ messageLength msg = b.absoluteMaxBytes.toNat ∧ r.Reached b ∧
      ¬ Isolates b.toBatchSize (.noop : Committer Unit) msg ∧
      ¬ r.Overflows b.toBatchSize msg ∧
      totalLength r.pendingBatch + messageLength msg = 2 * b.preferredMaxBytes.toNat := by
  intro b msg
  have hmsg : messageLength msg = b.preferredMaxBytes.toNat := by
    rw [messageLength, length_replicate]
    rfl
  clear_value msg
  have hmax : 1 < b.maxMessageCount.toNat := by decide
  obtain ⟨htotal, hi, hsum⟩ := sum_twice (κ := Unit) hmax hmsg
  refine ⟨by decide, hmsg, .ordered .new (some .noop) msg (le_of_eq hmsg), hi, ?_, htotal⟩
  rw [Overflows, UInt32.lt_iff_toNat_lt, hsum]
  decide

end Receiver

end FabricOev.Orderer
