import FabricOev.Orderer.Consenters

/-!
# Orderers of one partition

Every Kafka orderer of a channel consumes the same messages and writes its own blocks. What
its filters and limits say is a function of the configuration that its blocks have committed,
so that without restarts everything but the timer is a function of the messages consumed.
-/

namespace FabricOev.Orderer

open Go Protos List KafkaChain Option

variable {κ γ : Type}

/-! ## Tidy cutters -/

/-- The message gets a batch of its own from a cutter that has nothing pending. -/
abbrev Receiver.Alone (limits : BatchSize) (c : Committer κ) (msg : Envelope) : Prop :=
  Receiver.Isolates limits c msg ∨ (Receiver.new.enqueue msg c).Full limits

/-- A cutter with nothing pending is like a new one, and what is pending changes no
configuration. -/
structure Receiver.Tidy (r : Receiver κ) : Prop where
  empty : r.pendingBatch = [] → r = .new
  noop : ∀ c ∈ r.pendingCommitters, c = .noop

namespace Receiver.Tidy

theorem new : (Receiver.new : Receiver κ).Tidy := ⟨fun _ => rfl, fun _ hc => (nomatch hc)⟩

variable {r : Receiver κ} {limits : BatchSize} {c : Committer κ} {msg : Envelope}

theorem enqueue (h : r.Tidy) (hc : c = .noop) : (r.enqueue msg c).Tidy := by
  refine ⟨fun hnil => ?_, fun c' hc' => ?_⟩
  · exact absurd hnil (by simp [Receiver.enqueue])
  · obtain hc' | hc' := mem_append.mp hc'
    · exact h.noop c' hc'
    · rw [mem_singleton.mp hc', hc]

theorem not_overflows_new (h : ¬ Receiver.Isolates limits c msg) :
    ¬ (Receiver.new : Receiver κ).Overflows limits msg := by
  intro ho
  refine h (.inr ?_)
  simpa [Receiver.Overflows, Receiver.new] using ho

/-- It is kept, or completes the batch, or gets a batch of its own, or is left when the others are
cut. -/
theorem ordered_cases (h : r.Tidy) (limits : BatchSize) (c : Committer κ) (msg : Envelope) :
    (c = .noop ∧ (r.ordered limits (some c) msg).1.batches = [] ∧
        (r.ordered limits (some c) msg).2 = r.enqueue msg c) ∨
      (c = .noop ∧ (r.enqueue msg c).Full limits ∧
        (r.ordered limits (some c) msg).1.batches = [(r.enqueue msg c).cut.1] ∧
        (r.ordered limits (some c) msg).2 = .new) ∨
      (Receiver.Alone limits c msg ∧ (r.ordered limits (some c) msg).1.batches =
          (if r.pendingBatch = [] then [] else [r.cut.1]) ++ [⟨[msg], [c]⟩] ∧
        (r.ordered limits (some c) msg).2 = .new) ∨
      (c = .noop ∧ r.Leaves limits (some c) msg ∧
        (r.ordered limits (some c) msg).1.batches = [r.cut.1] ∧
        (r.ordered limits (some c) msg).2 = Receiver.new.enqueue msg c) := by
  by_cases hi : Receiver.Isolates limits c msg
  · obtain ⟨hb, hr⟩ := Receiver.ordered_isolates (r := r) hi
    refine .inr (.inr (.inl ⟨.inl hi, hb, ?_⟩))
    rw [hr]
    split
    · rename_i hnil
      exact h.empty hnil
    · rfl
  · have hc : c = .noop := by
      cases c with
      | noop => rfl
      | isolated a => exact absurd (.inl rfl) hi
    obtain ⟨hb, hr⟩ := Receiver.ordered_joins (r := r) hi
    by_cases ho : r.Overflows limits msg
    · have hne : r.pendingBatch ≠ [] := by
        intro hnil
        rw [h.empty hnil] at ho
        exact not_overflows_new hi ho
      simp only [if_pos ho] at hb hr
      by_cases hf : (Receiver.new.enqueue msg c).Full limits
      · rw [if_pos hf] at hb hr
        refine .inr (.inr (.inl ⟨.inr hf, ?_, hr⟩))
        rw [hb, if_neg hne]
        rfl
      · rw [if_neg hf] at hb hr
        exact .inr (.inr (.inr ⟨hc, ⟨c, rfl, hi, ho, hf⟩, by simpa using hb, hr⟩))
    · simp only [if_neg ho] at hb hr
      by_cases hf : (r.enqueue msg c).Full limits
      · rw [if_pos hf] at hb hr
        exact .inr (.inl ⟨hc, hf, by simpa using hb, hr⟩)
      · rw [if_neg hf] at hb hr
        exact .inl ⟨hc, by simpa using hb, hr⟩

theorem ordered (h : r.Tidy) (limits : BatchSize) (verdict : Option (Committer κ))
    (msg : Envelope) : (r.ordered limits verdict msg).2.Tidy := by
  cases verdict with
  | none => exact h
  | some c =>
    obtain ⟨hc, -, hr⟩ | ⟨-, -, -, hr⟩ | ⟨-, -, hr⟩ | ⟨hc, -, -, hr⟩ := h.ordered_cases limits c msg
    · rw [hr]
      exact h.enqueue hc
    · rw [hr]
      exact .new
    · rw [hr]
      exact .new
    · rw [hr]
      exact Tidy.new.enqueue hc

end Receiver.Tidy

/-- From a new cutter, a message that is to be alone is the only batch. -/
theorem Receiver.ordered_new_alone {limits : BatchSize} {c : Committer κ} {msg : Envelope}
    (h : Receiver.Alone limits c msg) :
    ((Receiver.new : Receiver κ).ordered limits (some c) msg).1.batches = [⟨[msg], [c]⟩] ∧
      ((Receiver.new : Receiver κ).ordered limits (some c) msg).2 = .new := by
  obtain hi | hf := h
  · obtain ⟨hb, hr⟩ := ordered_isolates (r := .new) hi
    exact ⟨hb, hr⟩
  · by_cases hi : Isolates limits c msg
    · obtain ⟨hb, hr⟩ := ordered_isolates (r := .new) hi
      exact ⟨hb, hr⟩
    · obtain ⟨hb, hr⟩ := ordered_joins (r := .new) hi
      simp only [if_neg (Tidy.not_overflows_new hi), if_pos hf] at hb hr
      exact ⟨hb, hr⟩

theorem Receiver.ordered_new_kept {limits : BatchSize} {c : Committer κ} {msg : Envelope}
    (h : ¬ Receiver.Alone limits c msg) :
    c = .noop ∧ ((Receiver.new : Receiver κ).ordered limits (some c) msg).1.batches = [] ∧
      ((Receiver.new : Receiver κ).ordered limits (some c) msg).2 = Receiver.new.enqueue msg c := by
  obtain hkept | ⟨-, hf, -⟩ | ⟨halone, -⟩ | ⟨-, ⟨c', hc', hi, ho, -⟩, -⟩ :=
    Tidy.new.ordered_cases limits c msg
  · exact hkept
  · exact absurd (.inr hf) h
  · exact absurd halone h
  · exact absurd ho (Tidy.not_overflows_new hi)

def KafkaMessage.envelope? : KafkaMessage → Option Envelope
  | .regular payload => Envelope.unmarshal payload
  | _ => none

/-- What the filters and the limits of a channel depend on. -/
structure Channel (κ γ : Type) where
  genesis : γ
  apply : γ → Envelope → Option (Committer κ)
  batchSize : γ → BatchSize
  commit : γ → κ → γ

namespace Channel

variable (chan : Channel κ γ)

/-- `Commit`. -/
def commitOne (config : γ) : Committer κ → γ
  | .noop => config
  | .isolated action => chan.commit config action

def config (blocks : List (KafkaBlock κ)) : γ :=
  (blocks.flatMap (·.batch.committers)).foldl chan.commitOne chan.genesis

/-- A message with the filters and limits of the blocks that are written. -/
def process (ch : KafkaChain κ) (offset : Nat) (msg : KafkaMessage) :
    Except TimeToCutError (KafkaChain κ) :=
  ch.processMessage (chan.batchSize (chan.config ch.blocks)) (chan.apply (chan.config ch.blocks))
    offset msg

def accepts (blocks : List (KafkaBlock κ)) (msg : KafkaMessage) : List Envelope :=
  msg.envelope?.toList.filter fun env => (chan.apply (chan.config blocks) env).isSome

end Channel

def openChannel (limits : BatchSize) : Channel Unit Unit :=
  ⟨(), fun _ _ => some .noop, fun _ => limits, fun _ _ => ()⟩

/-! ## What a message does, the timer aside -/

def KafkaChain.untimed (ch : KafkaChain κ) : KafkaChain κ := { ch with timer := false }

theorem blocks_untimed (ch : KafkaChain κ) : ch.blocks = ch.untimed.blocks := rfl

theorem cutter_untimed (ch : KafkaChain κ) : ch.cutter = ch.untimed.cutter := rfl

namespace Channel

variable {chan : Channel κ γ} {ch ch' : KafkaChain κ} {offset : Nat} {msg : KafkaMessage}
  {env : Envelope} {ch₂ : KafkaChain κ}

theorem process_envelope (h : msg.envelope? = some env) :
    chan.process ch offset msg = .ok (ch.processEnvelope (chan.batchSize (chan.config ch.blocks))
      (chan.apply (chan.config ch.blocks) env) env offset) := by
  cases msg with
  | regular payload =>
    have h' : Envelope.unmarshal payload = some env := h
    rw [process, processMessage, processRegular, h']
  | _ => cases h

variable (chan offset msg) in
theorem process_untimed (h : ch.untimed = ch₂.untimed) :
    (chan.process ch offset msg).map KafkaChain.untimed =
      (chan.process ch₂ offset msg).map KafkaChain.untimed := by
  obtain ⟨cutter, blocks, last, timer⟩ := ch
  obtain ⟨cutter2, blocks2, last2, timer2⟩ := ch₂
  obtain ⟨rfl, rfl, rfl, -⟩ := KafkaChain.mk.inj h
  cases msg with
  | connect | unreadable => rfl
  | timeToCut n =>
    simp only [process, processMessage, processTimeToCut]
    split
    · split <;> rfl
    · split <;> rfl
  | regular payload =>
    simp only [process, processMessage, processRegular]
    cases Envelope.unmarshal payload with
    | none => rfl
    | some env =>
      simp only [processEnvelope_eq]
      rfl

theorem process_congr (hsame : ch.untimed = ch₂.untimed)
    (h : chan.process ch offset msg = .ok ch') :
    ∃ ch2', chan.process ch₂ offset msg = .ok ch2' ∧ ch'.untimed = ch2'.untimed := by
  have hmap := process_untimed chan offset msg hsame
  rw [h] at hmap
  cases hch2 : chan.process ch₂ offset msg with
  | error e =>
    rw [hch2] at hmap
    cases hmap
  | ok ch2' =>
    rw [hch2] at hmap
    exact ⟨ch2', rfl, Except.ok.inj hmap⟩

theorem process_cases (h : chan.process ch offset msg = .ok ch') :
    (chan.accepts ch.blocks msg = [] ∧ ch'.untimed = ch.untimed) ∨
      (chan.accepts ch.blocks msg = [] ∧ ch.cutter.pendingBatch ≠ [] ∧
        ch'.untimed = ⟨.new, ch.blocks ++ [⟨ch.cutter.cut.1, kafkaMetadata offset⟩],
          ch.lastCutBlockNumber + 1, false⟩) ∨
      ∃ env c, msg.envelope? = some env ∧ chan.apply (chan.config ch.blocks) env = some c ∧
        chan.accepts ch.blocks msg = [env] ∧
        ch'.untimed = ⟨(ch.cutter.ordered (chan.batchSize (chan.config ch.blocks)) (some c) env).2,
            ch.blocks ++ KafkaChain.kafkaBlocks offset
              (ch.cutter.ordered (chan.batchSize (chan.config ch.blocks)) (some c) env).1.batches,
            ch.lastCutBlockNumber + (ch.cutter.ordered (chan.batchSize (chan.config ch.blocks))
                (some c) env).1.batches.length, false⟩ := by
  obtain ⟨hsame, -, hnone⟩ | ⟨rfl, hne, hcut⟩ | ⟨payload, env, rfl, henv, hproc⟩ :=
    processMessage_eq_ok h
  · refine .inl ⟨?_, by rw [hsame]⟩
    cases msg with
    | regular payload =>
      have henv : (KafkaMessage.regular payload).envelope? = none := hnone payload rfl
      rw [accepts, henv]
      rfl
    | _ => rfl
  · exact .inr (.inl ⟨rfl, hne, by rw [hcut]; rfl⟩)
  · have henv' : (KafkaMessage.regular payload).envelope? = some env := henv
    rw [processEnvelope_eq] at hproc
    cases hv : chan.apply (chan.config ch.blocks) env with
    | none =>
      rw [hv] at hproc
      refine .inl ⟨by simp [accepts, henv', hv], ?_⟩
      rw [hproc, Receiver.ordered_none]
      simp [untimed, kafkaBlocks]
    | some c =>
      rw [hv] at hproc
      exact .inr (.inr ⟨env, c, henv', hv, by simp [accepts, henv', hv], by rw [hproc]; rfl⟩)

variable (ch offset)

theorem process_accepted {c : Committer κ} (henv : msg.envelope? = some env)
    (hc : chan.apply (chan.config ch.blocks) env = some c) :
    ∃ ch', chan.process ch offset msg = .ok ch' ∧ ch'.untimed =
        ⟨(ch.cutter.ordered (chan.batchSize (chan.config ch.blocks)) (some c) env).2,
          ch.blocks ++ KafkaChain.kafkaBlocks offset
            (ch.cutter.ordered (chan.batchSize (chan.config ch.blocks)) (some c) env).1.batches,
          ch.lastCutBlockNumber + (ch.cutter.ordered (chan.batchSize (chan.config ch.blocks))
              (some c) env).1.batches.length, false⟩ := by
  refine ⟨_, process_envelope henv, ?_⟩
  rw [hc, processEnvelope_eq]
  rfl

theorem process_rejected (henv : msg.envelope? = some env)
    (hc : chan.apply (chan.config ch.blocks) env = none) :
    ∃ ch', chan.process ch offset msg = .ok ch' ∧ ch'.untimed = ch.untimed := by
  refine ⟨_, process_envelope henv, ?_⟩
  rw [hc, processEnvelope_eq, Receiver.ordered_none]
  simp [untimed, kafkaBlocks]

variable {ch offset}

theorem process_held (h : chan.process ch offset msg = .ok ch') :
    ch'.written ++ ch'.cutter.pendingBatch =
      ch.written ++ ch.cutter.pendingBatch ++ chan.accepts ch.blocks msg := by
  have hfields : ∀ {x y : KafkaChain κ}, x.untimed = y →
      x.cutter = y.cutter ∧ x.blocks = y.blocks := by
    intro x y hxy
    rw [← hxy]
    exact ⟨rfl, rfl⟩
  obtain ⟨hacc, hch⟩ | ⟨hacc, -, hch⟩ | ⟨env, c, -, -, hacc, hch⟩ := process_cases h
  · obtain ⟨hcutter, hblocks⟩ := hfields hch
    rw [written, hcutter, hblocks, hacc, append_nil]
    rfl
  · obtain ⟨hcutter, hblocks⟩ := hfields hch
    rw [written, hcutter, hblocks, hacc]
    simp [written, Receiver.new, Receiver.cut]
  · obtain ⟨hcutter, hblocks⟩ := hfields hch
    rw [written, hcutter, hblocks, hacc, flatMap_append,
      messages_kafkaBlocks, written, append_assoc,
      Receiver.ordered_messages, append_assoc]

theorem config_append (blocks bs : List (KafkaBlock κ)) :
    chan.config (blocks ++ bs) =
      (bs.flatMap (·.batch.committers)).foldl chan.commitOne (chan.config blocks) := by
  rw [config, flatMap_append, foldl_append]
  rfl

/-- A block of a tidy cutter changes no configuration. -/
theorem config_cut (h : ch.cutter.Tidy) (metadata : Option Int) :
    chan.config (ch.blocks ++ [⟨ch.cutter.cut.1, metadata⟩]) = chan.config ch.blocks := by
  rw [config_append]
  have hnoop : ∀ (cs : List (Committer κ)) (g : γ), (∀ c ∈ cs, c = .noop) →
      cs.foldl chan.commitOne g = g := by
    intro cs g hcs
    induction cs with
    | nil => rfl
    | cons c cs ih =>
      rw [foldl_cons, hcs c mem_cons_self]
      exact ih fun x hx => hcs x (mem_cons_of_mem _ hx)
  rw [flatMap_singleton]
  exact hnoop _ _ h.noop

end Channel

/-! ## An orderer that is never restarted -/

/-- An orderer, and the offset of the message it consumes next. -/
structure KafkaOrderer (κ : Type) where
  chain : KafkaChain κ
  offset : Nat

def KafkaOrderer.new : KafkaOrderer κ := ⟨.new, 0⟩

def KafkaOrderer.held (o : KafkaOrderer κ) : List Envelope :=
  o.chain.written ++ o.chain.cutter.pendingBatch

structure Straight (κ : Type) extends KafkaOrderer κ where
  accepted : List Envelope
  stopped : Bool

namespace Straight

variable (chan : Channel κ γ)

def take (s : Straight κ) (msg : KafkaMessage) : Straight κ :=
  if s.stopped then s
  else
    match chan.process s.chain s.offset msg with
    | .error _ => { s with stopped := true }
    | .ok ch => ⟨⟨ch, s.offset + 1⟩, s.accepted ++ chan.accepts s.chain.blocks msg, false⟩

def after (msgs : List KafkaMessage) : Straight κ := msgs.foldl (take chan) ⟨.new, [], false⟩

end Straight

namespace Straight

variable (chan : Channel κ γ)

theorem after_concat (msgs : List KafkaMessage) (msg : KafkaMessage) :
    after chan (msgs ++ [msg]) = (after chan msgs).take chan msg := by
  rw [after, foldl_append]
  rfl

variable {chan} {s : Straight κ} {msg : KafkaMessage} {ch : KafkaChain κ}

theorem take_ok (hrun : s.stopped = false) (h : chan.process s.chain s.offset msg = .ok ch) :
    s.take chan msg =
      ⟨⟨ch, s.offset + 1⟩, s.accepted ++ chan.accepts s.chain.blocks msg, false⟩ := by
  rw [take, hrun, h]
  rfl

theorem take_error {e : TimeToCutError} (hrun : s.stopped = false)
    (h : chan.process s.chain s.offset msg = .error e) :
    s.take chan msg = { s with stopped := true } := by
  rw [take, hrun, h]
  rfl

theorem take_stopped (h : s.stopped = true) : s.take chan msg = s := by
  rw [take, h]
  rfl

theorem take_cases (chan : Channel κ γ) (s : Straight κ) (msg : KafkaMessage) :
    (s.stopped = true ∧ s.take chan msg = s) ∨
      (s.stopped = false ∧ (∃ e, chan.process s.chain s.offset msg = .error e) ∧
        s.take chan msg = { s with stopped := true }) ∨
      ∃ ch, s.stopped = false ∧ chan.process s.chain s.offset msg = .ok ch ∧ s.take chan msg =
          ⟨⟨ch, s.offset + 1⟩, s.accepted ++ chan.accepts s.chain.blocks msg, false⟩ := by
  cases hs : s.stopped with
  | true => exact .inl ⟨rfl, take_stopped hs⟩
  | false =>
    cases hch : chan.process s.chain s.offset msg with
    | error e => exact .inr (.inl ⟨rfl, ⟨e, rfl⟩, take_error hs hch⟩)
    | ok ch => exact .inr (.inr ⟨ch, rfl, rfl, take_ok hs hch⟩)

structure Sound (s : Straight κ) (n : Nat) : Prop where
  tidy : s.chain.cutter.Tidy
  lastCut : s.chain.lastCutBlockNumber = s.chain.blocks.length
  held : s.held = s.accepted
  offset : s.stopped = false → s.offset = n
  pending : s.chain.cutter.pendingBatch ≠ [] → s.offset ≠ 0

theorem sound_after (chan : Channel κ γ) (msgs : List KafkaMessage) :
    (after chan msgs).Sound msgs.length := by
  induction msgs using reverseRecOn with
  | nil => exact ⟨.new, rfl, rfl, fun _ => rfl, fun h => absurd rfl h⟩
  | append_singleton msgs msg ih =>
    rw [after_concat, length_append, length_singleton]
    obtain ⟨hstop, heq⟩ | ⟨-, -, heq⟩ | ⟨ch, hrun, hch, heq⟩ := take_cases chan (after chan msgs) msg
    · rw [heq]
      exact ⟨ih.tidy, ih.lastCut, ih.held, fun h => (nomatch hstop.symm.trans h), ih.pending⟩
    · rw [heq]
      exact ⟨ih.tidy, ih.lastCut, ih.held, fun h => (nomatch h), ih.pending⟩
    · rw [heq]
      have hheld := Channel.process_held hch
      refine ⟨?_, ?_, ?_, fun _ => by show (after chan msgs).offset + 1 = _; rw [ih.offset hrun],
        fun _ => Nat.succ_ne_zero _⟩
      · obtain ⟨-, hun⟩ | ⟨-, -, hun⟩ | ⟨env, c, -, -, -, hun⟩ := Channel.process_cases hch
        · rw [show ch.cutter = ch.untimed.cutter from rfl, hun]
          exact ih.tidy
        · rw [show ch.cutter = ch.untimed.cutter from rfl, hun]
          exact .new
        · rw [show ch.cutter = ch.untimed.cutter from rfl, hun]
          exact ih.tidy.ordered _ _ _
      · have hlast := ih.lastCut
        obtain ⟨-, hun⟩ | ⟨-, -, hun⟩ | ⟨env, c, -, -, -, hun⟩ := Channel.process_cases hch
        · show ch.untimed.lastCutBlockNumber = ch.untimed.blocks.length
          rw [hun]
          exact hlast
        · show ch.untimed.lastCutBlockNumber = ch.untimed.blocks.length
          rw [hun]
          simp [hlast]
        · show ch.untimed.lastCutBlockNumber = ch.untimed.blocks.length
          rw [hun]
          simp [hlast]
      · show ch.written ++ ch.cutter.pendingBatch = _
        rw [hheld, ← ih.held]
        rfl

theorem blocks_after_append (chan : Channel κ γ) (msgs rest : List KafkaMessage) :
    (after chan msgs).chain.blocks <+: (after chan (msgs ++ rest)).chain.blocks := by
  induction rest using reverseRecOn with
  | nil => rw [append_nil]
  | append_singleton rest msg ih =>
    refine ih.trans ?_
    rw [← append_assoc, after_concat]
    obtain ⟨-, heq⟩ | ⟨-, -, heq⟩ | ⟨ch, -, hch, heq⟩ :=
      take_cases chan (after chan (msgs ++ rest)) msg
    · rw [heq]
    · rw [heq]
    · rw [heq]
      obtain ⟨-, hun⟩ | ⟨-, -, hun⟩ | ⟨env, c, -, -, -, hun⟩ := Channel.process_cases hch
      · show _ <+: ch.untimed.blocks
        rw [hun]
        exact prefix_refl _
      · show _ <+: ch.untimed.blocks
        rw [hun]
        exact prefix_append _ _
      · show _ <+: ch.untimed.blocks
        rw [hun]
        exact prefix_append _ _

theorem after_append_stopped {msgs : List KafkaMessage} (h : (after chan msgs).stopped = true)
    (rest : List KafkaMessage) : after chan (msgs ++ rest) = after chan msgs := by
  induction rest using reverseRecOn with
  | nil => rw [append_nil]
  | append_singleton rest msg ih => rw [← append_assoc, after_concat, ih, take_stopped h]

end Straight

section Partition

variable {chan : Channel κ γ} {msgs : List KafkaMessage} {msg : KafkaMessage} {n : Nat}

theorem after_take_succ (h : msgs[n]? = some msg) :
    Straight.after chan (msgs.take (n + 1)) =
      (Straight.after chan (msgs.take n)).take chan msg := by
  rw [take_add_one, h, toList_some, Straight.after_concat]

theorem take_concat_prefix (h : msgs[n]? = some msg) : msgs.take n ++ [msg] <+: msgs := by
  have htake : msgs.take n ++ [msg] = msgs.take (n + 1) := by rw [take_add_one, h, toList_some]
  rw [htake]
  exact take_prefix _ _

/-- The orderer that is not restarted, at an offset of the partition. -/
theorem sound_take (hn : n ≤ msgs.length) : (Straight.after chan (msgs.take n)).Sound n := by
  have h := Straight.sound_after chan (msgs.take n)
  rwa [length_take_of_le hn] at h

end Partition

end FabricOev.Orderer
