import FabricOev.Lib.Runs
import FabricOev.Orderer.Consenters

/-!
# Batches that nobody comes back to

A loop that waits with messages in its cutter relies on the timer, or on a message in the
partition that makes it cut. The loops clear the timer whenever the cutter returned a batch,
also if it kept the message: such a message stays where it is until another one comes. That,
and a message to cut that could not be posted, are the only ways to leave something behind.
-/

namespace FabricOev.Orderer

open Go Protos Lib List SoloChain KafkaChain Result Prod

variable {κ : Type} {limits : BatchSize}

/-! ## Solo -/

inductive SoloEvent (κ : Type) where
  | message (limits : BatchSize) (verdict : Option (Committer κ)) (msg : Envelope)
  | expire

def SoloEvent.isTurn : SoloEvent κ → Bool
  | .message .. => false
  | .expire => true

namespace SoloChain

variable (analyze : Nat → List Envelope → Result (Option Bytes))

/-- One turn of the loop, if it gets back to waiting. -/
def step (ch : SoloChain κ) : SoloEvent κ → Option (SoloChain κ)
  | .message limits verdict msg => (ch.message analyze limits verdict msg).toOption
  | .expire => if ch.timer then (ch.expire analyze).toOption else none

/-- Nothing is pending, or the timer is armed. -/
def Attended (ch : SoloChain κ) : Prop := ch.cutter.pendingBatch = [] ∨ ch.timer = true

/-- The message is kept by the cutter while the loop clears the timer. -/
def Strands (ch : SoloChain κ) : SoloEvent κ → Prop
  | .message limits verdict msg => ch.cutter.Leaves limits verdict msg
  | .expire => False

def held (ch : SoloChain κ) : List Envelope :=
  ch.blocks.flatMap (·.1.messages) ++ ch.cutter.pendingBatch

instance (ch : SoloChain κ) : Decidable ch.Attended :=
  inferInstanceAs (Decidable (ch.cutter.pendingBatch = [] ∨ ch.timer = true))

instance (ch : SoloChain κ) (e : SoloEvent κ) : Decidable (ch.Strands e) :=
  match e with
  | .message limits verdict msg => inferInstanceAs (Decidable (ch.cutter.Leaves limits verdict msg))
  | .expire => inferInstanceAs (Decidable False)

variable {analyze} {ch ch' : SoloChain κ} {e : SoloEvent κ}

theorem writeBlocks_eq_ok {bs : List (Batch κ)} (h : bs.foldlM (writeBlock analyze) ch = .ok ch') :
    ch'.cutter = ch.cutter ∧ ch'.timer = ch.timer ∧
      ch'.blocks.map fst = ch.blocks.map fst ++ bs := by
  induction bs generalizing ch with
  | nil =>
    cases h
    simp
  | cons b bs ih =>
    obtain ⟨m, hm, h⟩ := bind_ok.mp h
    obtain ⟨bytes, -, hm⟩ := bind_ok.mp hm
    cases hm
    obtain ⟨hcutter, htimer, hblocks⟩ := ih h
    refine ⟨hcutter, htimer, ?_⟩
    rw [hblocks]
    simp

theorem message_eq_ok {verdict : Option (Committer κ)} {msg : Envelope}
    (h : ch.message analyze limits verdict msg = .ok ch') :
    ch'.cutter = (ch.cutter.ordered limits verdict msg).2 ∧ ch'.blocks.map fst =
        ch.blocks.map fst ++ (ch.cutter.ordered limits verdict msg).1.batches ∧
      ch'.timer = if (ch.cutter.ordered limits verdict msg).1.batches = [] then
        verdict.isSome || ch.timer else false := by
  have hlen := ch.cutter.length_batches limits verdict msg
  have hok := ch.cutter.ordered_ok limits verdict msg
  unfold message at h
  simp only [← hlen, hok, length_eq_zero_iff] at h
  split at h
  · rename_i hset
    cases h
    rw [if_pos hset.2.1, hset.1, hset.2.1]
    simp
  · obtain ⟨m, hm, h⟩ := bind_ok.mp h
    cases h
    obtain ⟨hcutter, htimer, hblocks⟩ := writeBlocks_eq_ok hm
    refine ⟨hcutter, hblocks, ?_⟩
    by_cases hb : (ch.cutter.ordered limits verdict msg).1.batches = []
    · cases hv : verdict.isSome <;> cases ht : ch.timer <;> simp_all
    · simp [hb]

theorem expire_eq_ok (h : ch.expire analyze = .ok ch') :
    ch'.cutter = .new ∧ ch'.timer = false ∧ ch'.held = ch.held := by
  unfold expire at h
  dsimp only [Receiver.cut] at h
  split at h
  · rename_i hnil
    cases h
    rw [length_eq_zero_iff] at hnil
    exact ⟨rfl, rfl, by simp [held, Receiver.new, hnil]⟩
  · obtain ⟨bytes, -, h⟩ := bind_ok.mp h
    cases h
    exact ⟨rfl, rfl, by simp [held, Receiver.new]⟩

def accepts (_ : SoloChain κ) : SoloEvent κ → List Envelope
  | .message _ verdict msg => if verdict.isSome then [msg] else []
  | .expire => []

theorem held_step (h : ch.step analyze e = some ch') : ch'.held = ch.held ++ ch.accepts e := by
  cases e with
  | expire =>
    simp only [step] at h
    split at h
    · rw [(expire_eq_ok (toOption_eq_some h)).2.2, accepts, append_nil]
    · cases h
  | message limits verdict msg =>
    obtain ⟨hcutter, hblocks, -⟩ := message_eq_ok (toOption_eq_some h)
    have hwritten : ch'.blocks.flatMap (·.1.messages) = ch.blocks.flatMap (·.1.messages) ++
        (ch.cutter.ordered limits verdict msg).1.batches.flatMap (·.messages) := by
      have := congrArg (flatMap (·.messages)) hblocks
      rwa [flatMap_append, flatMap_map, flatMap_map] at this
    rw [held, held, hwritten, hcutter, accepts]
    cases verdict with
    | none => simp [Receiver.ordered_none]
    | some c =>
      rw [append_assoc, Receiver.ordered_messages, append_assoc]
      rfl

/-- A turn leaves messages to nobody exactly if the cutter kept one and gave out others. -/
theorem attended_step_iff (ha : ch.Attended) (h : ch.step analyze e = some ch') :
    ch'.Attended ↔ ¬ ch.Strands e := by
  cases e with
  | expire =>
    simp only [step] at h
    split at h
    · refine iff_of_true (.inl ?_) id
      rw [(expire_eq_ok (toOption_eq_some h)).1]
      rfl
    · cases h
  | message limits verdict msg =>
    obtain ⟨hcutter, -, htimer⟩ := message_eq_ok (toOption_eq_some h)
    rw [Attended, hcutter, htimer, Strands]
    obtain ⟨hnone, hleaves⟩ | ⟨hsome, hleaves⟩ := ch.cutter.ordered_outcome limits verdict msg
    · refine iff_of_true ?_ hleaves
      rw [if_pos hnone]
      cases verdict with
      | none => exact ha
      | some c => exact .inr rfl
    · rw [if_neg hsome, ← hleaves]
      simp

/-- A timer that has expired is not there to expire again. -/
theorem turn_step (he : e.isTurn = true) (h : ch.step analyze e = some ch') :
    (if ch'.timer then 1 else 0) < if ch.timer then 1 else 0 := by
  cases e with
  | message => cases he
  | expire =>
    simp only [step] at h
    split at h
    · rename_i htimer
      rw [(expire_eq_ok (toOption_eq_some h)).2.1, htimer]
      exact Nat.zero_lt_one
    · cases h

end SoloChain

/-! ## Kafka -/

structure KafkaLoop (κ : Type) where
  chain : KafkaChain κ
  unread : List KafkaMessage
  offset : Nat

inductive KafkaEvent (κ : Type) where
  | post (msg : KafkaMessage)
  | consume (limits : BatchSize) (verdict : Envelope → Option (Committer κ))
  | expire (posted : Bool)

def KafkaEvent.isTurn : KafkaEvent κ → Bool
  | .post _ => false
  | _ => true

namespace KafkaLoop

def new : KafkaLoop κ := ⟨.new, [], 0⟩

/-- One turn of the loop, or a message that arrives while it waits. -/
def step (s : KafkaLoop κ) : KafkaEvent κ → Option (KafkaLoop κ)
  | .post msg => some { s with unread := s.unread ++ [msg] }
  | .consume limits verdict =>
    match s.unread with
    | [] => none
    | msg :: rest =>
      match s.chain.processMessage limits verdict s.offset msg with
      | .error _ => none
      | .ok chain => some ⟨chain, rest, s.offset + 1⟩
  | .expire posted =>
    if s.chain.timer then
      let (msg, chain) := s.chain.sendTimeToCut
      some { s with chain := chain, unread := if posted then s.unread ++ [msg] else s.unread }
    else none

/-- The message to cut the next block is in the partition. -/
def CutComing (s : KafkaLoop κ) : Prop := .timeToCut (s.chain.lastCutBlockNumber + 1) ∈ s.unread

/-- Nothing is pending, or the timer is armed, or the message to cut comes. -/
def Attended (s : KafkaLoop κ) : Prop :=
  s.chain.cutter.pendingBatch = [] ∨ s.chain.timer = true ∨ s.CutComing

/-- A message is kept while the timer is cleared, or the message to cut is lost; and nobody else has
told to cut the next block. -/
def Strands (s : KafkaLoop κ) : KafkaEvent κ → Prop
  | .post _ => False
  | .consume limits verdict => ∃ payload rest env, s.unread = .regular payload :: rest ∧
      Envelope.unmarshal payload = some env ∧ s.chain.cutter.Leaves limits (verdict env) env ∧
      .timeToCut (s.chain.lastCutBlockNumber + 2) ∉ rest
  | .expire posted => posted = false ∧ s.chain.cutter.pendingBatch ≠ [] ∧ ¬ s.CutComing

instance (s : KafkaLoop κ) : Decidable s.Attended :=
  inferInstanceAs (Decidable (s.chain.cutter.pendingBatch = [] ∨ s.chain.timer = true ∨
    .timeToCut (s.chain.lastCutBlockNumber + 1) ∈ s.unread))

def held (s : KafkaLoop κ) : List Envelope := s.chain.written ++ s.chain.cutter.pendingBatch

def accepts (s : KafkaLoop κ) : KafkaEvent κ → List Envelope
  | .consume _ verdict =>
    match s.unread with
    | .regular payload :: _ =>
      (Envelope.unmarshal payload).toList.filter fun env => (verdict env).isSome
    | _ => []
  | _ => []

variable {s s' : KafkaLoop κ}

theorem step_consume {verdict : Envelope → Option (Committer κ)}
    (h : s.step (.consume limits verdict) = some s') :
    ∃ msg rest, s.unread = msg :: rest ∧ s'.unread = rest ∧
      s.chain.processMessage limits verdict s.offset msg = .ok s'.chain := by
  unfold step at h
  dsimp only at h
  split at h
  · cases h
  · rename_i msg rest hunread
    split at h
    · cases h
    · rename_i chain hchain
      cases h
      exact ⟨msg, rest, hunread, rfl, hchain⟩

variable {e : KafkaEvent κ}

theorem held_step (h : s.step e = some s') : s'.held = s.held ++ s.accepts e := by
  cases e with
  | post msg =>
    cases h
    simp [held, accepts]
  | expire posted =>
    simp only [step] at h
    split at h
    · cases h
      simp [held, accepts, sendTimeToCut, written]
    · cases h
  | consume limits verdict =>
    obtain ⟨msg, rest, hunread, -, hchain⟩ := step_consume h
    rw [held, held, accepts, hunread]
    obtain ⟨hsame, -, hnone⟩ | ⟨rfl, -, hcut⟩ | ⟨payload, env, rfl, henv, hproc⟩ :=
      processMessage_eq_ok hchain
    · rw [hsame]
      cases msg with
      | regular payload => simp [hnone payload rfl]
      | _ => simp
    · rw [hcut]
      simp [written, Receiver.cut, Receiver.new]
    · rw [hproc, processEnvelope_eq, written, flatMap_append,
        messages_kafkaBlocks, written, append_assoc]
      cases hv : verdict env with
      | none => simp [Receiver.ordered_none, henv, hv]
      | some c =>
        rw [Receiver.ordered_messages]
        simp [henv, hv]

/-- A turn leaves messages to nobody exactly if it strands them. -/
theorem attended_step_iff (ha : s.Attended) (h : s.step e = some s') :
    s'.Attended ↔ ¬ s.Strands e := by
  cases e with
  | post msg =>
    cases h
    refine iff_of_true ?_ id
    obtain hnil | htimer | hcut := ha
    · exact .inl hnil
    · exact .inr (.inl htimer)
    · exact .inr (.inr (mem_append_left _ hcut))
  | expire posted =>
    simp only [step] at h
    split at h
    · cases h
      cases posted with
      | true =>
        refine iff_of_true (.inr (.inr ?_)) fun hs => (nomatch hs.1)
        exact mem_append_right _ (mem_singleton_self _)
      | false =>
        simp only [Attended, CutComing, Strands, sendTimeToCut, true_and]
        tauto
    · cases h
  | consume limits verdict =>
    obtain ⟨msg, rest, hunread, hrest, hchain⟩ := step_consume h
    have hstrands : s.Strands (.consume limits verdict) ↔ ∃ payload env, msg = .regular payload ∧
        Envelope.unmarshal payload = some env ∧ s.chain.cutter.Leaves limits (verdict env) env ∧
        .timeToCut (s.chain.lastCutBlockNumber + 2) ∉ rest := by
      rw [Strands, hunread]
      constructor
      · intro hs
        obtain ⟨payload, rest', env, hcons, hs⟩ := hs
        obtain ⟨rfl, rfl⟩ := cons.inj hcons
        exact ⟨payload, env, rfl, hs⟩
      · intro hs
        obtain ⟨payload, env, rfl, hs⟩ := hs
        exact ⟨payload, rest, env, rfl, hs⟩
    rw [hstrands, Attended, CutComing, hrest]
    obtain ⟨hsame, hne, hnone⟩ | ⟨rfl, -, hcut⟩ | ⟨payload, env, rfl, henv, hproc⟩ :=
      processMessage_eq_ok hchain
    · -- the message to cut that may have been coming is not the one that was consumed
      refine iff_of_true ?_ fun hs => ?_
      · rw [hsame]
        obtain hnil | htimer | hcut := ha
        · exact .inl hnil
        · exact .inr (.inl htimer)
        · rw [CutComing, hunread] at hcut
          exact .inr (.inr ((mem_cons.mp hcut).resolve_left fun heq => hne heq.symm))
      · obtain ⟨payload, env, rfl, henv, -⟩ := hs
        exact (nomatch (hnone payload rfl).symm.trans henv)
    · refine iff_of_true (.inl (by rw [hcut]; rfl)) fun hs => ?_
      obtain ⟨payload, env, hmsg, -⟩ := hs
      exact (nomatch hmsg)
    · have hleft : (∃ payload' env', KafkaMessage.regular payload = .regular payload' ∧
          Envelope.unmarshal payload' = some env' ∧
          s.chain.cutter.Leaves limits (verdict env') env' ∧
          .timeToCut (s.chain.lastCutBlockNumber + 2) ∉ rest) ↔
          s.chain.cutter.Leaves limits (verdict env) env ∧
            .timeToCut (s.chain.lastCutBlockNumber + 2) ∉ rest := by
        constructor
        · intro hs
          obtain ⟨payload', env', hmsg, henv', hs⟩ := hs
          cases hmsg
          cases henv.symm.trans henv'
          exact hs
        · intro hs
          exact ⟨payload, env, rfl, henv, hs⟩
      rw [hleft, hproc, processEnvelope_eq]
      obtain ⟨hnone, hleaves⟩ | ⟨hsome, hleaves⟩ :=
        s.chain.cutter.ordered_outcome limits (verdict env) env
      · refine iff_of_true ?_ fun hs => hleaves hs.1
        rw [hnone]
        cases hv : verdict env with
        | some c => exact .inr (.inl rfl)
        | none =>
          obtain hnil | htimer | hcut := ha
          · exact .inl hnil
          · exact .inr (.inl htimer)
          · rw [CutComing, hunread] at hcut
            exact .inr (.inr ((mem_cons.mp hcut).resolve_left nofun))
      · by_cases hl : s.chain.cutter.Leaves limits (verdict env) env
        · obtain ⟨hb, hp⟩ := hl.batches
          simp [hb, hp, hl]
        · refine iff_of_true (.inl ?_) fun hs => hl hs.1
          by_contra hp
          exact hl (hleaves.mp hp)

/-- What is left to do: an envelope may start the timer, and the timer may post a message. -/
def work (s : KafkaLoop κ) : Nat :=
  (s.unread.map fun | .regular _ => 4 | _ => 1).sum + if s.chain.timer then 2 else 0

theorem work_step (he : e.isTurn = true) (h : s.step e = some s') : s'.work < s.work := by
  cases e with
  | post msg => cases he
  | expire posted =>
    simp only [step] at h
    split at h
    · rename_i htimer
      cases h
      rw [work, work, htimer]
      cases posted <;> simp [sendTimeToCut]
    · cases h
  | consume limits verdict =>
    obtain ⟨msg, rest, hunread, hrest, hchain⟩ := step_consume h
    rw [work, work, hunread, hrest, map_cons, sum_cons]
    obtain ⟨hsame, -, -⟩ | ⟨rfl, -, hcut⟩ | ⟨payload, env, rfl, -, -⟩ := processMessage_eq_ok hchain
    · rw [hsame]
      cases msg <;> simp only <;> omega
    · rw [hcut]
      simp only [Bool.false_eq_true, if_false]
      omega
    · simp only
      split <;> omega

end KafkaLoop

/-- Both loops wait attended exactly if no turn strands a message. In that case, once nothing
is left for a loop to do, and without further messages that is after finitely many turns,
every accepted message is in a block. -/
theorem attended_iff_never_strands (κ : Type) :
    (∀ (analyze : Nat → List Envelope → Result (Option Bytes)) (es : List (SoloEvent κ)),
      (Always (SoloChain.step analyze) SoloChain.Attended .new es ↔
          Never (SoloChain.step analyze) SoloChain.Strands .new es) ∧
        ∀ ch, run (SoloChain.step analyze) .new es = some ch →
          (Never (SoloChain.step analyze) SoloChain.Strands .new es → ch.timer = false →
            ch.blocks.flatMap (·.1.messages) =
              collected (SoloChain.step analyze) SoloChain.accepts .new es) ∧
          ∀ ts ch', (∀ e ∈ ts, SoloEvent.isTurn e = true) →
            run (SoloChain.step analyze) ch ts = some ch' → ts.length ≤ 1) ∧
    (∀ es : List (KafkaEvent κ), (Always KafkaLoop.step KafkaLoop.Attended .new es ↔
          Never KafkaLoop.step KafkaLoop.Strands .new es) ∧
        ∀ s, run KafkaLoop.step .new es = some s →
          (Never KafkaLoop.step KafkaLoop.Strands .new es → s.chain.timer = false → s.unread = [] →
            s.chain.written = collected KafkaLoop.step KafkaLoop.accepts .new es) ∧
          ∀ ts s', (∀ e ∈ ts, KafkaEvent.isTurn e = true) →
            run KafkaLoop.step s ts = some s' → ts.length ≤ s.work) := by
  refine ⟨fun analyze es => ?_, fun es => ?_⟩
  · have hiff : Always (step analyze) SoloChain.Attended .new es ↔
        Never (step analyze) SoloChain.Strands .new es :=
      always_iff_never (fun _ _ _ => attended_step_iff) (.inl rfl) es
    refine ⟨hiff, fun ch hrun => ⟨fun hnever htimer => ?_, fun ts ch' hts h => ?_⟩⟩
    · have hheld := run_collected (fun _ _ _ => held_step) hrun
      obtain hnil | htimer' := (hiff.mpr hnever).of_run hrun
      · rw [held, hnil, append_nil] at hheld
        exact hheld
      · exact absurd htimer' (by rw [htimer]; exact Bool.false_ne_true)
    · have hle := length_le_of_run (fun _ _ _ => turn_step) hts h
      split at hle <;> omega
  · have hiff : Always KafkaLoop.step KafkaLoop.Attended (.new : KafkaLoop κ) es ↔
        Never KafkaLoop.step KafkaLoop.Strands .new es :=
      always_iff_never (fun _ _ _ => KafkaLoop.attended_step_iff) (.inl rfl) es
    refine ⟨hiff, fun s hrun => ⟨fun hnever htimer hunread => ?_, fun ts s' hts h => ?_⟩⟩
    · have hheld := run_collected (fun _ _ _ => KafkaLoop.held_step) hrun
      obtain hnil | htimer' | hcut := (hiff.mpr hnever).of_run hrun
      · rw [KafkaLoop.held, hnil, append_nil] at hheld
        exact hheld
      · exact absurd htimer' (by rw [htimer]; exact Bool.false_ne_true)
      · rw [KafkaLoop.CutComing, hunread] at hcut
        exact (nomatch hcut)
    · exact length_le_of_run (fun _ _ _ => KafkaLoop.work_step) hts h

def smallLimits : BatchSize := ⟨10, 4⟩

def quietRun : List (SoloEvent Unit) :=
  [.message smallLimits (some .noop) ⟨[1], none⟩, .message smallLimits (some .noop) ⟨[2], none⟩,
    .expire]

theorem quiet_run_attended :
    Always (SoloChain.step fun _ _ => .ok none) SoloChain.Attended .new quietRun :=
  ((attended_iff_never_strands Unit).1 (fun _ _ => .ok none) quietRun).1.mpr (by decide)

def overflowingRun : List (SoloEvent Unit) :=
  [.message smallLimits (some .noop) ⟨[1, 1, 1], none⟩,
    .message smallLimits (some .noop) ⟨[2, 2], none⟩]

/-- The same messages in a partition, as the bytes of their envelopes. -/
def overflowingPartition : List (KafkaEvent Unit) :=
  [.post (.regular [10, 3, 1, 1, 1]), .post (.regular [10, 2, 2, 2]),
    .consume smallLimits fun _ => some .noop, .consume smallLimits fun _ => some .noop]

/-- One message, and a timer whose message does not get into the partition. -/
def failedPost : List (KafkaEvent Unit) :=
  [.post (.regular [10, 3, 1, 1, 1]), .consume smallLimits fun _ => some .noop, .expire false]

/-- The second message stays in the cutter with no timer armed and nothing coming. -/
theorem overflowing_message_stranded :
    ¬ Always (SoloChain.step fun _ _ => .ok none) SoloChain.Attended .new overflowingRun ∧
      ¬ Always KafkaLoop.step KafkaLoop.Attended .new overflowingPartition ∧
      ¬ Always KafkaLoop.step KafkaLoop.Attended .new failedPost := by
  decide +kernel

end FabricOev.Orderer
