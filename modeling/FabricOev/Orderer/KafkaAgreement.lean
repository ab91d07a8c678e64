import FabricOev.Orderer.KafkaOrderers

/-!
# Orderers that are restarted

An orderer that is restarted has only its blocks: the last one names the offset up to which
messages are in blocks, and the orderer goes on behind it with nothing pending. It writes the
blocks it would have written if that offset is right. It is not if the cutter kept the message
at which it cut, and offset zero cannot be told from no offset.
-/

namespace FabricOev.Orderer

open Go Protos List Straight Channel KafkaChain KafkaOrderer Receiver Option Nat

variable {κ γ : Type} {α : Type} {l b : List α} {x : α}

def offsetOldest : Int := -2

def getLastOffsetPersisted : Option Int → Int
  | some offset => offset
  | none => offsetOldest - 1

/-- The offset from which `ConsumePartition` starts, in a partition whose oldest message is at
offset zero. -/
def startOffset (startFrom : Int) : Nat :=
  if startFrom = offsetOldest then 0 else startFrom.toNat

namespace KafkaOrderer

/-- `newChain` and `startThread` after a restart: the last block says where to go on. -/
def resume (blocks : List (KafkaBlock κ)) : KafkaOrderer κ :=
  ⟨⟨.new, blocks, blocks.length, false⟩,
    startOffset (getLastOffsetPersisted (blocks.getLast?.bind (·.metadata)) + 1)⟩

/-- Messages are consumed, with a restart right after any block written. -/
inductive Reaches (chan : Channel κ γ) (msgs : List KafkaMessage) : KafkaOrderer κ → Prop
  | start : Reaches chan msgs new
  | consume {o : KafkaOrderer κ} {msg : KafkaMessage} {ch : KafkaChain κ}
      (h : Reaches chan msgs o) (hmsg : msgs[o.offset]? = some msg)
      (hch : chan.process o.chain o.offset msg = .ok ch) : Reaches chan msgs ⟨ch, o.offset + 1⟩
  | restart {o : KafkaOrderer κ} {msg : KafkaMessage} {ch : KafkaChain κ}
      {blocks : List (KafkaBlock κ)} (h : Reaches chan msgs o)
      (hmsg : msgs[o.offset]? = some msg) (hch : chan.process o.chain o.offset msg = .ok ch)
      (hnew : o.chain.blocks ≠ blocks) (hold : o.chain.blocks <+: blocks)
      (hwritten : blocks <+: ch.blocks) : Reaches chan msgs (resume blocks)

/-- Nothing is left to consume, or the loop has ended with an error. -/
def Finished (chan : Channel κ γ) (msgs : List KafkaMessage) (o : KafkaOrderer κ) : Prop :=
  o.offset = msgs.length ∨
    ∃ msg e, msgs[o.offset]? = some msg ∧ chan.process o.chain o.offset msg = .error e

def envelopes (o : KafkaOrderer κ) : List (List Envelope) := o.chain.blocks.map (·.batch.messages)

end KafkaOrderer

/-- With any restarts, blocks never contradict each other, finished orderers have the same, and hold
what was accepted, in order. -/
def OrderersAgree (chan : Channel κ γ) (msgs : List KafkaMessage) : Prop :=
  ∀ p, p <+: msgs → (∀ o₁ o₂ : KafkaOrderer κ, o₁.Reaches chan p → o₂.Reaches chan p →
      (o₁.envelopes <+: o₂.envelopes ∨ o₂.envelopes <+: o₁.envelopes) ∧
        (o₁.Finished chan p → o₂.Finished chan p → o₁.envelopes = o₂.envelopes)) ∧
    ∀ o : KafkaOrderer κ, o.Reaches chan p → o.Finished chan p →
      o.held = (Straight.after chan p).accepted

/-- An orderer that is not restarted cuts the pending messages at one that it keeps. -/
def Overflowing (chan : Channel κ γ) (msgs : List KafkaMessage) : Prop :=
  ∃ q msg env, q ++ [msg] <+: msgs ∧ (Straight.after chan q).stopped = false ∧
    msg.envelope? = some env ∧
    (Straight.after chan q).chain.cutter.Leaves
      (chan.batchSize (chan.config (Straight.after chan q).chain.blocks))
      (chan.apply (chan.config (Straight.after chan q).chain.blocks) env) env

/-- The first message is the last one in a block, and is accepted again. -/
def RereadsFirst (chan : Channel κ γ) (msgs : List KafkaMessage) : Prop :=
  (∃ msg env c, [msg] <+: msgs ∧ msg.envelope? = some env ∧ chan.apply chan.genesis env = some c ∧
      Receiver.Alone (chan.batchSize chan.genesis) c env ∧
      (chan.apply (chan.commitOne chan.genesis c) env).isSome = true) ∨
    ∃ msg₀ env₀ c₀ msg₁ env₁ c₁, [msg₀, msg₁] <+: msgs ∧ msg₀.envelope? = some env₀ ∧
      chan.apply chan.genesis env₀ = some c₀ ∧
      ¬ Receiver.Alone (chan.batchSize chan.genesis) c₀ env₀ ∧
      msg₁.envelope? = some env₁ ∧ chan.apply chan.genesis env₁ = some c₁ ∧
      Receiver.Isolates (chan.batchSize chan.genesis) c₁ env₁

variable (bs : List (KafkaBlock κ))

theorem resume_offset (b : Batch κ) {n : Nat} (hn : n ≠ 0) :
    (KafkaOrderer.resume (bs ++ [⟨b, kafkaMetadata n⟩])).offset = n + 1 := by
  have hmeta : kafkaMetadata n = some (n : Int) := if_neg (by omega)
  have hold : ¬ ((n : Int) + 1 = offsetOldest) := by
    rw [offsetOldest]
    omega
  rw [resume, getLast?_concat, bind_some, hmeta, getLastOffsetPersisted, startOffset, if_neg hold]
  show ((n : Int) + 1).toNat = n + 1
  omega

theorem resume_offset_zero (b : Batch κ) :
    (KafkaOrderer.resume (bs ++ [⟨b, kafkaMetadata 0⟩])).offset = 0 := by
  rw [resume, getLast?_concat]
  rfl

/-- The lists that lie between a list and its continuation by one or two elements. -/
theorem eq_of_between {l b new : List α} (hne : l ≠ b) (hl : l <+: b) (hb : b <+: l ++ x :: new) :
    ∃ t, t <+: new ∧ b = l ++ x :: t := by
  obtain ⟨n, rfl⟩ := hl
  obtain rfl | ⟨t, rfl, ht⟩ := prefix_cons_iff.mp (prefix_self_append_iff.mp hb)
  · exact absurd (append_nil l).symm hne
  · exact ⟨t, ht, rfl⟩

theorem eq_of_between_one (hne : l ≠ b) (hl : l <+: b) (hb : b <+: l ++ [x]) : b = l ++ [x] := by
  obtain ⟨t, ht, rfl⟩ := eq_of_between hne hl hb
  rw [prefix_nil.mp ht]

theorem eq_of_between_two {x y : α} (hne : l ≠ b) (hl : l <+: b) (hb : b <+: l ++ [x, y]) :
    b = l ++ [x] ∨ b = l ++ [x] ++ [y] := by
  obtain ⟨t, ht, rfl⟩ := eq_of_between hne hl hb
  obtain rfl | ⟨t', rfl, ht'⟩ := prefix_cons_iff.mp ht
  · exact .inl rfl
  · rw [prefix_nil.mp ht']
    exact .inr (by simp)

/-! ## Every orderer follows the one that is not restarted -/

/-- At the place of the orderer that is not restarted, or one block ahead in a message, or before a
first message that will be rejected. -/
inductive Tracks (chan : Channel κ γ) (msgs : List KafkaMessage) (o : KafkaOrderer κ) : Prop
  | same (hle : o.offset ≤ msgs.length)
      (hrun : (Straight.after chan (msgs.take o.offset)).stopped = false)
      (hch : o.chain.untimed = (Straight.after chan (msgs.take o.offset)).chain.untimed)
  | between (msg : KafkaMessage) (env : Envelope) (c : Committer κ) (s : Straight κ)
      (hs : s = Straight.after chan (msgs.take o.offset)) (hrun : s.stopped = false)
      (hpos : o.offset ≠ 0) (hmsg : msgs[o.offset]? = some msg) (henv : msg.envelope? = some env)
      (hc : chan.apply (chan.config s.chain.blocks) env = some c)
      (halone : Receiver.Alone (chan.batchSize (chan.config s.chain.blocks)) c env)
      (hbatches : (s.chain.cutter.ordered (chan.batchSize (chan.config s.chain.blocks))
        (some c) env).1.batches = [s.chain.cutter.cut.1, ⟨[env], [c]⟩])
      (hnew : (s.chain.cutter.ordered (chan.batchSize (chan.config s.chain.blocks))
        (some c) env).2 = .new)
      (hch : o.chain.untimed = ⟨.new,
        s.chain.blocks ++ [⟨s.chain.cutter.cut.1, kafkaMetadata ((o.offset : Int) - 1)⟩],
        s.chain.lastCutBlockNumber + 1, false⟩)
  | first (msg : KafkaMessage) (env : Envelope) (hzero : o.offset = 0)
      (hmsg : msgs[0]? = some msg) (henv : msg.envelope? = some env)
      (hrun : (Straight.after chan (msgs.take 1)).stopped = false)
      (hch : o.chain.untimed = (Straight.after chan (msgs.take 1)).chain.untimed)
      (hreject : chan.apply (chan.config o.chain.blocks) env = none)

section Track

variable {chan : Channel κ γ} {msgs : List KafkaMessage} {o : KafkaOrderer κ} {msg : KafkaMessage}
  {ch : KafkaChain κ} {n : Nat} {ch₂ : KafkaChain κ} {env : Envelope} {c : Committer κ}
  {blocks : List (KafkaBlock κ)} {p : List KafkaMessage}

theorem same_succ (hn : n < msgs.length) (hmsg : msgs[n]? = some msg)
    (hrun : (Straight.after chan (msgs.take n)).stopped = false)
    (hch2 : chan.process (Straight.after chan (msgs.take n)).chain n msg = .ok ch₂)
    (ho : o.offset = n + 1) (hun : o.chain.untimed = ch₂.untimed) :
    Tracks chan msgs o := by
  have hoff := (sound_take (le_of_lt hn)).offset hrun
  have hnext : after chan (msgs.take (n + 1)) = _ :=
    (after_take_succ hmsg).trans (take_ok hrun (by rw [hoff]; exact hch2))
  refine .same (by omega) ?_ ?_
  · rw [ho, hnext]
  · rw [ho, hnext, hun]

theorem between_catches_up {s : Straight κ} (htidy : s.chain.cutter.Tidy)
    (henv : msg.envelope? = some env) (hc : chan.apply (chan.config s.chain.blocks) env = some c)
    (halone : Receiver.Alone (chan.batchSize (chan.config s.chain.blocks)) c env)
    (hbatches : (s.chain.cutter.ordered (chan.batchSize (chan.config s.chain.blocks))
      (some c) env).1.batches = [s.chain.cutter.cut.1, ⟨[env], [c]⟩])
    (hnew : (s.chain.cutter.ordered (chan.batchSize (chan.config s.chain.blocks))
      (some c) env).2 = .new) (hun : o.chain.untimed = ⟨.new,
      s.chain.blocks ++ [⟨s.chain.cutter.cut.1, kafkaMetadata ((o.offset : Int) - 1)⟩],
      s.chain.lastCutBlockNumber + 1, false⟩) (hch : chan.process o.chain o.offset msg = .ok ch) :
    ch.blocks = o.chain.blocks ++ [⟨⟨[env], [c]⟩, kafkaMetadata o.offset⟩] ∧
      ∃ ch₂, chan.process s.chain o.offset msg = .ok ch₂ ∧ ch.untimed = ch₂.untimed ∧
        ch₂.cutter = .new := by
  have hblocks : o.chain.blocks =
      s.chain.blocks ++ [⟨s.chain.cutter.cut.1, kafkaMetadata ((o.offset : Int) - 1)⟩] := by
    rw [blocks_untimed, hun]
  have hcutter : o.chain.cutter = .new := by rw [cutter_untimed, hun]
  have hlast : o.chain.lastCutBlockNumber = s.chain.lastCutBlockNumber + 1 := by
    rw [show o.chain.lastCutBlockNumber = o.chain.untimed.lastCutBlockNumber from rfl, hun]
  have hconfig : chan.config o.chain.blocks = chan.config s.chain.blocks := by
    rw [hblocks]
    exact config_cut htidy _
  obtain ⟨hb, hr⟩ := ordered_new_alone halone
  obtain ⟨ch', hch', hun'⟩ := process_accepted o.chain o.offset henv (by rw [hconfig]; exact hc)
  obtain ⟨ch₂, hch2, hun2⟩ := process_accepted s.chain o.offset henv hc
  cases hch.symm.trans hch'
  rw [hcutter, hconfig, hb, hr, hlast] at hun'
  rw [hbatches, hnew] at hun2
  refine ⟨?_, ch₂, hch2, ?_, ?_⟩
  · rw [blocks_untimed ch, hun']
    simp [kafkaBlocks]
  · rw [hun', hun2, hblocks]
    simp [kafkaBlocks]
  · rw [cutter_untimed, hun2]

theorem tracks_consume (h : Tracks chan msgs o) (hmsg : msgs[o.offset]? = some msg)
    (hch : chan.process o.chain o.offset msg = .ok ch) :
    Tracks chan msgs ⟨ch, o.offset + 1⟩ := by
  have hlt : o.offset < msgs.length := lt_length hmsg
  cases h with
  | same hle hrun hsame =>
    obtain ⟨ch₂, hch2, hun⟩ := process_congr hsame hch
    exact same_succ hlt hmsg hrun hch2 rfl hun
  | between msg' env c s hs hrun hpos hmsg' henv hc halone hbatches hnew hun =>
    cases hmsg.symm.trans hmsg'
    have htidy : s.chain.cutter.Tidy := hs ▸ (sound_take (le_of_lt hlt)).tidy
    obtain ⟨-, ch₂, hch2, hun2, -⟩ := between_catches_up htidy henv hc halone hbatches hnew hun hch
    exact same_succ hlt hmsg (hs ▸ hrun) (hs ▸ hch2) rfl hun2
  | first msg' env hzero hmsg' henv hrun hun hreject =>
    rw [hzero] at hmsg
    cases hmsg.symm.trans hmsg'
    obtain ⟨ch₂, hch2, hun2⟩ := process_rejected o.chain o.offset henv hreject
    cases hch.symm.trans hch2
    refine .same ?_ ?_ ?_
    · show o.offset + 1 ≤ _
      omega
    · rw [hzero]
      exact hrun
    · rw [hzero, hun2]
      exact hun

/-- A restart behind the last block of a message, with that message in it. -/
theorem tracks_resume (hn : n < msgs.length) (hpos : n ≠ 0) (hmsg : msgs[n]? = some msg)
    (hrun : (Straight.after chan (msgs.take n)).stopped = false)
    (hch2 : chan.process (Straight.after chan (msgs.take n)).chain n msg = .ok ch₂)
    (hnew : ch₂.cutter = .new) {bs : List (KafkaBlock κ)} {b : Batch κ}
    (hblocks : ch₂.blocks = bs ++ [⟨b, kafkaMetadata n⟩]) :
    Tracks chan msgs (.resume (bs ++ [⟨b, kafkaMetadata n⟩])) := by
  have hoff := (sound_take (le_of_lt hn)).offset hrun
  have hnext : after chan (msgs.take (n + 1)) = _ :=
    (after_take_succ hmsg).trans (take_ok hrun (by rw [hoff]; exact hch2))
  have hlast := (sound_take (n := n + 1) hn : (after chan _).Sound _).lastCut
  rw [hnext] at hlast
  refine same_succ hn hmsg hrun hch2 (resume_offset bs b hpos) ?_
  rw [← hblocks]
  obtain ⟨cutter, blocks, last, timer⟩ := ch₂
  obtain rfl : cutter = .new := hnew
  obtain rfl : last = blocks.length := hlast
  rfl

theorem process_first (henv : msg.envelope? = some env) (hc : chan.apply chan.genesis env = some c)
    (hch : chan.process KafkaChain.new 0 msg = .ok ch) :
    (Receiver.Alone (chan.batchSize chan.genesis) c env →
      ch.untimed = ⟨.new, [⟨⟨[env], [c]⟩, kafkaMetadata 0⟩], 1, false⟩) ∧
    (¬ Receiver.Alone (chan.batchSize chan.genesis) c env →
      ch.blocks = [] ∧ ch.cutter = Receiver.new.enqueue env c) := by
  obtain ⟨ch', hch', hun⟩ := process_accepted .new 0 henv hc
  obtain rfl := Except.ok.inj (hch.symm.trans hch')
  refine ⟨fun halone => ?_, fun hkept => ?_⟩
  · obtain ⟨hb, hr⟩ := ordered_new_alone halone
    refine hun.trans ?_
    show mk (new.ordered (chan.batchSize chan.genesis) (some c) env).2 (kafkaBlocks 0
        (new.ordered (chan.batchSize chan.genesis) (some c) env).1.batches)
      (0 + (new.ordered (chan.batchSize chan.genesis) (some c) env).1.batches.length)
      false = _
    rw [hb, hr]
    rfl
  · obtain ⟨-, hb, hcut⟩ := ordered_new_kept hkept
    constructor
    · rw [blocks_untimed, hun]
      show kafkaBlocks 0 (new.ordered (chan.batchSize chan.genesis) (some c) env).1.batches = []
      rw [hb]
      rfl
    · rw [cutter_untimed, hun]
      exact hcut

theorem tracks_restart_first (hreread : ¬ RereadsFirst chan msgs) (hmsg : msgs[0]? = some msg)
    (hch : chan.process KafkaChain.new 0 msg = .ok ch) (hnew : [] ≠ blocks)
    (hwritten : blocks <+: ch.blocks) :
    Tracks chan msgs (.resume blocks) := by
  have hfirst : after chan (msgs.take 1) = _ := (after_take_succ hmsg).trans (take_ok rfl hch)
  obtain ⟨-, hun⟩ | ⟨-, hne, -⟩ | ⟨env, c, henv, hc, -, -⟩ := process_cases hch
  · rw [blocks_untimed, hun] at hwritten
    exact absurd (prefix_nil.mp hwritten).symm hnew
  · exact absurd rfl hne
  · obtain ⟨hun, hkept⟩ := process_first henv hc hch
    by_cases halone : Receiver.Alone (chan.batchSize chan.genesis) c env
    · have hun := hun halone
      have hblocks : blocks = [] ++ [⟨⟨[env], [c]⟩, kafkaMetadata 0⟩] := by
        rw [blocks_untimed, hun] at hwritten
        exact eq_of_between_one hnew nil_prefix hwritten
      have hreject : chan.apply (chan.commitOne chan.genesis c) env = none := by
        by_contra hsome
        refine hreread (.inl ⟨msg, env, c, ?_, henv, hc, halone, isSome_iff_ne_none.mpr hsome⟩)
        exact take_concat_prefix (n := 0) hmsg
      rw [hblocks]
      refine .first msg env (resume_offset_zero [] _) hmsg henv ?_ ?_ hreject
      · rw [hfirst]
      · rw [hfirst, hun]
        rfl
    · -- a message that is kept writes nothing
      rw [(hkept halone).1] at hwritten
      exact absurd (prefix_nil.mp hwritten).symm hnew

theorem rereadsFirst_of_second (hrun : (Straight.after chan (msgs.take 1)).stopped = false)
    (hpend : (Straight.after chan (msgs.take 1)).chain.cutter.pendingBatch ≠ [])
    (hmsg : msgs[1]? = some msg) (henv : msg.envelope? = some env)
    (hc : chan.apply (chan.config (Straight.after chan (msgs.take 1)).chain.blocks) env = some c)
    (halone : Receiver.Alone
      (chan.batchSize (chan.config (Straight.after chan (msgs.take 1)).chain.blocks)) c env) :
    RereadsFirst chan msgs := by
  have hlen : 1 < msgs.length := lt_length hmsg
  obtain ⟨msg0, hmsg0⟩ : ∃ msg0, msgs[0]? = some msg0 := ⟨msgs[0], getElem?_eq_getElem (by omega)⟩
  rw [after_take_succ hmsg0] at hrun hpend hc halone
  obtain ⟨hstop, -⟩ | ⟨-, -, heq⟩ | ⟨ch0, -, hch0, heq⟩ :=
    take_cases chan (after chan (msgs.take 0)) msg0
  · cases hstop
  · rw [heq] at hrun
    cases hrun
  · rw [heq] at hpend hc halone
    obtain ⟨-, hun⟩ | ⟨-, hne, -⟩ | ⟨env0, c0, henv0, hc0, -, -⟩ := process_cases hch0
    · exact absurd (by rw [cutter_untimed, hun]; rfl) hpend
    · exact absurd rfl hne
    · obtain ⟨hun0, hblocks0⟩ := process_first henv0 hc0 hch0
      have hkept : ¬ Receiver.Alone (chan.batchSize chan.genesis) c0 env0 := by
        intro h0
        refine hpend ?_
        rw [cutter_untimed, hun0 h0]
        rfl
      have hnone : ch0.blocks = [] := (hblocks0 hkept).1
      rw [hnone] at hc halone
      refine .inr ⟨msg0, env0, c0, msg, env, c, ?_, henv0, hc0, hkept, henv, hc, ?_⟩
      · have := take_concat_prefix (n := 1) hmsg
        rwa [take_add_one, hmsg0] at this
      · -- that a single message completes its batch does not depend on the message
        exact halone.resolve_right fun hf => hkept (.inr hf)

variable (hover : ¬ Overflowing chan msgs) (hreread : ¬ RereadsFirst chan msgs)
include hover hreread

theorem tracks_restart_same (hn : n < msgs.length) (hpos : n ≠ 0) (hmsg : msgs[n]? = some msg)
    (hrun : (Straight.after chan (msgs.take n)).stopped = false)
    (hch : chan.process (Straight.after chan (msgs.take n)).chain n msg = .ok ch)
    (hnew : (Straight.after chan (msgs.take n)).chain.blocks ≠ blocks)
    (hold : (Straight.after chan (msgs.take n)).chain.blocks <+: blocks)
    (hwritten : blocks <+: ch.blocks) : Tracks chan msgs (.resume blocks) := by
  have hsound : (after chan (msgs.take n)).Sound n := sound_take (le_of_lt hn)
  -- one block is written, and it was cut at this message
  have hone : ∀ {b : Batch κ}, ch.untimed.blocks = (after chan (msgs.take n)).chain.blocks ++
      [⟨b, kafkaMetadata n⟩] → ch.cutter = .new → Tracks chan msgs (.resume blocks) := by
    intro b hblocks hempty
    rw [← blocks_untimed] at hblocks
    rw [hblocks] at hwritten
    rw [eq_of_between_one hnew hold hwritten]
    exact tracks_resume hn hpos hmsg hrun hch hempty hblocks
  obtain ⟨-, hun⟩ | ⟨-, -, hun⟩ | ⟨env, c, henv, hc, -, hun⟩ := process_cases hch
  · rw [blocks_untimed, hun] at hwritten
    exact absurd (hold.eq_of_length_le hwritten.length_le) hnew
  · exact hone (congrArg KafkaChain.blocks hun) (by rw [cutter_untimed, hun])
  · obtain ⟨-, hb, -⟩ | ⟨-, -, hb, hr⟩ | ⟨halone, hb, hr⟩ | ⟨-, hleaves, -⟩ :=
      hsound.tidy.ordered_cases _ c env
    · -- kept
      rw [hb] at hun
      rw [blocks_untimed, hun] at hwritten
      simp only [kafkaBlocks, append_nil] at hwritten
      exact absurd (hold.eq_of_length_le hwritten.length_le) hnew
    · -- completes the batch
      rw [hb, hr] at hun
      have hblocks := congrArg KafkaChain.blocks hun
      exact hone hblocks (by rw [cutter_untimed, hun])
    · by_cases hpend : (after chan (msgs.take n)).chain.cutter.pendingBatch = []
      · rw [if_pos hpend, nil_append] at hb
        rw [hb, hr] at hun
        have hblocks := congrArg KafkaChain.blocks hun
        simp only [kafkaBlocks, length_nil, Int.natCast_zero, Int.sub_zero] at hblocks
        exact hone hblocks (by rw [cutter_untimed, hun])
      · -- two blocks, with a place between them
        rw [if_neg hpend] at hb
        have hun' := hun
        rw [hb, hr] at hun'
        have hblocks := congrArg KafkaChain.blocks hun'
        simp only [← blocks_untimed, singleton_append, kafkaBlocks, length_nil,
          length_singleton, Int.natCast_zero, Int.natCast_one, Int.sub_zero] at hblocks
        rw [hblocks] at hwritten
        obtain heq | heq := eq_of_between_two hnew hold hwritten
        · rw [heq]
          have hone : n ≠ 1 := by
            intro hone
            subst hone
            exact hreread (rereadsFirst_of_second hrun hpend hmsg henv hc halone)
          have hoffset : (resume ((after chan (msgs.take n)).chain.blocks ++
              [⟨(after chan (msgs.take n)).chain.cutter.cut.1,
                kafkaMetadata ((n : Int) - 1)⟩])).offset = n := by
            have hcast : (n : Int) - 1 = ((n - 1 : Nat) : Int) := by omega
            rw [hcast, resume_offset _ _ (by omega)]
            omega
          refine .between msg env c (after chan (msgs.take n)) ?_ hrun ?_ ?_ henv hc halone hb hr ?_
          · rw [hoffset]
          · rw [hoffset]
            exact hpos
          · rw [hoffset]
            exact hmsg
          · rw [hoffset]
            simp [resume, untimed, hsound.lastCut]
        · rw [heq]
          refine tracks_resume hn hpos hmsg hrun hch (by rw [cutter_untimed, hun']) ?_
          rw [hblocks]
          simp
    · -- left behind
      refine absurd ⟨msgs.take n, msg, env, take_concat_prefix hmsg, hrun, henv, ?_⟩ hover
      rw [hc]
      exact hleaves

theorem tracks_restart (h : Tracks chan msgs o) (hmsg : msgs[o.offset]? = some msg)
    (hch : chan.process o.chain o.offset msg = .ok ch) (hnew : o.chain.blocks ≠ blocks)
    (hold : o.chain.blocks <+: blocks) (hwritten : blocks <+: ch.blocks) :
    Tracks chan msgs (.resume blocks) := by
  have hlt : o.offset < msgs.length := lt_length hmsg
  cases h with
  | first msg' env hzero hmsg' henv hrun hun hreject =>
    rw [hzero] at hmsg
    cases hmsg.symm.trans hmsg'
    obtain ⟨ch₂, hch2, hun2⟩ := process_rejected o.chain o.offset henv hreject
    cases hch.symm.trans hch2
    rw [blocks_untimed ch, hun2] at hwritten
    exact absurd (hold.eq_of_length_le hwritten.length_le) hnew
  | between msg' env c s hs hrun hpos hmsg' henv hc halone hbatches hnew' hun =>
    cases hmsg.symm.trans hmsg'
    have htidy : s.chain.cutter.Tidy := hs ▸ (sound_take (le_of_lt hlt)).tidy
    obtain ⟨hblocks, ch₂, hch2, hun2, hcutter⟩ :=
      between_catches_up htidy henv hc halone hbatches hnew' hun hch
    rw [hblocks] at hwritten
    rw [eq_of_between_one hnew hold hwritten]
    refine tracks_resume hlt hpos hmsg (hs ▸ hrun) (hs ▸ hch2) hcutter ?_
    rw [blocks_untimed, ← hun2, ← blocks_untimed, hblocks]
  | same hle hrun hsame =>
    obtain ⟨ch₂, hch2, hun⟩ := process_congr hsame hch
    rw [blocks_untimed, hsame, ← blocks_untimed] at hnew hold
    rw [blocks_untimed ch, hun, ← blocks_untimed] at hwritten
    by_cases hzero : o.offset = 0
    · rw [hzero] at hmsg hch2 hnew
      exact tracks_restart_first hreread hmsg hch2 hnew hwritten
    · exact tracks_restart_same hover hreread hlt hzero hmsg hrun hch2 hnew hold hwritten

theorem tracks_of_reaches (h : o.Reaches chan msgs) : Tracks chan msgs o := by
  induction h with
  | start => exact .same (zero_le _) rfl rfl
  | consume _ hmsg hch ih => exact tracks_consume ih hmsg hch
  | restart _ hmsg hch hnew hold hwritten ih =>
    exact tracks_restart hover hreread ih hmsg hch hnew hold hwritten

omit hreread

omit hover

/-- The blocks of an orderer are the first ones of the orderer that is not restarted. -/
theorem Tracks.blocks_isPrefix (h : Tracks chan msgs o) :
    o.chain.blocks <+: (Straight.after chan msgs).chain.blocks := by
  have hmono : ∀ n, (after chan (msgs.take n)).chain.blocks <+: (after chan msgs).chain.blocks := by
    intro n
    have := blocks_after_append chan (msgs.take n) (msgs.drop n)
    rwa [take_append_drop] at this
  cases h with
  | same hle hrun hun =>
    rw [blocks_untimed, hun]
    exact hmono o.offset
  | between msg env c s hs hrun hpos hmsg henv hc halone hbatches hnew hun =>
    refine List.IsPrefix.trans ?_ (hmono (o.offset + 1))
    have hlt : o.offset < msgs.length := lt_length hmsg
    have hoff : s.offset = o.offset := (hs ▸ sound_take (le_of_lt hlt) : s.Sound _).offset hrun
    obtain ⟨ch₂, hch2, hun2⟩ := process_accepted s.chain o.offset henv hc
    rw [after_take_succ hmsg, ← hs, take_ok hrun (by rw [hoff]; exact hch2)]
    rw [blocks_untimed, hun, blocks_untimed ch₂, hun2, hbatches]
    exact prefix_append_right_inj _ |>.mpr ⟨_, rfl⟩
  | first msg env hzero hmsg henv hrun hun hreject =>
    rw [blocks_untimed, hun]
    exact hmono 1

theorem Tracks.finished (h : Tracks chan msgs o) (hfin : o.Finished chan msgs) :
    o.chain.untimed = (Straight.after chan msgs).chain.untimed := by
  -- a message with an envelope is there, and it is no error
  have hmore : ∀ {msg : KafkaMessage} {env : Envelope}, msgs[o.offset]? = some msg →
      msg.envelope? = some env → ¬ o.Finished chan msgs := by
    intro msg env hmsg henv hfin
    obtain hend | ⟨msg', e, hmsg', herr⟩ := hfin
    · rw [hend, getElem?_eq_none (le_refl _)] at hmsg
      cases hmsg
    · cases hmsg.symm.trans hmsg'
      exact (nomatch (process_envelope henv).symm.trans herr)
  cases h with
  | between msg env c s hs hrun hpos hmsg henv hc halone hbatches hnew hun =>
    exact absurd hfin (hmore hmsg henv)
  | first msg env hzero hmsg henv hrun hun hreject =>
    rw [← hzero] at hmsg
    exact absurd hfin (hmore hmsg henv)
  | same hle hrun hun =>
    obtain hend | ⟨msg, e, hmsg, herr⟩ := hfin
    · rw [hend, take_length] at hun
      exact hun
    · have hlt : o.offset < msgs.length := lt_length hmsg
      have hoff := (sound_take (le_of_lt hlt)).offset hrun
      have hmap := process_untimed chan o.offset msg hun
      rw [herr] at hmap
      cases hch2 : chan.process (after chan (msgs.take o.offset)).chain o.offset msg with
      | ok ch₂ =>
        rw [hch2] at hmap
        cases hmap
      | error e' =>
        have hnext := (after_take_succ hmsg).trans (take_error hrun (by rw [hoff]; exact hch2))
        have hrest := after_append_stopped (by rw [hnext]) (msgs.drop (o.offset + 1))
        rw [take_append_drop] at hrest
        rw [hrest, hnext]
        exact hun

theorem reaches_after (hp : p <+: msgs) :
    (Straight.after chan p).toKafkaOrderer.Reaches chan msgs := by
  induction p using reverseRecOn with
  | nil => exact .start
  | append_singleton p msg ih =>
    have hreach := ih ((prefix_append p [msg]).trans hp)
    rw [after_concat]
    obtain ⟨-, heq⟩ | ⟨-, -, heq⟩ | ⟨ch, hrun, hch, heq⟩ := take_cases chan (after chan p) msg
    · rw [heq]
      exact hreach
    · rw [heq]
      exact hreach
    · rw [heq]
      refine .consume hreach ?_ hch
      rw [(sound_after chan p).offset hrun]
      obtain ⟨rest, rfl⟩ := hp
      simp

theorem accepts_of_envelope (henv : msg.envelope? = some env)
    (hc : chan.apply (chan.config blocks) env = some c) :
    chan.accepts blocks msg = [env] := by
  simp [accepts, henv, hc]

/-- A message that was kept is lost with a restart behind the block before it. -/
theorem not_agree_of_overflowing (h : Overflowing chan msgs) : ¬ OrderersAgree chan msgs := by
  obtain ⟨q, msg, env, hp, hrun, henv, hleaves⟩ := h
  have hsound := sound_after chan q
  have hoff := hsound.offset hrun
  obtain ⟨c, hc, hi, ho, -⟩ := id hleaves
  rw [hc] at hleaves
  have hpend : (after chan q).chain.cutter.pendingBatch ≠ [] := by
    intro hnil
    rw [hsound.tidy.empty hnil] at ho
    exact Receiver.Tidy.not_overflows_new hi ho
  have hpos : q.length ≠ 0 := hoff ▸ hsound.pending hpend
  obtain ⟨ch, hch, hun⟩ := process_accepted (after chan q).chain q.length henv hc
  rw [hleaves.batches.1] at hun
  have hblocks := congrArg blocks hun
  simp only [← blocks_untimed, kafkaBlocks, length_nil, Int.natCast_zero, Int.sub_zero] at hblocks
  intro hagree
  have hreach : (resume ch.blocks).Reaches chan (q ++ [msg]) := by
    refine .restart (reaches_after (prefix_append q [msg])) ?_ (by rw [hoff]; exact hch) ?_ ?_
      (prefix_refl _)
    · rw [hoff]
      simp
    · rw [hblocks]
      simp
    · rw [hblocks]
      exact prefix_append _ _
  have hfin : (resume ch.blocks).Finished chan (q ++ [msg]) := by
    refine .inl ?_
    rw [hblocks, resume_offset _ _ hpos]
    simp
  have hheld := (hagree _ hp).2 _ hreach hfin
  rw [after_concat, take_ok hrun (by rw [hoff]; exact hch)] at hheld
  have haccepted := hsound.held
  rw [held, written] at haccepted hheld
  dsimp only [resume] at hheld
  rw [hblocks, accepts_of_envelope henv hc, ← haccepted] at hheld
  have hlen := congrArg length hheld
  simp [Receiver.new, Receiver.cut] at hlen

/-- An orderer that is finished and holds more than was accepted. -/
theorem not_agree_of_longer (hp : p <+: msgs) (h : o.Reaches chan p) (hfin : o.offset = p.length)
    (hlonger : (Straight.after chan p).accepted.length < o.held.length) :
    ¬ OrderersAgree chan msgs := by
  intro hagree
  rw [(hagree p hp).2 o h (.inl hfin)] at hlonger
  exact lt_irrefl _ hlonger

variable (chan p) in
/-- Every message adds at most one envelope to what is accepted. -/
theorem length_accepted_le : (Straight.after chan p).accepted.length ≤ p.length := by
  induction p using reverseRecOn with
  | nil => exact le_refl 0
  | append_singleton p msg ih =>
    rw [after_concat, length_append, length_singleton]
    obtain ⟨-, heq⟩ | ⟨-, -, heq⟩ | ⟨ch, -, -, heq⟩ := take_cases chan (after chan p) msg
    · rw [heq]
      omega
    · rw [heq]
      exact le_succ_of_le ih
    · rw [heq]
      have hone : (chan.accepts (after chan p).chain.blocks msg).length ≤ 1 := by
        refine (length_filter_le _ _).trans ?_
        cases msg.envelope? <;> simp
      rw [length_append]
      omega

theorem held_consume (henv : msg.envelope? = some env)
    (hc : chan.apply (chan.config o.chain.blocks) env = some c)
    (hch : chan.process o.chain o.offset msg = .ok ch) :
    (KafkaOrderer.mk ch (o.offset + 1)).held.length = o.held.length + 1 := by
  have hheld := process_held hch
  rw [accepts_of_envelope henv hc] at hheld
  exact (congrArg length hheld).trans length_append

variable (env c)

/-- An orderer whose only block has the message at offset zero alone. -/
theorem held_resume_first :
    (KafkaOrderer.resume [⟨⟨[env], [c]⟩, kafkaMetadata 0⟩]).held.length = 1 := rfl

theorem offset_resume_first : (KafkaOrderer.resume [⟨⟨[env], [c]⟩, kafkaMetadata 0⟩]).offset = 0 :=
  resume_offset_zero [] _

variable {env c}

/-- A first message that is alone in its block is read again. -/
theorem not_agree_of_first (hp : [msg] <+: msgs) (henv : msg.envelope? = some env)
    (hc : chan.apply chan.genesis env = some c)
    (halone : Receiver.Alone (chan.batchSize chan.genesis) c env)
    (hagain : (chan.apply (chan.commitOne chan.genesis c) env).isSome = true) :
    ¬ OrderersAgree chan msgs := by
  obtain ⟨ch, hch, -⟩ := process_accepted .new 0 henv hc
  have hblocks : ch.blocks = [⟨⟨[env], [c]⟩, kafkaMetadata 0⟩] := by
    rw [blocks_untimed, (process_first henv hc hch).1 halone]
  have hreach : (resume [⟨⟨[env], [c]⟩, kafkaMetadata 0⟩]).Reaches chan [msg] := by
    refine .restart .start rfl hch (cons_ne_nil _ _).symm nil_prefix ?_
    rw [hblocks]
  have hzero := offset_resume_first env c
  have hheld := held_resume_first env c
  generalize hr : resume [⟨⟨[env], [c]⟩, kafkaMetadata 0⟩] = r at hreach hzero hheld
  have hconfig : chan.config r.chain.blocks = chan.commitOne chan.genesis c := by
    rw [← hr]
    rfl
  obtain ⟨c', hc'⟩ := isSome_iff_exists.mp hagain
  rw [← hconfig] at hc'
  obtain ⟨ch', hch', -⟩ := process_accepted r.chain r.offset henv hc'
  refine not_agree_of_longer hp (.consume hreach (by rw [hzero]; rfl) hch') ?_ ?_
  · show r.offset + 1 = 1
    rw [hzero]
  · rw [held_consume henv hc' hch', hheld]
    exact lt_succ_of_le (length_accepted_le chan [msg])

/-- And so is one that is cut when the second message gets a block of its own. -/
theorem not_agree_of_second {msg1 : KafkaMessage} {env0 env1 : Envelope} {c0 c1 : Committer κ}
    (hp : [msg, msg1] <+: msgs) (henv0 : msg.envelope? = some env0)
    (hc0 : chan.apply chan.genesis env0 = some c0)
    (hkept : ¬ Receiver.Alone (chan.batchSize chan.genesis) c0 env0)
    (henv1 : msg1.envelope? = some env1) (hc1 : chan.apply chan.genesis env1 = some c1)
    (hi : Receiver.Isolates (chan.batchSize chan.genesis) c1 env1) :
    ¬ OrderersAgree chan msgs := by
  obtain ⟨hnoop, -, -⟩ := ordered_new_kept hkept
  obtain ⟨ch, hch, -⟩ := process_accepted .new 0 henv0 hc0
  obtain ⟨hblocks, hcutter⟩ := (process_first henv0 hc0 hch).2 hkept
  -- the straight orderer cuts the first message when the second one comes
  have hsecond : chan.apply (chan.config ch.blocks) env1 = some c1 := by
    rw [hblocks]
    exact hc1
  obtain ⟨ch1, hch1, hun1⟩ := process_accepted ch 1 henv1 hsecond
  have hblocks1 : [⟨⟨[env0], [c0]⟩, kafkaMetadata 0⟩] <+: ch1.blocks := by
    rw [blocks_untimed, hun1, hblocks, hcutter]
    show _ <+: [] ++ kafkaBlocks 1 ((new.enqueue env0 c0).ordered
      (chan.batchSize chan.genesis) (some c1) env1).1.batches
    rw [(ordered_isolates hi).1]
    exact prefix_append [_] _
  have hreach : (resume [⟨⟨[env0], [c0]⟩, kafkaMetadata 0⟩]).Reaches chan [msg, msg1] := by
    refine .restart (.consume .start rfl hch) rfl hch1 ?_ ?_ hblocks1
    · rw [hblocks]
      exact (cons_ne_nil _ _).symm
    · rw [hblocks]
      exact nil_prefix
  have hzero := offset_resume_first env0 c0
  have hheld := held_resume_first env0 c0
  generalize hr : resume [⟨⟨[env0], [c0]⟩, kafkaMetadata 0⟩] = r at hreach hzero hheld
  have hconfig : chan.config r.chain.blocks = chan.genesis := by
    rw [← hr, hnoop]
    rfl
  rw [← hconfig] at hc0 hc1 hkept
  obtain ⟨ch₂, hch2, hun2⟩ := process_accepted r.chain r.offset henv0 hc0
  have hblocks2 : ch₂.blocks = r.chain.blocks := by
    have hnew : r.chain.cutter = .new := by
      rw [← hr]
      rfl
    rw [blocks_untimed, hun2, hnew, (ordered_new_kept hkept).2.1]
    exact append_nil _
  rw [← hblocks2] at hc1
  obtain ⟨ch3, hch3, -⟩ := process_accepted ch₂ (r.offset + 1) henv1 hc1
  have hreach2 : KafkaOrderer.Reaches chan [msg, msg1] ⟨ch₂, r.offset + 1⟩ :=
    .consume hreach (by rw [hzero]; rfl) hch2
  refine not_agree_of_longer hp (.consume hreach2 ?_ hch3) ?_ ?_
  · rw [hzero]
    rfl
  · show r.offset + 1 + 1 = 2
    rw [hzero]
  · have hheld2 := held_consume henv0 hc0 hch2
    rw [held_consume henv1 hc1 hch3, hheld2, hheld]
    exact lt_succ_of_le (length_accepted_le chan [msg, msg1])

end Track

/-- Orderers agree, whenever they are restarted, exactly if no message is kept at which the
messages before it are cut, and the first message is not read again. -/
theorem orderers_agree_iff (chan : Channel κ γ) (msgs : List KafkaMessage) :
    OrderersAgree chan msgs ↔ ¬ Overflowing chan msgs ∧ ¬ RereadsFirst chan msgs := by
  constructor
  · intro hagree
    refine ⟨fun h => not_agree_of_overflowing h hagree, fun h => ?_⟩
    obtain ⟨msg, env, c, hp, henv, hc, halone, hagain⟩ |
      ⟨msg0, env0, c0, msg1, env1, c1, hp, henv0, hc0, hkept, henv1, hc1, hi⟩ := h
    · exact not_agree_of_first hp henv hc halone hagain hagree
    · exact not_agree_of_second hp henv0 hc0 hkept henv1 hc1 hi hagree
  · intro h p hp
    have hover : ¬ Overflowing chan p := by
      intro hbad
      obtain ⟨q, msg, env, hq, hbad⟩ := hbad
      exact h.1 ⟨q, msg, env, hq.trans hp, hbad⟩
    have hreread : ¬ RereadsFirst chan p := by
      intro hbad
      obtain ⟨msg, env, c, hq, hbad⟩ | ⟨msg0, env0, c0, msg1, env1, c1, hq, hbad⟩ := hbad
      · exact h.2 (.inl ⟨msg, env, c, hq.trans hp, hbad⟩)
      · exact h.2 (.inr ⟨msg0, env0, c0, msg1, env1, c1, hq.trans hp, hbad⟩)
    have htracks : ∀ {o : KafkaOrderer κ}, o.Reaches chan p → Tracks chan p o :=
      fun ho => tracks_of_reaches hover hreread ho
    refine ⟨fun o1 o2 h1 h2 => ⟨?_, fun hf1 hf2 => ?_⟩, fun o ho hf => ?_⟩
    · obtain hpre | hpre := prefix_or_prefix_of_prefix (htracks h1).blocks_isPrefix
        (htracks h2).blocks_isPrefix
      · exact .inl (hpre.map _)
      · exact .inr (hpre.map _)
    · have hsame := ((htracks h1).finished hf1).trans ((htracks h2).finished hf2).symm
      rw [envelopes, envelopes, blocks_untimed, hsame, ← blocks_untimed]
    · have hsame := (htracks ho).finished hf
      rw [← (sound_after chan p).held, held, written, blocks_untimed, cutter_untimed, hsame]
      rfl

/-- With room for four bytes, a message of two bytes that comes after one of three is lost by an
orderer that is restarted at the block of the first; with one message to a block, the message at
offset zero is in two blocks of an orderer that is restarted at the first. -/
theorem orderers_disagree :
    ¬ OrderersAgree (openChannel ⟨10, 4⟩)
        [.connect, .regular [10, 3, 1, 1, 1], .regular [10, 2, 2, 2]] ∧
      ¬ OrderersAgree (openChannel ⟨1, 100⟩) [.regular [10, 2, 2, 2]] := by
  have henv : KafkaMessage.envelope? (.regular [10, 2, 2, 2]) = some ⟨[2, 2], none⟩ := by
    decide +kernel
  constructor
  · refine not_agree_of_overflowing ⟨[.connect, .regular [10, 3, 1, 1, 1]], .regular [10, 2, 2, 2],
      ⟨[2, 2], none⟩, prefix_refl _, ?_, henv, ?_⟩
    · decide +kernel
    · decide +kernel
  · refine not_agree_of_first (prefix_refl _) henv rfl (.inr ?_) rfl
    decide +kernel

end FabricOev.Orderer
