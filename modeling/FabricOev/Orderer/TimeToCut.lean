import FabricOev.Lib.Runs
import FabricOev.Orderer.KafkaOrderers

/-!
# Orderers that tell each other to cut

Every orderer posts a message to cut from what it has consumed itself, and consumes the messages of
all. A message to cut a block that is not the next one ends the loop, and so does one for the next
block when nothing is pending. Neither happens: who posts has seen a part of the partition in which
the block was to come and something was pending, and whoever consumes the message has consumed that
part too.
-/

namespace FabricOev.Orderer

open Go Protos Lib List Straight Option Nat Function

variable {ι κ γ : Type}

/-- The loop of an orderer, with the error it has ended with. -/
structure Consenter (κ : Type) extends KafkaOrderer κ where
  exited : Option TimeToCutError

structure Cluster (ι κ : Type) where
  partition : List KafkaMessage
  sent : List Nat
  orderers : ι → Consenter κ

inductive ClusterEvent (ι : Type) where
  | post (msg : KafkaMessage)
  | arrive (blockNumber : Nat)
  | consume (i : ι)
  | expire (i : ι)

def KafkaMessage.isTimeToCut : KafkaMessage → Bool
  | .timeToCut _ => true
  | _ => false

/-- One turn of the loop for the message at the offset; an error ends it. -/
def Consenter.consume (chan : Channel κ γ) (c : Consenter κ) (msg : KafkaMessage) : Consenter κ :=
  match chan.process c.chain c.offset msg with
  | .error e => { c with exited := some e }
  | .ok chain => ⟨⟨chain, c.offset + 1⟩, none⟩

namespace Cluster

def start : Cluster ι κ := ⟨[], [], fun _ => ⟨.new, none⟩⟩

variable [DecidableEq ι]

/-- A message to cut may arrive any time after, or never, or several times. -/
def step (chan : Channel κ γ) (s : Cluster ι κ) : ClusterEvent ι → Option (Cluster ι κ)
  | .post msg =>
    if msg.isTimeToCut then none else some { s with partition := s.partition ++ [msg] }
  | .arrive n =>
    if n ∈ s.sent then some { s with partition := s.partition ++ [.timeToCut n] } else none
  | .consume i =>
    if (s.orderers i).exited = none then
      (s.partition[(s.orderers i).offset]?).map fun msg =>
        { s with orderers := update s.orderers i ((s.orderers i).consume chan msg) }
    else none
  | .expire i =>
    if (s.orderers i).exited = none ∧ (s.orderers i).chain.timer = true then
      some { s with
        sent := s.sent ++ [(s.orderers i).chain.lastCutBlockNumber + 1]
        orderers := update s.orderers i
          { s.orderers i with chain := (s.orderers i).chain.sendTimeToCut.2 } }
    else none

end Cluster

/-- The message to cut block `n` is for the next block, with something pending, or stale. -/
def CutInOrder (chan : Channel κ γ) (msgs : List KafkaMessage) (n : Nat) : Prop :=
  n ≤ (Straight.after chan msgs).chain.lastCutBlockNumber + 1 ∧
    (n = (Straight.after chan msgs).chain.lastCutBlockNumber + 1 →
      (Straight.after chan msgs).chain.cutter.pendingBatch ≠ [])

section Process

variable {chan : Channel κ γ} {ch ch' : KafkaChain κ} {offset : Nat} {msg : KafkaMessage}

/-- Blocks are not taken back, and without a new block nothing pending is. -/
theorem process_lastCut (h : chan.process ch offset msg = .ok ch') :
    ch.lastCutBlockNumber ≤ ch'.lastCutBlockNumber ∧
      (ch'.lastCutBlockNumber = ch.lastCutBlockNumber → ch.cutter.pendingBatch ≠ [] →
        ch'.cutter.pendingBatch ≠ []) := by
  have hlast : ch'.lastCutBlockNumber = ch'.untimed.lastCutBlockNumber := rfl
  obtain ⟨-, hun⟩ | ⟨-, -, hun⟩ | ⟨env, c, -, -, -, hun⟩ := Channel.process_cases h
  · rw [hlast, cutter_untimed ch', hun]
    exact ⟨le_refl _, fun _ hne => hne⟩
  · rw [hlast, hun]
    refine ⟨le_succ _, fun heq => ?_⟩
    exact absurd heq (succ_ne_self _)
  · rw [hlast, cutter_untimed ch', hun]
    refine ⟨le_add_right _ _, fun heq hne => ?_⟩
    have hmsgs := ch.cutter.ordered_messages (chan.batchSize (chan.config ch.blocks)) c env
    have hnil : (ch.cutter.ordered (chan.batchSize (chan.config ch.blocks))
        (some c) env).1.batches = [] := by
      refine eq_nil_of_length_eq_zero ?_
      dsimp only at heq
      omega
    rw [hnil, flatMap_nil, nil_append] at hmsgs
    rw [hmsgs]
    exact concat_ne_nil _ _

/-- A timer runs only while something is pending. -/
theorem process_timer (h : chan.process ch offset msg = .ok ch')
    (ht : ch.timer = true → ch.cutter.pendingBatch ≠ []) (ht' : ch'.timer = true) :
    ch'.cutter.pendingBatch ≠ [] := by
  obtain ⟨hsame, -⟩ | ⟨-, -, hcut⟩ | ⟨payload, env, -, -, hproc⟩ :=
    KafkaChain.processMessage_eq_ok h
  · rw [hsame] at ht' ⊢
    exact ht ht'
  · rw [hcut] at ht'
    cases ht'
  · rw [KafkaChain.processEnvelope_eq] at hproc
    cases hv : chan.apply (chan.config ch.blocks) env with
    | none =>
      rw [hv, Receiver.ordered_none] at hproc
      rw [hproc] at ht' ⊢
      exact ht (by simpa using ht')
    | some c =>
      rw [hv] at hproc
      have hmsgs := ch.cutter.ordered_messages (chan.batchSize (chan.config ch.blocks)) c env
      rw [hproc] at ht' ⊢
      split at ht'
      · rename_i hnil
        rw [hnil, flatMap_nil, nil_append] at hmsgs
        rw [hmsgs]
        exact concat_ne_nil _ _
      · cases ht'

variable (chan ch offset) in
theorem process_ok_of_not_timeToCut (h : msg.isTimeToCut = false) :
    ∃ ch', chan.process ch offset msg = .ok ch' := by
  cases msg with
  | timeToCut n => cases h
  | _ => exact ⟨_, rfl⟩

theorem processTimeToCut_ok {n : Nat} (hle : n ≤ ch.lastCutBlockNumber + 1)
    (hpend : n = ch.lastCutBlockNumber + 1 → ch.cutter.pendingBatch ≠ []) :
    ∃ ch', ch.processTimeToCut n offset = .ok ch' := by
  unfold KafkaChain.processTimeToCut
  dsimp only [Receiver.cut]
  by_cases hn : n = ch.lastCutBlockNumber + 1
  · have hlen : ¬ ch.cutter.pendingBatch.length = 0 :=
      fun h => hpend hn (eq_nil_of_length_eq_zero h)
    rw [if_pos hn, if_neg hlen]
    exact ⟨_, rfl⟩
  · rw [if_neg hn, if_neg (by omega)]
    exact ⟨_, rfl⟩

end Process

section Order

variable {chan : Channel κ γ} {msgs rest : List KafkaMessage} {msg : KafkaMessage} {n : Nat}

/-- A message to cut that is in order stays so, however late it is consumed. -/
theorem CutInOrder.append (h : CutInOrder chan msgs n) (rest : List KafkaMessage) :
    CutInOrder chan (msgs ++ rest) n := by
  induction rest using reverseRecOn with
  | nil => rwa [append_nil]
  | append_singleton rest msg ih =>
    rw [← append_assoc, CutInOrder, after_concat]
    obtain ⟨-, heq⟩ | ⟨-, -, heq⟩ | ⟨ch, -, hch, heq⟩ :=
      take_cases chan (after chan (msgs ++ rest)) msg
    · rw [heq]
      exact ih
    · rw [heq]
      exact ih
    · rw [heq]
      obtain ⟨hle, hpend⟩ := process_lastCut hch
      obtain ⟨hn, hne⟩ := ih
      dsimp only
      refine ⟨by omega, fun hlast => hpend (by omega) (hne (by omega))⟩

/-- Every message to cut in the partition is in order where it stands. -/
def CutsInOrder (chan : Channel κ γ) (msgs : List KafkaMessage) : Prop :=
  ∀ p n, p ++ [.timeToCut n] <+: msgs → CutInOrder chan p n

theorem CutsInOrder.not_stopped (h : CutsInOrder chan msgs) :
    (Straight.after chan msgs).stopped = false := by
  induction msgs using reverseRecOn with
  | nil => rfl
  | append_singleton msgs msg ih =>
    have hrun := ih fun p n hp => h p n (hp.trans (prefix_append _ _))
    have hok : ∃ ch, chan.process (after chan msgs).chain
        (after chan msgs).offset msg = .ok ch := by
      cases msg with
      | timeToCut n =>
        obtain ⟨hle, hpend⟩ := h msgs n (prefix_refl _)
        exact processTimeToCut_ok hle hpend
      | _ => exact process_ok_of_not_timeToCut chan _ _ rfl
    obtain ⟨ch, hch⟩ := hok
    rw [after_concat, take_ok hrun hch]

theorem CutsInOrder.concat (h : CutsInOrder chan msgs)
    (hmsg : ∀ n, msg = .timeToCut n → CutInOrder chan msgs n) : CutsInOrder chan (msgs ++ [msg]) := by
  intro p n hp
  obtain heq | hp := prefix_concat_iff.mp hp
  · obtain ⟨rfl, hn⟩ := append_inj' heq rfl
    exact hmsg n (cons.inj hn).1.symm
  · exact h p n hp

end Order

/-! ## What holds of every run -/

/-- The loop of an orderer goes on, as if it had consumed the messages without a timer. -/
structure Consenter.Follows (chan : Channel κ γ) (partition : List KafkaMessage)
    (c : Consenter κ) : Prop where
  running : c.exited = none
  offset : c.offset ≤ partition.length
  chain : c.chain.untimed = (Straight.after chan (partition.take c.offset)).chain.untimed
  timer : c.chain.timer = true → c.chain.cutter.pendingBatch ≠ []

structure Cluster.Coherent (chan : Channel κ γ) (s : Cluster ι κ) : Prop where
  partition : CutsInOrder chan s.partition
  sent : ∀ n ∈ s.sent, CutInOrder chan s.partition n
  orderers : ∀ i, (s.orderers i).Follows chan s.partition

namespace Consenter.Follows

variable {chan : Channel κ γ} {partition : List KafkaMessage} {c : Consenter κ}
  {msg : KafkaMessage}

variable (h : c.Follows chan partition)
include h

/-- The partition only grows behind the offset. -/
theorem append (msg : KafkaMessage) : c.Follows chan (partition ++ [msg]) := by
  refine ⟨h.running, ?_, ?_, h.timer⟩
  · rw [length_append]
    exact le_add_right_of_le h.offset
  · rw [take_append_of_le_length h.offset]
    exact h.chain

/-- The block that an orderer wants to cut is in order where it stands, and so at the end of
the partition. -/
theorem cutInOrder (ht : c.chain.timer = true) :
    CutInOrder chan partition (c.chain.lastCutBlockNumber + 1) := by
  have hlast : c.chain.lastCutBlockNumber =
      (after chan (partition.take c.offset)).chain.untimed.lastCutBlockNumber := by
    rw [← h.chain]
    rfl
  have hcutter : (after chan (partition.take c.offset)).chain.cutter = c.chain.cutter := by
    rw [cutter_untimed, ← h.chain]
    rfl
  have hhere : CutInOrder chan (partition.take c.offset) (c.chain.lastCutBlockNumber + 1) := by
    refine ⟨le_of_eq (congrArg succ hlast), fun _ => ?_⟩
    rw [hcutter]
    exact h.timer ht
  have hend := hhere.append (partition.drop c.offset)
  rwa [take_append_drop] at hend

theorem sendTimeToCut : Follows chan partition { c with chain := c.chain.sendTimeToCut.2 } :=
  ⟨h.running, h.offset, h.chain, nofun⟩

theorem consume (hcuts : CutsInOrder chan partition) (hmsg : partition[c.offset]? = some msg) :
    (c.consume chan msg).Follows chan partition := by
  have hlt : c.offset < partition.length := lt_length hmsg
  have hpre : ∀ k, CutsInOrder chan (partition.take k) :=
    fun k p n hp => hcuts p n (hp.trans ( take_prefix _ _))
  have hoff : (after chan (partition.take c.offset)).offset = c.offset :=
    (sound_take (le_of_lt hlt)).offset (hpre _).not_stopped
  have hnext := (hpre (c.offset + 1)).not_stopped
  rw [after_take_succ hmsg] at hnext
  obtain ⟨hstop, heq⟩ | ⟨-, -, heq⟩ | ⟨ch2, -, hch2, heq⟩ :=
    take_cases chan (after chan (partition.take c.offset)) msg
  · exact absurd (hpre c.offset).not_stopped (by rw [hstop]; nofun)
  · rw [heq] at hnext
    cases hnext
  · rw [hoff] at hch2
    obtain ⟨ch, hch, hun⟩ := Channel.process_congr h.chain.symm hch2
    rw [Consenter.consume, hch]
    refine ⟨rfl, hlt, ?_, process_timer hch h.timer⟩
    rw [after_take_succ hmsg, heq, ← hun]

end Consenter.Follows

namespace Cluster

variable {chan : Channel κ γ} {s s' : Cluster ι κ}

theorem coherent_start (chan : Channel κ γ) : (start : Cluster ι κ).Coherent chan := by
  refine ⟨fun p n hp => ?_, nofun, fun i => ⟨rfl, le_refl _, rfl, nofun⟩⟩
  have hnil := prefix_nil.mp hp
  exact absurd hnil (concat_ne_nil _ _)

theorem Coherent.concat {msg : KafkaMessage} (h : s.Coherent chan)
    (hmsg : ∀ n, msg = .timeToCut n → CutInOrder chan s.partition n) :
    Coherent chan { s with partition := s.partition ++ [msg] } :=
  ⟨h.partition.concat hmsg, fun n hn => (h.sent n hn).append _, fun i => (h.orderers i).append msg⟩

variable [DecidableEq ι]

theorem Coherent.update {c : Consenter κ} (h : s.Coherent chan) (i : ι)
    (hc : c.Follows chan s.partition) :
    Coherent chan { s with orderers := update s.orderers i c } := by
  refine ⟨h.partition, h.sent, fun j => ?_⟩
  by_cases hj : j = i
  · subst hj
    simpa using hc
  · simpa [update_of_ne hj] using h.orderers j

theorem Coherent.step {e : ClusterEvent ι} (h : s.Coherent chan) (hs : s.step chan e = some s') :
    s'.Coherent chan := by
  cases e with
  | post msg =>
    simp only [Cluster.step] at hs
    split at hs
    · cases hs
    · rename_i hmsg
      cases hs
      refine h.concat fun n hn => ?_
      rw [hn] at hmsg
      exact absurd rfl hmsg
  | arrive n =>
    simp only [Cluster.step] at hs
    split at hs
    · rename_i hn
      cases hs
      refine h.concat fun n' hn' => ?_
      cases hn'
      exact h.sent n hn
    · cases hs
  | consume i =>
    simp only [Cluster.step] at hs
    split at hs
    · obtain ⟨msg, hmsg, rfl⟩ := map_eq_some_iff.mp hs
      exact h.update i ((h.orderers i).consume h.partition hmsg)
    · cases hs
  | expire i =>
    simp only [Cluster.step] at hs
    split at hs
    · rename_i hi
      cases hs
      have hupdate := h.update i (h.orderers i).sendTimeToCut
      refine ⟨hupdate.partition, fun n hn => ?_, hupdate.orderers⟩
      obtain hn | hn := mem_append.mp hn
      · exact h.sent n hn
      · rw [mem_singleton.mp hn]
        exact (h.orderers i).cutInOrder hi.2
    · cases hs

/-- However the orderers of a channel and their timers are interleaved, no loop ends with one
of the errors of `processTimeToCut`. -/
theorem consenters_never_exit (chan : Channel κ γ) (es : List (ClusterEvent ι))
    (hrun : run (step chan) start es = some s) (i : ι) : (s.orderers i).exited = none :=
  ((holds_of_run (fun _ _ _ h hs => h.step hs) (coherent_start chan) hrun).orderers i).running

/-- Both of two orderers tell to cut the same block, and one of the messages arrives twice. -/
def crossingCuts : List (ClusterEvent Bool) :=
  [.post .connect, .post (.regular [10, 2, 2, 2]), .consume true, .consume true, .consume false,
    .consume false, .expire true, .arrive 1, .expire false, .consume true, .arrive 1, .arrive 1,
    .consume true, .consume false, .consume true, .consume false]

theorem crossing_cuts_never_exit : ∃ s : Cluster Bool Unit,
    run (step (openChannel ⟨10, 100⟩)) start crossingCuts = some s ∧
      ((s.orderers true).offset = 5 ∧ (s.orderers false).chain.blocks.length = 1) ∧
      (s.orderers true).exited = none ∧ (s.orderers false).exited = none := by
  have hsome : ((run (step (openChannel ⟨10, 100⟩)) start crossingCuts).any fun s =>
      (s.orderers true).offset = 5 ∧ (s.orderers false).chain.blocks.length = 1) = true := by
    decide +kernel
  obtain ⟨s, hrun, hs⟩ := (any_eq_true _ _).mp hsome
  exact ⟨s, hrun, by simpa using hs, consenters_never_exit _ _ hrun true,
    consenters_never_exit _ _ hrun false⟩

end Cluster

end FabricOev.Orderer
