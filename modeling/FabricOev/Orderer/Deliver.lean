import FabricOev.Lib.Runs
import Mathlib.Data.List.Infix
import Mathlib.Logic.Function.Basic

/-!
# Delivering blocks

`WriteBlock` of an orderer channel applies the committers of a block and appends it to the ledger;
`deliver.Handle` reads behind it and looks at the readers policy again when the sequence of the
configuration has grown. The two are followed from one shared read or write to the next. A block
stands in the ledger as the configuration in force after it, numbered by its sequence.
-/

namespace FabricOev.Orderer

open Lib List Option Nat Function

/-- Where `WriteBlock` is: not called; policies of a config block in force; all committers applied;
block added; signal closed. -/
inductive WriterPc where
  | idle
  | swapped
  | applied
  | added
  | closing
deriving DecidableEq, Repr

structure ChainState where
  policies : Nat
  sequence : Nat
  blocks : List Nat
  signal : Nat
  closed : Nat
  writer : WriterPc
deriving DecidableEq, Repr

namespace ChainState

def new : ChainState := ⟨0, 0, [0], 0, 0, .idle⟩

/-- `WriteBlock` is called for a config block or another one. -/
def begin (c : ChainState) (config : Bool) : Option ChainState :=
  if c.writer ≠ .idle then none
  else if config then some { c with policies := c.policies + 1, writer := .swapped }
  else some { c with writer := .applied }

def write (c : ChainState) : Option ChainState :=
  match c.writer with
  | .idle => none
  | .swapped => some { c with sequence := c.policies, writer := .applied }
  | .applied => some { c with blocks := c.blocks ++ [c.policies], writer := .added }
  | .added => some { c with closed := c.signal + 1, writer := .closing }
  | .closing => some { c with signal := c.signal + 1, writer := .idle }

end ChainState

/-- Where `Handle` is with a request: reading the sequence and applying the policy, for the first
time or again; in `ReadyChan`; in the `select`; in `Next`; done. -/
inductive StreamPc where
  | start
  | check
  | seek
  | readyChan
  | compare (signal : Nat)
  | wait (signal : Option Nat)
  | ready
  | recheck
  | next
  | stopped
deriving DecidableEq, Repr

structure Stream where
  pc : StreamPc
  lastConfigSequence : Nat
  accepted : Nat
  blockNumber : Nat
  sent : List (Nat × Nat)
deriving DecidableEq, Repr

namespace Stream

def new : Stream := ⟨.start, 0, 0, 0, []⟩

variable (accepts : Nat → Bool) (c : ChainState)

/-- The next step of `Handle`; `accepts` are the configurations whose readers policy accepts. -/
def step (s : Stream) (number : Nat) : Option Stream :=
  match s.pc with
  | .start => some { s with pc := .check, lastConfigSequence := c.sequence }
  | .check =>
    if accepts c.policies then some { s with pc := .seek, accepted := c.policies }
    else some { s with pc := .stopped }
  | .seek =>
    if number ≤ c.blocks.length then some { s with pc := .readyChan, blockNumber := number }
    else some { s with pc := .stopped }
  | .readyChan => some { s with pc := .compare c.signal }
  | .compare signal =>
    some { s with pc := .wait (if c.blocks.length ≤ s.blockNumber then some signal else none) }
  | .wait none => some { s with pc := .ready }
  | .wait (some signal) => if signal < c.closed then some { s with pc := .ready } else none
  | .ready =>
    if s.lastConfigSequence < c.sequence then
      some { s with pc := .recheck, lastConfigSequence := c.sequence }
    else some { s with pc := .next }
  | .recheck =>
    if accepts c.policies then some { s with pc := .next, accepted := c.policies }
    else some { s with pc := .stopped }
  -- `Next` waits by itself for a block that is not there
  | .next =>
    if s.blockNumber < c.blocks.length then
      some { s with
        pc := .readyChan, blockNumber := s.blockNumber + 1
        sent := s.sent ++ [(s.blockNumber, s.accepted)] }
    else none
  | .stopped => none

end Stream

/-- A channel and the requests that are served from it. -/
structure DeliverState (ι : Type) where
  chain : ChainState
  streams : ι → Stream

inductive DeliverEvent (ι : Type) where
  | begin (config : Bool)
  | write
  | stream (i : ι) (number : Nat)
deriving DecidableEq, Repr

namespace DeliverState

variable {ι : Type} [DecidableEq ι] (accepts : ι → Nat → Bool)

def new : DeliverState ι := ⟨.new, fun _ => .new⟩

def step (s : DeliverState ι) : DeliverEvent ι → Option (DeliverState ι)
  | .begin config => (s.chain.begin config).map ({ s with chain := · })
  | .write => s.chain.write.map ({ s with chain := · })
  | .stream i number =>
    ((s.streams i).step (accepts i) s.chain number).map fun t =>
      { s with streams := update s.streams i t }

end DeliverState

/-! ## What the streams may send -/

/-- The block of a number is there, and its configuration is not after the given one. -/
def Covered (c : ChainState) (n config : Nat) : Prop := ∃ b, c.blocks[n]? = some b ∧ b ≤ config

def ChainState.Signalling (c : ChainState) : Prop := c.writer = .added ∨ c.writer = .closing

instance (c : ChainState) : Decidable c.Signalling := inferInstanceAs (Decidable (_ ∨ _))

def Fresh (c : ChainState) (signal n : Nat) : Prop :=
  n < c.blocks.length ∨ n ≤ c.blocks.length ∧ signal = c.signal ∧ c.closed ≤ signal ∧ ¬ c.Signalling

structure ChainOk (c : ChainState) : Prop where
  sequence : c.sequence ≤ c.policies
  policies : c.writer ≠ .swapped → c.policies = c.sequence
  blocks : ∀ b ∈ c.blocks, b ≤ c.sequence
  closed : c.writer ≠ .closing → c.closed ≤ c.signal
  closedNext : c.closed ≤ c.signal + 1

/-- The request was accepted by a configuration that is not before the sequence last seen. -/
def Stream.Authorised (accepts : Nat → Bool) (s : Stream) : Prop :=
  s.lastConfigSequence ≤ s.accepted ∧ accepts s.accepted = true

structure StreamOk (accepts : Nat → Bool) (c : ChainState) (s : Stream) : Prop where
  sent : ∀ e ∈ s.sent, Covered c e.1 e.2 ∧ accepts e.2 = true
  pc : match s.pc with
    | .start | .stopped => True
    | .check => s.lastConfigSequence ≤ c.sequence
    | .seek => s.Authorised accepts
    | .readyChan => s.Authorised accepts ∧ s.blockNumber ≤ c.blocks.length
    | .compare signal | .wait (some signal) => s.Authorised accepts ∧ Fresh c signal s.blockNumber
    | .wait none | .ready => s.Authorised accepts ∧ s.blockNumber < c.blocks.length
    | .recheck => s.lastConfigSequence ≤ c.sequence ∧ Covered c s.blockNumber s.lastConfigSequence
    | .next => s.Authorised accepts ∧ Covered c s.blockNumber s.lastConfigSequence

theorem Covered.mono {c c' : ChainState} (hblocks : c.blocks <+: c'.blocks) {n config : Nat}
    (h : Covered c n config) : Covered c' n config := by
  obtain ⟨b, hb, hle⟩ := h
  obtain ⟨more, hmore⟩ := hblocks
  have hlt := (List.getElem?_eq_some_iff.mp hb).1
  exact ⟨b, by rw [← hmore, getElem?_append_left hlt, hb], hle⟩

/-- What the writer does keeps what a stream relies on. -/
theorem StreamOk.mono {accepts : Nat → Bool} {c c' : ChainState} {s : Stream}
    (hs : StreamOk accepts c s) (hseq : c.sequence ≤ c'.sequence)
    (hblocks : c.blocks <+: c'.blocks)
    (hfresh : ∀ signal n, Fresh c signal n → Fresh c' signal n) : StreamOk accepts c' s := by
  obtain ⟨hsent, hpc⟩ := hs
  have hlen := hblocks.length_le
  refine ⟨fun e he => ⟨(hsent e he).1.mono hblocks, (hsent e he).2⟩, ?_⟩
  split at hpc
  · trivial
  · trivial
  · exact hpc.trans hseq
  · exact hpc
  · exact ⟨hpc.1, hpc.2.trans hlen⟩
  · exact ⟨hpc.1, hfresh _ _ hpc.2⟩
  · exact ⟨hpc.1, hfresh _ _ hpc.2⟩
  · exact ⟨hpc.1, hpc.2.trans_le hlen⟩
  · exact ⟨hpc.1, hpc.2.trans_le hlen⟩
  · exact ⟨hpc.1.trans hseq, hpc.2.mono hblocks⟩
  · exact ⟨hpc.1, hpc.2.mono hblocks⟩

theorem chain_write {c c' : ChainState} (hc : ChainOk c)
    (h : c.write = some c' ∨ ∃ config, c.begin config = some c') :
    ChainOk c' ∧ c.sequence ≤ c'.sequence ∧ c.blocks <+: c'.blocks ∧
      ∀ signal n, Fresh c signal n → Fresh c' signal n := by
  obtain ⟨hseq, hpol, hblocks, hclosed, hnext⟩ := hc
  rcases h with h | ⟨config, h⟩
  · rw [ChainState.write] at h
    split at h
    · exact nomatch h
    · rename_i hw
      cases h
      refine ⟨⟨le_refl _, fun _ => rfl, fun b hb => (hblocks b hb).trans hseq,
        fun _ => hclosed (by simp [hw]), hnext⟩, hseq, prefix_rfl, fun signal n hf => ?_⟩
      simpa [Fresh, ChainState.Signalling, hw] using hf
    · rename_i hw
      cases h
      have heq := hpol (by simp [hw])
      refine ⟨⟨hseq, fun _ => heq, ?_, fun _ => hclosed (by simp [hw]), hnext⟩, le_refl _,
        prefix_append .., fun signal n hf => .inl ?_⟩
      · intro b hb
        rcases mem_append.mp hb with hb | hb
        · exact hblocks b hb
        · exact (mem_singleton.mp hb).trans_le heq.le
      · have hle : n ≤ c.blocks.length := hf.elim le_of_lt And.left
        simpa using lt_succ_of_le hle
    · rename_i hw
      cases h
      refine ⟨⟨hseq, fun _ => hpol (by simp [hw]), hblocks, nofun, le_refl _⟩, le_refl _,
        prefix_rfl, fun signal n hf => .inl (hf.resolve_right fun hr => hr.2.2.2 (.inl hw))⟩
    · rename_i hw
      cases h
      refine ⟨⟨hseq, fun _ => hpol (by simp [hw]), hblocks, fun _ => hnext,
        hnext.trans (le_succ _)⟩, le_refl _, prefix_rfl,
        fun signal n hf => .inl (hf.resolve_right fun hr => hr.2.2.2 (.inr hw))⟩
  · rw [ChainState.begin] at h
    split_ifs at h with hidle hconfig
    · cases h
      have hw := not_not.mp hidle
      refine ⟨⟨hseq.trans (le_succ _), fun hne => absurd rfl hne, hblocks,
        fun _ => hclosed (by simp [hw]), hnext⟩, le_refl _, prefix_rfl,
        fun signal n hf => ?_⟩
      simpa [Fresh, ChainState.Signalling, hw] using hf
    · cases h
      have hw := not_not.mp hidle
      refine ⟨⟨hseq, fun _ => hpol (by simp [hw]), hblocks, fun _ => hclosed (by simp [hw]),
        hnext⟩, le_refl _, prefix_rfl, fun signal n hf => ?_⟩
      simpa [Fresh, ChainState.Signalling, hw] using hf

/-- `ReadyChan` reads the signal between `AddBlock` of the block before and its signal. -/
def Stream.Overtakes (c : ChainState) (s : Stream) : Prop :=
  s.pc = .readyChan ∧ c.blocks.length ≤ s.blockNumber ∧ c.Signalling

/-- The configuration of a block that is there is not after the sequence. -/
theorem ChainOk.covered {c : ChainState} (hc : ChainOk c) {n : Nat} (h : n < c.blocks.length) :
    Covered c n c.sequence :=
  ⟨_, getElem?_eq_getElem h, hc.blocks _ (getElem_mem h)⟩

theorem StreamOk.step {accepts : Nat → Bool} {c : ChainState} {s s' : Stream} {number : Nat}
    (hs : StreamOk accepts c s) (hc : ChainOk c) (hgood : ¬ s.Overtakes c)
    (h : s.step accepts c number = some s') : StreamOk accepts c s' := by
  obtain ⟨hsent, hpc⟩ := hs
  unfold Stream.step at h
  split at h <;> rename_i hcase <;> simp only [hcase] at hpc
  · cases h
    exact ⟨hsent, le_refl _⟩
  · split_ifs at h with haccept <;> cases h
    · exact ⟨hsent, hpc.trans hc.sequence, haccept⟩
    · exact ⟨hsent, trivial⟩
  · split_ifs at h with hnum <;> cases h
    · exact ⟨hsent, hpc, hnum⟩
    · exact ⟨hsent, trivial⟩
  · cases h
    refine ⟨hsent, hpc.1, ?_⟩
    rcases lt_or_ge s.blockNumber c.blocks.length with hlt | hge
    · exact .inl hlt
    · have hquiet : ¬ c.Signalling := fun hsig => hgood ⟨hcase, hge, hsig⟩
      exact .inr ⟨hpc.2, rfl, hc.closed fun hw => hquiet (.inr hw), hquiet⟩
  · split_ifs at h with hlen <;> cases h
    · exact ⟨hsent, hpc⟩
    · exact ⟨hsent, hpc.1, Nat.lt_of_not_le hlen⟩
  · cases h
    exact ⟨hsent, hpc⟩
  · split_ifs at h with hclosed
    cases h
    exact ⟨hsent, hpc.1, hpc.2.resolve_right fun hr => Nat.not_le_of_lt hclosed hr.2.2.1⟩
  · have hcov := hc.covered hpc.2
    split_ifs at h with hnew <;> cases h
    · exact ⟨hsent, le_refl _, hcov⟩
    · obtain ⟨b, hb, hle⟩ := hcov
      exact ⟨hsent, hpc.1, b, hb, hle.trans (Nat.le_of_not_lt hnew)⟩
  · split_ifs at h with haccept <;> cases h
    · exact ⟨hsent, ⟨hpc.1.trans hc.sequence, haccept⟩, hpc.2⟩
    · exact ⟨hsent, trivial⟩
  · split_ifs at h with hlt
    cases h
    obtain ⟨⟨hle, haccept⟩, b, hb, hcov⟩ := hpc
    refine ⟨fun e he => ?_, ⟨hle, haccept⟩, hlt⟩
    rcases mem_append.mp he with he | he
    · exact hsent e he
    · obtain rfl := mem_singleton.mp he
      exact ⟨⟨b, hb, hcov.trans hle⟩, haccept⟩
  · exact nomatch h

namespace DeliverState

variable {ι : Type} [DecidableEq ι] {accepts : ι → Nat → Bool}

/-- A stream overtakes the writer. -/
def Overtakes (s : DeliverState ι) : DeliverEvent ι → Prop
  | .stream i _ => (s.streams i).Overtakes s.chain
  | _ => False

instance decidableOvertakes (s : DeliverState ι) : ∀ e, Decidable (s.Overtakes e)
  | .stream _ _ => inferInstanceAs (Decidable (_ ∧ _ ∧ _))
  | .begin _ | .write => inferInstanceAs (Decidable False)

/-- In every interleaving of `WriteBlock` with any number of streams in which no stream takes
the signal of a block that was just added for the signal of the next one, a block is sent only
if the readers policy of a configuration accepted the request that is not before the one in
force after the block. -/
theorem sent_authorised {es : List (DeliverEvent ι)} {s : DeliverState ι}
    (hgood : Never (step accepts) Overtakes new es) (hrun : run (step accepts) new es = some s)
    (i : ι) : ∀ e ∈ (s.streams i).sent,
      (∃ config, s.chain.blocks[e.1]? = some config ∧ config ≤ e.2) ∧ accepts i e.2 = true := by
  have hnew : ChainOk (new : DeliverState ι).chain ∧
      ∀ i, StreamOk (accepts i) (new : DeliverState ι).chain ((new : DeliverState ι).streams i) :=
    ⟨⟨le_refl _, fun _ => rfl, by simp [new, ChainState.new], fun _ => le_refl _, zero_le _⟩,
      fun i => ⟨nofun, trivial⟩⟩
  have hs := holds_of_never (P := fun s : DeliverState ι => ChainOk s.chain ∧
    ∀ i, StreamOk (accepts i) s.chain (s.streams i)) ?_ hnew hgood hrun
  · exact (hs.2 i).sent
  · intro s e s' ⟨hc, hstreams⟩ hgood hstep
    cases e with
    | begin config =>
      obtain ⟨c', hc', rfl⟩ := map_eq_some_iff.mp hstep
      obtain ⟨hok, hseq, hblocks, hfresh⟩ := chain_write hc (.inr ⟨config, hc'⟩)
      exact ⟨hok, fun i => (hstreams i).mono hseq hblocks hfresh⟩
    | write =>
      obtain ⟨c', hc', rfl⟩ := map_eq_some_iff.mp hstep
      obtain ⟨hok, hseq, hblocks, hfresh⟩ := chain_write hc (.inl hc')
      exact ⟨hok, fun i => (hstreams i).mono hseq hblocks hfresh⟩
    | stream j number =>
      obtain ⟨t, ht, rfl⟩ := map_eq_some_iff.mp hstep
      refine ⟨hc, fun i => ?_⟩
      by_cases hij : i = j
      · subst hij
        simpa using (hstreams i).step hc hgood ht
      · simpa [update_of_ne hij] using hstreams i

def revoked : Unit → Nat → Bool := fun _ config => config == 0

def replaced : Unit → Nat → Bool := fun _ config => config ≤ 1

def configBlock : List (DeliverEvent Unit) :=
  replicate 10 (.stream () 0) ++ .begin true :: replicate 4 .write ++ replicate 4 (.stream () 0)

/-- The first block is sent. The stream waits for the next one, a config block, and is checked
against its policy before that is sent. -/
theorem configBlock_authorised :
    ∃ s, run (step replaced) new configBlock = some s ∧ (s.streams ()).sent = [(0, 0), (1, 1)] ∧
      ∀ e ∈ (s.streams ()).sent,
        (∃ config, s.chain.blocks[e.1]? = some config ∧ config ≤ e.2) ∧ replaced () e.2 = true :=
  ⟨_, rfl, rfl, @sent_authorised Unit _ replaced configBlock _ (by decide) rfl ()⟩

/-- Block one is added. A stream that waits for block two takes the signal that is closed for
block one, compares the sequence, and waits in `Next`. Block two is a config block that revokes
its right, and it is sent. -/
theorem revoked_reader_gets_config_block :
    ∃ s, run (step revoked) new ([.begin false, .write] ++ replicate 5 (.stream () 2) ++ [.write] ++
          replicate 2 (.stream () 2) ++ [.write, .begin true, .write, .write] ++
          [.stream () 2]) = some s ∧
      (s.streams ()).sent = [(2, 0)] ∧ s.chain.blocks[2]? = some 1 ∧ revoked () 1 = false :=
  ⟨_, rfl, rfl, rfl, rfl⟩

end DeliverState

end FabricOev.Orderer
