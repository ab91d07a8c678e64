import FabricOev.Go.Outcome
import FabricOev.Go.Wire
import FabricOev.Lib.Runs
import Mathlib.Logic.Function.Basic

/-!
# The buffer of block payloads

Payloads of blocks reach a peer in any order and any number of times. `PayloadsBufferImpl`
keeps them by number, `deliverPayloads` takes them out in order and hands the blocks to the
committer. Calls of `Push`, the goroutines that signal that the expected payload has come, and
the steps of the loop are interleaved here in every way; `Close` and the stop channel are left
out.
-/

namespace FabricOev.Gossip

open Go Lib List Option UInt64 Function Wire

structure Payload where
  seqNum : UInt64
  data : Bytes
deriving DecidableEq, Repr

/-- `PayloadsBufferImpl`. A payload is stored under its own number. -/
structure PayloadsBuffer where
  next : UInt64
  buf : (n : UInt64) → Option { p : Payload // p.seqNum = n }

namespace PayloadsBuffer

def new (next : UInt64) : PayloadsBuffer := ⟨next, fun _ => none⟩

/-- `Push`; the flag says that a goroutine is started which sends on `readyChan`. -/
def push (b : PayloadsBuffer) (payload : Payload) : Result (PayloadsBuffer × Bool) :=
  if payload.seqNum < b.next ∨ (b.buf payload.seqNum).isSome then
    Result.fail (.text (str "Payload with sequence number = " ++
      formatNat payload.seqNum.toNat ++ str " has been already processed"))
  else
    .ok (⟨b.next, update b.buf payload.seqNum (some ⟨payload, rfl⟩)⟩, payload.seqNum = b.next)

/-- `Pop`, if it does not return nil. -/
def pop (b : PayloadsBuffer) : Option (Payload × PayloadsBuffer) :=
  (b.buf b.next).map fun p => (p.1, ⟨b.next + 1, update b.buf b.next none⟩)

end PayloadsBuffer

/-- `common.Block` as `deliverPayloads` looks at it; header and data may be missing. -/
structure RawBlock where
  header : Option UInt64
  data : Option (List Bytes)
deriving DecidableEq, Repr

def RawBlock.unmarshal (b : Bytes) : Option RawBlock := do
  let fs ← decodeFields [(1, .bytes), (2, .bytes), (3, .bytes)] b
  let hdr ← subMessage 1 [(1, .varint), (2, .bytes), (3, .bytes)] fs
  let data ← subMessage 2 [(1, .bytes)] fs
  let _ ← subMessage 3 [(1, .bytes)] fs
  some ⟨hdr.map fun h => ofNat (lastVarint 1 h), data.map (allBytes 1)⟩

/-- Where `deliverPayloads` is: in its `select`, before a `Pop`, or with a payload. -/
inductive LoopPc where
  | waiting
  | popping
  | holding (payload : Payload)
deriving DecidableEq, Repr

/-- The buffer, the goroutines that wait on `readyChan`, the loop, the ledger's height, and what was
taken and given. -/
structure Delivery where
  payloads : PayloadsBuffer
  ready : Nat
  loop : LoopPc
  height : UInt64
  accepted : List Payload
  popped : List Payload

inductive DeliveryEvent where
  | push (payload : Payload)
  | ready
  | pop
  | commit (adds : Bool)
deriving DecidableEq, Repr

namespace Delivery

def new (height : UInt64) : Delivery := ⟨.new height, 0, .waiting, height, [], []⟩

/-- A block with header and data that the committer adds; the store takes its height only. -/
def Commits (s : Delivery) (payload : Payload) (adds : Bool) : Bool :=
  match RawBlock.unmarshal payload.data with
  | some ⟨some number, some _⟩ => adds && number == s.height
  | _ => false

def step (s : Delivery) : DeliveryEvent → Option Delivery
  | .push payload =>
    match s.payloads.push payload with
    | .error _ => some s
    | .ok (b, signal) =>
      some { s with
        payloads := b, ready := s.ready + signal.toNat, accepted := s.accepted ++ [payload] }
  | .ready =>
    if s.loop = .waiting ∧ 0 < s.ready then
      some { s with ready := s.ready - 1, loop := .popping }
    else none
  | .pop =>
    if s.loop = .popping then
      match s.payloads.pop with
      | none => some { s with loop := .waiting }
      | some (p, b) => some { s with payloads := b, loop := .holding p, popped := s.popped ++ [p] }
    else none
  -- an error of any kind is only logged
  | .commit adds =>
    match s.loop with
    | .holding p =>
      some { s with
        loop := .popping, height := if s.Commits p adds then s.height + 1 else s.height }
    | _ => none

variable {s s' : Delivery} {e : DeliveryEvent} {h : UInt64}

theorem step_cases (h : s.step e = some s') :
    ((∃ p, e = .push p) ∧ s' = s) ∨
    (∃ p, e = .push p ∧ s.payloads.buf p.seqNum = none ∧ s' = { s with
        payloads := ⟨s.payloads.next, update s.payloads.buf p.seqNum (some ⟨p, rfl⟩)⟩
        ready := s.ready + (decide (p.seqNum = s.payloads.next)).toNat
        accepted := s.accepted ++ [p] }) ∨
    (e = .ready ∧ s.loop = .waiting ∧ s' = { s with ready := s.ready - 1, loop := .popping }) ∨
    (e = .pop ∧ s.loop = .popping ∧ s.payloads.buf s.payloads.next = none ∧
      s' = { s with loop := .waiting }) ∨
    (∃ p, e = .pop ∧ s.loop = .popping ∧ s.payloads.buf s.payloads.next = some p ∧ s' = { s with
        payloads := ⟨s.payloads.next + 1, update s.payloads.buf s.payloads.next none⟩
        loop := .holding p.1, popped := s.popped ++ [p.1] }) ∨
    (∃ p adds, e = .commit adds ∧ s.loop = .holding p ∧ s' = { s with
        loop := .popping, height := if s.Commits p adds then s.height + 1 else s.height }) := by
  cases e with
  | push p =>
    rw [step, PayloadsBuffer.push] at h
    split_ifs at h with hold
    · exact .inl ⟨⟨p, rfl⟩, (some.inj h).symm⟩
    · have hnone : s.payloads.buf p.seqNum = none := by simpa using fun hsome => hold (.inr hsome)
      exact .inr (.inl ⟨p, rfl, hnone, (some.inj h).symm⟩)
  | ready =>
    rw [step] at h
    split_ifs at h with hwait
    exact .inr (.inr (.inl ⟨rfl, hwait.1, (some.inj h).symm⟩))
  | pop =>
    rw [step, PayloadsBuffer.pop] at h
    split_ifs at h with hloop
    cases hbuf : s.payloads.buf s.payloads.next with
    | none =>
      rw [hbuf] at h
      exact .inr (.inr (.inr (.inl ⟨rfl, hloop, rfl, (some.inj h).symm⟩)))
    | some p =>
      rw [hbuf] at h
      exact .inr (.inr (.inr (.inr (.inl ⟨p, rfl, hloop, rfl, (some.inj h).symm⟩))))
  | commit adds =>
    rw [step] at h
    split at h
    · rename_i p hloop
      exact .inr (.inr (.inr (.inr (.inr ⟨p, adds, rfl, hloop, (some.inj h).symm⟩))))
    · exact nomatch h

/-! ## Delivery in order -/

def stored (s : Delivery) (n : UInt64) : List Payload := (s.payloads.buf n).toList.map (·.1)

structure InOrder (h : UInt64) (s : Delivery) : Prop where
  next : s.payloads.next = h + ofNat s.popped.length
  numbers : s.popped.map (·.seqNum) = (range s.popped.length).map fun i => h + ofNat i
  history : ∀ n, s.accepted.filter (·.seqNum = n) = s.popped.filter (·.seqNum = n) ++ s.stored n
  wake : (s.payloads.buf s.payloads.next).isSome → 0 < s.ready ∨ s.loop ≠ .waiting

theorem InOrder.new (h : UInt64) : InOrder h (.new h) :=
  ⟨by simp [Delivery.new, PayloadsBuffer.new], rfl, fun _ => rfl, nofun⟩

theorem InOrder.step (hs : InOrder h s) (hstep : s.step e = some s') : InOrder h s' := by
  obtain ⟨-, rfl⟩ | ⟨p, -, hnone, rfl⟩ | ⟨-, hloop, rfl⟩ | ⟨-, hloop, hnone, rfl⟩ |
    ⟨p, -, hloop, hsome, rfl⟩ | ⟨p, adds, -, hloop, rfl⟩ := step_cases hstep
  · exact hs
  · refine ⟨hs.next, hs.numbers, fun n => ?_, fun hbuf => ?_⟩
    · have hist := hs.history n
      by_cases hn : p.seqNum = n
      · subst hn
        simpa [stored, hnone] using hist
      · simpa [stored, update_of_ne (Ne.symm hn), hn] using hist
    · by_cases hn : p.seqNum = s.payloads.next
      · exact .inl (by simp [hn])
      · dsimp only at hbuf
        rw [update_of_ne (Ne.symm hn)] at hbuf
        exact (hs.wake hbuf).imp_left fun hready => Nat.lt_add_right _ hready
  · exact ⟨hs.next, hs.numbers, hs.history, fun _ => .inr nofun⟩
  · exact ⟨hs.next, hs.numbers, hs.history, fun hbuf => by simp [hnone] at hbuf⟩
  · have hp : p.1.seqNum = h + ofNat s.popped.length := p.2.trans hs.next
    refine ⟨?_, ?_, fun n => ?_, fun _ => .inr nofun⟩
    · simp [hs.next, add_assoc]
    · simp [range_succ, hs.numbers, hp]
    · have hist := hs.history n
      by_cases hn : p.1.seqNum = n
      · have hnext : s.payloads.next = n := p.2.symm.trans hn
        subst hnext
        simpa [stored, hsome, p.2] using hist
      · have hnext : n ≠ s.payloads.next := fun h => hn (p.2.trans h.symm)
        simpa [stored, update_of_ne hnext, hn] using hist
  · exact ⟨hs.next, hs.numbers, hs.history, fun _ => .inr nofun⟩

theorem InOrder.nodup (hs : InOrder h s) (hlen : s.popped.length ≤ 2 ^ 64) :
    (s.popped.map (·.seqNum)).Nodup := by
  rw [hs.numbers]
  refine nodup_range.map_on fun i hi j hj hij => ?_
  have hi := mem_range.mp hi
  have hj := mem_range.mp hj
  have hnat := congrArg toNat (add_right_inj h |>.mp hij)
  rwa [toNat_ofNat_of_lt' (hi.trans_le hlen), toNat_ofNat_of_lt' (hj.trans_le hlen)] at hnat

/-- As long as no number comes back, what was popped is what was accepted first. -/
theorem InOrder.first (hs : InOrder h s) (hlen : s.popped.length ≤ 2 ^ 64) {p : Payload}
    (hp : p ∈ s.popped) : s.accepted.find? (·.seqNum = p.seqNum) = some p := by
  have hmem : p ∈ s.popped.filter (·.seqNum = p.seqNum) := by simpa using hp
  obtain ⟨q, rest, hq⟩ := exists_cons_of_ne_nil (ne_nil_of_mem hmem)
  have hqmem : q ∈ s.popped.filter (·.seqNum = p.seqNum) := hq ▸ mem_cons_self
  obtain ⟨hqin, hqnum⟩ := mem_filter.mp hqmem
  have hqp : q = p := inj_on_of_nodup_map (hs.nodup hlen) hqin hp (by simpa using hqnum)
  rw [← head?_filter, hs.history, hq, hqp]
  rfl

/-- Every run of pushes, signals and steps of the loop on a buffer created with `next = h` pops
payloads numbered `h`, `h + 1` and so on in `uint64`, the `k`-th one of a number being the
`k`-th that was accepted for it; up to the `2 ^ 64`-th pop no number repeats, and each payload
is the first that was accepted for its number. Whenever the expected payload is in the buffer,
a signal is pending or the loop has not gone back to waiting. -/
theorem popped_in_order {h : UInt64} {es : List DeliveryEvent} {s : Delivery}
    (hrun : run step (new h) es = some s) :
    (s.popped.map (·.seqNum) = (range s.popped.length).map fun i => h + ofNat i) ∧
      (∀ n, s.popped.filter (·.seqNum = n) <+: s.accepted.filter (·.seqNum = n)) ∧
      (s.popped.length ≤ 2 ^ 64 → (s.popped.map (·.seqNum)).Nodup ∧
        ∀ p ∈ s.popped, s.accepted.find? (·.seqNum = p.seqNum) = some p) ∧
      ((s.payloads.buf s.payloads.next).isSome → 0 < s.ready ∨ s.loop ≠ .waiting) := by
  have hs : InOrder h s := holds_of_run (fun _ _ _ => InOrder.step) (.new h) hrun
  refine ⟨hs.numbers, fun n => ?_, fun hlen => ⟨hs.nodup hlen, fun p => hs.first hlen⟩, hs.wake⟩
  exact ⟨s.stored n, (hs.history n).symm⟩

/-- Two payloads come in the wrong order, the first of them twice. -/
def swapped : List DeliveryEvent :=
  [.push ⟨2, [0]⟩, .push ⟨2, [1]⟩, .push ⟨1, []⟩, .ready, .pop, .commit true, .pop]

theorem swapped_popped_in_order :
    ∃ s, run step (new 1) swapped = some s ∧ s.popped = [⟨1, []⟩, ⟨2, [0]⟩] ∧
      ∀ p ∈ s.popped, s.accepted.find? (·.seqNum = p.seqNum) = some p :=
  ⟨_, rfl, by decide, ((@popped_in_order 1 swapped _ rfl).2.2.1 (by decide)).2⟩

/-- The expected number is the ledger's height when the loop holds no payload, else the payload has
it. -/
def InStep (s : Delivery) : Prop :=
  match s.loop with
  | .waiting | .popping => s.payloads.next = s.height
  | .holding p => p.seqNum = s.height ∧ s.payloads.next = s.height + 1

def Drops (s : Delivery) (e : DeliveryEvent) : Prop :=
  ∃ p adds, e = .commit adds ∧ s.loop = .holding p ∧ s.Commits p adds = false

theorem inStep_step (hs : s.InStep) (hstep : s.step e = some s') : s'.InStep ↔ ¬ s.Drops e := by
  obtain ⟨⟨p, rfl⟩, rfl⟩ | ⟨p, rfl, -, rfl⟩ | ⟨rfl, hloop, rfl⟩ | ⟨rfl, hloop, -, rfl⟩ |
    ⟨p, rfl, hloop, -, rfl⟩ | ⟨p, adds, rfl, hloop, rfl⟩ := step_cases hstep
  · exact iff_of_true hs (by simp [Drops])
  · exact iff_of_true hs (by simp [Drops])
  · exact iff_of_true (by simpa [InStep, hloop] using hs) (by simp [Drops])
  · exact iff_of_true (by simpa [InStep, hloop] using hs) (by simp [Drops])
  · have hnext : s.payloads.next = s.height := by simpa [InStep, hloop] using hs
    exact iff_of_true ⟨p.2.trans hnext, by simp [hnext]⟩ (by simp [Drops])
  · have hnext : s.payloads.next = s.height + 1 := by
      simp only [InStep, hloop] at hs
      exact hs.2
    cases hc : s.Commits p adds with
    | true | false => simp [InStep, Drops, hloop, hnext, hc]

/-- In every run the expected number stays the height of the ledger exactly if every payload
that is popped decodes to a block with header and data that the committer adds. -/
theorem inStep_iff_all_commit (h : UInt64) (es : List DeliveryEvent) :
    Always step InStep (new h) es ↔ Never step Drops (new h) es :=
  have hnew : (new h).InStep := rfl
  always_iff_never (fun _ _ _ => inStep_step) hnew es

/-- The peer of a ledger of height one gets bytes that are no block as payload one. The loop
waits again for payload two, and block one is refused when it comes. -/
theorem dropped_payload_leaves_gap :
    ∃ s, run step (new 1) [.push ⟨1, [0]⟩, .ready, .pop, .commit true, .pop] = some s ∧
      s.loop = .waiting ∧ s.payloads.next = 2 ∧ s.height = 1 ∧
      ∀ data, step s (.push ⟨1, data⟩) = some s :=
  ⟨_, rfl, by decide, by decide, by decide, fun _ => rfl⟩

end Delivery

end FabricOev.Gossip
