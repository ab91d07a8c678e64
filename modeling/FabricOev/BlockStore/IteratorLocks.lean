import FabricOev.Lib.Runs

/-!
# Closing an iterator

`Next` of a block iterator waits for a block under the lock of the checkpoint, and looks at the
close marker under a second lock while it does. `Close` takes the two locks the other way
round. The two are followed from lock to lock, with a writer that stores blocks meanwhile.
-/

namespace FabricOev.BlockStore

open Lib

/-! ## The two goroutines -/

inductive ItrThread where
  | next
  | close
deriving DecidableEq, Repr

/-- Where a call of `Next` is; it is in `waitForBlock` from `lockCp` to `leave`. -/
inductive NextPc where
  | enter
  | lockCp
  | test
  | lockMarker
  | readMarker
  | wait
  | asleep
  | relock
  | leave
  | lockItr
  | body
  | returned
  | panicked
deriving DecidableEq, Repr

inductive ClosePc where
  | lockMarker
  | mark
  | lockCp
  | broadcast
  | closeStream
  | unlockCp
  | unlockMarker
  | returned
  | panicked
deriving DecidableEq, Repr

/-- The iterator's stream: nil, with an open file, or with a nil file, as a move to the next file
leaves it that could not open the file. -/
inductive ItrStream where
  | unopened
  | opened
  | broken
deriving DecidableEq, Repr

/-- `fileMissing`: the block to retrieve is not in the open file, and the next cannot be opened. -/
structure ItrState where
  lastBlockNumber : Nat
  maxBlockNumAvailable : Nat
  blockNumToRetrieve : Nat
  stream : ItrStream
  fileMissing : Bool
  closeMarker : Bool
  cpInfoLock : Option ItrThread
  closeMarkerLock : Option ItrThread
  next : NextPc
  close : ClosePc
deriving DecidableEq, Repr

/-- `opens` and `reads` say how the calls of `Next` end that open a stream and read from it. -/
inductive ItrEvent where
  | next (opens reads : Bool)
  | close
  | updateCheckpoint (lastBlockNumber : Nat)

namespace ItrState

/-- The block is read, and the iterator moves on. -/
def deliver (s : ItrState) : ItrState :=
  { s with stream := .opened, blockNumToRetrieve := s.blockNumToRetrieve + 1, next := .returned }

/-- `Next` with the iterator's lock. The next file is opened when the open one has no block left. -/
def readBlock (s : ItrState) (opens reads : Bool) : ItrState :=
  match s.stream with
  | .unopened =>
    if opens then
      if reads then s.deliver else { s with stream := .opened, next := .returned }
    else { s with next := .returned }
  | .opened =>
    if reads then
      if s.fileMissing then { s with stream := .broken, next := .returned } else s.deliver
    else { s with next := .returned }
  | .broken => { s with next := .panicked }

def stepNext (s : ItrState) (opens reads : Bool) : Option ItrState :=
  match s.next with
  | .enter =>
    some { s with
      next := if s.maxBlockNumAvailable < s.blockNumToRetrieve then .lockCp else .lockItr }
  | .lockCp | .relock =>
    if s.cpInfoLock = none then some { s with cpInfoLock := some .next, next := .test } else none
  | .test =>
    some { s with next := if s.lastBlockNumber < s.blockNumToRetrieve then .lockMarker else .leave }
  | .lockMarker =>
    if s.closeMarkerLock = none then
      some { s with closeMarkerLock := some .next, next := .readMarker }
    else none
  | .readMarker =>
    some { s with closeMarkerLock := none, next := if s.closeMarker then .leave else .wait }
  -- `Wait` gives back the lock of the checkpoint only
  | .wait => some { s with cpInfoLock := none, next := .asleep }
  | .asleep => none
  | .leave =>
    some { s with
      maxBlockNumAvailable := s.lastBlockNumber, cpInfoLock := none, next := .lockItr }
  | .lockItr =>
    if s.closeMarkerLock = none then some { s with closeMarkerLock := some .next, next := .body }
    else none
  | .body =>
    some { if s.closeMarker then { s with next := .returned } else s.readBlock opens reads with
      closeMarkerLock := none }
  | .returned | .panicked => none

/-- `Broadcast`. -/
def wake (s : ItrState) : ItrState :=
  { s with next := if s.next = .asleep then .relock else s.next }

/-- `close` dereferences the stream and its file; the deferred unlocks run. -/
def stepClose (s : ItrState) : Option ItrState :=
  match s.close with
  | .lockMarker =>
    if s.closeMarkerLock = none then
      some { s with closeMarkerLock := some .close, close := .mark }
    else none
  | .mark => some { s with closeMarker := true, close := .lockCp }
  | .lockCp =>
    if s.cpInfoLock = none then some { s with cpInfoLock := some .close, close := .broadcast }
    else none
  | .broadcast => some { s.wake with close := .closeStream }
  | .closeStream =>
    if s.stream = .opened then some { s with close := .unlockCp }
    else some { s with cpInfoLock := none, closeMarkerLock := none, close := .panicked }
  | .unlockCp => some { s with cpInfoLock := none, close := .unlockMarker }
  | .unlockMarker => some { s with closeMarkerLock := none, close := .returned }
  | .returned => none
  | .panicked => none

def step (s : ItrState) : ItrEvent → Option ItrState
  | .next opens reads => s.stepNext opens reads
  | .close => s.stepClose
  | .updateCheckpoint n =>
    if s.cpInfoLock = none ∧ s.lastBlockNumber ≤ n then
      some { s.wake with lastBlockNumber := n }
    else none

def start (lastBlockNumber maxBlockNumAvailable blockNumToRetrieve : Nat) (stream : ItrStream)
    (fileMissing closeMarker : Bool) : ItrState :=
  ⟨lastBlockNumber, maxBlockNumAvailable, blockNumToRetrieve, stream, fileMissing, closeMarker,
    none, none, .enter, .lockMarker⟩

def nextWaitsFor (s : ItrState) : Option ItrThread :=
  match s.next with
  | .lockCp | .relock => s.cpInfoLock
  | .lockMarker | .lockItr => s.closeMarkerLock
  | _ => none

def closeWaitsFor (s : ItrState) : Option ItrThread :=
  match s.close with
  | .lockMarker => s.closeMarkerLock
  | .lockCp => s.cpInfoLock
  | _ => none

def Deadlocked (s : ItrState) : Prop :=
  s.nextWaitsFor = some .close ∧ s.closeWaitsFor = some .next

def Stuck (s : ItrState) : Prop :=
  (∀ opens reads, s.stepNext opens reads = none) ∧ s.stepClose = none

end ItrState

def ItrEvent.isTurn : ItrEvent → Bool
  | .updateCheckpoint _ => false
  | _ => true

/-- A step of `Next` in which all calls succeed. -/
def ItrEvent.turn : ItrEvent := .next true true

/-- In every interleaving the calls do not wait for each other, `Close` does not panic, the calls
take boundedly many steps, and `Close` has returned when neither can go on. -/
def ItrState.ShutsDown (s : ItrState) : Prop :=
  (∀ es s', run step s es = some s' →
    ¬ s'.Deadlocked ∧ s'.close ≠ .panicked ∧ (s'.Stuck → s'.close = .returned)) ∧
  ∃ k, ∀ es s', run step s es = some s' → (es.filter ItrEvent.isTurn).length ≤ k

def NextPc.holdsCp : NextPc → Bool
  | .test | .lockMarker | .readMarker | .wait | .leave => true
  | _ => false

def NextPc.holdsMarker : NextPc → Bool
  | .readMarker | .body => true
  | _ => false

def ClosePc.holdsCp : ClosePc → Bool
  | .broadcast | .closeStream | .unlockCp => true
  | _ => false

def ClosePc.holdsMarker : ClosePc → Bool
  | .mark | .lockCp | .broadcast | .closeStream | .unlockCp | .unlockMarker => true
  | _ => false

namespace ItrState

/-- The holder of a lock is a call that is between taking and giving it back. -/
structure Locks (s : ItrState) : Prop where
  nextCp : s.cpInfoLock = some .next ↔ s.next.holdsCp = true
  nextMarker : s.closeMarkerLock = some .next ↔ s.next.holdsMarker = true
  closeCp : s.cpInfoLock = some .close ↔ s.close.holdsCp = true
  closeMarker : s.closeMarkerLock = some .close ↔ s.close.holdsMarker = true

theorem locks_start (l m n : Nat) (o : ItrStream) (f c : Bool) : (start l m n o f c).Locks := by
  constructor <;> simp [start, NextPc.holdsCp, NextPc.holdsMarker, ClosePc.holdsCp,
    ClosePc.holdsMarker]

variable {s : ItrState} {s' : ItrState}

theorem Locks.wake (h : s.Locks) : s.wake.Locks := by
  obtain ⟨h1, h2, h3, h4⟩ := h
  unfold ItrState.wake
  split
  · rename_i hasleep
    rw [hasleep] at h1 h2
    exact ⟨h1, h2, h3, h4⟩
  · exact ⟨h1, h2, h3, h4⟩

variable {opens reads : Bool}

theorem Locks.stepNext (h : s.Locks) (hs : s.stepNext opens reads = some s') : s'.Locks := by
  obtain ⟨h1, h2, h3, h4⟩ := h
  constructor <;> (unfold ItrState.stepNext at hs; split at hs) <;>
    grind [NextPc.holdsCp, NextPc.holdsMarker, ItrState.readBlock, ItrState.deliver]

theorem Locks.stepClose (h : s.Locks) (hs : s.stepClose = some s') : s'.Locks := by
  obtain ⟨h1, h2, h3, h4⟩ := h
  constructor <;> (unfold ItrState.stepClose at hs; split at hs) <;>
    grind [NextPc.holdsCp, NextPc.holdsMarker, ClosePc.holdsCp, ClosePc.holdsMarker, ItrState.wake]

variable {e : ItrEvent}

theorem Locks.step (h : s.Locks) (hs : s.step e = some s') : s'.Locks := by
  cases e with
  | next opens reads => exact h.stepNext hs
  | close => exact h.stepClose hs
  | updateCheckpoint n =>
    simp only [ItrState.step] at hs
    split at hs
    · cases hs
      obtain ⟨h1, h2, h3, h4⟩ := h.wake
      exact ⟨h1, h2, h3, h4⟩
    · cases hs

end ItrState

/-! ## An iterator that does not have to wait -/

/-- The part of `waitForBlock` that is for blocks which are not there yet. -/
def NextPc.inWait : NextPc → Bool
  | .lockMarker | .readMarker | .wait | .asleep | .relock => true
  | _ => false

def NextPc.left : NextPc → Nat
  | .enter => 6
  | .lockCp => 5
  | .test => 4
  | .leave => 3
  | .lockItr => 2
  | .body => 1
  | _ => 0

def ClosePc.left : ClosePc → Nat
  | .lockMarker => 7
  | .mark => 6
  | .lockCp => 5
  | .broadcast => 4
  | .closeStream => 3
  | .unlockCp => 2
  | .unlockMarker => 1
  | _ => 0

namespace ItrState

/-- `Next` finds its block stored, so it does not look at the close marker, and there is a stream
that it does not break. -/
structure Quick (s : ItrState) : Prop where
  stream : s.stream = .opened
  file : s.fileMissing = true → s.closeMarker = true
  enter : s.next = .enter → s.blockNumToRetrieve ≤ s.maxBlockNumAvailable ∨
    s.blockNumToRetrieve ≤ s.lastBlockNumber
  stored : s.next = .lockCp ∨ s.next = .test → s.blockNumToRetrieve ≤ s.lastBlockNumber
  next : s.next.inWait = false
  close : s.close ≠ .panicked

variable {s s' : ItrState} {n : Nat} {l m : Nat}

variable (h : s.Quick)
include h

theorem Quick.wake : s.wake = s := by
  have hne : s.next ≠ .asleep := by
    intro hnext
    have hplace := h.next
    rw [hnext] at hplace
    cases hplace
  rw [ItrState.wake, if_neg hne]

theorem Quick.stepNext (hs : s.stepNext opens reads = some s') :
    s'.Quick ∧ s'.next.left < s.next.left ∧ s'.close = s.close := by
  obtain ⟨last, max, number, stream, missing, marker, cp, lock, pc, close⟩ := s
  obtain ⟨rfl, hfile, henter, hstored, hnext, hclose⟩ := h
  cases pc with
  | enter =>
    cases hs
    by_cases hmax : max < number
    · have hlast := (henter rfl).resolve_left (Nat.not_le.mpr hmax)
      rw [if_pos hmax]
      exact ⟨⟨rfl, hfile, nofun, fun _ => hlast, rfl, hclose⟩, by simp [NextPc.left], rfl⟩
    · rw [if_neg hmax]
      exact ⟨⟨rfl, hfile, nofun, by simp, rfl, hclose⟩, by simp [NextPc.left], rfl⟩
  | lockCp =>
    simp only [ItrState.stepNext] at hs
    split at hs <;> cases hs
    have hlast := hstored (.inl rfl)
    exact ⟨⟨rfl, hfile, nofun, fun _ => hlast, rfl, hclose⟩, by simp [NextPc.left], rfl⟩
  | test =>
    cases hs
    rw [if_neg (Nat.not_lt.mpr (hstored (.inr rfl)))]
    exact ⟨⟨rfl, hfile, nofun, by simp, rfl, hclose⟩, by simp [NextPc.left], rfl⟩
  | leave =>
    cases hs
    exact ⟨⟨rfl, hfile, nofun, by simp, rfl, hclose⟩, by simp [NextPc.left], rfl⟩
  | lockItr =>
    simp only [ItrState.stepNext] at hs
    split at hs <;> cases hs
    exact ⟨⟨rfl, hfile, nofun, by simp, rfl, hclose⟩, by simp [NextPc.left], rfl⟩
  | body =>
    cases hs
    cases marker with
    | true => exact ⟨⟨rfl, hfile, nofun, by simp, rfl, hclose⟩, by simp [NextPc.left], rfl⟩
    | false =>
      -- without the marker the file is there, so a read does not break the stream
      cases missing with
      | true => cases hfile rfl
      | false =>
        cases reads with
        | true | false =>
          refine ⟨⟨rfl, hfile, nofun, ?_, rfl, hclose⟩, ?_, rfl⟩
          · simp [ItrState.readBlock, ItrState.deliver]
          · simp [ItrState.readBlock, ItrState.deliver, NextPc.left]
  | returned | panicked => cases hs
  | lockMarker | readMarker | wait | asleep | relock => cases hnext

theorem Quick.stepClose (hs : s.stepClose = some s') :
    s'.Quick ∧ s'.close.left < s.close.left ∧ s'.next = s.next := by
  have hwake := h.wake
  obtain ⟨last, max, number, stream, missing, marker, cp, lock, pc, close⟩ := s
  obtain ⟨rfl, hfile, henter, hstored, hnext, hclose⟩ := h
  cases close with
  | lockMarker | lockCp =>
    simp only [ItrState.stepClose] at hs
    split at hs <;> cases hs
    exact ⟨⟨rfl, hfile, henter, hstored, hnext, nofun⟩, by simp [ClosePc.left], rfl⟩
  | mark =>
    cases hs
    exact ⟨⟨rfl, fun _ => rfl, henter, hstored, hnext, nofun⟩, by simp [ClosePc.left], rfl⟩
  | broadcast =>
    simp only [ItrState.stepClose, hwake] at hs
    cases hs
    exact ⟨⟨rfl, hfile, henter, hstored, hnext, nofun⟩, by simp [ClosePc.left], rfl⟩
  | closeStream | unlockCp | unlockMarker =>
    cases hs
    exact ⟨⟨rfl, hfile, henter, hstored, hnext, nofun⟩, by simp [ClosePc.left], rfl⟩
  | returned | panicked => cases hs

theorem Quick.updateCheckpoint (hs : s.step (.updateCheckpoint n) = some s') :
    s'.Quick ∧ s'.next = s.next ∧ s'.close = s.close := by
  simp only [ItrState.step, h.wake] at hs
  split at hs
  · rename_i hn
    cases hs
    refine ⟨⟨h.stream, h.file, fun hpc => ?_, fun hpc => ?_, h.next, h.close⟩, rfl, rfl⟩
    · obtain hmax | hlast := h.enter hpc
      · exact .inl hmax
      · exact .inr (Nat.le_trans hlast hn.2)
    · exact Nat.le_trans (h.stored hpc) hn.2
  · cases hs

theorem Quick.step (hs : s.step e = some s') : s'.Quick := by
  cases e with
  | next opens reads => exact (h.stepNext hs).1
  | close => exact (h.stepClose hs).1
  | updateCheckpoint n => exact (h.updateCheckpoint hs).1

/-- A call of `Next` that does not wait holds no lock while it takes one. -/
theorem Quick.free {t : ItrThread} (hw : s.nextWaitsFor = some t) :
    s.next.holdsCp = false ∧ s.next.holdsMarker = false := by
  have hplace := h.next
  unfold nextWaitsFor at hw
  split at hw
  · rename_i hpc
    rw [hpc]
    exact ⟨rfl, rfl⟩
  · rename_i hpc
    rw [hpc] at hplace
    cases hplace
  · rename_i hpc
    rw [hpc] at hplace
    cases hplace
  · rename_i hpc
    rw [hpc]
    exact ⟨rfl, rfl⟩
  · cases hw

theorem Quick.not_deadlocked (hl : s.Locks) : ¬ s.Deadlocked := by
  intro hd
  have hfree := h.free hd.1
  have hclose := hd.2
  unfold closeWaitsFor at hclose
  split at hclose
  · rw [hl.nextMarker.mp hclose] at hfree
    cases hfree.2
  · rw [hl.nextCp.mp hclose] at hfree
    cases hfree.1
  · cases hclose

theorem Quick.goes_on (hold : s.next.holdsCp = true ∨ s.next.holdsMarker = true) :
    s.stepNext false false ≠ none := by
  have hplace := h.next
  unfold ItrState.stepNext
  split <;> grind [NextPc.inWait, NextPc.holdsCp, NextPc.holdsMarker]

theorem Quick.returned_of_stuck (hl : s.Locks) (hstuck : s.Stuck) : s.close = .returned := by
  have hnext : ¬ (s.next.holdsCp = true ∨ s.next.holdsMarker = true) :=
    fun hold => h.goes_on hold (hstuck.1 false false)
  rw [← hl.nextCp, ← hl.nextMarker, not_or] at hnext
  have hcp := hl.closeCp
  have hmarker := hl.closeMarker
  have hclose := hstuck.2
  unfold ItrState.stepClose at hclose
  cases hpc : s.close with
  | lockMarker =>
    rw [hpc] at hclose hmarker
    cases hlock : s.closeMarkerLock with
    | none => simp [hlock] at hclose
    | some t => cases t <;> simp_all [ClosePc.holdsMarker]
  | lockCp =>
    rw [hpc] at hclose hcp
    cases hlock : s.cpInfoLock with
    | none => simp [hlock] at hclose
    | some t => cases t <;> simp_all [ClosePc.holdsCp]
  | closeStream =>
    rw [hpc] at hclose
    simp [h.stream] at hclose
  | returned => rfl
  | panicked => exact absurd hpc h.close
  | _ =>
    rw [hpc] at hclose
    cases hclose

omit h

theorem quick_start {f c : Bool} (h : n ≤ m ∨ n ≤ l) (hfile : f = true → c = true) :
    (start l m n .opened f c).Quick :=
  ⟨rfl, hfile, fun _ => h, fun hpc => (nomatch hpc), rfl, nofun⟩

def left (s : ItrState) : Nat := s.next.left + s.close.left

theorem Quick.turns_le {es : List ItrEvent} (h : s.Quick)
    (hrun : run ItrState.step s es = some s') :
    (es.filter ItrEvent.isTurn).length ≤ s.left := by
  refine turns_le_of_run (fun _ _ _ hq hs => hq.step hs) (fun s e s' hq he hs => ?_)
    (fun s e s' hq he hs => ?_) h hrun
  · cases e with
    | next opens reads =>
      obtain ⟨-, hlt, hclose⟩ := hq.stepNext hs
      rw [left, left, hclose]
      omega
    | close =>
      obtain ⟨-, hlt, hnext⟩ := hq.stepClose hs
      rw [left, left, hnext]
      omega
    | updateCheckpoint n => cases he
  · cases e with
    | updateCheckpoint n =>
      obtain ⟨-, hnext, hclose⟩ := hq.updateCheckpoint hs
      refine Nat.le_of_eq ?_
      rw [left, left, hnext, hclose]
    | _ => cases he

/-- `Next` has the checkpoint's lock and looks for the marker; `Close` has set it and broadcasts. -/
def crossing : List ItrEvent := [.turn, .turn, .turn, .close, .close]

theorem run_crossing (o : ItrStream) (f c : Bool) (hm : m < n) (hl : l < n) :
    run step (start l m n o f c) crossing =
      some ⟨l, m, n, o, f, true, some .next, some .close, .lockMarker, .lockCp⟩ := by
  simp [crossing, ItrEvent.turn, run, step, stepNext, stepClose, start, hm, hl]

def closing : List ItrEvent := [.close, .close, .close, .close, .close]

/-- `Next` cannot open the next file, and `Close` comes after it. -/
theorem run_broken (h : n ≤ m ∨ n ≤ l) :
    ∃ es s', run step (start l m n .opened true false) es = some s' ∧ s'.close = .panicked := by
  by_cases hm : m < n
  · have hl : ¬ l < n := by omega
    refine ⟨.turn :: .turn :: .turn :: .turn :: .turn :: .turn :: closing,
      ⟨l, l, n, .broken, true, true, none, none, .returned, .panicked⟩, ?_, rfl⟩
    simp [closing, ItrEvent.turn, run, step, stepNext, readBlock, stepClose, start, wake, hm, hl]
  · refine ⟨.turn :: .turn :: .turn :: closing,
      ⟨l, m, n, .broken, true, true, none, none, .returned, .panicked⟩, ?_, rfl⟩
    simp [closing, ItrEvent.turn, run, step, stepNext, readBlock, stepClose, start, wake, hm]

/-- The two calls shut down in every interleaving exactly if the stream is open, the block that
`Next` is to deliver is stored, and a file to be opened for it can be opened or is not asked for. -/
theorem shuts_down_iff (lastBlockNumber maxBlockNumAvailable blockNumToRetrieve : Nat)
    (stream : ItrStream) (fileMissing closeMarker : Bool) :
    (start lastBlockNumber maxBlockNumAvailable blockNumToRetrieve stream fileMissing
        closeMarker).ShutsDown ↔
      stream = .opened ∧ (blockNumToRetrieve ≤ maxBlockNumAvailable ∨
        blockNumToRetrieve ≤ lastBlockNumber) ∧ (fileMissing = true → closeMarker = true) := by
  constructor
  · intro h
    have hstream : stream = .opened := by
      cases stream with
      | opened => rfl
      | unopened | broken => exact absurd rfl (h.1 closing _ rfl).2.1
    subst hstream
    have hready : blockNumToRetrieve ≤ maxBlockNumAvailable ∨
        blockNumToRetrieve ≤ lastBlockNumber := by
      by_contra hwait
      obtain ⟨hmax, hlast⟩ := not_or.mp hwait
      exact (h.1 _ _ (run_crossing _ _ _ (by omega) (by omega))).1 ⟨rfl, rfl⟩
    refine ⟨rfl, hready, fun hmissing => ?_⟩
    by_contra hmarker
    rw [hmissing, eq_false_of_ne_true hmarker] at h
    obtain ⟨es, s', hrun, hpanics⟩ := run_broken hready
    exact (h.1 es s' hrun).2.1 hpanics
  · intro h
    obtain ⟨rfl, hready, hfile⟩ := h
    have hquick := quick_start hready hfile
    refine ⟨fun es s' hrun => ?_, _, fun es s' hrun => hquick.turns_le hrun⟩
    have hend := holds_of_run (fun _ _ _ hq hs => Quick.step hq hs) hquick hrun
    have hlocks := holds_of_run (fun _ _ _ hl hs => Locks.step hl hs) (locks_start _ _ _ _ _ _) hrun
    exact ⟨hend.not_deadlocked hlocks, hend.close, hend.returned_of_stuck hlocks⟩

/-- An iterator with an open stream at block 1, of which only block 0 is stored: the two calls
wait for each other for ever. An iterator that was never advanced, and one whose `Next` could not
open the next file: `Close` panics. -/
theorem shutdown_fails :
    ¬ (start 0 0 1 .opened false false).ShutsDown ∧
      ¬ (start 0 0 0 .unopened false false).ShutsDown ∧
      ¬ (start 1 1 1 .opened true false).ShutsDown := by
  refine ⟨fun h => ?_, fun h => ?_, fun h => ?_⟩
  · exact (h.1 crossing _ (run_crossing .opened false false Nat.one_pos Nat.one_pos)).1 ⟨rfl, rfl⟩
  · exact (h.1 closing _ rfl).2.1 rfl
  · exact (h.1 (.turn :: .turn :: .turn :: closing) _ rfl).2.1 rfl

end ItrState

end FabricOev.BlockStore
