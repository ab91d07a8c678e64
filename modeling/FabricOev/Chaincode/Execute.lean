import FabricOev.Go.Text
import FabricOev.Lib.Runs
import Mathlib.Data.Fintype.Basic
import Mathlib.Logic.Function.Basic

/-!
# Executing a chaincode

`ChaincodeSupport.Execute` hands a transaction to the goroutine that serves the chaincode's stream,
and waits for the answer until a time-out. The answer comes through a channel with one slot, into
which `notify` sends while it holds the handler's lock. The calls and `processStream` are followed
from one lock or channel operation to the next; other messages of the chaincode are left out.
-/

namespace FabricOev.Chaincode

open Go Lib List Function

inductive ExecutePc where
  | idle
  | launched
  | trigger
  | waiting
  | answered
  | returned
deriving DecidableEq, Repr

structure ExecuteCall where
  pc : ExecutePc
  slot : Bool
  notified : Bool
deriving DecidableEq, Repr

/-- Where `processStream` is: in its `select`, in a send of `notify` with the lock, returned, or
deregistered. -/
inductive ProcessPc (ι : Type) where
  | select
  | sending (i : ι)
  | ended
  | deregistered
deriving DecidableEq, Repr

structure HandlerState (ι : Type) where
  stream : ProcessPc ι
  calls : ι → ExecuteCall
  txCtxs : GoString → Option ι

/-- The steps of a call, whose proposal may be refused; an answer, for which `notify` looks up the
context; its send; the end of the stream. -/
inductive HandlerEvent (ι : Type) where
  | lookup (i : ι)
  | create (i : ι) (proposalOk : Bool)
  | handOver (i : ι)
  | answer (i : ι)
  | timeout (i : ι)
  | delete (i : ι)
  | response (txid : GoString)
  | sent
  | endStream
  | deregister
deriving DecidableEq, Repr

namespace HandlerState

variable {ι : Type} [DecidableEq ι] (txid : ι → GoString)

def new : HandlerState ι := ⟨.select, fun _ => ⟨.idle, false, false⟩, fun _ => none⟩

def setCall (s : HandlerState ι) (i : ι) (c : ExecuteCall) : HandlerState ι :=
  { s with calls := update s.calls i c }

/-- The lock is kept from one step to the next in the send of `notify` only. -/
def locked (s : HandlerState ι) : Bool :=
  match s.stream with
  | .sending _ => true
  | _ => false

def step (s : HandlerState ι) : HandlerEvent ι → Option (HandlerState ι)
  | .lookup i =>
    let c := s.calls i
    if c.pc = .idle then
      some (s.setCall i { c with pc := if s.stream = .deregistered then .returned else .launched })
    else none
  | .create i proposalOk =>
    let c := s.calls i
    if c.pc = .launched ∧ s.locked = false then
      if s.txCtxs (txid i) = none then
        some { s.setCall i { c with pc := if proposalOk then .trigger else .returned } with
          txCtxs := update s.txCtxs (txid i) (some i) }
      else some (s.setCall i { c with pc := .returned })
    else none
  | .handOver i =>
    let c := s.calls i
    if c.pc = .trigger ∧ s.stream = .select then some (s.setCall i { c with pc := .waiting })
    else none
  | .answer i =>
    let c := s.calls i
    if c.pc = .waiting ∧ c.slot then some (s.setCall i { c with pc := .answered, slot := false })
    else none
  | .timeout i =>
    let c := s.calls i
    if c.pc = .waiting then some (s.setCall i { c with pc := .answered }) else none
  | .delete i =>
    let c := s.calls i
    if c.pc = .answered ∧ s.locked = false then
      some { s.setCall i { c with pc := .returned } with
        txCtxs := update s.txCtxs (txid i) none }
    else none
  | .response t =>
    if s.stream = .select then
      match s.txCtxs t with
      | none => some s
      | some i => some { s.setCall i { s.calls i with notified := true } with stream := .sending i }
    else none
  | .sent =>
    match s.stream with
    | .sending i =>
      if (s.calls i).slot then none
      else some { s.setCall i { s.calls i with slot := true } with stream := .select }
    | _ => none
  | .endStream => if s.stream = .select then some { s with stream := .ended } else none
  | .deregister => if s.stream = .ended then some { s with stream := .deregistered } else none

/-- A second answer for a context; or a call has the handler but has not handed over its message
when the stream ends or has ended. -/
def Hangs (s : HandlerState ι) : HandlerEvent ι → Prop
  | .response t => ∃ i, s.txCtxs t = some i ∧ (s.calls i).notified = true
  | .endStream => ∃ i, (s.calls i).pc = .launched ∨ (s.calls i).pc = .trigger
  | .lookup _ => s.stream = .ended
  | _ => False

instance decidableHangs [Fintype ι] (s : HandlerState ι) : ∀ e, Decidable (s.Hangs e)
  | .response _ => inferInstanceAs (Decidable (∃ _, _ ∧ _))
  | .endStream => inferInstanceAs (Decidable (∃ _, _ ∨ _))
  | .lookup _ => inferInstanceAs (Decidable (_ = _))
  | .create _ _ | .handOver _ | .answer _ | .timeout _ | .delete _ | .sent | .deregister =>
    inferInstanceAs (Decidable False)

/-- The slot of a call not yet answered is free, and no call waits for a stream that has ended. -/
structure Live (s : HandlerState ι) : Prop where
  slots : ∀ i, (s.calls i).notified = false → (s.calls i).slot = false
  sending : ∀ i, s.stream = .sending i → (s.calls i).slot = false ∧ (s.calls i).notified = true
  served : s.stream = .ended ∨ s.stream = .deregistered →
    ∀ i, (s.calls i).pc ≠ .launched ∧ (s.calls i).pc ≠ .trigger

variable {txid} {s s' : HandlerState ι} {e : HandlerEvent ι} {i : ι} {c : ExecuteCall}

theorem Live.of_update (hs : s.Live) (hcalls : s'.calls = update s.calls i c)
    (hslot : c.notified = false → c.slot = false) (hsending : ∀ j, s'.stream = .sending j →
      if j = i then c.slot = false ∧ c.notified = true else s.stream = .sending j)
    (hserved : s'.stream = .ended ∨ s'.stream = .deregistered →
      s'.stream = s.stream ∧ c.pc ≠ .launched ∧ c.pc ≠ .trigger) : s'.Live := by
  have hcall : ∀ j, s'.calls j = if j = i then c else s.calls j := by
    intro j
    rw [hcalls, update_apply]
  refine ⟨fun j => ?_, fun j hj => ?_, fun h j => ?_⟩
  · rw [hcall]
    split_ifs
    · exact hslot
    · exact hs.slots j
  · have hj := hsending j hj
    rw [hcall]
    split_ifs at hj ⊢
    · exact hj
    · exact hs.sending j hj
  · obtain ⟨hsame, hpc⟩ := hserved h
    rw [hcall]
    split_ifs
    · exact hpc
    · exact hs.served (hsame ▸ h) j

/-- Call `i` takes a step, which keeps what it was told and may free its slot. -/
theorem Live.of_call (hs : s.Live) (hcalls : s'.calls = update s.calls i c)
    (hstream : s'.stream = s.stream) (hnotified : c.notified = (s.calls i).notified)
    (hslot : c.slot = true → (s.calls i).slot = true)
    (hserved : s.stream = .ended ∨ s.stream = .deregistered →
      c.pc ≠ .launched ∧ c.pc ≠ .trigger) : s'.Live := by
  have hfree : (s.calls i).slot = false → c.slot = false := by
    intro h
    simpa [h] using hslot
  refine hs.of_update hcalls (fun h => hfree (hs.slots i (hnotified ▸ h))) (fun j hj => ?_)
    (fun h => ⟨hstream, hserved (hstream ▸ h)⟩)
  rw [hstream] at hj
  split_ifs with hji
  · subst hji
    obtain ⟨hempty, htold⟩ := hs.sending j hj
    exact ⟨hfree hempty, hnotified.trans htold⟩
  · exact hj

theorem Live.step (hs : s.Live) (hgood : ¬ s.Hangs e) (hstep : s.step txid e = some s') :
    s'.Live := by
  cases e <;> rw [HandlerState.step] at hstep
  case lookup i =>
    split_ifs at hstep with hpc hdereg <;> cases hstep
    · exact hs.of_call rfl rfl rfl id (fun _ => ⟨nofun, nofun⟩)
    · exact hs.of_call rfl rfl rfl id (fun h => (h.elim hgood hdereg).elim)
  case create i ok =>
    split_ifs at hstep with hpc hctx hok <;> cases hstep
    · exact hs.of_call rfl rfl rfl id (fun h => absurd hpc.1 (hs.served h i).1)
    · exact hs.of_call rfl rfl rfl id (fun _ => ⟨nofun, nofun⟩)
    · exact hs.of_call rfl rfl rfl id (fun _ => ⟨nofun, nofun⟩)
  case handOver i =>
    split_ifs at hstep with hpc
    cases hstep
    exact hs.of_call rfl rfl rfl id (fun _ => ⟨nofun, nofun⟩)
  case answer i =>
    split_ifs at hstep with hpc
    cases hstep
    exact hs.of_call rfl rfl rfl nofun (fun _ => ⟨nofun, nofun⟩)
  case timeout i =>
    split_ifs at hstep with hpc
    cases hstep
    exact hs.of_call rfl rfl rfl id (fun _ => ⟨nofun, nofun⟩)
  case delete i =>
    split_ifs at hstep with hpc
    cases hstep
    exact hs.of_call rfl rfl rfl id (fun _ => ⟨nofun, nofun⟩)
  case response t =>
    split_ifs at hstep with hselect
    split at hstep
    · exact Option.some.inj hstep ▸ hs
    · rename_i i hctx
      cases hstep
      have hfirst : (s.calls i).notified = false := by simpa [Hangs, hctx] using hgood
      refine hs.of_update rfl nofun (fun j hj => ?_) nofun
      obtain rfl := ProcessPc.sending.inj hj
      simpa using hs.slots i hfirst
  case sent =>
    split at hstep
    · rename_i i hstream
      split_ifs at hstep with hfull
      cases hstep
      exact hs.of_update rfl (fun h => absurd h (by simp [(hs.sending i hstream).2])) nofun nofun
    · exact nomatch hstep
  case endStream =>
    split_ifs at hstep with hselect
    cases hstep
    exact ⟨hs.slots, nofun, fun _ i => not_or.mp fun h => hgood ⟨i, h⟩⟩
  case deregister =>
    split_ifs at hstep with hended
    cases hstep
    exact ⟨hs.slots, nofun, fun _ => hs.served (.inl hended)⟩

/-- The call returns by its own steps once `notify` has finished a send. -/
def Returns (txid : ι → GoString) (s : HandlerState ι) (i : ι) : Prop :=
  ∃ es ⊆ [.sent, .create i true, .handOver i, .timeout i, .delete i], es.length ≤ 5 ∧
    ∃ s', run (step txid) s es = some s' ∧ (s'.calls i).pc = .returned

variable (txid) in
theorem returns_of_unlocked (hs : s.Live) (hlock : s.locked = false) {i : ι}
    (hpc : (s.calls i).pc ≠ .idle) : ∃ es ⊆ [.create i true, .handOver i, .timeout i, .delete i],
      es.length ≤ 4 ∧ ∃ s', run (step txid) s es = some s' ∧ (s'.calls i).pc = .returned := by
  have hselect : (s.calls i).pc = .launched ∨ (s.calls i).pc = .trigger → s.stream = .select := by
    intro hp
    have hserved := fun h => hs.served h i
    cases hstream : s.stream with
    | select => rfl
    | sending j => simp [locked, hstream] at hlock
    | ended => exact absurd hp (not_or.mpr (hserved (.inl hstream)))
    | deregistered => exact absurd hp (not_or.mpr (hserved (.inr hstream)))
  cases hp : (s.calls i).pc with
  | idle => exact absurd hp hpc
  | launched =>
    by_cases hctx : s.txCtxs (txid i) = none
    · refine ⟨_, List.Subset.refl _, by simp, ?_⟩
      simp [run, step, hp, hctx, hselect (.inl hp), setCall, locked]
    · refine ⟨[.create i true], by simp, by simp, ?_⟩
      simp [run, step, hp, hlock, hctx, setCall]
  | trigger =>
    refine ⟨[.handOver i, .timeout i, .delete i], by simp, by simp, ?_⟩
    simp [run, step, hp, hselect (.inr hp), setCall, locked]
  | waiting =>
    refine ⟨[.timeout i, .delete i], by simp, by simp, ?_⟩
    simpa [run, step, hp, setCall, locked] using hlock
  | answered =>
    refine ⟨[.delete i], by simp, by simp, ?_⟩
    simp [run, step, hp, hlock, setCall]
  | returned => exact ⟨[], by simp, by simp, s, rfl, hp⟩

variable (txid) in
theorem sent_of_locked (hs : s.Live) (hlock : s.locked = true) :
    ∃ s', s.step txid .sent = some s' ∧ s'.locked = false ∧
      ∀ i, (s'.calls i).pc = (s.calls i).pc := by
  cases hstream : s.stream with
  | sending j =>
    have hfree := (hs.sending j hstream).1
    refine ⟨_, by simp only [step, hstream, hfree]; rfl, rfl, fun i => ?_⟩
    by_cases hij : i = j
    · simp [setCall, hij]
    · simp [setCall, hij]
  | select | ended | deregistered => simp [locked, hstream] at hlock

/-- In every interleaving without such a moment, the lock is released and every call that has
begun returns, by its time-out at the latest and without a further message of the chaincode. -/
theorem execute_returns {es : List (HandlerEvent ι)} (hgood : Never (step txid) Hangs new es)
    (hrun : run (step txid) new es = some s) :
    (s.locked = true → ∃ s', s.step txid .sent = some s' ∧ s'.locked = false) ∧
      ∀ i, (s.calls i).pc ≠ .idle → s.Returns txid i := by
  have hnew : (new : HandlerState ι).Live := ⟨fun _ _ => rfl, nofun, nofun⟩
  have hs : s.Live := holds_of_never (fun _ _ _ h => h.step) hnew hgood hrun
  refine ⟨fun hlock => ?_, fun i hpc => ?_⟩
  · obtain ⟨s', hsent, hfree, -⟩ := sent_of_locked txid hs hlock
    exact ⟨s', hsent, hfree⟩
  cases hlock : s.locked with
  | false =>
    obtain ⟨es, hes, hlen, hend⟩ := returns_of_unlocked txid hs hlock hpc
    exact ⟨es, subset_cons_of_subset _ hes, by omega, hend⟩
  | true =>
    obtain ⟨m, hsent, hfree, hcalls⟩ := sent_of_locked txid hs hlock
    have hm : m.Live := hs.step id hsent
    obtain ⟨es, hes, hlen, hend⟩ := returns_of_unlocked txid hm hfree (by rwa [hcalls i])
    refine ⟨.sent :: es, cons_subset_cons _ hes, by rw [length_cons]; omega, ?_⟩
    simpa [run, hsent] using hend

/-- The chaincode answers with `COMPLETED` while the call waits. -/
theorem completed_call_returns :
    (Never (step fun _ : Unit => str "tx") Hangs new
        [.lookup (), .create () true, .handOver (), .response (str "tx")] ∧
      ∃ s, run (step fun _ : Unit => str "tx") new
          [.lookup (), .create () true, .handOver (), .response (str "tx")] = some s ∧
        s.Returns (fun _ => str "tx") ()) := by
  have hgood : Never (step fun _ : Unit => str "tx") Hangs new
      [.lookup (), .create () true, .handOver (), .response (str "tx")] := by
    decide +kernel
  refine ⟨hgood, _, rfl, ?_⟩
  exact (execute_returns hgood rfl).2 () (by decide)

/-- Three answers: the first ends the call, the second fills the slot again, and with the third
`notify` waits in its send with the lock that the call needs. -/
theorem third_answer_hangs :
    ∃ s, run (step fun _ : Unit => str "tx") new
        [.lookup (), .create () true, .handOver (), .response (str "tx"), .sent, .answer (),
          .response (str "tx"), .sent, .response (str "tx")] = some s ∧
      ∀ es s', run (step fun _ => str "tx") s es = some s' →
        s'.locked = true ∧ (s'.calls ()).pc = .answered := by
  refine ⟨_, rfl, fun es s' hrun => ?_⟩
  -- From here on no step is possible but those of other calls, and there are none.
  have hstuck : s'.stream = .sending () ∧ s'.calls () = ⟨.answered, true, true⟩ := by
    refine holds_of_run (P := fun s : HandlerState Unit =>
      s.stream = .sending () ∧ s.calls () = ⟨.answered, true, true⟩) ?_ ⟨rfl, rfl⟩ hrun
    rintro s e s' ⟨hstream, hcall⟩ hstep
    cases e <;> simp [step, hstream, hcall, locked] at hstep
  simp [locked, hstuck]

end HandlerState

end FabricOev.Chaincode
