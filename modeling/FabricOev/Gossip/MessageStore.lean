import FabricOev.Lib.Runs

/-!
# The size of a message store

`messageStoreImpl` with any policy. It counts the messages that it has marked as expired, and
`Size` takes the count off the number of messages. Only `expireMessages` keeps the count, while
messages also leave in `Add`, when a newer one supersedes them, and in `Purge`. The trigger and
the callback, which are called with the data of a message, are left out.
-/

namespace FabricOev.Gossip

open Lib List

inductive InvalidationResult where
  | messageNoAction
  | messageInvalidates
  | messageInvalidated
deriving DecidableEq, Repr

/-- The loop of `Add`. What the message invalidates before it meets one that invalidates it is gone
all the same. -/
def addLoop {α β : Type} (pol : α → β → InvalidationResult) (message : α) : List β → List β × Bool
  | [] => ([], true)
  | m :: ms =>
    match pol message m with
    | .messageInvalidated => (m :: ms, false)
    | .messageInvalidates => addLoop pol message ms
    | .messageNoAction => (m :: (addLoop pol message ms).1, (addLoop pol message ms).2)

theorem mem_of_mem_addLoop {α β : Type} {pol : α → β → InvalidationResult} {message : α} {m : β}
    {ms : List β} (h : m ∈ (addLoop pol message ms).1) : m ∈ ms := by
  induction ms with
  | nil => exact h
  | cons m' ms ih =>
    rw [addLoop] at h
    split at h
    · exact h
    · exact mem_cons_of_mem _ (ih h)
    · exact (mem_cons.mp h).elim (· ▸ mem_cons_self) fun h => mem_cons_of_mem _ (ih h)

structure Msg (α : Type) where
  data : α
  created : Int
  expired : Bool
deriving DecidableEq

structure MessageStoreImpl (α : Type) where
  messages : List (Msg α)
  expiredCount : Int
deriving DecidableEq

namespace MessageStoreImpl

variable {α : Type} (pol : α → α → InvalidationResult) (msgTTL : Int) (s : MessageStoreImpl α)

def add (message : α) (now : Int) : MessageStoreImpl α × Bool :=
  let r := addLoop (fun a (m : Msg α) => pol a m.data) message s.messages
  ({ s with messages := if r.2 then r.1 ++ [⟨message, now, false⟩] else r.1 }, r.2)

/-- `Purge`; without a message to be purged it returns before it takes the lock. -/
def purge (shouldBePurged : α → Bool) : MessageStoreImpl α :=
  { s with messages := s.messages.filter fun m => !shouldBePurged m.data }

/-- The loop of `expireMessages`, which reads the clock anew: what is left, and the count. -/
def expireLoop : (Nat → Int) → List (Msg α) → List (Msg α) × Int
  | _, [] => ([], 0)
  | clock, m :: ms =>
    let r := expireLoop (fun i => clock (i + 1)) ms
    if m.expired = false then
      if msgTTL < clock 0 - m.created then ({ m with expired := true } :: r.1, r.2 + 1)
      else (m :: r.1, r.2)
    else if msgTTL * 2 < clock 0 - m.created then (r.1, r.2 - 1)
    else (m :: r.1, r.2)

def expireMessages (clock : Nat → Int) : MessageStoreImpl α :=
  let r := expireLoop msgTTL clock s.messages
  ⟨r.1, s.expiredCount + r.2⟩

def size : Int := s.messages.length - s.expiredCount

def get : List α := (s.messages.filter fun m => !m.expired).map Msg.data

inductive StoreEvent (α : Type) where
  | add (message : α) (now : Int)
  | purge (shouldBePurged : α → Bool)
  | expire (clock : Nat → Int)

/-- Each call holds the lock while it changes the store. -/
def step : StoreEvent α → Option (MessageStoreImpl α)
  | .add message now => some (s.add pol message now).1
  | .purge shouldBePurged => some (s.purge shouldBePurged)
  | .expire clock => some (s.expireMessages msgTTL clock)

/-- The messages that leave otherwise than by the clean-up. -/
def dropped : StoreEvent α → List (Msg α)
  | .add message _ =>
    (s.messages.takeWhile fun m => pol message m.data ≠ .messageInvalidated).filter fun m =>
      pol message m.data = .messageInvalidates
  | .purge shouldBePurged => s.messages.filter fun m => shouldBePurged m.data
  | .expire _ => []

/-- An expired message leaves the store otherwise than by the clean-up. -/
def Drops (e : StoreEvent α) : Prop := ∃ m ∈ s.dropped pol e, m.expired = true

def expiredIn (ms : List (Msg α)) : Nat := ms.countP Msg.expired

def Exact : Prop := s.size = s.get.length

/-- The size is exact if the count is the number of messages that are marked. -/
theorem exact_iff : s.Exact ↔ s.expiredCount = expiredIn s.messages := by
  have hlen := s.messages.length_eq_countP_add_countP Msg.expired
  have hget : s.get.length = s.messages.countP fun m => !m.expired := by
    rw [get, length_map, countP_eq_length_filter]
  simp only [Bool.not_eq_true, Bool.decide_eq_false] at hlen
  rw [Exact, size, hget, expiredIn]
  omega

theorem expired_addLoop (message : α) (now : Int) :
    expiredIn (addLoop (fun a (m : Msg α) => pol a m.data) message s.messages).1 +
      expiredIn (s.dropped pol (.add message now)) = expiredIn s.messages := by
  rw [dropped]
  induction s.messages with
  | nil => rfl
  | cons m ms ih =>
    simp only [expiredIn] at ih ⊢
    cases h : pol message m.data <;> simp [addLoop, h, countP_cons] at ih ⊢ <;> omega

theorem expired_expireLoop (clock : Nat → Int) (ms : List (Msg α)) :
    (expiredIn (expireLoop msgTTL clock ms).1 : Int) =
      expiredIn ms + (expireLoop msgTTL clock ms).2 := by
  induction ms generalizing clock with
  | nil => rfl
  | cons m ms ih =>
    have hrest := ih fun i => clock (i + 1)
    simp only [expiredIn] at hrest ⊢
    rw [expireLoop]
    cases hm : m.expired <;> split_ifs <;> simp_all <;> omega

variable {pol msgTTL s}

/-- The count is off by the expired messages that were dropped. -/
theorem exact_step {e : StoreEvent α} {s' : MessageStoreImpl α} (h : s.Exact)
    (hstep : s.step pol msgTTL e = some s') : s'.Exact ↔ ¬ s.Drops pol e := by
  have hnone : ¬ s.Drops pol e ↔ expiredIn (s.dropped pol e) = 0 := by
    simp [Drops, expiredIn, countP_eq_zero]
  rw [exact_iff] at h ⊢
  rw [hnone]
  cases e with
  | add message now =>
    cases hstep
    have hloop := s.expired_addLoop pol message now
    have hadd : expiredIn (s.add pol message now).1.messages =
        expiredIn (addLoop (fun a (m : Msg α) => pol a m.data) message s.messages).1 := by
      dsimp only [add]
      split
      · rw [expiredIn, countP_append]
        rfl
      · rfl
    rw [hadd, show (s.add pol message now).1.expiredCount = s.expiredCount from rfl]
    omega
  | purge shouldBePurged =>
    cases hstep
    have hsplit := countP_eq_countP_filter_add s.messages Msg.expired fun m => shouldBePurged m.data
    simp only [expiredIn, purge, dropped] at *
    omega
  | expire clock =>
    cases hstep
    refine iff_of_true ?_ rfl
    rw [expireMessages, h, expired_expireLoop]

def newMsgStore : MessageStoreImpl α := ⟨[], 0⟩

/-- The size is exact along a run if and only if no expired message is superseded or purged. -/
theorem size_exact_iff (pol : α → α → InvalidationResult) (msgTTL : Int)
    (es : List (StoreEvent α)) :
    (∀ s : MessageStoreImpl α, s.size = s.get.length ↔ s.expiredCount = expiredIn s.messages) ∧
      (Always (step pol msgTTL) Exact newMsgStore es ↔
        Never (step pol msgTTL) (Drops pol) newMsgStore es) :=
  ⟨exact_iff, always_iff_never (fun _ _ _ => exact_step) ((exact_iff _).mpr rfl) es⟩

/-- A message expires and is superseded by the next one: the store has one message that is not
expired, and its size is zero. -/
theorem superseded_expired_miscounted :
    let pol := fun this that : Nat => if this = that then .messageInvalidated
      else if that < this then InvalidationResult.messageInvalidates else .messageInvalidated
    ∃ s, run (step pol 10) newMsgStore [.add 0 0, .expire fun _ => 11, .add 1 12] = some s ∧
      s.get = [1] ∧ s.size = 0 :=
  ⟨_, rfl, rfl, rfl⟩

end MessageStoreImpl

end FabricOev.Gossip
