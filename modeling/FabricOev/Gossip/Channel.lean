import FabricOev.Gossip.MessageStore
import FabricOev.Gossip.PayloadsBuffer

/-!
# Blocks that come by gossip

`gossipChannel.HandleMessage` for messages that carry blocks: data messages, and the updates that
answer a pull. A block not seen yet goes into `blockMsgStore` and to the local subscribers; one that
the store knows is dropped. Modelled are the messages that pass the checks in front (signature,
organisation, and for updates the state info).
-/

namespace FabricOev.Gossip

open Go Lib List

def abs64 (a b : UInt64) : UInt64 := if a > b then a - b else b - a

/-- `dataInvalidationPolicy`; the size is the number of blocks the store keeps. -/
def dataInvalidationPolicy (dataBlockStorageSize : UInt64) (this that : Payload) :
    InvalidationResult :=
  if this.seqNum = that.seqNum then .messageInvalidated
  else if abs64 this.seqNum that.seqNum ≤ dataBlockStorageSize then .messageNoAction
  else if this.seqNum > that.seqNum then .messageInvalidates
  else .messageInvalidated

variable (size : UInt64)

namespace MsgStore

def add (message : Payload) (messages : List Payload) : List Payload × Bool :=
  let r := addLoop (dataInvalidationPolicy size) message messages
  (if r.2 then r.1 ++ [message] else r.1, r.2)

def checkValid (message : Payload) (messages : List Payload) : Bool :=
  messages.all fun m => dataInvalidationPolicy size message m ≠ .messageInvalidated

variable {size}

theorem mem_of_mem_add {message p : Payload} {messages : List Payload}
    (h : p ∈ (add size message messages).1) :
    p ∈ messages ∨ p = message ∧ (add size message messages).2 = true := by
  dsimp only [add] at h ⊢
  split at h
  · rename_i hnew
    rcases mem_append.mp h with h | h
    · exact .inl (mem_of_mem_addLoop h)
    · exact .inr ⟨mem_singleton.mp h, hnew⟩
  · exact .inl (mem_of_mem_addLoop h)

end MsgStore

/-! ## The channel -/

structure GossipMessage where
  channel : Bytes
  dataMsg : Option (Option Payload)
deriving DecidableEq, Repr

structure GossipChannel where
  blockMsgStore : List Payload
  added : List Payload
  delivered : List Payload
deriving DecidableEq, Repr

inductive ChannelEvent where
  | dataMsg (payload : Option Payload)
  | dataUpdate (items : List (Option GossipMessage))
  | expire (expired : Payload → Bool)

namespace GossipChannel

def new : GossipChannel := ⟨[], [], []⟩

variable (verify : Payload → Bool) (chainId : Bytes)

/-- The item decodes, is of this channel and is a block that verifies. The store is asked about the
update, of which no policy speaks. -/
def admitted (item : Option GossipMessage) : Option Payload := do
  let gMsg ← item
  if gMsg.channel = chainId then do
    let payload ← gMsg.dataMsg.join
    if verify payload then some payload else none
  else none

/-- The loop over the items: the store, the payloads added, and whether it came to the end. -/
def filterItems : List Payload → List (Option GossipMessage) → List Payload × List Payload × Bool
  | store, [] => (store, [], true)
  | store, item :: items =>
    match admitted verify chainId item with
    | none => (store, [], false)
    | some payload =>
      let r := filterItems (MsgStore.add size payload store).1 items
      (r.1, (if (MsgStore.add size payload store).2 then [payload] else []) ++ r.2.1, r.2.2)

/-- `HandleMessage`. The pull mediator hands on the added items once the loop is through. -/
def step (s : GossipChannel) : ChannelEvent → Option GossipChannel
  | .dataMsg none => some s
  | .dataMsg (some payload) =>
    if MsgStore.checkValid size payload s.blockMsgStore && verify payload then
      let r := MsgStore.add size payload s.blockMsgStore
      let fresh := if r.2 then [payload] else []
      some ⟨r.1, s.added ++ fresh, s.delivered ++ fresh⟩
    else some s
  | .dataUpdate items =>
    let r := filterItems size verify chainId s.blockMsgStore items
    some ⟨r.1, s.added ++ r.2.1, s.delivered ++ if r.2.2 then r.2.1 else []⟩
  | .expire expired => some { s with blockMsgStore := s.blockMsgStore.filter (!expired ·) }

/-- Everything added was handed to the subscribers, and so was all that the store knows. -/
def Delivers (s : GossipChannel) : Prop :=
  s.delivered = s.added ∧ ∀ p ∈ s.blockMsgStore, p ∈ s.delivered

/-- An item that is not admitted comes behind one that is added. -/
def CutShort : List Payload → Bool → List (Option GossipMessage) → Prop
  | _, _, [] => False
  | store, stored, item :: items =>
    match admitted verify chainId item with
    | none => stored = true
    | some payload =>
      CutShort (MsgStore.add size payload store).1
        (stored || (MsgStore.add size payload store).2) items

/-- The message is an update that is cut short. -/
def Suppresses (s : GossipChannel) : ChannelEvent → Prop
  | .dataUpdate items => CutShort size verify chainId s.blockMsgStore false items
  | _ => False

variable {size verify chainId}

theorem cutShort_iff (store : List Payload) (stored : Bool) (items : List (Option GossipMessage)) :
    CutShort size verify chainId store stored items ↔
      (filterItems size verify chainId store items).2.2 = false ∧
        (stored = true ∨ (filterItems size verify chainId store items).2.1 ≠ []) := by
  induction items generalizing store stored with
  | nil => simp [CutShort, filterItems]
  | cons item items ih =>
    rw [CutShort, filterItems]
    split
    · simp
    · rename_i payload _
      rw [ih]
      cases (MsgStore.add size payload store).2 <;> simp

theorem mem_filterItems {store : List Payload} {items : List (Option GossipMessage)} {p : Payload}
    (h : p ∈ (filterItems size verify chainId store items).1) :
    p ∈ store ∨ p ∈ (filterItems size verify chainId store items).2.1 := by
  induction items generalizing store with
  | nil => exact .inl h
  | cons item items ih =>
    rw [filterItems] at h ⊢
    split at h
    · exact .inl h
    · rcases ih h with hstore | hnew
      · rcases MsgStore.mem_of_mem_add hstore with hold | ⟨rfl, hadd⟩
        · exact .inl hold
        · simp [hadd]
      · exact .inr (mem_append_right _ hnew)

theorem delivers_step {s s' : GossipChannel} {e : ChannelEvent} (hs : s.Delivers)
    (hstep : s.step size verify chainId e = some s') :
    s'.Delivers ↔ ¬ s.Suppresses size verify chainId e := by
  obtain ⟨hsame, hknown⟩ := hs
  cases e with
  | dataMsg payload =>
    refine iff_of_true ?_ id
    cases payload with
    | none =>
      cases hstep
      exact ⟨hsame, hknown⟩
    | some payload =>
      rw [step] at hstep
      split_ifs at hstep
      · cases hstep
        refine ⟨by rw [hsame], fun p hp => ?_⟩
        rcases MsgStore.mem_of_mem_add hp with hold | ⟨rfl, hadd⟩
        · exact mem_append_left _ (hknown p hold)
        · simp [hadd]
      · cases hstep
        exact ⟨hsame, hknown⟩
  | dataUpdate items =>
    cases hstep
    rw [Suppresses, cutShort_iff, Delivers, hsame]
    cases hend : (filterItems size verify chainId s.blockMsgStore items).2.2 with
    | true =>
      simp only [if_true]
      refine iff_of_true ⟨trivial, fun p hp => ?_⟩ (by simp)
      rcases mem_filterItems hp with hold | hnew
      · exact mem_append_left _ (hsame ▸ hknown p hold)
      · exact mem_append_right _ hnew
    | false =>
      cases hnew : (filterItems size verify chainId s.blockMsgStore items).2.1 with
      | nil =>
        refine iff_of_true ⟨by simp, fun p hp => ?_⟩ (by simp)
        have hold := (mem_filterItems hp).resolve_right (by simp [hnew])
        simpa [hsame] using hknown p hold
      | cons p ps => simp
  | expire expired =>
    cases hstep
    exact iff_of_true ⟨hsame, fun p hp => hknown p (mem_filter.mp hp).1⟩ id

variable (size verify chainId)

/-- In every sequence of messages all blocks that are stored are handed to the subscribers,
exactly if no update has an item that is not admitted behind one that is added. -/
theorem delivers_iff_none_cut_short (es : List ChannelEvent) :
    Always (step size verify chainId) Delivers new es ↔
      Never (step size verify chainId) (Suppresses size verify chainId) new es :=
  have hnew : new.Delivers := ⟨rfl, nofun⟩
  always_iff_never (fun _ _ _ => delivers_step) hnew es

/-- An update with block one and an envelope that does not decode: the block is stored and not
handed on, and when it comes again it is dropped. -/
theorem undecodable_item_suppresses_block :
    run (step 100 (fun _ => true) []) new
      [.dataUpdate [some ⟨[], some (some ⟨1, []⟩)⟩, none], .dataMsg (some ⟨1, []⟩)] =
        some ⟨[⟨1, []⟩], [⟨1, []⟩], []⟩ := by
  decide

end GossipChannel

end FabricOev.Gossip
