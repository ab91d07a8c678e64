import FabricOev.Go.Text
import FabricOev.Lib.Runs
import Mathlib.Logic.Function.Basic

/-!
# The membership of a gossip network

`gossipDiscoveryImpl` keeps five maps by peer: the member, when it was last alive or dead, and the
message that told so. One goroutine handles messages and takes the lock several times for each;
others move silent peers from alive to dead, and forget a peer when its message expires. The
goroutines are followed from one time under the lock to the next.
-/

namespace FabricOev.Gossip

open Go Lib Function

abbrev PkiId := Bytes

structure NetworkMember where
  endpoint : GoString
  metadata : Bytes
  internalEndpoint : GoString
deriving DecidableEq, Repr

structure AliveMsg where
  pkiId : PkiId
  endpoint : GoString
  metadata : Bytes
  incNum : UInt64
  seqNum : UInt64
  secretEnvelope : Option GoString
deriving DecidableEq, Repr

/-- `timestamp` without the time the peer was last seen. -/
structure Timestamp where
  incTime : UInt64
  seqNum : UInt64
deriving DecidableEq, Repr

def AliveMsg.timestamp (m : AliveMsg) : Timestamp := ⟨m.incNum, m.seqNum⟩

def before (a : Timestamp) (m : AliveMsg) : Bool :=
  a.incTime = m.incNum && a.seqNum < m.seqNum || a.incTime < m.incNum

/-- What the five maps of the membership have for one peer. -/
structure Entries where
  id2Member : Option NetworkMember
  aliveLastTS : Option Timestamp
  deadLastTS : Option Timestamp
  aliveMembership : Option AliveMsg
  deadMembership : Option AliveMsg
deriving DecidableEq, Repr

namespace Entries

def none : Entries := ⟨.none, .none, .none, .none, .none⟩

/-- The member after a message; `learnNewMembers` puts the old internal endpoint first. -/
def member (e : Entries) (m : AliveMsg) (old : Bool) : NetworkMember :=
  let prev := e.id2Member.map (·.internalEndpoint)
  ⟨m.endpoint, m.metadata,
    ((if old then prev <|> m.secretEnvelope else m.secretEnvelope <|> prev)).getD []⟩

/-- `learnNewMembers` for an alive message of another peer. -/
def learnNewAlive (e : Entries) (m : AliveMsg) : Entries :=
  { e with
    id2Member := some (e.member m true), aliveLastTS := some m.timestamp
    aliveMembership := some m }

/-- `learnNewMembers` for a dead member; of itself a peer only keeps the member. -/
def learnNewDead (e : Entries) (m : AliveMsg) (self : Bool) : Entries :=
  if self then { e with id2Member := some (e.member m true) }
  else
    { e with
      id2Member := some (e.member m true), deadLastTS := some m.timestamp
      deadMembership := some m }

def resurrectMember (e : Entries) (m : AliveMsg) : Entries :=
  ⟨some (e.member m false), some m.timestamp, .none, some m, .none⟩

/-- `learnExistingMembers`; without a member or an alive message it dereferences nil. -/
def learnExisting (e : Entries) (m : AliveMsg) : Option Entries :=
  if e.id2Member = .none then .none
  else
    let e := { e with id2Member := some (e.member m false) }
    if e.deadLastTS ≠ .none ∨ e.aliveLastTS = .none then some e
    else if e.aliveMembership = .none then .none
    else some { e with aliveLastTS := some m.timestamp, aliveMembership := some m }

/-- The body of the loop of `expireDeadMembers`. -/
def expireDead (e : Entries) : Entries :=
  if e.aliveLastTS = .none then e
  else
    let e := { e with deadLastTS := e.aliveLastTS, aliveLastTS := .none }
    if e.aliveMembership = .none then e
    else { e with deadMembership := e.aliveMembership, aliveMembership := .none }

/-- No entries; a member that is alive, or dead, in the maps of that kind only; of oneself the
member only. -/
inductive Ok : Bool → Entries → Prop
  | absent {self : Bool} : Ok self none
  | alive {n : NetworkMember} {t : Timestamp} {m : AliveMsg} :
    Ok false ⟨some n, some t, .none, some m, .none⟩
  | dead {n : NetworkMember} {t : Timestamp} {m : AliveMsg} :
    Ok false ⟨some n, .none, some t, .none, some m⟩
  | self {n : NetworkMember} : Ok true ⟨some n, .none, .none, .none, .none⟩

variable {e : Entries} {m : AliveMsg} {self : Bool}

theorem Ok.learnNewAlive (h : Ok false e) (hnew : e.id2Member = .none) :
    Ok false (e.learnNewAlive m) := by
  cases h with
  | absent => exact .alive
  | alive | dead => exact nomatch hnew

theorem Ok.learnNewDead (h : Ok self e) (hnew : e.id2Member = .none) :
    Ok self (e.learnNewDead m self) := by
  cases h with
  | absent =>
    cases self with
    | false => exact .dead
    | true => exact .self
  | alive | dead | self => exact nomatch hnew

theorem Ok.expireDead (h : Ok self e) :
    Ok self e.expireDead ∧ e.expireDead.id2Member = e.id2Member := by
  cases h with
  | absent => exact ⟨.absent, rfl⟩
  | alive | dead => exact ⟨.dead, rfl⟩
  | self => exact ⟨.self, rfl⟩

theorem Ok.learnExisting (h : Ok false e) (hknown : e.id2Member ≠ .none) :
    ∃ e', e.learnExisting m = some e' ∧ Ok false e' := by
  cases h with
  | absent => exact absurd rfl hknown
  | alive => exact ⟨_, rfl, .alive⟩
  | dead => exact ⟨_, rfl, .dead⟩

end Entries

/-! ## The goroutines -/

/-- Where the goroutine that handles messages is. -/
inductive HandlerPc where
  | idle
  | known (m : AliveMsg)
  | learnNew (m : AliveMsg)
  | status (m : AliveMsg)
  | resurrect (m : AliveMsg)
  | lastAlive (m : AliveMsg)
  | learnExisting (m : AliveMsg)
  | knownDead (m : AliveMsg)
  | learnNewDead (m : AliveMsg)
  | panicked
deriving DecidableEq, Repr

structure Discovery where
  handler : HandlerPc
  peers : PkiId → Entries

/-- A message that passes `handleMsgFromComm`; a step of its handling; `expireDeadMembers`; an
expiration. -/
inductive DiscoveryEvent where
  | aliveMsg (m : AliveMsg)
  | deadMember (m : AliveMsg)
  | handle
  | expireDeadMembers (dead : List PkiId)
  | expireMsg (id : PkiId)
deriving DecidableEq, Repr

namespace Discovery

variable (selfId : PkiId)

def new : Discovery := ⟨.idle, fun _ => .none⟩

def set (s : Discovery) (id : PkiId) (e : Entries) : Discovery := ⟨.idle, update s.peers id e⟩

/-- The handler under the lock once, and up to where it takes it next. -/
def handle (s : Discovery) : Option Discovery :=
  match s.handler with
  | .idle | .panicked => none
  | .known m =>
    some { s with
      handler := if (s.peers m.pkiId).id2Member = none then .learnNew m else .status m }
  | .learnNew m => some (s.set m.pkiId ((s.peers m.pkiId).learnNewAlive m))
  | .status m =>
    match (s.peers m.pkiId).aliveLastTS, (s.peers m.pkiId).deadLastTS with
    | none, none | some _, some _ => some { s with handler := .panicked }
    | none, some t => some { s with handler := if before t m then .resurrect m else .idle }
    | some _, none => some { s with handler := .lastAlive m }
  | .resurrect m => some (s.set m.pkiId ((s.peers m.pkiId).resurrectMember m))
  | .lastAlive m =>
    match (s.peers m.pkiId).aliveLastTS with
    | none => some { s with handler := .idle }
    | some t => some { s with handler := if before t m then .learnExisting m else .idle }
  | .learnExisting m =>
    match (s.peers m.pkiId).learnExisting m with
    | none => some { s with handler := .panicked }
    | some e => some (s.set m.pkiId e)
  | .knownDead m =>
    some { s with
      handler := if (s.peers m.pkiId).id2Member = none then .learnNewDead m else .idle }
  | .learnNewDead m => some (s.set m.pkiId ((s.peers m.pkiId).learnNewDead m (m.pkiId = selfId)))

def step (s : Discovery) : DiscoveryEvent → Option Discovery
  | .aliveMsg m =>
    if s.handler = .idle then some { s with handler := if m.pkiId = selfId then .idle else .known m }
    else none
  | .deadMember m => if s.handler = .idle then some { s with handler := .knownDead m } else none
  | .handle => s.handle selfId
  | .expireDeadMembers dead =>
    some { s with
      peers := fun id => if id ∈ dead then (s.peers id).expireDead else s.peers id }
  | .expireMsg id => some { s with peers := update s.peers id .none }

/-- A peer the handler found unknown is unknown, and one whose entries it goes on to read is known.
-/
def Current (s : Discovery) : Prop :=
  match s.handler with
  | .learnNew m | .learnNewDead m => (s.peers m.pkiId).id2Member = none
  | .status m | .learnExisting m => (s.peers m.pkiId).id2Member ≠ none
  | .panicked => False
  | _ => True

def Remote (s : Discovery) : Prop :=
  match s.handler with
  | .known m | .learnNew m | .status m | .resurrect m | .lastAlive m | .learnExisting m =>
    m.pkiId ≠ selfId
  | _ => True

/-- The maps are consistent, and the handler is about to read or write consistent data. -/
structure Safe (s : Discovery) : Prop where
  entries : ∀ id, (s.peers id).Ok (id = selfId)
  remote : s.Remote selfId
  current : s.Current

/-- A peer's message expires while the handler, having found it known, is about to read its entries.
-/
def Forgets (s : Discovery) : DiscoveryEvent → Prop
  | .expireMsg id => (∃ m, s.handler = .status m ∧ m.pkiId = id) ∨
      ∃ m, s.handler = .learnExisting m ∧ m.pkiId = id
  | _ => False

variable {selfId} {s s' : Discovery} {e : DiscoveryEvent}

theorem Safe.set (hs : s.Safe selfId) {id : PkiId} {entries : Entries}
    (h : Entries.Ok (id = selfId) entries) : (s.set id entries).Safe selfId := by
  refine ⟨fun id' => ?_, trivial, trivial⟩
  by_cases hid : id' = id
  · subst hid
    simpa [Discovery.set] using h
  · simpa [Discovery.set, update_of_ne hid] using hs.entries id'

theorem Safe.handle (hs : s.Safe selfId) (h : s.handle selfId = some s') : s'.Safe selfId := by
  obtain ⟨hentries, hremote, hcurrent⟩ := id hs
  have hother : ∀ m : AliveMsg, m.pkiId ≠ selfId → Entries.Ok false (s.peers m.pkiId) := by
    intro m hm
    simpa [hm] using hentries m.pkiId
  have hdone : Safe selfId { s with handler := .idle } := ⟨hentries, trivial, trivial⟩
  unfold Discovery.handle at h
  split at h <;> rename_i hpc <;>
    simp only [Remote, hpc] at hremote <;> simp only [Current, hpc] at hcurrent
  · exact nomatch h
  · cases h
    split_ifs with hnone
    · exact ⟨hentries, hremote, hnone⟩
    · exact ⟨hentries, hremote, hnone⟩
  · rename_i m
    cases h
    exact hs.set (by simpa [hremote] using (hother m hremote).learnNewAlive hcurrent)
  · rename_i m
    have hok := hother m hremote
    generalize s.peers m.pkiId = entries at hok hcurrent h
    cases hok with
    | absent => exact absurd rfl hcurrent
    | alive =>
      cases h
      exact ⟨hentries, hremote, trivial⟩
    | dead =>
      cases h
      split_ifs
      · exact ⟨hentries, hremote, trivial⟩
      · exact hdone
  · cases h
    exact hs.set (by rw [decide_eq_false hremote]; exact .alive)
  · rename_i m
    split at h
    · exact Option.some.inj h ▸ hdone
    · rename_i hts
      cases h
      have hmember : (s.peers m.pkiId).id2Member ≠ none := by
        have hok := hother m hremote
        generalize s.peers m.pkiId = entries at hok hts
        cases hok with
        | absent => exact nomatch hts
        | alive | dead => exact nofun
      split_ifs
      · exact ⟨hentries, hremote, hmember⟩
      · exact hdone
  · rename_i m
    obtain ⟨e', he', hok⟩ := (hother m hremote).learnExisting (m := m) hcurrent
    rw [he'] at h
    cases h
    exact hs.set (by simpa [hremote] using hok)
  · cases h
    split_ifs with hnone
    · exact ⟨hentries, trivial, hnone⟩
    · exact hdone
  · rename_i m
    cases h
    exact hs.set ((hentries m.pkiId).learnNewDead hcurrent)

theorem safe_step (hs : s.Safe selfId) (hstep : s.step selfId e = some s') :
    s'.Safe selfId ↔ ¬ s.Forgets e := by
  cases e with
  | aliveMsg m =>
    rw [step] at hstep
    split_ifs at hstep with hidle hself <;> cases hstep
    · exact iff_of_true ⟨hs.entries, trivial, trivial⟩ id
    · exact iff_of_true ⟨hs.entries, hself, trivial⟩ id
  | deadMember m =>
    rw [step] at hstep
    split_ifs at hstep with hidle
    cases hstep
    exact iff_of_true ⟨hs.entries, trivial, trivial⟩ id
  | handle => exact iff_of_true (hs.handle hstep) id
  | expireDeadMembers dead =>
    cases hstep
    have hmember : ∀ id, (if id ∈ dead then (s.peers id).expireDead else s.peers id).id2Member =
        (s.peers id).id2Member := by
      intro id
      split_ifs
      · exact (hs.entries id).expireDead.2
      · rfl
    refine iff_of_true ⟨fun id => ?_, hs.remote, ?_⟩ id
    · dsimp only
      split_ifs
      · exact (hs.entries id).expireDead.1
      · exact hs.entries id
    · simpa only [Current, hmember] using hs.current
  | expireMsg id =>
    cases hstep
    have hentries : ∀ id', Entries.Ok (id' = selfId) (update s.peers id .none id') := by
      intro id'
      by_cases hid : id' = id
      · subst hid
        simpa using Entries.Ok.absent
      · simpa [update_of_ne hid] using hs.entries id'
    have hmember : ∀ id', (update s.peers id .none id').id2Member =
        if id' = id then none else (s.peers id').id2Member := by
      intro id'
      by_cases hid : id' = id
      · subst hid
        simp [Entries.none]
      · simp [hid]
    have hcurrent := hs.current
    have hiff : Current { s with peers := update s.peers id .none } ↔
        ¬ s.Forgets (.expireMsg id) := by
      simp only [Current, Forgets, hmember] at hcurrent ⊢
      split at hcurrent <;> simp_all
    exact ⟨fun h => hiff.mp h.current, fun h => ⟨hentries, hs.remote, hiff.mpr h⟩⟩

variable (selfId)

/-- In every interleaving of the handler with the two kinds of expiration the maps stay
consistent and the handler neither panics nor is about to, exactly if no alive message expires
while the handler relies on having found its peer. -/
theorem safe_iff_none_forgotten (es : List DiscoveryEvent) :
    Always (step selfId) (Safe selfId) new es ↔ Never (step selfId) Forgets new es :=
  have hnew : new.Safe selfId := ⟨fun _ => .absent, trivial, trivial⟩
  always_iff_never (fun _ _ _ => safe_step) hnew es

/-- A peer is learnt; a later message of it comes, and between the two looks its first message
expires. -/
theorem expired_peer_panics :
    ∃ s, run (step []) new [.aliveMsg ⟨[1], [], [], 0, 0, none⟩, .handle, .handle,
        .aliveMsg ⟨[1], [], [], 0, 1, none⟩, .handle, .expireMsg [1], .handle] = some s ∧
      s.handler = .panicked :=
  ⟨_, rfl, rfl⟩

end Discovery

end FabricOev.Gossip
