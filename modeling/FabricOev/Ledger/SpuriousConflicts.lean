import FabricOev.Go.Sha256
import FabricOev.Ledger.CommitSteps
import FabricOev.Ledger.RecordedQueries

/-!
# Conflicts with oneself

A transaction simulated and validated on the same state, with nothing before it in its block.
Nothing but the way it was recorded can turn it down: an iterator left at its start, or at the empty
key, is recorded without an end key and validated as a scan to the end of the namespace; and a value
that is empty but not nil comes out of the decoder as nil, at which the validator panics.
-/

namespace FabricOev.Ledger

open Go Protos TxSimulator Result Option Except List TxFlags

variable {hash : Bytes → Bytes} {qc : QueryConfig} {db : StateDb} {d : Bytes} {rw : TxRwSet}

structure Carries (d results : Bytes) : Prop where
  header : ∃ chdr, channelHeaderOf d = .ok chdr ∧ chdr.headerType = HeaderType.endorserTransaction
  action : ∃ action, getActionFromEnvelope d = .ok action ∧ action.results = results

theorem carries_envelope {t : SignedTx} (h : t.Reads) : Carries t.envelope t.results :=
  ⟨⟨_, h.channelHeaderOf, rfl⟩, _, h.getActionFromEnvelope, rfl⟩

theorem Carries.endorsed (hd : Carries d rw.toProtoBytes) (he : rw.Encodable) :
    EndorsedRwSet d rw.received := by
  obtain ⟨action, haction, hresults⟩ := hd.action
  refine ⟨action, haction, ?_⟩
  rw [hresults]
  exact TxRwSet.fromProto_toProto he

/-- The encoding loses nothing that validation looks at. -/
theorem validateTx_received (updates : UpdateBatch) (rw : TxRwSet) :
    validateTx hash db updates rw.received = validateTx hash db updates rw := by
  induction rw with
  | nil => rfl
  | cons s ss ih =>
    have hcons : TxRwSet.received (s :: ss) = s.received :: TxRwSet.received ss := rfl
    rw [hcons, validateTx, validateTx, ih]
    rfl

theorem validateReadSet_recorded {cs : List SimCall} {s : NsRwSet}
    (hs : TxSimulator.RecordedIn qc hash db cs s) : validateReadSet db ∅ s.ns s.reads = true := by
  apply all_eq_true.mpr
  intro rd hrd
  have hversion := ((hs.reads rd).mp hrd).2
  simp [validateKvRead, UpdateBatch.existsKey, UpdateBatch.get, areSame, hversion]

/-- The recorded set is valid on its own state exactly if all the ranges replay. -/
theorem validateTx_rwSet (cs : List SimCall) :
    validateTx hash db ∅ ((TxSimulator.after qc hash db cs).rwSet hash) = .ok .valid ↔
      ∀ (j : Nat) r, (rangeCalls qc cs)[j]? = some r → r.Replays db (cs.count (.next j)) := by
  rw [validateTx_eq_valid]
  constructor
  · intro h j r hr
    obtain ⟨s, hs, i, r', -, -, hns, hns', hq, hsame⟩ := exists_query hash db hr
    have hvalid := (h s hs).2 _ hq
    rw [hns, ← hns', RangeCall.rangeQuery_recorded, RangeCall.replays_iff] at hvalid
    rw [RangeCall.replays_iff]
    -- the query that was kept has the same keys, and on the same state the same results
    obtain ⟨hstart, hend, hexhausted⟩ := of_decide_eq_true hsame
    have hstart' : r.startKey = r'.startKey := hstart
    have hend' : (r.info db (cs.count (.next j))).endKey =
        (r'.info db (cs.count (.next i))).endKey := hend
    have hexhausted' : (r.info db (cs.count (.next j))).itrExhausted =
        (r'.info db (cs.count (.next i))).itrExhausted := hexhausted
    rw [hend', hexhausted', hstart', ← hns']
    exact hvalid
  · intro h s hs
    have hrec := recordedIn_of_mem hs
    refine ⟨validateReadSet_recorded hrec, fun q hq => ?_⟩
    obtain ⟨j, r, hr, hns, rfl⟩ := hrec.query hq
    rw [← hns]
    exact (RangeCall.rangeQuery_recorded r _).mpr (h j r hr)

/-! ## The first transaction of a block -/

/-- It stays valid exactly if the state allows it and its writes can be added to the batch. -/
theorem validateOne_valid_iff {flags : TxFlags} {updates : UpdateBatch} {number : UInt64} {i : Nat}
    (hv : FlaggedValid flags i) (hd : Carries d rw.toProtoBytes) (he : rw.Encodable) :
    (∃ st, validateOne hash db number true (flags, updates) i d = .ok st ∧ FlaggedValid st.1 i) ↔
      validateTx hash db updates rw = .ok .valid ∧
        ∃ b, addWriteSetToBatch rw.received ⟨number, UInt64.ofNat i⟩ updates = .ok b := by
  have hrw := hd.endorsed he
  obtain ⟨chdr, hchdr, htype⟩ := hd.header
  constructor
  · intro h
    obtain ⟨st, hone, hst⟩ := h
    cases validateOne_cases hone with
    | skipped hnot => exact absurd hv hnot
    | other _ hc ht =>
      obtain rfl := ok.inj (hchdr.symm.trans hc)
      exact absurd htype ht
    | rejected _ _ _ hne =>
      rw [FlaggedValid, getElem?_set_self hv.lt] at hst
      exact absurd (some.inj hst) (toByte_ne_valid hne)
    | accepted _ _ _ hrw' hm hu =>
      obtain rfl := hrw.unique hrw'
      exact ⟨(validateTx_received updates rw).symm.trans (hm rfl), _, hu⟩
  · intro h
    obtain ⟨hvalid, b, hb⟩ := h
    refine ⟨(flags, b), ?_, hv⟩
    obtain ⟨action, haction, hdecode⟩ := hrw
    have hflag : flags.isValid i = .ok true := by
      rw [isValid, index_eq_ok.mpr hv]
      rfl
    have hendorser : validateEndorserTx hash db d true updates = .ok (some rw.received, .valid) := by
      simp only [validateEndorserTx, haction, attempt, bind, Except.bind, hdecode, if_true,
        validateTx_received, hvalid]
    have hset : flags.setFlag i .valid = .ok flags := by
      rw [setFlag_eq_ok]
      exact ⟨hv.lt, hv.set_self.symm⟩
    simp only [validateOne, hflag, bind, Except.bind, if_true, hchdr, htype, ne_eq,
      not_true_eq_false, if_false, hendorser, hset, hb]

/-- What the calls on a state must be for their read-write set to be valid there. -/
structure Revalidates (qc : QueryConfig) (db : StateDb) (cs : List SimCall) : Prop where
  ranges : ∀ (j : Nat) r, (rangeCalls qc cs)[j]? = some r → r.Replays db (cs.count (.next j))
  values : ∀ ns key, TxSimulator.lastWrite cs ns key ≠ some (some [])

/-- A transaction simulated on a state and validated on it as the first of a block is flagged
valid exactly if its iterators replay and it sets no empty value. -/
theorem first_transaction_valid_iff {cs : List SimCall} {as : List (Answer VersionedValue)}
    {sim : TxSimulator} {block : Block} {flags : TxFlags} {d : Bytes} {ds : List Bytes}
    (hsim : TxSimulator.new.calls qc hash db cs = .ok (as, sim))
    (he : (sim.rwSet hash).Encodable) (hd : Carries d (sim.getTxSimulationResults hash))
    (hdata : block.data = d :: ds) (hfilter : block.txsFilter = .ok flags)
    (hv : FlaggedValid flags 0) :
    ((∃ st, validateOne hash db block.header.number true (flags, ∅) 0 d = .ok st ∧
        FlaggedValid st.1 0) ↔ Revalidates qc db cs) ∧
      ∀ block' updates flags', validateAndPrepareBatch hash db block true = .ok (block', updates) →
        block'.txsFilter = .ok flags' → (FlaggedValid flags' 0 ↔ Revalidates qc db cs) := by
  obtain ⟨rfl, -⟩ := calls_new hsim
  have hone : (∃ st, validateOne hash db block.header.number true (flags, ∅) 0 d = .ok st ∧
      FlaggedValid st.1 0) ↔ Revalidates qc db cs := by
    rw [validateOne_valid_iff hv hd he, validateTx_rwSet, addReceived_isOk]
    exact ⟨fun h => ⟨h.1, h.2⟩, fun h => ⟨h.ranges, h.values⟩⟩
  refine ⟨hone, fun block' updates flags' hprepare hflags' => ?_⟩
  obtain ⟨flagsIn, hin, hprepare⟩ := bind_ok.mp hprepare
  obtain rfl := ok.inj (hfilter.symm.trans hin)
  obtain ⟨⟨flagsOut, b⟩, hloop, hprepare⟩ := bind_ok.mp hprepare
  cases hprepare
  obtain ⟨hlen, -, -⟩ := validateLoop_flags hloop
  have hout : flags' = flagsOut := by
    apply Block.txsFilter_setFilter hflags'
    intro hnil
    rw [hnil] at hlen
    have := hv.lt
    simp at hlen
    omega
  rw [hdata] at hloop
  obtain ⟨mid, hmid, hrest⟩ := bind_ok.mp hloop
  have hkept := (validateLoop_flags hrest).2.2 0 (by omega)
  rw [← hone, hout, FlaggedValid, hkept]
  constructor
  · intro h
    exact ⟨mid, hmid, h⟩
  · intro h
    obtain ⟨st, hst, hvalid⟩ := h
    obtain rfl := ok.inj (hmid.symm.trans hst)
    exact hvalid

/-- Namespace `cc` with the keys `a` to `d`, written by block 0. -/
def fourKeys : StateDb :=
  ⟨((((∅ : KeyMap VersionedValue).insert ⟨str "cc", str "a"⟩ ⟨str "1", ⟨0, 0⟩⟩).insert
    ⟨str "cc", str "b"⟩ ⟨str "2", ⟨0, 1⟩⟩).insert ⟨str "cc", str "c"⟩ ⟨str "3", ⟨0, 2⟩⟩).insert
    ⟨str "cc", str "d"⟩ ⟨str "4", ⟨0, 3⟩⟩, some ⟨0, 3⟩⟩

def txWith (results : Bytes) : SignedTx :=
  { SignedTx.bare (str "t1") (str "cc") [] with results := results }

/-- Block 1 with one transaction, which has the given simulation results. -/
def blockWith (results : Bytes) : Block :=
  ⟨⟨1, [], []⟩, [(txWith results).envelope], some [[], [], [], []]⟩

/-- A read, a write, and an iterator left after three of four results, which are recorded by
their summary. -/
theorem three_of_four_revalidates :
    let cs : List SimCall := [.getState (str "cc") (str "a"),
      .getStateRangeScanIterator (str "cc") (str "a") [], .next 0, .next 0, .next 0,
      .setState (str "cc") (str "a") (some (str "x"))]
    Revalidates ⟨true, 2⟩ fourKeys cs := by
  intro cs
  let sim := after ⟨true, 2⟩ sha256 fourKeys cs
  have hsim : ∃ as, new.calls ⟨true, 2⟩ sha256 fourKeys cs = .ok (as, sim) := ⟨_, rfl⟩
  obtain ⟨as, hsim⟩ := hsim
  have hreads : (txWith (sim.getTxSimulationResults sha256)).Reads :=
    SignedTx.reads (by decide +kernel)
  have hvalid : ((validateOne sha256 fourKeys 1 true ([0], ∅) 0
      (txWith (sim.getTxSimulationResults sha256)).envelope).map (·.1)).toOption = some [0] := by
    decide +kernel
  refine (first_transaction_valid_iff hsim ⟨by decide +kernel, by decide +kernel⟩
    (carries_envelope hreads)
    (show (blockWith (sim.getTxSimulationResults sha256)).data = _ :: [] from rfl) rfl
    (by decide)).1.mp ?_
  show ∃ st, validateOne sha256 fourKeys 1 true ([0], ∅) 0 _ = .ok st ∧ _
  cases hone : validateOne sha256 fourKeys 1 true ([0], ∅) 0 _ with
  | error f =>
    rw [hone] at hvalid
    cases hvalid
  | ok st =>
    rw [hone] at hvalid
    have hflags : st.1 = [0] := some.inj hvalid
    refine ⟨st, rfl, ?_⟩
    rw [FlaggedValid, hflags]
    rfl

/-- An iterator that is opened and left at once turns its transaction down: it is recorded as
the whole namespace without results. -/
theorem unused_iterator_conflicts :
    let cs : List SimCall := [.getStateRangeScanIterator (str "cc") (str "a") (str "b")]
    let sim := after ⟨true, 50⟩ sha256 fourKeys cs
    (∃ as, new.calls ⟨true, 50⟩ sha256 fourKeys cs = .ok (as, sim)) ∧ (sim.rwSet sha256).Encodable ∧
      ((validateAndPrepareBatch sha256 fourKeys
        (blockWith (sim.getTxSimulationResults sha256)) true).map (·.1.metadata)).toOption =
        some (some [[], [], [TxValidationCode.phantomReadConflict.toByte], []]) := by
  intro cs sim
  exact ⟨⟨_, rfl⟩, ⟨by decide +kernel, by decide +kernel⟩, by decide +kernel⟩

end FabricOev.Ledger
