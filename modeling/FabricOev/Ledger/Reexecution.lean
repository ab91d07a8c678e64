import FabricOev.Ledger.MerkleTrees
import FabricOev.Ledger.RecordedQueries
import FabricOev.Ledger.SimulatorIsolation

/-!
# Valid transactions do what they would do now

A transaction program is simulated on one state and validated on a later one. If what was recorded
of its reads is valid there, running the program on the later state makes the same calls with the
same answers and records the same read-write set, so that applying the recorded writes is running
the program at its place in the block.
-/

namespace FabricOev.Ledger

open Go Protos Lib List TxSimulator Result FinMap

variable {qc : QueryConfig} {hash : Bytes → Bytes} {db db' : StateDb} {cs : List SimCall}
  {ns : GoString} {sim : TxSimulator} {r r' : RangeCall} {n n' m : Nat}

/-- No collision among the strings hashed for a recorded summary and for what the range has on the
other state. -/
def SummariesBind (qc : QueryConfig) (hash : Bytes → Bytes) (db db' : StateDb) : Prop :=
  ∀ (r : RangeCall) n m, (r.recorded qc hash db n).readsInfo = .merkleHashes m → ∃ size,
    let kvs := ((r.results db).take n).map readOf
    let kvs' := queryReads db' r.ns (r.recorded qc hash db n)
    NoCollision hash size m.maxDegree kvs kvs' ∧ (serializeKvReads kvs).length < 2 ^ 64 ∧
      (serializeKvReads kvs').length < 2 ^ 64

theorem rangeCalls_grow {cs cs' : List SimCall} (h : cs <+: cs') {i : Nat}
    (hr : (rangeCalls qc cs)[i]? = some r) : (rangeCalls qc cs')[i]? = some r := by
  obtain ⟨t, rfl⟩ := h
  rw [rangeCalls] at hr ⊢
  split_ifs at hr ⊢
  · rw [filterMap_append, getElem?_append_left (lt_length hr)]
    exact hr
  · cases hr

theorem TxSimulator.Agree.answer {c : SimCall} (h : Agree qc db db' cs) {done : List SimCall}
    (hpre : done ++ [c] <+: cs) (hc : ∀ i, c = .next i → i < (rangeCalls qc done).length) :
    answerAfter qc db' done c = answerAfter qc db done c := by
  have hmem : c ∈ cs := hpre.subset (by simp)
  cases c with
  | getState ns key => rw [answerAfter, answerAfter, h.keys ns key hmem]
  | setState ns key value | getStateRangeScanIterator ns startKey endKey => rfl
  | next i =>
    have hr := getElem?_eq_getElem (hc i rfl)
    have hlt : done.count (.next i) < cs.count (.next i) := by
      have hle := hpre.sublist.count_le (.next i)
      rw [count_append, count_singleton_self] at hle
      omega
    rw [answerAfter, answerAfter, hr, Option.bind_some, Option.bind_some,
      h.ranges i _ (rangeCalls_grow ((prefix_append ..).trans hpre) hr) _ hlt]

/-- A run of a program is a run of calls, and the same one on every state that agrees on them. -/
theorem Program.run_after {p : Program} {done : List SimCall} (hmade : Made qc done)
    (h : p.run qc hash db (after qc hash db done) = .ok sim) :
    ∃ cs, done <+: cs ∧ sim = after qc hash db cs ∧ ∀ db', Agree qc db db' cs →
      p.run qc hash db' (after qc hash db' done) = .ok (after qc hash db' cs) := by
  induction p generalizing done with
  | finish =>
    cases h
    exact ⟨done, prefix_refl done, rfl, fun _ _ => rfl⟩
  | call c rest ih =>
    obtain ⟨⟨a, mid⟩, hcall, h⟩ := bind_ok.mp h
    have hc := next_lt hcall
    rw [call_after hmade hc] at hcall
    cases hcall
    obtain ⟨cs, hpre, hsim, hsame⟩ := ih _ (hmade.concat hc) h
    refine ⟨cs, (prefix_append ..).trans hpre, hsim, fun db' hagree => ?_⟩
    rw [run, call_after hmade hc, ok_bind, hagree.answer hpre hc]
    exact hsame db' hagree

theorem recorded_eq_of_agree (h : ∀ m < n, (r.results db)[m]? = (r.results db')[m]?) :
    r.recorded qc hash db n = r.recorded qc hash db' n := by
  have htake : (r.results db).take n = (r.results db').take n := by
    apply ext_getElem?
    intro m
    rw [getElem?_take, getElem?_take]
    split_ifs with hm
    · exact h m hm
    · rfl
  have hlen := congrArg length htake
  rw [length_take, length_take] at hlen
  have hlt : (r.results db).length < n ↔ (r.results db').length < n := by omega
  simp only [RangeCall.recorded, RangeCall.info, htake, hlt]

theorem TxSimulator.Agree.rwSet_eq (h : Agree qc db db' cs) :
    (after qc hash db' cs).rwSet hash = (after qc hash db cs).rwSet hash := by
  have hrec : cs.foldl (record db') ∅ = cs.foldl (record db) ∅ := by
    refine foldl_ext _ _ _ fun b c hc => ?_
    cases c with
    | getState ns key => rw [record, record, h.keys ns key hc]
    | setState ns key value | getStateRangeScanIterator ns startKey endKey | next i => rfl
  have hitrs : (itrsAfter qc hash db' cs).map (fun it => (it.ns, it.recorded hash)) =
      (itrsAfter qc hash db cs).map fun it => (it.ns, it.recorded hash) := by
    apply ext_getElem?
    intro j
    rw [getElem?_map, getElem?_map, getElem?_itrsAfter, getElem?_itrsAfter]
    cases hr : (rangeCalls qc cs)[j]? with
    | none => rfl
    | some r =>
      simp only [Option.map_some, ResultsItr.advance_fresh_ns, ResultsItr.recorded_advance_fresh,
        recorded_eq_of_agree (h.ranges j r hr)]
  have hdone : ∀ db, done hash (after qc hash db cs) =
      ((itrsAfter qc hash db cs).map fun it => (it.ns, it.recorded hash)).foldl
        (fun b q => b.addToRangeQuerySet q.1 q.2) (cs.foldl (record db) ∅) := fun db => by
    rw [foldl_map]
    rfl
  rw [rwSet, rwSet, hdone, hdone, hitrs, hrec]

/-! ## Valid reads agree -/

theorem exists_mem_of_getState {key : GoString} (h : .getState ns key ∈ cs) :
    ∃ s ∈ (after qc hash db cs).rwSet hash, s.ns = ns ∧
      ⟨key, (db.getState ns key).map (·.version)⟩ ∈ s.reads := by
  have hread := (done_after qc hash db cs ns).1.reads key
  rw [if_pos h] at hread
  obtain ⟨s, hs, rfl⟩ := exists_mem_rwSet (fun hempty => by
    rw [hempty] at hread
    simp [NsRws.empty] at hread)
  exact ⟨s, hs, rfl, ((recordedIn_of_mem hs).reads _).mpr ⟨h, rfl⟩⟩

theorem lastKey_ne (hempty : ∀ ns, db.getState ns [] = none) (hpos : 0 < n)
    (hn : n ≤ (r.results db).length) : lastKey ((r.results db).take n) ≠ [] := by
  cases n with
  | zero => omega
  | succ n =>
    rw [RangeCall.lastKey_take hn]
    intro hkey
    have hget : db.getState r.ns ((r.results db)[n]).1 = _ := (mem_scan.mp (getElem_mem hn)).1
    rw [hkey] at hget
    exact absurd ((hempty r.ns).symm.trans hget) (by simp)

theorem take_eq_upto {e : GoString} (he : lastKey ((r.results db).take n) = e)
    (hn : n ≤ (r.results db).length) (hne : e ≠ []) :
    (r.results db).take n = scan db.state r.ns r.startKey e ++
        ((db.getState r.ns e).map fun v => (e, v)).toList ∧
      inRange r.startKey r.endKey e = true := by
  cases n with
  | zero => exact absurd he.symm hne
  | succ n =>
    rw [RangeCall.lastKey_take hn] at he
    subst he
    exact ⟨RangeCall.take_eq_scan hn hne, (mem_scan.mp (getElem_mem hn)).2⟩

section Valid

variable (hs : ∀ ns key, (db'.getState ns key).map (·.version) =
    (db.getState ns key).map (·.version) → db.getState ns key = db'.getState ns key)
  (hbind : SummariesBind qc hash db db')
include hs

/-- Entries of two states that were read with the same versions are the same. -/
theorem eq_of_readOf (ns : GoString) {l l' : List (GoString × VersionedValue)}
    (hl : ∀ e ∈ l, db.getState ns e.1 = some e.2) (hl' : ∀ e ∈ l', db'.getState ns e.1 = some e.2)
    (h : l'.map readOf = l.map readOf) : l' = l := by
  induction l' generalizing l with
  | nil => exact (map_eq_nil_iff.mp h.symm).symm
  | cons e' l' ih =>
    cases l with
    | nil => cases h
    | cons e l =>
      obtain ⟨hread, htail⟩ := cons.inj h
      obtain ⟨key, v⟩ := e
      obtain ⟨key', v'⟩ := e'
      obtain ⟨rfl, hver⟩ := KvRead.mk.inj hread
      have hv := hl (key', v) mem_cons_self
      have hv' := hl' (key', v') mem_cons_self
      have heq := hs ns key' (by rw [hv, hv']; exact hver)
      rw [hv, hv'] at heq
      cases heq
      rw [ih (fun e he => hl e (mem_cons_of_mem _ he)) (fun e he => hl' e (mem_cons_of_mem _ he))
        htail]

include hbind

/-- An accepted query has the results it was recorded with. -/
theorem combinedResults_eq_take
    (hvalid : validateRangeQuery hash db' ∅ r.ns (r.recorded qc hash db n) = .ok true) :
    combinedResults db' ∅ r.ns r.startKey (r.info db n).endKey (!(r.info db n).itrExhausted) =
      (r.results db).take n := by
  have hreads : queryReads db' r.ns (r.recorded qc hash db n) =
      ((r.results db).take n).map readOf := by
    obtain h | ⟨m, hm, -, -, hsum, hsum'⟩ := queryReads_of_rangeQuery rfl hvalid
    · exact h
    · obtain ⟨size, hfree, hfits, hfits'⟩ := hbind r n m hm
      exact (hfree.eq_of_summaryOf hfits hfits' hsum hsum').symm
  refine eq_of_readOf hs r.ns (fun e he => ?_) (fun e he => ?_) hreads
  · exact (mem_scan.mp (mem_of_mem_take he)).1
  · rw [combinedResults_empty, mem_append] at he
    obtain he | he := he
    · exact (mem_scan.mp he).1
    · split_ifs at he with hend
      · obtain ⟨v, hv, rfl⟩ := Option.map_eq_some_iff.mp (Option.mem_toList.mp he)
        exact hv
      · cases he

/-- So has a range recorded by the query of another that has its keys. -/
theorem results_agree (hempty : ∀ ns, db.getState ns [] = none) (hns : r'.ns = r.ns)
    (hsame : (r.recorded qc hash db n).sameKey (r'.recorded qc hash db n') = true)
    (hvalid : validateRangeQuery hash db' ∅ r'.ns (r'.recorded qc hash db n') = .ok true)
    (hm : m < n) : (r.results db)[m]? = (r.results db')[m]? := by
  have hshown := combinedResults_eq_take hs hbind hvalid
  rw [combinedResults_empty] at hshown
  obtain ⟨hstart, hend, hexh⟩ := of_decide_eq_true hsame
  have hstart : r.startKey = r'.startKey := hstart
  have hlt : (r.results db).length < n ↔ (r'.results db).length < n' := decide_eq_decide.mp hexh
  simp only [RangeCall.recorded, RangeCall.info] at hend hshown
  rw [hns, ← hstart] at hshown
  by_cases hlt' : (r'.results db).length < n'
  · -- The iterators were exhausted: the two ranges are one, and all of it was recorded.
    simp only [hlt, hlt', if_true, decide_true, Bool.not_true, Bool.false_eq_true, if_false,
      append_nil] at hend hshown
    have hr : r' = r := by
      obtain ⟨ns, start, stop⟩ := r
      obtain ⟨ns', start', stop'⟩ := r'
      cases hns
      cases hstart
      cases hend
      rfl
    rw [hr] at hshown hlt'
    rw [take_of_length_le (by omega)] at hshown
    rw [← hshown]
    rfl
  · -- They stopped at one key, up to which the later state has the same results.
    simp only [hlt, hlt', if_false, decide_false, Bool.not_false, if_true] at hend hshown
    have hne := lastKey_ne (r := r) hempty (by omega : 0 < n) (by omega)
    obtain ⟨htake, hin⟩ := take_eq_upto rfl (by omega) hne
    have htake' := (take_eq_upto hend.symm (by omega) hne).1
    rw [hns, ← hstart, ← htake] at htake'
    rw [htake'] at hshown
    obtain ⟨rest, hrest⟩ : (r.results db).take n <+: r.results db' := by
      rw [← hshown]
      exact ⟨_, (append_assoc ..).trans (scan_split db'.state hin hne).symm⟩
    rw [← hrest, getElem?_append_left (by rw [length_take]; omega), getElem?_take_of_lt hm]

theorem agree_of_valid (hempty : ∀ ns, db.getState ns [] = none)
    (hvalid : validateTx hash db' ∅ ((after qc hash db cs).rwSet hash) = .ok .valid) :
    Agree qc db db' cs where
  keys ns key hmem := by
    obtain ⟨s, hmem, rfl, hread⟩ := exists_mem_of_getState hmem
    have hsame := all_eq_true.mp (validateTx_eq_valid.mp hvalid s hmem).1 _ hread
    rw [validateKvRead, if_neg (by simp [UpdateBatch.existsKey, UpdateBatch.get])] at hsame
    exact hs s.ns key (of_decide_eq_true hsame)
  ranges j r hr m hm := by
    obtain ⟨s, hmem, i, r', -, -, hns, hns', hq, hsame⟩ := exists_query hash db hr
    have hquery := (validateTx_eq_valid.mp hvalid s hmem).2 _ hq
    rw [hns, ← hns'] at hquery
    exact results_agree hs hbind hempty hns' hsame hquery hm

end Valid

/-! ## Over a run of commits -/

theorem ledgerAfter_mem {l : KvLedger} (hl : VersionsBelow l.blocks.length l.stateDb)
    (steps : List CommitStep) :
    (ledgerAfter l steps).stateDb ∈ runDbs l steps ∧
      l.blocks.length ≤ (ledgerAfter l steps).blocks.length ∧
      ∀ p ∈ runDbs l steps, VersionsBelow (ledgerAfter l steps).blocks.length p := by
  induction steps generalizing l with
  | nil => exact ⟨rfl, le_rfl, fun p hp => hp ▸ hl⟩
  | cons c steps ih =>
    have hbelow : ∀ p ∈ (c.run l).dbs, VersionsBelow (c.run l).ledger.blocks.length p :=
      commit_below hl
    obtain ⟨hmem, hgrows, hall⟩ := ih (hbelow _ commit_ledger_mem)
    obtain ⟨_, -, hsteps⟩ := commit_dbs c.cfg c.order l c.block
    refine ⟨.inr hmem, hsteps.grows.trans hgrows, fun p hp => ?_⟩
    obtain hp | hp := hp
    · exact (hbelow p hp).mono hgrows
    · exact hall p hp

/-- The program was simulated on one of the states, where it recorded the set. Its summaries are
good for the states it may be validated on, of which a block makes finitely many. -/
def SimulatedOn (qc : QueryConfig) (hash : Bytes → Bytes) (dbs later : Set StateDb) (p : Program)
    (rw : TxRwSet) : Prop :=
  ∃ db ∈ dbs, (∀ ns, db.getState ns [] = none) ∧ (∀ db' ∈ later, SummariesBind qc hash db db') ∧
    ∃ sim, p.run qc hash db TxSimulator.new = .ok sim ∧ sim.rwSet hash = rw

/-- Every entry is one of a write set of the block. -/
def EntriesOf (number : UInt64) (ds : List Bytes) (b : UpdateBatch) : Prop :=
  ∀ (k : CompositeKey) (u : Update), b[k]? = some u →
    ∃ i rw, EndorserTx ds i rw ∧ (k, u) ∈ writeEntries rw ⟨number, UInt64.ofNat i⟩

/-- The state with any of the writes of the block. -/
def statesWithin (db : StateDb) (number : UInt64) (h : Height) (ds : List Bytes) : Set StateDb :=
  {db' | ∃ b, EntriesOf number ds b ∧ db' = db.applyUpdates b h}

/-- The program runs at its place in the block, and its writes are applied. -/
def Program.exec (qc : QueryConfig) (hash : Bytes → Bytes) (number : UInt64) (h : Height)
    (p : Program) (db : StateDb) (i : Nat) : Result StateDb := do
  let sim ← p.run qc hash db TxSimulator.new
  let ws ← addWriteSetToBatch (sim.rwSet hash) ⟨number, UInt64.ofNat i⟩ ∅
  .ok (db.applyUpdates ws h)

theorem after_nil (qc : QueryConfig) (hash : Bytes → Bytes) (db : StateDb) :
    TxSimulator.after qc hash db [] = TxSimulator.new := by
  simp [TxSimulator.after, itrsAfter, rangeCalls, TxSimulator.new]

/-- A valid program records on the state it is validated on what it has recorded before. -/
theorem run_of_simulatedOn {dbs later : Set StateDb} (hs : VersionsSound (Set.insert db' dbs))
    {p : Program} {rw : TxRwSet} (hsim : SimulatedOn qc hash dbs later p rw) (hlater : db' ∈ later)
    (hvalid : validateTx hash db' ∅ rw = .ok .valid) :
    ∃ sim, p.run qc hash db' TxSimulator.new = .ok sim ∧ sim.rwSet hash = rw := by
  obtain ⟨db, hdb, hempty, hbind, sim, hrun, rfl⟩ := hsim
  rw [← after_nil qc hash db] at hrun
  obtain ⟨cs, -, rfl, hsame⟩ := Program.run_after (fun j hj => by simp at hj) hrun
  have hagree : Agree qc db db' cs := by
    refine agree_of_valid (fun ns key hver => ?_) (hbind db' hlater) hempty hvalid
    have hvalue := hs db' (.inl rfl) db (.inr hdb) ns key hver
    cases hv : db.getState ns key with
    | none =>
      rw [hv] at hver
      exact (Option.map_eq_none_iff.mp hver).symm
    | some v =>
      rw [hv] at hver hvalue
      obtain ⟨v', hv', hver⟩ := Option.map_eq_some_iff.mp hver
      rw [hv'] at hvalue ⊢
      obtain ⟨value, version⟩ := v
      cases hver
      cases hvalue
      rfl
  have hagain := hsame db' hagree
  rw [after_nil] at hagain
  exact ⟨_, hagain, hagree.rwSet_eq⟩

/-- Endorsed transactions that take effect one after the other are runs of their programs. The
states they meet are the first one with batches of the block applied, so versions stay sound. -/
theorem exec_of_endorsed {dbs : Set StateDb} (hs : VersionsSound dbs) (hmem : db ∈ dbs)
    {number : UInt64} (hbelow : ∀ p ∈ dbs, VersionsBelow number.toNat p) (h : Height)
    (progs : Nat → Program) {ds : List Bytes} {acc : List (Nat × TxRwSet)} {b : UpdateBatch}
    (hb : EntriesOf number ds b) (hacc : ∀ tx ∈ acc, EndorserTx ds tx.1 tx.2 ∧
      SimulatedOn qc hash dbs (statesWithin db number h ds) (progs tx.1) tx.2)
    {final : StateDb}
    (hfold : acc.foldlM (execEndorsed hash number h) (db.applyUpdates b h) = some final) :
    (acc.map (·.1)).foldlM (fun db i => (progs i).exec qc hash number h db i)
      (db.applyUpdates b h) = .ok final := by
  induction acc generalizing b with
  | nil => exact congrArg Except.ok (Option.some.inj hfold)
  | cons tx acc ih =>
    rw [foldlM_cons] at hfold
    obtain ⟨mid, hmid, hrest⟩ := Option.bind_eq_some_iff.mp hfold
    unfold execEndorsed at hmid
    split_ifs at hmid with hvalid
    cases hws : addWriteSetToBatch tx.2 ⟨number, UInt64.ofNat tx.1⟩ ∅ with
    | error f => simp [hws] at hmid
    | ok ws =>
      rw [hws] at hmid
      obtain rfl := Option.some.inj hmid
      obtain ⟨htx, hsim⟩ := hacc tx mem_cons_self
      have hblock : OfBlock number.toNat b := by
        intro k u hu
        obtain ⟨i, rw, -, hu⟩ := hb k u hu
        rw [version_of_mem_writeEntries hu]
      obtain ⟨sim, hrun, hrw⟩ := run_of_simulatedOn (hs.applyUpdates hmem hbelow hblock)
        hsim ⟨b, hb, rfl⟩ hvalid
      have hexec : (progs tx.1).exec qc hash number h (db.applyUpdates b h) tx.1 =
          .ok ((db.applyUpdates b h).applyUpdates ws h) := by
        rw [Program.exec, hrun, ok_bind, hrw, hws]
        rfl
      obtain rfl := Except.ok.inj (hws.symm.trans (addWriteSet_eq hws ∅))
      have hstep : (db.applyUpdates b h).applyUpdates
          (insertAll ∅ (writeEntries tx.2 ⟨number, UInt64.ofNat tx.1⟩)) h =
          db.applyUpdates (insertAll b (writeEntries tx.2 ⟨number, UInt64.ofNat tx.1⟩)) h := by
        simp only [StateDb.applyUpdates, overlay_overlay_insertAll]
      rw [hstep] at hexec hrest
      rw [map_cons, foldlM_cons, hexec, ok_bind]
      refine ih ?_ (fun tx htx => hacc tx (mem_cons_of_mem _ htx)) hrest
      intro k u hu
      obtain hu | hu := getElem?_insertAll_cases hu
      · exact hb k u hu
      · exact ⟨tx.1, tx.2, htx, hu⟩

/-- A block that is validated after a run of commits does to the state what the programs of its
valid transactions do when they are run one after the other, if each of them was simulated on a
state of the run. -/
theorem valid_transactions_reexecute (l : KvLedger)
    (hl : VersionsBelow l.blocks.length l.stateDb) (steps : List CommitStep)
    (hkept : RunKept l steps) (h : Height) {number : UInt64}
    (hnumber : number.toNat = (ledgerAfter l steps).blocks.length) {ds : List Bytes}
    {flags flags' : TxFlags} {updates : UpdateBatch}
    (hloop : validateLoop hash (ledgerAfter l steps).stateDb number true 0 ds (flags, ∅) =
      .ok (flags', updates)) (progs : Nat → Program)
    (hsim : ∀ i rw, FlaggedValid flags' i → EndorserTx ds i rw → SimulatedOn qc hash
      (runDbs l steps) (statesWithin (ledgerAfter l steps).stateDb number h ds) (progs i) rw) :
    ∃ is : List Nat, is.Pairwise (· < ·) ∧
      (∀ i, i ∈ is ↔ FlaggedValid flags' i ∧ ∃ rw, EndorserTx ds i rw) ∧
      is.foldlM (fun db i => (progs i).exec qc hash number h db i)
          ((ledgerAfter l steps).stateDb.applyUpdates ∅ h) =
        .ok ((ledgerAfter l steps).stateDb.applyUpdates updates h) := by
  obtain ⟨hmem, -, hbelow⟩ := ledgerAfter_mem hl steps
  have hs : VersionsSound (runDbs l steps) := by
    have hone : VersionsSound {l.stateDb} := by
      intro p hp q hq ns key _
      rw [hp, hq]
    exact (runDbs_sound hkept hone rfl fun p hp => hp ▸ hl).subset Set.subset_union_right
  obtain ⟨acc, hacc, hfold⟩ := validateLoop_serial h hloop (fun _ _ _ _ _ _ => rfl)
  refine ⟨acc.map (·.1), pairwise_map.mpr hacc.ordered, fun i => ?_, ?_⟩
  · rw [mem_map]
    constructor
    · rintro ⟨tx, htx, rfl⟩
      obtain ⟨k, hk, hv, htx⟩ := (hacc.complete tx.1 tx.2).mp htx
      exact ⟨hv, tx.2, (by omega : tx.1 = k) ▸ htx⟩
    · rintro ⟨hv, rw, htx⟩
      exact ⟨(i, rw), (hacc.complete i rw).mpr ⟨i, (zero_add i).symm, hv, htx⟩, rfl⟩
  · rw [← hnumber] at hbelow
    have hb : EntriesOf number ds ∅ := fun k u hu => by simp at hu
    refine exec_of_endorsed hs hmem hbelow h progs hb (fun tx htx => ?_) hfold
    obtain ⟨k, hk, hv, htx⟩ := (hacc.complete tx.1 tx.2).mp htx
    obtain rfl : tx.1 = k := by omega
    exact ⟨htx, hsim tx.1 tx.2 hv htx⟩

/-- Without hashing nothing is summarised. -/
theorem summariesBind_raw (maxDegree : Nat) (hash : Bytes → Bytes) (db db' : StateDb) :
    SummariesBind ⟨false, maxDegree⟩ hash db db' := by
  intro r n m hm
  have hraw : readsInfoOf ⟨false, maxDegree⟩ hash (((r.results db).take n).map readOf) = _ := hm
  rw [readsInfoOf, show (QueryResults.new ⟨false, maxDegree⟩).getD (.raw []) = .raw [] from rfl,
    foldl_addResult_raw, nil_append, QueryResults.done, ReadsInfo.ofDone_raw] at hraw
  split_ifs at hraw

/-- It reads a key that is not there, and puts it. -/
def readAndPut : Program :=
  .call (.getState (str "mycc") (str "k")) fun _ =>
    .call (.setState (str "mycc") (str "k") (some (str "v"))) fun _ => .finish

def readAndPutTx (txId : GoString) : SignedTx :=
  { SignedTx.bare txId (str "mycc") [str "put"] with
    results := TxRwSet.toProtoBytes
      [⟨str "mycc", [⟨str "k", none⟩], [], [⟨str "k", false, some (str "v")⟩]⟩] }

/-- Of two transactions that read and put one key the first is valid and is run. -/
theorem first_put_reexecutes :
    let ds := [(readAndPutTx (str "t1")).envelope, (readAndPutTx (str "t2")).envelope]
    ∃ updates, validateLoop id StateDb.empty 0 true 0 ds ([0, 0], ∅) = .ok ([0, 11], updates) ∧
      ∃ is : List Nat, is.Pairwise (· < ·) ∧
        (∀ i, i ∈ is ↔ FlaggedValid [0, 11] i ∧ ∃ rw, EndorserTx ds i rw) ∧
        is.foldlM (fun db i => readAndPut.exec ⟨false, 2⟩ id 0 ⟨0, 1⟩ db i)
            (StateDb.empty.applyUpdates ∅ ⟨0, 1⟩) =
          .ok (StateDb.empty.applyUpdates updates ⟨0, 1⟩) := by
  intro ds
  have hflags : (validateLoop id StateDb.empty 0 true 0 ds ([0, 0], ∅)).toOption.map (·.1) =
      some [0, 11] := by decide +kernel
  cases hloop : validateLoop id StateDb.empty 0 true 0 ds ([0, 0], ∅) with
  | error f => simp [hloop, Except.toOption] at hflags
  | ok r =>
    obtain ⟨flags, updates⟩ := r
    rw [hloop] at hflags
    obtain rfl : flags = [0, 11] := Option.some.inj hflags
    refine ⟨updates, rfl, valid_transactions_reexecute KvLedger.empty (versionsBelow_empty _) []
      trivial ⟨0, 1⟩ rfl hloop (fun _ => readAndPut) ?_⟩
    rintro i rw hv ⟨d, chdr, hd, -, -, hrw⟩
    have hi : i < 2 := hv.lt
    interval_cases i
    · obtain rfl : (readAndPutTx (str "t1")).envelope = d := Option.some.inj hd
      have hput : EndorsedRwSet (readAndPutTx (str "t1")).envelope
          [⟨str "mycc", [⟨str "k", none⟩], [], [⟨str "k", false, some (str "v")⟩]⟩] :=
        ⟨_, (SignedTx.reads (by decide +kernel)).getActionFromEnvelope, by decide +kernel⟩
      rw [hrw.unique hput]
      exact ⟨StateDb.empty, rfl, fun ns => by simp [StateDb.getState, StateDb.empty],
        fun db' _ => summariesBind_raw 2 id _ db', _, rfl, by decide +kernel⟩
    · cases hv

end FabricOev.Ledger
