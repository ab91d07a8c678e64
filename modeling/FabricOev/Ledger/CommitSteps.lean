import FabricOev.Bench.ReplayJobs
import FabricOev.Ledger.KvLedger
import FabricOev.Ledger.ValidatorFacts

/-!
# The steps of a scheduled commit

What each step of `commitWithBatchSchedule` does, stated once: the index map, the two
passes over the flags of the scheduled transactions, and the inversion of a commit that
stored its block. Later results use these lemmas and do not unfold the commit again.
-/

namespace FabricOev.Ledger

open Go Protos Bench List Result Block TxFlags Option MetadataIndex

/-! ## TxIDs and their indexes -/

def TxIdAt (data : List Bytes) (i : Nat) (id : GoString) : Prop :=
  ∃ d, data[i]? = some d ∧ txIdOf d = .ok (some id)

def DistinctTxIds (data : List Bytes) : Prop :=
  ∀ i j id, TxIdAt data i id → TxIdAt data j id → i = j

instance (data : List Bytes) (i : Nat) (id : GoString) : Decidable (TxIdAt data i id) :=
  decidable_of_iff ((data[i]?).map txIdOf = some (.ok (some id))) (by simp [TxIdAt])

variable {i : Nat} {id : GoString} {data : List Bytes} {d : Bytes} {ds : List Bytes}
  {m : List (GoString × Nat)} {k : Nat}

theorem TxIdAt.lt (h : TxIdAt data i id) : i < data.length := by
  obtain ⟨d, hd, -⟩ := h
  exact lt_length hd

theorem TxIdAt.succ (h : TxIdAt ds i id) : TxIdAt (d :: ds) (i + 1) id := h

def txIdsOf (data : List Bytes) : List GoString := data.filterMap fun d => (txIdOf d).toOption.join

theorem mem_txIdsOf : id ∈ txIdsOf data ↔ ∃ i, TxIdAt data i id := by
  rw [txIdsOf, mem_filterMap]
  constructor
  · rintro ⟨d, hd, hid⟩
    obtain ⟨i, hi⟩ := mem_iff_getElem?.mp hd
    exact ⟨i, d, hi, toOption_join_eq_some.mp hid⟩
  · rintro ⟨i, d, hi, hid⟩
    exact ⟨d, mem_iff_getElem?.mpr ⟨i, hi⟩, toOption_join_eq_some.mpr hid⟩

theorem txIdsOf_cons (h : txIdOf d = .ok (some id)) (ds : List Bytes) :
    txIdsOf (d :: ds) = id :: txIdsOf ds := by
  simp [txIdsOf, h, Except.toOption]

theorem nodup_txIdsOf_tail (h : (txIdsOf (d :: ds)).Nodup) : (txIdsOf ds).Nodup :=
  h.sublist ((sublist_cons_self d ds).filterMap _)

theorem distinct_of_nodup (h : (txIdsOf data).Nodup) : DistinctTxIds data := by
  induction data with
  | nil =>
    rintro i j id ⟨d, hd, -⟩ -
    simp at hd
  | cons d ds ih =>
    have hhead : ∀ j id, TxIdAt (d :: ds) 0 id → ¬ TxIdAt (d :: ds) (j + 1) id := by
      rintro j id ⟨d', hd', hid⟩ hj
      obtain rfl := some.inj hd'
      rw [txIdsOf_cons hid] at h
      exact (nodup_cons.mp h).1 (mem_txIdsOf.mpr ⟨j, hj⟩)
    intro i j id hi hj
    cases i with
    | zero =>
      cases j with
      | zero => rfl
      | succ j => exact absurd hj (hhead j id hi)
    | succ i =>
      cases j with
      | zero => exact absurd hi (hhead i id hj)
      | succ j => exact congrArg (· + 1) (ih (nodup_txIdsOf_tail h) i j id hi hj)

theorem txIdIndexMap_cons (h : buildTxIdIndexMap i (d :: ds) = .ok m) :
    ∃ id m', txIdOf d = .ok id ∧ buildTxIdIndexMap (i + 1) ds = .ok m' ∧
      m = m' ++ (id.map fun id => (id, i)).toList := by
  obtain ⟨id, hid, h⟩ := bind_ok.mp h
  obtain ⟨m', hm', h⟩ := bind_ok.mp h
  cases id with
  | none => cases h; exact ⟨none, m, hid, hm', by simp⟩
  | some id => cases h; exact ⟨some id, m', hid, hm', rfl⟩

theorem txIdIndexMap_sound (h : buildTxIdIndexMap i ds = .ok m) {j : Nat}
    (hl : m.lookup id = some j) :
    ∃ k, j = i + k ∧ TxIdAt ds k id := by
  induction ds generalizing i m with
  | nil => cases h; simp at hl
  | cons d ds ih =>
    obtain ⟨id', m', hid, hm', rfl⟩ := txIdIndexMap_cons h
    rw [lookup_append, or_eq_some_iff] at hl
    rcases hl with hl | ⟨-, hl⟩
    · obtain ⟨k, rfl, hk⟩ := ih hm' hl
      exact ⟨k + 1, by omega, hk.succ⟩
    · cases id' with
      | none => simp at hl
      | some id' =>
        simp only [map_some, toList_some, lookup_cons, lookup_nil] at hl
        split at hl
        · rename_i he
          cases hl
          exact ⟨0, rfl, d, rfl, by rw [hid, beq_iff_eq.mp he]⟩
        · cases hl

theorem txIdIndexMap_complete (h : buildTxIdIndexMap i ds = .ok m) (hk : TxIdAt ds k id) :
    ∃ j, m.lookup id = some j := by
  induction ds generalizing i m k with
  | nil => obtain ⟨d, hd, -⟩ := hk; simp at hd
  | cons d ds ih =>
    obtain ⟨id', m', hid, hm', rfl⟩ := txIdIndexMap_cons h
    rw [lookup_append]
    cases hl : m'.lookup id with
    | some j => exact ⟨j, rfl⟩
    | none =>
      cases k with
      | zero =>
        obtain ⟨d', hd', hid'⟩ := hk
        obtain rfl := some.inj hd'
        obtain rfl := Except.ok.inj (hid.symm.trans hid')
        exact ⟨i, by simp⟩
      | succ k =>
        obtain ⟨j, hj⟩ := ih hm' hk
        rw [hl] at hj
        cases hj

theorem txIdIndexMap_one (h : buildTxIdIndexMap 0 ds = .ok m) (hk : TxIdAt ds k id)
    (hone : ∀ j, TxIdAt ds j id → j = k) : m.lookup id = some k := by
  obtain ⟨j, hj⟩ := txIdIndexMap_complete h hk
  obtain ⟨k', rfl, hk'⟩ := txIdIndexMap_sound h hj
  rw [hj, Nat.zero_add, hone k' hk']

theorem txIdIndexMap_distinct (h : buildTxIdIndexMap 0 ds = .ok m) (hd : DistinctTxIds ds)
    (hk : TxIdAt ds k id) : m.lookup id = some k :=
  txIdIndexMap_one h hk fun j hj => hd j k id hj hk

section Flags

variable {code : TxValidationCode} {index : List (GoString × Nat)} {ids : List GoString}
  {flags flags' : TxFlags}

theorem scheduledFlags_cons (h : setScheduledFlags code index (id :: ids) flags = .ok flags') :
    (index.lookup id = none ∧ setScheduledFlags code index ids flags = .ok flags') ∨
      ∃ i, index.lookup id = some i ∧ i < flags.length ∧
        setScheduledFlags code index ids (flags.set i code.toByte) = .ok flags' := by
  rw [setScheduledFlags] at h
  cases hl : index.lookup id with
  | none => exact .inl ⟨rfl, by simpa [hl] using h⟩
  | some i =>
    simp only [hl] at h
    obtain ⟨mid, hset, h⟩ := bind_ok.mp h
    obtain ⟨hi, rfl⟩ := setFlag_eq_ok.mp hset
    exact .inr ⟨i, rfl, hi, h⟩

section Scheduled

variable (h : setScheduledFlags code index ids flags = .ok flags') {j : Nat}
include h

theorem scheduledFlags_length : flags'.length = flags.length := by
  induction ids generalizing flags with
  | nil => cases h; rfl
  | cons id ids ih =>
    rcases scheduledFlags_cons h with ⟨-, h⟩ | ⟨i, -, -, h⟩
    · exact ih h
    · rw [ih h, length_set]

theorem scheduledFlags_untouched (hj : ∀ id ∈ ids, index.lookup id ≠ some j) :
    flags'[j]? = flags[j]? := by
  induction ids generalizing flags with
  | nil => cases h; rfl
  | cons id ids ih =>
    have hids : ∀ x ∈ ids, index.lookup x ≠ some j := fun x hx => hj x (by simp [hx])
    rcases scheduledFlags_cons h with ⟨-, h⟩ | ⟨i, hi, -, h⟩
    · exact ih h hids
    · have hij : i ≠ j := fun he => hj id (by simp) (he ▸ hi)
      rw [ih h hids, getElem?_set_ne hij]

theorem scheduledFlags_keeps (hj : flags[j]? = some code.toByte) :
    flags'[j]? = some code.toByte := by
  induction ids generalizing flags with
  | nil => cases h; exact hj
  | cons id ids ih =>
    rcases scheduledFlags_cons h with ⟨-, h⟩ | ⟨i, -, hi, h⟩
    · exact ih h hj
    · refine ih h ?_
      by_cases hij : i = j
      · rw [← hij, getElem?_set_self hi]
      · rw [getElem?_set_ne hij, hj]

theorem scheduledFlags_touched (hid : id ∈ ids) (hj : index.lookup id = some j) :
    flags'[j]? = some code.toByte := by
  induction ids generalizing flags with
  | nil => simp at hid
  | cons x ids ih =>
    rcases mem_cons.mp hid with rfl | hmem
    · rcases scheduledFlags_cons h with ⟨hn, -⟩ | ⟨i, hi, hlt, h⟩
      · rw [hn] at hj; cases hj
      · obtain rfl : i = j := some.inj (hi.symm.trans hj)
        exact scheduledFlags_keeps h (getElem?_set_self hlt)
    · rcases scheduledFlags_cons h with ⟨-, h⟩ | ⟨i, -, -, h⟩
      · exact ih h hmem
      · exact ih h hmem

end Scheduled

/-- The order in which Go visits the ids does not matter: all get the same code. -/
theorem scheduledFlags_perm {ids' : List GoString} (hp : ids.Perm ids') (flags : TxFlags) :
    setScheduledFlags code index ids flags = setScheduledFlags code index ids' flags := by
  induction hp generalizing flags with
  | nil => rfl
  | cons id _ ih =>
    simp only [setScheduledFlags]
    cases index.lookup id with
    | none => exact ih flags
    | some i => simp only [ih]
  | swap a b l =>
    simp only [setScheduledFlags]
    cases index.lookup a with
    | none => rfl
    | some i =>
      cases index.lookup b with
      | none => rfl
      | some j =>
        by_cases hi : i < flags.length
        · by_cases hj : j < flags.length
          · have hcomm : (flags.set i code.toByte).set j code.toByte =
                (flags.set j code.toByte).set i code.toByte := by
              by_cases hij : i = j
              · rw [hij]
              · exact set_comm _ _ hij
            simp [setFlag, hi, hj, hcomm, bind, Except.bind]
          · simp [setFlag, hi, hj, bind, Except.bind, panicWith]
        · by_cases hj : j < flags.length
          · simp [setFlag, hi, hj, bind, Except.bind, panicWith]
          · simp [setFlag, hi, hj, bind, Except.bind, panicWith]
  | trans _ _ ih1 ih2 => rw [ih1, ih2]

end Flags

/-! ## Preparation -/

variable {b : Block} {flags : TxFlags} {fs : TxFlags}

theorem Block.metadataAt_set
    (h : (b.setFilter fs).metadataAt transactionsFilter = .ok flags) :
    flags = fs := by
  obtain ⟨ms, hms, h⟩ := bind_ok.mp h
  rw [index_eq_ok] at h
  rw [setFilter] at hms
  cases hm : b.metadata with
  | none => simp [hm, deref, panicWith] at hms
  | some l =>
    simp only [hm, map_some, deref] at hms
    cases hms
    by_cases hl : transactionsFilter < l.length
    · rw [getElem?_set_self hl] at h
      exact (some.inj h).symm
    · simp [hl] at h

theorem Block.metadataAt_set_ok (h : b.metadataAt transactionsFilter = .ok flags) :
    (b.setFilter fs).metadataAt transactionsFilter = .ok fs := by
  obtain ⟨ms, hms, h⟩ := bind_ok.mp h
  rw [index_eq_ok] at h
  cases hm : b.metadata with
  | none => simp [hm, deref, panicWith] at hms
  | some l =>
    simp only [hm, deref] at hms
    cases hms
    have hl := lt_length h
    refine bind_ok.mpr ⟨ms.set transactionsFilter fs, ?_, ?_⟩
    · simp [setFilter, hm, deref]
    · rw [index_eq_ok, getElem?_set_self hl]

structure Prepared (cfg : Config) (order : MapOrder) (db : StateDb) (block : Block)
    (s : BatchSchedule) (block' : Block) (updates : UpdateBatch) where
  index : List (GoString × Nat)
  flagsIn : TxFlags
  flagsMarked : TxFlags
  flagsValidated : TxFlags
  flagsOut : TxFlags
  index_eq : buildTxIdIndexMap 0 block.data = .ok index
  flagsIn_eq : block.txsFilter = .ok flagsIn
  marked_eq : setScheduledFlags .notValidated index (order.ids 2 s.allTxIds) flagsIn =
    .ok flagsMarked
  loop_eq : validateLoop cfg.hash db block.header.number true 0 block.data (flagsMarked, ∅) =
    .ok (flagsValidated, updates)
  out_eq : setScheduledFlags .valid index (order.ids 4 s.allTxIds) flagsValidated = .ok flagsOut
  block_eq : block' = block.setFilter flagsOut

theorem Block.txsFilter_eq_ok (h : b.txsFilter = .ok flags) : flags = [] → b.data = [] := by
  obtain ⟨fs, -, h⟩ := bind_ok.mp h
  cases h
  split
  · intro h
    simpa [new] using h
  · intro h
    contradiction

theorem Block.txsFilter_setFilter (h : (b.setFilter fs).txsFilter = .ok flags)
    (hne : fs = [] → b.data = []) : flags = fs := by
  obtain ⟨fs', hfs, h⟩ := bind_ok.mp h
  obtain rfl := metadataAt_set hfs
  cases h
  split
  · rename_i he
    simp [new, hne he, he]
  · rfl

theorem Block.setFilter_setFilter (b : Block) (fs fs' : TxFlags) :
    (b.setFilter fs).setFilter fs' = b.setFilter fs' := by
  simp only [setFilter, Option.map_map]
  congr 1
  cases b.metadata with
  | none => rfl
  | some ms => simp [set_set]

theorem prepareSchedule_ok {cfg : Config} {order : MapOrder} {db : StateDb}
    {block block' : Block} {s : BatchSchedule} {updates : UpdateBatch}
    (h : prepareWithBatchSchedule cfg order db block s = .ok (block', updates)) :
    Nonempty (Prepared cfg order db block s block' updates) := by
  obtain ⟨index, hindex, h⟩ := bind_ok.mp h
  obtain ⟨flagsIn, hin, h⟩ := bind_ok.mp h
  obtain ⟨marked, hmarked, h⟩ := bind_ok.mp h
  obtain ⟨⟨vblock, upd⟩, hval, h⟩ := bind_ok.mp h
  obtain ⟨validated, hmeta, h⟩ := bind_ok.mp h
  obtain ⟨out, hout, h⟩ := bind_ok.mp h
  cases h
  obtain ⟨marked', hmarked', hval⟩ := bind_ok.mp hval
  obtain ⟨⟨fl, upd'⟩, hloop, hval⟩ := bind_ok.mp hval
  cases hval
  have hnil : marked = [] → block.data = [] := by
    intro hm
    refine txsFilter_eq_ok hin (length_eq_zero_iff.mp ?_)
    rw [← scheduledFlags_length hmarked, hm]
    rfl
  obtain rfl := txsFilter_setFilter hmarked' hnil
  obtain rfl := metadataAt_set hmeta
  exact ⟨⟨index, flagsIn, marked', validated, out, hindex, hin, hmarked, hloop, hout, by
    rw [setFilter_setFilter, setFilter_setFilter]⟩⟩

section Prepared

variable {cfg : Config} {order : MapOrder} {db : StateDb} {block block' : Block}
  {s : BatchSchedule} {updates : UpdateBatch} (p : Prepared cfg order db block s block' updates)

theorem Prepared.stored_flags : block'.metadataAt transactionsFilter = .ok p.flagsOut := by
  obtain ⟨fs, hfs, -⟩ := bind_ok.mp p.flagsIn_eq
  have hset : (block.setFilter p.flagsOut).metadataAt transactionsFilter =
      .ok p.flagsOut := metadataAt_set_ok hfs
  rwa [← p.block_eq] at hset

theorem Prepared.unscheduled (hi : ∀ id ∈ s.allTxIds, p.index.lookup id ≠ some i) :
    p.flagsMarked[i]? = p.flagsIn[i]? ∧ p.flagsOut[i]? = p.flagsValidated[i]? := by
  constructor
  · exact scheduledFlags_untouched p.marked_eq fun id hid =>
      hi id ((order.ids_perm 2 _).mem_iff.mp hid)
  · exact scheduledFlags_untouched p.out_eq fun id hid =>
      hi id ((order.ids_perm 4 _).mem_iff.mp hid)

theorem Prepared.scheduled (hid : id ∈ s.allTxIds) (hi : p.index.lookup id = some i) :
    FlaggedValid p.flagsOut i :=
  scheduledFlags_touched p.out_eq ((order.ids_perm 4 _).mem_iff.mpr hid) hi

theorem Prepared.invalid_untouched (hi : ∀ id ∈ s.allTxIds, p.index.lookup id ≠ some i)
    (hv : ¬ FlaggedValid p.flagsIn i) :
    p.flagsOut[i]? = p.flagsIn[i]? := by
  obtain ⟨hmarked, hout⟩ := p.unscheduled hi
  have hv' : ¬ FlaggedValid p.flagsMarked i := by rwa [FlaggedValid, hmarked]
  rw [hout, (validateLoop_flags p.loop_eq).2.1 i hv', hmarked]

end Prepared

theorem addBlock_ok {blocks blocks' : List Block} {block : Block}
    (h : addBlock blocks block = .ok blocks') :
    block.header.number.toNat = blocks.length ∧ blocks' = blocks ++ [block] := by
  unfold addBlock at h
  split at h
  · simp [fail] at h
  · rename_i hnum
    obtain ⟨ids, -, h⟩ := bind_ok.mp h
    obtain ⟨flags, -, h⟩ := bind_ok.mp h
    split at h
    · simp [panicWith] at h
    · cases h
      exact ⟨not_not.mp hnum, rfl⟩

theorem commitHistory_ledger (cfg : Config) (block : Block) (start : KvLedger)
    (rest : List KvLedger) (l : KvLedger) (hl : rest.getLastD start = l) :
    (commitHistory cfg block start rest l).ledger.blocks = l.blocks ∧
      (commitHistory cfg block start rest l).ledger.stateDb = l.stateDb := by
  subst hl
  unfold commitHistory
  split
  · split
    · simp [CommitRun.ledger]
    · exact ⟨rfl, rfl⟩
    · exact ⟨rfl, rfl⟩
  · exact ⟨rfl, rfl⟩

theorem commitHistory_rest (cfg : Config) (block : Block) (start : KvLedger)
    (rest : List KvLedger) (l : KvLedger) :
    rest.length ≤ (commitHistory cfg block start rest l).rest.length := by
  unfold commitHistory
  split
  · split <;> simp
  · exact le_refl _

/-- What a scheduled commit that stored its block did: `block'` is the stored block. -/
structure Stored (cfg : Config) (order : MapOrder) (l : KvLedger) (block : Block)
    (s : BatchSchedule) (block' : Block) where
  updates : UpdateBatch
  prepared : Prepared cfg order l.stateDb block s block' updates
  number : block.header.number.toNat = l.blocks.length
  blocks : (commitWithBatchSchedule cfg order l block s).ledger.blocks = l.blocks ++ [block']
  stateDb : (commitWithBatchSchedule cfg order l block s).ledger.stateDb =
    match replaySchedule order block s l.stateDb with
    | .error _ => l.stateDb
    | .ok a => a.flush.applyUpdates updates (blockHeight block)
  rest : ∀ a, replaySchedule order block s l.stateDb = .ok a →
    3 ≤ (commitWithBatchSchedule cfg order l block s).rest.length

theorem Prepared.same_block {cfg : Config} {order : MapOrder} {db : StateDb} {block block' : Block}
    {s : BatchSchedule} {updates : UpdateBatch} (p : Prepared cfg order db block s block' updates) :
    block'.header = block.header ∧ blockHeight block' = blockHeight block ∧
      replaySchedule order block' s db = replaySchedule order block s db := by
  have hhdr : block'.header = block.header := by rw [p.block_eq]; rfl
  have hdata : block'.data = block.data := by rw [p.block_eq]; rfl
  refine ⟨hhdr, by rw [blockHeight, blockHeight, hhdr, hdata], ?_⟩
  exact replaySchedule_congr order order (congrArg BlockHeader.number hhdr) hdata s db

theorem commitSchedule_cases (cfg : Config) (order : MapOrder) (l : KvLedger)
    (block : Block) (s : BatchSchedule) :
    (∃ f, commitWithBatchSchedule cfg order l block s = ⟨l, [], .error f⟩) ∨
      ∃ block', Nonempty (Stored cfg order l block s block') := by
  cases hp : prepareWithBatchSchedule cfg order l.stateDb block s with
  | error f => exact .inl ⟨f, by simp only [commitWithBatchSchedule, hp]⟩
  | ok pr =>
    obtain ⟨block', updates⟩ := pr
    cases ha : addBlock l.blocks block' with
    | error f => exact .inl ⟨f, by simp only [commitWithBatchSchedule, hp, ha]⟩
    | ok blocks =>
      obtain ⟨p⟩ := prepareSchedule_ok hp
      obtain ⟨hnum, rfl⟩ := addBlock_ok ha
      obtain ⟨hhdr, hheight, hreplay⟩ := p.same_block
      refine .inr ⟨block', ⟨⟨updates, p, hhdr ▸ hnum, ?_, ?_, ?_⟩⟩⟩
      · simp only [commitWithBatchSchedule, hp, ha, commitBenchmarkTxs, hreplay]
        cases replaySchedule order block s l.stateDb with
        | error f => rfl
        | ok a => exact (commitHistory_ledger _ _ _ _ _ rfl).1
      · simp only [commitWithBatchSchedule, hp, ha, commitBenchmarkTxs, hreplay]
        cases replaySchedule order block s l.stateDb with
        | error f => rfl
        | ok a =>
          refine (commitHistory_ledger _ _ _ _ _ rfl).2.trans ?_
          exact congrArg (a.flush.applyUpdates updates) hheight
      · intro a ha'
        simp only [commitWithBatchSchedule, hp, ha, commitBenchmarkTxs, hreplay, ha']
        exact commitHistory_rest cfg block' l [_, _, _] _

theorem stored_of_blocks {cfg : Config} {order : MapOrder} {l : KvLedger} {block : Block}
    {s : BatchSchedule}
    (h : (commitWithBatchSchedule cfg order l block s).ledger.blocks = l.blocks ++ [b]) :
    Nonempty (Stored cfg order l block s b) := by
  rcases commitSchedule_cases cfg order l block s with ⟨f, hf⟩ | ⟨b', ⟨st⟩⟩
  · rw [hf] at h
    exact absurd h (by simp [CommitRun.ledger])
  · have hb : b' = b := by simpa using st.blocks.symm.trans h
    exact hb ▸ ⟨st⟩

/-- Go's map order has no part in a scheduled commit. -/
theorem commitSchedule_order (cfg : Config) (order order' : MapOrder) (l : KvLedger)
    (block : Block) (s : BatchSchedule) :
    commitWithBatchSchedule cfg order l block s = commitWithBatchSchedule cfg order' l block s := by
  have hids : ∀ i, (order.ids i s.allTxIds).Perm (order'.ids i s.allTxIds) := fun i =>
    (order.ids_perm i _).trans (order'.ids_perm i _).symm
  have hprep : prepareWithBatchSchedule cfg order l.stateDb block s =
      prepareWithBatchSchedule cfg order' l.stateDb block s := by
    simp only [prepareWithBatchSchedule, scheduledFlags_perm (hids _)]
  have hreplay : ∀ b, commitBenchmarkTxs order b s l.stateDb =
      commitBenchmarkTxs order' b s l.stateDb := fun b => by
    rw [commitBenchmarkTxs, commitBenchmarkTxs, replaySchedule_congr order order' rfl rfl]
  simp only [commitWithBatchSchedule, hprep, hreplay]

end FabricOev.Ledger
