import FabricOev.Ledger.MixedBlocks

/-!
# What a schedule leaves alone

The scheduled transactions go through validation under a mark that is not the valid one.
Which mark it is does not matter: validation skips a transaction that is not flagged valid,
so for the others and for the batch the block might as well have come in with the scheduled
transactions rejected.
-/

namespace FabricOev.Ledger

open Go Protos Bench Orderer Lib Except List TxFlags MetadataIndex

/-- Flags that are the same where `P` holds, and not valid on either side elsewhere. -/
structure AgreeOn (P : Nat → Prop) (f f' : TxFlags) : Prop where
  length : f.length = f'.length
  same : ∀ i, P i → f[i]? = f'[i]?
  skipped : ∀ i, ¬ P i → ¬ FlaggedValid f i ∧ ¬ FlaggedValid f' i

section Agree

variable {P : Nat → Prop} {f f' : TxFlags}

theorem AgreeOn.valid_iff (h : AgreeOn P f f') (i : Nat) : FlaggedValid f i ↔ FlaggedValid f' i := by
  by_cases hi : P i
  · rw [FlaggedValid, FlaggedValid, h.same i hi]
  · exact iff_of_false (h.skipped i hi).1 (h.skipped i hi).2

theorem AgreeOn.isValid (h : AgreeOn P f f') (i : Nat) : f.isValid i = f'.isValid i := by
  rw [isValid_eq, isValid_eq, h.length]
  simp only [h.valid_iff]

variable {i : Nat}

theorem AgreeOn.set (h : AgreeOn P f f') (hi : P i) (c : UInt8) :
    AgreeOn P (f.set i c) (f'.set i c) where
  length := by simp [h.length]
  same j hj := by rw [getElem?_set, getElem?_set, h.length, h.same j hj]
  skipped j hj := by
    have hij : i ≠ j := fun he => hj (he ▸ hi)
    rw [FlaggedValid, FlaggedValid, getElem?_set_ne hij, getElem?_set_ne hij]
    exact h.skipped j hj

theorem AgreeOn.validateOne (h : AgreeOn P f f') (hash : Bytes → Bytes) (db : StateDb)
    (number : UInt64) (mvcc : Bool) (updates : UpdateBatch) (i : Nat) (d : Bytes) :
    Result.Related (fun x y => AgreeOn P x.1 y.1 ∧ x.2 = y.2)
      (validateOne hash db number mvcc (f, updates) i d)
      (validateOne hash db number mvcc (f', updates) i d) := by
  unfold Ledger.validateOne
  dsimp only
  rw [← h.isValid i, isValid_eq]
  by_cases hi : i < f.length
  · rw [if_pos hi]
    by_cases hv : FlaggedValid f i
    · -- a transaction flagged valid is one of those the flags agree on
      have hPi : P i := not_not.mp fun hn => (h.skipped i hn).1 hv
      have hi' : i < f'.length := h.length ▸ hi
      simp only [hv, decide_true, bind, Except.bind, if_true]
      refine Result.Related.bind (Result.Related.refl (channelHeaderOf d)) fun chdr chdr' hc => ?_
      subst hc
      split
      · exact .ok ⟨h, rfl⟩
      · refine Result.Related.bind (Result.Related.refl _) fun x x' hx => ?_
        subst hx
        obtain ⟨rw, code⟩ := x
        simp only [setFlag, if_pos hi, if_pos hi']
        cases rw with
        | none => exact .ok ⟨h.set hPi _, rfl⟩
        | some rw =>
          refine Result.Related.bind (Result.Related.refl _) fun b b' hb => ?_
          exact .ok ⟨h.set hPi _, hb⟩
    · simp only [hv, decide_false, bind, bind]
      exact .ok ⟨h, rfl⟩
  · rw [if_neg hi]
    exact .error _

theorem AgreeOn.validateLoop (h : AgreeOn P f f') (hash : Bytes → Bytes) (db : StateDb)
    (number : UInt64) (mvcc : Bool) (updates : UpdateBatch) (i : Nat) (ds : List Bytes) :
    Result.Related (fun x y => AgreeOn P x.1 y.1 ∧ x.2 = y.2)
      (validateLoop hash db number mvcc i ds (f, updates))
      (validateLoop hash db number mvcc i ds (f', updates)) := by
  induction ds generalizing i f f' updates with
  | nil => exact .ok ⟨h, rfl⟩
  | cons d ds ih =>
    refine (h.validateOne hash db number mvcc updates i d).bind fun x y hxy => ?_
    obtain ⟨g, updates'⟩ := x
    obtain ⟨g', updates''⟩ := y
    obtain ⟨hg, rfl⟩ := hxy
    exact ih hg updates' (i + 1)

end Agree

variable {hash : Bytes → Bytes} {mvcc : Bool}

theorem validateLoop_entries {db : StateDb} {number : UInt64} {ds : List Bytes}
    {st st' : TxFlags × UpdateBatch} (h : validateLoop hash db number mvcc i ds st = .ok st')
    {k : CompositeKey} {u : Update} (hk : st'.2[k]? = some u) :
    st.2[k]? = some u ∨ ∃ j d rw, ds[j]? = some d ∧ FlaggedValid st.1 (i + j) ∧
      EndorsedRwSet d rw ∧ (k, u) ∈ writeEntries rw ⟨number, UInt64.ofNat (i + j)⟩ := by
  induction ds generalizing i st with
  | nil =>
    cases h
    exact .inl hk
  | cons d ds ih =>
    obtain ⟨mid, hone, hrest⟩ := bind_ok.mp h
    have hc := validateOne_cases hone
    cases ih hrest with
    | inr hlater =>
      obtain ⟨j, e, rw, hj, hv, hrw, hmem⟩ := hlater
      have hidx : i + 1 + j = i + (j + 1) := by omega
      refine .inr ⟨j + 1, e, rw, hj, ?_, hrw, hidx ▸ hmem⟩
      rw [FlaggedValid, ← hidx, ← hc.flag_ne (by omega)]
      exact hv
    | inl hmid =>
      cases hc with
      | skipped | other | rejected => exact .inl hmid
      | accepted hv _ _ hrw _ hu =>
        obtain rfl := ok.inj (hu.symm.trans (addWriteSet_eq hu st.2))
        cases FinMap.getElem?_insertAll_cases hmid with
        | inl hb => exact .inl hb
        | inr hmem => exact .inr ⟨0, d, _, rfl, hv, hrw, hmem⟩

/-! ## The frame of a schedule -/

def ScheduledAt (data : List Bytes) (s : BatchSchedule) (i : Nat) : Prop :=
  ∃ id ∈ s.allTxIds, TxIdAt data i id

section Frame

variable {cfg : Config} {order : MapOrder} {db : StateDb} {block block' : Block}
  {s : BatchSchedule} {updates : UpdateBatch} (p : Prepared cfg order db block s block' updates)

/-- With distinct ids the index map points to the scheduled transactions and no others. -/
theorem Prepared.scheduledAt_iff (hd : DistinctTxIds block.data) (i : Nat) :
    ScheduledAt block.data s i ↔ ∃ id ∈ s.allTxIds, p.index.lookup id = some i := by
  constructor
  · intro h
    obtain ⟨id, hid, hat⟩ := h
    exact ⟨id, hid, txIdIndexMap_distinct p.index_eq hd hat⟩
  · intro h
    obtain ⟨id, hid, hl⟩ := h
    obtain ⟨k, hk, hat⟩ := txIdIndexMap_sound p.index_eq hl
    rw [Nat.zero_add] at hk
    exact ⟨id, hid, hk ▸ hat⟩

theorem Prepared.marked_skipped (hd : DistinctTxIds block.data) (hi : ScheduledAt block.data s i) :
    ¬ FlaggedValid p.flagsMarked i := by
  obtain ⟨id, hid, hl⟩ := (p.scheduledAt_iff hd i).mp hi
  have hset := scheduledFlags_touched p.marked_eq ((order.ids_perm 2 _).mem_iff.mpr hid) hl
  rw [FlaggedValid, hset]
  decide

/-- Marks of one's own for the scheduled transactions, none of them the valid one. -/
structure PreMarked (block : Block) (s : BatchSchedule) (marked : TxFlags) : Prop where
  flags : ∃ flagsIn, block.txsFilter = .ok flagsIn ∧ marked.length = flagsIn.length ∧
    ∀ i, ¬ ScheduledAt block.data s i → marked[i]? = flagsIn[i]?
  invalid : ∀ i, ScheduledAt block.data s i → ¬ FlaggedValid marked i

theorem Prepared.agreeOn (hd : DistinctTxIds block.data) {marked : TxFlags}
    (hm : PreMarked block s marked) :
    AgreeOn (fun i => ¬ ScheduledAt block.data s i) p.flagsMarked marked := by
  obtain ⟨flagsIn, hin, hlen, hkeep⟩ := hm.flags
  obtain rfl := ok.inj (p.flagsIn_eq.symm.trans hin)
  constructor
  · rw [hlen, scheduledFlags_length p.marked_eq]
  · intro i hi
    rw [hkeep i hi]
    refine (p.unscheduled fun id hid hl => hi ?_).1
    exact (p.scheduledAt_iff hd i).mpr ⟨id, hid, hl⟩
  · intro i hi
    rw [not_not] at hi
    exact ⟨p.marked_skipped hd hi, hm.invalid i hi⟩

/-- A block with its flags replaced goes through validation with these flags. -/
theorem prepareBatch_setFilter {flagsIn fs : TxFlags}
    (hin : block.txsFilter = .ok flagsIn) (hlen : fs.length = flagsIn.length) :
    validateAndPrepareBatch hash db (block.setFilter fs) mvcc =
      (validateLoop hash db block.header.number mvcc 0 block.data (fs, ∅) >>= fun st =>
        .ok (block.setFilter st.1, st.2)) := by
  obtain ⟨fs', hmeta, -⟩ := bind_ok.mp hin
  have hfilter : (block.setFilter fs).txsFilter = .ok fs := by
    rw [Block.txsFilter, Block.metadataAt_set_ok hmeta]
    show Except.ok (if fs = [] then new block.data.length else fs) = _
    split
    · rename_i hnil
      have hdata := Block.txsFilter_eq_ok hin (by rw [← length_eq_zero_iff, ← hlen, hnil]; rfl)
      rw [hdata, hnil]
      rfl
    · rfl
  unfold validateAndPrepareBatch
  rw [hfilter]
  simp only [bind, Except.bind, Block.setFilter_header, Block.setFilter_data,
    Block.setFilter_setFilter]

/-- A commit that stored its block gave the unscheduled transactions the flags, and the
database the batch, of plain validation with the scheduled transactions rejected
beforehand; and the batch has no write of a scheduled one. -/
theorem unscheduled_frame {l : KvLedger} {marked : TxFlags} (hd : DistinctTxIds block.data)
    (hstored : (commitWithBatchSchedule cfg order l block s).ledger.blocks = l.blocks ++ [block'])
    (hm : PreMarked block s marked) :
    ∃ vblock updates flags vflags,
      validateAndPrepareBatch cfg.hash l.stateDb (block.setFilter marked) true =
        .ok (vblock, updates) ∧
      block'.metadataAt transactionsFilter = .ok flags ∧
      vblock.metadataAt transactionsFilter = .ok vflags ∧
      (∀ i, ¬ ScheduledAt block.data s i → flags[i]? = vflags[i]?) ∧
      (∀ a, replaySchedule order block s l.stateDb = .ok a →
        (commitWithBatchSchedule cfg order l block s).ledger.stateDb =
          a.flush.applyUpdates updates (blockHeight block)) ∧
      ∀ k u, updates[k]? = some u → ∃ i d rw, ¬ ScheduledAt block.data s i ∧
        block.data[i]? = some d ∧ EndorsedRwSet d rw ∧
        (k, u) ∈ writeEntries rw ⟨block.header.number, UInt64.ofNat i⟩ := by
  obtain ⟨st⟩ := stored_of_blocks hstored
  have hagree := st.prepared.agreeOn hd hm
  obtain ⟨flagsIn, hin, hlen, -⟩ := hm.flags
  have hloop := hagree.validateLoop cfg.hash l.stateDb block.header.number true ∅ 0 block.data
  rw [st.prepared.loop_eq] at hloop
  generalize hv : validateLoop cfg.hash l.stateDb block.header.number true 0 block.data
    (marked, ∅) = r at hloop
  cases hloop with
  | @ok _ v hrel =>
    obtain ⟨vflags, vupdates⟩ := v
    obtain ⟨hflags, hupd⟩ := hrel
    subst hupd
    refine ⟨block.setFilter vflags, st.updates, st.prepared.flagsOut, vflags, ?_,
      st.prepared.stored_flags, ?_, ?_, ?_, ?_⟩
    · rw [prepareBatch_setFilter hin hlen, hv]
      rfl
    · obtain ⟨fs, hmeta, -⟩ := bind_ok.mp hin
      exact Block.metadataAt_set_ok hmeta
    · intro i hi
      have hout := (st.prepared.unscheduled fun id hid hl =>
        hi ((st.prepared.scheduledAt_iff hd i).mpr ⟨id, hid, hl⟩)).2
      rw [hout, hflags.same i hi]
    · intro a ha
      have hdb := st.stateDb
      rw [ha] at hdb
      exact hdb
    · intro k u hk
      cases validateLoop_entries hv hk with
      | inl hempty => simp at hempty
      | inr hentry =>
        obtain ⟨i, d, rw, hi, hvalid, hrw, hmem⟩ := hentry
        rw [Nat.zero_add] at hvalid hmem
        exact ⟨i, d, rw, fun hs => hm.invalid i hs hvalid, hi, hrw, hmem⟩

end Frame

/-- A deposit next to an endorsed write: the deposit might as well have come in as a read
conflict. -/
theorem deposit_beside_put_frame :
    let d := depositIntent (str "t1") (str "a") (str "5")
    let s := secondSchedule [[str "t1"]]
    let block := secondBlock [d.envelope, (putTx (str "t2") (str "k") (str "v")).envelope] s
    let marked : TxFlags := [TxValidationCode.mvccReadConflict.toByte, 0]
    ∃ vblock updates flags vflags,
      validateAndPrepareBatch replayConfig.hash twoAccounts (block.setFilter marked) true =
        .ok (vblock, updates) ∧
      block.metadataAt transactionsFilter = .ok flags ∧
      vblock.metadataAt transactionsFilter = .ok vflags ∧
      flags[1]? = vflags[1]? := by
  intro d s block marked
  have hdistinct : DistinctTxIds block.data := distinct_of_nodup (by decide +kernel)
  have hstored : (commitWithBatchSchedule replayConfig MapOrder.sorted accountsLedger block
      s).ledger.blocks = accountsLedger.blocks ++ [block] := by decide +kernel
  have hids : s.allTxIds = [str "t1"] := by decide +kernel
  have hfirst : TxIdAt block.data 0 (str "t1") := by decide +kernel
  have hscheduled : ∀ i, ScheduledAt block.data s i ↔ i = 0 := by
    intro i
    constructor
    · intro h
      obtain ⟨id, hid, hat⟩ := h
      rw [hids, mem_singleton] at hid
      exact hdistinct i 0 id hat (hid ▸ hfirst)
    · intro h
      exact ⟨str "t1", by rw [hids]; simp, h ▸ hfirst⟩
  have hm : PreMarked block s marked := by
    constructor
    · refine ⟨[0, 0], by decide +kernel, rfl, fun i hi => ?_⟩
      rw [hscheduled] at hi
      cases i with
      | zero => exact absurd rfl hi
      | succ i => rfl
    · intro i hi
      rw [(hscheduled i).mp hi]
      decide
  obtain ⟨vblock, updates, flags, vflags, hval, hflags, hvflags, hsame, -⟩ :=
    unscheduled_frame hdistinct hstored hm
  exact ⟨vblock, updates, flags, vflags, hval, hflags, hvflags,
    hsame 1 (by rw [hscheduled]; decide)⟩

end FabricOev.Ledger
