import FabricOev.Ledger.RangeScan
import FabricOev.Ledger.ValidatorFacts

/-!
# Validation is serial execution

The transactions a validation pass accepts, applied as one batch, do what they do when
each is executed on the state the ones before it leave, with every version it read current
there. The state need not be the one validation ran against: it is enough that the two
agree on what the accepted transactions read.
-/

namespace FabricOev.Ledger

open Go Protos Lib List UInt64 Except FinMap Prod StateDb

variable {hash : Bytes → Bytes} {updates : UpdateBatch} {ns : GoString} {rw : TxRwSet} {h : Height}
  {b b' : UpdateBatch} {i : Nat} {base : StateDb} {number : UInt64} {d : Bytes} {ds : List Bytes}
  {flags : TxFlags} {acc : List (Nat × TxRwSet)}

/-- A key that validation looks at: read by itself, or in the range of a query. -/
def NsRwSet.ReadsKey (s : NsRwSet) (k : GoString) : Prop :=
  (∃ r ∈ s.reads, r.key = k) ∨ ∃ q ∈ s.rangeQueries, inRange q.startKey q.endKey k = true ∨
      (q.itrExhausted = false ∧ q.endKey = k)

def ReadsKey (rw : TxRwSet) (k : CompositeKey) : Prop := ∃ s ∈ rw, s.ns = k.ns ∧ s.ReadsKey k.key

/-! ## Validating against a batch -/

theorem rangeQueries_apply (db : StateDb) (updates : UpdateBatch) (h : Height)
    (ns : GoString) (qs : List RangeQueryInfo) :
    validateRangeQueries hash db updates ns qs =
      validateRangeQueries hash (db.applyUpdates updates h) ∅ ns qs := by
  induction qs with
  | nil => rfl
  | cons q qs ih =>
    have hq : validateRangeQuery hash db updates ns q =
        validateRangeQuery hash (db.applyUpdates updates h) ∅ ns q := by
      simp only [validateRangeQuery, combinedResults_eq db updates h]
    rw [validateRangeQueries, validateRangeQueries, hq, ih]

theorem validateReadSet_apply {db : StateDb} {rs : List KvRead}
    (h : validateReadSet db updates ns rs = true) (ht : Height) :
    validateReadSet (db.applyUpdates updates ht) ∅ ns rs = true := by
  refine all_eq_true.mpr fun r hr => ?_
  have hread := all_eq_true.mp h r hr
  unfold validateKvRead at hread ⊢
  split at hread
  · cases hread
  · rename_i hnot
    have hnone : updates.get ns r.key = none := by simpa [UpdateBatch.existsKey] using hnot
    rw [if_neg (by simp [UpdateBatch.existsKey, UpdateBatch.get]), getState_applyUpdates, hnone]
    exact hread

/-- What is valid against the database and a batch is valid against the database with the
batch applied. -/
theorem validateTx_apply {db : StateDb} (h : validateTx hash db updates rw = .ok .valid)
    (ht : Height) :
    validateTx hash (db.applyUpdates updates ht) ∅ rw = .ok .valid := by
  induction rw with
  | nil => rfl
  | cons s ss ih =>
    rw [validateTx] at h ⊢
    split at h
    · rename_i hreads
      obtain ⟨ok, hok, h⟩ := bind_ok.mp h
      rw [if_pos (validateReadSet_apply hreads ht), ← rangeQueries_apply, hok]
      cases ok with
      | false => cases h
      | true => exact ih h
    · cases h

section Agree

variable {db db' : StateDb} {ns : GoString}

theorem combinedResults_congr {start stop : GoString} {includeEndKey : Bool}
    (h : ∀ k, inRange start stop k = true ∨ (includeEndKey = true ∧ stop = k) →
      db.getState ns k = db'.getState ns k) :
    combinedResults db ∅ ns start stop includeEndKey =
      combinedResults db' ∅ ns start stop includeEndKey := by
  have hscan : scan db.state ns start stop = scan db'.state ns start stop :=
    scan_congr fun k hk => h k (.inl hk)
  simp only [combinedResults, hscan]
  cases includeEndKey with
  | false => rfl
  | true => simp only [if_true, serveEndKey, h stop (.inr ⟨rfl, rfl⟩)]

theorem rangeQueries_congr {qs : List RangeQueryInfo}
    (h : ∀ q ∈ qs, ∀ k, inRange q.startKey q.endKey k = true ∨
      (q.itrExhausted = false ∧ q.endKey = k) → db.getState ns k = db'.getState ns k) :
    validateRangeQueries hash db ∅ ns qs = validateRangeQueries hash db' ∅ ns qs := by
  induction qs with
  | nil => rfl
  | cons q qs ih =>
    have hres : combinedResults db ∅ ns q.startKey q.endKey (!q.itrExhausted) =
        combinedResults db' ∅ ns q.startKey q.endKey (!q.itrExhausted) :=
      combinedResults_congr fun k hk => h q (by simp) k (by simpa using hk)
    rw [validateRangeQueries, validateRangeQueries, ih fun q hq => h q (by simp [hq])]
    simp only [validateRangeQuery, hres]

theorem validateTx_congr
    (h : ∀ k, ReadsKey rw k → db.getState k.ns k.key = db'.getState k.ns k.key) :
    validateTx hash db ∅ rw = validateTx hash db' ∅ rw := by
  induction rw with
  | nil => rfl
  | cons s ss ih =>
    have hs : ∀ k, s.ReadsKey k → db.getState s.ns k = db'.getState s.ns k :=
      fun k hk => h ⟨s.ns, k⟩ ⟨s, by simp, rfl, hk⟩
    have hset : validateReadSet db ∅ s.ns s.reads = validateReadSet db' ∅ s.ns s.reads := by
      rw [validateReadSet, validateReadSet, Bool.eq_iff_iff, all_eq_true, all_eq_true]
      refine forall₂_congr fun r hr => ?_
      simp only [validateKvRead, hs r.key (.inl ⟨r, hr, rfl⟩)]
    have hqs : validateRangeQueries hash db ∅ s.ns s.rangeQueries =
        validateRangeQueries hash db' ∅ s.ns s.rangeQueries :=
      rangeQueries_congr fun q hq k hk => hs k (.inr ⟨q, hq, hk⟩)
    have hss := ih fun k ⟨s', hs', hk⟩ => h k ⟨s', by simp [hs'], hk⟩
    rw [validateTx, validateTx, hset, hqs, hss]

end Agree

def KvWrite.update (h : Height) (w : KvWrite) : Update := ⟨if w.isDelete then none else w.value, h⟩

/-- The entries of a write set, in the order in which they are added. -/
def writeEntries (rw : TxRwSet) (h : Height) : List (CompositeKey × Update) :=
  rw.flatMap fun s => s.writes.map fun w => (⟨s.ns, w.key⟩, w.update h)

theorem version_of_mem_writeEntries {k : CompositeKey} {u : Update}
    (hu : (k, u) ∈ writeEntries rw h) : u.version = h := by
  obtain ⟨s, -, hs⟩ := mem_flatMap.mp hu
  obtain ⟨w, -, hw⟩ := mem_map.mp hs
  obtain ⟨-, rfl⟩ := mk.inj hw
  rfl

theorem addWrite_eq {w : KvWrite} (hb : addWrite ns h b w = .ok b') (c : UpdateBatch) :
    addWrite ns h c w = .ok (c.insert (CompositeKey.mk ns w.key) (w.update h)) := by
  unfold addWrite at hb
  unfold addWrite KvWrite.update
  split at hb
  · rename_i hdel
    rw [if_pos hdel, if_pos hdel]
    rfl
  · rename_i hdel
    rw [if_neg hdel, if_neg hdel]
    unfold UpdateBatch.put at hb
    split at hb
    · cases hb
    · rename_i v hv
      rw [hv]
      rfl

theorem foldlM_inserts {α : Type} {step : UpdateBatch → α → Result UpdateBatch}
    (entries : α → List (CompositeKey × Update))
    (hstep : ∀ x b b', step b x = .ok b' → ∀ c, step c x = .ok (insertAll c (entries x)))
    {xs : List α} (h : xs.foldlM step b = .ok b') (c : UpdateBatch) :
    xs.foldlM step c = .ok (insertAll c (xs.flatMap entries)) := by
  induction xs generalizing b c with
  | nil => rfl
  | cons x xs ih =>
    obtain ⟨mid, hmid, h⟩ := bind_ok.mp h
    rw [foldlM_cons, hstep x b mid hmid c]
    show xs.foldlM step (insertAll c (entries x)) = _
    rw [ih h]
    simp [insertAll]

/-- A write set that can be added to one batch adds its entries to every batch. -/
theorem addWriteSet_eq (hb : addWriteSetToBatch rw h b = .ok b') (c : UpdateBatch) :
    addWriteSetToBatch rw h c = .ok (insertAll c (writeEntries rw h)) := by
  refine foldlM_inserts _ (fun s b b' hs c => ?_) hb c
  have hwrite : ∀ (w : KvWrite) b b', addWrite s.ns h b w = .ok b' → ∀ c, addWrite s.ns h c w =
        .ok (insertAll c [(CompositeKey.mk s.ns w.key, w.update h)]) :=
    fun w b b' hw c => addWrite_eq hw c
  rw [foldlM_inserts _ hwrite hs c, ← map_eq_flatMap]

/-! ## Execution of endorsed transactions -/

/-- It counts only if the versions it read are current; then its writes are applied. -/
def execEndorsed (hash : Bytes → Bytes) (number : UInt64) (h : Height) (db : StateDb)
    (tx : Nat × TxRwSet) : Option StateDb :=
  if validateTx hash db ∅ tx.2 = .ok .valid then
    match addWriteSetToBatch tx.2 ⟨number, ofNat tx.1⟩ ∅ with
    | .ok ws => some (db.applyUpdates ws h)
    | .error _ => none
  else none

theorem execEndorsed_apply {db : StateDb} {updates' : UpdateBatch} (h : Height)
    (hv : validateTx hash db updates rw = .ok .valid)
    (hu : addWriteSetToBatch rw ⟨number, ofNat i⟩ updates = .ok updates')
    (hagree : ∀ k, ReadsKey rw k → base.getState k.ns k.key = db.getState k.ns k.key) :
    execEndorsed hash number h (base.applyUpdates updates h) (i, rw) =
      some (base.applyUpdates updates' h) := by
  have hvalid : validateTx hash (base.applyUpdates updates h) ∅ rw = .ok .valid := by
    have hsame : validateTx hash (base.applyUpdates updates h) ∅ rw =
        validateTx hash (db.applyUpdates updates h) ∅ rw := by
      refine validateTx_congr fun k hk => ?_
      rw [getState_applyUpdates, getState_applyUpdates, hagree k hk]
    rw [hsame]
    exact validateTx_apply hv h
  have hes := addWriteSet_eq hu
  obtain rfl := ok.inj (hu.symm.trans (hes updates))
  rw [execEndorsed, if_pos hvalid, hes ∅]
  show some ((base.applyUpdates updates h).applyUpdates (insertAll ∅ _) h) = _
  rw [applyUpdates, applyUpdates, applyUpdates, overlay_overlay_insertAll]

/-- Transaction `k` of the list is an endorser transaction with that endorsed set. -/
def EndorserTx (ds : List Bytes) (k : Nat) (rw : TxRwSet) : Prop :=
  ∃ d chdr, ds[k]? = some d ∧ channelHeaderOf d = .ok chdr ∧
    chdr.headerType = HeaderType.endorserTransaction ∧ EndorsedRwSet d rw

theorem EndorsedRwSet.unique {rw' : TxRwSet} (h : EndorsedRwSet d rw) (h' : EndorsedRwSet d rw') :
    rw = rw' := by
  obtain ⟨act, hact, hrw⟩ := h
  obtain ⟨act', hact', hrw'⟩ := h'
  obtain rfl := ok.inj (hact.symm.trans hact')
  exact Option.some.inj (hrw.symm.trans hrw')

/-- The endorser transactions valid in the end, in the order of the block. -/
structure ValidOnes (i : Nat) (ds : List Bytes) (flags : TxFlags) (acc : List (Nat × TxRwSet)) :
    Prop where
  ordered : acc.Pairwise fun a b => a.1 < b.1
  complete : ∀ j rw, (j, rw) ∈ acc ↔ ∃ k, j = i + k ∧ FlaggedValid flags j ∧ EndorserTx ds k rw

theorem ValidOnes.skip (h : ValidOnes (i + 1) ds flags acc)
    (hnot : ¬ (FlaggedValid flags i ∧ ∃ rw, EndorserTx [d] 0 rw)) :
    ValidOnes i (d :: ds) flags acc where
  ordered := h.ordered
  complete j rw := by
    rw [h.complete]
    constructor
    · rintro ⟨k, rfl, hv, hk⟩
      exact ⟨k + 1, by omega, hv, hk⟩
    · rintro ⟨k, rfl, hv, hk⟩
      cases k with
      | zero => exact absurd ⟨hv, rw, hk⟩ hnot
      | succ k => exact ⟨k, by omega, hv, hk⟩

theorem ValidOnes.accept (h : ValidOnes (i + 1) ds flags acc) (hv : FlaggedValid flags i)
    (hd : EndorserTx [d] 0 rw) :
    ValidOnes i (d :: ds) flags ((i, rw) :: acc) where
  ordered := by
    refine pairwise_cons.mpr ⟨fun e he => ?_, h.ordered⟩
    obtain ⟨k, hk, -⟩ := (h.complete e.1 e.2).mp he
    omega
  complete j rw' := by
    rw [mem_cons, h.complete]
    constructor
    · rintro (he | ⟨k, rfl, hv', hk⟩)
      · obtain ⟨rfl, rfl⟩ := mk.inj he
        exact ⟨0, rfl, hv, hd⟩
      · exact ⟨k + 1, by omega, hv', hk⟩
    · rintro ⟨k, rfl, hv', hk⟩
      cases k with
      | zero =>
        obtain ⟨d1, _, hd1, -, -, hrw⟩ := hd
        obtain ⟨d2, _, hd2, -, -, hrw'⟩ := hk
        obtain rfl : d1 = d2 := Option.some.inj (hd1.symm.trans hd2)
        exact .inl (by rw [hrw'.unique hrw]; rfl)
      | succ k => exact .inr ⟨k, by omega, hv', hk⟩

/-- The accepted transactions, executed one after the other on a state that agrees with the
validated one on all they read, have the effect of the batch. -/
theorem validateLoop_serial {db : StateDb} (h : Height) {st st' : TxFlags × UpdateBatch}
    (hloop : validateLoop hash db number true i ds st = .ok st')
    (hagree : ∀ k rw, FlaggedValid st'.1 (i + k) → EndorserTx ds k rw →
      ∀ key, ReadsKey rw key → base.getState key.ns key.key = db.getState key.ns key.key) :
    ∃ acc, ValidOnes i ds st'.1 acc ∧
      acc.foldlM (execEndorsed hash number h) (base.applyUpdates st.2 h) =
        some (base.applyUpdates st'.2 h) := by
  induction ds generalizing i st with
  | nil =>
    cases hloop
    refine ⟨[], ⟨List.Pairwise.nil, fun j rw => ?_⟩, rfl⟩
    simp [EndorserTx]
  | cons d ds ih =>
    obtain ⟨mid, hone, hrest⟩ := bind_ok.mp hloop
    obtain ⟨acc, hacc, hexec⟩ := ih hrest fun k rw hv hk =>
      hagree (k + 1) rw (by rwa [show i + (k + 1) = i + 1 + k by omega]) hk
    have hkept : st'.1[i]? = mid.1[i]? := (validateLoop_flags hrest).2.2 i (by omega)
    cases validateOne_cases hone with
    | skipped hv =>
      refine ⟨acc, hacc.skip fun ⟨hv', _⟩ => hv ?_, hexec⟩
      rwa [FlaggedValid, hkept] at hv'
    | other hv hc ht =>
      refine ⟨acc, hacc.skip ?_, hexec⟩
      rintro ⟨-, rw, d', chdr', hd', hc', ht', -⟩
      obtain rfl : d = d' := Option.some.inj hd'
      obtain rfl := ok.inj (hc.symm.trans hc')
      exact ht ht'
    | rejected hv hc ht hne =>
      refine ⟨acc, hacc.skip fun ⟨hv', _⟩ => ?_, hexec⟩
      rw [FlaggedValid, hkept, getElem?_set_self hv.lt] at hv'
      exact toByte_ne_valid hne (Option.some.inj hv')
    | @accepted chdr rw updates hv hc ht hrw hm hu =>
      have hv' : FlaggedValid st'.1 i := by rwa [FlaggedValid, hkept]
      have hd : EndorserTx [d] 0 rw := ⟨d, chdr, rfl, hc, ht, hrw⟩
      refine ⟨(i, rw) :: acc, hacc.accept hv' hd, ?_⟩
      rw [foldlM_cons, execEndorsed_apply h (hm rfl) hu (hagree 0 rw hv' hd)]
      exact hexec

end FabricOev.Ledger
