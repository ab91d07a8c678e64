import FabricOev.Ledger.MvccSerial
import FabricOev.Ledger.QuerySummaries
import FabricOev.Ledger.RwSetRoundTrip

/-!
# Recorded queries and write sets

What validation makes of a recorded range when it runs on the state of the simulation, and
when a decoded write set can be added to a batch. A range that was left before its first
result has no end key, and an empty end key is no bound to the validator.
-/

namespace FabricOev.Ledger

open Go Lib Lib.SortedMerge List ResultsItr RwSetBuilder Wire Std.ExtTreeMap

variable {hash : Bytes → Bytes} {qc : QueryConfig} {db : StateDb} {updates : UpdateBatch}
  {ns : GoString}

/-! ## Valid transactions -/

theorem rangeQueries_eq_true {qs : List RangeQueryInfo} :
    validateRangeQueries hash db updates ns qs = .ok true ↔
      ∀ q ∈ qs, validateRangeQuery hash db updates ns q = .ok true := by
  induction qs with
  | nil => simp [validateRangeQueries]
  | cons q qs ih =>
    rw [validateRangeQueries, forall_mem_cons, ← ih]
    cases hq : validateRangeQuery hash db updates ns q with
    | error f => simp [bind, Except.bind]
    | ok b => cases b <;> simp [bind, Except.bind]

theorem validateTx_eq_valid {rw : TxRwSet} :
    validateTx hash db updates rw = .ok .valid ↔ ∀ s ∈ rw,
      validateReadSet db updates s.ns s.reads = true ∧
        ∀ q ∈ s.rangeQueries, validateRangeQuery hash db updates s.ns q = .ok true := by
  induction rw with
  | nil => simp [validateTx]
  | cons s ss ih =>
    rw [validateTx, forall_mem_cons, ← ih, ← rangeQueries_eq_true]
    cases hreads : validateReadSet db updates s.ns s.reads with
    | false => simp
    | true =>
      cases hq : validateRangeQueries hash db updates s.ns s.rangeQueries with
      | error f => simp [bind, Except.bind]
      | ok b => cases b <;> simp [bind, Except.bind]

namespace RangeCall

def recorded (qc : QueryConfig) (hash : Bytes → Bytes) (r : RangeCall) (db : StateDb) (n : Nat) :
    RangeQueryInfo :=
  { r.info db n with readsInfo := readsInfoOf qc hash (((r.results db).take n).map readOf) }

/-- The iterator was exhausted, or stopped at a key that is not empty; or there is nothing from the
start on, nor under the empty key. -/
def Replays (r : RangeCall) (db : StateDb) (n : Nat) : Prop :=
  (r.results db).length < n ∨ (0 < n ∧ ∀ e, (r.results db)[n - 1]? = some e → e.1 ≠ []) ∨
    ((∀ k, r.startKey ≤ k → db.getState r.ns k = none) ∧ db.getState r.ns [] = none)

variable {r : RangeCall} {n : Nat}

theorem nodup_results (r : RangeCall) (db : StateDb) : (r.results db).Nodup := by
  apply (sorted_scan db.state r.ns r.startKey r.endKey).imp
  intro a b hlt heq
  rw [heq] at hlt
  simp at hlt

/-- The results up to a key that is not empty are those of the range that ends with it. -/
theorem take_eq_scan (hn : n < (r.results db).length) (hkey : ((r.results db)[n]).1 ≠ []) :
    (r.results db).take (n + 1) = scan db.state r.ns r.startKey ((r.results db)[n]).1 ++
        ((db.getState r.ns ((r.results db)[n]).1).map fun v => (((r.results db)[n]).1, v)).toList := by
  have hnodup := nodup_results r db
  have hidx := hnodup.idxOf_getElem n hn
  have hmem : (r.results db)[n] ∈ r.results db := getElem_mem hn
  generalize (r.results db)[n] = e at hmem hkey hidx ⊢
  obtain ⟨k, v⟩ := e
  obtain ⟨hget, hin⟩ := mem_scan.mp hmem
  have hsplit : scan db.state r.ns r.startKey r.endKey = _ := scan_split db.state hin hkey
  have hdb : db.getState r.ns k = some v := hget
  rw [hget] at hsplit
  rw [hdb]
  change r.results db = _ at hsplit
  simp only [Option.map_some, Option.toList_some] at hsplit ⊢
  have hnot : (k, v) ∉ scan db.state r.ns r.startKey k := by
    intro hk
    have hlt := (mem_scan.mp hk).2
    have hlt' : r.startKey ≤ k ∧ k < k := by simpa [inRange, hkey] using hlt
    exact List.lt_irrefl _ hlt'.2
  rw [hsplit, idxOf_append_of_notMem hnot, singleton_append, idxOf_cons_self, Nat.add_zero] at hidx
  rw [hsplit, ← hidx, take_length_add_append]
  rfl

/-- An end key is missing only if nothing was shown, or nothing but the empty key. -/
theorem length_take_le (hend : lastKey ((r.results db).take n) = []) :
    ((r.results db).take n).length ≤ 1 := by
  have hsorted : Sorted ((r.results db).take n) :=
    (sorted_scan db.state r.ns r.startKey r.endKey).sublist (take_sublist n _)
  generalize (r.results db).take n = rs at hend hsorted
  cases rs using reverseRecOn with
  | nil => simp
  | append_singleton rs e =>
    simp only [lastKey, getLast?_concat, Option.map_some, Option.getD_some] at hend
    cases rs with
    | nil => simp
    | cons a rs =>
      have hlt : compare a.1 e.1 = .lt := (pairwise_append.mp hsorted).2.2 a (by simp) e (by simp)
      rw [hend, compare_eq_lt_iff_lt] at hlt
      exact absurd hlt (not_lt_nil _)

theorem lastKey_take (hn : n < (r.results db).length) :
    lastKey ((r.results db).take (n + 1)) = ((r.results db)[n]).1 := by
  rw [take_succ_eq_append_getElem hn, lastKey, getLast?_concat]
  rfl

/-- In terms of what is recorded. -/
theorem replays_iff : r.Replays db n ↔ (r.info db n).itrExhausted = true ∨
    (r.info db n).endKey ≠ [] ∨
    ((∀ k, r.startKey ≤ k → db.getState r.ns k = none) ∧ db.getState r.ns [] = none) := by
  unfold Replays info
  by_cases hlt : (r.results db).length < n
  · simp [hlt]
  · simp only [hlt, false_or, decide_false, if_false, Bool.false_eq_true]
    apply or_congr_left
    cases n with
    | zero => simp [lastKey]
    | succ n =>
      have hn : n < (r.results db).length := by omega
      rw [lastKey_take hn, Nat.add_sub_cancel, getElem?_eq_getElem hn]
      simp

/-- The recorded results, on the state of the query, or none of them and it does not fit. -/
theorem queryReads_recorded (r : RangeCall) (n : Nat) :
    queryReads db r.ns (r.recorded qc hash db n) = ((r.results db).take n).map readOf ↔
      r.Replays db n := by
  rw [replays_iff]
  unfold queryReads recorded
  rw [combinedResults_empty]
  by_cases hlt : (r.results db).length < n
  · have hex : (r.info db n).itrExhausted = true := decide_eq_true hlt
    have hend : (r.info db n).endKey = r.endKey := if_pos hlt
    have htake : (r.results db).take n = r.results db := take_of_length_le hlt.le
    simp only [hex, hend, htake, Bool.not_true, Bool.false_eq_true, if_false, append_nil,
      true_or, iff_true]
    rfl
  · have hex : (r.info db n).itrExhausted = false := decide_eq_false hlt
    have hend : (r.info db n).endKey = lastKey ((r.results db).take n) := if_neg hlt
    simp only [hex, hend, Bool.not_false, if_true, Bool.false_eq_true, false_or]
    by_cases hkey : lastKey ((r.results db).take n) = []
    · -- an unbounded query: it has all that is left in the namespace
      simp only [hkey, ne_eq, not_true_eq_false, false_or]
      have hstart : (r.info db n).startKey = r.startKey := rfl
      have hscan : scan db.state r.ns r.startKey [] = [] ↔
          ∀ k, r.startKey ≤ k → db.getState r.ns k = none := by
        rw [eq_nil_iff_forall_not_mem]
        constructor
        · intro h k hk
          cases hget : db.getState r.ns k with
          | none => rfl
          | some v => exact absurd (mem_scan.mpr ⟨hget, by simp [inRange, hk]⟩) (h (k, v))
        · intro h x hx
          obtain ⟨hget, hin⟩ := mem_scan.mp hx
          have hle : r.startKey ≤ x.1 := by simpa [inRange] using hin
          exact absurd ((h x.1 hle).symm.trans hget) (by simp)
      rw [hstart, ← hscan]
      constructor
      · intro h
        have hlen := congrArg length h
        have hle := length_take_le hkey
        rw [length_map, length_map] at hlen
        cases htake : (r.results db).take n with
        | nil =>
          rw [htake, map_nil, map_eq_nil_iff, append_eq_nil_iff] at h
          refine ⟨h.1, ?_⟩
          simpa using h.2
        | cons e rs =>
          -- the empty key was shown, so it is both in the scan and at its end
          rw [htake] at hle hkey hlen
          obtain rfl : rs = [] := by
            rw [length_cons] at hle
            exact length_eq_zero_iff.mp (by omega)
          simp only [lastKey, getLast?_singleton, Option.map_some, Option.getD_some] at hkey
          have hmem : e ∈ r.results db := mem_of_mem_take (htake ▸ mem_singleton.mpr rfl)
          obtain ⟨hget, hin⟩ := mem_scan.mp (show (e.1, e.2) ∈ r.results db from hmem)
          rw [hkey] at hget hin
          have hdb : db.getState r.ns [] = some e.2 := hget
          have hscan' : ([], e.2) ∈ scan db.state r.ns r.startKey [] := by
            refine mem_scan.mpr ⟨hget, ?_⟩
            have hle : r.startKey ≤ [] := by
              simp only [inRange, Bool.decide_and, Bool.and_eq_true, decide_eq_true_eq] at hin
              exact hin.1
            simp [inRange, hle]
          have hpos := length_pos_of_mem hscan'
          rw [hdb, length_append, Option.map_some, Option.toList_some,
            length_singleton, length_singleton] at hlen
          omega
      · intro h
        obtain ⟨hnil, hnone⟩ := h
        have htake : (r.results db).take n = [] := by
          rw [eq_nil_iff_forall_not_mem]
          intro e he
          obtain ⟨hget, hin⟩ := mem_scan.mp (show (e.1, e.2) ∈ r.results db from
            mem_of_mem_take he)
          have hle : r.startKey ≤ e.1 := by
            simp only [inRange, Bool.decide_and, Bool.and_eq_true, decide_eq_true_eq] at hin
            exact hin.1
          exact absurd ((hscan.mp hnil e.1 hle).symm.trans hget) (by simp)
        rw [htake, hnil, hnone]
        rfl
    · simp only [hkey, ne_eq, not_false_eq_true, true_or, iff_true]
      cases n with
      | zero => simp [lastKey] at hkey
      | succ n =>
        have hn : n < (r.results db).length := by omega
        rw [lastKey_take hn] at hkey ⊢
        rw [take_eq_scan hn hkey]
        rfl

/-- The recorded query is accepted on the state it was made on exactly if it replays. -/
theorem rangeQuery_recorded (r : RangeCall) (n : Nat) :
    validateRangeQuery hash db ∅ r.ns (r.recorded qc hash db n) = .ok true ↔ r.Replays db n := by
  constructor
  · intro h
    have hinfo : (r.recorded qc hash db n).readsInfo =
        readsInfoOf qc hash (((r.results db).take n).map readOf) := rfl
    obtain heq | ⟨m, -, hlen, hdeg, -⟩ := queryReads_of_rangeQuery hinfo h
    · exact (queryReads_recorded r n).mp heq
    · rw [replays_iff]
      rw [length_map] at hlen
      by_cases hlt : (r.results db).length < n
      · exact .inl (decide_eq_true hlt)
      · refine .inr (.inl fun hend => ?_)
        have hkey : lastKey ((r.results db).take n) = [] := (if_neg hlt).symm.trans hend
        have := length_take_le hkey
        omega
  · intro h
    exact rangeQuery_of_queryReads rfl ((queryReads_recorded r n).mpr h)

end RangeCall

theorem ResultsItr.recorded_advance_fresh (r : RangeCall) (n : Nat) :
    ((fresh ((QueryResults.new qc).getD (.raw [])) db r).advance hash n).recorded hash =
      r.recorded qc hash db n := by
  rw [advance_fresh]
  simp only [recorded, RangeCall.recorded, readsInfoOf, foldl_map]

namespace TxSimulator

/-- What a simulator used on one state records for a namespace. -/
structure RecordedIn (qc : QueryConfig) (hash : Bytes → Bytes) (db : StateDb) (cs : List SimCall)
    (s : NsRwSet) : Prop where
  reads : ∀ rd, rd ∈ s.reads ↔
    .getState s.ns rd.key ∈ cs ∧ rd.version = (db.getState s.ns rd.key).map (·.version)
  writes : ∀ w, w ∈ s.writes ↔ ∃ v, lastWrite cs s.ns w.key = some v ∧ w = ⟨w.key, v.isNone, v⟩
  queries : Kept hash (itrsAfter qc hash db cs) s.ns s.rangeQueries

variable {cs : List SimCall} {s : NsRwSet}

theorem recordedIn_of_mem (hs : s ∈ (after qc hash db cs).rwSet hash) :
    RecordedIn qc hash db cs s := by
  obtain ⟨v, hv, heq⟩ := mem_getTxReadWriteSet.mp hs
  have hget : getOrCreateNsRw (done hash (after qc hash db cs)) s.ns = v := by
    rw [getOrCreateNsRw, hv]
    rfl
  have hrec := done_after qc hash db cs s.ns
  rw [hget] at hrec
  obtain ⟨⟨hreads, hwrites⟩, hkept⟩ := hrec
  refine ⟨fun rd => ?_, fun w => ?_, ?_⟩
  · rw [heq, mem_map]
    constructor
    · intro h
      obtain ⟨⟨key, rd'⟩, hmem, rfl⟩ := h
      have hkey := mem_toList_iff_getElem?_eq_some.mp hmem
      rw [hreads] at hkey
      split at hkey
      · rename_i hc
        cases hkey
        exact ⟨hc, rfl⟩
      · cases hkey
    · intro h
      refine ⟨(rd.key, rd), mem_toList_iff_getElem?_eq_some.mpr ?_, rfl⟩
      rw [hreads, if_pos h.1, ← h.2]
  · rw [heq, mem_map]
    constructor
    · intro h
      obtain ⟨⟨key, w'⟩, hmem, rfl⟩ := h
      have hkey := mem_toList_iff_getElem?_eq_some.mp hmem
      rw [hwrites] at hkey
      obtain ⟨v, hlast, rfl⟩ := Option.map_eq_some_iff.mp hkey
      exact ⟨v, hlast, rfl⟩
    · intro h
      obtain ⟨v, hlast, hw⟩ := h
      refine ⟨(w.key, w), mem_toList_iff_getElem?_eq_some.mpr ?_, rfl⟩
      rw [hwrites, hlast, Option.map_some, ← hw]
  · rw [heq]
    exact hkept

variable {ns : GoString} {j : Nat}

theorem exists_mem_rwSet
    (h : RwSetBuilder.getOrCreateNsRw (done hash (after qc hash db cs)) ns ≠ NsRws.empty) :
    ∃ s ∈ (after qc hash db cs).rwSet hash, s.ns = ns := by
  cases hb : (done hash (after qc hash db cs))[ns]? with
  | none =>
    rw [getOrCreateNsRw, hb] at h
    exact absurd rfl h
  | some v =>
    refine ⟨⟨ns, v.readMap.toList.map (·.2), v.rangeQueries, v.writeMap.toList.map (·.2)⟩, ?_, rfl⟩
    exact mem_getTxReadWriteSet.mpr ⟨v, hb, rfl⟩

theorem exists_mem_of_lastWrite (qc : QueryConfig) (hash : Bytes → Bytes) (db : StateDb)
    {key : GoString} {v : Option Bytes} (h : lastWrite cs ns key = some v) :
    ∃ s ∈ (after qc hash db cs).rwSet hash, s.ns = ns := by
  apply exists_mem_rwSet
  intro hempty
  have hw := (done_after qc hash db cs ns).1.writes key
  rw [hempty, h] at hw
  simp [NsRws.empty] at hw

theorem exists_mem_of_itr {it : ResultsItr} (h : (itrsAfter qc hash db cs)[j]? = some it) :
    ∃ s ∈ (after qc hash db cs).rwSet hash, s.ns = it.ns := by
  apply exists_mem_rwSet
  intro hempty
  obtain ⟨i, it', -, -, -, hmem, -⟩ := (done_after qc hash db cs it.ns).2.complete j it h rfl
  rw [hempty] at hmem
  cases hmem

/-- Every query of the read-write set is that of a range that was asked for. -/
theorem RecordedIn.query (hs : RecordedIn qc hash db cs s) {q : RangeQueryInfo}
    (hq : q ∈ s.rangeQueries) :
    ∃ (j : Nat) (r : RangeCall), (rangeCalls qc cs)[j]? = some r ∧ r.ns = s.ns ∧
      q = r.recorded qc hash db (cs.count (.next j)) := by
  obtain ⟨it, hit, hns, rfl⟩ := hs.queries.sound q hq
  obtain ⟨j, hj⟩ := mem_iff_getElem?.mp hit
  rw [getElem?_itrsAfter] at hj
  obtain ⟨r, hr, rfl⟩ := Option.map_eq_some_iff.mp hj
  rw [advance_fresh_ns] at hns
  exact ⟨j, r, hr, hns, recorded_advance_fresh r _⟩

/-- The set has the query of every range, or an earlier one with the same keys. -/
theorem exists_query (hash : Bytes → Bytes) (db : StateDb) {r : RangeCall}
    (hr : (rangeCalls qc cs)[j]? = some r) :
    ∃ s ∈ (after qc hash db cs).rwSet hash, ∃ (i : Nat) (r' : RangeCall),
      i ≤ j ∧ (rangeCalls qc cs)[i]? = some r' ∧ s.ns = r.ns ∧ r'.ns = r.ns ∧
      r'.recorded qc hash db (cs.count (.next i)) ∈ s.rangeQueries ∧
      (r.recorded qc hash db (cs.count (.next j))).sameKey
        (r'.recorded qc hash db (cs.count (.next i))) = true := by
  have hj : (itrsAfter qc hash db cs)[j]? =
      some ((fresh ((QueryResults.new qc).getD (.raw [])) db r).advance hash
        (cs.count (.next j))) := by
    rw [getElem?_itrsAfter, hr, Option.map_some]
  obtain ⟨s, hs, hns⟩ := exists_mem_of_itr hj
  rw [advance_fresh_ns] at hns
  obtain ⟨i, it, hij, hi, hit, hmem, hsame⟩ := (recordedIn_of_mem hs).queries.complete j _ hj
    (by rw [advance_fresh_ns, hns])
  rw [getElem?_itrsAfter] at hi
  obtain ⟨r', hr', rfl⟩ := Option.map_eq_some_iff.mp hi
  rw [advance_fresh_ns] at hit
  rw [recorded_advance_fresh] at hmem hsame
  rw [recorded_advance_fresh] at hsame
  exact ⟨s, hs, i, r', hij, hr', hns, hit.trans hns, hmem, hsame⟩

end TxSimulator

theorem foldlM_isOk {α β : Type} {step : β → α → Result β} {P : α → Prop}
    (h : ∀ b a, (∃ b', step b a = .ok b') ↔ P a) (l : List α) (b : β) :
    (∃ b', l.foldlM step b = .ok b') ↔ ∀ a ∈ l, P a := by
  induction l generalizing b with
  | nil => simp [pure, Except.pure]
  | cons a l ih =>
    rw [foldlM_cons, forall_mem_cons, ← h b a]
    cases hstep : step b a with
    | error f => simp [bind, Except.bind]
    | ok b' =>
      rw [← ih b']
      simp [bind, Except.bind]

theorem addWrite_isOk {h : Height} (b : UpdateBatch) (w : KvWrite) :
    (∃ b', addWrite ns h b w = .ok b') ↔ w.isDelete = true ∨ w.value ≠ none := by
  unfold addWrite UpdateBatch.put
  cases w.isDelete with
  | true => simp
  | false => cases w.value <;> simp [Result.panicWith]

/-- A write set can be added to a batch if its writes are deletes or have a value. -/
theorem addWriteSet_isOk (rw : TxRwSet) (h : Height) (b : UpdateBatch) :
    (∃ b', addWriteSetToBatch rw h b = .ok b') ↔
      ∀ s ∈ rw, ∀ w ∈ s.writes, w.isDelete = true ∨ w.value ≠ none := by
  unfold addWriteSetToBatch
  rw [foldlM_isOk fun b (s : NsRwSet) => foldlM_isOk addWrite_isOk s.writes b]

theorem nonNil_ne_none {b : Bytes} : nonNil b ≠ none ↔ b ≠ [] := by
  unfold nonNil
  split
  · rename_i h
    simp [h]
  · rename_i h
    simp [h]

/-- The recorded writes, decoded, can be added unless one of them sets an empty value. -/
theorem addReceived_isOk (qc : QueryConfig) (hash : Bytes → Bytes) (db : StateDb)
    (cs : List SimCall) (h : Height) (b : UpdateBatch) :
    (∃ b', addWriteSetToBatch (((TxSimulator.after qc hash db cs).rwSet hash).received) h b =
      .ok b') ↔ ∀ ns key, TxSimulator.lastWrite cs ns key ≠ some (some []) := by
  rw [addWriteSet_isOk]
  constructor
  · intro hall ns key hlast
    obtain ⟨s, hs, rfl⟩ := TxSimulator.exists_mem_of_lastWrite qc hash db hlast
    have hw : (⟨key, false, some []⟩ : KvWrite) ∈ s.writes :=
      ((TxSimulator.recordedIn_of_mem hs).writes _).mpr ⟨some [], hlast, rfl⟩
    have := hall s.received (mem_map_of_mem hs) (KvWrite.received ⟨key, false, some []⟩)
      (mem_map_of_mem hw)
    simp [KvWrite.received, nonNil_ne_none] at this
  · intro hall s' hs' w' hw'
    obtain ⟨s, hs, rfl⟩ := mem_map.mp hs'
    obtain ⟨w, hw, rfl⟩ := mem_map.mp hw'
    obtain ⟨v, hlast, hweq⟩ := ((TxSimulator.recordedIn_of_mem hs).writes w).mp hw
    rw [hweq]
    cases v with
    | none => exact .inl rfl
    | some v =>
      right
      have hne : v ≠ [] := fun hnil => hall s.ns w.key (hnil ▸ hlast)
      exact nonNil_ne_none.mpr hne

end FabricOev.Ledger
