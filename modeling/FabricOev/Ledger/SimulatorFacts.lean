import FabricOev.Ledger.RangeScan
import FabricOev.Ledger.Simulator

/-!
# What a simulator has recorded

A simulator used on one state, in closed form: its builder is the fold of what the calls
read and write, and its iterators are the ones that were made, each advanced as often as it
was asked to. From it, that two states which agree on what the calls look at give the same
answers and the same read-write set.
-/

namespace FabricOev.Ledger

open Go Lib List RwSetBuilder SimCall FinMap

/-- The arguments of `GetStateRangeScanIterator`. -/
structure RangeCall where
  ns : GoString
  startKey : GoString
  endKey : GoString
deriving DecidableEq, Repr

def readOf (e : GoString × VersionedValue) : KvRead := ⟨e.1, some e.2.version⟩

def lastKey (rs : List (GoString × VersionedValue)) : GoString := (rs.getLast?.map (·.1)).getD []

namespace RangeCall

def results (r : RangeCall) (db : StateDb) : List (GoString × VersionedValue) :=
  scan db.state r.ns r.startKey r.endKey

/-- What is recorded of the range after `n` calls of `Next`. -/
def info (r : RangeCall) (db : StateDb) (n : Nat) : RangeQueryInfo :=
  ⟨r.startKey, if (r.results db).length < n then r.endKey else lastKey ((r.results db).take n),
    (r.results db).length < n, .absent⟩

end RangeCall

namespace ResultsItr

variable {hash : Bytes → Bytes}

def fresh (results : QueryResults) (db : StateDb) (r : RangeCall) : ResultsItr :=
  ⟨r.ns, r.endKey, r.results db, ⟨r.startKey, [], false, .absent⟩, results⟩

def advance (hash : Bytes → Bytes) (it : ResultsItr) : Nat → ResultsItr
  | 0 => it
  | n + 1 => ((it.advance hash n).next hash).2

theorem next_fst (it : ResultsItr) : (it.next hash).1 = it.dbItr.head? := by
  unfold next
  cases it.dbItr <;> rfl

variable (results : QueryResults)

theorem advance_fresh (db : StateDb) (r : RangeCall) (n : Nat) :
    (fresh results db r).advance hash n = ⟨r.ns, r.endKey, (r.results db).drop n, r.info db n,
        ((r.results db).take n).foldl (fun q e => q.addResult hash (readOf e)) results⟩ := by
  induction n with
  | zero => simp [advance, fresh, RangeCall.info, lastKey]
  | succ n ih =>
    rw [advance, ih]
    by_cases hn : n < (r.results db).length
    · have hdrop := drop_eq_getElem_cons hn
      have htake : (r.results db).take (n + 1) = (r.results db).take n ++ [(r.results db)[n]] :=
        take_succ_eq_append_getElem hn
      have hnot : ¬ (r.results db).length < n := by omega
      have hnot' : ¬ (r.results db).length < n + 1 := by omega
      rw [next, hdrop]
      simp only [RangeCall.info, htake, hnot, hnot', decide_false, if_false, foldl_append,
        foldl_cons, foldl_nil, lastKey, getLast?_concat]
      rfl
    · have hdrop : (r.results db).drop n = [] := drop_eq_nil_of_le (by omega)
      have hdrop' : (r.results db).drop (n + 1) = [] := drop_eq_nil_of_le (by omega)
      have htake : (r.results db).take n = r.results db := take_of_length_le (by omega)
      have htake' : (r.results db).take (n + 1) = r.results db := take_of_length_le (by omega)
      have hlt : (r.results db).length < n + 1 := by omega
      rw [next, hdrop]
      simp [RangeCall.info, hdrop', htake, htake', hlt]

theorem next_advance_fresh (db : StateDb) (r : RangeCall) (n : Nat) :
    (((fresh results db r).advance hash n).next hash).1 = (r.results db)[n]? := by
  rw [next_fst, advance_fresh]
  exact head?_drop

theorem advance_fresh_ns (db : StateDb) (r : RangeCall) (n : Nat) :
    ((fresh results db r).advance hash n).ns = r.ns := by
  rw [advance_fresh]

end ResultsItr

theorem newResultsItr_eq (qc : QueryConfig) (db : StateDb) (r : RangeCall) :
    newResultsItr qc db r.ns r.startKey r.endKey =
      (QueryResults.new qc).map fun q => ResultsItr.fresh q db r := by
  unfold newResultsItr
  cases QueryResults.new qc <;> rfl

/-! ## Simulators -/

def SimCall.rangeCall : SimCall → Option RangeCall
  | .getStateRangeScanIterator ns startKey endKey => some ⟨ns, startKey, endKey⟩
  | _ => none

/-- The ranges for which iterators are made, in order; all fail if one does. -/
def rangeCalls (qc : QueryConfig) (cs : List SimCall) : List RangeCall :=
  if (QueryResults.new qc).isSome then cs.filterMap SimCall.rangeCall else []

namespace TxSimulator

variable {qc : QueryConfig} {hash : Bytes → Bytes} {db db' : StateDb} {cs : List SimCall}
  {c : SimCall} {sim : TxSimulator} {as : List (Answer VersionedValue)}

def record (db : StateDb) (b : RwSetBuilder) : SimCall → RwSetBuilder
  | .getState ns key => b.addToReadSet ns key ((db.getState ns key).map (·.version))
  | .setState ns key value => b.addToWriteSet ns key value
  | _ => b

def itrsAfter (qc : QueryConfig) (hash : Bytes → Bytes) (db : StateDb) (cs : List SimCall) :
    List ResultsItr :=
  (rangeCalls qc cs).mapIdx fun j r =>
    (ResultsItr.fresh ((QueryResults.new qc).getD (.raw [])) db r).advance hash (cs.count (.next j))

def after (qc : QueryConfig) (hash : Bytes → Bytes) (db : StateDb) (cs : List SimCall) :
    TxSimulator :=
  ⟨cs.foldl (record db) ∅, itrsAfter qc hash db cs⟩

/-- Every iterator that is advanced was made before. -/
def Made (qc : QueryConfig) (cs : List SimCall) : Prop :=
  ∀ j, .next j ∈ cs → j < (rangeCalls qc cs).length

theorem calls_append (xs ys : List SimCall) (sim : TxSimulator) :
    calls qc hash db (xs ++ ys) sim =
      (calls qc hash db xs sim >>= fun p => calls qc hash db ys p.2 >>= fun q =>
        .ok (p.1 ++ q.1, q.2)) := by
  induction xs generalizing sim with
  | nil =>
    show calls qc hash db ys sim = (calls qc hash db ys sim >>= fun q => .ok ([] ++ q.1, q.2))
    cases calls qc hash db ys sim <;> rfl
  | cons c xs ih =>
    rw [cons_append, calls, calls]
    cases sim.call qc hash db c with
    | error f => rfl
    | ok p =>
      show (calls qc hash db (xs ++ ys) p.2 >>= _) = _
      rw [ih]
      cases hxs : calls qc hash db xs p.2 with
      | error f => simp [bind, Except.bind, hxs]
      | ok q => cases hys : calls qc hash db ys q.2 <;> simp [bind, Except.bind, hxs, hys]

theorem calls_concat_eq_ok {fin : TxSimulator}
    (h : calls qc hash db (cs ++ [c]) sim = .ok (as, fin)) :
    ∃ as' mid a, calls qc hash db cs sim = .ok (as', mid) ∧
      mid.call qc hash db c = .ok (a, fin) ∧ as = as' ++ [a] := by
  rw [calls_append] at h
  obtain ⟨⟨as', mid⟩, hcs, h⟩ := bind_ok.mp h
  obtain ⟨⟨bs, last⟩, hc, h⟩ := bind_ok.mp h
  obtain ⟨⟨a, next⟩, hcall, hc⟩ := bind_ok.mp hc
  cases hc
  cases h
  exact ⟨as', mid, a, hcs, hcall, rfl⟩

variable (qc cs c) in
theorem rangeCalls_concat :
    rangeCalls qc (cs ++ [c]) =
      rangeCalls qc cs ++ if (QueryResults.new qc).isSome then c.rangeCall.toList else [] := by
  unfold rangeCalls
  split
  · cases hc : c.rangeCall <;> simp [hc]
  · rfl

theorem count_next_concat_of_ne {j : Nat} (h : c ≠ .next j) :
    (cs ++ [c]).count (.next j) = cs.count (.next j) := by
  rw [count_append, count_singleton, if_neg (by simpa using h), Nat.add_zero]

theorem itrsAfter_concat_other (hr : c.rangeCall = none) (hn : ∀ j, c ≠ .next j) :
    itrsAfter qc hash db (cs ++ [c]) = itrsAfter qc hash db cs := by
  simp only [itrsAfter, rangeCalls_concat, hr, Option.toList_none, ite_self, append_nil,
    count_next_concat_of_ne (hn _)]

theorem length_itrsAfter (cs : List SimCall) :
    (itrsAfter qc hash db cs).length = (rangeCalls qc cs).length :=
  length_mapIdx

theorem itrsAfter_concat_range (hash : Bytes → Bytes) (db : StateDb) (hmade : Made qc cs)
    {q : QueryResults} (hq : QueryResults.new qc = some q) (r : RangeCall) :
    itrsAfter qc hash db (cs ++ [.getStateRangeScanIterator r.ns r.startKey r.endKey]) =
      itrsAfter qc hash db cs ++ [ResultsItr.fresh q db r] := by
  have hnone : cs.count (.next (rangeCalls qc cs).length) = 0 := by
    apply count_eq_zero.mpr
    intro hmem
    have := hmade _ hmem
    omega
  have hcount : ∀ j, (cs ++ [getStateRangeScanIterator r.ns r.startKey r.endKey]).count
      (next j) = cs.count (.next j) := fun j => count_next_concat_of_ne (by simp)
  simp only [itrsAfter, rangeCalls_concat, hq, Option.isSome_some, if_true, rangeCall,
    Option.toList_some, mapIdx_concat, hcount, hnone, Option.getD_some]
  rfl

theorem getElem?_itrsAfter (cs : List SimCall) (j : Nat) :
    (itrsAfter qc hash db cs)[j]? = ((rangeCalls qc cs)[j]?).map fun r =>
      (ResultsItr.fresh ((QueryResults.new qc).getD (.raw [])) db r).advance hash
        (cs.count (.next j)) :=
  getElem?_mapIdx

variable {it : ResultsItr}

theorem itrsAfter_concat_next {i : Nat} (hit : (itrsAfter qc hash db cs)[i]? = some it) :
    itrsAfter qc hash db (cs ++ [.next i]) = (itrsAfter qc hash db cs).set i (it.next hash).2 := by
  apply ext_getElem?
  intro j
  have hr : rangeCalls qc (cs ++ [.next i]) = rangeCalls qc cs := by
    simp [rangeCalls_concat, rangeCall]
  by_cases hij : i = j
  · subst hij
    have hlt : i < (itrsAfter qc hash db cs).length := lt_length hit
    rw [getElem?_itrsAfter] at hit
    obtain ⟨r, hri, rfl⟩ := Option.map_eq_some_iff.mp hit
    rw [getElem?_set_self hlt, getElem?_itrsAfter, hr, hri, count_append, count_singleton_self]
    rfl
  · rw [getElem?_set_ne hij, getElem?_itrsAfter, getElem?_itrsAfter, hr,
      count_next_concat_of_ne (by simpa using hij)]

def answerAfter (qc : QueryConfig) (db : StateDb) (cs : List SimCall) :
    SimCall → Answer VersionedValue
  | .getState ns key => .value (db.getState ns key)
  | .setState _ _ _ => .written
  | .getStateRangeScanIterator _ _ _ =>
    .iterator (if (QueryResults.new qc).isSome then some (rangeCalls qc cs).length else none)
  | .next i => .entry (((rangeCalls qc cs)[i]?).bind fun r => (r.results db)[cs.count (.next i)]?)

theorem Made.concat (hmade : Made qc cs) (hc : ∀ i, c = .next i → i < (rangeCalls qc cs).length) :
    Made qc (cs ++ [c]) := by
  intro j hj
  rw [rangeCalls_concat, length_append]
  obtain hj | hj := mem_append.mp hj
  · have := hmade j hj
    omega
  · have := hc j (mem_singleton.mp hj).symm
    omega

theorem after_concat (cs : List SimCall) (c : SimCall) :
    after qc hash db (cs ++ [c]) =
      ⟨record db (cs.foldl (record db) ∅) c, itrsAfter qc hash db (cs ++ [c])⟩ := by
  rw [after, foldl_append]
  rfl

theorem call_after (hmade : Made qc cs) (hc : ∀ i, c = .next i → i < (rangeCalls qc cs).length) :
    (after qc hash db cs).call qc hash db c =
      .ok (answerAfter qc db cs c, after qc hash db (cs ++ [c])) := by
  cases c with
  | getState ns key | setState ns key value =>
    rw [after_concat, itrsAfter_concat_other rfl (by simp)]
    rfl
  | getStateRangeScanIterator ns startKey endKey =>
    have hnew := newResultsItr_eq qc db ⟨ns, startKey, endKey⟩
    cases hq : QueryResults.new qc with
    | none =>
      have hitrs : itrsAfter qc hash db (cs ++ [.getStateRangeScanIterator ns startKey endKey]) =
          itrsAfter qc hash db cs := by
        simp [itrsAfter, rangeCalls, hq]
      rw [after_concat, hitrs]
      simp only [call, hnew, answerAfter, hq]
      rfl
    | some q =>
      have hitrs := itrsAfter_concat_range hash db hmade hq ⟨ns, startKey, endKey⟩
      rw [after_concat, hitrs]
      simp only [call, hnew, answerAfter, hq, after, length_itrsAfter]
      rfl
  | next i =>
    have hlt : i < (itrsAfter qc hash db cs).length := by
      rw [length_itrsAfter]
      exact hc i rfl
    have hit := getElem?_eq_getElem hlt
    have hnext := itrsAfter_concat_next hit
    have hfst : (((itrsAfter qc hash db cs)[i]).next hash).1 =
        ((rangeCalls qc cs)[i]?).bind fun r => (r.results db)[cs.count (.next i)]? := by
      rw [getElem?_itrsAfter] at hit
      obtain ⟨r, hri, hr⟩ := Option.map_eq_some_iff.mp hit
      rw [← hr, ResultsItr.next_advance_fresh, hri]
      rfl
    rw [after_concat, hnext]
    simp only [call, after, hit, answerAfter, ← hfst]
    rfl

theorem next_lt {a : Answer VersionedValue}
    (h : (after qc hash db cs).call qc hash db c = .ok (a, sim)) :
    ∀ i, c = .next i → i < (rangeCalls qc cs).length := by
  intro i hi
  subst hi
  obtain ⟨it, hit, -⟩ := bind_ok.mp h
  have hlen := lt_length (deref_eq_ok hit)
  exact hlen.trans_eq (length_itrsAfter cs)

/-- Calls from a new simulator, in closed form. -/
theorem calls_new (h : new.calls qc hash db cs = .ok (as, sim)) :
    sim = after qc hash db cs ∧ Made qc cs := by
  induction cs using reverseRecOn generalizing as sim with
  | nil =>
    cases h
    refine ⟨?_, fun j hj => by simp at hj⟩
    simp [after, itrsAfter, rangeCalls, new]
  | append_singleton cs c ih =>
    obtain ⟨as', mid, a, hcs, hc, -⟩ := calls_concat_eq_ok h
    obtain ⟨rfl, hmade⟩ := ih hcs
    have hlt := next_lt hc
    rw [call_after hmade hlt] at hc
    exact ⟨(Prod.mk.inj (Except.ok.inj hc)).2.symm, hmade.concat hlt⟩

/-- The states agree on the keys read, and on as many results of a range as are asked for. -/
structure Agree (qc : QueryConfig) (db db' : StateDb) (cs : List SimCall) : Prop where
  keys : ∀ ns key, .getState ns key ∈ cs → db.getState ns key = db'.getState ns key
  ranges : ∀ (j : Nat) r, (rangeCalls qc cs)[j]? = some r → ∀ m, m < cs.count (.next j) →
    (r.results db)[m]? = (r.results db')[m]?

end TxSimulator

/-! ## The read-write set -/

theorem RwSetBuilder.getNsRw_insert (b : RwSetBuilder) (ns ns' : GoString) (s : NsRws) :
    RwSetBuilder.getOrCreateNsRw (b.insert ns s) ns' =
      if ns = ns' then s else b.getOrCreateNsRw ns' := by
  unfold getOrCreateNsRw
  rw [getElem?_insert_eq]
  split
  · rfl
  · rfl

def SimCall.valueFor (ns key : GoString) : SimCall → Option (Option Bytes)
  | .setState ns' key' value => if ns' = ns ∧ key' = key then some value else none
  | _ => none

theorem RwSetBuilder.mem_getTxReadWriteSet {b : RwSetBuilder} {s : NsRwSet} :
    s ∈ b.getTxReadWriteSet ↔ ∃ v, b[s.ns]? = some v ∧
      s = ⟨s.ns, v.readMap.toList.map (·.2), v.rangeQueries, v.writeMap.toList.map (·.2)⟩ := by
  unfold getTxReadWriteSet
  rw [mem_map]
  constructor
  · intro h
    obtain ⟨⟨ns, v⟩, hmem, rfl⟩ := h
    exact ⟨v, Std.ExtTreeMap.mem_toList_iff_getElem?_eq_some.mp hmem, rfl⟩
  · intro h
    obtain ⟨v, hv, hs⟩ := h
    exact ⟨(s.ns, v), Std.ExtTreeMap.mem_toList_iff_getElem?_eq_some.mpr hv, hs.symm⟩

namespace TxSimulator

variable {qc : QueryConfig} {hash : Bytes → Bytes} {db : StateDb}

def lastWrite (cs : List SimCall) (ns key : GoString) : Option (Option Bytes) :=
  (cs.filterMap (SimCall.valueFor ns key)).getLast?

theorem lastWrite_concat (cs : List SimCall) (c : SimCall) (ns key : GoString) :
    lastWrite (cs ++ [c]) ns key = (c.valueFor ns key).or (lastWrite cs ns key) := by
  unfold lastWrite
  cases hc : c.valueFor ns key <;> simp [hc]

/-- The versions of the keys that were read, and the values set last. -/
structure Recorded (db : StateDb) (cs : List SimCall) (ns : GoString) (s : NsRws) : Prop where
  reads : ∀ key, s.readMap[key]? = if .getState ns key ∈ cs then
    some ⟨key, (db.getState ns key).map (·.version)⟩ else none
  writes : ∀ key, s.writeMap[key]? = (lastWrite cs ns key).map fun v => ⟨key, v.isNone, v⟩

theorem recorded_foldl (db : StateDb) (cs : List SimCall) (ns : GoString) :
    Recorded db cs ns (RwSetBuilder.getOrCreateNsRw (cs.foldl (record db) ∅) ns) ∧
      (RwSetBuilder.getOrCreateNsRw (cs.foldl (record db) ∅) ns).rangeQueries = [] := by
  induction cs using reverseRecOn with
  | nil =>
    have hempty : getOrCreateNsRw ∅ ns = NsRws.empty := by simp [getOrCreateNsRw]
    rw [foldl_nil, hempty]
    refine ⟨⟨fun key => ?_, fun key => ?_⟩, rfl⟩
    · simp [NsRws.empty]
    · simp [NsRws.empty, lastWrite]
  | append_singleton cs c ih =>
    obtain ⟨⟨hreads, hwrites⟩, hqueries⟩ := ih
    rw [foldl_append, foldl_cons, foldl_nil]
    cases c with
    | getState ns' key' =>
      simp only [record, addToReadSet, getNsRw_insert]
      by_cases hns : ns' = ns
      · subst hns
        rw [if_pos rfl]
        refine ⟨⟨fun key => ?_, fun key => ?_⟩, hqueries⟩
        · by_cases hk : key' = key
          · simp [hk]
          · simp [getElem?_insert_eq, hk, hreads, Ne.symm hk]
        · rw [lastWrite_concat]
          exact hwrites key
      · rw [if_neg hns]
        refine ⟨⟨fun key => ?_, fun key => ?_⟩, hqueries⟩
        · simp [hreads, Ne.symm hns]
        · rw [lastWrite_concat]
          exact hwrites key
    | setState ns' key' value =>
      simp only [record, addToWriteSet, getNsRw_insert]
      by_cases hns : ns' = ns
      · subst hns
        rw [if_pos rfl]
        refine ⟨⟨fun key => ?_, fun key => ?_⟩, hqueries⟩
        · simp [hreads]
        · by_cases hk : key' = key
          · simp [hk, lastWrite_concat, valueFor]
          · simp [getElem?_insert_eq, hk, lastWrite_concat, valueFor, hwrites]
      · rw [if_neg hns]
        refine ⟨⟨fun key => ?_, fun key => ?_⟩, hqueries⟩
        · simp [hreads]
        · simp [lastWrite_concat, valueFor, hns, hwrites]
    | getStateRangeScanIterator ns' startKey endKey | next i =>
      refine ⟨⟨fun key => ?_, fun key => ?_⟩, hqueries⟩
      · simp [record, hreads]
      · simp [record, hwrites, lastWrite_concat, valueFor]

/-- Of the queries with one key, `done` keeps that of the iterator made first. -/
structure Kept (hash : Bytes → Bytes) (itrs : List ResultsItr) (ns : GoString)
    (qs : List RangeQueryInfo) : Prop where
  sound : ∀ q ∈ qs, ∃ it ∈ itrs, it.ns = ns ∧ q = it.recorded hash
  complete : ∀ (j : Nat) it, itrs[j]? = some it → it.ns = ns → ∃ i it', i ≤ j ∧
    itrs[i]? = some it' ∧ it'.ns = ns ∧ it'.recorded hash ∈ qs ∧
      (it.recorded hash).sameKey (it'.recorded hash) = true

/-- One more iterator, whose query is in the list or has its key there. -/
theorem Kept.concat {itrs : List ResultsItr} {ns : GoString} {qs qs' : List RangeQueryInfo}
    (h : Kept hash itrs ns qs) (hsub : ∀ q ∈ qs, q ∈ qs')
    (hsound : ∀ q ∈ qs', q ∈ qs ∨ (it.ns = ns ∧ q = it.recorded hash))
    (hnew : it.ns = ns → it.recorded hash ∈ qs' ∨ ∃ q ∈ qs, (it.recorded hash).sameKey q = true) :
    Kept hash (itrs ++ [it]) ns qs' := by
  constructor
  · intro q hq
    obtain hq | hq := hsound q hq
    · obtain ⟨it', hmem, hns, rfl⟩ := h.sound q hq
      exact ⟨it', mem_append_left _ hmem, hns, rfl⟩
    · exact ⟨it, by simp, hq⟩
  · intro j it' hj hns
    by_cases hlt : j < itrs.length
    · rw [getElem?_append_left hlt] at hj
      obtain ⟨i, kept, hi, hki, hkns, hmem, hsame⟩ := h.complete j it' hj hns
      refine ⟨i, kept, hi, ?_, hkns, hsub _ hmem, hsame⟩
      rw [getElem?_append_left (by omega)]
      exact hki
    · have hjlen : j < (itrs ++ [it]).length := lt_length hj
      obtain rfl : j = itrs.length := by
        rw [length_append, length_singleton] at hjlen
        omega
      rw [getElem?_concat_length] at hj
      cases hj
      obtain hmem | hq := hnew hns
      · exact ⟨_, it, le_refl _, getElem?_concat_length, hns, hmem, by
          simp [RangeQueryInfo.sameKey]⟩
      · obtain ⟨q, hq, hsame⟩ := hq
        obtain ⟨kept, hkmem, hkns, rfl⟩ := h.sound q hq
        obtain ⟨i, hi⟩ := mem_iff_getElem?.mp hkmem
        have hilt := lt_length hi
        refine ⟨i, kept, hilt.le, ?_, hkns, hsub _ hq, hsame⟩
        rw [getElem?_append_left hilt]
        exact hi

theorem done_spec (hash : Bytes → Bytes) (b : RwSetBuilder) (itrs : List ResultsItr)
    (hb : ∀ ns, (b.getOrCreateNsRw ns).rangeQueries = []) (ns : GoString) :
    let s := getOrCreateNsRw (done hash ⟨b, itrs⟩) ns
    s.readMap = (b.getOrCreateNsRw ns).readMap ∧ s.writeMap = (b.getOrCreateNsRw ns).writeMap ∧
      Kept hash itrs ns s.rangeQueries := by
  induction itrs using reverseRecOn with
  | nil =>
    refine ⟨rfl, rfl, fun q hq => ?_, fun j it hj => by simp at hj⟩
    rw [show (getOrCreateNsRw (done hash ⟨b, []⟩) ns).rangeQueries = [] from hb ns] at hq
    cases hq
  | append_singleton itrs it ih =>
    obtain ⟨hreads, hwrites, hkept⟩ := ih
    have hdone : done hash ⟨b, itrs ++ [it]⟩ =
        (done hash ⟨b, itrs⟩).addToRangeQuerySet it.ns (it.recorded hash) := by
      rw [done, foldl_append]
      rfl
    rw [hdone]
    simp only [addToRangeQuerySet, getNsRw_insert]
    by_cases hns : it.ns = ns
    · subst hns
      rw [if_pos rfl]
      split
      · rename_i hany
        refine ⟨hreads, hwrites, hkept.concat (fun q hq => hq) (fun q hq => .inl hq) fun _ => ?_⟩
        exact .inr (any_eq_true.mp hany)
      · refine ⟨hreads, hwrites, hkept.concat (fun q hq => mem_append_left _ hq) ?_
          fun _ => .inl (by simp)⟩
        intro q hq
        obtain hq | hq := mem_append.mp hq
        · exact .inl hq
        · exact .inr ⟨rfl, mem_singleton.mp hq⟩
    · rw [if_neg hns]
      exact ⟨hreads, hwrites, hkept.concat (fun q hq => hq) (fun q hq => .inl hq)
        fun h => absurd h hns⟩

theorem done_after (qc : QueryConfig) (hash : Bytes → Bytes) (db : StateDb) (cs : List SimCall)
    (ns : GoString) :
    let s := getOrCreateNsRw (done hash (after qc hash db cs)) ns
    Recorded db cs ns s ∧ Kept hash (itrsAfter qc hash db cs) ns s.rangeQueries := by
  obtain ⟨hreads, hwrites, hkept⟩ := done_spec hash (cs.foldl (record db) ∅)
    (itrsAfter qc hash db cs) (fun ns => (recorded_foldl db cs ns).2) ns
  have hrec := (recorded_foldl db cs ns).1
  refine ⟨⟨fun key => ?_, fun key => ?_⟩, hkept⟩
  · exact hreads ▸ hrec.reads key
  · exact hwrites ▸ hrec.writes key

end TxSimulator

end FabricOev.Ledger
