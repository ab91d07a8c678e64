import FabricOev.Ledger.RangeScan
import FabricOev.Ledger.StateLevelDb

/-!
# Where the entries of channels and namespaces stand

One LevelDB holds the state of all channels. A `DBHandle` puts its database name and a zero
byte before its keys, and `stateleveldb` puts the namespace and a zero byte before the keys
of a namespace; an open range ends where the last separator is replaced by a one. Requests
of one namespace of one handle stay with its entries, and whatever the channels commit, each
finds the state database of its own commits.
-/

namespace FabricOev.Ledger.KeyLayout

open Go Lib StateLevelDb SortedMerge Result List Std.ExtTreeMap

namespace DbHandle

def constructLevelKey (dbName key : Bytes) : Bytes := dbName ++ 0 :: key

/-- `bytes.SplitN(b, sep, 2)[1]`, for the zero byte that both layers use. -/
def afterSep (b : Bytes) : Result Bytes :=
  match b.dropWhile (· ≠ 0) with
  | [] => panicWith .indexOutOfRange
  | _ :: rest => .ok rest

/-- `DBHandle.GetIterator`, and the keys and values it gives; a nil end key is an open end. -/
def getIterator (db : LevelDb) (dbName startKey : Bytes) (endKey : Option Bytes) :
    Result (List (Bytes × Bytes)) :=
  let eKey := (endKey.map (constructLevelKey dbName)).getD (dbName ++ [1])
  (db.getIterator (constructLevelKey dbName startKey) eKey).mapM fun e => do
    -- retrieveAppKey
    let key ← afterSep e.1
    .ok (key, e.2)

end DbHandle

open DbHandle

/-- `GetStateRangeScanIterator`, and the keys its `Next` gives with the values stored. -/
def getStateRange (db : LevelDb) (dbName ns startKey endKey : GoString) :
    Result (List (GoString × Bytes)) := do
  let compositeEndKey := if endKey = [] then ns ++ [1] else constructCompositeKey ns endKey
  let es ← DbHandle.getIterator db dbName (constructCompositeKey ns startKey) (some compositeEndKey)
  es.mapM fun e => do
    -- splitCompositeKey
    let key ← afterSep e.1
    .ok (key, e.2)

/-! ## Requests -/

inductive Request where
  | get (key : GoString)
  | put (key : GoString) (value : Bytes)
  | delete (key : GoString)
  | scan (startKey endKey : GoString)

inductive Answer where
  | value (v : Option Bytes)
  | done
  | entries (es : List (GoString × Bytes))

def entryKey (dbName ns key : GoString) : Bytes :=
  constructLevelKey dbName (constructCompositeKey ns key)

def serve (dbName ns : GoString) (db : LevelDb) : Request → Result (Answer × LevelDb)
  | .get key => .ok (.value db[entryKey dbName ns key]?, db)
  | .put key value => .ok (.done, db.insert (entryKey dbName ns key) value)
  | .delete key => .ok (.done, db.erase (entryKey dbName ns key))
  | .scan startKey endKey => do
    let es ← getStateRange db dbName ns startKey endKey
    .ok (.entries es, db)

section Ranges

variable {dbName ns start stop : GoString} {db : LevelDb}

theorem afterSep_append {a : Bytes} (h : 0 ∉ a) (b : Bytes) : afterSep (a ++ 0 :: b) = .ok b := by
  have hall : ∀ x ∈ a, decide (x ≠ 0) = true := fun x hx => by
    simpa using ne_of_mem_of_not_mem hx h
  rw [afterSep, dropWhile_append_of_pos hall]
  simp

theorem entryKey_eq (dbName ns key : GoString) :
    entryKey dbName ns key = (dbName ++ 0 :: ns) ++ 0 :: key := by
  simp [entryKey, constructLevelKey, constructCompositeKey]

/-- What lies in a range of a namespace is one of its entries, in the range of keys. -/
theorem range_iff {x : Bytes} :
    entryKey dbName ns start ≤ x ∧
        x < constructLevelKey dbName (if stop = [] then ns ++ [1] else constructCompositeKey ns stop) ↔
      ∃ key, x = entryKey dbName ns key ∧ start ≤ key ∧ (stop = [] ∨ key < stop) := by
  have hstop :
      constructLevelKey dbName (if stop = [] then ns ++ [1] else constructCompositeKey ns stop) =
        (dbName ++ 0 :: ns) ++ if stop = [] then [1] else 0 :: stop := by
    split_ifs <;> simp [constructLevelKey, constructCompositeKey]
  rw [entryKey_eq, hstop, append_le_and_lt_append_iff]
  constructor
  · rintro ⟨y, rfl, hle, hlt⟩
    cases y with
    | nil => simp at hle
    | cons c key =>
      have hc : c = 0 ∧ (stop = [] ∨ key < stop) := by
        split_ifs at hlt with h
        · exact ⟨by simpa [cons_lt_cons_iff] using hlt, .inl h⟩
        · exact ⟨(by simpa [cons_lt_cons_iff] using hlt : c = 0 ∧ key < stop).1,
            .inr (by simpa [cons_lt_cons_iff] using hlt : c = 0 ∧ key < stop).2⟩
      obtain ⟨rfl, hkey⟩ := hc
      exact ⟨key, (entryKey_eq ..).symm, by simpa [cons_le_cons_iff] using hle, hkey⟩
  · rintro ⟨key, rfl, hle, hlt⟩
    refine ⟨0 :: key, entryKey_eq .., by simpa [cons_le_cons_iff] using hle, ?_⟩
    split_ifs with h
    · simp [cons_lt_cons_iff]
    · simpa [cons_lt_cons_iff, h] using hlt

theorem exists_getStateRange (hd : 0 ∉ dbName) (hns : PlainNs ns) (db : LevelDb)
    (start stop : GoString) :
    ∃ l, getStateRange db dbName ns start stop = .ok l ∧ Sorted l ∧ ∀ key v, (key, v) ∈ l ↔
        db[entryKey dbName ns key]? = some v ∧ start ≤ key ∧ (stop = [] ∨ key < stop) := by
  set es := LevelDb.getIterator db (entryKey dbName ns start) (constructLevelKey dbName
    (if stop = [] then ns ++ [1] else constructCompositeKey ns stop)) with hes
  have hmem : ∀ x v, (x, v) ∈ es ↔ db[x]? = some v ∧
      ∃ key, x = entryKey dbName ns key ∧ start ≤ key ∧ (stop = [] ∨ key < stop) := by
    intro x v
    rw [hes, LevelDb.getIterator, mem_filter, decide_eq_true_iff, range_iff,
      mem_toList_iff_getElem?_eq_some]
  -- every entry of the range is that of a key, so the range is the image of a list of keys
  obtain ⟨l, hl⟩ : es ∈ Set.range (map fun r : GoString × Bytes => (entryKey dbName ns r.1, r.2)) := by
    rw [Set.range_list_map]
    rintro ⟨x, v⟩ hx
    obtain ⟨-, key, rfl, -⟩ := (hmem x v).mp hx
    exact ⟨(key, v), rfl⟩
  have hinj : ∀ k k' : GoString, entryKey dbName ns k = entryKey dbName ns k' ↔ k = k' := by
    simp [entryKey, constructLevelKey, constructCompositeKey]
  refine ⟨l, ?_, ?_, fun key v => ?_⟩
  · have hits : DbHandle.getIterator db dbName (constructCompositeKey ns start)
        (some (if stop = [] then ns ++ [1] else constructCompositeKey ns stop)) =
          .ok (l.map fun r => (constructCompositeKey ns r.1, r.2)) := by
      refine mapM_eq_ok.mpr ?_
      show List.Forall₂ _ es _
      rw [← hl, forall₂_map_left_iff, forall₂_map_right_iff, forall₂_same]
      intro r hr
      rw [entryKey, constructLevelKey, afterSep_append hd]
      rfl
    rw [getStateRange, hits, ok_bind, mapM_eq_ok, forall₂_map_left_iff, forall₂_same]
    intro r hr
    rw [constructCompositeKey, afterSep_append hns.2]
    rfl
  · have hsorted : Sorted es := List.Pairwise.filter _ ordered_keys_toList
    rw [← hl, Sorted, pairwise_map] at hsorted
    refine hsorted.imp fun {a b} hab => ?_
    rw [compare_eq_lt_iff_lt, entryKey_eq, entryKey_eq] at hab
    obtain ⟨y, hy, -, hlt⟩ := append_le_and_lt_append_iff.mp ⟨List.le_refl _, hab⟩
    rw [← append_cancel_left hy] at hlt
    simpa [compare_eq_lt_iff_lt, cons_lt_cons_iff] using hlt
  · have hback : (key, v) ∈ l ↔ (entryKey dbName ns key, v) ∈ es := by
      rw [← hl]
      simp [hinj]
    rw [hback, hmem]
    simp [hinj]

end Ranges

theorem entryKey_inj {d d' ns ns' key key' : GoString} (hd : 0 ∉ d) (hd' : 0 ∉ d')
    (hns : PlainNs ns) (hns' : PlainNs ns') (h : entryKey d ns key = entryKey d' ns' key') :
    (d, ns) = (d', ns') := by
  obtain ⟨rfl, hrest⟩ := append_sep_inj hd hd' h
  obtain ⟨rfl, -⟩ := compositeKey_inj hns hns' hrest
  rfl

/-- A request of a namespace of a database is answered from the entries of the two, changes no
entry of another namespace or database and no savepoint, and a scan gives the keys of its
range in order. -/
theorem requests_stay_in_namespace {dbName ns : GoString} (hd : 0 ∉ dbName) (hns : PlainNs ns)
    (db : LevelDb) (req : Request) :
    ∃ answer db', serve dbName ns db req = .ok (answer, db') ∧
      (∀ dbName' ns' key, 0 ∉ dbName' → PlainNs ns' → (dbName', ns') ≠ (dbName, ns) →
        db'[entryKey dbName' ns' key]? = db[entryKey dbName' ns' key]?) ∧
      (∀ dbName', 0 ∉ dbName' →
        db'[constructLevelKey dbName' savePointKey]? = db[constructLevelKey dbName' savePointKey]?) ∧
      (∀ db₂ : LevelDb, (∀ key, db₂[entryKey dbName ns key]? = db[entryKey dbName ns key]?) →
        ∃ db₂', serve dbName ns db₂ req = .ok (answer, db₂')) ∧
      ∀ start stop, req = .scan start stop → ∃ l, answer = .entries l ∧ Sorted l ∧
        ∀ key v, (key, v) ∈ l ↔
          db[entryKey dbName ns key]? = some v ∧ start ≤ key ∧ (stop = [] ∨ key < stop) := by
  have hother : ∀ key dbName' ns' key', 0 ∉ dbName' → PlainNs ns' → (dbName', ns') ≠ (dbName, ns) →
      entryKey dbName ns key ≠ entryKey dbName' ns' key' := fun key d' ns' key' hd' hns' hne heq =>
    hne (entryKey_inj hd hd' hns hns' heq).symm
  have hsave : ∀ key dbName', 0 ∉ dbName' →
      entryKey dbName ns key ≠ constructLevelKey dbName' savePointKey := fun key d' hd' heq =>
    compositeKey_ne_savePoint hns key (append_sep_inj hd hd' heq).2
  cases req with
  | get key =>
    refine ⟨_, _, rfl, fun _ _ _ _ _ _ => rfl, fun _ _ => rfl, fun db₂ h => ⟨db₂, ?_⟩, by simp⟩
    rw [serve, h]
  | put key value =>
    have hkept : ∀ x, entryKey dbName ns key ≠ x →
        (db.insert (entryKey dbName ns key) value)[x]? = db[x]? := fun x hx => by
      rw [FinMap.getElem?_insert_eq, if_neg hx]
    exact ⟨_, _, rfl, fun d' ns' key' hd' hns' hne => hkept _ (hother key d' ns' key' hd' hns' hne),
      fun d' hd' => hkept _ (hsave key d' hd'), fun db₂ _ => ⟨_, rfl⟩, by simp⟩
  | delete key =>
    have hkept : ∀ x, entryKey dbName ns key ≠ x →
        (db.erase (entryKey dbName ns key))[x]? = db[x]? := fun x hx => by
      rw [getElem?_erase, if_neg (mt Std.LawfulEqCmp.eq_of_compare hx)]
    exact ⟨_, _, rfl, fun d' ns' key' hd' hns' hne => hkept _ (hother key d' ns' key' hd' hns' hne),
      fun d' hd' => hkept _ (hsave key d' hd'), fun db₂ _ => ⟨_, rfl⟩, by simp⟩
  | scan start stop =>
    obtain ⟨l, hl, hsorted, hmem⟩ := exists_getStateRange hd hns db start stop
    refine ⟨.entries l, db, by rw [serve, hl, ok_bind], fun _ _ _ _ _ _ => rfl,
      fun _ _ => rfl, fun db₂ h => ⟨db₂, ?_⟩, ?_⟩
    · obtain ⟨l2, hl2, hsorted2, hmem2⟩ := exists_getStateRange hd hns db₂ start stop
      obtain rfl : l2 = l := hsorted2.unique hsorted fun e => by rw [hmem, hmem2, h]
      rw [serve, hl2, ok_bind]
    · rintro _ _ ⟨rfl, rfl⟩
      exact ⟨l, rfl, hsorted, hmem⟩

/-- Two namespaces with an entry each: a scan of the first gives its own, and leaves the other. -/
theorem scan_stays_in_namespace :
    let db : LevelDb := (insert ∅ (entryKey (str "ch") (str "cc") (str "a")) [1]).insert
      (entryKey (str "ch") (str "cd") (str "b")) [2]
    ∃ l db', serve (str "ch") (str "cc") db (.scan [] []) = .ok (.entries l, db') ∧
      (∀ key v, (key, v) ∈ l ↔ db[entryKey (str "ch") (str "cc") key]? = some v) ∧
      (str "a", [1]) ∈ l ∧ (str "b", [2]) ∉ l ∧
      db'[entryKey (str "ch") (str "cd") (str "b")]? = some [2] := by
  intro db
  have hd : 0 ∉ str "ch" := by decide
  obtain ⟨answer, db', h, hother, -, -, hscan⟩ :=
    @requests_stay_in_namespace _ (str "cc") hd ⟨by decide, by decide⟩ db (.scan [] [])
  obtain ⟨l, rfl, -, hmem⟩ := hscan [] [] rfl
  refine ⟨l, db', h, fun key v => ?_, ?_, ?_, ?_⟩
  · simp [hmem]
  · rw [hmem]
    decide +kernel
  · rw [hmem]
    decide +kernel
  · rw [hother _ _ _ hd ⟨by decide, by decide⟩ (by decide)]
    decide +kernel

/-! ## Channels that share a LevelDB -/

namespace SharedStore

open FinMap

/-- `DBHandle.WriteBatch`. -/
def writeBatch (db : LevelDb) (dbName : GoString) (batch : LevelBatch) : LevelDb :=
  db.writeBatch (insertAll ∅ (batch.toList.map fun e => (constructLevelKey dbName e.1, e.2)))

/-- A call of `ApplyUpdates` by the channel `dbName`; `updates` is the batch as it is ranged over. -/
structure Write where
  dbName : GoString
  batch : UpdateBatch
  updates : List (CompositeKey × Update)
  height : Height
  perm : updates.Perm batch.toList

def Write.Plain (w : Write) : Prop := 0 ∉ w.dbName ∧ ∀ e ∈ w.updates, PlainNs e.1.ns

def applyUpdates (db : LevelDb) (w : Write) : LevelDb :=
  writeBatch db w.dbName ((insertAll ∅ (w.updates.map fun e =>
    (constructCompositeKey e.1.ns e.1.key, encodeUpdate e.2))).insert savePointKey
      (some w.height.toBytes))

def getState (db : LevelDb) (dbName ns key : GoString) : Result (Option VersionedValue) :=
  match db[entryKey dbName ns key]? with
  | none => .ok none
  | some b => do
    let v ← decodeValue b
    .ok (some v)

/-- The results of `GetStateRangeScanIterator`, with their values decoded. -/
def rangeScan (db : LevelDb) (dbName ns startKey endKey : GoString) :
    Result (List (GoString × VersionedValue)) := do
  let es ← getStateRange db dbName ns startKey endKey
  es.mapM fun e => do
    let v ← decodeValue e.2
    .ok (e.1, v)

def getLatestSavePoint (db : LevelDb) (dbName : GoString) : Result (Option Height) :=
  match db[constructLevelKey dbName savePointKey]? with
  | none => .ok none
  | some b => do
    let (h, _) ← Height.ofBytes b
    .ok (some h)

/-- The state database that the channel's own commits make. -/
def ownState (dbName : GoString) (ws : List Write) : StateDb :=
  (ws.filter (·.dbName = dbName)).foldl (fun s w => s.applyUpdates w.batch w.height) StateDb.empty

variable {db : LevelDb} {d d' ns : GoString} {m : LevelDb} {s : StateDb}

theorem getElem?_writeBatch (hd : 0 ∉ d) (hd' : 0 ∉ d') (batch : LevelBatch) (k : Bytes) :
    (writeBatch db d batch)[constructLevelKey d' k]? =
      (if d = d' then batch[k]? else none).elim db[constructLevelKey d' k]? id := by
  rw [writeBatch, LevelDb.getElem?_writeBatch]
  congr 1
  cases hget : (if d = d' then batch[k]? else none) with
  | none =>
    rw [getElem?_insertAll_of_notMem]
    · simp
    · intro e he heq
      obtain ⟨e, hmem, rfl⟩ := mem_map.mp he
      obtain ⟨hdd, rfl⟩ := append_sep_inj hd hd' heq
      rw [if_pos hdd, Std.ExtTreeMap.mem_toList_iff_getElem?_eq_some.mp hmem] at hget
      cases hget
  | some u =>
    split_ifs at hget with hdd
    subst hdd
    apply getElem?_insertAll_of_mem
    · rw [pairwise_map]
      exact (pairwise_ne_toList batch).imp fun hab heq => hab (append_sep_inj hd hd heq).2
    · exact mem_map.mpr ⟨(k, u), Std.ExtTreeMap.mem_toList_iff_getElem?_eq_some.mpr hget, rfl⟩

/-- Behind its name the channel has a handle that holds its state database. -/
def Holds (db : LevelDb) (dbName : GoString) (s : StateDb) : Prop :=
  ∃ m : LevelDb, (∀ k, db[constructLevelKey dbName k]? = m[k]?) ∧ Represents m s

theorem Holds.applyUpdates (h : Holds db d s) (hd : 0 ∉ d) {w : Write} (hw : w.Plain) :
    Holds (applyUpdates db w) d
      (if w.dbName = d then s.applyUpdates w.batch w.height else s) := by
  obtain ⟨m, hview, hm⟩ := h
  by_cases hname : w.dbName = d
  · refine ⟨StateLevelDb.applyUpdates m w.updates w.height, fun k => ?_, ?_⟩
    · rw [SharedStore.applyUpdates, getElem?_writeBatch hw.1 hd, if_pos hname, hview]
      exact (LevelDb.getElem?_writeBatch ..).symm
    · rw [if_pos hname]
      exact hm.applyUpdates w.height w.perm hw.2
  · refine ⟨m, fun k => ?_, ?_⟩
    · rw [SharedStore.applyUpdates, getElem?_writeBatch hw.1 hd, if_neg hname, ← hview]
      rfl
    · rwa [if_neg hname]

theorem holds_run (hd : 0 ∉ d) (ws : List Write) (hws : ∀ w ∈ ws, w.Plain) :
    Holds (ws.foldl applyUpdates ∅) d (ownState d ws) := by
  induction ws using reverseRecOn with
  | nil => exact ⟨∅, fun k => by simp, represents_empty⟩
  | append_singleton ws w ih =>
    have h := (ih fun w hw => hws w (by simp [hw])).applyUpdates hd (hws w (by simp))
    rw [foldl_concat]
    by_cases hname : w.dbName = d
    · simpa [ownState, hname, filter_append] using h
    · simpa [ownState, hname, filter_append] using h

theorem represents_cases (hm : Represents m s) (hns : PlainNs ns) (key : GoString) :
    (m[constructCompositeKey ns key]? = none ∧ s.getState ns key = none) ∨
      ∃ b v, m[constructCompositeKey ns key]? = some b ∧ decodeValue b = .ok v ∧
        s.getState ns key = some v := by
  have h := hm.state ns key hns
  unfold StateLevelDb.getState at h
  cases hb : m[constructCompositeKey ns key]? with
  | none =>
    rw [hb] at h
    exact .inl ⟨rfl, (Except.ok.inj h).symm⟩
  | some b =>
    rw [hb] at h
    obtain ⟨v, hv, h⟩ := bind_ok.mp h
    exact .inr ⟨b, v, rfl, hv, (Except.ok.inj h).symm⟩

theorem Holds.rangeScan (h : Holds db d s) (hd : 0 ∉ d) (hns : PlainNs ns) (start stop : GoString) :
    rangeScan db d ns start stop = .ok (scan s.state ns start stop) := by
  obtain ⟨m, hview, hm⟩ := h
  obtain ⟨l, hl, hsorted, hmem⟩ := exists_getStateRange hd hns db start stop
  -- the entries served are those of the scan, encoded
  have hencoded : l = (scan s.state ns start stop).map fun e =>
      (e.1, (m[constructCompositeKey ns e.1]?).getD []) := by
    refine hsorted.unique (pairwise_map.mpr (sorted_scan s.state ns start stop)) fun ⟨k, b⟩ => ?_
    rw [hmem, entryKey, hview, mem_map]
    constructor
    · rintro ⟨hb, hrange⟩
      obtain ⟨hnone, -⟩ | ⟨b', v, hb', -, hv⟩ := represents_cases hm hns k
      · rw [hnone] at hb
        cases hb
      · exact ⟨(k, v), mem_scan.mpr ⟨hv, by simpa [inRange] using hrange⟩, by simp [hb]⟩
    · rintro ⟨⟨k', v⟩, hv, heq⟩
      obtain ⟨hget, hrange⟩ := mem_scan.mp hv
      obtain ⟨rfl, rfl⟩ := Prod.mk.inj heq
      obtain ⟨-, hnone⟩ | ⟨b', v', hb', -, -⟩ := represents_cases hm hns k'
      · exact absurd (hnone.symm.trans hget) (by simp)
      · exact ⟨by simp [hb'], by simpa [inRange] using hrange⟩
  rw [SharedStore.rangeScan, hl, ok_bind, hencoded, mapM_eq_ok, forall₂_map_left_iff, forall₂_same]
  intro e he
  obtain ⟨-, hnone⟩ | ⟨b, v, hb, hdecode, hv⟩ := represents_cases hm hns e.1
  · exact absurd (hnone.symm.trans (mem_scan.mp he).1) (by simp)
  · obtain rfl : v = e.2 := Option.some.inj (hv.symm.trans (mem_scan.mp he).1)
    simp only [hb, Option.getD_some, hdecode, ok_bind]

/-- Every channel reads, scans and recovers the state database of its own commits. -/
theorem channels_apart (ws : List Write) (hws : ∀ w ∈ ws, w.Plain) (hd : 0 ∉ d) :
    (∀ ns key, PlainNs ns →
      getState (ws.foldl applyUpdates ∅) d ns key = .ok ((ownState d ws).getState ns key)) ∧
    (∀ ns start stop, PlainNs ns → rangeScan (ws.foldl applyUpdates ∅) d ns start stop =
      .ok (scan (ownState d ws).state ns start stop)) ∧
    getLatestSavePoint (ws.foldl applyUpdates ∅) d = .ok (ownState d ws).savepoint := by
  have h := holds_run hd ws hws
  refine ⟨fun ns key hns => ?_, fun ns start stop hns => h.rangeScan hd hns start stop, ?_⟩
  · obtain ⟨m, hview, hm⟩ := h
    rw [← hm.state ns key hns, getState, entryKey, hview]
    rfl
  · obtain ⟨m, hview, hm⟩ := h
    rw [← hm.savepoint, getLatestSavePoint, hview]
    rfl

/-- A channel puts the key `k` of the chaincode `cc`. -/
def putWrite (dbName value : GoString) : Write where
  dbName := dbName
  batch := (∅ : UpdateBatch).insert ⟨str "cc", str "k"⟩ ⟨some value, ⟨0, 0⟩⟩
  updates := [(⟨str "cc", str "k"⟩, ⟨some value, ⟨0, 0⟩⟩)]
  height := ⟨0, 0⟩
  perm := .refl _

/-- Two channels put the same key of the same chaincode, and each finds its own value. -/
theorem same_key_apart :
    let ws := [putWrite (str "ch1") (str "a"), putWrite (str "ch2") (str "b")]
    getState (ws.foldl applyUpdates ∅) (str "ch1") (str "cc") (str "k") =
      .ok (some ⟨str "a", ⟨0, 0⟩⟩) := by
  intro ws
  have hws : ∀ w ∈ ws, w.Plain := by
    simp only [ws, forall_mem_cons, Write.Plain, putWrite, PlainNs]
    decide
  rw [(channels_apart ws hws (by decide : 0 ∉ str "ch1")).1 _ _ ⟨by decide, by decide⟩]
  decide +kernel

end SharedStore

end FabricOev.Ledger.KeyLayout
