import FabricOev.Ledger.DerivedDatabases
import FabricOev.Ledger.HostileRwSets
import FabricOev.Ledger.LevelDb
import FabricOev.Ledger.SimulatorIsolation

/-!
# The history of a key

`GetHistoryForKey` scans the history database for the keys that begin with a namespace and a
key, reads a block and a transaction number from the rest of each, and looks the write up in
the endorsed write set of that transaction. Zero bytes separate the parts, and may as well
stand in a key.
-/

namespace FabricOev.Ledger

open Go Protos Bench Lib List Result KvLedger FinMap TxRwSet Except UInt64 Nat HeaderType

/-- `ConstructPartialCompositeHistoryKey`. -/
def partialHistoryKey (ns key : GoString) (endKey : Bool) : Bytes :=
  ns ++ [0] ++ key ++ [0] ++ if endKey then [0xff] else []

/-- The keys of the handle from `startKey` on and before `endKey`, in order. -/
def HistoryDb.getIterator (h : HistoryDb) (startKey endKey : Bytes) : List Bytes :=
  h.entries.toList.filter fun k => startKey ≤ k ∧ k < endKey

/-- `bytes.SplitN(b, sep, 2)`, if it has two parts. -/
def splitFirst (sep : Bytes) : Bytes → Option (Bytes × Bytes)
  | [] => if sep = [] then some ([], []) else none
  | x :: b =>
    if sep <+: x :: b then some ([], (x :: b).drop sep.length)
    else (splitFirst sep b).map fun p => (x :: p.1, p.2)

def splitCompositeHistoryKey (b sep : Bytes) : Result (Bytes × Bytes) :=
  match splitFirst sep b with
  | some p => .ok p
  | none => panicWith .indexOutOfRange

/-- `queryresult.KeyModification`, without its timestamp. -/
structure KeyModification where
  txId : GoString
  value : Option Bytes
  isDelete : Bool
deriving DecidableEq, Repr

/-- `getKeyModificationFromTran`: the first write to the key in the namespace's first set. -/
def findWrite (rw : TxRwSet) (ns key : GoString) : Result KvWrite :=
  match rw.find? fun s => s.ns = ns with
  | none => errorf "Namespace not found in transaction's ReadWriteSets"
  | some s =>
    match s.writes.find? fun w => w.key = key with
    | none => errorf "Key not found in namespace's writeset"
    | some w => .ok w

def getKeyModificationFromTran (env : Envelope) (ns key : GoString) : Result KeyModification := do
  let payload ← getPayload env
  let tx ← getTransaction payload.data
  let act ← index tx.actions 0
  let (_, respPayload) ← getPayloads act
  let hdr ← deref payload.header
  let chdr ← unmarshalChannelHeader hdr.channelHeader
  let rw ← ofOption .proto (TxRwSet.fromProtoBytes respPayload.results)
  let w ← findWrite rw ns key
  .ok ⟨chdr.txId, w.value, w.isDelete⟩

def retrieveTxByBlockNumTranNum (blocks : List Block) (blockNum tranNum : UInt64) :
    Result Envelope :=
  match blocks[blockNum.toNat]?.bind fun b => b.data[tranNum.toNat]? with
  | none => errorf "Entry not found in index"
  | some d => getEnvelopeFromBlock d

/-- `historyScanner.Next` at a key of the history database. -/
def nextModification (blocks : List Block) (ns key : GoString) (historyKey : Bytes) :
    Result KeyModification := do
  let (_, blockNumTranNumBytes) ←
    splitCompositeHistoryKey historyKey (partialHistoryKey ns key false)
  let (blockNum, bytesConsumed) ← decodeOrderPreservingVarUint64 blockNumTranNumBytes
  let (tranNum, _) ← decodeOrderPreservingVarUint64 (blockNumTranNumBytes.drop bytesConsumed)
  let env ← retrieveTxByBlockNumTranNum blocks blockNum tranNum
  getKeyModificationFromTran env ns key

/-- `GetHistoryForKey`, and all that its iterator returns. -/
def getHistoryForKey (cfg : Config) (l : KvLedger) (ns key : GoString) :
    Result (List KeyModification) :=
  if cfg.historyDbEnabled then
    (l.historyDb.getIterator (partialHistoryKey ns key false) (partialHistoryKey ns key true)).mapM
      (nextModification l.blocks ns key)
  else errorf "History tracking not enabled - historyDatabase is false"

/-- An endorser transaction of a stored block that is flagged valid. -/
structure StoredTx where
  block : UInt64
  tran : UInt64
  txId : GoString
  rw : TxRwSet

def storedTx (number : UInt64) (i : Nat) (d : Bytes) : Option StoredTx :=
  match channelHeaderOf d, carriedRwSet d with
  | .ok chdr, some rw => some ⟨number, ofNat i, chdr.txId, rw⟩
  | _, _ => none

def storedTxsFrom (number : UInt64) (flags : TxFlags) : Nat → List Bytes → List StoredTx
  | _, [] => []
  | i, d :: ds =>
    (if FlaggedValid flags i then storedTx number i d else none).toList ++
      storedTxsFrom number flags (i + 1) ds

/-- The valid endorser transactions of a chain, in its order. -/
def storedTxs (blocks : List Block) : List StoredTx :=
  blocks.flatMap fun b => storedTxsFrom b.header.number (b.txsFilter.toOption.getD []) 0 b.data

/-- The writes of a set to one key, in the order in which they are applied. -/
def TxRwSet.writesTo (rw : TxRwSet) (ns key : GoString) : List KvWrite :=
  rw.flatMap fun s => if s.ns = ns then s.writes.filter fun w => w.key = key else []

variable {rw : TxRwSet} {α β : Type} {k : Bytes}

theorem TxRwSet.mem_writesTo {ns key : GoString} {w : KvWrite} :
    w ∈ rw.writesTo ns key ↔ ∃ s ∈ rw, s.ns = ns ∧ w ∈ s.writes ∧ w.key = key := by
  rw [writesTo, mem_flatMap]
  refine exists_congr fun s => and_congr_right fun _ => ?_
  by_cases h : s.ns = ns
  · simp [h]
  · simp [h]

/-- The new value of the key, none if it is deleted. -/
def KvWrite.change (w : KvWrite) : Option Bytes := if w.isDelete then none else w.value

def KeyModification.change (m : KeyModification) : Option Bytes :=
  if m.isDelete then none else m.value

/-- What a transaction did to a key: its last write to it took effect. -/
def StoredTx.change (t : StoredTx) (ns key : GoString) : Option (GoString × Option Bytes) :=
  (t.rw.writesTo ns key).getLast?.map fun w => (t.txId, w.change)

/-- One entry for each transaction that changed or deleted the key, in order, the last being its
state. -/
def HistoryAgrees (cfg : Config) (l : KvLedger) (ns key : GoString) : Prop :=
  ∃ ms, getHistoryForKey cfg l ns key = .ok ms ∧ ms.map (fun m => (m.txId, m.change)) =
      (storedTxs l.blocks).filterMap (fun t => t.change ns key) ∧
    (ms.getLast?.bind KeyModification.change) = (l.stateDb.getState ns key).map (·.value)

def Scanned (ns key : GoString) (k : Bytes) : Prop :=
  partialHistoryKey ns key false ≤ k ∧ k < partialHistoryKey ns key true

/-- The query finds the history keys of the transactions that wrote the key, and for each the write
that took effect. -/
structure Recognisable (ts : List StoredTx) (ns key : GoString) : Prop where
  keys : ∀ t ∈ ts, ∀ s ∈ t.rw, ∀ w ∈ s.writes,
    Scanned ns key (historyKey s.ns w.key t.block t.tran) → ∃ t' ∈ ts, t'.rw.writesTo ns key ≠ [] ∧
        historyKey s.ns w.key t.block t.tran = historyKey ns key t'.block t'.tran
  write : ∀ t ∈ ts, ∀ w, (t.rw.writesTo ns key).getLast? = some w →
    ∃ w', findWrite t.rw ns key = .ok w' ∧ w'.change = w.change

/-! ## History keys -/

theorem historyKey_eq (ns key : GoString) (blockNum tranNum : UInt64) :
    historyKey ns key blockNum tranNum = partialHistoryKey ns key false ++
      (encodeOrderPreservingVarUint64 blockNum ++ encodeOrderPreservingVarUint64 tranNum) := by
  simp [historyKey, partialHistoryKey]

theorem splitFirst_append (sep rest : Bytes) : splitFirst sep (sep ++ rest) = some ([], rest) := by
  cases h : sep ++ rest with
  | nil =>
    obtain ⟨rfl, rfl⟩ := append_eq_nil_iff.mp h
    rfl
  | cons x b =>
    have hp : sep <+: x :: b := h ▸ prefix_append sep rest
    rw [splitFirst, if_pos hp, ← h, drop_left]

/-- The range of a query is that of one beginning. -/
theorem scanned_iff {ns key : GoString} :
    Scanned ns key k ↔ ∃ rest, k = partialHistoryKey ns key false ++ rest ∧ rest < [0xff] := by
  have hend : partialHistoryKey ns key true = partialHistoryKey ns key false ++ [0xff] := by
    simp [partialHistoryKey]
  have h := @append_le_and_lt_append_iff (partialHistoryKey ns key false) [] [0xff] k
  rw [append_nil] at h
  rw [Scanned, hend, h]
  simp

theorem scanned_historyKey (ns key : GoString) (blockNum tranNum : UInt64) :
    Scanned ns key (historyKey ns key blockNum tranNum) := by
  have hlen := length_significantBytes blockNum
  refine scanned_iff.mpr ⟨_, historyKey_eq .., ?_⟩
  rw [encode_eq, cons_append, cons_lt_cons_iff]
  left
  rw [UInt8.lt_iff_toNat_lt, toNat_count]
  exact lt_of_le_of_lt hlen (by decide)

theorem historyKey_lt (ns key : GoString) {b b' t t' : UInt64} (h : b < b' ∨ b = b' ∧ t < t') :
    historyKey ns key b t < historyKey ns key b' t' := by
  rw [historyKey_eq, historyKey_eq]
  refine append_left_lt (encode_append_lt_iff.mpr ?_)
  rwa [encode_lt_iff]

section Stored

variable {number : UInt64} {flags : TxFlags} {i : Nat} {d : Bytes} {chdr : ChannelHeader}
  {ds : List Bytes}

def StoredTx.historyKeys (t : StoredTx) : List Bytes :=
  t.rw.flatMap fun s => s.writes.map fun w => historyKey s.ns w.key t.block t.tran

def StoredTx.entries (t : StoredTx) : List (CompositeKey × Update) :=
  writeEntries t.rw ⟨t.block, t.tran⟩

theorem storedTx_of_endorsed (hc : channelHeaderOf d = .ok chdr)
    (ht : chdr.headerType = endorserTransaction) (hrw : EndorsedRwSet d rw) :
    storedTx number i d = some ⟨number, ofNat i, chdr.txId, rw⟩ := by
  rw [storedTx, hc, carriedRwSet_of_endorsed hc ht hrw]

theorem storedTx_of_other (hc : channelHeaderOf d = .ok chdr)
    (ht : chdr.headerType ≠ endorserTransaction) :
    storedTx number i d = none := by
  have hnone : carriedRwSet d = none := by
    rw [carriedRwSet, hc]
    cases getActionFromEnvelope d with
    | error f => rfl
    | ok action => exact if_neg ht
  rw [storedTx, hc, hnone]

theorem historyLoop_eq {ks : List Bytes} (h : historyLoop number flags i ds = .ok ks) :
    ks = (storedTxsFrom number flags i ds).flatMap StoredTx.historyKeys := by
  induction ds generalizing i ks with
  | nil =>
    cases h
    rfl
  | cons d ds ih =>
    obtain ⟨valid, hvalid, h⟩ := bind_ok.mp h
    have hv := TxFlags.isValid_eq_ok hvalid
    rw [storedTxsFrom, flatMap_append]
    cases valid with
    | false =>
      obtain ⟨ks1, hks1, h⟩ := bind_ok.mp h
      obtain ⟨rest, hrest, h⟩ := bind_ok.mp h
      cases hks1
      cases h
      rw [if_neg fun hf => Bool.false_ne_true (hv.mpr hf), ih hrest]
      rfl
    | true =>
      obtain ⟨ks1, hks1, h⟩ := bind_ok.mp h
      obtain ⟨rest, hrest, h⟩ := bind_ok.mp h
      cases h
      rw [if_pos (hv.mp rfl), ih hrest]
      congr 1
      obtain ⟨chdr, hc, hks1⟩ := bind_ok.mp hks1
      by_cases ht : chdr.headerType = endorserTransaction
      · rw [if_neg (not_not.mpr ht)] at hks1
        obtain ⟨action, haction, hks1⟩ := bind_ok.mp hks1
        obtain ⟨rw', hrw, hks1⟩ := bind_ok.mp hks1
        cases hks1
        rw [storedTx_of_endorsed hc ht ⟨action, haction, ofOption_eq_ok.mp hrw⟩]
        simp [StoredTx.historyKeys]
      · rw [if_pos ht] at hks1
        cases hks1
        rw [storedTx_of_other hc ht]
        rfl

theorem validateLoop_batch {hash : Bytes → Bytes} {db : StateDb} {st st' : TxFlags × UpdateBatch}
    (h : validateLoop hash db number true i ds st = .ok st') :
    st'.2 = insertAll st.2 ((storedTxsFrom number st'.1 i ds).flatMap StoredTx.entries) := by
  induction ds generalizing i st with
  | nil =>
    cases h
    rfl
  | cons d ds ih =>
    obtain ⟨mid, hone, hrest⟩ := bind_ok.mp h
    have hkept : st'.1[i]? = mid.1[i]? := (validateLoop_flags hrest).2.2 i (by omega)
    rw [storedTxsFrom, flatMap_append, ih hrest]
    have hskip : ∀ {o : Option StoredTx}, o = none → mid.2 = st.2 →
        insertAll mid.2 ((storedTxsFrom number st'.1 (i + 1) ds).flatMap StoredTx.entries) =
          insertAll st.2 (o.toList.flatMap StoredTx.entries ++
            (storedTxsFrom number st'.1 (i + 1) ds).flatMap StoredTx.entries) := by
      intro o ho hmid
      rw [ho, hmid]
      rfl
    cases validateOne_cases hone with
    | skipped hv => exact hskip (if_neg (by rwa [FlaggedValid, hkept])) rfl
    | other hv hc ht =>
      refine hskip ?_ rfl
      rw [storedTx_of_other hc ht]
      split
      · rfl
      · rfl
    | rejected hv hc ht hne =>
      refine hskip (if_neg ?_) rfl
      rw [FlaggedValid, hkept, getElem?_set_self hv.lt]
      exact fun hval => toByte_ne_valid hne (Option.some.inj hval)
    | accepted hv hc ht hrw hm hu =>
      have hv' : FlaggedValid st'.1 i := by rwa [FlaggedValid, hkept]
      rw [if_pos hv', storedTx_of_endorsed hc ht hrw]
      obtain rfl := ok.inj (hu.symm.trans (addWriteSet_eq hu st.2))
      simp [insertAll, StoredTx.entries]

end Stored

theorem getLast?_flatMap (f : α → List β) (xs : List α) :
    (xs.flatMap f).getLast? = (xs.filterMap fun x => (f x).getLast?).getLast? := by
  induction xs using reverseRecOn with
  | nil => rfl
  | append_singleton xs x ih =>
    rw [flatMap_append, getLast?_append, filterMap_append, getLast?_append, ih, flatMap_singleton]
    cases h : (f x).getLast? with
    | none | some y => simp [h]

theorem lastOf_eq_getLast? (es : List (CompositeKey × Update)) (k : CompositeKey) :
    lastOf es k = (es.filter fun e => e.1 = k).getLast?.map (·.2) := by
  induction es using reverseRecOn with
  | nil => rfl
  | append_singleton es e ih =>
    rw [lastOf_concat, ih, filter_append, getLast?_append]
    by_cases hk : e.1 = k
    · simp [hk]
    · simp [hk]

theorem filter_writeEntries (rw : TxRwSet) (h : Height) (ns key : GoString) :
    (writeEntries rw h).filter (fun e => e.1 = CompositeKey.mk ns key) =
      (rw.writesTo ns key).map fun w => (CompositeKey.mk ns key, w.update h) := by
  rw [writeEntries, writesTo, filter_flatMap, map_flatMap]
  congr 1
  funext s
  induction s.writes with
  | nil =>
    split
    · rfl
    · rfl
  | cons w ws ih =>
    rw [map_cons, filter_cons, ih]
    by_cases hns : s.ns = ns
    · by_cases hkey : w.key = key
      · simp [hns, hkey]
      · simp [hns, hkey]
    · simp [hns]

/-- What the batch of a block has for a key is the last change to it. -/
theorem get_insertAll_entries (ts : List StoredTx) (ns key : GoString) :
    (UpdateBatch.get (insertAll ∅ (ts.flatMap StoredTx.entries)) ns key).map Update.value =
      (ts.filterMap fun t => t.change ns key).getLast?.map (·.2) := by
  have hentries : ∀ t : StoredTx,
      ((t.entries.filter fun e => e.1 = CompositeKey.mk ns key).getLast?).map (·.2.value) =
        (t.change ns key).map (·.2) := by
    intro t
    rw [StoredTx.entries, filter_writeEntries, getLast?_map, StoredTx.change, Option.map_map,
      Option.map_map]
    rfl
  rw [UpdateBatch.get, getElem?_insertAll, lastOf_eq_getLast?, filter_flatMap, getLast?_flatMap]
  have hnone : (∅ : UpdateBatch)[CompositeKey.mk ns key]? = none := by simp
  rw [hnone, Option.or_none, Option.map_map, ← getLast?_map, ← getLast?_map,
    map_filterMap, map_filterMap]
  congr 2
  funext t
  exact hentries t

def lastChange (ts : List StoredTx) (ns key : GoString) : Option Bytes :=
  (ts.filterMap fun t => t.change ns key).getLast?.bind (·.2)

theorem lastChange_append (ts ts' : List StoredTx) (ns key : GoString) :
    lastChange (ts ++ ts') ns key =
      ((ts'.filterMap fun t => t.change ns key).getLast?.map (·.2)).getD (lastChange ts ns key) := by
  rw [lastChange, filterMap_append, getLast?_append]
  cases (ts'.filterMap fun t => t.change ns key).getLast? with
  | none | some c => rfl

/-- The history database has the writes of the transactions of the chain. -/
structure Chronicled (l : KvLedger) : Prop where
  numbers : ∀ (n : Nat) (b : Block), l.blocks[n]? = some b → b.header.number.toNat = n
  filters : ∀ b ∈ l.blocks, ∃ flags, b.txsFilter = .ok flags
  keys : ∀ k, k ∈ l.historyDb.entries ↔ ∃ t ∈ storedTxs l.blocks, k ∈ t.historyKeys

/-- The state of a key is what the endorsed writes of the chain leave. -/
def Reflects (l : KvLedger) (ns key : GoString) : Prop :=
  (l.stateDb.getState ns key).map (·.value) = lastChange (storedTxs l.blocks) ns key

theorem chronicled_empty : Chronicled empty where
  numbers _ _ hb := nomatch hb
  filters _ hb := nomatch hb
  keys _ := iff_of_false Std.ExtTreeSet.not_mem_empty fun h => nomatch h.choose_spec.1

theorem mem_foldl_insert (ks : List Bytes) (s : Std.ExtTreeSet Bytes compare) (k : Bytes) :
    k ∈ ks.foldl (fun s k => s.insert k) s ↔ k ∈ s ∨ k ∈ ks := by
  induction ks generalizing s with
  | nil => simp
  | cons x ks ih =>
    rw [foldl_cons, ih, Std.ExtTreeSet.mem_insert, Std.compare_eq_iff_eq, mem_cons]
    constructor
    · intro h
      obtain (rfl | h) | h := h
      · exact .inr (.inl rfl)
      · exact .inl h
      · exact .inr (.inr h)
    · intro h
      obtain h | rfl | h := h
      · exact .inl (.inr h)
      · exact .inl (.inl rfl)
      · exact .inr h

theorem storedTxs_append (bs bs' : List Block) :
    storedTxs (bs ++ bs') = storedTxs bs ++ storedTxs bs' := flatMap_append

theorem storedTxs_singleton {block : Block} {flags : TxFlags} (h : block.txsFilter = .ok flags) :
    storedTxs [block] = storedTxsFrom block.header.number flags 0 block.data := by
  rw [storedTxs, flatMap_singleton, h]
  rfl

theorem Chronicled.append {l : KvLedger} (hl : Chronicled l) {block : Block} {flags : TxFlags}
    {hist : HistoryDb} (hnumber : block.header.number.toNat = l.blocks.length)
    (hflags : block.txsFilter = .ok flags) (hcommit : l.historyDb.commit block = .ok hist)
    (db : StateDb) : Chronicled ⟨l.blocks ++ [block], db, hist⟩ := by
  refine ⟨numbers_append hl.numbers hnumber, fun b hb => ?_, fun k => ?_⟩
  · obtain hb | hb := mem_append.mp hb
    · exact hl.filters b hb
    · exact ⟨flags, mem_singleton.mp hb ▸ hflags⟩
  · obtain ⟨flags', hflags', hcommit⟩ := bind_ok.mp hcommit
    obtain rfl := ok.inj (hflags.symm.trans hflags')
    obtain ⟨ks, hks, hcommit⟩ := bind_ok.mp hcommit
    rw [← ok.inj hcommit, mem_foldl_insert, hl.keys, historyLoop_eq hks, storedTxs_append,
      storedTxs_singleton hflags, mem_flatMap]
    constructor
    · intro h
      obtain ⟨t, ht, hk⟩ | ⟨t, ht, hk⟩ := h
      · exact ⟨t, mem_append_left _ ht, hk⟩
      · exact ⟨t, mem_append_right _ ht, hk⟩
    · intro h
      obtain ⟨t, ht, hk⟩ := h
      obtain ht | ht := mem_append.mp ht
      · exact .inl ⟨t, ht, hk⟩
      · exact .inr ⟨t, ht, hk⟩

theorem Reflects.commitMvcc {l : KvLedger} {ns key : GoString} (hl : Reflects l ns key)
    (cfg : Config) (block : Block) : Reflects (commitMvcc cfg l block).ledger ns key := by
  obtain hsame | ⟨block', updates, hist, hv, -, -, hstored⟩ := commitMvcc_stored cfg l block
  · rwa [hsame]
  · obtain ⟨flagsIn, flags, hblock, hflags, hloop⟩ := prepareBatch_stored hv
    have hnew : storedTxs [block'] = storedTxsFrom block.header.number flags 0 block.data := by
      rw [storedTxs_singleton hflags, hblock]
      rfl
    rw [hstored, Reflects, storedTxs_append, lastChange_append, hnew, ← get_insertAll_entries,
      ← validateLoop_batch hloop, StateDb.getState_applyUpdates, ← hl]
    cases updates.get ns key with
    | none => rfl
    | some u =>
      obtain ⟨value, version⟩ := u
      cases value with
      | none | some v => rfl

/-! ## Looking transactions up -/

def StoredTx.Before (t t' : StoredTx) : Prop :=
  t.block < t'.block ∨ t.block = t'.block ∧ t.tran < t'.tran

variable {t : StoredTx} {ds : List Bytes}

theorem mem_storedTxsFrom {number : UInt64} {flags : TxFlags} {i : Nat}
    (ht : t ∈ storedTxsFrom number flags i ds) :
    ∃ j d, ds[j]? = some d ∧ storedTx number (i + j) d = some t := by
  induction ds generalizing i with
  | nil => cases ht
  | cons d ds ih =>
    obtain ht | ht := mem_append.mp ht
    · split at ht
      · exact ⟨0, d, rfl, Option.mem_toList.mp ht⟩
      · cases ht
    · obtain ⟨j, d', hd', ht⟩ := ih ht
      exact ⟨j + 1, d', hd', by rwa [show i + (j + 1) = i + 1 + j by omega]⟩

variable {d : Bytes}

theorem storedTx_eq_some {number : UInt64} {i : Nat} (h : storedTx number i d = some t) :
    t.block = number ∧ t.tran = ofNat i ∧ carriedRwSet d = some t.rw ∧
      ∃ chdr, channelHeaderOf d = .ok chdr ∧ chdr.txId = t.txId := by
  unfold storedTx at h
  split at h
  · rename_i chdr rw hc hrw
    cases h
    exact ⟨rfl, rfl, hrw, chdr, hc, rfl⟩
  · cases h

theorem storedTxsFrom_ordered {number : UInt64} {flags : TxFlags} {i : Nat}
    (hlen : i + ds.length ≤ 2 ^ 64) :
    (storedTxsFrom number flags i ds).Pairwise StoredTx.Before := by
  induction ds generalizing i with
  | nil => exact List.Pairwise.nil
  | cons d ds ih =>
    rw [length_cons] at hlen
    rw [storedTxsFrom, pairwise_append]
    refine ⟨?_, ih (by omega), fun t ht t' ht' => ?_⟩
    · cases (if FlaggedValid flags i then storedTx number i d else none) with
      | none => exact List.Pairwise.nil
      | some t => exact pairwise_singleton _ t
    · have ht : storedTx number i d = some t := by
        split at ht
        · exact Option.mem_toList.mp ht
        · cases ht
      obtain ⟨j, d', hd', ht'⟩ := mem_storedTxsFrom ht'
      obtain ⟨hblock, htran, -⟩ := storedTx_eq_some ht
      obtain ⟨hblock', htran', -⟩ := storedTx_eq_some ht'
      have hj : j < ds.length := lt_length hd'
      refine .inr ⟨hblock.trans hblock'.symm, ?_⟩
      rw [htran, htran', lt_iff_toNat_lt, toNat_ofNat', toNat_ofNat',
        mod_eq_of_lt (by omega), mod_eq_of_lt (by omega)]
      omega

section Chain

variable {blocks : List Block}
  (hnumbers : ∀ (n : Nat) (b : Block), blocks[n]? = some b → b.header.number.toNat = n)
  (hlen : ∀ b ∈ blocks, b.data.length ≤ 2 ^ 64)
include hnumbers hlen

theorem storedTxs_ordered : (storedTxs blocks).Pairwise StoredTx.Before := by
  rw [storedTxs, pairwise_flatMap]
  refine ⟨fun b hb => storedTxsFrom_ordered (by rw [zero_add]; exact hlen b hb), ?_⟩
  rw [pairwise_iff_getElem]
  intro n m hn hm hnm t ht t' ht'
  obtain ⟨j, d, -, ht⟩ := mem_storedTxsFrom ht
  obtain ⟨j', d', -, ht'⟩ := mem_storedTxsFrom ht'
  left
  rw [(storedTx_eq_some ht).1, (storedTx_eq_some ht').1, lt_iff_toNat_lt,
    hnumbers n _ (getElem?_eq_getElem hn), hnumbers m _ (getElem?_eq_getElem hm)]
  exact hnm

theorem exists_envelope (ht : t ∈ storedTxs blocks) :
    ∃ d, (blocks[t.block.toNat]?.bind fun b => b.data[t.tran.toNat]?) = some d ∧
      carriedRwSet d = some t.rw ∧ ∃ chdr, channelHeaderOf d = .ok chdr ∧ chdr.txId = t.txId := by
  obtain ⟨b, hb, ht⟩ := mem_flatMap.mp ht
  obtain ⟨j, d, hd, ht⟩ := mem_storedTxsFrom ht
  obtain ⟨hblock, htran, hrest⟩ := storedTx_eq_some ht
  refine ⟨d, ?_, hrest⟩
  obtain ⟨n, hn⟩ := mem_iff_getElem?.mp hb
  have hj : j < b.data.length := lt_length hd
  have hbound := hlen b hb
  rw [hblock, hnumbers n b hn, hn, htran, Option.bind_some, toNat_ofNat', zero_add,
    mod_eq_of_lt (by omega), hd]

end Chain

variable {chdr : ChannelHeader} {xs : List α} {R S : α → β → Prop} {ys : List β} {x : α}

theorem keyModification_eq (hrw : carriedRwSet d = some rw)
    (hc : channelHeaderOf d = .ok chdr) (ns key : GoString) :
    (getEnvelopeFromBlock d >>= fun env => getKeyModificationFromTran env ns key) =
      findWrite rw ns key >>= fun w => .ok ⟨chdr.txId, w.value, w.isDelete⟩ := by
  obtain ⟨-, -, -, action, haction, hrw⟩ := carriedRwSet_eq_some hrw
  obtain ⟨env, henv, haction⟩ := bind_ok.mp haction
  obtain ⟨payload, hpayload, haction⟩ := bind_ok.mp haction
  obtain ⟨tx, htx, haction⟩ := bind_ok.mp haction
  obtain ⟨env', henv', hc⟩ := bind_ok.mp hc
  obtain rfl := ok.inj (henv.symm.trans henv')
  obtain ⟨payload', hpayload', hc⟩ := bind_ok.mp hc
  obtain rfl := ok.inj (hpayload.symm.trans hpayload')
  obtain ⟨hdr, hhdr, hc⟩ := bind_ok.mp hc
  cases hacts : tx.actions with
  | nil =>
    rw [hacts] at haction
    cases haction
  | cons act acts =>
    rw [hacts] at haction
    obtain ⟨⟨ccPayload, cca⟩, hpayloads, haction⟩ := bind_ok.mp haction
    cases haction
    have hact : index tx.actions 0 = .ok act := by
      rw [index_eq_ok, hacts]
      rfl
    rw [henv, ok_bind, getKeyModificationFromTran, hpayload, ok_bind, htx,
      ok_bind, hact, ok_bind, hpayloads, ok_bind]
    dsimp only
    rw [hhdr, ok_bind, hc, ok_bind, hrw]
    rfl

theorem nextModification_historyKey {blocks : List Block}
    (hd : (blocks[t.block.toNat]?.bind fun b => b.data[t.tran.toNat]?) = some d)
    (hrw : carriedRwSet d = some t.rw) (hc : channelHeaderOf d = .ok chdr)
    (hid : chdr.txId = t.txId) (ns key : GoString) :
    nextModification blocks ns key (historyKey ns key t.block t.tran) =
      findWrite t.rw ns key >>= fun w => .ok ⟨t.txId, w.value, w.isDelete⟩ := by
  have htran := decode_encode t.tran []
  rw [append_nil] at htran
  rw [nextModification, historyKey_eq, splitCompositeHistoryKey, splitFirst_append]
  rw [ok_bind]
  dsimp only
  rw [decode_encode, ok_bind]
  rw [drop_left, htran, ok_bind]
  rw [retrieveTxByBlockNumTranNum, hd]
  exact (keyModification_eq hrw hc ns key).trans (by rw [hid])

/-! ## When history and state agree -/

theorem filterMap_eq_map_iff {γ : Type} {f : α → Option γ} {g : β → γ} (h : ∀ x ∈ xs, f x ≠ none)
    (ys : List β) :
    xs.filterMap f = ys.map g ↔ List.Forall₂ (fun x y => f x = some (g y)) xs ys := by
  induction xs generalizing ys with
  | nil => simp [eq_comm]
  | cons x xs ih =>
    obtain ⟨c, hc⟩ := Option.ne_none_iff_exists'.mp (h x (by simp))
    rw [filterMap_cons_some hc]
    cases ys with
    | nil => simp
    | cons y ys =>
      rw [map_cons, cons.injEq, ih fun x hx => h x (by simp [hx]),
        forall₂_cons, hc, Option.some.injEq]

theorem forall₂_congr_mem (h : ∀ x ∈ xs, ∀ y, R x y ↔ S x y) :
    List.Forall₂ R xs ys ↔ List.Forall₂ S xs ys := by
  induction xs generalizing ys with
  | nil => rw [forall₂_nil_left_iff, forall₂_nil_left_iff]
  | cons x xs ih =>
    cases ys with
    | nil => simp
    | cons y ys => rw [forall₂_cons, forall₂_cons, h x (by simp), ih fun x hx => h x (by simp [hx])]

theorem forall₂_both (h : List.Forall₂ R xs ys) (h' : List.Forall₂ S xs ys) (hx : x ∈ xs) :
    ∃ y, R x y ∧ S x y := by
  induction h with
  | nil => cases hx
  | @cons a b as bs hr _ ih =>
    obtain ⟨hs, h'⟩ := forall₂_cons.mp h'
    obtain rfl | hx := mem_cons.mp hx
    · exact ⟨b, hr, hs⟩
    · exact ih h' hx

theorem exists_forall₂ (h : ∀ x ∈ xs, ∃ y, R x y) : ∃ ys, List.Forall₂ R xs ys := by
  induction xs with
  | nil => exact ⟨[], .nil⟩
  | cons x xs ih =>
    obtain ⟨y, hy⟩ := h x (by simp)
    obtain ⟨ys, hys⟩ := ih fun x hx => h x (by simp [hx])
    exact ⟨y :: ys, .cons hy hys⟩

theorem bytes_ne_of_lt {a b : Bytes} (h : a < b) : a ≠ b := by
  intro he
  rw [he] at h
  exact List.lt_irrefl b h

section Agreement

variable {cfg : Config} {l : KvLedger} (hl : Chronicled l)
  (hlen : ∀ b ∈ l.blocks, b.data.length ≤ 2 ^ 64) (ns key : GoString)

def writers (ts : List StoredTx) (ns key : GoString) : List StoredTx :=
  ts.filter fun t => t.rw.writesTo ns key ≠ []

def writerKeys (ts : List StoredTx) (ns key : GoString) : List Bytes :=
  (writers ts ns key).map fun t => historyKey ns key t.block t.tran

variable {ts : List StoredTx} {t : StoredTx}

theorem mem_writers {ns key : GoString} :
    t ∈ writers ts ns key ↔ t ∈ ts ∧ t.rw.writesTo ns key ≠ [] := by
  simp [writers]

theorem filterMap_writers (ts : List StoredTx) (ns key : GoString) :
    (writers ts ns key).filterMap (fun t => t.change ns key) =
      ts.filterMap fun t => t.change ns key := by
  rw [writers, filterMap_filter]
  congr 1
  funext t
  by_cases h : t.rw.writesTo ns key = []
  · simp [h, StoredTx.change]
  · simp [h]

theorem change_ne_none {ns key : GoString} (ht : t ∈ writers ts ns key) :
    t.change ns key ≠ none := by
  rw [StoredTx.change, ne_eq, Option.map_eq_none_iff, getLast?_eq_none_iff]
  exact (mem_writers.mp ht).2

def scannedKeys (l : KvLedger) (ns key : GoString) : List Bytes :=
  l.historyDb.getIterator (partialHistoryKey ns key false) (partialHistoryKey ns key true)

theorem mem_scannedKeys {l : KvLedger} {ns key : GoString} :
    k ∈ scannedKeys l ns key ↔ k ∈ l.historyDb.entries ∧ Scanned ns key k := by
  rw [scannedKeys, HistoryDb.getIterator, mem_filter, Std.ExtTreeSet.mem_toList,
    decide_eq_true_iff, Scanned]

theorem scannedKeys_ordered (l : KvLedger) (ns key : GoString) :
    (scannedKeys l ns key).Pairwise (· < ·) := by
  refine List.Pairwise.filter _ (Std.ExtTreeSet.ordered_toList.imp fun h => ?_)
  rwa [compare_eq_lt_iff_lt] at h

include hl

theorem writerKeys_subset : writerKeys (storedTxs l.blocks) ns key ⊆ scannedKeys l ns key := by
  intro k hk
  obtain ⟨t, ht, rfl⟩ := mem_map.mp hk
  obtain ⟨ht, hne⟩ := mem_writers.mp ht
  rw [mem_scannedKeys, hl.keys]
  refine ⟨⟨t, ht, ?_⟩, scanned_historyKey ..⟩
  obtain ⟨w, hw⟩ := exists_mem_of_ne_nil _ hne
  obtain ⟨s, hs, hns, hw, hkey⟩ := mem_writesTo.mp hw
  exact mem_flatMap.mpr ⟨s, hs, mem_map.mpr ⟨w, hw, by rw [hns, hkey]⟩⟩

theorem recognisable_keys_iff :
    (∀ t ∈ storedTxs l.blocks, ∀ s ∈ t.rw, ∀ w ∈ s.writes,
      Scanned ns key (historyKey s.ns w.key t.block t.tran) →
        ∃ t' ∈ storedTxs l.blocks, t'.rw.writesTo ns key ≠ [] ∧
          historyKey s.ns w.key t.block t.tran = historyKey ns key t'.block t'.tran) ↔
      scannedKeys l ns key ⊆ writerKeys (storedTxs l.blocks) ns key := by
  constructor
  · intro h k hk
    obtain ⟨hk, hscan⟩ := mem_scannedKeys.mp hk
    obtain ⟨t, ht, hk⟩ := (hl.keys k).mp hk
    obtain ⟨s, hs, hk⟩ := mem_flatMap.mp hk
    obtain ⟨w, hw, rfl⟩ := mem_map.mp hk
    obtain ⟨t', ht', hne, heq⟩ := h t ht s hs w hw hscan
    exact mem_map.mpr ⟨t', mem_writers.mpr ⟨ht', hne⟩, heq.symm⟩
  · intro h t ht s hs w hw hscan
    have hentry : historyKey s.ns w.key t.block t.tran ∈ l.historyDb.entries :=
      (hl.keys _).mpr ⟨t, ht, mem_flatMap.mpr ⟨s, hs, mem_map.mpr ⟨w, hw, rfl⟩⟩⟩
    obtain ⟨t', ht', heq⟩ := mem_map.mp (h (mem_scannedKeys.mpr ⟨hentry, hscan⟩))
    obtain ⟨ht', hne⟩ := mem_writers.mp ht'
    exact ⟨t', ht', hne, heq.symm⟩

omit hl in
/-- The last entry of a right history is the last change. -/
theorem getLast?_change {ms : List KeyModification} (hms : ms.map (fun m => (m.txId, m.change)) =
      (storedTxs l.blocks).filterMap fun t => t.change ns key) :
    ms.getLast?.bind KeyModification.change = lastChange (storedTxs l.blocks) ns key := by
  rw [lastChange, ← hms, getLast?_map]
  cases ms.getLast? with
  | none | some m => rfl

include hlen

theorem writerKeys_ordered : (writerKeys (storedTxs l.blocks) ns key).Pairwise (· < ·) := by
  rw [writerKeys, pairwise_map]
  exact ((storedTxs_ordered hl.numbers hlen).filter _).imp fun h => historyKey_lt ns key h

theorem scannedKeys_eq (h : scannedKeys l ns key ⊆ writerKeys (storedTxs l.blocks) ns key) :
    scannedKeys l ns key = writerKeys (storedTxs l.blocks) ns key := by
  have hordered := scannedKeys_ordered l ns key
  have hordered' := writerKeys_ordered hl hlen ns key
  have hperm : (scannedKeys l ns key).Perm (writerKeys (storedTxs l.blocks) ns key) :=
    (perm_ext_iff_of_nodup (hordered.imp bytes_ne_of_lt)
      (hordered'.imp bytes_ne_of_lt)).mpr fun k =>
        ⟨fun hk => h hk, fun hk => writerKeys_subset hl ns key hk⟩
  exact hperm.eq_of_pairwise
    (fun a b _ _ (hab : a < b) (hba : b < a) => absurd hba (List.lt_asymm hab)) hordered hordered'

theorem mapM_writerKeys (ms : List KeyModification) :
    (writerKeys (storedTxs l.blocks) ns key).mapM (nextModification l.blocks ns key) = .ok ms ↔
      List.Forall₂ (fun t m => ∃ w, findWrite t.rw ns key = .ok w ∧
        m = ⟨t.txId, w.value, w.isDelete⟩) (writers (storedTxs l.blocks) ns key) ms := by
  rw [mapM_eq_ok, writerKeys, forall₂_map_left_iff]
  refine forall₂_congr_mem fun t ht m => ?_
  obtain ⟨d, hd, hrw, chdr, hc, hid⟩ := exists_envelope hl.numbers hlen (mem_writers.mp ht).1
  rw [nextModification_historyKey hd hrw hc hid, bind_ok]
  simp only [ok.injEq, eq_comm]

/-- The history of a key is right exactly if the key is recognisable and its state is what the
endorsed writes leave. -/
theorem historyAgrees_iff (hh : cfg.historyDbEnabled = true) :
    HistoryAgrees cfg l ns key ↔
      Recognisable (storedTxs l.blocks) ns key ∧ Reflects l ns key := by
  have hquery : getHistoryForKey cfg l ns key =
      (scannedKeys l ns key).mapM (nextModification l.blocks ns key) := if_pos hh
  rw [HistoryAgrees, hquery]
  constructor
  · intro h
    obtain ⟨ms, hquery, hms, hlast⟩ := h
    -- as many keys are scanned as there are writers, so they are those of the writers
    have hscan : scannedKeys l ns key ⊆ writerKeys (storedTxs l.blocks) ns key := by
      have hlength : (scannedKeys l ns key).length =
          (writerKeys (storedTxs l.blocks) ns key).length := by
        have hsome := (filterMap_eq_map_iff (fun t ht => change_ne_none ht) ms).mp
          ((filterMap_writers ..).trans hms.symm)
        rw [writerKeys, length_map, hsome.length_eq]
        exact (mapM_eq_ok.mp hquery).length_eq
      have hnodup : (writerKeys (storedTxs l.blocks) ns key).Nodup :=
        (writerKeys_ordered hl hlen ns key).imp bytes_ne_of_lt
      exact ((hnodup.subperm (writerKeys_subset hl ns key)).perm_of_length_le hlength.le).symm.subset
    refine ⟨⟨(recognisable_keys_iff hl ns key).mpr hscan, fun t ht w hw => ?_⟩,
      hlast.symm.trans (getLast?_change ns key hms)⟩
    rw [scannedKeys_eq hl hlen ns key hscan, mapM_writerKeys hl hlen] at hquery
    have hchange := (filterMap_eq_map_iff (fun t ht => change_ne_none ht) ms).mp
      ((filterMap_writers ..).trans hms.symm)
    have hmem : t ∈ writers (storedTxs l.blocks) ns key :=
      mem_writers.mpr ⟨ht, fun hnil => by rw [hnil] at hw; cases hw⟩
    obtain ⟨m, ⟨w', hfind, hm⟩, heq⟩ := forall₂_both hquery hchange hmem
    rw [StoredTx.change, hw, hm] at heq
    obtain ⟨-, heq⟩ := Prod.mk.inj (Option.some.inj heq)
    exact ⟨w', hfind, heq.symm⟩
  · intro h
    obtain ⟨h, hstate⟩ := h
    have hscan := (recognisable_keys_iff hl ns key).mp h.keys
    have hfound : ∀ t ∈ writers (storedTxs l.blocks) ns key,
        ∃ m : KeyModification, (∃ w, findWrite t.rw ns key = .ok w ∧
          m = ⟨t.txId, w.value, w.isDelete⟩) ∧ t.change ns key = some (m.txId, m.change) := by
      intro t ht
      obtain ⟨ht, hne⟩ := mem_writers.mp ht
      obtain ⟨w, hw⟩ := Option.ne_none_iff_exists'.mp fun hnone =>
        hne (getLast?_eq_none_iff.mp hnone)
      obtain ⟨w', hfind, hchange⟩ := h.write t ht w hw
      refine ⟨⟨t.txId, w'.value, w'.isDelete⟩, ⟨w', hfind, rfl⟩, ?_⟩
      rw [StoredTx.change, hw, Option.map_some, ← hchange]
      rfl
    obtain ⟨ms, hms⟩ := exists_forall₂ hfound
    have hquery := (mapM_writerKeys hl hlen ns key ms).mpr (hms.imp fun _ _ h => h.1)
    have hchanges := (filterMap_eq_map_iff (fun t ht => change_ne_none ht) ms).mpr
      (hms.imp fun _ _ h => h.2)
    rw [filterMap_writers] at hchanges
    rw [scannedKeys_eq hl hlen ns key hscan]
    exact ⟨ms, hquery, hchanges.symm, (getLast?_change ns key hchanges.symm).trans hstate.symm⟩

end Agreement

/-! ## Runs of commits -/

/-- A block committed by a peer with a history database; a scheduled commit goes through. -/
structure HistoryStep (l : KvLedger) (c : CommitStep) : Prop where
  history : c.cfg.historyDbEnabled = true
  length : c.block.data.length ≤ 2 ^ 64
  completes : c.cfg.benchReplayEnabled = true → parseBatchSchedule c.block ≠ none →
    (c.run l).outcome = .ok ()

def CommitStep.OnMvccPath (c : CommitStep) : Prop :=
  c.cfg.benchReplayEnabled = true → parseBatchSchedule c.block = none

theorem CommitStep.OnMvccPath.run_eq {c : CommitStep} (h : c.OnMvccPath) (l : KvLedger) :
    c.run l = commitMvcc c.cfg l c.block := by
  rw [CommitStep.run, commit]
  split
  · rename_i he
    rw [h he]
  · rfl

/-- What a commit adds to the chain, if anything, it adds to the history database. -/
theorem HistoryStep.appended {l : KvLedger} {c : CommitStep} (h : HistoryStep l c) :
    (c.run l).ledger = l ∨ ∃ block' flags db hist,
      block'.header.number.toNat = l.blocks.length ∧ block'.data = c.block.data ∧
      block'.txsFilter = .ok flags ∧ l.historyDb.commit block' = .ok hist ∧
      (c.run l).ledger = ⟨l.blocks ++ [block'], db, hist⟩ := by
  by_cases hpath : c.OnMvccPath
  · rw [hpath.run_eq]
    obtain hsame | ⟨block', updates, hist, hv, hnumber, hcommit, hstored⟩ :=
      commitMvcc_stored c.cfg l c.block
    · exact .inl hsame
    · obtain ⟨-, flags, hblock, hflags, -⟩ := prepareBatch_stored hv
      rw [Config.commitHistory, if_pos h.history] at hcommit
      exact .inr ⟨block', flags, _, hist, hnumber, by rw [hblock]; rfl, hflags, hcommit, hstored⟩
  · obtain ⟨he, hs⟩ := Classical.not_imp.mp hpath
    have hok := h.completes he hs
    obtain ⟨s, hs⟩ := Option.ne_none_iff_exists'.mp hs
    rw [CommitStep.run, commit, if_pos he, hs] at hok ⊢
    obtain ⟨x⟩ := completed_of_ok hok
    have hhist := x.history_eq
    rw [if_pos h.history] at hhist
    obtain ⟨flags, hflags⟩ : ∃ flags, x.block'.txsFilter = .ok flags := by
      rw [Block.txsFilter, x.prepared.stored_flags]
      exact ⟨_, rfl⟩
    exact .inr ⟨x.block', flags, _, x.history, x.number, by rw [x.prepared.block_eq]; rfl, hflags,
      hhist, x.ledger⟩

theorem chronicled_ledgerAfter {cs : List CommitStep}
    (h : ∀ earlier c later, cs = earlier ++ c :: later → HistoryStep (ledgerAfter empty earlier) c) :
    Chronicled (ledgerAfter empty cs) ∧
      ∀ b ∈ (ledgerAfter empty cs).blocks, b.data.length ≤ 2 ^ 64 := by
  induction cs using reverseRecOn with
  | nil => exact ⟨chronicled_empty, fun b hb => nomatch hb⟩
  | append_singleton cs c ih =>
    obtain ⟨hl, hlen⟩ := ih fun earlier c' later heq => h earlier c' (later ++ [c]) (by simp [heq])
    have hc := h cs c [] rfl
    have hlast : ledgerAfter empty (cs ++ [c]) = (c.run (ledgerAfter empty cs)).ledger :=
      foldl_append ..
    rw [hlast]
    obtain hsame | ⟨block', flags, db, hist, hnumber, hdata, hflags, hcommit, hstored⟩ := hc.appended
    · rw [hsame]
      exact ⟨hl, hlen⟩
    · rw [hstored]
      refine ⟨hl.append hnumber hflags hcommit db, fun b hb => ?_⟩
      obtain hb | hb := mem_append.mp hb
      · exact hlen b hb
      · rw [mem_singleton.mp hb, hdata]
        exact hc.length

theorem reflects_ledgerAfter {cs : List CommitStep} (h : ∀ c ∈ cs, c.OnMvccPath)
    (ns key : GoString) : Reflects (ledgerAfter empty cs) ns key := by
  induction cs using reverseRecOn with
  | nil => simp [ledgerAfter, Reflects, empty, StateDb.empty, StateDb.getState, lastChange, storedTxs]
  | append_singleton cs c ih =>
    have hrun := (h c (by simp)).run_eq (ledgerAfter empty cs)
    rw [ledgerAfter, foldl_append]
    show Reflects (c.run (ledgerAfter empty cs)).ledger ns key
    rw [hrun]
    exact (ih fun c' hc' => h c' (mem_append_left _ hc')).commitMvcc c.cfg c.block

theorem find?_of_nodup {f : α → GoString} {b : GoString} (hn : (xs.map f).Nodup) (hx : x ∈ xs)
    (h : f x = b) :
    (xs.find? fun y => f y = b) = some x := by
  induction xs with
  | nil => cases hx
  | cons y xs ih =>
    obtain ⟨hy, hn⟩ := nodup_cons.mp hn
    obtain rfl | hx := mem_cons.mp hx
    · exact find?_cons_of_pos (decide_eq_true h)
    · have hne : f y ≠ b := by
        intro he
        exact hy (he.trans h.symm ▸ mem_map_of_mem hx)
      rw [find?_cons_of_neg (by simpa using hne)]
      exact ih hn hx

/-- Zero bytes separate parts that have none, and there is one write to find. -/
theorem recognisable_of_plain {ts : List StoredTx} {ns key : GoString} (hns : 0 ∉ ns)
    (hkey : 0 ∉ key)
    (hplain : ∀ t ∈ ts, ∀ s ∈ t.rw, 0 ∉ s.ns ∧ ∀ w ∈ s.writes, 0 ∉ w.key)
    (hone : ∀ t ∈ ts, (t.rw.map (·.ns)).Nodup ∧ ∀ s ∈ t.rw, (s.writes.map (·.key)).Nodup) :
    Recognisable ts ns key where
  keys t ht s hs w hw hscan := by
    obtain ⟨rest, hrest, -⟩ := scanned_iff.mp hscan
    obtain ⟨hsns, hskey⟩ := hplain t ht s hs
    have hsplit : s.ns ++ 0 :: (w.key ++ 0 :: (encodeOrderPreservingVarUint64 t.block ++
        encodeOrderPreservingVarUint64 t.tran)) = ns ++ 0 :: (key ++ 0 :: rest) := by
      simpa [historyKey, partialHistoryKey] using hrest
    obtain ⟨hsns, hsplit⟩ := append_sep_inj hsns hns hsplit
    obtain ⟨hwkey, -⟩ := append_sep_inj (hskey w hw) hkey hsplit
    exact ⟨t, ht, ne_nil_of_mem (mem_writesTo.mpr ⟨s, hs, hsns, hw, hwkey⟩), by rw [hsns, hwkey]⟩
  write t ht w hw := by
    obtain ⟨hsets, hwrites⟩ := hone t ht
    obtain ⟨s, hs, hsns, hw, hwkey⟩ := mem_writesTo.mp (mem_of_getLast? hw)
    refine ⟨w, ?_, rfl⟩
    rw [findWrite, find?_of_nodup hsets hs hsns]
    dsimp only
    rw [find?_of_nodup (hwrites s hs) hw hwkey]

def twoPuts : List CommitStep :=
  [⟨historyConfig, MapOrder.sorted, plainBlock 0 [putTx (str "t1") (str "k") (str "v")]⟩,
    ⟨historyConfig, MapOrder.sorted, plainBlock 1 [putTx (str "t2") (str "k") (str "w")]⟩]

def putTwoTx (txId key key' value : GoString) : SignedTx :=
  { SignedTx.bare txId (str "mycc") [str "put"] with
    results := TxRwSet.toProtoBytes
      [⟨str "mycc", [], [], [⟨key, false, some value⟩, ⟨key', false, some value⟩]⟩] }

end FabricOev.Ledger
