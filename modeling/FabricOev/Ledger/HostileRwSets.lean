import FabricOev.Ledger.PhantomChecks
import FabricOev.Ledger.SpuriousConflicts

/-!
# Hostile read-write sets

The read-write set of a transaction comes from the endorsers of other organisations, and
validation takes it as it was decoded. A read of a range query may have no version, a Merkle
summary any degree, level and hashes, a write neither a value nor the mark of a delete: at
each of them validation can panic. The conditions below say exactly when it comes to that.
-/

namespace FabricOev.Ledger

open Go Protos Lib List Result UInt64 Nat Except HeaderType

variable {hash : Bytes → Bytes} {db : StateDb} {updates : UpdateBatch} {number : UInt64}
  {mvcc : Bool} {kvs : List KvRead} {rs : List (GoString × VersionedValue)} {m : MerkleSummary}
  {ns : GoString} {q : RangeQueryInfo} {qs : List RangeQueryInfo} {s : NsRwSet} {ss : TxRwSet}
  {rw : TxRwSet} {α β : Type} {d : Bytes} {chdr : ChannelHeader} {st : TxFlags × UpdateBatch}
  {i : Nat}

/-! ## Range queries -/

/-- After reads that agree with the results comes one for the next key, without a version. -/
def LacksVersion (kvs : List KvRead) (rs : List (GoString × VersionedValue)) : Prop :=
  ∃ same kv more r rest, kvs = same.map readOf ++ kv :: more ∧ rs = same ++ r :: rest ∧
    r.1 = kv.key ∧ kv.version = none

theorem lacksVersion_cons {kv : KvRead} {r : GoString × VersionedValue} :
    LacksVersion (kv :: kvs) (r :: rs) ↔
      (r.1 = kv.key ∧ kv.version = none) ∨ (readOf r = kv ∧ LacksVersion kvs rs) := by
  constructor
  · intro h
    obtain ⟨same, kv', more, r', rest, hkvs, hrs, hkey, hver⟩ := h
    cases same with
    | nil =>
      obtain ⟨rfl, -⟩ := cons.inj hkvs
      obtain ⟨rfl, -⟩ := cons.inj hrs
      exact .inl ⟨hkey, hver⟩
    | cons e same =>
      obtain ⟨rfl, hkvs'⟩ := cons.inj hkvs
      obtain ⟨rfl, hrs'⟩ := cons.inj hrs
      exact .inr ⟨rfl, same, kv', more, r', rest, hkvs', hrs', hkey, hver⟩
  · intro h
    obtain ⟨hkey, hver⟩ | ⟨rfl, same, kv', more, r', rest, rfl, rfl, hkey, hver⟩ := h
    · exact ⟨[], kv, kvs, r, rs, rfl, rfl, hkey, hver⟩
    · exact ⟨r :: same, kv', more, r', rest, rfl, rfl, hkey, hver⟩

theorem validateResults_panics : (validateResults kvs rs).Panics ↔ LacksVersion kvs rs := by
  induction kvs generalizing rs with
  | nil =>
    refine iff_of_false (not_panics_ok _) ?_
    intro h
    obtain ⟨same, kv, more, r, rest, hkvs, -⟩ := h
    cases same <;> cases hkvs
  | cons kv kvs ih =>
    cases rs with
    | nil =>
      refine iff_of_false (not_panics_ok _) ?_
      intro h
      obtain ⟨same, kv', more, r, rest, -, hrs, -⟩ := h
      cases same <;> cases hrs
    | cons r rs =>
      rw [validateResults_cons, lacksVersion_cons]
      split_ifs with hnone hread
      · exact iff_of_true ⟨_, rfl⟩ (.inl hnone)
      · rw [ih, or_iff_right hnone, and_iff_right hread]
      · refine iff_of_false (not_panics_ok _) ?_
        rw [or_iff_right hnone]
        exact fun h => hread h.1

/-- The results fill the recorded level with recorded hashes, and suffice for a level above it. -/
def Overflows (hash : Bytes → Bytes) (m : MerkleSummary) (kvs : List KvRead) : Prop :=
  (m.maxDegree + 1) ^ (max 1 m.maxLevel + 1) ≤ kvs.length ∧
    LevelTree.top ((⟨[], [[]], m.maxDegree⟩ : ResultsHelper).addAll hash
      (kvs.take (m.maxDegree * (m.maxDegree + 1) ^ max 1 m.maxLevel))).tree <+: m.hashes

/-- Level 0 is never reached, so that the comparison is the one for the leaves. -/
theorem validateHashes_level_zero (hm : m.maxLevel = 0) (rs : List (GoString × VersionedValue))
    {r : ResultsHelper} (hne : r.tree ≠ []) (k : Nat) :
    (validateHashes hash m rs r k).Panics ↔
      (validateHashes hash { m with maxLevel := 1 } rs r k).Panics := by
  induction rs generalizing r k with
  | nil => exact iff_of_false (not_panics_ok _) (not_panics_ok _)
  | cons e rs ih =>
    have hne' : (r.addResult hash (readOf e)).tree ≠ [] := ResultsHelper.addResult_tree_ne_nil hne _
    have hlen : ¬ (r.addResult hash (readOf e)).tree.length < 1 :=
      not_lt.mpr (length_pos_iff.mpr hne')
    rw [validateHashes_cons, validateHashes_cons, if_neg (by omega), if_neg hlen]
    split_ifs
    · exact ih hne' k
    · exact Iff.rfl
    · simp only [panics_bind]
      have hnext : ∀ h h' : Bytes, Result.Panics (if h = h' then
            validateHashes hash m rs (r.addResult hash (readOf e)) (k + 1) else .ok false) ↔
          Result.Panics (if h = h' then
            validateHashes hash { m with maxLevel := 1 } rs (r.addResult hash (readOf e)) (k + 1)
            else .ok false) := by
        intro h h'
        split_ifs
        · exact ih hne' (k + 1)
        · exact Iff.rfl
      refine or_congr_right (exists_congr fun h => and_congr_right fun _ => ?_)
      exact or_congr_right (exists_congr fun h' => and_congr_right fun _ => hnext h h')

theorem validateHashes_panics_of_pos (hdeg : 2 ≤ m.maxDegree) (hm : 1 ≤ m.maxLevel)
    (rs : List (GoString × VersionedValue)) :
    (validateHashes hash m rs ⟨[], [[]], m.maxDegree⟩ 0).Panics ↔
      Overflows hash m (rs.map readOf) := by
  obtain ⟨l, hl⟩ : ∃ l, m.maxLevel = l + 1 := ⟨m.maxLevel - 1, by omega⟩
  have hbelow : Below [[]] m := by
    by_cases hlt : 1 < m.maxLevel
    · exact .inl hlt
    · exact .inr ⟨by rw [length_singleton]; omega, nil_prefix⟩
  have hk : Compared m [[]] 0 := by
    obtain hlt | ⟨heq, -⟩ := hbelow
    · exact .inl ⟨hlt, rfl⟩
    · exact .inr ⟨heq, rfl⟩
  have hbounded : Lib.LevelTree.Bounded m.maxDegree ([[]] : List (List Bytes)) := by
    intro l hl
    obtain rfl := mem_singleton.mp hl
    exact zero_le _
  obtain ⟨hout, hin⟩ := validateHashes_eq hash (r := ⟨[], [[]], m.maxDegree⟩) hdeg (by simp)
    hbounded hk hbelow rs
  rw [Overflows, max_eq_right hm, hl, ← outgrows_iff hdeg hl]
  by_cases h : Outgrows hash m ⟨[], [[]], m.maxDegree⟩ (rs.map readOf)
  · exact iff_of_true ⟨_, hout h⟩ h
  · rw [hin h]
    exact iff_of_false (not_panics_ok _) h

theorem validateHashes_panics (hdeg : 2 ≤ m.maxDegree) (rs : List (GoString × VersionedValue)) :
    (validateHashes hash m rs ⟨[], [[]], m.maxDegree⟩ 0).Panics ↔
      Overflows hash m (rs.map readOf) := by
  by_cases hm : m.maxLevel = 0
  · rw [validateHashes_level_zero hm rs (by simp)]
    rw [validateHashes_panics_of_pos (m := { m with maxLevel := 1 }) hdeg (le_refl 1) rs, Overflows,
      Overflows, hm]
    exact Iff.rfl
  · exact validateHashes_panics_of_pos hdeg (by omega) rs

def QueryFails (hash : Bytes → Bytes) (db : StateDb) (updates : UpdateBatch) (ns : GoString)
    (q : RangeQueryInfo) : Prop :=
  let results := combinedResults db updates ns q.startKey q.endKey (!q.itrExhausted)
  match q.readsInfo with
  | .merkleHashes m => m.maxDegree < 2 ∨ Overflows hash m (results.map readOf)
  | .rawReads rs => LacksVersion rs results
  | .absent => False

theorem rangeQuery_panics :
    (validateRangeQuery hash db updates ns q).Panics ↔ QueryFails hash db updates ns q := by
  unfold validateRangeQuery QueryFails
  cases q.readsInfo with
  | absent => exact iff_of_false (not_panics_ok _) id
  | rawReads rs => exact validateResults_panics
  | merkleHashes m =>
    dsimp only
    by_cases hdeg : m.maxDegree < 2
    · rw [ResultsHelper.new, if_pos hdeg]
      exact iff_of_true ⟨_, rfl⟩ (.inl hdeg)
    · rw [ResultsHelper.new, if_neg hdeg]
      show (validateHashes hash m _ ⟨[], [[]], m.maxDegree⟩ 0).Panics ↔ _
      rw [validateHashes_panics (by omega), or_iff_right hdeg]

/-! ## Transactions -/

def QueriesFail (hash : Bytes → Bytes) (db : StateDb) (updates : UpdateBatch) (ns : GoString)
    (qs : List RangeQueryInfo) : Prop :=
  ∃ pre q post, qs = pre ++ q :: post ∧
    (∀ q' ∈ pre, validateRangeQuery hash db updates ns q' = .ok true) ∧
    QueryFails hash db updates ns q

theorem queriesFail_cons :
    QueriesFail hash db updates ns (q :: qs) ↔ QueryFails hash db updates ns q ∨
      (validateRangeQuery hash db updates ns q = .ok true ∧ QueriesFail hash db updates ns qs) := by
  constructor
  · intro h
    obtain ⟨pre, q', post, hqs, hpre, hfail⟩ := h
    cases pre with
    | nil =>
      obtain ⟨rfl, -⟩ := cons.inj hqs
      exact .inl hfail
    | cons p pre =>
      obtain ⟨rfl, hqs'⟩ := cons.inj hqs
      rw [forall_mem_cons] at hpre
      exact .inr ⟨hpre.1, pre, q', post, hqs', hpre.2, hfail⟩
  · intro h
    obtain h | ⟨hq, pre, q', post, rfl, hpre, hfail⟩ := h
    · exact ⟨[], q, qs, rfl, by simp, h⟩
    · exact ⟨q :: pre, q', post, rfl, forall_mem_cons.mpr ⟨hq, hpre⟩, hfail⟩

theorem rangeQueries_panics :
    (validateRangeQueries hash db updates ns qs).Panics ↔ QueriesFail hash db updates ns qs := by
  induction qs with
  | nil =>
    refine iff_of_false (not_panics_ok _) ?_
    intro h
    obtain ⟨pre, q, post, hqs, -⟩ := h
    cases pre <;> cases hqs
  | cons q qs ih =>
    rw [validateRangeQueries, panics_bind, rangeQuery_panics, queriesFail_cons, ← ih]
    refine or_congr_right ⟨fun h => ?_, fun h => ⟨true, h.1, h.2⟩⟩
    obtain ⟨ok, hok, h⟩ := h
    cases ok with
    | true => exact ⟨hok, h⟩
    | false => exact absurd h (not_panics_ok _)

def ReadsFail (hash : Bytes → Bytes) (db : StateDb) (updates : UpdateBatch) (rw : TxRwSet) : Prop :=
  ∃ pre s post, rw = pre ++ s :: post ∧ validateTx hash db updates pre = .ok .valid ∧
    validateReadSet db updates s.ns s.reads = true ∧
    QueriesFail hash db updates s.ns s.rangeQueries

theorem validateTx_cons_valid :
    validateTx hash db updates (s :: ss) = .ok .valid ↔
      (validateReadSet db updates s.ns s.reads = true ∧
        validateRangeQueries hash db updates s.ns s.rangeQueries = .ok true) ∧
      validateTx hash db updates ss = .ok .valid := by
  rw [validateTx_eq_valid, validateTx_eq_valid, forall_mem_cons, rangeQueries_eq_true]

theorem readsFail_cons :
    ReadsFail hash db updates (s :: ss) ↔ validateReadSet db updates s.ns s.reads = true ∧
      (QueriesFail hash db updates s.ns s.rangeQueries ∨
        (validateRangeQueries hash db updates s.ns s.rangeQueries = .ok true ∧
          ReadsFail hash db updates ss)) := by
  constructor
  · intro h
    obtain ⟨pre, s', post, hrw, hpre, hreads, hfail⟩ := h
    cases pre with
    | nil =>
      obtain ⟨rfl, -⟩ := cons.inj hrw
      exact ⟨hreads, .inl hfail⟩
    | cons p pre =>
      obtain ⟨rfl, hrw'⟩ := cons.inj hrw
      obtain ⟨⟨hr, hq⟩, hpre'⟩ := validateTx_cons_valid.mp hpre
      exact ⟨hr, .inr ⟨hq, pre, s', post, hrw', hpre', hreads, hfail⟩⟩
  · intro h
    obtain ⟨hr, h | ⟨hq, pre, s', post, rfl, hpre, hreads, hfail⟩⟩ := h
    · exact ⟨[], s, ss, rfl, rfl, hr, h⟩
    · exact ⟨s :: pre, s', post, rfl, validateTx_cons_valid.mpr ⟨⟨hr, hq⟩, hpre⟩, hreads, hfail⟩

theorem validateTx_panics :
    (validateTx hash db updates rw).Panics ↔ ReadsFail hash db updates rw := by
  induction rw with
  | nil =>
    refine iff_of_false (not_panics_ok _) ?_
    intro h
    obtain ⟨pre, s, post, hrw, -⟩ := h
    cases pre <;> cases hrw
  | cons s ss ih =>
    rw [validateTx, readsFail_cons]
    split_ifs with hreads
    · rw [panics_bind, rangeQueries_panics, and_iff_right hreads, ← ih]
      refine or_congr_right ⟨fun h => ?_, fun h => ⟨true, h.1, h.2⟩⟩
      obtain ⟨ok, hok, h⟩ := h
      cases ok with
      | true => exact ⟨hok, h⟩
      | false => exact absurd h (not_panics_ok _)
    · exact iff_of_false (not_panics_ok _) fun h => hreads h.1

/-- What is not a panic is a result: none of this returns an error. -/
theorem panics_or_ok_bind {x : Result α} {f : α → Result β} (hx : x.Panics ∨ ∃ a, x = .ok a)
    (hf : ∀ a, (f a).Panics ∨ ∃ b, f a = .ok b) :
    (x >>= f).Panics ∨ ∃ b, x >>= f = .ok b := by
  obtain ⟨p, rfl⟩ | ⟨a, rfl⟩ := hx
  · exact .inl ⟨p, rfl⟩
  · exact hf a

variable (kvs rs) in
theorem validateResults_panics_or_ok :
    (validateResults kvs rs).Panics ∨ ∃ b, validateResults kvs rs = .ok b := by
  induction kvs generalizing rs with
  | nil => exact .inr ⟨_, rfl⟩
  | cons kv kvs ih =>
    cases rs with
    | nil => exact .inr ⟨_, rfl⟩
    | cons r rs =>
      rw [validateResults_cons]
      split_ifs
      · exact .inl ⟨_, rfl⟩
      · exact ih rs
      · exact .inr ⟨_, rfl⟩

theorem index_panics_or_ok (xs : List α) (i : Nat) :
    (index xs i).Panics ∨ ∃ a, index xs i = .ok a := by
  unfold index
  split
  · exact .inr ⟨_, rfl⟩
  · exact .inl ⟨_, rfl⟩

theorem validateHashes_panics_or_ok (m : MerkleSummary) (rs : List (GoString × VersionedValue))
    (r : ResultsHelper) (k : Nat) :
    (validateHashes hash m rs r k).Panics ∨ ∃ b, validateHashes hash m rs r k = .ok b := by
  induction rs generalizing r k with
  | nil => exact .inr ⟨_, rfl⟩
  | cons e rs ih =>
    rw [validateHashes]
    split
    · exact ih _ _
    · split
      · exact ih _ _
      · split
        · exact .inr ⟨_, rfl⟩
        · refine panics_or_ok_bind (index_panics_or_ok _ _) fun h =>
            panics_or_ok_bind (index_panics_or_ok _ _) fun h' => ?_
          split
          · exact ih _ _
          · exact .inr ⟨_, rfl⟩

variable (ns q rw)

theorem rangeQuery_panics_or_ok :
    (validateRangeQuery hash db updates ns q).Panics ∨
      ∃ b, validateRangeQuery hash db updates ns q = .ok b := by
  unfold validateRangeQuery
  cases q.readsInfo with
  | absent => exact .inr ⟨_, rfl⟩
  | rawReads rs => exact validateResults_panics_or_ok _ _
  | merkleHashes m =>
    refine panics_or_ok_bind ?_ fun r => validateHashes_panics_or_ok _ _ _ _
    cases ResultsHelper.new m.maxDegree with
    | none => exact .inl ⟨_, rfl⟩
    | some r => exact .inr ⟨r, rfl⟩

theorem rangeQueries_panics_or_ok (qs : List RangeQueryInfo) :
    (validateRangeQueries hash db updates ns qs).Panics ∨
      ∃ b, validateRangeQueries hash db updates ns qs = .ok b := by
  induction qs with
  | nil => exact .inr ⟨_, rfl⟩
  | cons q qs ih =>
    refine panics_or_ok_bind (rangeQuery_panics_or_ok ns q) fun ok => ?_
    split
    · exact ih
    · exact .inr ⟨_, rfl⟩

theorem validateTx_panics_or_ok :
    (validateTx hash db updates rw).Panics ∨ ∃ code, validateTx hash db updates rw = .ok code := by
  induction rw with
  | nil => exact .inr ⟨_, rfl⟩
  | cons s ss ih =>
    rw [validateTx]
    split
    · refine panics_or_ok_bind (rangeQueries_panics_or_ok _ _) fun ok => ?_
      split
      · exact ih
      · exact .inr ⟨_, rfl⟩
    · exact .inr ⟨_, rfl⟩

theorem foldlM_panics_or_ok {f : β → α → Result β}
    (hf : ∀ b a, (f b a).Panics ∨ ∃ b', f b a = .ok b') (as : List α) (b : β) :
    (as.foldlM f b).Panics ∨ ∃ b', as.foldlM f b = .ok b' := by
  induction as generalizing b with
  | nil => exact .inr ⟨b, rfl⟩
  | cons a as ih => exact panics_or_ok_bind (hf b a) ih

theorem addWriteSet_panics_or_ok (h : Height) (b : UpdateBatch) :
    (addWriteSetToBatch rw h b).Panics ∨ ∃ b', addWriteSetToBatch rw h b = .ok b' := by
  refine foldlM_panics_or_ok (fun b s => foldlM_panics_or_ok (fun b w => ?_) _ b) rw b
  unfold addWrite UpdateBatch.put
  split
  · exact .inr ⟨_, rfl⟩
  · cases w.value with
    | none => exact .inl ⟨_, rfl⟩
    | some v => exact .inr ⟨_, rfl⟩

variable {ns q rw}

def LacksValue (rw : TxRwSet) : Prop :=
  ∃ s ∈ rw, ∃ w ∈ s.writes, w.isDelete = false ∧ w.value = none

theorem addWriteSet_panics {h : Height} {b : UpdateBatch} :
    (addWriteSetToBatch rw h b).Panics ↔ LacksValue rw := by
  have hok := addWriteSet_isOk rw h b
  constructor
  · intro hp
    obtain ⟨p, hp⟩ := hp
    by_contra hnot
    obtain ⟨b', hb'⟩ := hok.mpr fun s hs w hw => by
      by_contra hw'
      push Not at hw'
      exact hnot ⟨s, hs, w, hw, by simpa using hw'.1, hw'.2⟩
    rw [hp] at hb'
    cases hb'
  · intro hlacks
    obtain ⟨s, hs, w, hw, hdel, hval⟩ := hlacks
    obtain hp | hb' := addWriteSet_panics_or_ok rw h b
    · exact hp
    · obtain h | h := hok.mp hb' s hs w hw
      · rw [hdel] at h
        cases h
      · exact absurd hval h

/-- Validation of the read-write set panics: at a query, or at a write once it was found valid. -/
def RwSetFails (hash : Bytes → Bytes) (db : StateDb) (mvcc : Bool) (updates : UpdateBatch)
    (rw : TxRwSet) : Prop :=
  (mvcc = true ∧ ReadsFail hash db updates rw) ∨
    ((mvcc = true → validateTx hash db updates rw = .ok .valid) ∧ LacksValue rw)

/-! ## Blocks -/

def carriedRwSet (d : Bytes) : Option TxRwSet :=
  match channelHeaderOf d, getActionFromEnvelope d with
  | .ok chdr, .ok action =>
    if chdr.headerType = endorserTransaction then TxRwSet.fromProtoBytes action.results
    else none
  | _, _ => none

/-- A transaction whose header decodes and, if it is an endorser transaction, whose read-write
set does. -/
def Decodes (d : Bytes) : Prop :=
  ∃ chdr, channelHeaderOf d = .ok chdr ∧
    (chdr.headerType = endorserTransaction → ∃ rw, EndorsedRwSet d rw)

/-- The writes are added if it was flagged valid and what it read still holds. -/
def withWritesOf (hash : Bytes → Bytes) (db : StateDb) (number : UInt64) (mvcc : Bool)
    (flags : TxFlags) (updates : UpdateBatch) (i : Nat) (d : Bytes) : UpdateBatch :=
  match carriedRwSet d with
  | some rw =>
    if FlaggedValid flags i ∧ (mvcc = true → validateTx hash db updates rw = .ok .valid) then
      FinMap.insertAll updates (writeEntries rw ⟨number, ofNat i⟩)
    else updates
  | none => updates

/-- From transaction `i` on, no read-write set fails on the batch of the ones before it. -/
def NoneFails (hash : Bytes → Bytes) (db : StateDb) (number : UInt64) (mvcc : Bool)
    (flags : TxFlags) : Nat → List Bytes → UpdateBatch → Prop
  | _, [], _ => True
  | i, d :: ds, updates =>
    (FlaggedValid flags i → ∀ rw, carriedRwSet d = some rw → ¬ RwSetFails hash db mvcc updates rw) ∧
      NoneFails hash db number mvcc flags (i + 1) ds
        (withWritesOf hash db number mvcc flags updates i d)

theorem carriedRwSet_of_endorsed (hc : channelHeaderOf d = .ok chdr)
    (ht : chdr.headerType = endorserTransaction) (hrw : EndorsedRwSet d rw) :
    carriedRwSet d = some rw := by
  obtain ⟨action, haction, hrw⟩ := hrw
  rw [carriedRwSet, hc, haction]
  exact (if_pos ht).trans hrw

theorem carriedRwSet_eq_some (h : carriedRwSet d = some rw) :
    ∃ chdr, channelHeaderOf d = .ok chdr ∧
      chdr.headerType = endorserTransaction ∧ EndorsedRwSet d rw := by
  unfold carriedRwSet at h
  split at h
  · rename_i chdr action hc haction
    split at h
    · rename_i ht
      exact ⟨chdr, hc, ht, action, haction, h⟩
    · cases h
  · cases h

variable (hash db number mvcc)

/-- An endorser transaction panics or returns, and then says what it added. -/
theorem validateOne_endorsed_outcome (hv : FlaggedValid st.1 i)
    (hc : channelHeaderOf d = .ok chdr) (ht : chdr.headerType = endorserTransaction)
    (hrw : EndorsedRwSet d rw) :
    (RwSetFails hash db mvcc st.2 rw ∧ (validateOne hash db number mvcc st i d).Panics) ∨
      (¬ RwSetFails hash db mvcc st.2 rw ∧ ∃ st', validateOne hash db number mvcc st i d = .ok st' ∧
        st'.2 = withWritesOf hash db number mvcc st.1 st.2 i d) := by
  have hcarried := carriedRwSet_of_endorsed hc ht hrw
  have hcheck : (if mvcc then validateTx hash db st.2 rw else .ok .valid).Panics ↔
      (mvcc = true ∧ ReadsFail hash db st.2 rw) := by
    cases mvcc with
    | false => exact iff_of_false (not_panics_ok _) fun h => nomatch h.1
    | true => exact validateTx_panics.trans (and_iff_right rfl).symm
  have hvalid : (if mvcc then validateTx hash db st.2 rw else .ok .valid) = .ok .valid ↔
      (mvcc = true → validateTx hash db st.2 rw = .ok .valid) := by
    cases mvcc with
    | false => exact iff_of_true rfl fun h => nomatch h
    | true => exact ⟨fun h _ => h, fun h => h rfl⟩
  have hor : (if mvcc then validateTx hash db st.2 rw else .ok .valid).Panics ∨
      ∃ code, (if mvcc then validateTx hash db st.2 rw else .ok .valid) = .ok code := by
    cases mvcc with
    | false => exact .inr ⟨_, rfl⟩
    | true => exact validateTx_panics_or_ok rw
  rw [validateOne_of_endorsed hv hc ht hrw]
  obtain hpanic | ⟨code, hcode⟩ := hor
  · exact .inl ⟨.inl (hcheck.mp hpanic), panics_bind.mpr (.inl hpanic)⟩
  · have hno : ¬ (mvcc = true ∧ ReadsFail hash db st.2 rw) := by
      rw [← hcheck, hcode]
      exact not_panics_ok _
    rw [hcode, ok_bind]
    by_cases hval : code = .valid
    · have hok := hvalid.mp (hval ▸ hcode)
      rw [if_pos hval]
      obtain hpanic | ⟨updates', hupdates⟩ := addWriteSet_panics_or_ok rw ⟨number, ofNat i⟩ st.2
      · exact .inl ⟨.inr ⟨hok, addWriteSet_panics.mp hpanic⟩, panics_bind.mpr (.inl hpanic)⟩
      · right
        refine ⟨?_, (st.1, updates'), by rw [hupdates]; rfl, ?_⟩
        · intro h
          obtain h | ⟨-, hlacks⟩ := h
          · exact hno h
          · obtain ⟨p, hp⟩ := addWriteSet_panics.mpr hlacks
            rw [hp] at hupdates
            cases hupdates
        · rw [withWritesOf, hcarried]
          show updates' = if _ then _ else _
          rw [if_pos ⟨hv, hok⟩]
          exact ok.inj (hupdates.symm.trans (addWriteSet_eq hupdates st.2))
    · have hbad : ¬ (mvcc = true → validateTx hash db st.2 rw = .ok .valid) := by
        intro h
        rw [hvalid.mpr h] at hcode
        exact hval (ok.inj hcode).symm
      rw [if_neg hval]
      right
      refine ⟨?_, _, rfl, ?_⟩
      · intro h
        obtain h | ⟨h, -⟩ := h
        · exact hno h
        · exact hbad h
      · rw [withWritesOf, hcarried]
        show st.2 = if _ then _ else _
        rw [if_neg fun h => hbad h.2]

theorem validateOne_outcome (hi : i < st.1.length) (hd : FlaggedValid st.1 i → Decodes d) :
    (¬ (FlaggedValid st.1 i → ∀ rw, carriedRwSet d = some rw → ¬ RwSetFails hash db mvcc st.2 rw) ∧
        (validateOne hash db number mvcc st i d).Panics) ∨
      ((FlaggedValid st.1 i → ∀ rw, carriedRwSet d = some rw → ¬ RwSetFails hash db mvcc st.2 rw) ∧
        ∃ st', validateOne hash db number mvcc st i d = .ok st' ∧
          st'.2 = withWritesOf hash db number mvcc st.1 st.2 i d) := by
  by_cases hv : FlaggedValid st.1 i
  · obtain ⟨chdr, hc, hendorsed⟩ := hd hv
    by_cases ht : chdr.headerType = endorserTransaction
    · obtain ⟨rw, hrw⟩ := hendorsed ht
      have hcarried := carriedRwSet_of_endorsed hc ht hrw
      obtain ⟨hfails, hpanic⟩ | ⟨hnot, hok⟩ :=
        validateOne_endorsed_outcome hash db number mvcc hv hc ht hrw
      · exact .inl ⟨fun h => h hv rw hcarried hfails, hpanic⟩
      · refine .inr ⟨fun _ rw' hrw' => ?_, hok⟩
        obtain rfl := Option.some.inj (hcarried.symm.trans hrw')
        exact hnot
    · have hnone : carriedRwSet d = none := by
        rw [carriedRwSet, hc]
        cases getActionFromEnvelope d with
        | error _ => rfl
        | ok _ => exact if_neg ht
      right
      refine ⟨fun _ rw hrw => (nomatch hnone.symm.trans hrw), st, validateOne_of_other hv hc ht, ?_⟩
      rw [withWritesOf, hnone]
  · right
    refine ⟨fun h => absurd h hv, st, validateOne_of_invalid hi hv d, ?_⟩
    rw [withWritesOf]
    split
    · rw [if_neg fun h => hv h.1]
    · rfl

theorem validateLoop_panics {ds : List Bytes} {flags : TxFlags}
    (hsame : ∀ j, i ≤ j → st.1[j]? = flags[j]?)
    (hd : ∀ k d, ds[k]? = some d → i + k < flags.length ∧ (FlaggedValid flags (i + k) → Decodes
      d)) :
    (validateLoop hash db number mvcc i ds st).Panics ↔
      ¬ NoneFails hash db number mvcc flags i ds st.2 := by
  induction ds generalizing i st with
  | nil => exact iff_of_false (not_panics_ok _) (not_not.mpr trivial)
  | cons d ds ih =>
    obtain ⟨hi, hdec⟩ := hd 0 d rfl
    have hflag : FlaggedValid st.1 i ↔ FlaggedValid flags i := by
      rw [FlaggedValid, FlaggedValid, hsame i (le_refl i)]
    have hlt : i < st.1.length := by
      rw [add_zero] at hi
      by_contra hnot
      have := hsame i (le_refl i)
      rw [getElem?_eq_none (by omega), getElem?_eq_getElem hi] at this
      cases this
    have hwrites : withWritesOf hash db number mvcc st.1 st.2 i d =
        withWritesOf hash db number mvcc flags st.2 i d := by
      unfold withWritesOf
      simp only [hflag]
    rw [validateLoop, NoneFails, panics_bind, ← hflag, ← hwrites]
    obtain ⟨hfails, hpanic⟩ | ⟨hnot, st', hst', hupdates⟩ :=
      validateOne_outcome hash db number mvcc hlt fun h => hdec (hflag.mp h)
    · exact iff_of_true (.inl hpanic) fun h => hfails h.1
    · have hnext : ∀ j, i + 1 ≤ j → st'.1[j]? = flags[j]? := by
        intro j hj
        rw [(validateOne_cases hst').flag_ne (by omega), hsame j (by omega)]
      have hrest := ih hnext fun k d hk => by
        have := hd (k + 1) d hk
        rwa [show i + (k + 1) = i + 1 + k by omega] at this
      rw [hst', ← hupdates, not_and, imp_iff_right hnot, ← hrest]
      constructor
      · intro h
        obtain h | ⟨a, ha, h⟩ := h
        · exact absurd h (not_panics_ok _)
        · cases ha
          exact h
      · intro h
        exact .inr ⟨st', rfl, h⟩

variable {hash db number mvcc}

/-- A block whose valid transactions decode is validated without a panic if no read-write set
fails on the batch of the ones before it. -/
theorem validate_survives_iff (hash : Bytes → Bytes) (db : StateDb) (mvcc : Bool) {block : Block}
    {flags : TxFlags} (hflags : block.txsFilter = .ok flags)
    (hlen : block.data.length ≤ flags.length)
    (hdecodes : ∀ i d, block.data[i]? = some d → FlaggedValid flags i → Decodes d) :
    ¬ (validateAndPrepareBatch hash db block mvcc).Panics ↔
      NoneFails hash db block.header.number mvcc flags 0 block.data ∅ := by
  have hloop : (validateLoop hash db block.header.number mvcc 0 block.data (flags, ∅)).Panics ↔ _ :=
    validateLoop_panics hash db block.header.number mvcc (fun _ _ => rfl) fun k d hk => by
      rw [zero_add]
      exact ⟨lt_of_lt_of_le (lt_length hk) hlen, hdecodes k d hk⟩
  rw [← not_not (a := NoneFails ..), ← hloop, not_iff_not, validateAndPrepareBatch, hflags]
  show Result.Panics (validateLoop .. >>= _) ↔ _
  rw [panics_bind]
  refine or_iff_left ?_
  intro h
  obtain ⟨a, -, h⟩ := h
  exact not_panics_ok _ h

theorem decodes_blockWith {results : Bytes} (h : (txWith results).Reads)
    (hrw : TxRwSet.fromProtoBytes results = some rw) :
    ∀ (i : Nat) d, (blockWith results).data[i]? = some d → FlaggedValid [0] i → Decodes d := by
  intro i d hd _
  obtain rfl : d = (txWith results).envelope := mem_singleton.mp (mem_of_getElem? hd)
  obtain ⟨⟨chdr, hc, -⟩, action, haction, hresults⟩ := carries_envelope h
  exact ⟨chdr, hc, fun _ => ⟨rw, action, haction, by rw [hresults]; exact hrw⟩⟩

/-- The results of a range with their versions, and a write with a value. -/
def plainRwSet : TxRwSet :=
  [⟨str "cc", [], [⟨str "a", str "c", true,
    .rawReads [⟨str "a", some ⟨0, 0⟩⟩, ⟨str "b", some ⟨0, 1⟩⟩]⟩], [⟨str "a", false, some (str "x")⟩]⟩]

theorem plain_rw_set_survives :
    NoneFails sha256 fourKeys 1 true [0] 0 (blockWith plainRwSet.toProtoBytes).data ∅ := by
  have hflags : (blockWith plainRwSet.toProtoBytes).txsFilter = .ok [0] := rfl
  have hreads : (txWith plainRwSet.toProtoBytes).Reads := SignedTx.reads (by decide +kernel)
  have hrw : TxRwSet.fromProtoBytes plainRwSet.toProtoBytes = some plainRwSet := by decide +kernel
  refine (validate_survives_iff sha256 fourKeys true hflags (by decide)
    (decodes_blockWith hreads hrw)).mp ?_
  have hok : ((validateAndPrepareBatch sha256 fourKeys (blockWith plainRwSet.toProtoBytes) true).map
      (·.1.metadata)).toOption = some (some [[], [], [0], []]) := by
    decide +kernel
  intro h
  obtain ⟨p, hp⟩ := h
  rw [hp] at hok
  cases hok

/-- A read of a range without a version, a summary of degree 0, and a write that is neither a
delete nor has a value: each decodes, and each stops the peer. -/
theorem hostile_rw_sets_panic :
    let noVersion : TxRwSet := [⟨str "cc", [],
      [⟨str "a", str "b", true, .rawReads [⟨str "a", none⟩]⟩], []⟩]
    let degreeZero : TxRwSet := [⟨str "cc", [],
      [⟨str "a", str "b", true, .merkleHashes ⟨0, 1, []⟩⟩], []⟩]
    let noValue : TxRwSet := [⟨str "cc", [], [], [⟨str "a", false, none⟩]⟩]
    (∀ rw ∈ [noVersion, degreeZero, noValue], TxRwSet.fromProtoBytes rw.toProtoBytes = some rw) ∧
      [noVersion, degreeZero, noValue].map (fun rw =>
          (validateAndPrepareBatch sha256 fourKeys (blockWith rw.toProtoBytes) true).map
            (·.1.metadata)) =
        [panicWith .nilDereference, panicWith .nilDereference,
          panicWith (.explicit (str "Nil value not allowed"))] := by
  decide +kernel

end FabricOev.Ledger
