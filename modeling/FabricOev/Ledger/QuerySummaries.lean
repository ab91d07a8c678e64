import FabricOev.Ledger.SimulatorFacts

/-!
# Range queries and their summaries

A range query is recorded by its results or, beyond the degree of the tree, by a Merkle
summary, and validated by running it again. The tree grows at its top only, so that the
validator, which compares the top level while it is being built, never stops at results
that lead to the recorded summary; and if it accepts, the summary of what it saw is the
recorded one.
-/

namespace FabricOev.Ledger

open Go Lib List LevelTree ResultsHelper Result Option Except

variable {hash : Bytes → Bytes} {t t' : List (List Bytes)} {m : MerkleSummary}

/-! ## Growth of the tree -/

def Grows (t t' : List (List Bytes)) : Prop :=
  t.length < t'.length ∨ (t.length = t'.length ∧ top t <+: top t')

theorem Grows.refl (t : List (List Bytes)) : Grows t t := .inr ⟨rfl, prefix_rfl⟩

theorem higher_trans {a b c : Nat} {x y z : List Bytes} (h : a < b ∨ a = b ∧ x <+: y)
    (h' : b < c ∨ b = c ∧ y <+: z) : a < c ∨ a = c ∧ x <+: z := by
  obtain h | ⟨h, hp⟩ := h
  · obtain h' | ⟨h', -⟩ := h'
    · exact .inl (by omega)
    · exact .inl (by omega)
  · obtain h' | ⟨h', hp'⟩ := h'
    · exact .inl (by omega)
    · exact .inr ⟨h.trans h', hp.trans hp'⟩

theorem Grows.trans {t'' : List (List Bytes)} (h : Grows t t') (h' : Grows t' t'') :
    Grows t t'' := higher_trans h h'

theorem Grows.length_le (h : Grows t t') : t.length ≤ t'.length := by
  obtain h | ⟨h, -⟩ := h
  · exact h.le
  · exact h.le

/-- A tree that can still become the one of the summary. -/
def Below (t : List (List Bytes)) (m : MerkleSummary) : Prop :=
  t.length < m.maxLevel ∨ (t.length = m.maxLevel ∧ top t <+: m.hashes)

theorem Grows.below (h : Grows t t') (h' : Below t' m) : Below t m := higher_trans h h'

variable (deg : Nat)

theorem grows_update (h : Bytes) (ht : t ≠ []) :
    Grows t (push (computeCombinedHash hash) deg h t) := by
  obtain ⟨hlen, htop⟩ | ⟨hlen, -⟩ := push_top (computeCombinedHash hash) deg h ht
  · refine .inr ⟨hlen.symm, ?_⟩
    obtain htop | ⟨x, htop⟩ := htop
    · rw [htop]
    · rw [htop]
      exact prefix_append _ _
  · exact .inl (by omega)

theorem grows_complete (hash : Bytes → Bytes) (deg : Nat) (ht : t ≠ []) :
    Grows t (LevelTree.complete (computeCombinedHash hash) deg t) := by
  obtain ⟨hlen, htop⟩ := raise_top (computeCombinedHash hash) [] ht
  unfold LevelTree.complete
  dsimp only
  split
  · left
    rw [length_append, length_dropLast, hlen]
    have := length_pos_iff.mpr ht
    simp only [length_cons, length_nil]
    omega
  · exact .inr ⟨hlen.symm, htop⟩

namespace ResultsHelper

theorem addResult_tree (hash : Bytes → Bytes) (r : ResultsHelper) (kv : KvRead) :
    (r.addResult hash kv).tree = r.tree ∨
      ∃ h, (r.addResult hash kv).tree = push (computeCombinedHash hash) r.maxDegree h r.tree := by
  unfold addResult
  dsimp only
  split
  · exact .inr ⟨_, rfl⟩
  · exact .inl rfl

theorem addResult_maxDegree (hash : Bytes → Bytes) (r : ResultsHelper) (kv : KvRead) :
    (r.addResult hash kv).maxDegree = r.maxDegree := by
  unfold addResult
  dsimp only
  split
  · rfl
  · rfl

variable {r : ResultsHelper}

theorem addResult_tree_ne_nil (h : r.tree ≠ []) (kv : KvRead) :
    (r.addResult hash kv).tree ≠ [] := by
  obtain ht | ⟨x, ht⟩ := addResult_tree hash r kv
  · rw [ht]
    exact h
  · rw [ht]
    exact push_ne_nil _ _

theorem grows_addResult (hash : Bytes → Bytes) (h : r.tree ≠ []) (kv : KvRead) :
    Grows r.tree (r.addResult hash kv).tree := by
  obtain ht | ⟨x, ht⟩ := addResult_tree hash r kv
  · rw [ht]
    exact .refl _
  · rw [ht]
    exact grows_update _ _ h

def addAll (hash : Bytes → Bytes) (r : ResultsHelper) (kvs : List KvRead) : ResultsHelper :=
  kvs.foldl (fun r kv => r.addResult hash kv) r

theorem addAll_concat (r : ResultsHelper) (kvs : List KvRead) (kv : KvRead) :
    r.addAll hash (kvs ++ [kv]) = (r.addAll hash kvs).addResult hash kv := by
  rw [addAll, foldl_append]
  rfl

theorem addAll_append (r : ResultsHelper) (kvs kvs' : List KvRead) :
    r.addAll hash (kvs ++ kvs') = (r.addAll hash kvs).addAll hash kvs' :=
  foldl_append

theorem grows_addAll (hash : Bytes → Bytes) (h : r.tree ≠ []) (kvs : List KvRead) :
    (r.addAll hash kvs).tree ≠ [] ∧ Grows r.tree (r.addAll hash kvs).tree := by
  induction kvs generalizing r with
  | nil => exact ⟨h, .refl _⟩
  | cons kv kvs ih =>
    obtain ⟨hne, hgrows⟩ := ih (addResult_tree_ne_nil h kv)
    exact ⟨hne, (grows_addResult hash h kv).trans hgrows⟩

theorem below_of_done (h : r.tree ≠ []) (hm : r.done hash = some m) : Below r.tree m := by
  unfold done at hm
  split at hm
  · cases hm
  · have hm' := some.inj hm
    have hgrows : Grows r.tree (if r.pending = [] then r else r.processPendingResults hash).tree ∧
        (if r.pending = [] then r else r.processPendingResults hash).tree ≠ [] := by
      split
      · exact ⟨.refl _, h⟩
      · exact ⟨grows_update _ _ h, push_ne_nil _ _⟩
    have hall := hgrows.1.trans (grows_complete hash
      (if r.pending = [] then r else r.processPendingResults hash).maxDegree hgrows.2)
    rw [← hm']
    exact hall

/-- Until there is a tree everything is pending, and there is one only beyond the degree. -/
theorem addAll_new (hash : Bytes → Bytes) (deg : Nat) (kvs : List KvRead) :
    ((⟨[], [[]], deg⟩ : ResultsHelper).addAll hash kvs).maxDegree = deg ∧
      ((⟨[], [[]], deg⟩ : ResultsHelper).addAll hash kvs).pending.length ≤ kvs.length ∧
      (((⟨[], [[]], deg⟩ : ResultsHelper).addAll hash kvs).isEmpty = true →
        ((⟨[], [[]], deg⟩ : ResultsHelper).addAll hash kvs).pending = kvs) ∧
      (((⟨[], [[]], deg⟩ : ResultsHelper).addAll hash kvs).isEmpty = false → deg < kvs.length) := by
  induction kvs using reverseRecOn with
  | nil => exact ⟨rfl, le_refl _, fun _ => rfl, fun h => by cases h⟩
  | append_singleton kvs kv ih =>
    rw [addAll_concat]
    generalize (⟨[], [[]], deg⟩ : ResultsHelper).addAll hash kvs = r at ih
    obtain ⟨rfl, hlen, hpending, hdeg⟩ := ih
    refine ⟨addResult_maxDegree hash r kv, ?_⟩
    unfold addResult
    dsimp only
    split
    · rename_i hlt
      rw [length_append, length_singleton] at hlt
      refine ⟨by simp [processPendingResults], fun h => ?_, fun _ => ?_⟩
      · exact absurd (of_decide_eq_true h) (push_ne_empty _ _)
      · rw [length_append, length_singleton]
        omega
    · refine ⟨?_, fun h => ?_, fun h => ?_⟩
      · rw [length_append, length_append]
        omega
      · rw [← hpending h]
      · have := hdeg h
        rw [length_append]
        omega

end ResultsHelper

/-- The summary of a list of results; there is none up to the degree. -/
def summaryOf (hash : Bytes → Bytes) (deg : Nat) (kvs : List KvRead) : Option MerkleSummary :=
  ((⟨[], [[]], deg⟩ : ResultsHelper).addAll hash kvs).done hash

/-! ## The validators -/

/-- How far the comparison with the summary has come: `k` hashes of the top level. -/
def Compared (m : MerkleSummary) (t : List (List Bytes)) (k : Nat) : Prop :=
  (t.length < m.maxLevel ∧ k = 0) ∨ (t.length = m.maxLevel ∧ k = (top t).length)

variable {r : ResultsHelper} {k : Nat} {rs : List (GoString × VersionedValue)}

/-- The next hash to compare, after one more result. -/
theorem Compared.addResult (h : Compared m r.tree k) (hne : r.tree ≠ []) {kv : KvRead}
    (hlen : (r.addResult hash kv).tree.length = m.maxLevel) :
    k = (top (r.addResult hash kv).tree).length ∨
      k + 1 = (top (r.addResult hash kv).tree).length := by
  obtain ht | ⟨x, ht⟩ := r.addResult_tree hash kv
  · rw [ht] at hlen ⊢
    obtain ⟨hlt, -⟩ | ⟨-, hk⟩ := h
    · omega
    · exact .inl hk
  · rw [ht] at hlen ⊢
    obtain ⟨hlen', htop⟩ | ⟨hlen', y, htop⟩ := push_top (computeCombinedHash hash) r.maxDegree x hne
    · obtain ⟨hlt, -⟩ | ⟨-, hk⟩ := h
      · omega
      · obtain htop | ⟨y, htop⟩ := htop
        · exact .inl (by rw [htop, hk])
        · exact .inr (by rw [htop, hk, length_append, length_singleton])
    · obtain ⟨-, hk⟩ | ⟨heq, -⟩ := h
      · exact .inr (by rw [htop, hk, length_singleton])
      · omega

theorem validateHashes_cons (m : MerkleSummary) (e : GoString × VersionedValue)
    (rs : List (GoString × VersionedValue)) (r : ResultsHelper) (k : Nat) :
    validateHashes hash m (e :: rs) r k =
      if (r.addResult hash (readOf e)).tree.length < m.maxLevel then
        validateHashes hash m rs (r.addResult hash (readOf e)) k
      else if k = (top (r.addResult hash (readOf e)).tree).length then
        validateHashes hash m rs (r.addResult hash (readOf e)) k
      else if m.hashes.length < (top (r.addResult hash (readOf e)).tree).length then .ok false
      else index (top (r.addResult hash (readOf e)).tree) k >>= fun h =>
        index m.hashes k >>= fun h' =>
          if h = h' then validateHashes hash m rs (r.addResult hash (readOf e)) (k + 1)
          else .ok false := rfl

/-- While the tree can still become the one of the summary, the comparison goes on. -/
theorem validateHashes_of_below {e : GoString × VersionedValue} (hne : r.tree ≠ [])
    (hk : Compared m r.tree k) (hbelow : Below (r.addResult hash (readOf e)).tree m) :
    ∃ k', Compared m (r.addResult hash (readOf e)).tree k' ∧ ∀ rs,
      validateHashes hash m (e :: rs) r k =
        validateHashes hash m rs (r.addResult hash (readOf e)) k' := by
  have hlen := (grows_addResult hash hne (readOf e)).length_le
  obtain hlt | ⟨heq, hpre⟩ := hbelow
  · refine ⟨k, ?_, fun rs => ?_⟩
    · obtain ⟨-, hk⟩ | ⟨hlen', -⟩ := hk
      · exact .inl ⟨hlt, hk⟩
      · omega
    · rw [validateHashes_cons, if_pos hlt]
  · refine ⟨(top (r.addResult hash (readOf e)).tree).length, .inr ⟨heq, rfl⟩, fun rs => ?_⟩
    rw [validateHashes_cons, if_neg (by omega)]
    obtain hk' | hk' := hk.addResult hne heq
    · rw [if_pos hk', hk']
    · have hle := hpre.length_le
      have hlt : k < (top (r.addResult hash (readOf e)).tree).length := by omega
      obtain ⟨x, hget⟩ : ∃ x, (top (r.addResult hash (readOf e)).tree)[k]? = some x :=
        ⟨_, getElem?_eq_getElem hlt⟩
      have hget' : m.hashes[k]? = some x := by
        obtain ⟨more, hmore⟩ := hpre
        rw [← hmore, getElem?_append_left hlt]
        exact hget
      rw [if_neg (by omega), if_neg (by omega), index_eq_ok.mpr hget, index_eq_ok.mpr hget']
      show (if x = x then _ else _) = _
      rw [if_pos rfl, ← hk']

theorem validateHashes_of_done (hne : r.tree ≠ []) (hk : Compared m r.tree k)
    (hdone : (r.addAll hash (rs.map readOf)).done hash = some m) :
    validateHashes hash m rs r k = .ok true := by
  induction rs generalizing r k with
  | nil => exact congrArg _ (decide_eq_true hdone)
  | cons e rs ih =>
    have hne' : (r.addResult hash (readOf e)).tree ≠ [] := addResult_tree_ne_nil hne _
    obtain ⟨hfin, hrest⟩ := grows_addAll hash hne' (rs.map readOf)
    -- the tree so far is below the summary, since the final one is
    obtain ⟨k', hk', hstep⟩ := validateHashes_of_below hne hk
      (hrest.below (below_of_done hfin hdone))
    rw [hstep]
    exact ih hne' hk' hdone

theorem done_of_validateHashes (h : validateHashes hash m rs r k = .ok true) :
    (r.addAll hash (rs.map readOf)).done hash = some m := by
  induction rs generalizing r k with
  | nil => exact of_decide_eq_true (ok.inj h)
  | cons e rs ih =>
    rw [validateHashes] at h
    split at h
    · exact ih h
    · split at h
      · exact ih h
      · split at h
        · cases h
        · obtain ⟨x, -, h⟩ := bind_ok.mp h
          obtain ⟨y, -, h⟩ := bind_ok.mp h
          split at h
          · exact ih h
          · cases h

/-- One step of `rangeQueryResultsValidator.validate`. -/
theorem validateResults_cons (kv : KvRead) (kvs : List KvRead) (r : GoString × VersionedValue)
    (rs : List (GoString × VersionedValue)) :
    validateResults (kv :: kvs) (r :: rs) =
      if r.1 = kv.key ∧ kv.version = none then panicWith .nilDereference
      else if readOf r = kv then validateResults kvs rs else .ok false := by
  obtain ⟨key, version⟩ := kv
  rw [validateResults]
  by_cases hkey : r.1 = key
  · cases version with
    | none =>
      rw [if_neg (not_not.mpr hkey), if_pos ⟨hkey, rfl⟩]
      rfl
    | some v => simp [hkey, deref, readOf, ok_bind]
  · simp [hkey, readOf]

theorem validateResults_eq_true {kvs : List KvRead} :
    validateResults kvs rs = .ok true ↔ rs.map readOf = kvs := by
  induction kvs generalizing rs with
  | nil =>
    rw [validateResults, List.map_eq_nil_iff, ← List.isEmpty_iff]
    exact ⟨fun h => ok.inj h, fun h => congrArg _ h⟩
  | cons kv kvs ih =>
    cases rs with
    | nil => exact iff_of_false nofun nofun
    | cons r rs =>
      rw [validateResults_cons, map_cons, cons.injEq, ← ih]
      split_ifs with hnone hread
      · refine iff_of_false nofun fun h => ?_
        rw [← h.1] at hnone
        cases hnone.2
      · exact (and_iff_right hread).symm
      · exact iff_of_false nofun fun h => hread h.1

def readsInfoOf (qc : QueryConfig) (hash : Bytes → Bytes) (kvs : List KvRead) : ReadsInfo :=
  ReadsInfo.ofDone ((kvs.foldl (fun q kv => q.addResult hash kv)
    ((QueryResults.new qc).getD (.raw []))).done hash)

theorem ReadsInfo.ofDone_raw (kvs : List KvRead) :
    ReadsInfo.ofDone (kvs, none) = if kvs = [] then .absent else .rawReads kvs := by
  cases kvs <;> rfl

theorem foldl_addResult_raw (ps kvs : List KvRead) :
    kvs.foldl (fun q kv => QueryResults.addResult hash kv q) (.raw ps) = .raw (ps ++ kvs) := by
  induction kvs generalizing ps with
  | nil => rw [foldl_nil, append_nil]
  | cons kv kvs ih =>
    rw [foldl_cons, QueryResults.addResult, ih, append_assoc]
    rfl

theorem foldl_addResult_hashed (r : ResultsHelper) (kvs : List KvRead) :
    kvs.foldl (fun q kv => QueryResults.addResult hash kv q) (.hashed r) =
      .hashed (r.addAll hash kvs) := by
  induction kvs generalizing r with
  | nil => rfl
  | cons kv kvs ih => exact ih (r.addResult hash kv)

theorem ResultsHelper.done_maxDegree (h : r.done hash = some m) : m.maxDegree = r.maxDegree := by
  unfold done at h
  split at h
  · cases h
  · rw [← some.inj h]
    split
    · rfl
    · rfl

/-- Raw, as far as they go, or beyond the degree by their summary. -/
theorem readsInfoOf_cases (qc : QueryConfig) (hash : Bytes → Bytes) (kvs : List KvRead) :
    (readsInfoOf qc hash kvs = if kvs = [] then .absent else .rawReads kvs) ∨
      ∃ m, readsInfoOf qc hash kvs = .merkleHashes m ∧ 2 ≤ m.maxDegree ∧
        m.maxDegree < kvs.length ∧ summaryOf hash m.maxDegree kvs = some m := by
  have hraw : (QueryResults.new qc).getD (.raw []) = .raw [] →
      readsInfoOf qc hash kvs = if kvs = [] then .absent else .rawReads kvs := by
    intro hnew
    rw [readsInfoOf, hnew, foldl_addResult_raw, nil_append, QueryResults.done, ReadsInfo.ofDone_raw]
  by_cases hhash : qc.hashingEnabled = true
  · by_cases hdeg : qc.maxDegree < 2
    · left
      apply hraw
      simp [QueryResults.new, hhash, new, hdeg]
    · have hnew : (QueryResults.new qc).getD (.raw []) = .hashed ⟨[], [[]], qc.maxDegree⟩ := by
        simp [QueryResults.new, hhash, new, hdeg]
      obtain ⟨hmax, -, hpending, hlarge⟩ := addAll_new hash qc.maxDegree kvs
      rw [readsInfoOf, hnew, foldl_addResult_hashed, QueryResults.done]
      cases hempty : ((⟨[], [[]], qc.maxDegree⟩ : ResultsHelper).addAll hash kvs).isEmpty with
      | true =>
        left
        rw [if_pos rfl, hpending hempty, ReadsInfo.ofDone_raw]
      | false =>
        right
        cases hdone : ((⟨[], [[]], qc.maxDegree⟩ : ResultsHelper).addAll hash kvs).done hash with
        | none => simp [done, hempty] at hdone
        | some m =>
          have hm : m.maxDegree = qc.maxDegree := (done_maxDegree hdone).trans hmax
          refine ⟨m, rfl, by omega, ?_, ?_⟩
          · rw [hm]
            exact hlarge hempty
          · rw [hm]
            exact hdone
  · left
    apply hraw
    simp [QueryResults.new, hhash]

def queryReads (db : StateDb) (ns : GoString) (q : RangeQueryInfo) : List KvRead :=
  (combinedResults db ∅ ns q.startKey q.endKey (!q.itrExhausted)).map readOf

section Query

variable {qc : QueryConfig} {db : StateDb} {ns : GoString} {q : RangeQueryInfo}
  {kvs : List KvRead}

theorem rangeQuery_of_queryReads (hq : q.readsInfo = readsInfoOf qc hash kvs)
    (h : queryReads db ns q = kvs) : validateRangeQuery hash db ∅ ns q = .ok true := by
  unfold validateRangeQuery
  rw [hq]
  obtain hraw | ⟨m, hm, hdeg, -, hsum⟩ := readsInfoOf_cases qc hash kvs
  · rw [hraw]
    split_ifs with hnil
    · exact validateResults_eq_true.mpr (h.trans hnil)
    · exact validateResults_eq_true.mpr h
  · rw [hm]
    show (deref (new m.maxDegree) >>= _) = _
    rw [new, if_neg (by omega)]
    have hne : (⟨[], [[]], m.maxDegree⟩ : ResultsHelper).tree ≠ [] := by simp
    obtain ⟨hfin, hgrows⟩ := grows_addAll hash hne kvs
    apply validateHashes_of_done hne
    · obtain hlt | ⟨heq, -⟩ := hgrows.below (below_of_done hfin hsum)
      · exact .inl ⟨hlt, rfl⟩
      · exact .inr ⟨heq, rfl⟩
    · rw [← h] at hsum
      exact hsum

/-- An accepted query has the recorded results, or the summary of the recorded results. -/
theorem queryReads_of_rangeQuery (hq : q.readsInfo = readsInfoOf qc hash kvs)
    (h : validateRangeQuery hash db ∅ ns q = .ok true) :
    queryReads db ns q = kvs ∨ ∃ m, q.readsInfo = .merkleHashes m ∧
      m.maxDegree < kvs.length ∧ 2 ≤ m.maxDegree ∧
      summaryOf hash m.maxDegree kvs = some m ∧
      summaryOf hash m.maxDegree (queryReads db ns q) = some m := by
  unfold validateRangeQuery at h
  rw [hq] at h
  obtain hraw | ⟨m, hm, hdeg, hlen, hsum⟩ := readsInfoOf_cases qc hash kvs
  · left
    rw [hraw] at h
    split_ifs at h with hnil
    · exact (validateResults_eq_true.mp h).trans hnil.symm
    · exact validateResults_eq_true.mp h
  · right
    rw [hm] at h
    refine ⟨m, hq.trans hm, hlen, hdeg, hsum, ?_⟩
    obtain ⟨r, hr, h⟩ := bind_ok.mp h
    have hr := deref_eq_ok hr
    rw [new, if_neg (by omega)] at hr
    cases hr
    exact done_of_validateHashes h

end Query

end FabricOev.Ledger
