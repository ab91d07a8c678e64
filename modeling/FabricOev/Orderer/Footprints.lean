import FabricOev.Bench.ReplayFacts
import FabricOev.Bench.ReplayJobs
import FabricOev.Orderer.ScheduleFacts

/-!
# Declared intervals bound what replay touches

The link between the two halves of the design: the orderer computes key intervals from
the arguments, the peer replays the operation on its state. An intent's intervals are a
footprint of its replay, and intents that do not conflict have independent footprints.
-/

namespace FabricOev.Orderer

open Go Protos Ledger Bench Lib List Option Bool Std.ExtTreeMap

def KeyInterval.Covers (a : KeyInterval) (k : GoString) : Prop :=
  if a.isRange then a.start ≤ k ∧ k < a.stop else k = a.start

theorem lt_append_zero (k : GoString) : k < k ++ [0] := by
  induction k with
  | nil => exact nil_lt_cons _ _
  | cons b k ih => exact cons_lt_cons_iff.mpr (.inr ⟨rfl, ih⟩)

variable {a : KeyInterval} {k : GoString} {fn : GoString} {args : List GoString} {h : HypercubeSet}
  {t : TxIntent}

theorem KeyInterval.Covers.start_le (h : a.Covers k) : a.start ≤ k := by
  unfold KeyInterval.Covers at h
  split at h
  · exact h.1
  · exact h ▸ List.le_refl _

theorem KeyInterval.Covers.lt_bound (h : a.Covers k) : k < a.bound := by
  unfold KeyInterval.Covers at h
  unfold KeyInterval.bound
  split at h
  · rw [if_pos ‹_›]
    exact h.2
  · rw [if_neg ‹_›, h]
    exact lt_append_zero _

theorem intersects_of_covers {b : KeyInterval} (ha : a.Covers k) (hb : b.Covers k) :
    intersects a b = true := by
  unfold intersects
  split
  · rename_i hpoints
    simp only [KeyInterval.Covers, and_eq_true, not_eq_true'] at ha hb hpoints
    rw [if_neg (by simp [hpoints.1])] at ha
    rw [if_neg (by simp [hpoints.2])] at hb
    simp [← ha, ← hb]
  · have h1 : a.start < b.bound := List.lt_of_le_of_lt ha.start_le hb.lt_bound
    have h2 : b.start < a.bound := List.lt_of_le_of_lt hb.start_le ha.lt_bound
    simp [h1, h2]

def coveredBy (ns : GoString) (ivs : List KeyInterval) : Set CompositeKey :=
  {k | k.ns = ns ∧ ∃ iv ∈ ivs, iv.Covers k.key}

theorem disjoint_coveredBy {as bs : List KeyInterval} (h : anyIntersect as bs = false)
    (ns ns' : GoString) : Disjoint (coveredBy ns as) (coveredBy ns' bs) := by
  refine Set.disjoint_left.mpr ?_
  rintro k ⟨-, a, ha, hka⟩ ⟨-, b, hb, hkb⟩
  have hany : anyIntersect as bs = true :=
    any_eq_true.mpr ⟨a, ha, any_eq_true.mpr ⟨b, hb, intersects_of_covers hka hkb⟩⟩
  simp [hany] at h

def TxIntent.footprint (t : TxIntent) : Footprint CompositeKey :=
  ⟨coveredBy t.chaincodeName t.hypercube.readIntervals,
    coveredBy t.chaincodeName t.hypercube.writeIntervals⟩

theorem independent_of_not_conflict {a b : TxIntent} (h : txsConflict a b = false) :
    Independent a.footprint b.footprint := by
  simp only [txsConflict, or_eq_false_iff] at h
  obtain ⟨⟨hwr, hww⟩, hrw⟩ := h
  constructor
  · exact disjoint_coveredBy hwr _ _
  · exact (disjoint_coveredBy hrw _ _).symm
  · exact disjoint_coveredBy hww _ _

/-! ## Hypercubes bound the replay engines -/

/-- The operation `r` reads and writes only keys of the hypercube. -/
structure ReplaysWithin (h : HypercubeSet) (r : View → Except GoError WriteMap) : Prop where
  reads : ∀ db db', (∀ iv ∈ h.readIntervals, ∀ k, iv.Covers k → db k = db' k) → r db = r db'
  writes : ∀ db ws, r db = .ok ws → ∀ k ∈ ws, ∃ iv ∈ h.writeIntervals, iv.Covers k

theorem pointInterval_covers (k : GoString) : (pointInterval k).Covers k := rfl

/-- For points it is enough to look at the listed keys. -/
theorem replaysWithin_points {readKeys writeKeys : List GoString}
    {r : View → Except GoError WriteMap}
    (hr : ∀ db db', (∀ k ∈ readKeys, db k = db' k) → r db = r db')
    (hw : ∀ db ws, r db = .ok ws → ∀ k ∈ ws, k ∈ writeKeys) :
    ReplaysWithin (buildPointHypercube readKeys writeKeys) r where
  reads db db' h :=
    hr db db' fun k hk => h (pointInterval k) (mem_map_of_mem hk) k (pointInterval_covers k)
  writes db ws h k hk := ⟨pointInterval k, mem_map_of_mem (hw db ws h k hk), pointInterval_covers k⟩

theorem sbReplayOne_within (name : String)
    (f : AccountRecord → Int64 → Except GoError AccountRecord) (id amount : GoString)
    (rest : List GoString) :
    ReplaysWithin (buildPointHypercube [sbAccountKey id] [sbAccountKey id])
      fun db => sbReplayOne name f db (id :: amount :: rest) := by
  refine replaysWithin_points (fun db db' h => sbReplayOne_congr (h (sbAccountKey id) (by simp))) ?_
  intro db ws h k hk
  obtain ⟨_, _, _, -, -, -, rfl⟩ := sbReplayOne_ok.mp h
  exact mem_singleton.mpr (mem_insert_empty hk)

theorem sbReplayTwo_within
    (f : AccountRecord → AccountRecord → Except GoError (AccountRecord × AccountRecord))
    (src dst : GoString) :
    ReplaysWithin (buildPointHypercube [sbAccountKey src, sbAccountKey dst]
      [sbAccountKey src, sbAccountKey dst]) fun db => sbReplayTwo f db src dst := by
  refine replaysWithin_points (fun db db' h => sbReplayTwo_congr (h (sbAccountKey src) (by simp))
      (h (sbAccountKey dst) (by simp))) ?_
  intro db ws h k hk
  obtain ⟨_, _, _, _, -, -, -, rfl⟩ := sbReplayTwo_ok.mp h
  rcases mem_insert_insert hk with rfl | rfl
  · exact mem_cons_self
  · exact mem_cons_of_mem _ mem_cons_self

theorem sendPayment_within (src dst amount : GoString) (rest : List GoString) :
    ReplaysWithin (buildPointHypercube [sbAccountKey src, sbAccountKey dst]
      [sbAccountKey src, sbAccountKey dst])
      fun db => sbReplaySendPayment db (src :: dst :: amount :: rest) := by
  simp only [sbReplaySendPayment]
  cases parseAmount amount with
  | error e => exact ⟨fun _ _ _ => rfl, fun db ws h => by cases h⟩
  | ok n => exact sbReplayTwo_within (sendPayment n) src dst

theorem createAccount_within (id name checking savings : GoString) (rest : List GoString) :
    ReplaysWithin (buildPointHypercube [sbAccountKey id] [sbAccountKey id])
      fun _ => sbReplayCreateAccount (id :: name :: checking :: savings :: rest) := by
  refine replaysWithin_points (fun _ _ _ => rfl) ?_
  intro _ ws h k hk
  simp only [sbReplayCreateAccount, bind_ok, Except.ok.injEq] at h
  obtain ⟨_, -, _, -, rfl⟩ := h
  exact mem_singleton.mpr (mem_insert_empty hk)

theorem replaysWithin_nothing (h : HypercubeSet) : ReplaysWithin h fun _ => .ok ∅ where
  reads _ _ _ := rfl
  writes db ws he k hk := by
    cases he
    simp at hk

theorem smallBank_within (hh : smallBankHypercube fn args = some h) :
    ReplaysWithin h fun db => replaySmallBank db fn args := by
  unfold smallBankHypercube at hh
  split at hh
  · rename_i hfn
    subst hfn
    exact replaysWithin_nothing h
  split at hh
  · rename_i hfn
    subst hfn
    simp only [smallBank_createAccount]
    split at hh
    · cases hh
      exact createAccount_within _ _ _ _ _
    · cases hh
  split at hh
  · rename_i hfn
    split at hh
    · cases hh
      rcases hfn with rfl | rfl | rfl
      · simp only [smallBank_depositChecking]
        exact sbReplayOne_within _ _ _ _ _
      · simp only [smallBank_transactSavings]
        exact sbReplayOne_within _ _ _ _ _
      · simp only [smallBank_writeCheck]
        exact sbReplayOne_within _ _ _ _ _
    · cases hh
  split at hh
  · rename_i hfn
    subst hfn
    split at hh
    · cases hh
      exact sbReplayTwo_within amalgamate _ _
    · cases hh
  split at hh
  · rename_i hfn
    subst hfn
    simp only [smallBank_sendPayment]
    split at hh
    · cases hh
      exact sendPayment_within _ _ _ _
    · cases hh
  · cases hh

theorem replayYcsb_within (hh : ycsbHypercube fn args = some h) :
    ReplaysWithin h fun _ => replayYcsb fn args := by
  unfold ycsbHypercube at hh
  split at hh
  · rename_i hfn
    subst hfn
    exact replaysWithin_nothing h
  split at hh
  · rename_i hfn
    simp only [replayYcsb, if_pos hfn]
    split at hh
    · cases hh
      refine replaysWithin_points (fun _ _ _ => rfl) ?_
      intro _ ws hws k hk
      cases hws
      exact mem_singleton.mpr (mem_insert_empty hk)
    · cases hh
  split at hh
  · rename_i hfn
    subst hfn
    exact replaysWithin_nothing h
  · cases hh

def TxIntent.Extracted (t : TxIntent) : Prop :=
  (t.chaincodeName = ccSmallBank ∧ smallBankHypercube t.functionName t.args = some t.hypercube) ∨
    (t.chaincodeName = ccYcsb ∧ ycsbHypercube t.functionName t.args = some t.hypercube)

theorem TxIntent.Extracted.replaysWithin (h : t.Extracted) :
    ∃ r, ReplaysWithin t.hypercube r ∧
      ∀ a : StateDbAdapter, t.invocation.replay a = (r (a.getState t.chaincodeName)).toOption := by
  rcases h with ⟨hcc, hh⟩ | ⟨hcc, hh⟩
  · refine ⟨_, smallBank_within hh, fun a => ?_⟩
    simp only [Invocation.replay, TxIntent.invocation, replayTx, hcc, if_true]
  · have hne : ccYcsb ≠ ccSmallBank := by simp [ccYcsb, ccSmallBank, str_inj]
    refine ⟨_, replayYcsb_within hh, fun a => ?_⟩
    simp only [Invocation.replay, TxIntent.invocation, replayTx, hcc, if_neg hne, if_true]

def intentJob (t : TxIntent) : Store.Job StateDbAdapter CompositeKey Bytes :=
  invJob (some t.invocation)

/-- What an extracted intent declares is a footprint of its replay. -/
theorem TxIntent.Extracted.respects (h : t.Extracted) :
    adapterStore.Respects (intentJob t) t.footprint := by
  obtain ⟨r, hr, hreplay⟩ := h.replaysWithin
  constructor
  · intro a a' hagree
    have hview : r (a.getState t.chaincodeName) = r (a'.getState t.chaincodeName) :=
      hr.reads _ _ fun iv hiv k hk => hagree ⟨t.chaincodeName, k⟩ ⟨rfl, iv, hiv, hk⟩
    simp only [intentJob, invJob, bind_some, hreplay, hview]
  · intro a ws hjob w hw
    simp only [intentJob, invJob, bind_some, hreplay, map_eq_some_iff] at hjob
    obtain ⟨m, hm, rfl⟩ := hjob
    obtain ⟨⟨k, v⟩, hkv, rfl⟩ := mem_map.mp hw
    have hok : r (a.getState t.chaincodeName) = .ok m := by
      cases hres : r (a.getState t.chaincodeName) with
      | error e => simp [hres, Except.toOption] at hm
      | ok m' => simpa [hres, Except.toOption] using hm
    have hmem : k ∈ m := by
      have := mem_toList_iff_getElem?_eq_some.mp hkv
      exact mem_iff_isSome_getElem?.mpr (by simp [this])
    exact ⟨rfl, hr.writes _ _ hok k hmem⟩

end FabricOev.Orderer
