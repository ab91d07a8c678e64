import FabricOev.Lib.AssocList
import FabricOev.Orderer.ParallelReplay

/-!
# The schedule is a partition without gaps

The batches of a computed schedule are numbered without gaps, none is empty, and they hold
every intent once. A transaction is in the first batch none of its already placed
neighbours is in, so it conflicts with one of every batch before its own, and the number
of batches is bounded by the degree of the conflict graph.
-/

namespace FabricOev.Orderer

open Go Protos Ledger Bench Lib List AssocList Coloring Int64 Wire

/-- The schedule `AnalyzeBatchAndSchedule` computes from the intents of a block. -/
def computedSchedule (blockNum : UInt64) (intents : List TxIntent) : BatchSchedule :=
  buildBatchSchedule blockNum intents (greedyGraphColoring (buildConflictGraph intents))

theorem analyze_eq_computed {block : Block} {intents : List TxIntent}
    (hx : extractIntentsFromBlock block.data = .ok intents) :
    analyzeBatchAndSchedule block = .ok (if intents = [] then none
        else some (computedSchedule block.header.number intents).marshal) := by
  simp only [analyzeBatchAndSchedule, hx, bind, Except.bind]
  split
  · rfl
  · rfl

/-! ## The conflict relation -/

theorem intersects_comm (a b : KeyInterval) : intersects a b = intersects b a := by
  unfold intersects
  by_cases ha : a.isRange = true
  · simp [ha, Bool.and_comm]
  · by_cases hb : b.isRange = true
    · simp [hb, Bool.and_comm]
    · simp [ha, hb, eq_comm]

theorem anyIntersect_comm (as bs : List KeyInterval) : anyIntersect as bs = anyIntersect bs as := by
  rw [Bool.eq_iff_iff]
  simp only [anyIntersect, any_eq_true]
  constructor
  · intro h
    obtain ⟨a, ha, b, hb, hab⟩ := h
    exact ⟨b, hb, a, ha, intersects_comm a b ▸ hab⟩
  · intro h
    obtain ⟨b, hb, a, ha, hab⟩ := h
    exact ⟨a, ha, b, hb, intersects_comm b a ▸ hab⟩

theorem txsConflict_comm (a b : TxIntent) : txsConflict a b = txsConflict b a := by
  unfold txsConflict
  rw [anyIntersect_comm b.hypercube.writeIntervals a.hypercube.writeIntervals]
  cases anyIntersect a.hypercube.writeIntervals b.hypercube.readIntervals <;>
    cases anyIntersect a.hypercube.writeIntervals b.hypercube.writeIntervals <;>
    cases anyIntersect b.hypercube.writeIntervals a.hypercube.readIntervals <;> rfl

/-- `k ++ [0]` is the next string after `k`. -/
theorem lt_append_zero_iff (s k : GoString) : s < k ++ [0] ↔ s ≤ k := by
  induction k generalizing s with
  | nil =>
    cases s with
    | nil => simp
    | cons b s => simp [cons_lt_cons_iff]
  | cons c k ih =>
    cases s with
    | nil => simp
    | cons b s => rw [cons_append, cons_lt_cons_iff, cons_le_cons_iff, ih]

theorem intersects_point {a b : KeyInterval} (ha : a.isRange = false) :
    intersects a b = true ↔ b.Covers a.start := by
  unfold intersects KeyInterval.Covers KeyInterval.bound
  by_cases hb : b.isRange = true
  · simp [ha, hb, lt_append_zero_iff, and_comm]
  · simp [ha, hb]

/-- With a point on one side the test is exact; with two ranges it misses no common key. So
transactions conflict when a key that one writes is read or written by the other. -/
theorem intersects_exact_and_conflict_complete :
    (∀ a b : KeyInterval, ((a.isRange = false ∨ b.isRange = false) →
        (intersects a b = true ↔ ∃ k, a.Covers k ∧ b.Covers k)) ∧
      intersects a b = intersects b a ∧
      ((∃ k, a.Covers k ∧ b.Covers k) → intersects a b = true)) ∧
    ∀ t u : TxIntent, txsConflict t u = txsConflict u t ∧
      ((∃ v ∈ t.hypercube.writeIntervals,
        ∃ w ∈ u.hypercube.readIntervals ++ u.hypercube.writeIntervals,
          ∃ k, v.Covers k ∧ w.Covers k) → txsConflict t u = true) := by
  refine ⟨fun a b => ⟨fun hpoint => ⟨fun h => ?_, ?_⟩, intersects_comm a b, ?_⟩,
    fun t u => ⟨txsConflict_comm t u, ?_⟩⟩
  · rcases hpoint with ha | hb
    · exact ⟨a.start, by simp [KeyInterval.Covers, ha], (intersects_point ha).mp h⟩
    · rw [intersects_comm] at h
      exact ⟨b.start, (intersects_point hb).mp h, by simp [KeyInterval.Covers, hb]⟩
  · rintro ⟨k, ha, hb⟩
    exact intersects_of_covers ha hb
  · rintro ⟨k, ha, hb⟩
    exact intersects_of_covers ha hb
  · rintro ⟨v, hv, w, hw, k, hvk, hwk⟩
    have hany {ws : List KeyInterval} (hws : w ∈ ws) :
        anyIntersect t.hypercube.writeIntervals ws = true :=
      any_eq_true.mpr ⟨v, hv, any_eq_true.mpr ⟨w, hws, intersects_of_covers hvk hwk⟩⟩
    unfold txsConflict
    rcases mem_append.mp hw with hr | hw
    · rw [hany hr, Bool.true_or, Bool.true_or]
    · rw [hany hw, Bool.or_true, Bool.true_or]

theorem pair_sublist_or {α : Type} {l : List α} {a b : α} (ha : a ∈ l) (hb : b ∈ l) (hne : a ≠ b) :
    [a, b].Sublist l ∨ [b, a].Sublist l := by
  obtain ⟨s, t, rfl⟩ := append_of_mem ha
  have hb' : b ∈ s ∨ b ∈ t := by simpa [hne.symm] using hb
  cases hb' with
  | inl hb =>
    right
    exact (singleton_sublist.mpr hb).append (singleton_sublist.mpr mem_cons_self)
  | inr hb =>
    left
    exact ((singleton_sublist.mpr hb).cons_cons a).trans (sublist_append_right s _)

section Graph

variable {intents : List TxIntent}

/-- The edges of the graph are the conflicts, whatever order the block has. -/
theorem mem_neighbors_iff (hd : DistinctIntents intents) {v w : GoString} :
    w ∈ (buildConflictGraph intents).neighbors v ↔
      ∃ a ∈ intents, ∃ b ∈ intents, a ≠ b ∧ txsConflict a b = true ∧ a.txId = v ∧ b.txId = w := by
  rw [mem_neighbors]
  show (v, w) ∈ conflictEdges intents ∨ (w, v) ∈ conflictEdges intents ↔ _
  rw [mem_conflictEdges, mem_conflictEdges]
  have hne : ∀ {a b : TxIntent}, [a, b].Sublist intents → a ≠ b :=
    fun hs he => sublist_pair_ne hd hs (congrArg TxIntent.txId he)
  constructor
  · intro h
    obtain ⟨a, b, hs, hc, ha, hb⟩ | ⟨b, a, hs, hc, hb, ha⟩ := h
    · exact ⟨a, hs.subset (by simp), b, hs.subset (by simp), hne hs, hc, ha, hb⟩
    · exact ⟨a, hs.subset (by simp), b, hs.subset (by simp), (hne hs).symm,
        txsConflict_comm b a ▸ hc, ha, hb⟩
  · intro h
    obtain ⟨a, ha, b, hb, hab, hc, hav, hbw⟩ := h
    cases pair_sublist_or ha hb hab with
    | inl hs => exact .inl ⟨a, b, hs, hc, hav, hbw⟩
    | inr hs => exact .inr ⟨b, a, hs, txsConflict_comm a b ▸ hc, hbw, hav⟩

def ConflictGraph.maxDegree (g : ConflictGraph) : Nat :=
  (g.nodes.map fun v => (g.neighbors v).length).foldl max 0

theorem foldl_max_eq (l : List Nat) (n : Nat) : l.foldl max n = n ∨ l.foldl max n ∈ l := by
  induction l generalizing n with
  | nil => exact .inl rfl
  | cons x l ih =>
    rw [foldl_cons]
    cases ih (max n x) with
    | inr h => exact .inr (mem_cons_of_mem _ h)
    | inl h =>
      rw [h]
      by_cases hx : n ≤ x
      · right
        rw [Nat.max_eq_right hx]
        exact mem_cons_self
      · left
        exact Nat.max_eq_left (by omega)

theorem exists_intent_of_mem_sorted {v : GoString}
    (h : v ∈ (buildConflictGraph intents).nodes.insertionSort (· ≤ ·)) :
    ∃ t ∈ intents, t.txId = v :=
  mem_map.mp ((perm_insertionSort _ _).mem_iff.mp h)

def InBatch (s : BatchSchedule) (i : Nat) (id : GoString) : Prop :=
  ∃ e, s.batches[i]? = some e ∧ id ∈ e.txIds

variable {t : TxIntent} (hd : DistinctIntents intents) {u : TxIntent} {i : Nat}
include hd

theorem nodup_sorted : ((buildConflictGraph intents).nodes.insertionSort (· ≤ ·)).Nodup :=
  (perm_insertionSort _ _).nodup_iff.mpr hd

theorem exists_last_color (hne : intents ≠ []) :
    ∃ v, (coloring intents).txToColor.lookup v = some ((coloring intents).numColors - 1) := by
  have hnodes : (buildConflictGraph intents).nodes ≠ [] := by simpa [buildConflictGraph] using hne
  have hkeys : ((coloring intents).txToColor.map (·.1)).Nodup := by
    rw [coloring, greedyGraphColoring, greedy_map_fst]
    exact nodup_reverse.mpr (nodup_sorted hd)
  have hlast : (coloring intents).numColors - 1 =
      ((coloring intents).txToColor.map (·.2)).foldl max 0 := by
    simp only [greedyGraphColoring, if_neg hnodes]
    omega
  have hval : (coloring intents).numColors - 1 ∈ (coloring intents).txToColor.map (·.2) := by
    rw [hlast]
    cases foldl_max_eq ((coloring intents).txToColor.map (·.2)) 0 with
    | inr h => exact h
    | inl h =>
      -- the maximum is 0, so whatever colour there is is 0
      obtain ⟨t, ht⟩ := exists_mem_of_ne_nil _ hne
      obtain ⟨c, hc, hlt⟩ := lookup_color ht
      obtain ⟨l1, l2, he, -⟩ := lookup_eq_some_iff.mp hc
      have hmem : c ∈ (coloring intents).txToColor.map (·.2) := by
        rw [he]
        simp
      have hzero : c = 0 := by omega
      rw [h, ← hzero]
      exact hmem
  obtain ⟨e, he, hec⟩ := mem_map.mp hval
  exact ⟨e.1, lookup_of_mem hkeys (hec ▸ he)⟩

theorem exists_of_color (hi : i < (coloring intents).numColors) :
    ∃ t ∈ intents, (coloring intents).colorOf t.txId = i := by
  have hne : intents ≠ [] := by
    intro he
    subst he
    simp [greedyGraphColoring, buildConflictGraph] at hi
  have htight : Coloring.Tight (buildConflictGraph intents).neighbors (coloring intents).txToColor :=
    greedy_tight (nodup_sorted hd)
  have hlookup : ∃ v, (coloring intents).txToColor.lookup v = some i := by
    obtain ⟨v, hv⟩ := exists_last_color hd hne
    by_cases hlast : i = (coloring intents).numColors - 1
    · exact ⟨v, hlast ▸ hv⟩
    · obtain ⟨w, -, hw⟩ := htight v _ hv i (by omega)
      exact ⟨w, hw⟩
  obtain ⟨v, hv⟩ := hlookup
  obtain ⟨t, ht, rfl⟩ := exists_intent_of_mem_sorted (mem_of_lookup_greedy hv)
  exact ⟨t, ht, by rw [ColorAssignment.colorOf, hv]; rfl⟩

theorem batchOf_ne_nil (hi : i < (coloring intents).numColors) :
    batchOf intents (coloring intents) i ≠ [] := by
  obtain ⟨t, ht, hti⟩ := exists_of_color hd hi
  exact ne_nil_of_mem (mem_filter.mpr ⟨ht, decide_eq_true hti⟩)

variable (blockNum : UInt64)

theorem computed_batches :
    (computedSchedule blockNum intents).batches = (range (coloring intents).numColors).map fun i =>
        ⟨ofNat i, (batchOf intents (coloring intents) i).map (·.txId)⟩ := by
  have hall : batchesOf intents (coloring intents) =
      (range (coloring intents).numColors).map fun i =>
        (i, batchOf intents (coloring intents) i) := by
    refine filter_eq_self.mpr fun b hb => ?_
    obtain ⟨i, hi, rfl⟩ := mem_map.mp hb
    exact decide_eq_true (batchOf_ne_nil hd (mem_range.mp hi))
  simp only [computedSchedule, buildBatchSchedule, hall, map_map]
  rfl

theorem inBatch_iff (ht : t ∈ intents) (i : Nat) :
    InBatch (computedSchedule blockNum intents) i t.txId ↔
      (coloring intents).colorOf t.txId = i := by
  unfold InBatch
  rw [computed_batches hd, getElem?_map]
  constructor
  · intro h
    obtain ⟨e, he, hmem⟩ := h
    obtain ⟨j, hj, rfl⟩ := Option.map_eq_some_iff.mp he
    obtain ⟨hlt, rfl⟩ := List.getElem?_eq_some_iff.mp hj
    rw [getElem_range] at hmem
    obtain ⟨u, hu, hid⟩ := mem_map.mp hmem
    have hcol := of_decide_eq_true (mem_filter.mp hu).2
    rw [← hid]
    exact hcol
  · intro h
    have hlt : i < (coloring intents).numColors := h ▸ colorOf_lt ht
    rw [getElem?_range hlt]
    exact ⟨_, rfl, mem_map.mpr ⟨t, mem_filter.mpr ⟨ht, decide_eq_true h⟩, rfl⟩⟩

omit hd

/-! ## The partition -/

/-- What a schedule has to be to run its batches one after the other, each in parallel. -/
structure GapFreePartition (intents : List TxIntent) (s : BatchSchedule) : Prop where
  batchIds : s.batches.map (·.batchId) = (range s.batches.length).map ofNat
  nonempty : ∀ e ∈ s.batches, e.txIds ≠ []
  once : s.txIdList.Nodup
  intents_only : ∀ id, id ∈ s.txIdList ↔ ∃ t ∈ intents, t.txId = id
  /-- No key is in a write interval of one and in an interval of the other. -/
  apart : ∀ e ∈ s.batches, ∀ t ∈ intents, ∀ u ∈ intents, t ≠ u → t.txId ∈ e.txIds →
    u.txId ∈ e.txIds → ∀ w ∈ t.hypercube.writeIntervals,
      ∀ iv ∈ u.hypercube.readIntervals ++ u.hypercube.writeIntervals,
        ∀ k, ¬ (w.Covers k ∧ iv.Covers k)
  /-- What kept a transaction out of an earlier batch. -/
  blocked : ∀ c d : Nat, d < c → ∀ t ∈ intents, InBatch s c t.txId →
    ∃ u ∈ intents, InBatch s d u.txId ∧ txsConflict t u = true
  bound : s.batches.length ≤ (buildConflictGraph intents).maxDegree + 1

theorem not_covers_of_not_conflict (h : txsConflict t u = false) {w iv : KeyInterval}
    (hw : w ∈ t.hypercube.writeIntervals)
    (hiv : iv ∈ u.hypercube.readIntervals ++ u.hypercube.writeIntervals) (k : GoString) :
    ¬ (w.Covers k ∧ iv.Covers k) := by
  intro hk
  have hint := intersects_of_covers hk.1 hk.2
  have hconf : txsConflict t u = true := by
    simp only [txsConflict, anyIntersect, Bool.or_eq_true, any_eq_true]
    cases mem_append.mp hiv with
    | inl hr => exact .inl (.inl ⟨w, hw, iv, hr, hint⟩)
    | inr hw' => exact .inl (.inr ⟨w, hw, iv, hw', hint⟩)
  rw [h] at hconf
  cases hconf

theorem txIdList_computed (intents : List TxIntent) :
    (computedSchedule blockNum intents).txIdList = (scheduleBatches intents).flatten.map (·.txId) := by
  simp only [BatchSchedule.txIdList, computedSchedule, buildBatchSchedule, scheduleBatches,
    map_flatten, map_map, flatMap_def]
  rfl

include hd

theorem colorOf_ne_of_conflict (ht : t ∈ intents) (hu : u ∈ intents) (hne : t ≠ u)
    (hc : txsConflict t u = true) :
    (coloring intents).colorOf t.txId ≠ (coloring intents).colorOf u.txId := by
  cases pair_sublist_or ht hu hne with
  | inl hs => exact colorOf_ne hd hs hc
  | inr hs => exact (colorOf_ne hd hs (txsConflict_comm t u ▸ hc)).symm

/-- A transaction conflicts with one of every smaller colour. -/
theorem exists_conflict_of_color_lt (ht : t ∈ intents) {d : Nat}
    (hlt : d < (coloring intents).colorOf t.txId) :
    ∃ u ∈ intents, (coloring intents).colorOf u.txId = d ∧ txsConflict t u = true := by
  have htight : Coloring.Tight (buildConflictGraph intents).neighbors
      (coloring intents).txToColor :=
    greedy_tight (nodup_sorted hd)
  obtain ⟨c, hc, -⟩ := lookup_color ht
  rw [ColorAssignment.colorOf, hc, Option.getD_some] at hlt
  obtain ⟨w, hw, hwd⟩ := htight t.txId c hc d hlt
  obtain ⟨a, ha, u, hu, -, hconf, hat, rfl⟩ := (mem_neighbors_iff hd).mp hw
  obtain rfl := inj_on_of_nodup_map hd ha ht hat
  exact ⟨u, hu, by rw [ColorAssignment.colorOf, hwd]; rfl, hconf⟩

theorem numColors_le :
    (coloring intents).numColors ≤ (buildConflictGraph intents).maxDegree + 1 := by
  by_cases hne : intents = []
  · subst hne
    simp [greedyGraphColoring, buildConflictGraph]
  · obtain ⟨v, hv⟩ := exists_last_color hd hne
    have hle := lookup_greedy_le hv
    have hmem : v ∈ (buildConflictGraph intents).nodes :=
      (perm_insertionSort _ _).mem_iff.mp (mem_of_lookup_greedy hv)
    have hmax : ((buildConflictGraph intents).neighbors v).length ≤
        (buildConflictGraph intents).maxDegree :=
      le_foldl_max (.inr (mem_map_of_mem hmem))
    omega

theorem computed_partition :
    GapFreePartition intents (computedSchedule blockNum intents) where
  batchIds := by
    rw [computed_batches hd, map_map, length_map, length_range]
    rfl
  nonempty := by
    intro e he
    rw [computed_batches hd] at he
    obtain ⟨i, hi, rfl⟩ := mem_map.mp he
    intro hnil
    exact batchOf_ne_nil hd (mem_range.mp hi) (map_eq_nil_iff.mp hnil)
  once := by
    rw [txIdList_computed]
    exact ((scheduleBatches_perm intents).map _).nodup_iff.mpr hd
  intents_only := by
    intro id
    rw [txIdList_computed, ((scheduleBatches_perm intents).map _).mem_iff, mem_map]
  apart := by
    intro e he t ht u hu hne hte hue w hw iv hiv
    obtain ⟨i, hi⟩ := mem_iff_getElem?.mp he
    have hti := (inBatch_iff hd blockNum ht i).mp ⟨e, hi, hte⟩
    have hui := (inBatch_iff hd blockNum hu i).mp ⟨e, hi, hue⟩
    apply not_covers_of_not_conflict _ hw hiv
    rw [← Bool.not_eq_true]
    intro hc
    exact colorOf_ne_of_conflict hd ht hu hne hc (hti.trans hui.symm)
  blocked := by
    intro c d hdc t ht htc
    rw [← (inBatch_iff hd blockNum ht c).mp htc] at hdc
    obtain ⟨u, hu, hud, hconf⟩ := exists_conflict_of_color_lt hd ht hdc
    exact ⟨u, hu, (inBatch_iff hd blockNum hu d).mpr hud, hconf⟩
  bound := by
    rw [computed_batches hd, length_map, length_range]
    exact numColors_le hd

omit hd in
/-- What `AnalyzeBatchAndSchedule` puts into the metadata is the text of a partition of the
benchmark transactions without gaps. -/
theorem analyzed_schedule_partition {block : Block} {bytes : Bytes}
    (hx : extractIntentsFromBlock block.data = .ok intents) (hd : DistinctIntents intents)
    (hb : analyzeBatchAndSchedule block = .ok (some bytes)) :
    bytes = (computedSchedule block.header.number intents).marshal ∧
      GapFreePartition intents (computedSchedule block.header.number intents) := by
  rw [analyze_eq_computed hx] at hb
  split at hb
  · cases hb
  · cases hb
    exact ⟨rfl, computed_partition hd block.header.number⟩

end Graph

/-- Two deposits in the first batch and the payment between their accounts in the second. -/
theorem deposits_and_payment_partition :
    let d1 := depositIntent (str "t1") (str "a") (str "5")
    let d2 := depositIntent (str "t2") (str "b") (str "6")
    let p := paymentIntent (str "t3") (str "a") (str "b") (str "7")
    (computedSchedule 1 [d1, d2, p]).batches = [⟨0, [str "t1", str "t2"]⟩, ⟨1, [str "t3"]⟩] ∧
      GapFreePartition [d1, d2, p] (computedSchedule 1 [d1, d2, p]) := by
  intro d1 d2 p
  let block : Block := ⟨⟨1, [], []⟩, [d1.envelope, d2.envelope, p.envelope], none⟩
  have hx : extractIntentsFromBlock block.data = .ok [d1, d2, p] := by decide +kernel
  have hb : analyzeBatchAndSchedule block =
      .ok (some (computedSchedule 1 [d1, d2, p]).marshal) := by decide +kernel
  exact ⟨by decide +kernel, (analyzed_schedule_partition hx (by decide +kernel) hb).2⟩

/-! ## The schedule on its way to a peer -/

theorem unmarshal_metadata {v : Bytes} (h : (Metadata.marshal ⟨v⟩).length < 2 ^ 64) :
    Metadata.unmarshal (Metadata.marshal ⟨v⟩) = some ⟨v⟩ := by
  refine read_fields h (by simp [metadataDesc, lookup]) ?_
  simp [subMessages, lastString, lastBytes]

theorem coerce_computedSchedule (n : UInt64) (intents : List TxIntent) :
    (computedSchedule n intents).coerce = computedSchedule n intents ↔
      ∀ t ∈ intents, coerceUtf8 t.txId = t.txId := by
  have hversion : coerceUtf8 (str "v1") = str "v1" := by decide
  simp only [← (scheduleBatches_perm intents).mem_iff, BatchSchedule.coerce, computedSchedule,
    buildBatchSchedule, hversion, scheduleBatches, BatchSchedule.mk.injEq, true_and, and_true,
    map_map, map_inj_left, mem_flatten, mem_map, BatchEntry.coerce, Function.comp_apply,
    BatchEntry.mk.injEq]
  constructor
  · rintro h t ⟨b, ⟨e, he, rfl⟩, ht⟩
    exact h e he t ht
  · intro h e he t ht
    exact h t ⟨e.2, ⟨e, he, rfl⟩, ht⟩

/-- A peer reads the schedule that the orderer has computed, with its ids coerced to valid UTF-8;
it is the computed one exactly if they are valid. -/
theorem schedule_reaches_peer {block : Block} {intents : List TxIntent}
    (hx : extractIntentsFromBlock block.data = .ok intents) {ms : List Bytes}
    (hms : block.metadata = some ms) (hslot : ms[MetadataIndex.orderer]? = some [])
    (hsize : (Metadata.marshal ⟨(computedSchedule block.header.number intents).marshal⟩).length <
      2 ^ 64) :
    ∃ v, analyzeBatchAndSchedule block = .ok v ∧
      parseBatchSchedule (writeOrdererMetadata block v) = (if intents = [] then none
        else some (computedSchedule block.header.number intents).coerce) ∧
      ((computedSchedule block.header.number intents).coerce =
        computedSchedule block.header.number intents ↔ ∀ t ∈ intents, coerceUtf8 t.txId = t.txId) := by
  refine ⟨_, analyze_eq_computed hx, ?_, coerce_computedSchedule ..⟩
  split_ifs with hnil
  · simp [writeOrdererMetadata, parseBatchSchedule, hms, hslot]
  · have hread := BatchSchedule.unmarshal_marshal (computedSchedule block.header.number intents)
    have hmeta := unmarshal_metadata hsize
    have hversion : (computedSchedule block.header.number intents).coerce.version = str "v1" := by
      show coerceUtf8 (str "v1") = str "v1"
      decide
    generalize (computedSchedule block.header.number intents).marshal = v at hread hmeta
    have hv : v ≠ [] := by
      rintro rfl
      cases hread
    have hraw : Metadata.marshal ⟨v⟩ ≠ [] := by
      intro h
      rw [h] at hmeta
      exact hv (Metadata.mk.inj (Option.some.inj hmeta)).symm
    have hlt : MetadataIndex.orderer < ms.length := lt_length hslot
    simp only [writeOrdererMetadata, parseBatchSchedule, hms, Option.map_some,
      getElem?_set_self hlt, if_neg hraw, hmeta, if_neg hv, hread, hversion, if_true]

theorem deposit_schedule_reaches_peer :
    let d := depositIntent (str "t1") (str "a") (str "5")
    let block : Block := ⟨⟨1, [], []⟩, [d.envelope], some [[], [], [], []]⟩
    ∃ v, analyzeBatchAndSchedule block = .ok v ∧
      parseBatchSchedule (writeOrdererMetadata block v) = some (computedSchedule 1 [d]).coerce := by
  intro d block
  obtain ⟨v, hv, hparse, -⟩ := schedule_reaches_peer
    (by decide +kernel : extractIntentsFromBlock block.data = .ok [d]) rfl rfl (by decide +kernel)
  exact ⟨v, hv, hparse⟩

end FabricOev.Orderer
