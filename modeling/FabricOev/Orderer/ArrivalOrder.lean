import FabricOev.Orderer.Partition

/-!
# The schedule and the order of arrival

Nodes, neighbours and batches are listed in the order of the block, but the colouring
sorts the ids and looks at the neighbours only to see which colours are taken. So blocks
with the same benchmark transactions in different places have the same batches, up to the
order inside a batch.
-/

namespace FabricOev.Orderer

open Go Protos Ledger Bench Lib List

section Arrival

variable {intents intents' : List TxIntent}

theorem intents_perm (hd : DistinctIntents intents) (hd' : DistinctIntents intents')
    (hset : ∀ t, t ∈ intents ↔ t ∈ intents') : intents.Perm intents' :=
  (perm_ext_iff_of_nodup hd.of_map hd'.of_map).mpr hset

theorem sorted_nodes_eq (hp : intents.Perm intents') :
    (buildConflictGraph intents).nodes.insertionSort (· ≤ ·) =
      (buildConflictGraph intents').nodes.insertionSort (· ≤ ·) := by
  have hnodes : (buildConflictGraph intents).nodes.Perm (buildConflictGraph intents').nodes :=
    hp.map _
  apply List.Perm.eq_of_pairwise' (pairwise_insertionSort _ _) (pairwise_insertionSort _ _)
  exact (perm_insertionSort _ _).trans (hnodes.trans (perm_insertionSort _ _).symm)

theorem neighbors_same (hd : DistinctIntents intents) (hd' : DistinctIntents intents')
    (hset : ∀ t, t ∈ intents ↔ t ∈ intents') (v w : GoString) :
    w ∈ (buildConflictGraph intents).neighbors v ↔
      w ∈ (buildConflictGraph intents').neighbors v := by
  rw [mem_neighbors_iff hd, mem_neighbors_iff hd']
  simp only [hset]

theorem coloring_same (hd : DistinctIntents intents) (hd' : DistinctIntents intents')
    (hset : ∀ t, t ∈ intents ↔ t ∈ intents') :
    greedyGraphColoring (buildConflictGraph intents) =
      greedyGraphColoring (buildConflictGraph intents') := by
  have hp := intents_perm hd hd' hset
  have hempty :
      (buildConflictGraph intents).nodes = [] ↔ (buildConflictGraph intents').nodes = [] := by
    have hnodes : (buildConflictGraph intents).nodes.Perm (buildConflictGraph intents').nodes :=
      hp.map _
    constructor
    · intro h
      exact perm_nil.mp (h ▸ hnodes.symm)
    · intro h
      exact perm_nil.mp (h ▸ hnodes)
  unfold greedyGraphColoring
  rw [sorted_nodes_eq hp, Coloring.greedy_congr (neighbors_same hd hd' hset)]
  simp only [hempty]

def HasBatchId (s : BatchSchedule) (txId : GoString) (batchId : Int64) : Prop :=
  ∃ e ∈ s.batches, e.batchId = batchId ∧ txId ∈ e.txIds

theorem hasBatchId_iff (hd : DistinctIntents intents) (blockNum : UInt64) (txId : GoString)
    (batchId : Int64) :
    HasBatchId (computedSchedule blockNum intents) txId batchId ↔ ∃ t ∈ intents, t.txId = txId ∧
        Int64.ofNat ((greedyGraphColoring (buildConflictGraph intents)).colorOf txId) = batchId := by
  unfold HasBatchId
  rw [computed_batches hd]
  constructor
  · intro h
    obtain ⟨e, he, hbatch, hmem⟩ := h
    obtain ⟨i, -, rfl⟩ := mem_map.mp he
    obtain ⟨t, ht, rfl⟩ := mem_map.mp hmem
    obtain ⟨ht, hcol⟩ := mem_filter.mp ht
    refine ⟨t, ht, rfl, ?_⟩
    rw [of_decide_eq_true hcol]
    exact hbatch
  · intro h
    obtain ⟨t, ht, rfl, rfl⟩ := h
    refine ⟨_, mem_map.mpr ⟨_, mem_range.mpr (colorOf_lt ht), rfl⟩, rfl, ?_⟩
    exact mem_map_of_mem (mem_filter.mpr ⟨ht, decide_eq_true rfl⟩)

/-- Two blocks with the same benchmark transactions put each of them into the batch with
the same number. -/
theorem same_batch_in_any_arrival_order {block block' : Block}
    (hx : extractIntentsFromBlock block.data = .ok intents)
    (hx' : extractIntentsFromBlock block'.data = .ok intents')
    (hd : DistinctIntents intents) (hd' : DistinctIntents intents')
    (hset : ∀ t, t ∈ intents ↔ t ∈ intents') :
    analyzeBatchAndSchedule block = .ok (if intents = [] then none
        else some (computedSchedule block.header.number intents).marshal) ∧
      analyzeBatchAndSchedule block' = .ok (if intents' = [] then none
        else some (computedSchedule block'.header.number intents').marshal) ∧
      ∀ txId batchId, HasBatchId (computedSchedule block.header.number intents) txId batchId ↔
          HasBatchId (computedSchedule block'.header.number intents') txId batchId := by
  refine ⟨analyze_eq_computed hx, analyze_eq_computed hx', fun txId batchId => ?_⟩
  rw [hasBatchId_iff hd, hasBatchId_iff hd', coloring_same hd hd' hset]
  simp only [hset]

end Arrival

/-- The payment arrives before the deposits it waits for, or after them. -/
theorem payment_first_or_last_same_batches :
    let d1 := depositIntent (str "t1") (str "a") (str "5")
    let d2 := depositIntent (str "t2") (str "b") (str "6")
    let p := paymentIntent (str "t3") (str "a") (str "b") (str "7")
    ∀ txId batchId, HasBatchId (computedSchedule 1 [d1, d2, p]) txId batchId ↔
      HasBatchId (computedSchedule 1 [p, d2, d1]) txId batchId := by
  intro d1 d2 p
  let block : Block := ⟨⟨1, [], []⟩, [d1.envelope, d2.envelope, p.envelope], none⟩
  let block' : Block := ⟨⟨1, [], []⟩, [p.envelope, d2.envelope, d1.envelope], none⟩
  have hx : extractIntentsFromBlock block.data = .ok [d1, d2, p] := by decide +kernel
  have hx' : extractIntentsFromBlock block'.data = .ok [p, d2, d1] := by decide +kernel
  have hset : ∀ t, t ∈ [d1, d2, p] ↔ t ∈ [p, d2, d1] :=
    fun t => (reverse_perm [d1, d2, p]).mem_iff.symm
  exact (same_batch_in_any_arrival_order hx hx' (by decide +kernel) (by decide +kernel) hset).2.2

end FabricOev.Orderer
