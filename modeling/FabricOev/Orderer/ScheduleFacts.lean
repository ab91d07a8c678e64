import FabricOev.Orderer.Analyzer

/-!
# What a schedule guarantees

The batches of a block hold every intent once, and no two transactions of a batch
conflict. Both need the TxIDs to be distinct: the graph and the colouring know a
transaction only by its id. The order of the batches follows the ids and nothing is said
of it here.
-/

namespace FabricOev.Orderer

open Go Protos Ledger Bench Lib List

/-- The TxIDs of the benchmark transactions are pairwise distinct. -/
def DistinctIntents (intents : List TxIntent) : Prop := (intents.map (·.txId)).Nodup

instance (intents : List TxIntent) : Decidable (DistinctIntents intents) :=
  inferInstanceAs (Decidable (List.Nodup _))

theorem mem_conflictEdges {intents : List TxIntent} {x y : GoString} :
    (x, y) ∈ conflictEdges intents ↔
      ∃ a b, [a, b].Sublist intents ∧ txsConflict a b = true ∧ a.txId = x ∧ b.txId = y := by
  induction intents with
  | nil => simp [conflictEdges]
  | cons t rest ih =>
    rw [conflictEdges, mem_append, ih]
    constructor
    · rintro (h | ⟨a, b, hs, hrest⟩)
      · obtain ⟨b, hb, he⟩ := mem_map.mp h
        obtain ⟨hb, hc⟩ := mem_filter.mp hb
        obtain ⟨h1, h2⟩ := Prod.mk.inj he
        exact ⟨t, b, List.Sublist.cons_cons t (singleton_sublist.mpr hb), hc, h1, h2⟩
      · exact ⟨a, b, hs.cons t, hrest⟩
    · rintro ⟨a, b, hs, hc, rfl, rfl⟩
      cases hs with
      | cons _ hs => exact .inr ⟨a, b, hs, hc, rfl, rfl⟩
      | cons_cons _ hs =>
        have hb := singleton_sublist.mp hs
        exact .inl (mem_map.mpr ⟨b, mem_filter.mpr ⟨hb, hc⟩, rfl⟩)

theorem mem_neighbors {g : ConflictGraph} {v w : GoString} :
    w ∈ g.neighbors v ↔ (v, w) ∈ g.edges ∨ (w, v) ∈ g.edges := by
  simp only [ConflictGraph.neighbors, mem_append, mem_filterMap]
  constructor
  · rintro (⟨⟨x, y⟩, he, h⟩ | ⟨⟨x, y⟩, he, h⟩)
    · simp only [Option.ite_none_right_eq_some, Option.some.injEq] at h
      obtain ⟨rfl, rfl⟩ := h
      exact .inl he
    · simp only [Option.ite_none_right_eq_some, Option.some.injEq] at h
      obtain ⟨rfl, rfl⟩ := h
      exact .inr he
  · rintro (h | h)
    · exact .inl ⟨(v, w), h, by simp⟩
    · exact .inr ⟨(w, v), h, by simp⟩

theorem sublist_pair_ne {intents : List TxIntent} (hd : DistinctIntents intents) {a b : TxIntent}
    (hs : [a, b].Sublist intents) : a.txId ≠ b.txId := by
  have hn : ([a, b].map (·.txId)).Nodup := hd.sublist (hs.map _)
  simpa using hn

theorem neighbors_irrefl {intents : List TxIntent} (hd : DistinctIntents intents) (v : GoString) :
    v ∉ (buildConflictGraph intents).neighbors v := by
  intro h
  have hedge : (v, v) ∈ conflictEdges intents := or_self_iff.mp (mem_neighbors.mp h)
  obtain ⟨a, b, hs, -, ha, hb⟩ := mem_conflictEdges.mp hedge
  exact sublist_pair_ne hd hs (ha.trans hb.symm)

theorem le_foldl_max {l : List Nat} {n c : Nat} (h : c ≤ n ∨ c ∈ l) : c ≤ l.foldl max n := by
  induction l generalizing n with
  | nil => simpa using h
  | cons x l ih =>
    refine ih ?_
    rcases h with h | h
    · left; omega
    · rcases mem_cons.mp h with rfl | h
      · left; omega
      · exact .inr h

section Colors

variable {intents : List TxIntent} {t : TxIntent}

abbrev coloring (intents : List TxIntent) : ColorAssignment :=
  greedyGraphColoring (buildConflictGraph intents)

theorem lookup_color (ht : t ∈ intents) :
    ∃ c, (coloring intents).txToColor.lookup t.txId = some c ∧
      c < (coloring intents).numColors := by
  have hmem : t.txId ∈ (buildConflictGraph intents).nodes.insertionSort (· ≤ ·) :=
    (perm_insertionSort _ _).mem_iff.mpr (mem_map_of_mem ht)
  have hsome : ((coloring intents).txToColor.lookup
      t.txId).isSome := Coloring.lookup_greedy_isSome hmem
  obtain ⟨c, hc⟩ := Option.isSome_iff_exists.mp hsome
  have hne : (buildConflictGraph intents).nodes ≠ [] := ne_nil_of_mem (mem_map_of_mem ht)
  refine ⟨c, hc, ?_⟩
  have hval : c ∈ (coloring intents).txToColor.map (·.2) := by
    obtain ⟨l1, l2, he, -⟩ := lookup_eq_some_iff.mp hc
    rw [he]
    simp
  simp only [greedyGraphColoring, if_neg hne] at hval ⊢
  have := le_foldl_max (n := 0) (.inr hval)
  omega

theorem colorOf_ne (hd : DistinctIntents intents) {a b : TxIntent} (hs : [a, b].Sublist intents)
    (hc : txsConflict a b = true) :
    (coloring intents).colorOf a.txId ≠ (coloring intents).colorOf b.txId := by
  have hadj : b.txId ∈ (buildConflictGraph intents).neighbors a.txId :=
    mem_neighbors.mpr (.inl (mem_conflictEdges.mpr ⟨a, b, hs, hc, rfl, rfl⟩))
  have hproper := Coloring.greedy_proper
    (fun v w h => mem_neighbors.mpr (mem_neighbors.mp h).symm) (neighbors_irrefl hd)
    ((buildConflictGraph intents).nodes.insertionSort (· ≤ ·))
  obtain ⟨ca, hca, -⟩ := lookup_color (hs.subset (by simp : a ∈ [a, b]))
  obtain ⟨cb, hcb, -⟩ := lookup_color (hs.subset (by simp : b ∈ [a, b]))
  rw [ColorAssignment.colorOf, ColorAssignment.colorOf, hca, hcb]
  intro he
  obtain rfl : ca = cb := he
  exact hproper _ _ ca hadj hca hcb

theorem colorOf_lt (ht : t ∈ intents) :
    (coloring intents).colorOf t.txId < (coloring intents).numColors := by
  obtain ⟨c, hc, hlt⟩ := lookup_color ht
  rwa [ColorAssignment.colorOf, hc]

end Colors

/-- A list split into classes by a number below a bound. -/
theorem flatMap_filter_perm {α : Type} (f : α → Nat) {n : Nat} {l : List α} (h : ∀ x ∈ l, f x < n) :
    ((range n).flatMap fun i => l.filter fun x => f x = i).Perm l := by
  induction l with
  | nil => simp
  | cons x l ih =>
    have hx : f x < n := h x (by simp)
    have hsplit : ∀ i, (x :: l).filter (fun y => f y = i) =
        (if f x = i then [x] else []) ++ l.filter fun y => f y = i := by
      intro i
      by_cases hi : f x = i
      · simp [hi]
      · simp [hi]
    have hone : ((range n).flatMap fun i => if f x = i then [x] else []) = [x] := by
      clear ih h hsplit
      induction n with
      | zero => omega
      | succ n ih =>
        rw [range_succ, flatMap_append, flatMap_singleton]
        by_cases hn : f x = n
        · have hnil : ((range n).flatMap fun i => if f x = i then [x] else []) = [] := by
            refine flatMap_eq_nil_iff.mpr fun i hi => if_neg ?_
            rw [mem_range] at hi
            omega
          rw [hnil, if_pos hn]
          rfl
        · rw [ih (by omega), if_neg hn, append_nil]
    simp only [hsplit]
    refine (flatMap_append_perm _ _ _).symm.trans ?_
    rw [hone]
    exact (ih fun y hy => h y (by simp [hy])).cons x

section Batches

variable {intents : List TxIntent} {b : List TxIntent}

theorem scheduleBatches_eq (intents : List TxIntent) :
    scheduleBatches intents = ((range (coloring intents).numColors).map
        (batchOf intents (coloring intents))).filter (· ≠ []) := by
  simp only [scheduleBatches, batchesOf, filter_map, map_map]
  rfl

theorem scheduleBatches_perm (intents : List TxIntent) :
    (scheduleBatches intents).flatten.Perm intents := by
  rw [scheduleBatches_eq]
  have hdrop : ∀ ls : List (List TxIntent), (ls.filter (· ≠ [])).flatten = ls.flatten := by
    intro ls
    induction ls with
    | nil => rfl
    | cons l ls ih =>
      by_cases hl : l = []
      · simpa [hl] using ih
      · simpa [hl] using ih
  rw [hdrop, ← flatMap_def]
  exact flatMap_filter_perm _ fun t ht => colorOf_lt ht

theorem mem_scheduleBatches (h : b ∈ scheduleBatches intents) :
    ∃ i, b = batchOf intents (coloring intents) i := by
  rw [scheduleBatches_eq] at h
  obtain ⟨i, -, hi⟩ := mem_map.mp (mem_filter.mp h).1
  exact ⟨i, hi.symm⟩

theorem scheduleBatches_independent (hd : DistinctIntents intents)
    (h : b ∈ scheduleBatches intents) : b.Pairwise fun a c => txsConflict a c = false := by
  obtain ⟨i, rfl⟩ := mem_scheduleBatches h
  rw [pairwise_iff_forall_sublist]
  intro a c hs
  have hsub := hs.trans filter_sublist
  have hcol : ∀ t ∈ [a, c], (coloring intents).colorOf t.txId = i := by
    intro t ht
    simpa using (mem_filter.mp (hs.subset ht)).2
  by_contra hconf
  have hconf : txsConflict a c = true := by simpa using hconf
  exact colorOf_ne hd hsub hconf ((hcol a (by simp)).trans (hcol c (by simp)).symm)

end Batches

end FabricOev.Orderer
