import FabricOev.Ledger.StateValidator

/-!
# Range scans and the combined iterator

A scan of a namespace lists its entries in the order of their keys. The combined iterator
over the database and a batch serves what a scan of the database with the batch applied
would serve, so that a range query checked against both is one checked against the state
at its place.
-/

namespace FabricOev.Ledger

open Go Lib SortedMerge CompositeKey Bool Std.ExtTreeMap

section Scan

variable {α : Type} {m : KeyMap α} {ns start stop : GoString}

theorem mem_scan {k : GoString} {v : α} :
    (k, v) ∈ scan m ns start stop ↔ m[CompositeKey.mk ns k]? = some v ∧ inRange start stop k := by
  rw [scan, List.mem_map]
  constructor
  · rintro ⟨⟨⟨ns', k'⟩, v'⟩, he, heq⟩
    obtain ⟨hmem, hcond⟩ := List.mem_filter.mp he
    obtain ⟨rfl, rfl⟩ := Prod.mk.inj heq
    simp only [and_eq_true, decide_eq_true_eq] at hcond
    obtain ⟨rfl, hr⟩ := hcond
    exact ⟨mem_toList_iff_getElem?_eq_some.mp hmem, hr⟩
  · rintro ⟨hm, hr⟩
    refine ⟨(⟨ns, k⟩, v), List.mem_filter.mpr ⟨?_, by simp [hr]⟩, rfl⟩
    exact mem_toList_iff_getElem?_eq_some.mpr hm

theorem sorted_scan (m : KeyMap α) (ns start stop : GoString) : Sorted (scan m ns start stop) := by
  refine List.pairwise_map.mpr ?_
  have hord : m.toList.Pairwise fun a b => compare a.1 b.1 = .lt := ordered_keys_toList
  refine List.Pairwise.imp_of_mem ?_ (hord.sublist List.filter_sublist)
  intro a b ha hb hlt
  have hns : ∀ e ∈ m.toList.filter (fun e => e.1.ns = ns && inRange start stop e.1.key),
      e.1.ns = ns := fun e he => by
    have := (List.mem_filter.mp he).2
    simp only [and_eq_true, decide_eq_true_eq] at this
    exact this.1
  have hself : compare ns ns = .eq := Std.ReflCmp.compare_self
  rw [compare_def, hns a ha, hns b hb, hself] at hlt
  exact hlt

theorem scan_congr {m' : KeyMap α} (h : ∀ k, inRange start stop k = true →
      m[CompositeKey.mk ns k]? = m'[CompositeKey.mk ns k]?) :
    scan m ns start stop = scan m' ns start stop := by
  refine (sorted_scan m ns start stop).unique (sorted_scan m' ns start stop) ?_
  rintro ⟨k, v⟩
  rw [mem_scan, mem_scan]
  constructor
  · rintro ⟨hm, hr⟩
    exact ⟨h k hr ▸ hm, hr⟩
  · rintro ⟨hm, hr⟩
    exact ⟨(h k hr).symm ▸ hm, hr⟩

theorem compare_eq_lt_iff_lt {a b : GoString} : compare a b = .lt ↔ a < b := by
  induction a generalizing b with
  | nil =>
    cases b with
    | nil | cons y b => simp
  | cons x a ih =>
    cases b with
    | nil => simp
    | cons y b =>
      rw [List.compare_cons_cons, Ordering.then_eq_lt, List.cons_lt_cons_iff, ← ih,
        Std.compare_eq_lt, Std.LawfulEqCmp.compare_eq_iff_eq]

theorem scan_split (m : KeyMap α) {e : GoString} (he : inRange start stop e = true) (hne : e ≠ []) :
    scan m ns start stop = scan m ns start e ++
      (((m[CompositeKey.mk ns e]?).map fun v => (e, v)).toList ++
        (scan m ns start stop).filter fun x => e < x.1) := by
  have hrange : ∀ k, inRange start stop k = true ↔ start ≤ k ∧ (stop = [] ∨ k < stop) := by
    simp [inRange]
  have hbelow : ∀ k, inRange start e k = true ↔ start ≤ k ∧ k < e := by simp [inRange, hne]
  have hlow : ∀ x ∈ scan m ns start e, x.1 < e := by
    intro x hx
    exact ((hbelow x.1).mp (mem_scan.mp hx).2).2
  have hkey : ∀ x ∈ ((m[mk ns e]?).map fun v => (e, v)).toList, x.1 = e := by
    intro x hx
    obtain ⟨v, -, rfl⟩ := Option.map_eq_some_iff.mp (Option.mem_toList.mp hx)
    rfl
  have hhigh : ∀ x ∈ (scan m ns start stop).filter fun x => e < x.1, e < x.1 := by
    intro x hx
    simpa using (List.mem_filter.mp hx).2
  apply (sorted_scan m ns start stop).unique
  · refine List.pairwise_append.mpr ⟨sorted_scan m ns start e, ?_, ?_⟩
    · refine List.pairwise_append.mpr ⟨?_, (sorted_scan m ns start stop).sublist
        List.filter_sublist, ?_⟩
      · cases (m[mk ns e]?) <;> simp
      · intro x hx y hy
        rw [hkey x hx]
        exact compare_eq_lt_iff_lt.mpr (hhigh y hy)
    · intro x hx y hy
      obtain hy | hy := List.mem_append.mp hy
      · rw [hkey y hy]
        exact compare_eq_lt_iff_lt.mpr (hlow x hx)
      · exact compare_eq_lt_iff_lt.mpr (List.lt_trans (hlow x hx) (hhigh y hy))
  · intro x
    obtain ⟨k, v⟩ := x
    obtain ⟨hstart, hstop⟩ := (hrange e).mp he
    simp only [List.mem_append, List.mem_filter, mem_scan, hrange, hbelow, Option.mem_toList,
      Option.map_eq_some_iff, Prod.mk.injEq, decide_eq_true_eq]
    constructor
    · intro h
      obtain ⟨hv, hs, hst⟩ := h
      by_cases hlt : k < e
      · exact .inl ⟨hv, hs, hlt⟩
      · by_cases hgt : e < k
        · exact .inr (.inr ⟨⟨hv, hs, hst⟩, hgt⟩)
        · obtain rfl : k = e := List.le_antisymm (List.not_lt.mp hgt) (List.not_lt.mp hlt)
          exact .inr (.inl ⟨v, hv, rfl, rfl⟩)
    · intro h
      obtain ⟨hv, hs, hlt⟩ | ⟨v', hv, rfl, rfl⟩ | ⟨h, -⟩ := h
      · refine ⟨hv, hs, hstop.imp id fun hes => List.lt_trans hlt hes⟩
      · exact ⟨hv, hstart, hstop⟩
      · exact h

end Scan

variable (db : StateDb) (updates : UpdateBatch) (h : Height)

/-- Combining is scanning the database with the batch applied. -/
theorem combine_scan (ns start stop : GoString) {n : Nat}
    (hn : (scan db.state ns start stop).length + (scan updates ns start stop).length ≤ n) :
    combine n (scan db.state ns start stop) (scan updates ns start stop) =
      scan (db.applyUpdates updates h).state ns start stop := by
  have hd := sorted_scan db.state ns start stop
  have hu := sorted_scan updates ns start stop
  refine (sorted_merge hd hu hn).unique (sorted_scan _ ns start stop) ?_
  rintro ⟨k, v⟩
  have hget : (db.applyUpdates updates h).state[mk ns k]? =
      (updates[mk ns k]?).elim (db.state[mk ns k]?) Update.toValue :=
    db.getState_applyUpdates updates h ns k
  rw [mem_merge hd hu hn, mem_scan, mem_scan, hget]
  simp only [mem_scan]
  cases hup : updates[mk ns k]? with
  | none => simp
  | some u =>
    by_cases hr : inRange start stop k = true
    · simp [hr]
    · simp [hr]

/-- With an empty batch the combined iterator serves the scan, and the end key. -/
theorem combinedResults_empty (ns start stop : GoString) (includeEndKey : Bool) :
    combinedResults db ∅ ns start stop includeEndKey = scan db.state ns start stop ++
      if includeEndKey then ((db.getState ns stop).map fun v => (stop, v)).toList else [] := by
  have hempty : scan (∅ : UpdateBatch) ns start stop = [] := by
    rw [List.eq_nil_iff_forall_not_mem]
    intro x hmem
    simpa using (mem_scan.mp hmem).1
  simp only [combinedResults, hempty, List.length_nil, Nat.add_zero, merge_nil]
  simp [serveEndKey, UpdateBatch.get]

theorem combinedResults_eq (ns start stop : GoString) (includeEndKey : Bool) :
    combinedResults db updates ns start stop includeEndKey =
      combinedResults (db.applyUpdates updates h) ∅ ns start stop includeEndKey := by
  rw [combinedResults_empty]
  simp only [combinedResults]
  rw [combine_scan db updates h ns start stop (by omega), serveEndKey,
    ← StateDb.getState_applyUpdates db updates h]

end FabricOev.Ledger
