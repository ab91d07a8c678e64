import FabricOev.Ledger.FailingReads

/-!
# The combined iterator as a range scan

`combinedIterator` is opened for a range and `Next` is called again and again, here with no
failing call. What it should give is a scan of the database with the batch laid over it, and
after it the end key where that is asked for. An empty end key stands for an open range; the
iterator looks the empty key up all the same.
-/

namespace FabricOev.Ledger.Fallible

open Go Lib SortedMerge List Result Nat

variable {db : StateDb} {updates : UpdateBatch} {ns start stop : GoString} {incl : Bool}

def nexts (db : StateDb) (updates : UpdateBatch) :
    Nat → CombinedItr → Nat → Result (List (Option Item))
  | 0, _, _ => .ok []
  | k + 1, itr, n => do
    let ((result, itr), n) ← next (fun _ => false) db updates itr.size itr n
    let results ← nexts db updates k itr n
    .ok (result :: results)

def iterate (db : StateDb) (updates : UpdateBatch) (ns start stop : GoString) (incl : Bool)
    (k : Nat) : Result (List (Option Item)) := do
  let (itr, n) ← newCombinedIterator (fun _ => false) db updates ns start stop incl 0
  nexts db updates k itr n

/-- The calls give what is left to serve, one by one, and nil from then on. -/
theorem nexts_eq (k : Nat) (itr : CombinedItr) (n : Nat) :
    nexts db updates k itr n = .ok ((range k).map ((itr.results db updates)[·]?)) := by
  induction k generalizing itr n with
  | zero => rfl
  | succ k ih =>
    obtain ⟨-, k, hk⟩ | ⟨itr', n', hnext, htail, -⟩ :=
      steps_next (fun _ => false) db updates (le_refl itr.size) n
    · cases hk
    · rw [nexts, hnext, ok_bind]
      dsimp only
      rw [ih, ok_bind, range_succ_eq_map, map_cons, map_map, htail, head?_eq_getElem?]
      simp [Function.comp_def]

def merged (db : StateDb) (updates : UpdateBatch) (ns key : GoString) : Option VersionedValue :=
  (updates.get ns key).elim (db.getState ns key) Update.toValue

theorem iterate_eq (k : Nat) :
    iterate db updates ns start stop incl k = .ok ((range k).map
      ((scan (db.applyUpdates updates ⟨0, 0⟩).state ns start stop ++
        if incl then ((merged db updates ns stop).map (stop, ·)).toList else [])[·]?)) := by
  rw [← combine_scan db updates ⟨0, 0⟩ ns start stop (le_succ _)]
  have hresults : (CombinedItr.mk ns stop incl (scan db.state ns start stop)
      (scan updates ns start stop) false).results db updates = _ := results_mk (lt_succ_self _)
  rw [Bool.not_false, Bool.and_true] at hresults
  exact (nexts_eq k _ _).trans (by rw [hresults]; rfl)

/-- The merged state in the range, the end key where it is asked for, and nil. -/
def ServesRange (db : StateDb) (updates : UpdateBatch) (ns start stop : GoString) (incl : Bool) :
    Prop :=
  ∃ l : List Item, Sorted l ∧ (∀ key v, (key, v) ∈ l ↔
      merged db updates ns key = some v ∧ start ≤ key ∧ (stop = [] ∨ key < stop)) ∧
    ∀ k, iterate db updates ns start stop incl k = .ok ((range k).map
      ((l ++ if incl ∧ stop ≠ [] then ((merged db updates ns stop).map (stop, ·)).toList else [])[·]?))

theorem mem_scan_merged {key : GoString} {v : VersionedValue} :
    (key, v) ∈ scan (db.applyUpdates updates ⟨0, 0⟩).state ns start stop ↔
      merged db updates ns key = some v ∧ start ≤ key ∧ (stop = [] ∨ key < stop) := by
  have hget : (db.applyUpdates updates ⟨0, 0⟩).state[CompositeKey.mk ns key]? =
      merged db updates ns key := db.getState_applyUpdates updates ⟨0, 0⟩ ns key
  rw [mem_scan, hget]
  simp [inRange]

/-- The call after the last key of an open range gives the empty key. -/
theorem not_servesRange_of_empty_key (hsome : merged db updates ns [] ≠ none) :
    ¬ ServesRange db updates ns start [] true := by
  rintro ⟨l, hsorted, hmem, hall⟩
  obtain ⟨v, hv⟩ := Option.ne_none_iff_exists'.mp hsome
  obtain rfl : l = scan (db.applyUpdates updates ⟨0, 0⟩).state ns start [] := by
    refine hsorted.unique (sorted_scan _ ns start []) ?_
    rintro ⟨key, v⟩
    rw [hmem, mem_scan_merged]
  have h := hall (length (scan (db.applyUpdates updates ⟨0, 0⟩).state ns start []) + 1)
  rw [iterate_eq, hv] at h
  have hlast := map_inj_left.mp (Except.ok.inj h) _ (mem_range.mpr (lt_succ_self _))
  simp at hlast

theorem servesRange_iff :
    ServesRange db updates ns start stop incl ↔
      ¬ (incl = true ∧ stop = [] ∧ merged db updates ns [] ≠ none) := by
  constructor
  · rintro h ⟨rfl, rfl, hsome⟩
    exact not_servesRange_of_empty_key hsome h
  · intro h
    refine ⟨_, sorted_scan _ ns start stop, fun key v => mem_scan_merged, fun k => ?_⟩
    have hend : (if incl then ((merged db updates ns stop).map (stop, ·)).toList else []) =
        if incl ∧ stop ≠ [] then ((merged db updates ns stop).map (stop, ·)).toList else [] := by
      by_cases hstop : stop = []
      · subst hstop
        cases hm : merged db updates ns [] with
        | none => simp
        | some v =>
          have hincl : incl = false := by simpa [hm] using h
          simp [hincl]
      · simp [hstop]
    rw [iterate_eq, hend]

/-- The empty key is in the database, and an open range gives it twice. -/
theorem empty_key_served_twice :
    ¬ ServesRange ⟨(∅ : KeyMap VersionedValue).insert ⟨str "ns", []⟩ ⟨[1], ⟨1, 0⟩⟩, none⟩ ∅
        (str "ns") [] [] true ∧
      iterate ⟨(∅ : KeyMap VersionedValue).insert ⟨str "ns", []⟩ ⟨[1], ⟨1, 0⟩⟩, none⟩ ∅
          (str "ns") [] [] true 3 =
        .ok [some ([], ⟨[1], ⟨1, 0⟩⟩), some ([], ⟨[1], ⟨1, 0⟩⟩), none] :=
  ⟨not_servesRange_of_empty_key (by decide +kernel), by decide +kernel⟩

end FabricOev.Ledger.Fallible
