import FabricOev.Ledger.RecordedQueries
import FabricOev.Ledger.StateLevelDb

/-!
# From a write to the database

What a simulator is told to write goes through its write map, the wire, the batch of the
validator and the batch of LevelDB before it can be read. A nil value is a delete all the
way; a value that is empty but not nil is one in the write map, none on the wire, and a panic
in the batch.
-/

namespace FabricOev.Ledger

open Go Lib List TxSimulator SimCall Option FinMap Std.ExtTreeMap StateDb

/-! ## Calls that write -/

inductive WriteCall where
  | setState (ns key : GoString) (value : Option Bytes)
  | deleteState (ns key : GoString)
  | setStateMultipleKeys (ns : GoString) (kvs : Std.ExtTreeMap GoString (Option Bytes) compare)

namespace WriteCall

/-- The calls of `SetState` that a call comes to; a map is ranged over in any order. -/
inductive Runs : WriteCall → List SimCall → Prop
  | setState (ns key : GoString) (value : Option Bytes) :
    Runs (.setState ns key value) [.setState ns key value]
  | deleteState (ns key : GoString) : Runs (.deleteState ns key) [.setState ns key none]
  | setStateMultipleKeys {ns : GoString} {kvs : Std.ExtTreeMap GoString (Option Bytes) compare}
    {l : List (GoString × Option Bytes)} (h : l.Perm kvs.toList) :
    Runs (.setStateMultipleKeys ns kvs) (l.map fun e => .setState ns e.1 e.2)

/-- What a call sets for a key; nil is a delete. -/
def sets (ns key : GoString) : WriteCall → Option (Option Bytes)
  | .setState ns' key' value => if ns' = ns ∧ key' = key then some value else none
  | .deleteState ns' key' => if ns' = ns ∧ key' = key then some none else none
  | .setStateMultipleKeys ns' kvs => if ns' = ns then kvs[key]? else none

def lastSet (ws : List WriteCall) (ns key : GoString) : Option (Option Bytes) :=
  (ws.filterMap (sets ns key)).getLast?

variable {ws : List WriteCall}

theorem exists_of_lastSet {ns key : GoString} {v : Option Bytes} (h : lastSet ws ns key = some v) :
    ∃ w ∈ ws, w.sets ns key = some v :=
  mem_filterMap.mp (mem_of_getLast? h)

end WriteCall

namespace TxSimulator

theorem lastWrite_append (xs ys : List SimCall) (ns key : GoString) :
    lastWrite (xs ++ ys) ns key = (lastWrite ys ns key).or (lastWrite xs ns key) := by
  induction ys using reverseRecOn with
  | nil => simp [lastWrite]
  | append_singleton ys c ih =>
    rw [← append_assoc, lastWrite_concat, lastWrite_concat, ih, Option.or_assoc]

/-- Setting the keys of a map sets what the map has for them. -/
theorem lastWrite_map {kvs : Std.ExtTreeMap GoString (Option Bytes) compare}
    {l : List (GoString × Option Bytes)} (h : l.Perm kvs.toList) (ns ns' key : GoString) :
    lastWrite (l.map fun e => SimCall.setState ns e.1 e.2) ns' key =
      if ns = ns' then kvs[key]? else none := by
  have hmem : ∀ v, (key, v) ∈ l ↔ kvs[key]? = some v := fun v => by
    rw [h.mem_iff]
    exact mem_toList_iff_getElem?_eq_some
  have hvalues : ∀ v, v ∈ (l.map fun e => setState ns e.1 e.2).filterMap
      (valueFor ns' key) ↔ ns = ns' ∧ kvs[key]? = some v := by
    intro v
    rw [filterMap_map, mem_filterMap, ← hmem]
    constructor
    · intro hv
      obtain ⟨e, he, hv⟩ := hv
      simp only [Function.comp_apply, valueFor] at hv
      split at hv
      · rename_i heq
        obtain ⟨rfl, rfl⟩ := heq
        cases hv
        exact ⟨rfl, he⟩
      · cases hv
    · intro hv
      refine ⟨(key, v), hv.2, ?_⟩
      simp [valueFor, hv.1]
  unfold lastWrite
  cases hlast : ((l.map fun e => setState ns e.1 e.2).filterMap (valueFor ns' key)).getLast? with
  | none =>
    rw [getLast?_eq_none_iff] at hlast
    split
    · rename_i hns
      cases hk : kvs[key]? with
      | none => rfl
      | some v =>
        have := (hvalues v).mpr ⟨hns, hk⟩
        rw [hlast] at this
        cases this
    · rfl
  | some v =>
    obtain ⟨hns, hk⟩ := (hvalues v).mp (mem_of_getLast? hlast)
    rw [if_pos hns, hk]

theorem lastWrite_of_runs {css : List (List SimCall)} (h : List.Forall₂ WriteCall.Runs ws css)
    (ns key : GoString) :
    lastWrite css.flatten ns key = WriteCall.lastSet ws ns key := by
  induction h with
  | nil => rfl
  | @cons w cs ws css hw _ ih =>
    have hone : lastWrite cs ns key = w.sets ns key := by
      cases hw with
      | setState ns' key' value | deleteState ns' key' =>
        by_cases hk : ns' = ns ∧ key' = key
        · simp [lastWrite, valueFor, WriteCall.sets, hk]
        · simp [lastWrite, valueFor, WriteCall.sets, hk]
      | setStateMultipleKeys hp => exact lastWrite_map hp _ _ _
    have hcons : WriteCall.lastSet (w :: ws) ns key =
        (WriteCall.lastSet ws ns key).or (w.sets ns key) := by
      unfold WriteCall.lastSet
      cases hs : w.sets ns key with
      | none => simp [hs]
      | some v =>
        rw [filterMap_cons_some hs, getLast?_cons]
        cases (ws.filterMap (WriteCall.sets ns key)).getLast? <;> rfl
    rw [flatten_cons, lastWrite_append, ih, hone, hcons]

end TxSimulator

variable {hash : Bytes → Bytes} {qc : QueryConfig} {db : StateDb}

/-- A decoded write set that can be added has for every key what was set last. -/
theorem get_addReceived {cs : List SimCall} {h : Height} {batch : UpdateBatch}
    (hb : addWriteSetToBatch ((TxSimulator.after qc hash db cs).rwSet hash).received h ∅ =
      .ok batch) (ns key : GoString) :
    batch.get ns key = (TxSimulator.lastWrite cs ns key).map fun v => ⟨v, h⟩ := by
  have hvalues := (addReceived_isOk qc hash db cs h ∅).mp ⟨batch, hb⟩
  obtain rfl := Except.ok.inj (hb.symm.trans (addWriteSet_eq hb ∅))
  -- a write becomes the update with its value
  have hupdate : ∀ v : Option Bytes, v ≠ some [] →
      KvWrite.update h (KvWrite.received ⟨key, v.isNone, v⟩) = ⟨v, h⟩ := by
    intro v hv
    cases v with
    | none => rfl
    | some b =>
      have hne : b ≠ [] := fun hnil => hv (congrArg some hnil)
      simp [KvWrite.update, KvWrite.received, Wire.nonNil_of_ne hne]
  have hmem : ∀ u, (CompositeKey.mk ns key, u) ∈
      writeEntries ((after qc hash db cs).rwSet hash).received h →
      (lastWrite cs ns key).map (fun v => (⟨v, h⟩ : Update)) = some u := by
    intro u hu
    obtain ⟨s', hs', hu⟩ := mem_flatMap.mp hu
    obtain ⟨w', hw', heq⟩ := mem_map.mp hu
    obtain ⟨s, hs, rfl⟩ := mem_map.mp hs'
    obtain ⟨w, hw, rfl⟩ := mem_map.mp hw'
    obtain ⟨hk, rfl⟩ := Prod.mk.inj heq
    obtain ⟨hns, hkey⟩ : s.ns = ns ∧ w.key = key := CompositeKey.mk.inj hk
    obtain ⟨v, hlast, hweq⟩ := ((recordedIn_of_mem hs).writes w).mp hw
    rw [hns, hkey] at hlast
    rw [hkey] at hweq
    rw [hlast, map_some, hweq, hupdate v fun hv => hvalues ns key (hv ▸ hlast)]
  cases hget : UpdateBatch.get (insertAll ∅ (writeEntries
      ((after qc hash db cs).rwSet hash).received h)) ns key with
  | some u =>
    obtain hempty | hu := getElem?_insertAll_cases hget
    · simp at hempty
    · exact (hmem u hu).symm
  | none =>
    cases hlast : lastWrite cs ns key with
    | none => rfl
    | some v =>
      obtain ⟨s, hs, rfl⟩ := exists_mem_of_lastWrite qc hash db hlast
      have hw : (⟨key, v.isNone, v⟩ : KvWrite) ∈ s.writes :=
        ((recordedIn_of_mem hs).writes _).mpr ⟨v, hlast, rfl⟩
      have hentry : (CompositeKey.mk s.ns key,
          KvWrite.update h (KvWrite.received ⟨key, v.isNone, v⟩)) ∈
          writeEntries ((after qc hash db cs).rwSet hash).received h :=
        mem_flatMap.mpr ⟨s.received, mem_map_of_mem hs, mem_map.mpr ⟨_, mem_map_of_mem hw, rfl⟩⟩
      obtain ⟨u', hu'⟩ := exists_getElem?_insertAll (b := (∅ : UpdateBatch)) hentry
      rw [UpdateBatch.get, hu'] at hget
      cases hget

open StateLevelDb in
/-- The decoded write set, added to a batch and applied, makes every key read as it was set
last and leaves the others, exactly if nothing is last set to the empty value. -/
theorem writes_reach_state_iff {ws : List WriteCall} {css : List (List SimCall)}
    {as : List (Answer VersionedValue)} {sim : TxSimulator} {m : LevelDb} {h h' : Height}
    (hruns : List.Forall₂ WriteCall.Runs ws css)
    (hsim : TxSimulator.new.calls qc hash db css.flatten = .ok (as, sim))
    (he : (sim.rwSet hash).Encodable)
    (hplain : ∀ ns key, WriteCall.lastSet ws ns key ≠ none → PlainNs ns) :
    (∃ rw batch, TxRwSet.fromProtoBytes (sim.getTxSimulationResults hash) = some rw ∧
      addWriteSetToBatch rw h ∅ = .ok batch ∧
      ∀ updates, updates.Perm batch.toList → ∀ ns key, PlainNs ns →
        getState (applyUpdates m updates h') ns key =
          (WriteCall.lastSet ws ns key).elim (getState m ns key)
            fun v => .ok (v.map fun v => ⟨v, h⟩)) ↔
      ∀ ns key, WriteCall.lastSet ws ns key ≠ some (some []) := by
  obtain ⟨rfl, -⟩ := calls_new hsim
  have hdecode : TxRwSet.fromProtoBytes ((after qc hash db
      css.flatten).getTxSimulationResults hash) = some _ :=
    TxRwSet.fromProto_toProto he
  have hlast := lastWrite_of_runs hruns
  have hok := addReceived_isOk qc hash db css.flatten h ∅
  simp only [hlast] at hok
  constructor
  · intro hex
    obtain ⟨rw, batch, hrw, hb, -⟩ := hex
    obtain rfl := some.inj (hdecode.symm.trans hrw)
    exact hok.mp ⟨batch, hb⟩
  · intro hall
    obtain ⟨batch, hb⟩ := hok.mpr hall
    have hget := get_addReceived hb
    refine ⟨_, batch, hdecode, hb, fun updates hp ns key hns => ?_⟩
    have hplain' : ∀ e ∈ updates, PlainNs e.1.ns := by
      intro e hmem
      have hentry : batch.get e.1.ns e.1.key = some e.2 :=
        mem_toList_iff_getElem?_eq_some.mp (hp.mem_iff.mp hmem)
      apply hplain e.1.ns e.1.key
      intro hnone
      rw [hget, hlast, hnone] at hentry
      cases hentry
    rw [StateLevelDb.getState_applyUpdates hp hplain' hns, hget, hlast]
    cases WriteCall.lastSet ws ns key with
    | none | some v => rfl

open StateLevelDb in
/-- Two keys set, one of them again through a map and the other one deleted. -/
theorem set_and_deleted_reach_state :
    let ws : List WriteCall := [.setState (str "cc") (str "a") (some (str "1")),
      .setStateMultipleKeys (str "cc") ((∅ : Std.ExtTreeMap GoString (Option Bytes) compare).insert
        (str "a") (some (str "2"))),
      .setState (str "cc") (str "b") (some (str "3")), .deleteState (str "cc") (str "b")]
    let cs : List SimCall := [.setState (str "cc") (str "a") (some (str "1")),
      .setState (str "cc") (str "a") (some (str "2")),
      .setState (str "cc") (str "b") (some (str "3")), .setState (str "cc") (str "b") none]
    ∃ rw batch, TxRwSet.fromProtoBytes ((after ⟨true, 50⟩ id empty
        cs).getTxSimulationResults id) = some rw ∧
      addWriteSetToBatch rw ⟨1, 0⟩ ∅ = .ok batch ∧
      ∀ updates, updates.Perm batch.toList → ∀ ns key, PlainNs ns →
        getState (applyUpdates ∅ updates ⟨1, 1⟩) ns key =
          (WriteCall.lastSet ws ns key).elim (getState ∅ ns key)
            fun v => .ok (v.map fun v => ⟨v, ⟨1, 0⟩⟩) := by
  intro ws cs
  have hruns : List.Forall₂ WriteCall.Runs ws [[.setState (str "cc") (str "a") (some (str "1"))],
      [.setState (str "cc") (str "a") (some (str "2"))],
      [.setState (str "cc") (str "b") (some (str "3"))], [.setState (str "cc") (str "b") none]] :=
    .cons (.setState _ _ _) (.cons (.setStateMultipleKeys (l := [(str "a", some (str "2"))])
      (by decide +kernel)) (.cons (.setState _ _ _) (.cons (.deleteState _ _) .nil)))
  have hcases : ∀ ns key v, WriteCall.lastSet ws ns key = some v → ns = str "cc" ∧ v ≠ some [] := by
    intro ns key v hv
    obtain ⟨w, hw, hs⟩ := WriteCall.exists_of_lastSet hv
    simp only [ws, mem_cons, not_mem_nil, or_false] at hw
    obtain rfl | rfl | rfl | rfl := hw
    · obtain ⟨⟨rfl, -⟩, rfl⟩ := by simpa [WriteCall.sets] using hs
      exact ⟨rfl, by decide⟩
    · simp only [WriteCall.sets, getElem?_insert_eq] at hs
      split_ifs at hs with hns hkey
      · cases hs
        exact ⟨hns.symm, by decide⟩
      · simp at hs
    · obtain ⟨⟨rfl, -⟩, rfl⟩ := by simpa [WriteCall.sets] using hs
      exact ⟨rfl, by decide⟩
    · obtain ⟨⟨rfl, -⟩, rfl⟩ := by simpa [WriteCall.sets] using hs
      exact ⟨rfl, by decide⟩
  have hsim : ∃ as, new.calls ⟨true, 50⟩ id empty cs =
      .ok (as, after ⟨true, 50⟩ id empty cs) := ⟨_, rfl⟩
  obtain ⟨as, hsim⟩ := hsim
  refine (writes_reach_state_iff hruns hsim ⟨by decide +kernel, by decide +kernel⟩ ?_).mpr ?_
  · intro ns key hne
    obtain ⟨v, hv⟩ := ne_none_iff_exists'.mp hne
    obtain ⟨rfl, -⟩ := hcases ns key v hv
    exact ⟨by decide, by decide⟩
  · intro ns key hv
    exact (hcases ns key _ hv).2 rfl

/-- A value that is empty but not nil is encoded as none, and the batch panics at it. -/
theorem empty_value_panics :
    let sim := after ⟨true, 50⟩ id empty [.setState (str "cc") (str "a") (some [])]
    (∃ as, new.calls ⟨true, 50⟩ id empty
        [.setState (str "cc") (str "a") (some [])] = .ok (as, sim)) ∧
      TxRwSet.fromProtoBytes (sim.getTxSimulationResults id) =
        some [⟨str "cc", [], [], [⟨str "a", false, none⟩]⟩] ∧
      addWriteSetToBatch [⟨str "cc", [], [], [⟨str "a", false, none⟩]⟩] ⟨1, 0⟩ ∅ =
        Result.panicWith (.explicit (str "Nil value not allowed")) := by
  intro sim
  exact ⟨⟨_, rfl⟩, by decide +kernel, rfl⟩

end FabricOev.Ledger
