import FabricOev.Ledger.LevelDb
import FabricOev.Ledger.StateDb

/-!
# The state database in LevelDB

`stateleveldb.versionedDB`: a value stands under its namespace, a zero byte and its key, and
is stored behind its version. Namespaces are chaincode names, which have no zero byte and are
not empty; for these the handle does what the interface of the state database says.
-/

namespace FabricOev.Ledger

open Go Lib List FinMap StateDb

def Height.toBytes (h : Height) : Bytes :=
  encodeOrderPreservingVarUint64 h.blockNum ++ encodeOrderPreservingVarUint64 h.txNum

/-- `NewHeightFromBytes`: the height, and how many bytes it took. -/
def Height.ofBytes (b : Bytes) : Result (Height × Nat) := do
  let (blockNum, n1) ← decodeOrderPreservingVarUint64 b
  let (txNum, n2) ← decodeOrderPreservingVarUint64 (b.drop n1)
  .ok (⟨blockNum, txNum⟩, n1 + n2)

def encodeValue (value : Bytes) (version : Height) : Bytes := version.toBytes ++ value

def decodeValue (b : Bytes) : Result VersionedValue := do
  let (version, n) ← Height.ofBytes b
  .ok ⟨b.drop n, version⟩

theorem Height.ofBytes_toBytes (h : Height) (rest : Bytes) :
    Height.ofBytes (h.toBytes ++ rest) = .ok (h, h.toBytes.length) := by
  have hone : h.toBytes ++ rest = encodeOrderPreservingVarUint64 h.blockNum ++
      (encodeOrderPreservingVarUint64 h.txNum ++ rest) := append_assoc ..
  rw [ofBytes, hone, decode_encode]
  simp only [bind, Except.bind, drop_left, decode_encode]
  rw [toBytes, length_append]

/-- A value comes back with its version. An empty one comes back empty, not nil. -/
theorem decode_encodeValue (value : Bytes) (version : Height) :
    decodeValue (encodeValue value version) = .ok ⟨value, version⟩ := by
  rw [decodeValue, encodeValue, Height.ofBytes_toBytes]
  simp only [bind, Except.bind, drop_left]

namespace StateLevelDb

def constructCompositeKey (ns key : GoString) : Bytes := ns ++ 0 :: key

def savePointKey : Bytes := [0]

def getState (m : LevelDb) (ns key : GoString) : Result (Option VersionedValue) :=
  match m[constructCompositeKey ns key]? with
  | none => .ok none
  | some b => do
    let v ← decodeValue b
    .ok (some v)

def encodeUpdate (u : Update) : Option Bytes := u.value.map fun v => encodeValue v u.version

/-- `ApplyUpdates`, with the updates in the order in which they are ranged over. -/
def applyUpdates (m : LevelDb) (updates : List (CompositeKey × Update)) (h : Height) : LevelDb :=
  let dbBatch : LevelBatch := insertAll ∅ (updates.map fun e =>
    (constructCompositeKey e.1.ns e.1.key, encodeUpdate e.2))
  m.writeBatch (dbBatch.insert savePointKey (some h.toBytes))

def getLatestSavePoint (m : LevelDb) : Result (Option Height) :=
  match m[savePointKey]? with
  | none => .ok none
  | some b => do
    let (h, _) ← Height.ofBytes b
    .ok (some h)

/-- A namespace as `lscc` lets a chaincode be called: not empty, and without a zero byte. -/
def PlainNs (ns : GoString) : Prop := ns ≠ [] ∧ 0 ∉ ns

theorem compositeKey_inj {ns ns' key key' : GoString} (hns : PlainNs ns)
    (hns' : PlainNs ns') (h : constructCompositeKey ns key = constructCompositeKey ns' key') :
    ns = ns' ∧ key = key' := append_sep_inj hns.2 hns'.2 h

variable {ns : GoString}

theorem compositeKey_ne_savePoint (hns : PlainNs ns) (key : GoString) :
    constructCompositeKey ns key ≠ savePointKey := by
  obtain ⟨x, xs, rfl⟩ := exists_cons_of_ne_nil hns.1
  intro h
  have := (cons.inj h).2
  simp at this

section Apply

variable {m : LevelDb} {batch : UpdateBatch} {updates : List (CompositeKey × Update)} {h : Height}

theorem getElem?_applyUpdates (hp : updates.Perm batch.toList)
    (hplain : ∀ e ∈ updates, PlainNs e.1.ns) (hns : PlainNs ns) (key : GoString) :
    (applyUpdates m updates h)[constructCompositeKey ns key]? =
      (batch.get ns key).elim m[constructCompositeKey ns key]? encodeUpdate := by
  have hne : savePointKey ≠ constructCompositeKey ns key :=
    (compositeKey_ne_savePoint hns key).symm
  rw [applyUpdates, LevelDb.getElem?_writeBatch, getElem?_insert_eq, if_neg hne]
  have hmem : ∀ k u, (k, u) ∈ updates ↔ batch[k]? = some u := fun k u => by
    rw [hp.mem_iff]
    exact Std.ExtTreeMap.mem_toList_iff_getElem?_eq_some
  cases hget : batch.get ns key with
  | none =>
    rw [getElem?_insertAll_of_notMem]
    · simp
    · intro e he heq
      obtain ⟨⟨k, u⟩, hu, rfl⟩ := mem_map.mp he
      obtain ⟨hk, hk'⟩ := compositeKey_inj (hplain _ hu) hns heq
      obtain rfl : k = ⟨ns, key⟩ := by
        cases k
        simp_all
      rw [UpdateBatch.get, (hmem _ u).mp hu] at hget
      cases hget
  | some u =>
    have hu : (CompositeKey.mk ns key, u) ∈ updates := (hmem _ u).mpr hget
    have hmapped : (constructCompositeKey ns key, encodeUpdate u) ∈ updates.map fun e =>
        (constructCompositeKey e.1.ns e.1.key, encodeUpdate e.2) := mem_map_of_mem hu
    rw [getElem?_insertAll_of_mem _ hmapped]
    · rfl
    · -- the entries have different keys, and stay so in bytes
      rw [pairwise_map]
      have hd : updates.Pairwise fun a b => a.1 ≠ b.1 :=
        (hp.pairwise_iff fun hab => hab.symm).mpr (pairwise_ne_toList batch)
      apply hd.imp_of_mem
      intro a b ha hb hab heq
      obtain ⟨hk, hk'⟩ := compositeKey_inj (hplain a ha) (hplain b hb) heq
      apply hab
      cases ha' : a.1
      cases hb' : b.1
      simp_all

/-- `GetState` after `ApplyUpdates`: the update if there is one, else what was there. -/
theorem getState_applyUpdates (hp : updates.Perm batch.toList)
    (hplain : ∀ e ∈ updates, PlainNs e.1.ns) (hns : PlainNs ns) (key : GoString) :
    getState (applyUpdates m updates h) ns key =
      (batch.get ns key).elim (getState m ns key) fun u => .ok u.toValue := by
  unfold getState
  rw [getElem?_applyUpdates hp hplain hns]
  cases batch.get ns key with
  | none => rfl
  | some u =>
    cases hv : u.value with
    | none => simp [encodeUpdate, Update.toValue, hv]
    | some v => simp [encodeUpdate, Update.toValue, hv, decode_encodeValue, bind, Except.bind]

theorem savePoint_applyUpdates :
    getLatestSavePoint (applyUpdates m updates h) = .ok (some h) := by
  have hof : Height.ofBytes h.toBytes = .ok (h, h.toBytes.length) := by
    have := Height.ofBytes_toBytes h []
    rwa [append_nil] at this
  have hget : (applyUpdates m updates h)[savePointKey]? = some h.toBytes := by
    rw [applyUpdates, LevelDb.getElem?_writeBatch, getElem?_insert_eq, if_pos rfl]
    rfl
  simp only [getLatestSavePoint, hget, hof, bind, Except.bind]

end Apply

/-- The handle holds the state database. -/
structure Represents (m : LevelDb) (db : StateDb) : Prop where
  state : ∀ ns key, PlainNs ns → getState m ns key = .ok (db.getState ns key)
  savepoint : getLatestSavePoint m = .ok db.savepoint

theorem represents_empty : Represents ∅ empty where
  state ns key _ := by simp [getState, StateDb.getState, StateDb.empty]
  savepoint := by simp [getLatestSavePoint, empty]

/-- `ApplyUpdates` does what the interface says, in whatever order the updates come. -/
theorem Represents.applyUpdates {m : LevelDb} {db : StateDb} (hm : Represents m db)
    {batch : UpdateBatch} {updates : List (CompositeKey × Update)} (h : Height)
    (hp : updates.Perm batch.toList) (hplain : ∀ e ∈ updates, PlainNs e.1.ns) :
    Represents (StateLevelDb.applyUpdates m updates h) (db.applyUpdates batch h) where
  state ns key hns := by
    rw [getState_applyUpdates hp hplain hns, StateDb.getState_applyUpdates, hm.state ns key hns]
    cases batch.get ns key <;> rfl
  savepoint := savePoint_applyUpdates

end StateLevelDb

end FabricOev.Ledger
