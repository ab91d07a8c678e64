import FabricOev.Go.Outcome
import FabricOev.Lib.FinMap

/-!
# The versioned state database

`statedb.VersionedDB` at the level of its interface: values with the height of the
transaction that wrote them under a namespace and a key, and the savepoint. One call of
`ApplyUpdates` is atomic. Reads do not fail here; the byte layout of LevelDB, where a
namespace with a zero byte can run into another one, is below this interface.
-/

namespace FabricOev.Ledger

open Go Lib FinMap

structure Height where
  blockNum : UInt64
  txNum : UInt64
deriving DecidableEq, Repr

/-- `version.AreSame` of two pointers; `Compare` of equal heights is the only zero. -/
def areSame (h₁ h₂ : Option Height) : Bool := h₁ = h₂

structure CompositeKey where
  ns : GoString
  key : GoString
deriving DecidableEq, Repr

namespace CompositeKey

instance : Ord CompositeKey where
  compare a b := (compare a.ns b.ns).then (compare a.key b.key)

theorem compare_def (a b : CompositeKey) :
    compare a b = (compare a.ns b.ns).then (compare a.key b.key) := rfl

instance : Std.TransOrd CompositeKey :=
  inferInstanceAs (Std.TransCmp (compareLex (compareOn CompositeKey.ns) (compareOn CompositeKey.key)))

instance : Std.LawfulEqOrd CompositeKey where
  eq_of_compare {a b} h := by
    rw [compare_def, Ordering.then_eq_eq] at h
    have hns := Std.LawfulEqOrd.eq_of_compare h.1
    have hkey := Std.LawfulEqOrd.eq_of_compare h.2
    cases a
    cases b
    simp_all

end CompositeKey

abbrev KeyMap (α : Type) := Std.ExtTreeMap CompositeKey α compare

/-- A value in the database; it is never nil there. -/
structure VersionedValue where
  value : Bytes
  version : Height
deriving DecidableEq, Repr

structure StateDb where
  state : KeyMap VersionedValue
  savepoint : Option Height

def StateDb.empty : StateDb := ⟨∅, none⟩

def StateDb.getState (db : StateDb) (ns key : GoString) : Option VersionedValue :=
  db.state[CompositeKey.mk ns key]?

/-- An entry of a batch; a nil value deletes the key. -/
structure Update where
  value : Option Bytes
  version : Height
deriving DecidableEq, Repr

def Update.toValue (u : Update) : Option VersionedValue := u.value.map (⟨·, u.version⟩)

abbrev UpdateBatch := KeyMap Update

namespace UpdateBatch

def get (b : UpdateBatch) (ns key : GoString) : Option Update := b[CompositeKey.mk ns key]?

def put (b : UpdateBatch) (ns key : GoString) (value : Option Bytes) (h : Height) :
    Result UpdateBatch :=
  match value with
  | none => Result.panicWith (.explicit (str "Nil value not allowed"))
  | some v => .ok (b.insert ⟨ns, key⟩ ⟨some v, h⟩)

def delete (b : UpdateBatch) (ns key : GoString) (h : Height) : UpdateBatch :=
  b.insert ⟨ns, key⟩ ⟨none, h⟩

def existsKey (b : UpdateBatch) (ns key : GoString) : Bool := (b.get ns key).isSome

end UpdateBatch

/-- `ApplyUpdates`: all updates and the new savepoint in one write. -/
def StateDb.applyUpdates (db : StateDb) (batch : UpdateBatch) (h : Height) : StateDb :=
  ⟨overlay Update.toValue db.state batch, some h⟩

theorem StateDb.getState_applyUpdates (db : StateDb) (b : UpdateBatch) (h : Height)
    (ns key : GoString) :
    (db.applyUpdates b h).getState ns key =
      (b.get ns key).elim (db.getState ns key) Update.toValue := by
  rw [StateDb.getState, StateDb.applyUpdates, getElem?_overlay]
  rfl

theorem StateDb.eq_iff {a b : StateDb} (h : a.savepoint = b.savepoint) :
    a = b ↔ ∀ ns key, a.getState ns key = b.getState ns key := by
  refine ⟨fun heq _ _ => heq ▸ rfl, fun hget => ?_⟩
  obtain ⟨state, sp⟩ := a
  obtain rfl : state = b.state := Std.ExtTreeMap.ext_getElem? fun k => hget k.ns k.key
  rw [show sp = b.savepoint from h]

/-- `startKey` inclusive, `endKey` exclusive; an empty end key does not bound. -/
def inRange (start stop key : GoString) : Bool := start ≤ key ∧ (stop = [] ∨ key < stop)

/-- The entries of a namespace in a key range, in the order of the keys. -/
def scan {α : Type} (m : KeyMap α) (ns start stop : GoString) : List (GoString × α) :=
  (m.toList.filter fun e => e.1.ns = ns && inRange start stop e.1.key).map fun e => (e.1.key, e.2)

end FabricOev.Ledger
