import FabricOev.Go.VarUint
import FabricOev.Lib.FinMap

/-!
# LevelDB handles

`leveldbhelper.DBHandle`: the keys and values of one named database, with batches that are
written at once. The key space of a handle is its own; the name that is put before its keys
is below this interface. Values are never nil.
-/

namespace FabricOev.Ledger

open Go Lib List FinMap

abbrev LevelDb := Std.ExtTreeMap Bytes Bytes compare

/-- `leveldbhelper.UpdateBatch`: a nil value deletes the key. -/
abbrev LevelBatch := Std.ExtTreeMap Bytes (Option Bytes) compare

namespace LevelDb

def writeBatch (m : LevelDb) (b : LevelBatch) : LevelDb := overlay id m b

/-- `GetIterator`: the entries from `startKey` on and before `endKey`, in the order of the
keys. -/
def getIterator (m : LevelDb) (startKey endKey : Bytes) : List (Bytes × Bytes) :=
  m.toList.filter fun e => startKey ≤ e.1 ∧ e.1 < endKey

theorem getElem?_writeBatch (m : LevelDb) (b : LevelBatch) (k : Bytes) :
    (m.writeBatch b)[k]? = (b[k]?).elim m[k]? id :=
  getElem?_overlay id m b k

end LevelDb

/-- A separator that does not stand in the first parts separates them. -/
theorem append_sep_inj {x : UInt8} {a a' b b' : Bytes} (ha : x ∉ a) (ha' : x ∉ a')
    (h : a ++ x :: b = a' ++ x :: b') : a = a' ∧ b = b' := by
  induction a generalizing a' with
  | nil =>
    cases a' with
    | nil => exact ⟨rfl, (cons.inj h).2⟩
    | cons y a' => exact absurd (cons.inj h).1 fun hx => ha' (by simp [hx])
  | cons z a ih =>
    cases a' with
    | nil => exact absurd (cons.inj h).1 fun hx => ha (by simp [hx])
    | cons y a' =>
      obtain ⟨rfl, hrest⟩ := cons.inj h
      obtain ⟨rfl, rfl⟩ := ih (fun hx => ha (mem_cons_of_mem _ hx))
        (fun hx => ha' (mem_cons_of_mem _ hx)) hrest
      exact ⟨rfl, rfl⟩

/-- A range between two keys with one beginning is a range of what follows it. -/
theorem append_le_and_lt_append_iff {p a b x : Bytes} :
    p ++ a ≤ x ∧ x < p ++ b ↔ ∃ y, x = p ++ y ∧ a ≤ y ∧ y < b := by
  induction p generalizing x with
  | nil => simp
  | cons c p ih =>
    cases x with
    | nil => simp
    | cons d x =>
      rw [cons_append, cons_append, cons_le_cons_iff, cons_lt_cons_iff]
      constructor
      · rintro ⟨hle | ⟨rfl, hle⟩, hlt | ⟨heq, hlt⟩⟩
        · exact absurd (UInt8.lt_trans hle hlt) (UInt8.lt_irrefl c)
        · exact absurd (heq ▸ hle) (UInt8.lt_irrefl d)
        · exact absurd hlt (UInt8.lt_irrefl c)
        · obtain ⟨y, rfl, h⟩ := ih.mp ⟨hle, hlt⟩
          exact ⟨y, rfl, h⟩
      · rintro ⟨y, heq, h⟩
        obtain ⟨rfl, rfl⟩ := cons.inj heq
        obtain ⟨hle, hlt⟩ := ih.mpr ⟨y, rfl, h⟩
        exact ⟨.inr ⟨rfl, hle⟩, .inr ⟨rfl, hlt⟩⟩

end FabricOev.Ledger
