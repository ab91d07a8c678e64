import Mathlib.Data.List.Basic

/-!
# Logs that a crash cuts

A log on disk to which entries are appended. Those before the last sync are there for good; of
the ones after it a crash keeps some first part. What is to hold after every crash has to hold
of all these first parts, and only appending and syncing change which ones they are.
-/

namespace FabricOev.Lib

open List

structure CrashLog (α : Type) where
  entries : List α
  synced : Nat
  synced_le : synced ≤ entries.length

namespace CrashLog

variable {α : Type} {P : List α → Prop} {l : CrashLog α}

def empty : CrashLog α := ⟨[], 0, Nat.le_refl 0⟩

def append (l : CrashLog α) (xs : List α) : CrashLog α :=
  ⟨l.entries ++ xs, l.synced, Nat.le_trans l.synced_le (by simp)⟩

def sync (l : CrashLog α) : CrashLog α := ⟨l.entries, l.entries.length, Nat.le_refl _⟩

/-- Cut down to `n` entries, for good. -/
def truncate (l : CrashLog α) (n : Nat) : CrashLog α :=
  ⟨l.entries.take n, (l.entries.take n).length, Nat.le_refl _⟩

/-- After a crash that keeps `k` entries, or what was synced if that is more. -/
def crash (l : CrashLog α) (k : Nat) : CrashLog α := l.truncate (max l.synced k)

/-- What is left holds `P`, wherever the crash cuts. -/
def Survives (P : List α → Prop) (l : CrashLog α) : Prop := ∀ k, P (l.crash k).entries

@[simp] theorem entries_append (l : CrashLog α) (xs : List α) :
    (l.append xs).entries = l.entries ++ xs := rfl

@[simp] theorem entries_truncate (l : CrashLog α) (n : Nat) :
    (l.truncate n).entries = l.entries.take n := rfl

@[simp] theorem entries_crash (l : CrashLog α) (k : Nat) :
    (l.crash k).entries = l.entries.take (max l.synced k) := rfl

/-- A log is synced if a crash does nothing to it. -/
def Synced (l : CrashLog α) : Prop := l.synced = l.entries.length

variable (l)

theorem synced_sync : l.sync.Synced := rfl

theorem synced_truncate (n : Nat) : (l.truncate n).Synced := rfl

theorem synced_crash (k : Nat) : (l.crash k).Synced := rfl

variable {l}

theorem Synced.crash_entries (h : l.Synced) (k : Nat) : (l.crash k).entries = l.entries := by
  have hle : l.entries.length ≤ max l.synced k := by
    rw [← h]
    omega
  rw [entries_crash, take_of_length_le hle]

theorem Survives.now (h : Survives P l) : P l.entries := by
  have := h l.entries.length
  rwa [entries_crash, take_of_length_le (by omega)] at this

theorem survives_of_synced (hl : l.Synced) (h : P l.entries) : Survives P l := by
  intro k
  rwa [hl.crash_entries]

theorem Survives.imp {Q : List α → Prop} (h : Survives P l) (hPQ : ∀ xs, P xs → Q xs) :
    Survives Q l := fun k => hPQ _ (h k)

/-- One more entry: all the first parts there were, and the whole. -/
theorem Survives.append_singleton (h : Survives P l) {x : α} (hx : P (l.entries ++ [x])) :
    Survives P (l.append [x]) := by
  intro k
  have hle := l.synced_le
  rw [entries_crash, entries_append]
  by_cases hk : max l.synced k ≤ l.entries.length
  · have := h k
    rwa [show (l.append [x]).synced = l.synced from rfl, take_append_of_le_length hk]
  · rw [show (l.append [x]).synced = l.synced from rfl, take_of_length_le]
    · exact hx
    · rw [length_append, length_singleton]
      omega

end CrashLog

end FabricOev.Lib
