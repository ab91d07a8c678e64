import Mathlib.Data.List.Basic
import Mathlib.Tactic.Ring

/-!
# Slices that share their backing arrays

`append` writes into the backing array when there is room behind the slice, also if another
slice covers that place, and copies into a larger array otherwise. Of a backing array the
places that were written are kept; what lies behind them is never read.
-/

namespace FabricOev.Go

open List Nat

/-- The size classes of the allocator. -/
def sizeClasses : List Nat :=
  [8, 16, 32, 48, 64, 80, 96, 112, 128, 144, 160, 176, 192, 208, 224, 240, 256, 288, 320, 352,
    384, 416, 448, 480, 512, 576, 640, 704, 768, 896, 1024, 1152, 1280, 1408, 1536, 1792, 2048,
    2304, 2688, 3072, 3200, 3456, 4096, 4864, 5120, 5376, 6144, 6528, 6784, 6912, 8192, 9472,
    9728, 10240, 10880, 12288, 13568, 14336, 16384, 18432, 19072, 20480, 21760, 24576, 27264,
    28672, 32768]

/-- `roundupsize`: the next size class, whole pages beyond them. -/
def roundUpSize (size : Nat) : Nat :=
  match sizeClasses.find? (size ≤ ·) with
  | some class_ => class_
  | none => (size + 8191) / 8192 * 8192

/-- The capacity `growslice` gives to a full slice of strings for one more element. -/
def growCap (len : Nat) : Nat :=
  let newcap := if len = 0 then 1 else if len < 1024 then 2 * len else len + len / 4
  roundUpSize (newcap * 16) / 16

theorem le_roundUpSize (size : Nat) : size ≤ roundUpSize size := by
  unfold roundUpSize
  split
  case h_1 class_ h =>
    have := find?_some h
    simpa using this
  case h_2 => omega

theorem lt_growCap (len : Nat) : len < growCap len := by
  unfold growCap
  dsimp only
  split
  case isTrue h =>
    have := le_roundUpSize (1 * 16)
    omega
  case isFalse h =>
    split
    case isTrue => have := le_roundUpSize (2 * len * 16); omega
    case isFalse => have := le_roundUpSize ((len + len / 4) * 16); omega

structure BackingArray (α : Type) where
  cap : Nat
  items : List α
deriving Repr

structure Slice where
  array : Nat
  len : Nat
deriving DecidableEq, Repr

abbrev Arrays (α : Type) := List (BackingArray α)

variable {α : Type} {h h' : Arrays α} {s : Slice} {cap : Nat} {i len : Nat}

def Slice.read (h : Arrays α) (s : Slice) : List α :=
  match h[s.array]? with
  | some a => a.items.take s.len
  | none => []

def Slice.append (h : Arrays α) (s : Slice) (x : α) : Arrays α × Slice :=
  match h[s.array]? with
  | none => (h, s)
  | some a =>
    if s.len < a.cap then
      (h.set s.array ⟨a.cap, a.items.take s.len ++ x :: a.items.drop (s.len + 1)⟩,
        ⟨s.array, s.len + 1⟩)
    else
      (h ++ [⟨growCap s.len, a.items.take s.len ++ [x]⟩], ⟨h.length, s.len + 1⟩)

/-- A slice of the heap, in an array of this capacity. -/
structure Slice.In (s : Slice) (h : Arrays α) (cap : Nat) : Prop where
  found : ∃ items, h[s.array]? = some ⟨cap, items⟩ ∧ s.len ≤ items.length
  room : s.len ≤ cap

/-- The capacity behind a slice after one `append` to a slice of this length and capacity. -/
def nextCap (len cap : Nat) : Nat := if len < cap then cap else growCap len

/-- A slice of length `len` in array `i` shows the same in both heaps, and so do all other arrays.
-/
structure Extends (h h' : Arrays α) (i len : Nat) : Prop where
  length : h.length ≤ h'.length
  others : ∀ j < h.length, j ≠ i → h'[j]? = h[j]?
  kept : ∀ a, h[i]? = some a → len ≤ a.items.length →
    ∃ items, h'[i]? = some ⟨a.cap, items⟩ ∧ items.take len = a.items.take len ∧ len ≤ items.length

theorem Extends.refl (h : Arrays α) (i len : Nat) : Extends h h i len :=
  ⟨le_refl _, fun _ _ _ => rfl, fun a ha hle => ⟨a.items, ha, rfl, hle⟩⟩

theorem Extends.of_same (hle : h.length ≤ h'.length) (heq : ∀ j < h.length, h'[j]? = h[j]?) :
    Extends h h' i len where
  length := hle
  others j hj _ := heq j hj
  kept a ha hlen := by
    have hi : i < h.length := (List.getElem?_eq_some_iff.mp ha).1
    exact ⟨a.items, (heq i hi).trans ha, rfl, hlen⟩

theorem Extends.trans {h h' h'' : Arrays α} (h1 : Extends h h' i len) (h2 : Extends h' h'' i len) :
    Extends h h'' i len where
  length := le_trans h1.length h2.length
  others j hj hji := (h2.others j (lt_of_lt_of_le hj h1.length) hji).trans (h1.others j hj hji)
  kept a ha hle := by
    obtain ⟨items, hi, htake, hle'⟩ := h1.kept a ha hle
    obtain ⟨items', hi', htake', hle''⟩ := h2.kept _ hi hle'
    exact ⟨items', hi', htake'.trans htake, hle''⟩

theorem Extends.shorter {i len len' : Nat} (hext : Extends h h' i len) (hle : len' ≤ len)
    (hfound : ∀ a, h[i]? = some a → len ≤ a.items.length) :
    Extends h h' i len' where
  length := hext.length
  others := hext.others
  kept a ha _ := by
    obtain ⟨items, hi, htake, hle'⟩ := hext.kept a ha (hfound a ha)
    refine ⟨items, hi, ?_, le_trans hle hle'⟩
    have := congrArg (take len') htake
    rwa [take_take, take_take, min_eq_left hle] at this

theorem Slice.In.extends (hs : s.In h cap) (hext : Extends h h' s.array s.len) :
    s.In h' cap ∧ s.read h' = s.read h := by
  obtain ⟨items, hfound, hle⟩ := hs.found
  obtain ⟨items', hfound', htake, hle'⟩ := hext.kept _ hfound hle
  refine ⟨⟨⟨items', hfound', hle'⟩, hs.room⟩, ?_⟩
  rw [Slice.read, Slice.read, hfound, hfound']
  exact htake

theorem Slice.read_of_getElem? (heq : h'[s.array]? = h[s.array]?) : s.read h' = s.read h := by
  rw [Slice.read, Slice.read, heq]

theorem Slice.length_read (hs : s.In h cap) : (s.read h).length = s.len := by
  obtain ⟨items, hfound, hle⟩ := hs.found
  rw [Slice.read, hfound]
  exact length_take_of_le hle

/-- With room behind the slice, `append` writes there. -/
theorem Slice.append_shared (hs : s.In h cap) (hroom : s.len < cap) (x : α) :
    (s.append h x).2 = ⟨s.array, s.len + 1⟩ ∧ (s.append h x).2.In (s.append h x).1 cap ∧
      (s.append h x).2.read (s.append h x).1 = s.read h ++ [x] ∧
      (s.append h x).1.length = h.length ∧ Extends h (s.append h x).1 s.array s.len := by
  obtain ⟨items, hfound, hle⟩ := hs.found
  have hlt : s.array < h.length := (List.getElem?_eq_some_iff.mp hfound).1
  have htake : (items.take s.len).length = s.len := length_take_of_le hle
  have happ : s.append h x = (h.set s.array ⟨cap, items.take s.len ++ x :: items.drop (s.len + 1)⟩,
        ⟨s.array, s.len + 1⟩) := by
    rw [Slice.append, hfound]
    exact if_pos hroom
  rw [happ]
  have hset : (h.set s.array ⟨cap, items.take s.len ++ x :: items.drop (s.len + 1)⟩)[s.array]? =
      some ⟨cap, items.take s.len ++ x :: items.drop (s.len + 1)⟩ := by
    rw [getElem?_set_self hlt]
  refine ⟨rfl, ⟨⟨_, hset, ?_⟩, hroom⟩, ?_, length_set .., ?_⟩
  · simp only [length_append, length_cons, htake]
    omega
  · rw [Slice.read, Slice.read, hset, hfound]
    dsimp only
    rw [take_append, htake, take_of_length_le (by omega),
      show s.len + 1 - s.len = 1 from by omega, take_succ_cons, take_zero]
  · refine ⟨by simp, fun j _ hji => getElem?_set_ne (Ne.symm hji), fun a ha hle => ?_⟩
    cases ha.symm.trans hfound
    refine ⟨_, hset, ?_, ?_⟩
    · rw [take_append_of_le_length (by omega), take_take, min_self]
    · simp only [length_append, htake]
      omega

theorem Slice.append_full (hs : s.In h cap) (hfull : ¬ s.len < cap) (x : α) :
    (s.append h x).2 = ⟨h.length, s.len + 1⟩ ∧ (s.append h x).2.In (s.append h x).1 (growCap s.len) ∧
      (s.append h x).2.read (s.append h x).1 = s.read h ++ [x] ∧
      (s.append h x).1.length = h.length + 1 ∧
      ∀ j < h.length, (s.append h x).1[j]? = h[j]? := by
  obtain ⟨items, hfound, hle⟩ := hs.found
  have htake : (items.take s.len).length = s.len := length_take_of_le hle
  have happ : s.append h x =
      (h ++ [⟨growCap s.len, items.take s.len ++ [x]⟩], ⟨h.length, s.len + 1⟩) := by
    rw [Slice.append, hfound]
    exact if_neg hfull
  rw [happ]
  have hnew : (h ++ [(⟨growCap s.len, items.take s.len ++ [x]⟩ : BackingArray α)])[h.length]? =
      some ⟨growCap s.len, items.take s.len ++ [x]⟩ := by simp
  refine ⟨rfl, ⟨⟨_, hnew, ?_⟩, lt_growCap s.len⟩, ?_, by simp, fun j hj => getElem?_append_left hj⟩
  · simp only [length_append, htake, length_singleton]
    exact le_refl _
  · rw [Slice.read, Slice.read, hnew, hfound]
    dsimp only
    rw [take_of_length_le]
    simp only [length_append, htake, length_singleton]
    exact le_refl _

end FabricOev.Go
