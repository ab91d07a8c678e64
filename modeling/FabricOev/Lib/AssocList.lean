import Mathlib.Data.List.Forall2
import Mathlib.Data.List.Nodup
import Mathlib.Data.List.Perm.Subperm

/-!
# Association lists with distinct keys

Lists of entries as finite maps: `List.lookup` and membership say the same when no key
occurs twice.
-/

namespace FabricOev.Lib.AssocList

open List

theorem forall₂_keyed {κ α : Type} {P : κ × α → Prop} {ks : List κ} {l : List (κ × α)} :
    List.Forall₂ (fun k e => e.1 = k ∧ P e) ks l ↔ l.map (·.1) = ks ∧ ∀ e ∈ l, P e := by
  constructor
  · intro h
    induction h with
    | nil => simp
    | cons he _ ih => exact ⟨by rw [map_cons, he.1, ih.1], forall_mem_cons.mpr ⟨he.2, ih.2⟩⟩
  · rintro ⟨rfl, h⟩
    rw [forall₂_map_left_iff, forall₂_same]
    exact fun e he => ⟨rfl, h e he⟩

theorem exists_keyed {κ α : Type} {P : κ × α → Prop} {ks : List κ} (h : ∀ k ∈ ks, ∃ a, P (k, a)) :
    ∃ l : List (κ × α), l.map (·.1) = ks ∧ ∀ e ∈ l, P e := by
  induction ks with
  | nil => exact ⟨[], rfl, by simp⟩
  | cons k ks ih =>
    obtain ⟨a, ha⟩ := h k mem_cons_self
    obtain ⟨l, rfl, hl⟩ := ih fun k' hk' => h k' (mem_cons_of_mem _ hk')
    exact ⟨(k, a) :: l, rfl, forall_mem_cons.mpr ⟨ha, hl⟩⟩

variable {κ α β : Type} [BEq κ] [LawfulBEq κ] {l : List (κ × α)} {k : κ} {a : α}

theorem mem_of_lookup (h : l.lookup k = some a) : (k, a) ∈ l := by
  obtain ⟨front, back, rfl, -⟩ := lookup_eq_some_iff.mp h
  simp

theorem lookup_of_mem (hnd : (l.map (·.1)).Nodup) (h : (k, a) ∈ l) : l.lookup k = some a := by
  induction l with
  | nil => cases h
  | cons e l ih =>
    obtain ⟨hhead, htail⟩ := nodup_cons.mp hnd
    rw [lookup_cons]
    obtain heq | h := mem_cons.mp h
    · cases heq
      simp
    · have hne : (k == e.1) = false := by
        simp only [beq_eq_false_iff_ne, ne_eq]
        rintro rfl
        exact hhead (mem_map.mpr ⟨_, h, rfl⟩)
      rw [hne]
      exact ih htail h

theorem lookup_isSome : (l.lookup k).isSome ↔ k ∈ l.map (·.1) := by
  rw [lookup_isSome_iff, mem_map]
  constructor
  · rintro ⟨p, hp, hk⟩
    exact ⟨p, hp, (eq_of_beq hk).symm⟩
  · rintro ⟨p, hp, rfl⟩
    exact ⟨p, hp, BEq.rfl⟩

theorem lookup_eq_none : l.lookup k = none ↔ k ∉ l.map (·.1) := by
  rw [← lookup_isSome, Bool.not_eq_true, Option.isSome_eq_false_iff, Option.isNone_iff_eq_none]

theorem keys_perm {l' : List (κ × β)} (hnd : (l.map (·.1)).Nodup) (hlen : l.length = l'.length)
    (hsub : ∀ e ∈ l, (l'.lookup e.1).isSome) :
    (l.map (·.1)).Perm (l'.map (·.1)) := by
  have hsubset : l.map (·.1) ⊆ l'.map (·.1) := by
    intro k hk
    obtain ⟨e, he, rfl⟩ := mem_map.mp hk
    exact lookup_isSome.mp (hsub e he)
  have hle : (l'.map (·.1)).length ≤ (l.map (·.1)).length := by simp [hlen]
  exact (subperm_of_subset hnd hsubset).perm_of_length_le hle

/-- Two lists of one length are the same map when one is contained in the other. -/
theorem lookup_eq_lookup {l' : List (κ × α)} (hnd : (l.map (·.1)).Nodup)
    (hlen : l.length = l'.length) (hsub : ∀ e ∈ l, l'.lookup e.1 = some e.2) (k : κ) :
    l.lookup k = l'.lookup k := by
  have hkeys := keys_perm hnd hlen fun e he => by rw [hsub e he]; rfl
  cases h : l.lookup k with
  | some a => exact (hsub _ (mem_of_lookup h)).symm
  | none =>
    have hk := lookup_eq_none.mp h
    rw [hkeys.mem_iff] at hk
    exact (lookup_eq_none.mpr hk).symm

end FabricOev.Lib.AssocList
