import Mathlib

/-!
# Merging sorted association lists

A sorted list of entries is determined by its members. Merging a base list with a list of
edits, the smaller key first and the edit where both have the key, gives the sorted list
of the edited map.
-/

namespace FabricOev.Lib.SortedMerge

open Std List

variable {κ α β : Type} [Ord κ] [TransOrd κ] [LawfulEqOrd κ]

def Sorted (l : List (κ × α)) : Prop := l.Pairwise fun a b => compare a.1 b.1 = .lt

omit [TransOrd κ] in
theorem compare_ne_of_lt {a b : κ} (h : compare a b = .lt) : a ≠ b := by
  rintro rfl
  have hself : compare a a = .eq := ReflCmp.compare_self
  rw [hself] at h
  cases h

theorem Sorted.unique {l l' : List (κ × α)} (h : Sorted l) (h' : Sorted l')
    (hm : ∀ e, e ∈ l ↔ e ∈ l') : l = l' := by
  have hnodup : ∀ {l : List (κ × α)}, Sorted l → l.Nodup := fun h =>
    h.imp fun hlt he => compare_ne_of_lt hlt (congrArg Prod.fst he)
  have hperm : l.Perm l' := (perm_ext_iff_of_nodup (hnodup h) (hnodup h')).mpr hm
  refine hperm.eq_of_pairwise (fun a b _ _ hab hba => ?_) h h'
  have : compare a.1 a.1 = .lt := TransCmp.lt_trans hab hba
  exact absurd rfl (compare_ne_of_lt this)

def emit (f : β → Option α) (u : κ × β) (rest : List (κ × α)) : List (κ × α) :=
  match f u.2 with
  | some v => (u.1, v) :: rest
  | none => rest

omit [Ord κ] [TransOrd κ] [LawfulEqOrd κ] in
theorem mem_emit {f : β → Option α} {u : κ × β} {rest : List (κ × α)} {k : κ} {v : α} :
    (k, v) ∈ emit f u rest ↔ (k = u.1 ∧ f u.2 = some v) ∨ (k, v) ∈ rest := by
  unfold emit
  cases f u.2 with
  | none => simp
  | some w => simp [eq_comm]

/-- Merge with enough fuel for both lists. -/
def merge (f : β → Option α) : Nat → List (κ × α) → List (κ × β) → List (κ × α)
  | 0, _, _ => []
  | _ + 1, [], [] => []
  | n + 1, d :: ds, [] => d :: merge f n ds []
  | n + 1, [], u :: us => emit f u (merge f n [] us)
  | n + 1, d :: ds, u :: us =>
    match compare d.1 u.1 with
    | .lt => d :: merge f n ds (u :: us)
    | .eq => emit f u (merge f n ds us)
    | .gt => emit f u (merge f n (d :: ds) us)

section Merge

variable {f : β → Option α} {ds : List (κ × α)} {us : List (κ × β)} {n : Nat} {k : κ}

omit [Ord κ] [TransOrd κ] [LawfulEqOrd κ] in
theorem emit_append (u : κ × β) (rs rs' : List (κ × α)) :
    emit f u rs ++ rs' = emit f u (rs ++ rs') := by
  unfold emit
  split
  · rfl
  · rfl

omit [TransOrd κ] [LawfulEqOrd κ] in
theorem merge_nil (ds : List (κ × α)) : merge f (ds.length + 1) ds [] = ds := by
  induction ds with
  | nil => rfl
  | cons d ds ih => exact congrArg (d :: ·) ih

omit [TransOrd κ] [LawfulEqOrd κ] in
theorem merge_succ (h : ds.length + us.length < n) : merge f (n + 1) ds us = merge f n ds us := by
  fun_induction merge f n ds us with
  | case1 => omega
  | case2 => rfl
  | case3 n d ds ih | case4 n u us ih => rw [merge, ih (by simpa using h)]
  | case5 n d ds u us hcmp ih => rw [merge, hcmp, ih (by simp at h ⊢; omega)]
  | case6 n d ds u us hcmp ih => rw [merge, hcmp, ih (by simp at h; omega)]
  | case7 n d ds u us hcmp ih => rw [merge, hcmp, ih (by simp at h ⊢; omega)]

omit [TransOrd κ] [LawfulEqOrd κ] in
theorem length_merge_le (n : Nat) (ds : List (κ × α)) (us : List (κ × β)) :
    (merge f n ds us).length ≤ ds.length + us.length := by
  have hemit : ∀ (u : κ × β) (rs : List (κ × α)), (emit f u rs).length ≤ rs.length + 1 := by
    intro u rs
    unfold emit
    split
    · exact Nat.le_refl _
    · exact Nat.le_succ _
  fun_induction merge f n ds us with
  | case1 | case2 => exact Nat.zero_le _
  | case3 n d ds ih => simpa using ih
  | case4 n u us ih => exact (hemit u _).trans (Nat.succ_le_succ ih)
  | case5 n d ds u us _ ih =>
    simp only [length_cons] at ih ⊢
    omega
  | case6 n d ds u us _ ih =>
    have he := hemit u (merge f n ds us)
    simp only [length_cons]
    omega
  | case7 n d ds u us _ ih =>
    have he := hemit u (merge f n (d :: ds) us)
    simp only [length_cons] at ih ⊢
    omega

omit [LawfulEqOrd κ] in
theorem Sorted.lt_of_lt_head {x : κ × α} {l : List (κ × α)} (h : Sorted (x :: l)) {k : κ}
    (hk : compare k x.1 = .lt) : ∀ e ∈ x :: l, compare k e.1 = .lt := by
  intro e he
  rcases mem_cons.mp he with rfl | he
  · exact hk
  · exact TransCmp.lt_trans hk ((pairwise_cons.mp h).1 e he)

theorem Sorted.notMem_of_lt {x : κ × α} {l : List (κ × α)} (h : Sorted (x :: l))
    (hk : compare k x.1 = .lt) (v : α) : (k, v) ∉ x :: l :=
  fun hmem => compare_ne_of_lt (h.lt_of_lt_head hk _ hmem) rfl

omit [TransOrd κ] in
theorem Sorted.notMem_tail {x : κ × α} {l : List (κ × α)} (h : Sorted (x :: l)) (v : α) :
    (x.1, v) ∉ l :=
  fun hmem => compare_ne_of_lt ((pairwise_cons.mp h).1 _ hmem) rfl

theorem mem_merge (hd : Sorted ds) (hu : Sorted us) (hn : ds.length + us.length ≤ n) {v : α} :
    (k, v) ∈ merge f n ds us ↔
      (∃ u, (k, u) ∈ us ∧ f u = some v) ∨ ((k, v) ∈ ds ∧ ∀ u, (k, u) ∉ us) := by
  fun_induction merge f n ds us with
  | case1 ds us =>
    obtain ⟨rfl, rfl⟩ : ds = [] ∧ us = [] := by simpa using hn
    simp
  | case2 => simp
  | case3 n d ds ih =>
    rw [mem_cons, ih hd.of_cons hu (by simpa using hn)]
    simp
  | case4 n u us ih =>
    rw [mem_emit, ih hd hu.of_cons (by simpa using hn)]
    have := hu.notMem_tail
    grind
  | case5 n d ds u us hlt ih =>
    rw [mem_cons, ih hd.of_cons hu (by simp at hn ⊢; omega)]
    have hnot := hu.notMem_of_lt hlt
    constructor
    · rintro (rfl | h | ⟨h, h'⟩)
      · exact .inr ⟨mem_cons_self, hnot⟩
      · exact .inl h
      · exact .inr ⟨mem_cons_of_mem _ h, h'⟩
    · rintro (h | ⟨h, h'⟩)
      · exact .inr (.inl h)
      · rcases mem_cons.mp h with rfl | h
        · exact .inl rfl
        · exact .inr (.inr ⟨h, h'⟩)
  | case6 n d ds u us heq ih =>
    have hkey : d.1 = u.1 := LawfulEqOrd.eq_of_compare heq
    rw [mem_emit, ih hd.of_cons hu.of_cons (by simp at hn; omega)]
    have hnd := hd.notMem_tail
    have hnu := hu.notMem_tail
    grind
  | case7 n d ds u us hgt ih =>
    rw [mem_emit, ih hd hu.of_cons (by simp at hn ⊢; omega)]
    have hnd := hd.notMem_of_lt (OrientedCmp.lt_of_gt hgt)
    have hnu := hu.notMem_tail
    grind

omit [TransOrd κ] [LawfulEqOrd κ] in
theorem sorted_emit {u : κ × β} {rest : List (κ × α)} (h : Sorted rest)
    (hu : ∀ e ∈ rest, compare u.1 e.1 = .lt) : Sorted (emit f u rest) := by
  unfold emit
  split
  · exact pairwise_cons.mpr ⟨hu, h⟩
  · exact h

theorem lt_of_mem_merge (hd : Sorted ds) (hu : Sorted us) (hn : ds.length + us.length ≤ n)
    (hds : ∀ e ∈ ds, compare k e.1 = .lt) (hus : ∀ e ∈ us, compare k e.1 = .lt) :
    ∀ e ∈ merge f n ds us, compare k e.1 = .lt := by
  intro e he
  rcases (mem_merge hd hu hn).mp he with ⟨u, hmem, -⟩ | ⟨hmem, -⟩
  · exact hus _ hmem
  · exact hds _ hmem

theorem sorted_merge (hd : Sorted ds) (hu : Sorted us) (hn : ds.length + us.length ≤ n) :
    Sorted (merge f n ds us) := by
  fun_induction merge f n ds us with
  | case1 | case2 => exact List.Pairwise.nil
  | case3 n d ds ih =>
    obtain ⟨hdlt, hds⟩ := pairwise_cons.mp hd
    have hn : ds.length + ([] : List (κ × β)).length ≤ n := by simpa using hn
    exact pairwise_cons.mpr ⟨lt_of_mem_merge hds hu hn hdlt (by simp), ih hds hu hn⟩
  | case4 n u us ih =>
    obtain ⟨hult, hus⟩ := pairwise_cons.mp hu
    have hn : ([] : List (κ × α)).length + us.length ≤ n := by simpa using hn
    exact sorted_emit (ih hd hus hn) (lt_of_mem_merge hd hus hn (by simp) hult)
  | case5 n d ds u us hlt ih =>
    obtain ⟨hdlt, hds⟩ := pairwise_cons.mp hd
    have hn : ds.length + (u :: us).length ≤ n := by simp at hn ⊢; omega
    exact pairwise_cons.mpr ⟨lt_of_mem_merge hds hu hn hdlt (hu.lt_of_lt_head hlt), ih hds hu hn⟩
  | case6 n d ds u us heq ih =>
    obtain ⟨hdlt, hds⟩ := pairwise_cons.mp hd
    obtain ⟨hult, hus⟩ := pairwise_cons.mp hu
    rw [LawfulEqOrd.eq_of_compare heq] at hdlt
    have hn : ds.length + us.length ≤ n := by simp at hn; omega
    exact sorted_emit (ih hds hus hn) (lt_of_mem_merge hds hus hn hdlt hult)
  | case7 n d ds u us hgt ih =>
    obtain ⟨hult, hus⟩ := pairwise_cons.mp hu
    have hn : (d :: ds).length + us.length ≤ n := by simp at hn ⊢; omega
    exact sorted_emit (ih hd hus hn)
      (lt_of_mem_merge hd hus hn (hd.lt_of_lt_head (OrientedCmp.lt_of_gt hgt)) hult)

end Merge

end FabricOev.Lib.SortedMerge
