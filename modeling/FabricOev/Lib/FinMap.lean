import Mathlib

/-!
# Ordered finite maps

Facts about `Std.ExtTreeMap` that a store with batched updates needs: applying a batch
of puts and deletes, and reading a map as the sorted list of its entries.
-/

namespace FabricOev.Lib.FinMap

open Std List LawfulEqCmp

variable {κ α β : Type} {cmp : κ → κ → Ordering} [TransCmp cmp] [LawfulEqCmp cmp] {k : κ}
  {m : ExtTreeMap κ α cmp} {k' : κ} {b : ExtTreeMap κ β cmp} {es : List (κ × β)} {u : β}
  {κ' : Type} {γ : Type} {xs : List γ} {f : γ → List (κ × β)}

def edit (m : ExtTreeMap κ α cmp) (k : κ) : Option α → ExtTreeMap κ α cmp
  | some v => m.insert k v
  | none => m.erase k

/-- Apply every entry of a batch; `f` says whether an entry puts or deletes. -/
def overlay (f : β → Option α) (m : ExtTreeMap κ α cmp) (b : ExtTreeMap κ β cmp) :
    ExtTreeMap κ α cmp :=
  b.foldl (fun m k u => edit m k (f u)) m

theorem getElem?_edit_self (m : ExtTreeMap κ α cmp) (k : κ) (e : Option α) :
    (edit m k e)[k]? = e := by
  cases e with
  | none | some v => simp [edit]

theorem getElem?_edit_ne {e : Option α} (h : k ≠ k') : (edit m k e)[k']? = m[k']? := by
  have hc : ¬ cmp k k' = .eq := fun h' => h (eq_of_compare h')
  cases e with
  | none => simp [edit, ExtTreeMap.getElem?_erase, hc]
  | some v => simp [edit, ExtTreeMap.getElem?_insert, hc]

theorem getElem?_insert_eq [DecidableEq κ] (m : ExtTreeMap κ α cmp) (k k' : κ) (v : α) :
    (m.insert k v)[k']? = if k = k' then some v else m[k']? := by
  by_cases h : k = k'
  · rw [if_pos h, h, ExtTreeMap.getElem?_insert_self]
  · have hc : ¬ cmp k k' = .eq := fun h' => h (eq_of_compare h')
    rw [if_neg h, ExtTreeMap.getElem?_insert, if_neg hc]

theorem getElem?_foldl_edit (f : β → Option α) {l : List (κ × β)}
    (hd : l.Pairwise fun a b => a.1 ≠ b.1) (m : ExtTreeMap κ α cmp) (k : κ) :
    (l.foldl (fun m e => edit m e.1 (f e.2)) m)[k]? =
      (l.find? (fun e => cmp e.1 k = .eq)).elim m[k]? (fun e => f e.2) := by
  induction l generalizing m with
  | nil => rfl
  | cons e l ih =>
    obtain ⟨he, hl⟩ := pairwise_cons.mp hd
    rw [foldl_cons, ih hl, find?_cons]
    by_cases hk : cmp e.1 k = .eq
    · have hek : e.1 = k := eq_of_compare hk
      have hnone : l.find? (fun e => cmp e.1 k = .eq) = none := by
        rw [find?_eq_none]
        intro x hx hxk
        have hx' : x.1 = k := by simpa using hxk
        exact he x hx (hek.trans hx'.symm)
      rw [hnone]
      simp only [hk, decide_true]
      rw [← hek, getElem?_edit_self]
      rfl
    · simp only [hk, decide_false]
      cases l.find? (fun e => cmp e.1 k = .eq) with
      | some x => rfl
      | none => exact getElem?_edit_ne fun h => hk (by rw [h]; exact ReflCmp.compare_self)

variable (b)

theorem find?_toList (k : κ) : (b.toList.find? (fun e => cmp e.1 k = .eq)).map (·.2) = b[k]? := by
  cases hf : b.toList.find? (fun e => cmp e.1 k = .eq) with
  | none =>
    cases hb : b[k]? with
    | none => rfl
    | some v =>
      have hmem := ExtTreeMap.mem_toList_iff_getElem?_eq_some.mpr hb
      have := find?_eq_none.mp hf _ hmem
      simp at this
  | some e =>
    have hk : e.1 = k := by simpa using find?_some hf
    have hmem := ExtTreeMap.mem_toList_iff_getElem?_eq_some.mp (mem_of_find?_eq_some hf)
    rw [← hk]
    exact hmem.symm

theorem pairwise_ne_toList : b.toList.Pairwise fun a b => a.1 ≠ b.1 := by
  refine ExtTreeMap.distinct_keys_toList.imp fun h he => h ?_
  rw [he]
  exact ReflCmp.compare_self

variable {b}

theorem getElem?_overlay (f : β → Option α) (m : ExtTreeMap κ α cmp) (b : ExtTreeMap κ β cmp)
    (k : κ) :
    (overlay f m b)[k]? = (b[k]?).elim m[k]? f := by
  rw [overlay, ExtTreeMap.foldl_eq_foldl_toList,
    getElem?_foldl_edit f (pairwise_ne_toList b), ← find?_toList b]
  cases b.toList.find? (fun e => cmp e.1 k = .eq) <;> rfl

/-! ## Batches -/

theorem overlay_empty (f : β → Option α) (m : ExtTreeMap κ α cmp) :
    overlay f m (∅ : ExtTreeMap κ β cmp) = m := by
  apply ExtTreeMap.ext_getElem?
  intro k
  rw [getElem?_overlay]
  simp

theorem overlay_insert (f : β → Option α) (m : ExtTreeMap κ α cmp) (b : ExtTreeMap κ β cmp)
    (k : κ) (u : β) : overlay f m (b.insert k u) = edit (overlay f m b) k (f u) := by
  apply ExtTreeMap.ext_getElem?
  intro x
  by_cases h : k = x
  · subst h
    rw [getElem?_overlay, getElem?_edit_self]
    simp
  · have hc : ¬ cmp k x = .eq := fun h' => h (eq_of_compare h')
    rw [getElem?_overlay, getElem?_edit_ne h, getElem?_overlay, ExtTreeMap.getElem?_insert, if_neg hc]

def insertAll (b : ExtTreeMap κ β cmp) (es : List (κ × β)) : ExtTreeMap κ β cmp :=
  es.foldl (fun b e => b.insert e.1 e.2) b

theorem getElem?_insertAll_cases (h : (insertAll b es)[k]? = some u) :
    b[k]? = some u ∨ (k, u) ∈ es := by
  induction es generalizing b with
  | nil => exact .inl h
  | cons e es ih =>
    have hrest : (insertAll (b.insert e.1 e.2) es)[k]? = some u := h
    cases ih hrest with
    | inr hmem => exact .inr (mem_cons_of_mem _ hmem)
    | inl hb =>
      by_cases hk : e.1 = k
      · right
        rw [← hk, ExtTreeMap.getElem?_insert_self] at hb
        have he : e = (k, u) := Prod.ext hk (Option.some.inj hb)
        exact he ▸ mem_cons_self
      · left
        have hc : ¬ cmp e.1 k = .eq := fun h' => hk (eq_of_compare h')
        rwa [ExtTreeMap.getElem?_insert, if_neg hc] at hb

theorem getElem?_insertAll_of_notMem (h : ∀ e ∈ es, e.1 ≠ k) : (insertAll b es)[k]? = b[k]? := by
  induction es generalizing b with
  | nil => rfl
  | cons e es ih =>
    have hc : ¬ cmp e.1 k = .eq := fun h' => h e (by simp) (eq_of_compare h')
    show (insertAll (b.insert e.1 e.2) es)[k]? = _
    rw [ih fun x hx => h x (by simp [hx]), ExtTreeMap.getElem?_insert, if_neg hc]

theorem exists_getElem?_insertAll (h : (k, u) ∈ es) : ∃ u', (insertAll b es)[k]? = some u' := by
  induction es using reverseRecOn with
  | nil => cases h
  | append_singleton es e ih =>
    have hlast : insertAll b (es ++ [e]) = (insertAll b es).insert e.1 e.2 := by simp [insertAll]
    rw [hlast, ExtTreeMap.getElem?_insert]
    split
    · exact ⟨_, rfl⟩
    · rename_i hne
      obtain h | h := mem_append.mp h
      · exact ih h
      · have hk : e.1 = k := by rw [← mem_singleton.mp h]
        exact absurd (hk ▸ ReflCmp.compare_self) hne

theorem getElem?_insertAll_of_mem (hd : es.Pairwise fun a b => a.1 ≠ b.1) (h : (k, u) ∈ es) :
    (insertAll b es)[k]? = some u := by
  induction es generalizing b with
  | nil => cases h
  | cons e es ih =>
    obtain ⟨he, hes⟩ := pairwise_cons.mp hd
    show (insertAll (b.insert e.1 e.2) es)[k]? = _
    obtain rfl | h := mem_cons.mp h
    · rw [getElem?_insertAll_of_notMem fun x hx => (he x hx).symm, ExtTreeMap.getElem?_insert_self]
    · exact ih hes h

def lastOf [DecidableEq κ] (es : List (κ × β)) (k : κ) : Option β :=
  es.foldl (fun acc e => if e.1 = k then some e.2 else acc) none

theorem lastOf_concat [DecidableEq κ] (es : List (κ × β)) (e : κ × β) (k : κ) :
    lastOf (es ++ [e]) k = if e.1 = k then some e.2 else lastOf es k := by
  simp [lastOf]

theorem lastOf_append [DecidableEq κ] (es es' : List (κ × β)) (k : κ) :
    lastOf (es ++ es') k = (lastOf es' k).or (lastOf es k) := by
  induction es' using reverseRecOn with
  | nil => simp [lastOf]
  | append_singleton es' e ih =>
    rw [← append_assoc, lastOf_concat, lastOf_concat, ih]
    split <;> rfl

theorem lastOf_eq_none_iff [DecidableEq κ] : lastOf es k = none ↔ ∀ e ∈ es, e.1 ≠ k := by
  induction es using reverseRecOn with
  | nil => simp [lastOf]
  | append_singleton es e ih =>
    rw [lastOf_concat, forall_mem_append, forall_mem_singleton]
    by_cases hk : e.1 = k
    · rw [if_pos hk]
      exact ⟨fun h => (nomatch h), fun h => absurd hk h.2⟩
    · rw [if_neg hk, ih]
      exact ⟨fun h => ⟨h, hk⟩, And.left⟩

theorem mem_of_lastOf_eq_some [DecidableEq κ] (h : lastOf es k = some u) : (k, u) ∈ es := by
  induction es using reverseRecOn with
  | nil => cases h
  | append_singleton es e ih =>
    rw [lastOf_concat] at h
    split at h
    · rename_i hk
      cases h
      simp [← hk]
    · exact mem_append_left _ (ih h)

theorem lastOf_map {β' : Type} [DecidableEq κ] [DecidableEq κ'] {f : κ → κ'} {g : β → β'}
    (h : ∀ e ∈ es, f e.1 = f k → e.1 = k) :
    lastOf (es.map fun e => (f e.1, g e.2)) (f k) = (lastOf es k).map g := by
  induction es using reverseRecOn with
  | nil => rfl
  | append_singleton es e ih =>
    have hes := ih fun x hx => h x (mem_append_left _ hx)
    have he : f e.1 = f k ↔ e.1 = k := ⟨h e (by simp), fun hk => by rw [hk]⟩
    rw [map_append, map_singleton, lastOf_concat, lastOf_concat]
    by_cases hk : e.1 = k
    · rw [if_pos hk, if_pos (he.mpr hk)]
      rfl
    · rw [if_neg hk, if_neg (fun h' => hk (he.mp h')), hes]

theorem lastOf_map_key [DecidableEq κ] [DecidableEq κ'] {c : κ → κ'} (hc : Function.Injective c)
    (xs : List γ) (a : γ → κ) (g : γ → β) (k : κ) :
    lastOf (xs.map fun x => (c (a x), g x)) (c k) = lastOf (xs.map fun x => (a x, g x)) k := by
  have hmap := lastOf_map (f := c) (g := (id : β → β)) (k := k)
    fun e (_ : e ∈ xs.map fun x => (a x, g x)) he => hc he
  rw [map_map, Option.map_id] at hmap
  exact hmap

theorem lastOf_map_value [DecidableEq κ] (xs : List γ) (a : γ → κ) (g : γ → β) (k : κ) :
    lastOf (xs.map fun x => (a x, g x)) k = (lastOf (xs.map fun x => (a x, x)) k).map g := by
  have hmap := lastOf_map (f := (id : κ → κ)) (g := g) (k := k)
    fun e (_ : e ∈ xs.map fun x => (a x, x)) he => he
  rw [map_map] at hmap
  exact hmap

/-- Entries that come in groups, with groups of other entries in which the keys are found at
the same places. -/
theorem lastOf_flatMap_congr [DecidableEq κ] [DecidableEq κ'] {g : γ → List (κ' × β)} {k' : κ'}
    (h : ∀ x ∈ xs, lastOf (f x) k = lastOf (g x) k') :
    lastOf (xs.flatMap f) k = lastOf (xs.flatMap g) k' := by
  induction xs with
  | nil => rfl
  | cons x xs ih =>
    rw [flatMap_cons, flatMap_cons, lastOf_append, lastOf_append,
      h x mem_cons_self, ih fun y hy => h y (mem_cons_of_mem _ hy)]

theorem lastOf_flatMap_eq_none [DecidableEq κ] (h : ∀ x ∈ xs, lastOf (f x) k = none) :
    lastOf (xs.flatMap f) k = none := by
  refine lastOf_eq_none_iff.mpr fun e he => ?_
  obtain ⟨x, hx, he⟩ := mem_flatMap.mp he
  exact lastOf_eq_none_iff.mp (h x hx) e he

variable (b es) in
theorem getElem?_insertAll [DecidableEq κ] (k : κ) :
    (insertAll b es)[k]? = (lastOf es k).or b[k]? := by
  induction es using reverseRecOn with
  | nil => rfl
  | append_singleton es e ih =>
    have hlast : insertAll b (es ++ [e]) = (insertAll b es).insert e.1 e.2 := by simp [insertAll]
    rw [hlast, getElem?_insert_eq, ih, lastOf_concat]
    split <;> rfl

theorem overlay_insertAll (f : β → Option α) (m : ExtTreeMap κ α cmp) (b : ExtTreeMap κ β cmp)
    (es : List (κ × β)) :
    overlay f m (insertAll b es) = es.foldl (fun m e => edit m e.1 (f e.2)) (overlay f m b) := by
  induction es generalizing b with
  | nil => rfl
  | cons e es ih =>
    rw [foldl_cons, ← overlay_insert]
    exact ih (b.insert e.1 e.2)

/-- Entries added to a batch can as well be applied after it, as a batch of their own. -/
theorem overlay_overlay_insertAll (f : β → Option α) (m : ExtTreeMap κ α cmp)
    (b : ExtTreeMap κ β cmp) (es : List (κ × β)) :
    overlay f (overlay f m b) (insertAll ∅ es) = overlay f m (insertAll b es) := by
  rw [overlay_insertAll, overlay_insertAll, overlay_empty]

theorem insert_comm {v v' : α} (h : k ≠ k') :
    (m.insert k v).insert k' v' = (m.insert k' v').insert k v := by
  apply ExtTreeMap.ext_getElem?
  intro x
  simp only [ExtTreeMap.getElem?_insert, LawfulEqCmp.compare_eq_iff_eq]
  by_cases h1 : k' = x
  · subst h1
    simp [h]
  · simp [h1]

section Sums

variable {G : Type} [AddCommGroup G]

def total (f : κ → α → G) (m : ExtTreeMap κ α cmp) : G := (m.toList.map fun e => f e.1 e.2).sum

theorem nodup_toList (m : ExtTreeMap κ α cmp) : m.toList.Nodup :=
  (pairwise_ne_toList m).imp fun h he => h (congrArg Prod.fst he)

def others [DecidableEq κ] (m : ExtTreeMap κ α cmp) (k : κ) : List (κ × α) :=
  m.toList.filter fun e => e.1 ≠ k

variable {m : ExtTreeMap κ α cmp}

theorem mem_others [DecidableEq κ] {e : κ × α} : e ∈ others m k ↔ m[e.1]? = some e.2 ∧ e.1 ≠ k := by
  have hmem : e ∈ m.toList ↔ m[e.1]? = some e.2 := ExtTreeMap.mem_toList_iff_getElem?_eq_some
  rw [others, mem_filter, hmem, decide_eq_true_iff]

theorem nodup_others [DecidableEq κ] (m : ExtTreeMap κ α cmp) (k : κ) : (others m k).Nodup :=
  (nodup_toList m).filter _

theorem toList_perm_cons_others [DecidableEq κ] {v : α} (h : m[k]? = some v) :
    m.toList.Perm ((k, v) :: others m k) := by
  have hnd : ((k, v) :: others m k).Nodup :=
    nodup_cons.mpr ⟨fun hmem => (mem_others.mp hmem).2 rfl, nodup_others m k⟩
  refine (perm_ext_iff_of_nodup (nodup_toList m) hnd).mpr fun e => ?_
  have hmem : e ∈ m.toList ↔ m[e.1]? = some e.2 := ExtTreeMap.mem_toList_iff_getElem?_eq_some
  rw [hmem, mem_cons, mem_others]
  by_cases hk : e.1 = k
  · obtain ⟨x, w⟩ := e
    subst hk
    simp [h, eq_comm]
  · have hne : e ≠ (k, v) := fun he => hk (congrArg Prod.fst he)
    simp [hne, hk]

theorem others_insert_perm [DecidableEq κ] (m : ExtTreeMap κ α cmp) (k : κ) (v : α) :
    (others (m.insert k v) k).Perm (others m k) := by
  refine (perm_ext_iff_of_nodup (nodup_others _ k) (nodup_others m k)).mpr fun e => ?_
  rw [mem_others, mem_others]
  refine and_congr_left fun hk => ?_
  have hc : ¬ cmp k e.1 = .eq := fun h => hk (eq_of_compare h).symm
  rw [ExtTreeMap.getElem?_insert, if_neg hc]

theorem total_eq_others [DecidableEq κ] (f : κ → α → G) (m : ExtTreeMap κ α cmp) (k : κ) :
    total f m = m[k]?.elim 0 (f k) + ((others m k).map fun e => f e.1 e.2).sum := by
  cases h : m[k]? with
  | none =>
    have hall : others m k = m.toList := by
      refine filter_eq_self.mpr fun e he => ?_
      have he' : m[e.1]? = some e.2 := ExtTreeMap.mem_toList_iff_getElem?_eq_some.mp he
      have hne : e.1 ≠ k := fun hk => by simp [hk, h] at he'
      exact decide_eq_true hne
    rw [hall]
    exact (zero_add _).symm
  | some v =>
    rw [total, ((toList_perm_cons_others h).map _).sum_eq]
    rfl

/-- Putting a value under a key exchanges the summand of that key. -/
theorem total_insert [DecidableEq κ] (f : κ → α → G) (m : ExtTreeMap κ α cmp) (k : κ) (v : α) :
    total f (m.insert k v) = total f m - m[k]?.elim 0 (f k) + f k v := by
  have hself : (m.insert k v)[k]? = some v := by simp
  rw [total_eq_others f m k, total_eq_others f (m.insert k v) k, hself,
    ((others_insert_perm m k v).map _).sum_eq, Option.elim_some]
  abel

end Sums

end FabricOev.Lib.FinMap
