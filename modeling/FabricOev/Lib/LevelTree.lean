import Mathlib

/-!
# Trees built level by level

A tree of bounded degree that is built from its leaves as they come: it is kept as the list
of its levels, the lowest first, and a level that overflows is combined into one element of
the next. The levels count the leaves: their sizes are the digits of the number of leaves to
the base of the degree plus one.
-/

namespace FabricOev.Lib.LevelTree

open List LevelTree Nat

variable {α β γ : Type} {combine : List α → α} {deg : Nat} {t : List (List α)} {xs : List α}
  {l : List α} {x : α}

def push (combine : List α → α) (deg : Nat) (x : α) : List (List α) → List (List α)
  | [] => [[x]]
  | l :: ls =>
    if (l ++ [x]).length ≤ deg then (l ++ [x]) :: ls
    else [] :: push combine deg (combine (l ++ [x])) ls

/-- Pass what the lower levels hold on to the top; `up` comes from the level below. -/
def raise (combine : List α → α) (up : List α) : List (List α) → List (List α)
  | [] => []
  | [l] => [l ++ up]
  | l :: ls =>
    match l ++ up with
    | [] => [] :: raise combine [] ls
    | [x] => [] :: raise combine [x] ls
    | xs => [] :: raise combine [combine xs] ls

def top (t : List (List α)) : List α := t.getLast?.getD []

/-- Complete the tree; a top that is too large becomes one element of a new level. -/
def complete (combine : List α → α) (deg : Nat) (t : List (List α)) : List (List α) :=
  let t := raise combine [] t
  if deg < (top t).length then t.dropLast ++ [[], [combine (top t)]] else t

def pushAll (combine : List α → α) (deg : Nat) (xs : List α) : List (List α) :=
  xs.foldl (fun t x => push combine deg x t) [[]]

theorem pushAll_concat (xs : List α) (x : α) :
    pushAll combine deg (xs ++ [x]) = push combine deg x (pushAll combine deg xs) := by
  rw [pushAll, foldl_append]
  rfl

theorem top_cons (h : t ≠ []) : top (l :: t) = top t := by
  unfold top
  obtain ⟨y, ys, rfl⟩ := exists_cons_of_ne_nil h
  rw [getLast?_cons_cons]

theorem push_ne_nil (x : α) (t : List (List α)) : push combine deg x t ≠ [] := by
  cases t with
  | nil => simp [push]
  | cons l ls =>
    rw [push]
    split
    · simp
    · simp

theorem push_ne_empty (x : α) (t : List (List α)) : push combine deg x t ≠ [[]] := by
  cases t with
  | nil => simp [push]
  | cons l ls =>
    rw [push]
    split
    · simp
    · simp [push_ne_nil]

/-- A leaf goes below the top, is appended to the top, or makes a new one. -/
theorem push_top (combine : List α → α) (deg : Nat) (x : α) (ht : t ≠ []) :
    let t' := push combine deg x t
    (t'.length = t.length ∧ (top t' = top t ∨ ∃ y, top t' = top t ++ [y])) ∨
      (t'.length = t.length + 1 ∧ ∃ y, top t' = [y]) := by
  induction t generalizing x with
  | nil => exact absurd rfl ht
  | cons l ls ih =>
    intro t'
    by_cases hfit : (l ++ [x]).length ≤ deg
    · have ht' : t' = (l ++ [x]) :: ls := by simp only [t', push, if_pos hfit]
      left
      refine ⟨by rw [ht']; rfl, ?_⟩
      cases ls with
      | nil => exact .inr ⟨x, by rw [ht']; rfl⟩
      | cons l' ls =>
        left
        rw [ht']
        exact (top_cons (by simp)).trans (top_cons (by simp)).symm
    · have ht' : t' = [] :: push combine deg (combine (l ++ [x])) ls := by
        simp only [t', push, if_neg hfit]
      cases ls with
      | nil => exact .inr ⟨by rw [ht']; rfl, _, by rw [ht']; rfl⟩
      | cons l' ls =>
        obtain ⟨hlen, htop⟩ | ⟨hlen, y, htop⟩ := ih (combine (l ++ [x])) (by simp)
        · left
          refine ⟨by rw [ht', length_cons, hlen]; rfl, ?_⟩
          rw [ht', top_cons (push_ne_nil _ _), top_cons (by simp)]
          exact htop
        · right
          refine ⟨by rw [ht', length_cons, hlen]; rfl, y, ?_⟩
          rw [ht', top_cons (push_ne_nil _ _)]
          exact htop

theorem pushAll_ne_nil (xs : List α) : pushAll combine deg xs ≠ [] := by
  induction xs using reverseRecOn with
  | nil => simp [pushAll]
  | append_singleton xs x _ =>
    rw [pushAll_concat]
    exact push_ne_nil x _

theorem raise_cons (combine : List α → α) (up l : List α) (h : t ≠ []) :
    ∃ up', raise combine up (l :: t) = [] :: raise combine up' t ∧
      ((l ++ up = [] ∧ up' = []) ∨ (∃ x, l ++ up = [x] ∧ up' = [x]) ∨
        up' = [combine (l ++ up)]) := by
  obtain ⟨y, ys, rfl⟩ := exists_cons_of_ne_nil h
  cases hup : l ++ up with
  | nil => exact ⟨[], by simp only [raise, hup], .inl ⟨rfl, rfl⟩⟩
  | cons x xs =>
    cases xs with
    | nil => exact ⟨[x], by simp only [raise, hup], .inr (.inl ⟨x, rfl, rfl⟩)⟩
    | cons z zs => exact ⟨[combine (x :: z :: zs)], by simp only [raise, hup], .inr (.inr rfl)⟩

theorem raise_ne_nil (up : List α) (h : t ≠ []) : raise combine up t ≠ [] := by
  obtain ⟨l, ls, rfl⟩ := exists_cons_of_ne_nil h
  cases ls with
  | nil => simp [raise]
  | cons l' ls =>
    obtain ⟨up', hraise, -⟩ := raise_cons combine up l (cons_ne_nil l' ls)
    rw [hraise]
    simp

theorem raise_top (combine : List α → α) (up : List α) (ht : t ≠ []) :
    (raise combine up t).length = t.length ∧ top t <+: top (raise combine up t) := by
  induction t generalizing up with
  | nil => exact absurd rfl ht
  | cons l ls ih =>
    cases ls with
    | nil => exact ⟨rfl, prefix_append _ _⟩
    | cons l' ls =>
      obtain ⟨up', hraise, -⟩ := raise_cons combine up l (cons_ne_nil l' ls)
      obtain ⟨hlen, htop⟩ := ih up' (by simp)
      rw [hraise, top_cons (raise_ne_nil up' (by simp)), top_cons (by simp), length_cons, hlen]
      exact ⟨rfl, htop⟩

theorem complete_ne_nil (h : t ≠ []) : complete combine deg t ≠ [] := by
  unfold complete
  dsimp only
  split
  · simp
  · exact raise_ne_nil [] h

section Elements

variable {P : α → Prop} {t : List (List α)}

theorem mem_flatten_of_mem_top (h : x ∈ top t) : x ∈ t.flatten := by
  unfold top at h
  cases hl : t.getLast? with
  | none =>
    rw [hl] at h
    cases h
  | some l =>
    rw [hl] at h
    exact mem_flatten.mpr ⟨l, mem_of_getLast? hl, h⟩

theorem top_mem (h : t ≠ []) : top t ∈ t := by
  unfold top
  rw [getLast?_eq_some_getLast h]
  exact getLast_mem h

variable (combine deg t) in
theorem top_complete_cases :
    top (complete combine deg t) = top (raise combine [] t) ∨
      top (complete combine deg t) = [combine (top (raise combine [] t))] := by
  unfold complete
  dsimp only
  split
  · right
    simp [top]
  · exact .inl rfl

variable (hc : ∀ xs, (∀ x ∈ xs, P x) → P (combine xs))
include hc

/-- A property of the leaves that combining keeps holds of every element. -/
theorem forall_push (hx : P x) (ht : ∀ y ∈ t.flatten, P y) :
    ∀ y ∈ (push combine deg x t).flatten, P y := by
  induction t generalizing x with
  | nil => simpa [push] using hx
  | cons l ls ih =>
    rw [flatten_cons, forall_mem_append] at ht
    have hl : ∀ y ∈ l ++ [x], P y := forall_mem_append.mpr ⟨ht.1, by simpa using hx⟩
    rw [push]
    split
    · rw [flatten_cons, forall_mem_append]
      exact ⟨hl, ht.2⟩
    · exact ih (hc _ hl) ht.2

theorem forall_pushAll (hxs : ∀ x ∈ xs, P x) : ∀ y ∈ (pushAll combine deg xs).flatten, P y := by
  induction xs using reverseRecOn with
  | nil => simp [pushAll]
  | append_singleton xs x ih =>
    rw [forall_mem_append] at hxs
    rw [pushAll_concat]
    exact forall_push hc (hxs.2 x (by simp)) (ih hxs.1)

theorem forall_raise {up : List α} (hup : ∀ x ∈ up, P x) (ht : ∀ y ∈ t.flatten, P y) :
    ∀ y ∈ (raise combine up t).flatten, P y := by
  induction t generalizing up with
  | nil => simp [raise]
  | cons l ls ih =>
    rw [flatten_cons, forall_mem_append] at ht
    have hl : ∀ y ∈ l ++ up, P y := forall_mem_append.mpr ⟨ht.1, hup⟩
    cases ls with
    | nil => simpa [raise] using hl
    | cons l' ls =>
      obtain ⟨up', hraise, hcases⟩ := raise_cons combine up l (cons_ne_nil l' ls)
      rw [hraise, flatten_cons, nil_append]
      apply ih _ ht.2
      obtain ⟨-, rfl⟩ | ⟨x, hx, rfl⟩ | rfl := hcases
      · simp
      · rw [← hx]
        exact hl
      · simpa using hc _ hl

theorem forall_top_complete (ht : ∀ y ∈ t.flatten, P y) : ∀ y ∈ top (complete combine deg t), P y := by
  have hraise : ∀ y ∈ top (raise combine [] t), P y := fun y hy =>
    forall_raise hc (by simp) ht y (mem_flatten_of_mem_top hy)
  obtain h | h := top_complete_cases combine deg t
  · rw [h]
    exact hraise
  · rw [h]
    simpa using hc _ hraise

end Elements

section Contents

variable {c : α → List γ}

/-- What the elements hold, in the order of the leaves: the higher levels are older. -/
def contents (c : α → List γ) (t : List (List α)) : List γ := t.reverse.flatten.flatMap c

theorem contents_cons (l : List α) (t : List (List α)) :
    contents c (l :: t) = contents c t ++ l.flatMap c := by
  simp [contents]

variable (hc : ∀ xs, c (combine xs) = xs.flatMap c)
include hc

theorem contents_push (x : α) (t : List (List α)) :
    contents c (push combine deg x t) = contents c t ++ c x := by
  induction t generalizing x with
  | nil => simp [push, contents]
  | cons l ls ih =>
    rw [push]
    split
    · rw [contents_cons, contents_cons, flatMap_append]
      simp
    · rw [contents_cons, contents_cons, ih, hc, flatMap_append]
      simp

theorem contents_pushAll (xs : List α) : contents c (pushAll combine deg xs) = xs.flatMap c := by
  induction xs using reverseRecOn with
  | nil => simp [pushAll, contents]
  | append_singleton xs x ih =>
    rw [pushAll_concat, contents_push hc, ih, flatMap_append]
    simp

theorem flatMap_top_raise (up : List α) (ht : t ≠ []) :
    (top (raise combine up t)).flatMap c = contents c t ++ up.flatMap c := by
  induction t generalizing up with
  | nil => exact absurd rfl ht
  | cons l ls ih =>
    cases ls with
    | nil => simp [raise, top, contents]
    | cons l' ls =>
      obtain ⟨up', hraise, hcases⟩ := raise_cons combine up l (cons_ne_nil l' ls)
      have hup : up'.flatMap c = l.flatMap c ++ up.flatMap c := by
        rw [← flatMap_append]
        obtain ⟨h, rfl⟩ | ⟨x, h, rfl⟩ | rfl := hcases
        · rw [h]
        · rw [h]
        · simp [hc]
      rw [hraise, top_cons (raise_ne_nil up' (by simp)), ih up' (by simp), hup,
        contents_cons l (l' :: ls), append_assoc]

theorem flatMap_top_complete (ht : t ≠ []) :
    (top (complete combine deg t)).flatMap c = contents c t := by
  have hraise := flatMap_top_raise hc [] ht
  rw [flatMap_nil, append_nil] at hraise
  obtain h | h := top_complete_cases combine deg t
  · rw [h, hraise]
  · rw [h]
    simp [hc, hraise]

end Contents

section Covered

variable {f : α → List γ}

/-- What the elements of the first tree hold is held by elements of the second. -/
def Covered (f : α → List γ) (t t' : List α) : Prop := ∀ y ∈ t, ∃ z ∈ t', ∀ e ∈ f y, e ∈ f z

theorem Covered.of_subset {t t' : List α} (h : ∀ y ∈ t, y ∈ t') : Covered f t t' :=
  fun y hy => ⟨y, h y hy, fun _ he => he⟩

theorem Covered.trans {t t' t'' : List α} (h : Covered f t t') (h' : Covered f t' t'') :
    Covered f t t'' := by
  intro y hy
  obtain ⟨z, hz, hyz⟩ := h y hy
  obtain ⟨w, hw, hzw⟩ := h' z hz
  exact ⟨w, hw, fun e he => hzw e (hyz e he)⟩

variable (hf : ∀ xs, ∀ x ∈ xs, ∀ e ∈ f x, e ∈ f (combine xs))
include hf

theorem covered_push (x : α) (t : List (List α)) :
    Covered f (t.flatten ++ [x]) (push combine deg x t).flatten := by
  induction t generalizing x with
  | nil => exact Covered.of_subset (by simp [push])
  | cons l ls ih =>
    rw [push]
    split
    · apply Covered.of_subset
      intro y hy
      simp only [flatten_cons, append_assoc, mem_append, mem_singleton] at hy ⊢
      obtain hy | hy | hy := hy
      · exact .inl hy
      · exact .inr (.inr hy)
      · exact .inr (.inl hy)
    · intro y hy
      have hrest := ih (combine (l ++ [x]))
      simp only [flatten_cons, append_assoc, mem_append, mem_singleton] at hy
      by_cases hin : y ∈ l ++ [x]
      · obtain ⟨z, hz, hcz⟩ := hrest (combine (l ++ [x])) (by simp)
        exact ⟨z, by simpa using hz, fun e he => hcz e (hf _ y hin e he)⟩
      · obtain hy | hy | hy := hy
        · exact absurd (mem_append_left _ hy) hin
        · obtain ⟨z, hz, hyz⟩ := hrest y (mem_append_left _ hy)
          exact ⟨z, by simpa using hz, hyz⟩
        · exact absurd (mem_append_right _ (mem_singleton.mpr hy)) hin

theorem covered_pushAll {xs ys : List α} (h : xs <+: ys) :
    Covered f (pushAll combine deg xs).flatten (pushAll combine deg ys).flatten := by
  obtain ⟨more, rfl⟩ := h
  induction more using reverseRecOn with
  | nil => exact Covered.of_subset (by simp)
  | append_singleton more x ih =>
    rw [← append_assoc, pushAll_concat]
    refine ih.trans ?_
    intro y hy
    exact covered_push hf x _ y (mem_append_left _ hy)

theorem covered_raise (up : List α) (ht : t ≠ []) :
    Covered f (t.flatten ++ up) (top (raise combine up t)) := by
  induction t generalizing up with
  | nil => exact absurd rfl ht
  | cons l ls ih =>
    cases ls with
    | nil => exact Covered.of_subset (by simp [raise, top])
    | cons l' ls =>
      obtain ⟨up', hraise, hcases⟩ := raise_cons combine up l (cons_ne_nil l' ls)
      have hrest := ih up' (by simp)
      rw [hraise, top_cons (raise_ne_nil up' (by simp))]
      -- what is raised covers the level
      have hup : Covered f (l ++ up) up' := by
        obtain ⟨h, rfl⟩ | ⟨x, h, rfl⟩ | rfl := hcases
        · rw [h]
          exact Covered.of_subset (by simp)
        · rw [h]
          exact Covered.of_subset (by simp)
        · intro y hy
          exact ⟨_, mem_singleton.mpr rfl, fun e he => hf _ y hy e he⟩
      refine Covered.trans ?_ hrest
      intro y hy
      rw [flatten_cons, append_assoc] at hy
      have hy' : y ∈ (l' :: ls).flatten ∨ y ∈ l ++ up := by
        simp only [mem_append] at hy ⊢
        obtain hy | hy | hy := hy
        · exact .inr (.inl hy)
        · exact .inl hy
        · exact .inr (.inr hy)
      obtain hy | hy := hy'
      · exact ⟨y, mem_append_left _ hy, fun _ he => he⟩
      · obtain ⟨z, hz, hyz⟩ := hup y hy
        exact ⟨z, mem_append_right _ hz, hyz⟩

theorem covered_complete (ht : t ≠ []) : Covered f t.flatten (top (complete combine deg t)) := by
  have hraise := covered_raise hf [] ht
  rw [append_nil] at hraise
  obtain h | h := top_complete_cases combine deg t
  · rw [h]
    exact hraise
  · rw [h]
    refine hraise.trans fun y hy => ⟨_, mem_singleton.mpr rfl, fun e he => hf _ y hy e he⟩

end Covered

section Map

variable {combine' : List β → β} {g : α → β}

theorem top_map (t : List (List α)) : top (t.map (map g)) = (top t).map g := by
  unfold top
  rw [getLast?_map]
  cases t.getLast? <;> rfl

variable (hg : ∀ xs, g (combine xs) = combine' (xs.map g))
include hg

theorem push_map (x : α) (t : List (List α)) :
    push combine' deg (g x) (t.map (map g)) = (push combine deg x t).map (map g) := by
  induction t generalizing x with
  | nil => rfl
  | cons l ls ih =>
    have hl : l.map g ++ [g x] = (l ++ [x]).map g := by simp
    rw [map_cons, push, push, hl, length_map, ← hg, ih]
    split
    · rfl
    · rfl

theorem raise_map (up : List α) (t : List (List α)) :
    raise combine' (up.map g) (t.map (map g)) = (raise combine up t).map (map g) := by
  induction t generalizing up with
  | nil => rfl
  | cons l ls ih =>
    cases ls with
    | nil => simp [raise]
    | cons l' ls =>
      have hup : l.map g ++ up.map g = (l ++ up).map g := by simp
      cases hcase : l ++ up with
      | nil =>
        have hrest := ih []
        simp only [map_cons, map_nil] at hup hrest
        simp only [map_cons, raise, hup, hcase, hrest, map_nil]
      | cons x xs =>
        cases xs with
        | nil =>
          have hrest := ih [x]
          simp only [map_cons, map_nil] at hup hrest
          simp only [map_cons, raise, hup, hcase, hrest, map_nil]
        | cons z zs =>
          have hrest := ih [combine (x :: z :: zs)]
          simp only [map_cons, map_nil, hg] at hup hrest
          simp only [map_cons, raise, hup, hcase, hrest, map_nil]

theorem complete_map (t : List (List α)) :
    complete combine' deg (t.map (map g)) = (complete combine deg t).map (map g) := by
  have hraise := raise_map hg [] t
  rw [map_nil] at hraise
  unfold complete
  dsimp only
  rw [hraise, top_map, length_map]
  split
  · simp [hg, map_dropLast]
  · rfl

end Map

section Sizes

def Bounded (deg : Nat) (t : List (List α)) : Prop := ∀ l ∈ t, l.length ≤ deg

variable {t : List (List α)}

theorem Bounded.push (hdeg : 1 ≤ deg) (h : Bounded deg t) (x : α) :
    Bounded deg (push combine deg x t) := by
  induction t generalizing x with
  | nil =>
    intro l hl
    obtain rfl := mem_singleton.mp hl
    exact hdeg
  | cons l ls ih =>
    have hls : Bounded deg ls := fun y hy => h y (mem_cons_of_mem _ hy)
    rw [LevelTree.push]
    split
    · rename_i hfit
      intro y hy
      obtain rfl | hy := mem_cons.mp hy
      · exact hfit
      · exact hls y hy
    · intro y hy
      obtain rfl | hy := mem_cons.mp hy
      · simp
      · exact ih hls _ y hy

theorem bounded_pushAll (combine : List α → α) (hdeg : 1 ≤ deg) (xs : List α) :
    Bounded deg (pushAll combine deg xs) := by
  induction xs using reverseRecOn with
  | nil =>
    intro l hl
    obtain rfl := mem_singleton.mp hl
    simp
  | append_singleton xs x ih =>
    rw [pushAll_concat]
    exact ih.push hdeg x

/-- The number of leaves, read off the sizes of the levels. -/
def count (deg : Nat) (t : List (List α)) : Nat := ofDigits (deg + 1) (t.map length)

theorem count_push (h : Bounded deg t) (x : α) :
    count deg (push combine deg x t) = count deg t + 1 := by
  induction t generalizing x with
  | nil => simp [push, count]
  | cons l ls ih =>
    have hls : Bounded deg ls := fun y hy => h y (mem_cons_of_mem _ hy)
    have hl := h l mem_cons_self
    rw [push]
    split
    · simp only [count, map_cons, ofDigits_cons, length_append, length_singleton]
      omega
    · rename_i hfull
      rw [length_append, length_singleton] at hfull
      have hrest := ih hls (combine (l ++ [x]))
      unfold count at hrest ⊢
      rw [map_cons, map_cons, ofDigits_cons, ofDigits_cons, hrest, length_nil]
      have : l.length = deg := by omega
      rw [this]
      ring

theorem count_pushAll (combine : List α → α) (hdeg : 1 ≤ deg) (xs : List α) :
    count deg (pushAll combine deg xs) = xs.length := by
  induction xs using reverseRecOn with
  | nil => simp [pushAll, count]
  | append_singleton xs x ih =>
    rw [pushAll_concat, count_push (bounded_pushAll combine hdeg xs), ih, length_append]
    rfl

theorem top_push_ne_nil (x : α) (h : t.tail = [] ∨ top t ≠ []) :
    top (push combine deg x t) ≠ [] := by
  induction t generalizing x with
  | nil => simp [push, top]
  | cons l ls ih =>
    rw [push]
    split
    · cases ls with
      | nil => simp [top]
      | cons l' ls =>
        obtain h | h := h
        · cases h
        · rwa [top_cons (by simp)] at h
    · rw [top_cons (push_ne_nil _ ls)]
      apply ih
      cases ls with
      | nil => exact .inl rfl
      | cons l' ls =>
        obtain h | h := h
        · cases h
        · exact .inr (by rwa [top_cons (by simp)] at h)

theorem top_pushAll_ne_nil (combine : List α → α) (deg : Nat) (h : xs ≠ []) :
    top (pushAll combine deg xs) ≠ [] := by
  induction xs using reverseRecOn with
  | nil => exact absurd rfl h
  | append_singleton xs x ih =>
    rw [pushAll_concat]
    apply top_push_ne_nil
    cases xs with
    | nil => exact .inl rfl
    | cons y ys => exact .inr (ih (by simp))

/-- The sizes of the levels are the digits of the number of leaves. -/
theorem map_length_pushAll (combine : List α → α) (hdeg : 1 ≤ deg) (h : xs ≠ []) :
    (pushAll combine deg xs).map length = digits (deg + 1) xs.length := by
  have hcount := count_pushAll combine hdeg xs
  rw [← hcount]
  refine (digits_ofDigits (deg + 1) (by omega) _ ?_ ?_).symm
  · intro d hd
    obtain ⟨l, hl, rfl⟩ := mem_map.mp hd
    have := bounded_pushAll combine hdeg xs l hl
    omega
  · intro hne hzero
    have htop := top_pushAll_ne_nil combine deg h
    rw [getLast_map, length_eq_zero_iff] at hzero
    apply htop
    unfold top
    rw [getLast?_eq_some_getLast (pushAll_ne_nil xs), hzero]
    rfl

theorem length_push_le (x : α) (t : List (List α)) :
    (push combine deg x t).length ≤ t.length + 1 := by
  induction t generalizing x with
  | nil => simp [push]
  | cons l ls ih =>
    rw [push]
    split
    · simp
    · rw [length_cons, length_cons]
      have := ih (combine (l ++ [x]))
      omega

/-- A new level comes when all levels are full. -/
theorem full_of_length_push (hb : Bounded deg t) (h : t.length < (push combine deg x t).length) :
    ∀ l ∈ t, l.length = deg := by
  induction t generalizing x with
  | nil => simp
  | cons l ls ih =>
    have hl := hb l mem_cons_self
    rw [push] at h
    split at h
    · simp at h
    · rename_i hfull
      rw [length_append, length_singleton] at hfull
      have hls := lt_of_succ_lt_succ h
      intro y hy
      obtain rfl | hy := mem_cons.mp hy
      · omega
      · exact ih (fun z hz => hb z (mem_cons_of_mem _ hz)) hls y hy

theorem length_top_complete_le (hdeg : 1 ≤ deg) (t : List (List α)) :
    (top (complete combine deg t)).length ≤ deg := by
  unfold complete
  dsimp only
  split
  · simpa [top] using hdeg
  · omega

theorem raise_of_empty (k : Nat) (l : List α) :
    raise combine [] (replicate k [] ++ [l]) = replicate k [] ++ [l] := by
  induction k with
  | zero => simp [raise]
  | succ k ih =>
    obtain ⟨y, ys, hys⟩ : ∃ y ys, replicate k [] ++ [l] = y :: ys := exists_cons_of_ne_nil (by simp)
    rw [replicate_succ, cons_append]
    rw [hys] at ih ⊢
    simp only [raise, append_nil, ih]

theorem complete_of_empty (k : Nat) (hl : l.length ≤ deg) :
    complete combine deg (replicate k [] ++ [l]) = replicate k [] ++ [l] := by
  unfold complete
  rw [raise_of_empty, if_neg]
  simpa [top] using hl

theorem eq_of_map_length {k d : Nat} (h : t.map length = replicate k 0 ++ [d]) :
    ∃ l : List α, l.length = d ∧ t = replicate k [] ++ [l] := by
  obtain ⟨low, high, rfl, hlow, hhigh⟩ := map_eq_append_iff.mp h
  obtain ⟨l, rfl, rfl⟩ := map_eq_singleton_iff.mp hhigh
  refine ⟨l, rfl, ?_⟩
  congr 1
  rw [eq_replicate_iff] at hlow ⊢
  refine ⟨by simpa using hlow.1, fun b hb => ?_⟩
  exact length_eq_zero_iff.mp (hlow.2 _ (mem_map_of_mem hb))

end Sizes

section Weights

variable {c : α → List γ} {w : Nat}

/-- An element holds as much as the levels below it can. -/
def Uniform (c : α → List γ) (deg : Nat) : Nat → List (List α) → Prop
  | _, [] => True
  | w, l :: ls => (∀ x ∈ l, (c x).length = w) ∧ Uniform c deg (w * (deg + 1)) ls

theorem length_flatMap_of_forall (h : ∀ x ∈ l, (c x).length = w) :
    (l.flatMap c).length = l.length * w := by
  rw [length_flatMap, map_congr_left h, map_const', sum_replicate, smul_eq_mul]

theorem Uniform.push (hc : ∀ xs, c (combine xs) = xs.flatMap c) (hb : Bounded deg t)
    (h : Uniform c deg w t) (hx : (c x).length = w) :
    Uniform c deg w (push combine deg x t) := by
  induction t generalizing w x with
  | nil => exact ⟨by simpa using hx, trivial⟩
  | cons l ls ih =>
    obtain ⟨hl, hls⟩ := h
    have hlx : ∀ y ∈ l ++ [x], (c y).length = w := forall_mem_append.mpr ⟨hl, by simpa using hx⟩
    rw [push]
    split
    · exact ⟨hlx, hls⟩
    · rename_i hfull
      refine ⟨by simp, ih (fun y hy => hb y (mem_cons_of_mem _ hy)) hls ?_⟩
      have := hb l mem_cons_self
      have hlen : (l ++ [x]).length = deg + 1 := by
        rw [length_append, length_singleton] at hfull ⊢
        omega
      rw [hc, length_flatMap_of_forall hlx, hlen, mul_comm]

theorem uniform_pushAll (hdeg : 1 ≤ deg) (hc : ∀ xs, c (combine xs) = xs.flatMap c)
    (h : ∀ x ∈ xs, (c x).length = w) :
    Uniform c deg w (pushAll combine deg xs) := by
  induction xs using reverseRecOn with
  | nil => exact ⟨by simp, trivial⟩
  | append_singleton xs x ih =>
    rw [forall_mem_append] at h
    rw [pushAll_concat]
    exact (ih h.1).push hc (bounded_pushAll combine hdeg xs) (h.2 x (by simp))

theorem Uniform.top (h : Uniform c deg w t) :
    ∀ x ∈ top t, (c x).length * (deg + 1) = w * (deg + 1) ^ t.length := by
  induction t generalizing w with
  | nil => simp [top]
  | cons l t ih =>
    cases t with
    | nil =>
      intro x hx
      rw [h.1 x (by simpa [top] using hx), length_singleton, pow_one]
    | cons l' t =>
      rw [top_cons (by simp), length_cons, pow_succ', ← mul_assoc]
      exact ih h.2

theorem flatMap_top_first (t : List (List α)) : (top t).flatMap c <+: contents c t := by
  induction t using reverseRecOn with
  | nil => simp [top]
  | append_singleton t l _ => simp [top, contents]

end Weights

end FabricOev.Lib.LevelTree
