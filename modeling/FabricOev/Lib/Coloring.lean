import Mathlib

/-!
# Greedy colouring

The vertices of a graph in some order, each given the smallest colour none of its
neighbours has yet. The colouring is an association list in which a later entry hides an
earlier one. For vertices that occur once and symmetric neighbourhoods the colouring is
proper; nothing is assumed of the order.
-/

namespace FabricOev.Lib.Coloring

open List

def firstFree (used : List Nat) : Nat := ((range (used.length + 1)).find? fun c => c ∉ used).getD 0

theorem firstFree_spec (used : List Nat) :
    firstFree used ∉ used ∧ firstFree used ≤ used.length ∧ ∀ c < firstFree used, c ∈ used := by
  have hex : ∃ c ∈ range (used.length + 1), c ∉ used := by
    by_contra h
    push Not at h
    have hsub : range (used.length + 1) ⊆ used := h
    have hle := (subperm_of_subset nodup_range hsub).length_le
    rw [length_range] at hle
    omega
  obtain ⟨c, hc, hnot⟩ := hex
  cases hf : (range (used.length + 1)).find? fun c => c ∉ used with
  | none => exact absurd (find?_eq_none.mp hf c hc) (by simpa using hnot)
  | some d =>
    obtain ⟨hd, hmem, hmin⟩ := find?_range_eq_some.mp hf
    rw [firstFree, hf, Option.getD_some]
    refine ⟨by simpa using hd, ?_, fun c hc => by simpa using hmin c hc⟩
    rw [mem_range] at hmem
    omega

theorem firstFree_notMem (used : List Nat) : firstFree used ∉ used := (firstFree_spec used).1

theorem firstFree_le_length (used : List Nat) : firstFree used ≤ used.length :=
  (firstFree_spec used).2.1

variable {c : Nat} {used : List Nat}

theorem mem_of_lt_firstFree (h : c < firstFree used) : c ∈ used := (firstFree_spec used).2.2 c h

/-- Which numbers are used decides, not their order or how often they occur. -/
theorem firstFree_congr {used' : List Nat} (h : ∀ c, c ∈ used ↔ c ∈ used') :
    firstFree used = firstFree used' := by
  apply le_antisymm
  · apply Nat.le_of_not_lt
    intro hlt
    exact firstFree_notMem used' ((h _).mp (mem_of_lt_firstFree hlt))
  · apply Nat.le_of_not_lt
    intro hlt
    exact firstFree_notMem used ((h _).mpr (mem_of_lt_firstFree hlt))

variable {V : Type} [BEq V]

def greedyStep (nbrs : V → List V) (color : List (V × Nat)) (v : V) : List (V × Nat) :=
  (v, firstFree ((nbrs v).filterMap fun w => color.lookup w)) :: color

/-- Colour the vertices in the order of the list. -/
def greedy (nbrs : V → List V) (vs : List V) : List (V × Nat) := vs.foldl (greedyStep nbrs) []

theorem greedy_append (nbrs : V → List V) (vs : List V) (v : V) :
    greedy nbrs (vs ++ [v]) = greedyStep nbrs (greedy nbrs vs) v := by
  simp [greedy]

/-- The order in which neighbours are listed does not matter. -/
theorem greedy_congr {nbrs nbrs' : V → List V} (h : ∀ v w, w ∈ nbrs v ↔ w ∈ nbrs' v)
    (vs : List V) : greedy nbrs vs = greedy nbrs' vs := by
  have hstep : greedyStep nbrs = greedyStep nbrs' := by
    funext color v
    rw [greedyStep, greedyStep, firstFree_congr]
    intro c
    simp only [mem_filterMap, h]
  rw [greedy, greedy, hstep]

theorem greedy_map_fst (nbrs : V → List V) (vs : List V) :
    (greedy nbrs vs).map (·.1) = vs.reverse := by
  induction vs using reverseRecOn with
  | nil => rfl
  | append_singleton vs v ih => simp [greedy_append, greedyStep, ih]

variable [LawfulBEq V] {nbrs : V → List V} {v : V} {color : List (V × Nat)} {vs : List V}

theorem greedyStep_self (color : List (V × Nat)) (v : V) :
    (greedyStep nbrs color v).lookup v =
      some (firstFree ((nbrs v).filterMap fun w => color.lookup w)) := by
  simp [greedyStep]

theorem greedyStep_ne {w : V} (h : w ≠ v) :
    (greedyStep nbrs color v).lookup w = color.lookup w := by
  have hb : (w == v) = false := by simpa using h
  simp only [greedyStep, lookup_cons, hb]

def Proper (nbrs : V → List V) (color : List (V × Nat)) : Prop :=
  ∀ v w c, w ∈ nbrs v → color.lookup v = some c → color.lookup w ≠ some c

theorem Proper.step (hsymm : ∀ v w, w ∈ nbrs v → v ∈ nbrs w) (hirr : ∀ v, v ∉ nbrs v)
    (hp : Proper nbrs color) :
    Proper nbrs (greedyStep nbrs color v) := by
  -- the new colour is one that no neighbour has
  have hnew : ∀ w, w ∈ nbrs v →
      color.lookup w ≠ some (firstFree ((nbrs v).filterMap fun w => color.lookup w)) := by
    intro w hw hc
    have hmem : firstFree ((nbrs v).filterMap fun w => color.lookup w) ∈
        (nbrs v).filterMap fun w => color.lookup w := mem_filterMap.mpr ⟨w, hw, hc⟩
    exact firstFree_notMem _ hmem
  intro a b c hab ha
  by_cases hav : a = v
  · subst hav
    have hba : b ≠ a := fun h => hirr a (h ▸ hab)
    rw [greedyStep_self] at ha
    rw [greedyStep_ne hba, ← ha]
    exact hnew b hab
  · rw [greedyStep_ne hav] at ha
    by_cases hbv : b = v
    · subst hbv
      rw [greedyStep_self, ← ha]
      exact (hnew a (hsymm a b hab)).symm
    · rw [greedyStep_ne hbv]
      exact hp a b c hab ha

theorem greedy_proper (hsymm : ∀ v w, w ∈ nbrs v → v ∈ nbrs w) (hirr : ∀ v, v ∉ nbrs v)
    (vs : List V) : Proper nbrs (greedy nbrs vs) := by
  have key : ∀ (vs : List V) (color : List (V × Nat)), Proper nbrs color →
      Proper nbrs (vs.foldl (greedyStep nbrs) color) := by
    intro vs
    induction vs with
    | nil => exact fun _ h => h
    | cons v vs ih => exact fun color h => ih _ (h.step hsymm hirr)
  exact key vs [] (by simp [Proper])

theorem lookup_greedy_isSome (h : v ∈ vs) : ((greedy nbrs vs).lookup v).isSome := by
  induction vs using reverseRecOn with
  | nil => simp at h
  | append_singleton vs w ih =>
    rw [greedy_append]
    by_cases hvw : v = w
    · rw [hvw, greedyStep_self]
      rfl
    · rw [greedyStep_ne hvw]
      refine ih ?_
      simpa [hvw] using h

theorem lookup_greedy_eq_none (h : v ∉ vs) : (greedy nbrs vs).lookup v = none := by
  induction vs using reverseRecOn with
  | nil => rfl
  | append_singleton vs w ih =>
    simp only [mem_append, mem_singleton, not_or] at h
    rw [greedy_append, greedyStep_ne h.2]
    exact ih h.1

theorem mem_of_lookup_greedy (h : (greedy nbrs vs).lookup v = some c) : v ∈ vs := by
  by_contra hv
  rw [lookup_greedy_eq_none hv] at h
  cases h

/-- A vertex of some colour has a neighbour of every smaller one. -/
def Tight (nbrs : V → List V) (color : List (V × Nat)) : Prop :=
  ∀ v c, color.lookup v = some c → ∀ d < c, ∃ w ∈ nbrs v, color.lookup w = some d

/-- Colouring a new vertex disturbs no neighbour that an older one points to. -/
theorem Tight.step (ht : Tight nbrs color) (hnew : color.lookup v = none) :
    Tight nbrs (greedyStep nbrs color v) := by
  have hkeep : ∀ w d, color.lookup w = some d → (greedyStep nbrs color v).lookup w = some d := by
    intro w d hw
    have hne : w ≠ v := fun he => by rw [he, hnew] at hw; cases hw
    rw [greedyStep_ne hne, hw]
  intro a c ha d hd
  by_cases hav : a = v
  · subst hav
    rw [greedyStep_self] at ha
    cases ha
    obtain ⟨w, hw, hwd⟩ := mem_filterMap.mp (mem_of_lt_firstFree hd)
    exact ⟨w, hw, hkeep w d hwd⟩
  · rw [greedyStep_ne hav] at ha
    obtain ⟨w, hw, hwd⟩ := ht a c ha d hd
    exact ⟨w, hw, hkeep w d hwd⟩

theorem greedy_tight (hnd : vs.Nodup) : Tight nbrs (greedy nbrs vs) := by
  induction vs using reverseRecOn with
  | nil => simp [Tight, greedy]
  | append_singleton vs v ih =>
    obtain ⟨hvs, -, hdisj⟩ := nodup_append.mp hnd
    have hv : v ∉ vs := fun hv => hdisj v hv v (by simp) rfl
    rw [greedy_append]
    exact (ih hvs).step (lookup_greedy_eq_none hv)

/-- A vertex never needs a colour above the number of its neighbours. -/
theorem lookup_greedy_le (h : (greedy nbrs vs).lookup v = some c) : c ≤ (nbrs v).length := by
  induction vs using reverseRecOn with
  | nil => simp [greedy] at h
  | append_singleton vs w ih =>
    rw [greedy_append] at h
    by_cases hvw : v = w
    · rw [hvw, greedyStep_self] at h
      cases h
      rw [hvw]
      exact (firstFree_le_length _).trans (length_filterMap_le _ _)
    · rw [greedyStep_ne hvw] at h
      exact ih h

end FabricOev.Lib.Coloring
