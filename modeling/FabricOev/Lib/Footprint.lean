import Mathlib

/-!
# Parallel jobs with declared footprints

A job reads a store and answers with the writes it wants to make, or fails. Jobs come with a
footprint, the keys they may read and write. Parallel execution rests on two facts: jobs with
independent footprints, all run against the same store and merged, do what running them one at a
time in any order does; and two orders of running a list of jobs agree as soon as they agree on the
jobs that are not independent. Nothing is assumed of the store beyond its three laws.
-/

namespace FabricOev.Lib

open List

structure Store (σ K V : Type) where
  get : σ → K → Option V
  put : σ → K → V → σ
  get_put_self : ∀ s k v, get (put s k v) k = some v
  get_put_ne : ∀ s k k' v, k ≠ k' → get (put s k v) k' = get s k'
  put_comm : ∀ s k k' v v', k ≠ k' → put (put s k v) k' v' = put (put s k' v') k v

structure Footprint (K : Type) where
  reads : Set K
  writes : Set K

/-- Neither job writes what the other reads or writes. -/
structure Independent {K : Type} (f g : Footprint K) : Prop where
  writes_reads : Disjoint f.writes g.reads
  reads_writes : Disjoint f.reads g.writes
  writes_writes : Disjoint f.writes g.writes

theorem Independent.symm {K : Type} {f g : Footprint K} (h : Independent f g) : Independent g f :=
  ⟨h.reads_writes.symm, h.writes_reads.symm, h.writes_writes.symm⟩

namespace Store

variable {σ K V α : Type} (M : Store σ K V) {ws : List (K × V)} {k : K} {ws' : List (K × V)}
  {P : σ → Prop} {s : σ}

def putAll (s : σ) (ws : List (K × V)) : σ := ws.foldl (fun s w => M.put s w.1 w.2) s

theorem putAll_cons (s : σ) (w : K × V) (ws : List (K × V)) :
    M.putAll s (w :: ws) = M.putAll (M.put s w.1 w.2) ws := rfl

theorem get_putAll_of_notMem (h : ∀ w ∈ ws, w.1 ≠ k) (s : σ) :
    M.get (M.putAll s ws) k = M.get s k := by
  induction ws generalizing s with
  | nil => rfl
  | cons w ws ih =>
    rw [putAll_cons, ih (fun x hx => h x (by simp [hx])), M.get_put_ne _ _ _ _ (h w (by simp))]

theorem putAll_put {v : V} (h : ∀ w ∈ ws, w.1 ≠ k) (s : σ) :
    M.putAll (M.put s k v) ws = M.put (M.putAll s ws) k v := by
  induction ws generalizing s with
  | nil => rfl
  | cons w ws ih =>
    have hw : w.1 ≠ k := h w (by simp)
    rw [putAll_cons, putAll_cons, M.put_comm _ _ _ _ _ hw.symm]
    exact ih (fun x hx => h x (by simp [hx])) _

theorem putAll_comm (h : ∀ w ∈ ws, ∀ w' ∈ ws', w.1 ≠ w'.1) (s : σ) :
    M.putAll (M.putAll s ws) ws' = M.putAll (M.putAll s ws') ws := by
  induction ws' generalizing s with
  | nil => rfl
  | cons w' ws' ih =>
    have hw' : ∀ w ∈ ws, w.1 ≠ w'.1 := fun w hw => h w hw w' (by simp)
    rw [putAll_cons, putAll_cons, ← M.putAll_put hw']
    exact ih (fun w hw x hx => h w hw x (by simp [hx])) _

/-- Writes to pairwise different keys may be made in any order. -/
theorem putAll_perm (hp : ws.Perm ws') (hd : ws.Pairwise fun w w' => w.1 ≠ w'.1) (s : σ) :
    M.putAll s ws = M.putAll s ws' := by
  induction hp generalizing s with
  | nil => rfl
  | cons w _ ih => exact ih (pairwise_cons.mp hd).2 _
  | swap w w' l =>
    have hne : w'.1 ≠ w.1 := (pairwise_cons.mp hd).1 w (by simp)
    rw [putAll_cons, putAll_cons, putAll_cons, putAll_cons, M.put_comm _ _ _ _ _ hne]
  | trans h1 _ ih1 ih2 =>
    rw [ih1 hd s]
    exact ih2 ((h1.pairwise_iff (fun h => Ne.symm h)).mp hd) s

/-! ## Jobs -/

/-- What a job does: the writes it answers with, or nothing if it fails. -/
abbrev Job (σ K V : Type) := σ → Option (List (K × V))

structure Respects (job : Job σ K V) (fp : Footprint K) : Prop where
  frame : ∀ s s', (∀ k ∈ fp.reads, M.get s k = M.get s' k) → job s = job s'
  within : ∀ s ws, job s = some ws → ∀ w ∈ ws, w.1 ∈ fp.writes

/-- Add what `job` answers in the store `base` to the store `s`. -/
def merge (base : σ) (s : σ) (job : Job σ K V) : σ :=
  match job base with
  | some ws => M.putAll s ws
  | none => s

def step (s : σ) (job : Job σ K V) : σ := M.merge s s job

/-- One job after the other, each seeing all earlier writes. -/
def serial (job : α → Job σ K V) (l : List α) (s : σ) : σ := l.foldl (fun s a => M.step s (job a)) s

/-- All jobs against the same store, their writes merged in the order of the list. -/
def parallel (job : α → Job σ K V) (l : List α) (s : σ) : σ :=
  l.foldl (fun acc a => M.merge s acc (job a)) s

theorem serial_cons (job : α → Job σ K V) (a : α) (l : List α) (s : σ) :
    M.serial job (a :: l) s = M.serial job l (M.step s (job a)) := rfl

theorem serial_append (job : α → Job σ K V) (l l' : List α) (s : σ) :
    M.serial job (l ++ l') s = M.serial job l' (M.serial job l s) := by
  simp [serial]

theorem parallel_invariant (hput : ∀ s k v, P s → P (M.put s k v)) (job : α → Job σ K V)
    (l : List α) (hs : P s) : P (M.parallel job l s) := by
  have hall : ∀ (ws : List (K × V)) (acc : σ), P acc → P (M.putAll acc ws) := by
    intro ws
    induction ws with
    | nil => exact fun _ h => h
    | cons w ws ih => exact fun acc h => ih _ (hput acc w.1 w.2 h)
  have hmerge : ∀ (j : Job σ K V) (acc : σ), P acc → P (M.merge s acc j) := by
    intro j acc h
    unfold merge
    split
    · exact hall _ _ h
    · exact h
  exact foldlRecOn l _ hs fun acc h a _ => hmerge (job a) acc h

/-- What every write to the keys in `W` keeps, a serial run of jobs that write there keeps. -/
theorem serial_invariant {W : Set K} {job : α → Job σ K V} {l : List α}
    (hput : ∀ s, ∀ k ∈ W, ∀ v, P s → P (M.put s k v))
    (hw : ∀ a ∈ l, ∀ s ws, job a s = some ws → ∀ w ∈ ws, w.1 ∈ W) (hs : P s) :
    P (M.serial job l s) := by
  refine foldlRecOn l _ hs fun acc hacc a ha => ?_
  unfold step merge
  split
  · rename_i ws hws
    exact foldlRecOn ws _ hacc fun acc' hacc' w hmem =>
      hput acc' w.1 (hw a ha acc ws hws w hmem) w.2 hacc'
  · exact hacc

variable {M} {j j' : Job σ K V} {f f' : Footprint K}

theorem Respects.merge_get {job : Job σ K V} {fp : Footprint K} (h : M.Respects job fp)
    (hk : k ∉ fp.writes) (base s : σ) : M.get (M.merge base s job) k = M.get s k := by
  unfold merge
  cases hj : job base with
  | none => rfl
  | some ws =>
    refine M.get_putAll_of_notMem (fun w hw he => hk ?_) s
    exact he ▸ h.within base ws hj w hw

theorem Respects.job_merge (h : M.Respects j f) (h' : M.Respects j' f') (hi : Independent f f')
    (base s : σ) :
    j (M.merge base s j') = j s := by
  refine h.frame _ _ fun k hk => h'.merge_get ?_ base s
  exact Set.disjoint_left.mp hi.reads_writes hk

theorem Respects.merge_comm (h : M.Respects j f) (h' : M.Respects j' f') (hi : Independent f f')
    (b b' s : σ) :
    M.merge b' (M.merge b s j) j' = M.merge b (M.merge b' s j') j := by
  unfold merge
  cases hj : j b with
  | none => cases j' b' <;> rfl
  | some ws =>
    cases hj' : j' b' with
    | none => rfl
    | some ws' =>
      refine M.putAll_comm (fun w hw w' hw' he => ?_) s
      have hmem := h.within b ws hj w hw
      exact Set.disjoint_left.mp hi.writes_writes hmem (he ▸ h'.within b' ws' hj' w' hw')

theorem merge_congr {job : Job σ K V} {b b' : σ} (h : job b = job b') (s : σ) :
    M.merge b s job = M.merge b' s job := by
  rw [merge, merge, h]

theorem Respects.step_comm (h : M.Respects j f) (h' : M.Respects j' f') (hi : Independent f f')
    (s : σ) :
    M.step (M.step s j) j' = M.step (M.step s j') j :=
  calc M.step (M.step s j) j'
      = M.merge s (M.merge s s j) j' := merge_congr (h'.job_merge h hi.symm s s) _
    _ = M.merge s (M.merge s s j') j := h.merge_comm h' hi s s s
    _ = M.step (M.step s j') j := (merge_congr (h.job_merge h' hi s s) _).symm

section Orders

variable {job : α → Job σ K V} {fp : α → Footprint K} {l : List α} {a : α} {b : α} {u v : List α}
  {l' : List α}

/-- A job independent of all the others may as well come last. -/
theorem serial_step_comm (ha : M.Respects (job a) (fp a)) (hr : ∀ b ∈ l, M.Respects (job b) (fp b))
    (hi : ∀ b ∈ l, Independent (fp a) (fp b)) (s : σ) :
    M.serial job l (M.step s (job a)) = M.step (M.serial job l s) (job a) := by
  induction l generalizing s with
  | nil => rfl
  | cons b l ih =>
    rw [serial_cons, serial_cons, ha.step_comm (hr b (by simp)) (hi b (by simp))]
    exact ih (fun c hc => hr c (by simp [hc])) (fun c hc => hi c (by simp [hc])) _

theorem not_sublist_pair (hn : (u ++ a :: v).Nodup) (hb : b ∈ u) :
    ¬ [a, b].Sublist (u ++ a :: v) := by
  intro h
  obtain ⟨-, hav, hdisj⟩ := nodup_append.mp hn
  obtain ⟨l1, l2, he, h1, h2⟩ := sublist_append_iff.mp h
  cases l1 with
  | nil =>
    rw [nil_append] at he
    have hbv : b ∈ a :: v := h2.subset (he ▸ by simp)
    exact hdisj b hb b hbv rfl
  | cons x l1 =>
    obtain ⟨rfl, -⟩ := cons.inj he
    exact hdisj a (h1.subset (by simp)) a (by simp) rfl

theorem sublist_of_cons_middle {c : α} (h : [b, c].Sublist (u ++ a :: v)) (hb : b ≠ a)
    (hc : c ≠ a) : [b, c].Sublist (u ++ v) := by
  classical
  have hf := h.filter (fun x => decide (x ≠ a))
  have hbc : [b, c].filter (fun x => decide (x ≠ a)) = [b, c] := by simp [hb, hc]
  rw [hbc, filter_append, filter_cons_of_neg (by simp), ← filter_append] at hf
  exact hf.trans filter_sublist

/-- The order of two jobs in `l` that are not independent is kept in `l'`. -/
def KeepsOrder (fp : α → Footprint K) (l l' : List α) : Prop :=
  ∀ a b, [a, b].Sublist l → Independent (fp a) (fp b) ∨ [a, b].Sublist l'

variable (hr : ∀ a ∈ l, M.Respects (job a) (fp a))
include hr

/-- Two orders of the same jobs that agree on every dependent pair have the same result. -/
theorem serial_reorder (hp : l.Perm l') (hn : l.Nodup) (hk : KeepsOrder fp l l') (s : σ) :
    M.serial job l s = M.serial job l' s := by
  induction l generalizing l' s with
  | nil => rw [nil_perm.mp hp]
  | cons a l ih =>
    obtain ⟨u, v, rfl⟩ := append_of_mem (hp.mem_iff.mp (by simp : a ∈ a :: l))
    have hp' : l.Perm (u ++ v) := (perm_cons a).mp (hp.trans perm_middle)
    have hn' : (u ++ a :: v).Nodup := hp.nodup_iff.mp hn
    -- everything `l'` has before `a` is independent of it, since `l` starts with `a`
    have hu : ∀ b ∈ u, Independent (fp a) (fp b) := by
      intro b hb
      have hbl : b ∈ l := hp'.mem_iff.mpr (by simp [hb])
      rcases hk a b (by simpa using hbl) with h | h
      · exact h
      · exact absurd h (not_sublist_pair hn' hb)
    have hrest : KeepsOrder fp l (u ++ v) := by
      intro b c hbc
      rcases hk b c (hbc.trans (sublist_cons_self a l)) with h | h
      · exact .inl h
      · have hbl : b ∈ l := hbc.subset (by simp)
        have hcl : c ∈ l := hbc.subset (by simp)
        have ha : a ∉ l := (nodup_cons.mp hn).1
        exact .inr (sublist_of_cons_middle h (fun e => ha (e ▸ hbl)) fun e => ha (e ▸ hcl))
    have hru : ∀ b ∈ u, M.Respects (job b) (fp b) := fun b hb => hr b (hp.mem_iff.mpr (by simp [hb]))
    rw [serial_cons, ih (fun b hb => hr b (by simp [hb])) hp' (nodup_cons.mp hn).2 hrest,
      serial_append, serial_append, serial_cons, serial_step_comm (hr a (by simp)) hru hu]

variable (hi : l.Pairwise fun a b => Independent (fp a) (fp b))
include hi

theorem parallel_eq_serial (s : σ) : M.parallel job l s = M.serial job l s := by
  -- the store merged so far answers every later job as the common store does
  have key : ∀ acc : σ, (∀ a ∈ l, job a acc = job a s) →
      l.foldl (fun acc a => M.merge s acc (job a)) acc = M.serial job l acc := by
    induction l with
    | nil => intro acc _; rfl
    | cons a l ih =>
      intro acc hacc
      obtain ⟨ha, hl⟩ := pairwise_cons.mp hi
      have hstep : M.merge s acc (job a) = M.step acc (job a) :=
        merge_congr (hacc a (by simp)).symm acc
      rw [foldl_cons, serial_cons, hstep]
      refine ih (fun b hb => hr b (by simp [hb])) hl _ fun b hb => ?_
      rw [step, (hr b (by simp [hb])).job_merge (hr a (by simp)) (ha b hb).symm]
      exact hacc b (by simp [hb])
  exact key s fun _ _ => rfl

/-- A batch of independent jobs run in parallel does what any order of them does. -/
theorem parallel_eq_serial_perm (hn : l.Nodup) (hp : l.Perm l') (s : σ) :
    M.parallel job l s = M.serial job l' s := by
  rw [parallel_eq_serial hr hi]
  refine serial_reorder hr hp hn (fun a b hab => .inl ?_) s
  exact (pairwise_cons.mp (hi.sublist hab)).1 b (by simp)

end Orders

end Store

end FabricOev.Lib
