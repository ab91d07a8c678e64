import Mathlib.Data.List.Basic

/-!
# Runs of event loops

A loop that takes events one after the other: `step` gives the state in which it waits again,
or nothing if it does not get there. What holds whenever the loop waits is compared with which
events it is given in which states.
-/

namespace FabricOev.Lib

open Option List

variable {σ ε α : Type} (step : σ → ε → Option σ)

/-- The state after some events, if the loop takes them all. -/
def run : σ → List ε → Option σ
  | s, [] => some s
  | s, e :: es => (step s e).bind fun s' => run s' es

def Always (P : σ → Prop) : σ → List ε → Prop
  | s, [] => P s
  | s, e :: es => P s ∧ ∀ s', step s e = some s' → Always P s' es

/-- No event that the loop takes is bad in the state in which it comes. -/
def Never (Bad : σ → ε → Prop) : σ → List ε → Prop
  | _, [] => True
  | s, e :: es => ∀ s', step s e = some s' → ¬ Bad s e ∧ Never Bad s' es

def collected (f : σ → ε → List α) : σ → List ε → List α
  | _, [] => []
  | s, e :: es => f s e ++ (step s e).elim [] fun s' => collected f s' es

variable {step} {P : σ → Prop} {s : σ} {Bad : σ → ε → Prop} {s' : σ} {es : List ε} {work : σ → Nat}
  {turn : ε → Bool}

instance decidableAlways {P : σ → Prop} [DecidablePred P] :
    ∀ (s : σ) (es : List ε), Decidable (Always step P s es)
  | s, [] => inferInstanceAs (Decidable (P s))
  | s, e :: es =>
    match h : step s e with
    | none => decidable_of_iff (P s) ⟨fun hs => ⟨hs, fun _ h' => (nomatch h.symm.trans h')⟩, And.left⟩
    | some m =>
      have : Decidable (Always step P m es) := decidableAlways m es
      decidable_of_iff (P s ∧ Always step P m es)
        ⟨fun hs => ⟨hs.1, fun _ h' => some.inj (h.symm.trans h') ▸ hs.2⟩,
          fun hs => ⟨hs.1, hs.2 m h⟩⟩

instance decidableNever {Bad : σ → ε → Prop} [∀ s e, Decidable (Bad s e)] :
    ∀ (s : σ) (es : List ε), Decidable (Never step Bad s es)
  | _, [] => isTrue trivial
  | s, e :: es =>
    match h : step s e with
    | none => isTrue fun _ h' => (nomatch h.symm.trans h')
    | some m =>
      have : Decidable (Never step Bad m es) := decidableNever m es
      decidable_of_iff (¬ Bad s e ∧ Never step Bad m es)
        ⟨fun hs _ h' => some.inj (h.symm.trans h') ▸ hs, fun hs => hs m h⟩

/-- If every event keeps `P` exactly unless it is bad, `P` always holds exactly if no event
is bad. -/
theorem always_iff_never (hstep : ∀ s e s', P s → step s e = some s' → (P s' ↔ ¬ Bad s e))
    (hs : P s) (es : List ε) :
    Always step P s es ↔ Never step Bad s es := by
  induction es generalizing s with
  | nil => exact iff_of_true hs trivial
  | cons e es ih =>
    constructor
    · intro h s' hs'
      have halways := h.2 s' hs'
      have hp : P s' := by
        cases es with
        | nil => exact halways
        | cons => exact halways.1
      exact ⟨(hstep s e s' hs hs').mp hp, (ih hp).mp halways⟩
    · intro h
      refine ⟨hs, fun s' hs' => ?_⟩
      obtain ⟨hbad, hrest⟩ := h s' hs'
      exact (ih ((hstep s e s' hs hs').mpr hbad)).mpr hrest

theorem Always.of_run (h : Always step P s es) (hrun : run step s es = some s') : P s' := by
  induction es generalizing s with
  | nil =>
    cases hrun
    exact h
  | cons e es ih =>
    obtain ⟨m, hm, hrest⟩ := bind_eq_some_iff.mp hrun
    exact ih (h.2 m hm) hrest

/-- A list that every event continues by its contribution. -/
theorem run_collected {out : σ → List α} {f : σ → ε → List α}
    (hstep : ∀ s e s', step s e = some s' → out s' = out s ++ f s e)
    (hrun : run step s es = some s') : out s' = out s ++ collected step f s es := by
  induction es generalizing s with
  | nil =>
    cases hrun
    simp [collected]
  | cons e es ih =>
    obtain ⟨m, hm, hrest⟩ := bind_eq_some_iff.mp hrun
    rw [ih hrest, hstep s e m hm, collected, hm, elim_some, append_assoc]

theorem holds_of_run (hstep : ∀ s e s', P s → step s e = some s' → P s') (hs : P s)
    (hrun : run step s es = some s') : P s' := by
  induction es generalizing s with
  | nil =>
    cases hrun
    exact hs
  | cons e es ih =>
    obtain ⟨m, hm, hrest⟩ := bind_eq_some_iff.mp hrun
    exact ih (hstep s e m hs hm) hrest

/-- What every event but the bad ones keeps holds after a run without those. -/
theorem holds_of_never (hstep : ∀ s e s', P s → ¬ Bad s e → step s e = some s' → P s') (hs : P s)
    (hnever : Never step Bad s es) (hrun : run step s es = some s') : P s' := by
  induction es generalizing s with
  | nil =>
    cases hrun
    exact hs
  | cons e es ih =>
    obtain ⟨m, hm, hrest⟩ := bind_eq_some_iff.mp hrun
    obtain ⟨hgood, hnever⟩ := hnever m hm
    exact ih (hstep s e m hs hgood hm) hnever hrest

/-- If some events leave less to do and the others no more, there are no more of the former
than there is to do. -/
theorem turns_le_of_run (hkeep : ∀ s e s', P s → step s e = some s' → P s')
    (hless : ∀ s e s', P s → turn e = true → step s e = some s' → work s' < work s)
    (hle : ∀ s e s', P s → turn e = false → step s e = some s' → work s' ≤ work s) (hs : P s)
    (hrun : run step s es = some s') :
    (es.filter turn).length ≤ work s := by
  induction es generalizing s with
  | nil => exact Nat.zero_le _
  | cons e es ih =>
    obtain ⟨m, hm, hrest⟩ := bind_eq_some_iff.mp hrun
    have hrest := ih (hkeep s e m hs hm) hrest
    cases he : turn e with
    | true =>
      have hlt := hless s e m hs he hm
      rw [filter_cons_of_pos he, length_cons]
      omega
    | false =>
      have hno := hle s e m hs he hm
      rw [filter_cons_of_neg (by simp [he])]
      omega

/-- Events that each leave less to do are no more than there is to do. -/
theorem length_le_of_run (hstep : ∀ s e s', turn e = true → step s e = some s' → work s' < work s)
    (hes : ∀ e ∈ es, turn e = true) (h : run step s es = some s') :
    es.length ≤ work s := by
  induction es generalizing s with
  | nil => exact Nat.zero_le _
  | cons e es ih =>
    obtain ⟨m, hm, hrest⟩ := bind_eq_some_iff.mp h
    have hlt := hstep s e m (hes e mem_cons_self) hm
    have hle := ih (fun x hx => hes x (mem_cons_of_mem _ hx)) hrest
    rw [length_cons]
    omega

end FabricOev.Lib
