import FabricOev.Go.Strconv

/-!
# Errors and panics

A Go function with an `error` result returns a value, returns an error, or panics. A
caller can look at an error and go on; a panic leaves every caller up to the top of
the goroutine. Errors of the JSON and protobuf libraries carry no text here.
-/

namespace FabricOev.Go

open Except List

/-- A non-nil `error`. -/
inductive GoError where
  | text (msg : GoString)
  | num (e : NumError)
  | json
  | proto
deriving DecidableEq, Repr

/-- What the runtime or an explicit `panic` stops with. -/
inductive Panic where
  | nilDereference
  | indexOutOfRange
  | explicit (msg : GoString)
deriving DecidableEq, Repr

inductive Fault where
  | error (e : GoError)
  | panic (p : Panic)
deriving DecidableEq, Repr

theorem lt_length {α : Type} {l : List α} {i : Nat} {a : α} (h : l[i]? = some a) : i < l.length :=
  (List.getElem?_eq_some_iff.mp h).1

abbrev Result (α : Type) := Except Fault α

theorem bind_ok {α β ε : Type} {x : Except ε α} {f : α → Except ε β} {b : β} :
    x >>= f = .ok b ↔ ∃ a, x = .ok a ∧ f a = .ok b := by
  cases x with
  | error e =>
    constructor
    · intro h; cases h
    · rintro ⟨a, h, -⟩; cases h
  | ok a =>
    constructor
    · intro h; exact ⟨a, rfl, h⟩
    · rintro ⟨a', h, h'⟩; cases h; exact h'

namespace Result

def fail {α : Type} (e : GoError) : Result α := .error (.error e)

def panicWith {α : Type} (p : Panic) : Result α := .error (.panic p)

/-- `fmt.Errorf` or `errors.New` with a fixed text. -/
def errorf {α : Type} (msg : String) : Result α := fail (.text (str msg))

/-- The value and error results as the caller sees them; a panic passes through. -/
def attempt {α : Type} : Result α → Result (Except GoError α)
  | .ok a => .ok (.ok a)
  | .error (.error e) => .ok (.error e)
  | .error (.panic p) => .error (.panic p)

/-- `none` of a library decoder as its error. -/
def ofOption {α : Type} (e : GoError) : Option α → Result α
  | some a => .ok a
  | none => fail e

/-- Dereference of a pointer field. -/
def deref {α : Type} : Option α → Result α
  | some a => .ok a
  | none => panicWith .nilDereference

def index {α : Type} (xs : List α) (i : Nat) : Result α :=
  match xs[i]? with
  | some a => .ok a
  | none => panicWith .indexOutOfRange

def Panics {α : Type} (x : Result α) : Prop := ∃ p, x = .error (.panic p)

variable {α : Type} {β : Type} {x : Result α} {ε : Type} {f : α → Except ε β} {a : α} {xs : List α}
  {ys : List β}

theorem not_panics_ok (a : α) : ¬ Panics (.ok a : Result α) := by
  intro h
  obtain ⟨p, hp⟩ := h
  cases hp

theorem ok_bind (a : α) (f : α → Result β) : (.ok a >>= f : Result β) = f a := rfl

theorem panics_bind {f : α → Result β} :
    Panics (x >>= f) ↔ Panics x ∨ ∃ a, x = .ok a ∧ Panics (f a) := by
  cases x with
  | error e =>
    constructor
    · intro h
      obtain ⟨p, hp⟩ := h
      exact .inl ⟨p, by cases hp; rfl⟩
    · intro h
      obtain ⟨p, hp⟩ | ⟨a, ha, -⟩ := h
      · exact ⟨p, by cases hp; rfl⟩
      · cases ha
  | ok a =>
    constructor
    · intro h
      exact .inr ⟨a, rfl, h⟩
    · intro h
      obtain ⟨p, hp⟩ | ⟨b, hb, h⟩ := h
      · cases hp
      · cases hb
        exact h

/-- A check that fails with an error, in front of `x`. -/
theorem ite_error_eq_ok {x : Except ε α} {e : ε} {c : Prop} [Decidable c] :
    (if c then .error e else x) = .ok a ↔ ¬ c ∧ x = .ok a := by
  split
  · simp [*]
  · simp [*]

theorem toOption_eq_some {x : Except ε α} (h : x.toOption = some a) : x = .ok a := by
  cases x with
  | error e => cases h
  | ok b => exact congrArg _ (Option.some.inj h)

theorem bind_pair_eq_ok {x : Except ε β} {e : α × β} :
    (x >>= fun b => .ok (a, b) : Except ε (α × β)) = .ok e ↔ e.1 = a ∧ x = .ok e.2 := by
  rw [bind_ok]
  constructor
  · rintro ⟨b, hb, he⟩
    cases he
    exact ⟨rfl, hb⟩
  · rintro ⟨rfl, hx⟩
    exact ⟨e.2, hx, rfl⟩

theorem forM_eq_ok {f : α → Except ε Unit} : xs.forM f = .ok () ↔ ∀ x ∈ xs, f x = .ok () := by
  induction xs with
  | nil => exact ⟨fun _ => by simp, fun _ => rfl⟩
  | cons x xs ih =>
    show (f x >>= fun _ => xs.forM f) = .ok () ↔ _
    rw [bind_ok, forall_mem_cons, ← ih]
    constructor
    · intro h
      obtain ⟨⟨⟩, hx, hxs⟩ := h
      exact ⟨hx, hxs⟩
    · intro h
      exact ⟨(), h.1, h.2⟩

theorem mapM_eq_ok : xs.mapM f = .ok ys ↔ List.Forall₂ (fun x y => f x = .ok y) xs ys := by
  induction xs generalizing ys with
  | nil =>
    rw [mapM_nil, forall₂_nil_left_iff]
    exact ok.injEq [] ys ▸ eq_comm
  | cons x xs ih =>
    simp only [mapM_cons, bind_ok, forall₂_cons_left_iff]
    constructor
    · rintro ⟨y, hy, ys, hys, h⟩
      exact ⟨y, ys, hy, ih.mp hys, (ok.inj h).symm⟩
    · rintro ⟨y, ys, hy, hys, rfl⟩
      exact ⟨y, hy, ys, ih.mpr hys, rfl⟩

theorem mapM_isOk : (∃ ys, xs.mapM f = .ok ys) ↔ ∀ x ∈ xs, ∃ y, f x = .ok y := by
  simp only [mapM_eq_ok]
  induction xs with
  | nil => simp
  | cons x xs ih =>
    rw [forall_mem_cons, ← ih]
    constructor
    · rintro ⟨_, h⟩
      obtain ⟨y, ys, hy, hys, -⟩ := forall₂_cons_left_iff.mp h
      exact ⟨⟨y, hy⟩, ys, hys⟩
    · rintro ⟨⟨y, hy⟩, ys, hys⟩
      exact ⟨y :: ys, .cons hy hys⟩

theorem mem_of_mapM_eq_ok (h : xs.mapM f = .ok ys) {x : α} (hx : x ∈ xs) :
    ∃ y ∈ ys, f x = .ok y := by
  have hrow := mapM_eq_ok.mp h
  clear h
  induction hrow with
  | nil => cases hx
  | @cons x' y xs ys hy _ ih =>
    rcases mem_cons.mp hx with rfl | hx
    · exact ⟨y, by simp, hy⟩
    · obtain ⟨y', hy', hf⟩ := ih hx
      exact ⟨y', by simp [hy'], hf⟩

@[simp] theorem index_eq_ok {i : Nat} : index xs i = .ok a ↔ xs[i]? = some a := by
  unfold index
  cases h : xs[i]? with
  | none => simp [panicWith]
  | some x => simp

/-- Two calls that end alike, with related values if they return one. -/
inductive Related {α β : Type} (R : α → β → Prop) : Result α → Result β → Prop
  | ok {a b} : R a b → Related R (.ok a) (.ok b)
  | error (f : Fault) : Related R (.error f) (.error f)

theorem Related.bind {γ δ : Type} {R : α → β → Prop} {S : γ → δ → Prop} {y : Result β}
    {f : α → Result γ} {g : β → Result δ} (h : Related R x y)
    (hfg : ∀ a b, R a b → Related S (f a) (g b)) : Related S (x >>= f) (y >>= g) := by
  cases h with
  | ok hab => exact hfg _ _ hab
  | error f => exact .error f

theorem Related.refl (x : Result α) : Related Eq x x := by
  cases x with
  | error f => exact .error f
  | ok a => exact .ok rfl

end Result

variable {α : Type} {x : Result α}

theorem attempt_eq_ok {y : Except GoError α} (h : x.attempt = .ok y) :
    (∃ a, x = .ok a ∧ y = .ok a) ∨ ∃ e, x = .error (.error e) ∧ y = .error e := by
  rcases x with (e | p) | a
  · cases h; exact .inr ⟨e, rfl, rfl⟩
  · cases h
  · cases h; exact .inl ⟨a, rfl, rfl⟩

/-- An answer from a caller that gives up on every error means there was none. -/
theorem attempt_bind_eq_some {β : Type} {f : Except GoError α → Result (Option β)} {b : β}
    (h : x.attempt >>= f = .ok (some b)) (hf : ∀ e, f (.error e) = .ok none) :
    ∃ a, x = .ok a ∧ f (.ok a) = .ok (some b) := by
  obtain ⟨y, hy, hfy⟩ := bind_ok.mp h
  rcases attempt_eq_ok hy with ⟨a, ha, rfl⟩ | ⟨e, -, rfl⟩
  · exact ⟨a, ha, hfy⟩
  · rw [hf e] at hfy
    cases hfy

variable {a : α} {o : Option α} {e : GoError}

theorem toOption_join_eq_some {ε : Type} {x : Except ε (Option α)} :
    x.toOption.join = some a ↔ x = .ok (some a) := by
  cases x with
  | error f => simp [Except.toOption]
  | ok o => cases o <;> simp [Except.toOption]

theorem deref_eq_ok (h : Result.deref o = .ok a) : o = some a := by
  cases o with
  | none => simp [Result.deref, Result.panicWith] at h
  | some b => exact congrArg some (ok.inj h)

theorem ofOption_eq_ok : Result.ofOption e o = .ok a ↔ o = some a := by
  cases o with
  | none => simp [Result.ofOption, Result.fail]
  | some b => simp [Result.ofOption]

theorem attempt_ofOption_isOk {β : Type} {f : Except GoError α → Result β}
    (herr : ∃ b, f (.error e) = .ok b) :
    (∃ b, (Result.ofOption e o).attempt >>= f = .ok b) ↔
      ∀ a, o = some a → ∃ b, f (.ok a) = .ok b := by
  cases o with
  | none => exact iff_of_true herr fun a h => nomatch h
  | some a =>
    constructor
    · intro h a' ha
      cases ha
      exact h
    · intro h
      exact h a rfl

theorem deref_bind_isOk {β : Type} {f : α → Result β} :
    (∃ b, Result.deref o >>= f = .ok b) ↔ ∃ a, o = some a ∧ ∃ b, f a = .ok b := by
  cases o with
  | none =>
    apply iff_of_false
    · intro h
      obtain ⟨b, hb⟩ := h
      cases hb
    · intro h
      obtain ⟨a, ha, -⟩ := h
      cases ha
  | some a =>
    constructor
    · intro h
      exact ⟨a, rfl, h⟩
    · intro h
      obtain ⟨a', ha, hb⟩ := h
      cases ha
      exact hb

end FabricOev.Go
