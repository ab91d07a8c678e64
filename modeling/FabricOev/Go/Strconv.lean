import FabricOev.Go.Text

/-!
# Decimal integers

`strconv.ParseInt(s, 10, 64)` and `strconv.FormatInt(i, 10)`. Arithmetic of the
parser is on natural numbers with the overflow test of the source made explicit,
so a literal out of the range of `int64` is an error and never wraps.
-/

namespace FabricOev.Go

open Nat List Int64

/-- `strconv.ErrSyntax` and `strconv.ErrRange`. -/
inductive NumError where
  | malformed
  | outOfRange
deriving DecidableEq, Repr

def isDigit (c : UInt8) : Bool := 0x30 ≤ c && c ≤ 0x39

/-- The loop of `strconv.ParseUint`. The digit test of a byte comes before its
overflow test. -/
def parseUintLoop : Bytes → Nat → Except NumError Nat
  | [], n => .ok n
  | c :: t, n =>
    if isDigit c then
      if n * 10 + (c.toNat - 48) < 2 ^ 64 then parseUintLoop t (n * 10 + (c.toNat - 48))
      else .error .outOfRange
    else .error .malformed

def parseUint (s : GoString) : Except NumError Nat :=
  if s = [] then .error .malformed else parseUintLoop s 0

def splitSign : GoString → Bool × GoString
  | [] => (false, [])
  | c :: t => if c = 0x2B then (false, t) else if c = 0x2D then (true, t) else (false, c :: t)

def parseInt (s : GoString) : Except NumError Int64 :=
  let (neg, digits) := splitSign s
  match parseUint digits with
  | .error e => .error e
  | .ok un =>
    if neg = false ∧ 2 ^ 63 ≤ un then .error .outOfRange
    else if neg = true ∧ 2 ^ 63 < un then .error .outOfRange
    else .ok (ofInt (if neg then -un else un))

def digitByte (d : Nat) : UInt8 := UInt8.ofNat (48 + d)

def formatNat (n : Nat) : GoString :=
  if n = 0 then [0x30] else (digits 10 n).reverse.map digitByte

def formatInt (i : Int64) : GoString :=
  if i.toInt < 0 then 0x2D :: formatNat i.toInt.natAbs else formatNat i.toInt.natAbs

theorem digitByte_toNat {d : Nat} (h : d < 10) : (digitByte d).toNat = 48 + d := by
  simp only [digitByte, UInt8.toNat_ofNat']
  omega

theorem isDigit_iff {c : UInt8} : isDigit c = true ↔ 48 ≤ c.toNat ∧ c.toNat ≤ 57 := by
  simp [isDigit, UInt8.le_iff_toNat_le]

theorem isDigit_digitByte {d : Nat} (h : d < 10) : isDigit (digitByte d) = true := by
  rw [isDigit_iff, digitByte_toNat h]
  omega

variable (n : Nat)

theorem formatNat_ne_nil : formatNat n ≠ [] := by
  unfold formatNat
  split
  · simp
  · rename_i h
    simpa [digits_eq_nil_iff_eq_zero] using h

theorem formatNat_digits : ∀ c ∈ formatNat n, isDigit c = true := by
  unfold formatNat
  split
  · simp only [mem_singleton, forall_eq]
    rfl
  · simp only [mem_map, mem_reverse]
    rintro c ⟨d, hd, rfl⟩
    exact isDigit_digitByte (digits_lt_base (by omega) hd)

/-- The accumulator never exceeds the value of the whole list of digits. -/
theorem parseUintLoop_digits {ds : List Nat} (hd : ∀ d ∈ ds, d < 10) :
    ∀ {n : Nat}, ds.foldl (fun a d => a * 10 + d) n < 2 ^ 64 →
      parseUintLoop (ds.map digitByte) n = .ok (ds.foldl (fun a d => a * 10 + d) n) := by
  induction ds with
  | nil => intro n _; rfl
  | cons d ds ih =>
    intro n hn
    have hd0 := hd d (by simp)
    have hmono : ∀ (l : List Nat) (a : Nat), a ≤ l.foldl (fun a d => a * 10 + d) a := by
      intro l
      induction l with
      | nil => intro a; exact le_refl a
      | cons x l ih => intro a; exact le_trans (by omega) (ih (a * 10 + x))
    have hle := hmono ds (n * 10 + d)
    simp only [map_cons, parseUintLoop, isDigit_digitByte hd0, digitByte_toNat hd0,
      foldl_cons, Nat.add_sub_cancel_left, ↓reduceIte] at hn ⊢
    rw [if_pos (lt_of_le_of_lt hle hn)]
    exact ih (fun e he => hd e (by simp [he])) hn

theorem foldl_digits : (digits 10 n).reverse.foldl (fun a d => a * 10 + d) 0 = n := by
  have h := ofDigits_digits 10 n
  rw [ofDigits_eq_foldr] at h
  simpa [add_comm, mul_comm] using h

theorem parseUint_formatNat {n : Nat} (h : n < 2 ^ 64) : parseUint (formatNat n) = .ok n := by
  rw [parseUint, if_neg (formatNat_ne_nil n)]
  by_cases hn : n = 0
  · subst hn; rfl
  · rw [formatNat, if_neg hn, parseUintLoop_digits, foldl_digits]
    · intro d hd
      exact digits_lt_base (by omega) (mem_reverse.mp hd)
    · rwa [foldl_digits]

theorem splitSign_formatNat : splitSign (formatNat n) = (false, formatNat n) := by
  have hd := formatNat_digits n
  cases hf : formatNat n with
  | nil => exact absurd hf (formatNat_ne_nil n)
  | cons c t =>
    have hc := isDigit_iff.mp (hd c (by simp [hf]))
    rw [splitSign, if_neg, if_neg]
    · rintro rfl; simp at hc
    · rintro rfl; simp at hc

theorem parseInt_formatInt (i : Int64) : parseInt (formatInt i) = .ok i := by
  have hlt := i.toInt_lt
  have hle := i.le_toInt
  have hback : ∀ k : Int, k = i.toInt → ofInt k = i := by
    rintro k rfl
    exact ofInt_toInt i
  unfold formatInt
  split
  · have hn : i.toInt.natAbs < 2 ^ 64 := by omega
    simp only [parseInt, splitSign, show (0x2D : UInt8) ≠ 0x2B by decide, ↓reduceIte,
      parseUint_formatNat hn]
    rw [if_neg (by simp), if_neg (by omega), hback _ (by omega)]
  · have hn : i.toInt.natAbs < 2 ^ 64 := by omega
    simp only [parseInt, splitSign_formatNat, parseUint_formatNat hn]
    rw [if_neg (by omega), if_neg (by simp)]
    simp only [Bool.false_eq_true, ↓reduceIte]
    rw [hback _ (by omega)]

end FabricOev.Go
