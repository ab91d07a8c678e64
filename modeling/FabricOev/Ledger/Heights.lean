import FabricOev.Ledger.StateLevelDb

/-!
# Heights

`version.Height` as bytes, and compared. The bytes of heights are ordered as block and
transaction numbers are. `Compare` reads the difference of two `uint64` as an `int` and takes
its sign, which is that order only for numbers less than `2 ^ 63` apart.
-/

namespace FabricOev.Ledger

open Go UInt64

def Height.Before (h h1 : Height) : Prop :=
  h.blockNum < h1.blockNum ∨ h.blockNum = h1.blockNum ∧ h.txNum < h1.txNum

instance (h h1 : Height) : Decidable (h.Before h1) := inferInstanceAs (Decidable (_ ∨ _))

/-- Numbers are read back whatever follows them, and order and values survive the encoding. -/
theorem heights_encoded_faithfully (a b : UInt64) (r : Bytes) (h h1 : Height) (v : Bytes) :
    decodeOrderPreservingVarUint64 (encodeOrderPreservingVarUint64 a ++ r) =
        .ok (a, (encodeOrderPreservingVarUint64 a).length) ∧
      (encodeOrderPreservingVarUint64 a < encodeOrderPreservingVarUint64 b ↔ a < b) ∧
      (h.toBytes < h1.toBytes ↔ h.Before h1) ∧
      decodeValue (encodeValue v h) = .ok ⟨v, h⟩ := by
  refine ⟨decode_encode a r, encode_lt_iff, encode_append_lt_iff.trans ?_,
    decode_encodeValue v h⟩
  rw [encode_lt_iff, Height.Before]

def signOf (res : UInt64) : Int := if 0 < res.toInt64 then 1 else -1

def Height.compare (h h1 : Height) : Int :=
  if h.blockNum ≠ h1.blockNum then signOf (h.blockNum - h1.blockNum)
  else if h.txNum ≠ h1.txNum then signOf (h.txNum - h1.txNum)
  else 0

/-- `AreSame`, as it is computed. -/
def Height.areSame : Option Height → Option Height → Bool
  | none, h2 => h2.isNone
  | some _, none => false
  | some h1, some h2 => h1.compare h2 = 0

/-- The number of a height that decides its comparison with another one. -/
def Height.decisive (h h1 : Height) : UInt64 :=
  if h.blockNum = h1.blockNum then h.txNum else h.blockNum

/-- `Compare` is the order of the numbers, antisymmetric and transitive; `AreSame` is equality. -/
structure Height.Ordered (S : Set Height) : Prop where
  lexicographic : ∀ h ∈ S, ∀ h1 ∈ S,
    h.compare h1 = if h.Before h1 then -1 else if h = h1 then 0 else 1
  antisymmetric : ∀ h ∈ S, ∀ h1 ∈ S, h.compare h1 = -h1.compare h
  transitive : ∀ h ∈ S, ∀ h1 ∈ S, ∀ h2 ∈ S, h.compare h1 ≤ 0 → h1.compare h2 ≤ 0 → h.compare h2 ≤ 0
  same : ∀ h h1 : Option Height, Height.areSame h h1 = true ↔ h = h1

theorem signOf_sub_eq_iff (a b : UInt64) :
    (if a ≠ b then signOf (a - b) else 0) = (if a < b then -1 else if a = b then 0 else 1) ↔
      a.toNat < b.toNat + 2 ^ 63 ∧ b.toNat ≤ a.toNat + 2 ^ 63 := by
  have ha := a.toNat_lt
  have hb := b.toNat_lt
  have hpos : 0 < (a - b).toInt64 ↔
      0 < (2 ^ 64 - b.toNat + a.toNat) % 2 ^ 64 ∧ (2 ^ 64 - b.toNat + a.toNat) % 2 ^ 64 < 2 ^ 63 := by
    rw [Int64.lt_iff_toInt_lt, ← Int64.toInt_toBitVec (a - b).toInt64, toBitVec_toInt64,
      BitVec.toInt_eq_toNat_cond, UInt64.toNat_toBitVec, UInt64.toNat_sub, Int64.toInt_zero]
    split <;> omega
  simp only [signOf, hpos, UInt64.lt_iff_toNat_lt, ne_eq, ← UInt64.toNat_inj]
  constructor
  · intro hs
    split_ifs at hs <;> omega
  · intro hs
    split_ifs <;> omega

namespace Height

/-- One comparison is right exactly if the numbers that decide are near. -/
theorem compare_eq_iff (h h1 : Height) :
    h.compare h1 = (if h.Before h1 then -1 else if h = h1 then 0 else 1) ↔
      (h.decisive h1).toNat < (h1.decisive h).toNat + 2 ^ 63 ∧
        (h1.decisive h).toNat ≤ (h.decisive h1).toNat + 2 ^ 63 := by
  obtain ⟨b, t⟩ := h
  obtain ⟨b1, t1⟩ := h1
  by_cases heq : b = b1
  · simpa [compare, Before, decisive, heq, lt_irrefl] using signOf_sub_eq_iff t t1
  · simpa [compare, Before, decisive, heq, Ne.symm heq] using signOf_sub_eq_iff b b1

theorem areSame_iff (h h1 : Option Height) : areSame h h1 = true ↔ h = h1 := by
  have hsign : ∀ res, signOf res ≠ 0 := by
    intro res
    unfold signOf
    split <;> decide
  match h, h1 with
  | none, h1 => cases h1 <;> simp [areSame]
  | some h, none => simp [areSame]
  | some ⟨b, t⟩, some ⟨b1, t1⟩ =>
    by_cases heq : b = b1
    · simp [areSame, compare, heq, hsign]
    · simp [areSame, compare, heq, hsign]

/-- The comparison of some heights is a total order exactly if the numbers that decide are less
than `2 ^ 63` apart. -/
theorem ordered_iff (S : Set Height) :
    Ordered S ↔ ∀ h ∈ S, ∀ h1 ∈ S, (h.decisive h1).toNat < (h1.decisive h).toNat + 2 ^ 63 := by
  constructor
  · intro hS h hh h1 hh1
    exact ((compare_eq_iff h h1).mp (hS.lexicographic h hh h1 hh1)).1
  · intro hnear
    have hlex : ∀ h ∈ S, ∀ h1 ∈ S,
        h.compare h1 = if h.Before h1 then -1 else if h = h1 then 0 else 1 := fun h hh h1 hh1 =>
      (compare_eq_iff h h1).mpr ⟨hnear h hh h1 hh1, (hnear h1 hh1 h hh).le⟩
    refine ⟨hlex, ?_, ?_, areSame_iff⟩
    · intro ⟨b, t⟩ hh ⟨b1, t1⟩ hh1
      rw [hlex _ hh _ hh1, hlex _ hh1 _ hh]
      simp only [Before, mk.injEq, UInt64.lt_iff_toNat_lt, ← UInt64.toNat_inj]
      split_ifs <;> omega
    · intro ⟨b, t⟩ hh ⟨b1, t1⟩ hh1 ⟨b2, t2⟩ hh2
      rw [hlex _ hh _ hh1, hlex _ hh1 _ hh2, hlex _ hh _ hh2]
      simp only [Before, mk.injEq, UInt64.lt_iff_toNat_lt, ← UInt64.toNat_inj]
      split_ifs <;> omega

/-- The height of the adapter for an empty block, and the first one of that block. -/
theorem greatest_tx_compares_less :
    let h : Height := ⟨5, ofNat 0 - 1⟩
    let h1 : Height := ⟨5, 0⟩
    h1.Before h ∧ h.compare h1 = -1 ∧ ¬ Ordered {h, h1} := by
  intro h h1
  refine ⟨by decide, by decide, fun hS => ?_⟩
  have hlex := hS.lexicographic h (by simp) h1 (by simp)
  revert hlex
  decide

end Height

end FabricOev.Ledger
