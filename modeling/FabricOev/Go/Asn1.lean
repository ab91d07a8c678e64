import FabricOev.Go.VarUint

/-!
# Sequences of two integers in ASN.1

`Marshal` and `Unmarshal` of `encoding/asn1` for a structure of two `*big.Int`, which is how a
signature is written. The reader insists on the shortest form of lengths and integers, but takes
further bytes behind the second integer of the sequence, and returns those behind the sequence.
-/

namespace FabricOev.Go.Asn1

open List Nat

def sequenceTag : UInt8 := 0x30

def integerTag : UInt8 := 0x02

/-! ## Writing -/

/-- As few big-endian bytes as the number takes, one for zero. -/
def minimalBytes (n : Nat) : Bytes := beBytes (n.log2 / 8 + 1) n

/-- `appendTagAndLength` behind the tag. -/
def lengthBytes (n : Nat) : Bytes :=
  if n < 128 then [UInt8.ofNat n]
  else UInt8.ofNat (128 + (minimalBytes n).length) :: minimalBytes n

def field (tag : UInt8) (content : Bytes) : Bytes :=
  tag :: (lengthBytes content.length ++ content)

/-- A zero in front keeps the number from looking negative. -/
def makeBigInt (n : Nat) : Bytes :=
  match minimalBytes n with
  | b :: t => if 128 ≤ b.toNat then 0 :: b :: t else b :: t
  | [] => []

def marshal (r s : Nat) : Bytes :=
  field sequenceTag (field integerTag (makeBigInt r) ++ field integerTag (makeBigInt s))

/-! ## Reading -/

/-- The `numBytes` bytes of a long length that are left, with `length` read so far. -/
def parseLength : Nat → Nat → Bytes → Option (Nat × Bytes)
  | 0, length, bs => if length < 128 then none else some (length, bs)
  | _ + 1, _, [] => none
  | numBytes + 1, length, b :: bs =>
    if 2 ^ 23 ≤ length ∨ length * 256 + b.toNat = 0 then none
    else parseLength numBytes (length * 256 + b.toNat) bs

/-- `parseTagAndLength`; there is no way to write these two tags with more than one byte. -/
def parseTagAndLength (tag : UInt8) : Bytes → Option (Nat × Bytes)
  | t :: b :: bs =>
    if t ≠ tag then none
    else if b.toNat < 128 then some (b.toNat, bs)
    else if b.toNat = 128 then none
    else parseLength (b.toNat - 128) 0 bs
  | _ => none

/-- The contents of a field, and what is behind it. -/
def parseField (tag : UInt8) (bs : Bytes) : Option (Bytes × Bytes) := do
  let (length, bs) ← parseTagAndLength tag bs
  if bs.length < length then none else some (bs.take length, bs.drop length)

def checkInteger : Bytes → Bool
  | [] => false
  | [_] => true
  | b :: c :: _ => ¬ (b.toNat = 0 ∧ c.toNat < 128) ∧ ¬ (b.toNat = 255 ∧ 128 ≤ c.toNat)

def parseBigInt (bs : Bytes) : Option Int :=
  if checkInteger bs then
    match bs with
    | b :: _ =>
      if 128 ≤ b.toNat then some (-(ofBeBytes (bs.map (~~~ ·)) + 1)) else some (ofBeBytes bs)
    | [] => none
  else none

/-- The two integers and the bytes behind the sequence. -/
def unmarshal (bs : Bytes) : Option ((Int × Int) × Bytes) := do
  let (inner, rest) ← parseField sequenceTag bs
  let (r, inner) ← parseField integerTag inner
  let r ← parseBigInt r
  let (s, _) ← parseField integerTag inner
  let s ← parseBigInt s
  some ((r, s), rest)

/-! ## What is written is read -/

variable {n r s : Nat}

theorem parseField_field {tag : UInt8} {content : Bytes} (h : content.length < 128) (rest : Bytes) :
    parseField tag (field tag content ++ rest) = some (content, rest) := by
  have hlength : (UInt8.ofNat content.length).toNat = content.length := by
    rw [UInt8.toNat_ofNat', mod_eq_of_lt (by omega)]
  have htag : parseTagAndLength tag (field tag content ++ rest) =
      some (content.length, content ++ rest) := by
    rw [field, lengthBytes, if_pos h]
    show (if tag ≠ tag then none else _) = _
    rw [if_neg (not_not.mpr rfl), hlength, if_pos h]
    rfl
  rw [parseField, htag]
  show (if (content ++ rest).length < content.length then none else _) = _
  rw [if_neg (by simp), take_left, drop_left]

theorem lt_pow_minimal (n : Nat) : n < 256 ^ (n.log2 / 8 + 1) := by
  have hlog : n < 2 ^ (n.log2 + 1) := lt_log2_self
  refine hlog.trans_le ?_
  rw [show (256 : Nat) = 2 ^ 8 from rfl, ← pow_mul]
  exact Nat.pow_le_pow_right two_pos (by omega)

theorem ofBeBytes_minimal (n : Nat) : ofBeBytes (minimalBytes n) = n := by
  rw [minimalBytes, ofBeBytes_beBytes, mod_eq_of_lt (lt_pow_minimal n)]

/-- The first byte is not zero if there is another one. -/
theorem minimalBytes_cases (n : Nat) :
    ∃ b t, minimalBytes n = b :: t ∧ (t = [] ∨ 0 < b.toNat) := by
  refine ⟨_, _, rfl, ?_⟩
  by_cases hw : n.log2 / 8 = 0
  · left
    rw [hw]
    rfl
  · right
    have hpow : 256 ^ (n.log2 / 8) ≤ n := by
      have hn : n ≠ 0 := by
        rintro rfl
        exact hw (by simp)
      refine le_trans ?_ (log2_self_le hn)
      rw [show (256 : Nat) = 2 ^ 8 from rfl, ← pow_mul]
      exact Nat.pow_le_pow_right two_pos (by omega)
    have hlt : n / 256 ^ (n.log2 / 8) < 256 := by
      have := lt_pow_minimal n
      rw [pow_succ] at this
      exact Nat.div_lt_of_lt_mul this
    rw [UInt8.toNat_ofNat', mod_eq_of_lt hlt]
    exact div_pos hpow (pow_pos (by decide) _)

theorem parseBigInt_make (n : Nat) : parseBigInt (makeBigInt n) = some (n : Int) := by
  obtain ⟨b, t, hbytes, hfirst⟩ := minimalBytes_cases n
  have hvalue := ofBeBytes_minimal n
  rw [hbytes] at hvalue
  rw [makeBigInt, hbytes]
  dsimp only
  split
  · rename_i hhigh
    have hvalid : checkInteger (0 :: b :: t) = true := by
      simp [checkInteger]
      omega
    rw [parseBigInt, if_pos hvalid, ← hvalue, ofBeBytes_cons 0]
    simp
  · rename_i hlow
    have hvalid : checkInteger (b :: t) = true := by
      cases t with
      | nil => rfl
      | cons c t =>
        have := hfirst.resolve_left (cons_ne_nil _ _)
        simp [checkInteger]
        omega
    rw [parseBigInt, if_pos hvalid]
    show (if 128 ≤ b.toNat then _ else _) = _
    rw [if_neg hlow, hvalue]

theorem length_makeBigInt (h : n < 2 ^ 384) : (makeBigInt n).length ≤ 49 := by
  have hbytes : (minimalBytes n).length ≤ 48 := by
    rw [minimalBytes, length_beBytes]
    by_cases hn : n = 0
    · subst hn
      decide
    · have := (log2_lt hn).mpr h
      omega
  rw [makeBigInt]
  split
  · rename_i b t heq
    rw [heq] at hbytes
    split <;> simp only [length_cons] at hbytes ⊢ <;> omega
  · simp

theorem length_field {tag : UInt8} {content : Bytes} (h : content.length < 128) :
    (field tag content).length = content.length + 2 := by
  rw [field, lengthBytes, if_pos h]
  simp

/-- Numbers of up to 384 bits are read back, whatever follows them. -/
theorem unmarshal_marshal (hr : r < 2 ^ 384) (hs : s < 2 ^ 384) (rest : Bytes) :
    unmarshal (marshal r s ++ rest) = some (((r : Int), (s : Int)), rest) := by
  have hrlen := length_makeBigInt hr
  have hslen := length_makeBigInt hs
  have hr128 : (makeBigInt r).length < 128 := by omega
  have hs128 : (makeBigInt s).length < 128 := by omega
  have hlen :
      (field integerTag (makeBigInt r) ++ field integerTag (makeBigInt s)).length < 128 := by
    rw [length_append, length_field hr128, length_field hs128]
    omega
  have hsecond := @parseField_field integerTag _ hs128 []
  rw [append_nil] at hsecond
  rw [unmarshal, marshal, parseField_field hlen]
  simp [parseField_field hr128, parseBigInt_make, hsecond]

end FabricOev.Go.Asn1
