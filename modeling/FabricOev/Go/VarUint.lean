import FabricOev.Go.Outcome
import FabricOev.Go.Wire

/-!
# Order-preserving numbers

`EncodeOrderPreservingVarUint64` of `common/ledger/util`: the big-endian bytes of a number
without its leading zeros, behind one byte with their count. A number is read back whatever
follows it, and the order of the encodings is that of the numbers.
-/

namespace FabricOev.Go

open List Option UInt64 Nat Wire

def beBytes : Nat → Nat → Bytes
  | 0, _ => []
  | w + 1, n => UInt8.ofNat (n / 256 ^ w) :: beBytes w n

def ofBeBytes (b : Bytes) : Nat := b.foldl (fun n x => n * 256 + x.toNat) 0

def encodeOrderPreservingVarUint64 (n : UInt64) : Bytes :=
  let t := (beBytes 8 n.toNat).dropWhile (· = 0)
  UInt8.ofNat t.length :: t

/-- `DecodeOrderPreservingVarUint64`. A count above 8 and a missing byte are out of range. -/
def decodeOrderPreservingVarUint64 (b : Bytes) : Result (UInt64 × Nat) :=
  let size := ((decodeVarint b).map (·.1)).getD 0
  if 8 < size ∨ b.length < size + 1 then Result.panicWith .indexOutOfRange
  else .ok (ofNat (ofBeBytes ((b.drop 1).take size)), size + 1)

/-! ## Big-endian bytes -/

theorem length_beBytes (w n : Nat) : (beBytes w n).length = w := by
  induction w with
  | zero => rfl
  | succ w ih => rw [beBytes, length_cons, ih]

theorem foldl_beBytes (l : Bytes) (n : Nat) :
    l.foldl (fun n x => n * 256 + x.toNat) n = n * 256 ^ l.length + ofBeBytes l := by
  induction l generalizing n with
  | nil => simp [ofBeBytes]
  | cons x l ih =>
    rw [ofBeBytes, foldl_cons, foldl_cons, ih, ih (0 * 256 + x.toNat), length_cons, pow_succ]
    ring

theorem ofBeBytes_cons (x : UInt8) (l : Bytes) :
    ofBeBytes (x :: l) = x.toNat * 256 ^ l.length + ofBeBytes l := by
  rw [ofBeBytes, foldl_cons, foldl_beBytes]
  simp

theorem ofBeBytes_lt (l : Bytes) : ofBeBytes l < 256 ^ l.length := by
  induction l with
  | nil => simp [ofBeBytes]
  | cons x l ih =>
    have hx : x.toNat < 256 := UInt8.toNat_lt x
    rw [ofBeBytes_cons, length_cons, pow_succ]
    nlinarith

theorem ofBeBytes_beBytes (w n : Nat) : ofBeBytes (beBytes w n) = n % 256 ^ w := by
  induction w with
  | zero => simp [beBytes, ofBeBytes, mod_one]
  | succ w ih =>
    have hsplit : n % 256 ^ (w + 1) = n % 256 ^ w + 256 ^ w * (n / 256 ^ w % 256) := mod_mul
    rw [beBytes, ofBeBytes_cons, length_beBytes, ih, UInt8.toNat_ofNat', hsplit]
    exact (add_comm _ _).trans (congrArg _ (mul_comm _ _))

theorem ofBeBytes_dropWhile (l : Bytes) : ofBeBytes (l.dropWhile (· = 0)) = ofBeBytes l := by
  induction l with
  | nil => rfl
  | cons x l ih =>
    by_cases hx : x = 0
    · rw [dropWhile_cons_of_pos (by simpa using hx), ih, ofBeBytes_cons, hx]
      simp
    · rw [dropWhile_cons_of_neg (by simpa using hx)]

variable {l l' : Bytes}

/-- Bytes of one length compare as their numbers do. -/
theorem lt_iff_ofBeBytes_lt (h : l.length = l'.length) : l < l' ↔ ofBeBytes l < ofBeBytes l' := by
  induction l generalizing l' with
  | nil =>
    obtain rfl := length_eq_zero_iff.mp h.symm
    simp
  | cons x l ih =>
    cases l' with
    | nil => cases h
    | cons y l' =>
      have hlen : l.length = l'.length := succ.inj h
      have hl := ofBeBytes_lt l
      have hl' := ofBeBytes_lt l'
      rw [cons_lt_cons_iff, ih hlen, ofBeBytes_cons, ofBeBytes_cons, hlen,
        UInt8.lt_iff_toNat_lt, ← UInt8.toNat_inj]
      rw [hlen] at hl
      generalize 256 ^ l'.length = p at hl hl' ⊢
      constructor
      · intro hlt
        obtain hlt | ⟨heq, hlt⟩ := hlt
        · nlinarith
        · rw [heq]
          omega
      · intro hlt
        by_cases hxy : x.toNat < y.toNat
        · exact .inl hxy
        · right
          have heq : x.toNat = y.toNat := by
            by_contra hne
            have hgt : y.toNat + 1 ≤ x.toNat := by omega
            nlinarith
          rw [heq] at hlt
          exact ⟨heq, by omega⟩

theorem append_lt_append (hlen : l.length = l'.length) (h : l < l') (a b : Bytes) :
    l ++ a < l' ++ b := by
  induction l generalizing l' with
  | nil =>
    obtain rfl := length_eq_zero_iff.mp hlen.symm
    exact absurd h (not_lt_nil _)
  | cons x l ih =>
    cases l' with
    | nil => cases hlen
    | cons y l' =>
      rw [cons_append, cons_append, cons_lt_cons_iff]
      rw [cons_lt_cons_iff] at h
      obtain h | ⟨heq, h⟩ := h
      · exact .inl h
      · exact .inr ⟨heq, ih (succ.inj hlen) h⟩

section Encode

variable (n : UInt64)

def significantBytes : Bytes := (beBytes 8 n.toNat).dropWhile (· = 0)

theorem encode_eq : encodeOrderPreservingVarUint64 n =
    UInt8.ofNat (significantBytes n).length :: significantBytes n := rfl

theorem length_significantBytes : (significantBytes n).length ≤ 8 :=
  ((dropWhile_suffix _).length_le).trans_eq (length_beBytes 8 _)

theorem ofBeBytes_significant : ofBeBytes (significantBytes n) = n.toNat := by
  rw [significantBytes, ofBeBytes_dropWhile, ofBeBytes_beBytes]
  exact mod_eq_of_lt (toNat_lt n)

theorem toNat_count :
    (UInt8.ofNat (significantBytes n).length).toNat = (significantBytes n).length := by
  have := length_significantBytes n
  rw [UInt8.toNat_ofNat']
  omega

theorem length_encode :
    (encodeOrderPreservingVarUint64 n).length = (significantBytes n).length + 1 := by
  rw [encode_eq, length_cons]

theorem decode_encode (rest : Bytes) :
    decodeOrderPreservingVarUint64 (encodeOrderPreservingVarUint64 n ++ rest) =
      .ok (n, (encodeOrderPreservingVarUint64 n).length) := by
  have hlen := length_significantBytes n
  have hcount := toNat_count n
  have hsize : decodeVarint (encodeOrderPreservingVarUint64 n ++ rest) =
      some ((significantBytes n).length, significantBytes n ++ rest) := by
    have hone : encodeOrderPreservingVarUint64 n ++ rest =
        encodeVarint (significantBytes n).length ++ (significantBytes n ++ rest) := by
      rw [encode_eq, encodeVarint, encodeVarintLoop, if_pos (by omega)]
      rfl
    rw [hone]
    exact decode_encodeVarint (by omega) _
  have hbounds : ¬ (8 < (significantBytes n).length ∨
      (encodeOrderPreservingVarUint64 n ++ rest).length < (significantBytes n).length + 1) := by
    rw [length_append, length_encode]
    omega
  have htake : ((encodeOrderPreservingVarUint64 n ++ rest).drop 1).take
      (significantBytes n).length = significantBytes n := by
    rw [encode_eq]
    simp
  rw [decodeOrderPreservingVarUint64, hsize]
  simp only [map_some, getD_some, if_neg hbounds, htake,
    ofBeBytes_significant, UInt64.ofNat_toNat, length_encode]

end Encode

theorem encode_append_inj {n m : UInt64} {a b : Bytes}
    (h : encodeOrderPreservingVarUint64 n ++ a = encodeOrderPreservingVarUint64 m ++ b) :
    n = m ∧ a = b := by
  have hn := decode_encode n a
  rw [h, decode_encode m b] at hn
  cases hn
  exact ⟨rfl, append_cancel_left h⟩

theorem head_significantBytes_ne {n : UInt64} {x : UInt8} {l : Bytes}
    (h : significantBytes n = x :: l) : x ≠ 0 := by
  have hne : significantBytes n ≠ [] := by simp [h]
  have hhead := head_dropWhile_not (fun b : UInt8 => decide (b = 0)) hne
  have hhead' : (significantBytes n).head hne = x := by simp [h]
  rw [← hhead']
  exact of_decide_eq_false hhead

theorem length_significantBytes_le {n m : UInt64} (h : n ≤ m) :
    (significantBytes n).length ≤ (significantBytes m).length := by
  cases hn : significantBytes n with
  | nil => simp
  | cons x l =>
    have hx : x ≠ 0 := head_significantBytes_ne hn
    have hpos : 1 ≤ x.toNat := by
      by_contra hzero
      apply hx
      rw [← UInt8.toNat_inj]
      simp
      omega
    have hval := ofBeBytes_significant n
    rw [hn, ofBeBytes_cons] at hval
    have hm := ofBeBytes_lt (significantBytes m)
    rw [ofBeBytes_significant] at hm
    have hle : n.toNat ≤ m.toNat := le_iff_toNat_le.mp h
    by_contra hlt
    rw [length_cons, not_le, Nat.lt_succ_iff] at hlt
    have hpow : 256 ^ (significantBytes m).length ≤ 256 ^ l.length :=
      Nat.pow_le_pow_right (by omega) hlt
    nlinarith

theorem encode_lt_encode {n m : UInt64} (h : n < m) (a b : Bytes) :
    encodeOrderPreservingVarUint64 n ++ a < encodeOrderPreservingVarUint64 m ++ b := by
  have hle := length_significantBytes_le (UInt64.le_of_lt h)
  rw [encode_eq, encode_eq, cons_append, cons_append, cons_lt_cons_iff,
    UInt8.lt_iff_toNat_lt, toNat_count, toNat_count]
  by_cases hlen : (significantBytes n).length = (significantBytes m).length
  · refine .inr ⟨by rw [hlen], ?_⟩
    have hlt : significantBytes n < significantBytes m := by
      rw [lt_iff_ofBeBytes_lt hlen, ofBeBytes_significant, ofBeBytes_significant]
      exact lt_iff_toNat_lt.mp h
    exact append_lt_append hlen hlt a b
  · exact .inl (by omega)

theorem encode_append_lt_iff {n m : UInt64} {a b : Bytes} :
    encodeOrderPreservingVarUint64 n ++ a < encodeOrderPreservingVarUint64 m ++ b ↔
      n < m ∨ n = m ∧ a < b := by
  by_cases hlt : n < m
  · exact iff_of_true (encode_lt_encode hlt a b) (.inl hlt)
  · by_cases heq : n = m
    · subst heq
      rw [or_iff_right hlt, eq_self, true_and]
      induction encodeOrderPreservingVarUint64 n with
      | nil => rfl
      | cons x l ih => simpa [cons_lt_cons_iff] using ih
    · have hgt : m < n := by
        have hne := mt UInt64.toNat_inj.mp heq
        rw [lt_iff_toNat_lt] at hlt ⊢
        omega
      exact iff_of_false (List.lt_asymm (encode_lt_encode hgt b a)) (by simp [hlt, heq])

theorem encode_lt_iff {n m : UInt64} :
    encodeOrderPreservingVarUint64 n < encodeOrderPreservingVarUint64 m ↔ n < m := by
  simpa [lt_irrefl] using @encode_append_lt_iff n m [] []

end FabricOev.Go
