import FabricOev.Go.Asn1
import FabricOev.Go.Sha256

/-!
# ECDSA signatures

`signECDSA` and `verifyECDSA` of the software provider. Of the two signatures `(r, s)` and
`(r, N - s)` that a key has for a digest, only the one with the low `s` is accepted, but in more
than one encoding. The arithmetic on the curve is a parameter with the laws that are used of it,
and is carried out for one signature on P-256.
-/

namespace FabricOev.Bccsp

open Go Result List

inductive Curve where
  | p224 | p256 | p384 | p521
  | other (n : Nat)

/-- `Params().N` -/
def Curve.order : Curve → Nat
  | .p224 => 0xffffffffffffffffffffffffffff16a2e0b8f03e13dd29455c5c2a3d
  | .p256 => 0xffffffff00000000ffffffffffffffffbce6faada7179e84f3b9cac2fc632551
  | .p384 => 2 ^ 384 - 0x389cb27e0bc8d220a7e5f24db74f58851313e695333ad68d
  | .p521 => 2 ^ 521 - 0x5ae79787c40d069948033feb708f65a2fc44a36477663b851449048e16ec79bf7
  | .other n => n

def curveHalfOrders : Curve → Option Nat
  | .other _ => none
  | curve => some (curve.order / 2)

/-- A key pair with `ecdsa.Sign`, which draws random bytes, and `ecdsa.Verify`. -/
structure Key where
  curve : Curve
  sign : Bytes → Bytes → Result (Int × Int)
  verify : Bytes → Int → Int → Bool

/-- The ECDSA of the curve is correct. -/
structure Key.Lawful (k : Key) : Prop where
  range : ∀ {digest r s}, k.verify digest r s = true →
    0 < r ∧ r < k.curve.order ∧ 0 < s ∧ s < k.curve.order
  neg : ∀ {digest r s}, k.verify digest r s = true → k.verify digest r (k.curve.order - s) = true
  signed : ∀ {random digest r s}, k.sign random digest = .ok (r, s) → k.verify digest r s = true

/-- `asn1.Marshal` of the pair, which is not negative. -/
def marshalECDSASignature (r s : Int) : Bytes := Asn1.marshal r.toNat s.toNat

def unmarshalError {α : Type} : GoError → Result α
  | .text msg => fail (.text (str "Failed unmashalling signature [" ++ msg ++ str "]"))
  | e => fail e

/-- The rest behind the value is not looked at. -/
def unmarshalECDSASignature (raw : Bytes) : Result (Int × Int) :=
  match Asn1.unmarshal raw with
  | none => unmarshalError (.text [])
  | some ((r, s), _) =>
    if r.sign ≠ 1 then errorf "Invalid signature. R must be larger than zero"
    else if s.sign ≠ 1 then errorf "Invalid signature. S must be larger than zero"
    else .ok (r, s)

variable (k : Key)

/-- The error does not name the curve here. -/
def isLowS (s : Int) : Result Bool :=
  match curveHalfOrders k.curve with
  | none => errorf "Curve not recognized"
  | some halfOrder => .ok (s ≤ halfOrder)

def toLowS (s : Int) : Result (Int × Bool) := do
  let lowS ← isLowS k s
  if lowS then .ok (s, false) else .ok (k.curve.order - s, true)

def signECDSA (random digest : Bytes) : Result Bytes := do
  let (r, s) ← k.sign random digest
  let (s, _) ← toLowS k s
  .ok (marshalECDSASignature r s)

def verifyECDSA (signature digest : Bytes) : Result Bool := do
  match ← (unmarshalECDSASignature signature).attempt with
  | .error e => unmarshalError e
  | .ok (r, s) =>
    let lowS ← isLowS k s
    if lowS then .ok (k.verify digest r s)
    else fail (.text (str "Invalid S. Must be smaller than half the order [" ++
      formatNat s.toNat ++ str "][" ++ formatNat (k.curve.order / 2) ++ str "]."))

/-! ## What is accepted -/

/-- The bytes are accepted, and `r` and `s` are what they are read as. -/
def Accepts (digest signature : Bytes) (r s : Int) : Prop :=
  verifyECDSA k signature digest = .ok true ∧ unmarshalECDSASignature signature = .ok (r, s)

def OneEncoding (digest : Bytes) : Prop :=
  ∀ r s, (∃ signature, Accepts k digest signature r s) →
    ∃! signature, Accepts k digest signature r s

variable {k} {digest signature : Bytes} {r s : Int}

theorem sign_eq_one (h : 0 < r) : ¬ r.sign ≠ 1 := not_not.mpr (Int.sign_eq_one_of_pos h)

theorem unmarshal_marshal (hr : 0 < r ∧ r < 2 ^ 384) (hs : 0 < s ∧ s < 2 ^ 384) (rest : Bytes) :
    unmarshalECDSASignature (marshalECDSASignature r s ++ rest) = .ok (r, s) := by
  have hread : Asn1.unmarshal (marshalECDSASignature r s ++ rest) = some ((r, s), rest) := by
    rw [marshalECDSASignature, Asn1.unmarshal_marshal (by omega) (by omega),
      Int.toNat_of_nonneg hr.1.le, Int.toNat_of_nonneg hs.1.le]
  rw [unmarshalECDSASignature, hread]
  dsimp only
  rw [if_neg (sign_eq_one hr.1), if_neg (sign_eq_one hs.1)]

/-- Signatures are accepted for what they are read as: valid ones with a low `s`. -/
theorem verify_iff (h : unmarshalECDSASignature signature = .ok (r, s)) :
    verifyECDSA k signature digest = .ok true ↔
      isLowS k s = .ok true ∧ k.verify digest r s = true := by
  rw [verifyECDSA, h]
  show (isLowS k s >>= _) = _ ↔ _
  rw [bind_ok]
  constructor
  · intro hv
    obtain ⟨lowS, hlow, hv⟩ := hv
    cases lowS with
    | false => cases hv
    | true => exact ⟨hlow, Except.ok.inj hv⟩
  · intro hv
    exact ⟨true, hv.1, congrArg _ hv.2⟩

section Known

variable (hk : k.curve = .p256 ∨ k.curve = .p384)
include hk

/-- The order is odd and has at most 384 bits. -/
theorem known_order : curveHalfOrders k.curve = some (k.curve.order / 2) ∧
    k.curve.order % 2 = 1 ∧ k.curve.order < 2 ^ 384 := by
  rcases hk with h | h
  · rw [h]
    decide +kernel
  · rw [h]
    decide +kernel

/-- One of `s` and `N - s` is low. -/
theorem isLowS_neg : isLowS k (k.curve.order - s) = .ok true ↔ ¬ isLowS k s = .ok true := by
  obtain ⟨hhalf, hodd, -⟩ := known_order hk
  rw [isLowS, isLowS, hhalf]
  simp only [Except.ok.injEq, decide_eq_true_eq]
  omega

variable (hl : k.Lawful)
include hl

theorem accepts_marshal (h : isLowS k s = .ok true ∧ k.verify digest r s = true) (rest : Bytes) :
    Accepts k digest (marshalECDSASignature r s ++ rest) r s := by
  obtain ⟨hr, hrN, hs, hsN⟩ := hl.range h.2
  obtain ⟨-, -, horder⟩ := known_order hk
  have hread : unmarshalECDSASignature (marshalECDSASignature r s ++ rest) = .ok (r, s) :=
    unmarshal_marshal ⟨hr, by omega⟩ ⟨hs, by omega⟩ rest
  exact ⟨(verify_iff hread).mpr h, hread⟩

/-- A pair is accepted in some encoding if it is in its own, whatever stands behind it. -/
theorem accepts_iff :
    (∃ signature, Accepts k digest signature r s) ↔
      isLowS k s = .ok true ∧ k.verify digest r s = true := by
  constructor
  · intro h
    obtain ⟨signature, hv, hread⟩ := h
    exact (verify_iff hread).mp hv
  · intro h
    exact ⟨_, accepts_marshal hk hl h []⟩

/-- Of a valid signature, the one with the low `s`. -/
theorem low_of_verify (h : k.verify digest r s = true) :
    ∃ s', isLowS k s' = .ok true ∧ k.verify digest r s' = true := by
  by_cases hlow : isLowS k s = .ok true
  · exact ⟨s, hlow, h⟩
  · exact ⟨_, (isLowS_neg hk).mpr hlow, hl.neg h⟩

theorem verify_sign {random : Bytes} (h : signECDSA k random digest = .ok signature) :
    verifyECDSA k signature digest = .ok true := by
  obtain ⟨⟨r, s⟩, hsign, h⟩ := bind_ok.mp h
  obtain ⟨⟨s', modified⟩, hlow, h⟩ := bind_ok.mp h
  obtain ⟨lowS, hs, hlow⟩ := bind_ok.mp hlow
  have hverify := hl.signed hsign
  rw [← Except.ok.inj h, ← append_nil (marshalECDSASignature r s')]
  cases lowS with
  | true =>
    cases hlow
    exact (accepts_marshal hk hl ⟨hs, hverify⟩ []).1
  | false =>
    cases hlow
    have hneg := (isLowS_neg hk (s := s)).mpr (by rw [hs]; nofun)
    exact (accepts_marshal hk hl ⟨hneg, hl.neg hverify⟩ []).1

/-- An accepted pair may have any bytes behind its encoding. -/
theorem oneEncoding_iff (digest : Bytes) :
    OneEncoding k digest ↔ ∀ r s, k.verify digest r s = false := by
  constructor
  · intro hunique r s
    rw [← Bool.not_eq_true]
    intro hv
    obtain ⟨s', hs'⟩ := low_of_verify hk hl hv
    have hsame := (hunique r s' ((accepts_iff hk hl).mpr hs')).unique
      (accepts_marshal hk hl hs' []) (accepts_marshal hk hl hs' [0])
    have hlength := congrArg length hsame
    simp at hlength
  · intro hnone r s h
    obtain ⟨-, hv⟩ := (accepts_iff hk hl).mp h
    rw [hnone] at hv
    cases hv

end Known

/-- What is signed is accepted and of `(r, s)` and `(r, N - s)` only one is, but never in one
encoding alone. -/
theorem malleable_iff (k : Key) (hk : k.curve = .p256 ∨ k.curve = .p384) (hl : k.Lawful)
    (digest : Bytes) :
    (∀ random signature, signECDSA k random digest = .ok signature →
        verifyECDSA k signature digest = .ok true) ∧
      (∀ r s, k.verify digest r s = true ∨ k.verify digest r (k.curve.order - s) = true →
        Xor (∃ signature, Accepts k digest signature r s)
          (∃ signature, Accepts k digest signature r (k.curve.order - s))) ∧
      (OneEncoding k digest ↔ ∀ r s, k.verify digest r s = false) := by
  refine ⟨fun random signature => verify_sign hk hl, fun r s h => ?_, oneEncoding_iff hk hl digest⟩
  have hboth : k.verify digest r s = true ∧ k.verify digest r (k.curve.order - s) = true := by
    rcases h with h | h
    · exact ⟨h, hl.neg h⟩
    · have hs := hl.neg h
      rw [sub_sub_cancel] at hs
      exact ⟨hs, h⟩
  rw [accepts_iff hk hl, accepts_iff hk hl, isLowS_neg hk]
  by_cases hlow : isLowS k s = .ok true
  · exact .inl ⟨⟨hlow, hboth.1⟩, fun h => h.1 hlow⟩
  · exact .inr ⟨⟨hlow, hboth.2⟩, fun h => hlow h.1⟩

/-! ## A signature on P-256 -/

namespace P256

def prime : Nat := 2 ^ 256 - 2 ^ 224 + 2 ^ 192 + 2 ^ 96 - 1

def order : Nat := Curve.p256.order

def b : Nat := 0x5ac635d8aa3a93e7b3ebbd55769886bc651d06b0cc53b0f63bce3c3e27d2604b

/-- A point in projective coordinates. -/
structure Point where
  x : Nat
  y : Nat
  z : Nat

def base : Point where
  x := 0x6b17d1f2e12c4247f8bce6e563a440f277037d812deb33a0f4a13945d898c296
  y := 0x4fe342e2fe1a7f9b8ee7eb4a7c0f9e162bce33576b315ececbb6406837bf51f5
  z := 1

def minus (n : Nat) : Nat := prime - n % prime

/-- The sum on `y² = x³ - 3x + b`, by formulas that hold for all pairs of points. -/
def Point.add (P Q : Point) : Point :=
  let xx := P.x * Q.x
  let yy := P.y * Q.y
  let zz := P.z * Q.z
  let xy := P.x * Q.y + Q.x * P.y
  let xz := P.x * Q.z + Q.x * P.z
  let yz := P.y * Q.z + Q.y * P.z
  let u := (3 * b * zz + 3 * minus xz) % prime
  let v := (3 * b * xz + 3 * minus xx + 9 * minus zz) % prime
  let w := (3 * xx + 3 * minus zz) % prime
  ⟨(xy * (yy + minus u) + yz * minus v) % prime, (w * v + (yy + u) * (yy + minus u)) % prime,
    (yz * (yy + u) + xy * w) % prime⟩

def Point.mul (P : Point) (k : Nat) : Point :=
  (range 256).foldr (fun i Q => if k.testBit i then (Q.add Q).add P else Q.add Q) ⟨0, 1, 0⟩

/-- `n ^ (m - 2)` modulo `m`. -/
def inverse (m n : Nat) : Nat :=
  (range 256).foldr (fun i a => if (m - 2).testBit i then a * a % m * n % m else a * a % m) 1

/-- The first coordinate in the plane, modulo the order. -/
def Point.affineX (P : Point) : Nat := P.x * inverse prime P.z % prime % order

/-- `ecdsa.Sign` with the nonce that it draws, for digests of 32 bytes. -/
def sign (d : Nat) (nonce digest : Bytes) : Nat × Nat :=
  let k := ofBeBytes nonce
  let r := (base.mul k).affineX
  (r, inverse order k * (ofBeBytes digest + r * d) % order)

/-- `ecdsa.Verify` of numbers below the order. -/
def verify (Q : Point) (digest : Bytes) (r s : Nat) : Bool :=
  let w := inverse order s
  let R := (base.mul (ofBeBytes digest * w % order)).add (Q.mul (r * w % order))
  R.z ≠ 0 ∧ R.affineX = r

end P256

def sampleDigest : Bytes := sha256 (str "sample")

def sampleScalar : Nat := 0xc9afa9d845ba75166b5c215767b1d6934e50c3db36e89b127b8a622b120f6721

def sampleNonce : Bytes :=
  beBytes 32 0xa6e3c57dd01abe90086538398355dd4c3b17aa873382b0f24d6129493d8aad60

def sampleR : Nat := 0xefd48b2aacb6a8fd1140dd9cd45e81d69d2c877b56aaf991c34d0ea84eaf3716

/-- Not the low one of the two. -/
def sampleS : Nat := 0xf7cb1c942d657c41d436c7a1b6e29f65f3e900dbb9aff4064dc4ab2f843acda8

/-- A key of which no more than the two signatures of one digest are known. -/
def knownKey : Key where
  curve := .p256
  sign _ digest := if digest = sampleDigest then .ok (sampleR, sampleS) else fail (.text [])
  verify digest r s :=
    digest = sampleDigest ∧ r = sampleR ∧ (s = sampleS ∨ s = (P256.order : Int) - sampleS)

theorem knownKey_lawful : knownKey.Lawful where
  range h := by
    obtain ⟨-, rfl, rfl | rfl⟩ := of_decide_eq_true h
    · decide +kernel
    · decide +kernel
  neg h := by
    obtain ⟨hd, hr, hs⟩ := of_decide_eq_true h
    refine decide_eq_true ⟨hd, hr, ?_⟩
    rcases hs with rfl | rfl
    · exact .inr rfl
    · exact .inl (sub_sub_cancel ..)
  signed h := by
    simp only [knownKey] at h
    split at h
    · cases h
      exact decide_eq_true ⟨‹_›, rfl, .inl rfl⟩
    · cases h

theorem low_signature_accepted :
    verifyECDSA knownKey (marshalECDSASignature sampleR (P256.order - sampleS)) sampleDigest =
        .ok true ∧ ¬ OneEncoding knownKey sampleDigest := by
  obtain ⟨hsigned, -, hone⟩ := malleable_iff knownKey (.inl rfl) knownKey_lawful sampleDigest
  refine ⟨hsigned [] _ (by decide +kernel), fun h => ?_⟩
  have hverify := hone.mp h sampleR sampleS
  exact absurd hverify (by decide +kernel)

/-- The key pair of a private scalar. -/
def sampleKey : Key where
  curve := .p256
  sign nonce digest :=
    let (r, s) := P256.sign sampleScalar nonce digest
    .ok (r, s)
  verify digest r s :=
    0 < r ∧ r < P256.order ∧ 0 < s ∧ s < P256.order ∧
      P256.verify (P256.base.mul sampleScalar) digest r.toNat s.toNat

/-- A signature is accepted with a byte more. -/
theorem trailing_byte_accepted :
    let signature := marshalECDSASignature sampleR (P256.order - sampleS)
    signECDSA sampleKey sampleNonce sampleDigest = .ok signature ∧
      verifyECDSA sampleKey signature sampleDigest = .ok true ∧
      verifyECDSA sampleKey (signature ++ [7]) sampleDigest = .ok true := by
  decide +kernel

end FabricOev.Bccsp
