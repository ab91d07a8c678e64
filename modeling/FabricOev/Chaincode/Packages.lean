import FabricOev.Go.Sha256
import FabricOev.Protos.Messages

/-!
# Fingerprints of chaincode packages

What `CDSPackage` and `SignedCDSPackage` hash of a package, and the check of `ValidateCC` against
the data recorded on the ledger for one. Several strings go into one hash with nothing between.
-/

namespace FabricOev.Chaincode

open Go Protos List Result

/-- `ChaincodeDeploymentSpec`, with the id of its `ChaincodeSpec`. -/
structure DeploymentSpec where
  chaincodeId : Option ChaincodeId
  codePackage : Bytes

/-- `SignedChaincodeDeploymentSpec`, with the endorsers of its `OwnerEndorsements`. -/
structure SignedDeploymentSpec where
  depSpec : DeploymentSpec
  instantiationPolicy : Option Bytes
  endorsers : List Bytes

/-- An initialised package: the hashes of its data in the order of the fields, and `id`. -/
structure CCPackage where
  name : GoString
  version : GoString
  data : List Bytes
  id : Bytes
deriving DecidableEq

/-- The strings that are hashed. -/
def CDSPackage.parts (ccId : ChaincodeId) (code : Bytes) : List Bytes :=
  [code, ccId.name ++ ccId.version]

def SignedCDSPackage.parts (ccId : ChaincodeId) (code policy : Bytes) (endorsers : List Bytes) :
    List Bytes :=
  [code, ccId.name ++ ccId.version, policy ++ endorsers.flatten]

variable (hash : Bytes → Bytes)

def CCPackage.ofParts (ccId : ChaincodeId) (parts : List Bytes) : CCPackage :=
  ⟨ccId.name, ccId.version, parts.map hash, hash (parts.map hash).flatten⟩

def CDSPackage.getCDSData (cds : DeploymentSpec) : Result CCPackage := do
  let ccId ← deref cds.chaincodeId
  .ok (.ofParts hash ccId (CDSPackage.parts ccId cds.codePackage))

def SignedCDSPackage.getCDSData (scds : SignedDeploymentSpec) : Result CCPackage := do
  let ccId ← deref scds.depSpec.chaincodeId
  match scds.instantiationPolicy with
  | none => fail (.text (str "instantiation policy cannot be nil for chaincode (" ++ ccId.name ++
      str ":" ++ ccId.version ++ str ")"))
  | some policy =>
    .ok (.ofParts hash ccId (parts ccId scds.depSpec.codePackage policy scds.endorsers))

/-- `ValidateCC` with the `ChaincodeData` recorded for `q`. The errors do not show it. -/
def CCPackage.validateCC (p q : CCPackage) : Result Unit :=
  if q.name ≠ p.name ∨ q.version ≠ p.version then errorf "invalid chaincode data"
  else if p.data ≠ q.data then errorf "data mismatch"
  else .ok ()

/-- No collision among what is hashed for the parts of two packages, and hashes of one length. -/
def NoCollision (size : Nat) (parts parts' : List Bytes) : Prop :=
  let ss := parts ++ parts' ++ [(parts.map hash).flatten, (parts'.map hash).flatten]
  (∀ x ∈ ss, (hash x).length = size) ∧ ∀ x ∈ ss, ∀ y ∈ ss, hash x = hash y → x = y

/-- A check that passes, or equal ids, tell that the packages are the same. -/
def CCPackage.Binds (p q : CCPackage) (same : Prop) : Prop :=
  p.validateCC q = .ok () ∨ p.id = q.id → same

variable {hash} {size : Nat} {parts parts' : List Bytes}

theorem flatten_hash_inj (hlen : parts.length = parts'.length)
    (hsize : ∀ x ∈ parts ++ parts', (hash x).length = size)
    (hinj : ∀ x ∈ parts, ∀ y ∈ parts', hash x = hash y → x = y)
    (heq : (parts.map hash).flatten = (parts'.map hash).flatten) : parts = parts' := by
  induction parts generalizing parts' with
  | nil => exact (length_eq_zero_iff.mp hlen.symm).symm
  | cons x parts ih =>
    cases parts' with
    | nil => cases hlen
    | cons y parts' =>
      obtain ⟨hxy, heq⟩ := append_inj heq ((hsize x (by simp)).trans (hsize y (by simp)).symm)
      rw [hinj x mem_cons_self y mem_cons_self hxy, ih (Nat.succ.inj hlen)
        (fun z hz => hsize z (by simp at hz ⊢; tauto))
        (fun z hz w hw => hinj z (mem_cons_of_mem x hz) w (mem_cons_of_mem y hw)) heq]

/-- The id binds the parts, and so does the check, with the name and the version besides. -/
theorem ofParts_binds (a a' : ChaincodeId) (hlen : parts.length = parts'.length)
    (h : NoCollision hash size parts parts') :
    ((CCPackage.ofParts hash a parts).id = (CCPackage.ofParts hash a' parts').id ↔
        parts = parts') ∧
      ((CCPackage.ofParts hash a parts).validateCC (.ofParts hash a' parts') = .ok () ↔
        (a'.name = a.name ∧ a'.version = a.version) ∧ parts = parts') := by
  have hinj : (parts.map hash).flatten = (parts'.map hash).flatten → parts = parts' :=
    flatten_hash_inj hlen (fun x hx => h.1 x (mem_append_left _ hx)) fun x hx y hy =>
      h.2 x (mem_append_left _ (mem_append_left _ hx)) y (mem_append_left _ (mem_append_right _ hy))
  have hcheck : (CCPackage.ofParts hash a parts).validateCC (.ofParts hash a' parts') = .ok () ↔
      (a'.name = a.name ∧ a'.version = a.version) ∧ parts.map hash = parts'.map hash :=
    ite_error_eq_ok.trans (and_congr (by simp [CCPackage.ofParts]) (ite_error_eq_ok.trans (by simp
      [CCPackage.ofParts])))
  rw [hcheck]
  refine ⟨⟨fun hid => hinj (h.2 _ (by simp) _ (by simp) hid), fun heq => ?_⟩,
    and_congr_right fun _ => ⟨fun hdata => hinj (congrArg flatten hdata), congrArg (map hash)⟩⟩
  rw [CCPackage.ofParts, heq]
  rfl

/-- What equal ids and a check that passes tell of two packages: the name and version, and the
policy and endorsers, as one string each, save that the check compares name and version. They bind
the packages exactly if those that agree in these strings agree. -/
theorem fingerprints_bind_iff (hash : Bytes → Bytes) (size : Nat) (a a' : ChaincodeId)
    (code code' policy policy' : Bytes) (es es' : List Bytes) :
    (NoCollision hash size (CDSPackage.parts a code) (CDSPackage.parts a' code') → ∃ p q,
      CDSPackage.getCDSData hash ⟨some a, code⟩ = .ok p ∧
      CDSPackage.getCDSData hash ⟨some a', code'⟩ = .ok q ∧
      (p.id = q.id ↔ code = code' ∧ a.name ++ a.version = a'.name ++ a'.version) ∧
      (p.validateCC q = .ok () ↔ (a'.name = a.name ∧ a'.version = a.version) ∧ code = code') ∧
      (p.Binds q (code = code' ∧ a.name = a'.name ∧ a.version = a'.version) ↔
        (code = code' → a.name ++ a.version = a'.name ++ a'.version → a.name = a'.name))) ∧
    (NoCollision hash size (SignedCDSPackage.parts a code policy es)
        (SignedCDSPackage.parts a' code' policy' es') → ∃ p q,
      SignedCDSPackage.getCDSData hash ⟨⟨some a, code⟩, some policy, es⟩ = .ok p ∧
      SignedCDSPackage.getCDSData hash ⟨⟨some a', code'⟩, some policy', es'⟩ = .ok q ∧
      (p.id = q.id ↔ code = code' ∧ a.name ++ a.version = a'.name ++ a'.version ∧
        policy ++ es.flatten = policy' ++ es'.flatten) ∧
      (p.validateCC q = .ok () ↔ (a'.name = a.name ∧ a'.version = a.version) ∧ code = code' ∧
        policy ++ es.flatten = policy' ++ es'.flatten) ∧
      (p.Binds q (code = code' ∧ (a.name = a'.name ∧ a.version = a'.version) ∧ policy = policy' ∧
          es = es') ↔
        (code = code' → a.name ++ a.version = a'.name ++ a'.version →
          policy ++ es.flatten = policy' ++ es'.flatten →
          a.name = a'.name ∧ policy = policy' ∧ es = es'))) := by
  refine ⟨fun h => ⟨_, _, rfl, rfl, ?_⟩, fun h => ⟨_, _, rfl, rfl, ?_⟩⟩
  · obtain ⟨hid, hcheck⟩ := ofParts_binds a a' (by rfl) h
    replace hid := hid.trans (show _ ↔ code = code' ∧ a.name ++ a.version = a'.name ++ a'.version by
      simp [CDSPackage.parts])
    replace hcheck := hcheck.trans (and_congr_right fun hname => show _ ↔ code = code' by
      simp [CDSPackage.parts, hname])
    refine ⟨hid, hcheck, ?_⟩
    rw [CCPackage.Binds, hid, hcheck]
    constructor
    · intro hbinds hcode heq
      exact (hbinds (.inr ⟨hcode, heq⟩)).2.1
    · rintro hsplit (⟨⟨hname, hversion⟩, hcode⟩ | ⟨hcode, heq⟩)
      · exact ⟨hcode, hname.symm, hversion.symm⟩
      · have hname := hsplit hcode heq
        rw [hname, append_cancel_left_eq] at heq
        exact ⟨hcode, hname, heq⟩
  · obtain ⟨hid, hcheck⟩ := ofParts_binds a a' (by rfl) h
    replace hid := hid.trans (show _ ↔ code = code' ∧ a.name ++ a.version = a'.name ++ a'.version ∧
      policy ++ es.flatten = policy' ++ es'.flatten by simp [SignedCDSPackage.parts])
    replace hcheck := hcheck.trans (and_congr_right fun hname => show _ ↔ code = code' ∧
      policy ++ es.flatten = policy' ++ es'.flatten by simp [SignedCDSPackage.parts, hname])
    refine ⟨hid, hcheck, ?_⟩
    rw [CCPackage.Binds, hid, hcheck]
    constructor
    · intro hbinds hcode heq hsigned
      obtain ⟨-, ⟨hname, -⟩, hsame⟩ := hbinds (.inr ⟨hcode, heq, hsigned⟩)
      exact ⟨hname, hsame⟩
    · rintro hsplit (⟨⟨hname, hversion⟩, hcode, hsigned⟩ | ⟨hcode, heq, hsigned⟩)
      · have hsame := hsplit hcode (by rw [hname, hversion]) hsigned
        exact ⟨hcode, ⟨hname.symm, hversion.symm⟩, hsame.2⟩
      · obtain ⟨hname, hsame⟩ := hsplit hcode heq hsigned
        rw [hname, append_cancel_left_eq] at heq
        exact ⟨hcode, ⟨hname, heq⟩, hsame⟩

/-- Two versions of a chaincode with one code have different ids. -/
theorem versions_have_own_ids :
    NoCollision sha256 32 (CDSPackage.parts ⟨[], str "cc", str "1"⟩ [])
        (CDSPackage.parts ⟨[], str "cc", str "2"⟩ []) ∧
      ∃ p q, CDSPackage.getCDSData sha256 ⟨some ⟨[], str "cc", str "1"⟩, []⟩ = .ok p ∧
        CDSPackage.getCDSData sha256 ⟨some ⟨[], str "cc", str "2"⟩, []⟩ = .ok q ∧ p.id ≠ q.id := by
  have h : NoCollision sha256 32 (CDSPackage.parts ⟨[], str "cc", str "1"⟩ [])
      (CDSPackage.parts ⟨[], str "cc", str "2"⟩ []) := by
    unfold NoCollision
    decide +kernel
  obtain ⟨p, q, hp, hq, hid, -⟩ := (fingerprints_bind_iff sha256 32 _ _ _ _ [] [] [] []).1 h
  exact ⟨h, p, q, hp, hq, fun heq => absurd (hid.mp heq) (by decide)⟩

/-- The ids of chaincode `a` in version `bc` and `ab` in version `c` are equal, and a signed
package with the policy `p` and the endorser `e` passes for one with the policy `pe` and none. -/
theorem split_not_hashed :
    (CDSPackage.getCDSData sha256 ⟨some ⟨[], str "a", str "bc"⟩, []⟩).map (·.id) =
        (CDSPackage.getCDSData sha256 ⟨some ⟨[], str "ab", str "c"⟩, []⟩).map (·.id) ∧
      ∃ p q, SignedCDSPackage.getCDSData sha256 ⟨⟨some ⟨[], [], []⟩, []⟩, some (str "p"), [str "e"]⟩ =
          .ok p ∧
        SignedCDSPackage.getCDSData sha256 ⟨⟨some ⟨[], [], []⟩, []⟩, some (str "pe"), []⟩ = .ok q ∧
        p.validateCC q = .ok () :=
  ⟨rfl, _, _, rfl, rfl, rfl⟩

end FabricOev.Chaincode
