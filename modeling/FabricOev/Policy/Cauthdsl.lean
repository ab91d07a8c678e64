import FabricOev.Lib.ThresholdTree
import FabricOev.Protos.Messages

/-!
# Signature policies

The evaluator of `common/cauthdsl`: `compile` turns a `SignaturePolicy` into a function on the
signature set and the marks of used entries, `NewPolicy` and `Evaluate` wrap it. The MSP is a
parameter: which bytes are an identity, which principals it satisfies and which signatures verify
under it. Marks stand beside their entries, since `Evaluate` makes them as long as the signature
set. Rules are counted without a bound.
-/

namespace FabricOev.Policy

open Go Protos Lib Result

structure MSPPrincipal where
  principalClassification : Int32
  principal : Bytes
deriving DecidableEq, Repr

structure SignedData where
  data : Bytes
  identity : Bytes
  signature : Bytes
deriving DecidableEq, Repr

/-- A pointer to a `SignaturePolicy`; `untyped` has no `Type`. -/
inductive SignaturePolicy where
  | nil
  | untyped
  | signedBy (i : Int32)
  | nOutOf (n : Int32) (rules : List SignaturePolicy)

structure SignaturePolicyEnvelope where
  version : Int32
  rule : SignaturePolicy
  identities : List MSPPrincipal

/-- `msp.IdentityDeserializer` with the methods of the identities it returns; `none` and
`false` are errors. -/
structure IdentityDeserializer (I : Type) where
  deserializeIdentity : Bytes → Option I
  satisfiesPrincipal : I → MSPPrincipal → Bool
  verify : I → Bytes → Bytes → Bool

/-- The signature set, each entry with its `used` mark. -/
abbrev Marked := List (SignedData × Bool)

/-- What `compile` returns: the verdict, and the marks as the call leaves them. -/
abbrev Evaluator := Marked → Bool × Marked

variable {I : Type} (deserializer : IdentityDeserializer I)

/-- The loop of a `SignedBy` leaf. -/
def signedByLoop (signedByID : MSPPrincipal) : Evaluator
  | [] => (false, [])
  | (sd, used) :: rest =>
    let next := signedByLoop signedByID rest
    let continue_ := (next.1, (sd, used) :: next.2)
    if used then continue_
    else
      match deserializer.deserializeIdentity sd.identity with
      | none => continue_
      | some identity =>
        if deserializer.satisfiesPrincipal identity signedByID = false then continue_
        else if deserializer.verify identity sd.data sd.signature = false then continue_
        else (true, (sd, true) :: rest)

/-- The loop of `NOutOf`: each rule runs on a copy of the marks, kept when it succeeds. -/
def nOutOfLoop : List Evaluator → Nat → Marked → Nat × Marked
  | [], verified, used => (verified, used)
  | policy :: policies, verified, used =>
    let (ok, used') := policy used
    if ok then nOutOfLoop policies (verified + 1) used' else nOutOfLoop policies verified used

def nOutOf (n : Int32) (policies : List Evaluator) : Evaluator := fun used =>
  let (verified, used') := nOutOfLoop policies 0 used
  (n.toInt ≤ verified, used')

mutual

def compile (identities : List MSPPrincipal) : SignaturePolicy → Result Evaluator
  | .nil => errorf "Empty policy element"
  | .untyped => errorf "Unknown type: <nil>:<nil>"
  | .nOutOf n rules => do
    let policies ← compileRules identities rules
    .ok (nOutOf n policies)
  | .signedBy i =>
    if i.toInt < 0 ∨ (Int32.ofNat identities.length).toInt ≤ i.toInt then
      fail (.text (str "identity index out of range, requested " ++
        formatInt i.toInt64 ++ str ", but identies length is " ++ formatNat identities.length))
    else do
      let signedByID ← index identities i.toInt.toNat
      .ok (signedByLoop deserializer signedByID)

def compileRules (identities : List MSPPrincipal) : List SignaturePolicy → Result (List Evaluator)
  | [] => .ok []
  | rule :: rules => do
    let compiledPolicy ← compile identities rule
    let policies ← compileRules identities rules
    .ok (compiledPolicy :: policies)

end

structure CompiledPolicy where
  evaluator : Evaluator

/-- `NewPolicy` on the decoded envelope. -/
def newPolicy (sigPolicy : SignaturePolicyEnvelope) : Result CompiledPolicy :=
  if sigPolicy.version ≠ 0 then
    fail (.text (str "This evaluator only understands messages of version 0, but version was "
      ++ formatInt sigPolicy.version.toInt64))
  else do
    let compiled ← compile deserializer sigPolicy.identities sigPolicy.rule
    .ok ⟨compiled⟩

/-- `Evaluate` on a policy that may be nil. -/
def evaluate (p : Option CompiledPolicy) (signatureSet : List SignedData) : Result Unit :=
  match p with
  | none => errorf "No such policy"
  | some p =>
    if (p.evaluator (signatureSet.map (·, false))).1 then .ok ()
    else errorf "Failed to authenticate policy"

structure ConfigSignature where
  signatureHeader : Bytes
  signature : Bytes
deriving DecidableEq, Repr

structure ConfigUpdateEnvelope where
  configUpdate : Bytes
  signatures : List ConfigSignature
deriving DecidableEq, Repr

def ConfigUpdateEnvelope.signedDataOf (ce : ConfigUpdateEnvelope) (configSig : ConfigSignature) :
    Result SignedData := do
  let sigHeader ← ofOption .proto (SignatureHeader.unmarshal configSig.signatureHeader)
  .ok {
    data := configSig.signatureHeader ++ ce.configUpdate
    identity := sigHeader.creator
    signature := configSig.signature }

def ConfigUpdateEnvelope.asSignedData (ce : ConfigUpdateEnvelope) : Result (List SignedData) :=
  ce.signatures.mapM ce.signedDataOf

mutual

/-- The gates and principals of a policy. What does not compile is a gate that is never met. -/
def SignaturePolicy.tree (identities : List MSPPrincipal) :
    SignaturePolicy → ThresholdTree MSPPrincipal
  | .nil => .gate 1 []
  | .untyped => .gate 1 []
  | .signedBy i =>
    match identities[i.toInt.toNat]? with
    | some p => .leaf p
    | none => .gate 1 []
  | .nOutOf n rules => .gate n.toInt (treeRules identities rules)

def SignaturePolicy.treeRules (identities : List MSPPrincipal) :
    List SignaturePolicy → List (ThresholdTree MSPPrincipal)
  | [] => []
  | rule :: rules => tree identities rule :: treeRules identities rules

end

def SignaturePolicyEnvelope.tree (sigPolicy : SignaturePolicyEnvelope) :
    ThresholdTree MSPPrincipal :=
  sigPolicy.rule.tree sigPolicy.identities

/-- The entry counts for the principal: its identity satisfies it and its signature
verifies. -/
def Suits (p : MSPPrincipal) (sd : SignedData) : Bool :=
  match deserializer.deserializeIdentity sd.identity with
  | none => false
  | some identity =>
    deserializer.satisfiesPrincipal identity p && deserializer.verify identity sd.data sd.signature

/-- A leaf as a step that may fail. -/
def takeFirst (p : MSPPrincipal) (used : Marked) : Option Marked :=
  let r := signedByLoop deserializer p used
  if r.1 then some r.2 else none

section Leaf

variable (p : MSPPrincipal)

theorem signedByLoop_cons (sd : SignedData) (used : Bool) (rest : Marked) :
    signedByLoop deserializer p ((sd, used) :: rest) =
      if used = false ∧ Suits deserializer p sd = true then (true, (sd, true) :: rest)
      else ((signedByLoop deserializer p rest).1,
        (sd, used) :: (signedByLoop deserializer p rest).2) := by
  rw [signedByLoop, Suits]
  cases used with
  | true => simp
  | false =>
    cases deserializer.deserializeIdentity sd.identity with
    | none => simp
    | some identity =>
      cases h : deserializer.satisfiesPrincipal identity p <;>
        cases h' : deserializer.verify identity sd.data sd.signature <;> simp [h, h']

variable (used : Marked)

theorem signedByLoop_cases :
    (∃ front sd back, used = front ++ (sd, false) :: back ∧ Suits deserializer p sd = true ∧
        signedByLoop deserializer p used = (true, front ++ (sd, true) :: back)) ∨
      (∀ sd, (sd, false) ∈ used → Suits deserializer p sd = false) ∧
        signedByLoop deserializer p used = (false, used) := by
  induction used with
  | nil => exact .inr ⟨by simp, rfl⟩
  | cons e rest ih =>
    obtain ⟨sd, used⟩ := e
    rw [signedByLoop_cons]
    split
    case isTrue h =>
      obtain ⟨rfl, hs⟩ := h
      exact .inl ⟨[], sd, rest, rfl, hs, rfl⟩
    case isFalse h =>
      obtain ⟨front, sd', back, rfl, hs, heq⟩ | ⟨hnone, heq⟩ := ih
      · exact .inl ⟨(sd, used) :: front, sd', back, rfl, hs, by rw [heq]; rfl⟩
      · refine .inr ⟨fun sd' hmem => ?_, by rw [heq]⟩
        obtain heq | hmem := List.mem_cons.mp hmem
        · cases heq
          simpa using h
        · exact hnone sd' hmem

theorem takeFirst_cases :
    (∃ front sd back, used = front ++ (sd, false) :: back ∧ Suits deserializer p sd = true ∧
        takeFirst deserializer p used = some (front ++ (sd, true) :: back)) ∨
      (∀ sd, (sd, false) ∈ used → Suits deserializer p sd = false) ∧
        takeFirst deserializer p used = none := by
  obtain ⟨front, sd, back, hu, hs, heq⟩ | ⟨hnone, heq⟩ := signedByLoop_cases deserializer p used
  · exact .inl ⟨front, sd, back, hu, hs, by rw [takeFirst, heq]; rfl⟩
  · exact .inr ⟨hnone, by rw [takeFirst, heq]; rfl⟩

end Leaf

variable {deserializer}

mutual

theorem compile_eq {identities : List MSPPrincipal} {evaluator : Evaluator}
    (policy : SignaturePolicy) (h : compile deserializer identities policy = .ok evaluator)
    (used : Marked) :
    (if (evaluator used).1 then some (evaluator used).2 else none) =
      (policy.tree identities).eval (takeFirst deserializer) used := by
  match policy with
  | .nil | .untyped => cases h
  | .signedBy i =>
    rw [compile] at h
    split at h
    case isTrue => cases h
    case isFalse =>
      obtain ⟨p, hp, h⟩ := bind_ok.mp h
      cases h
      rw [SignaturePolicy.tree, index_eq_ok.mp hp]
      rfl
  | .nOutOf n rules =>
    obtain ⟨policies, hrules, h⟩ := bind_ok.mp h
    cases h
    have heq := compileRules_eq rules hrules 0 used
    rw [SignaturePolicy.tree, ThresholdTree.eval, nOutOf]
    rw [heq]
    simp

theorem compileRules_eq {identities : List MSPPrincipal} {policies : List Evaluator}
    (rules : List SignaturePolicy) (h : compileRules deserializer identities rules = .ok policies)
    (verified : Nat) (used : Marked) :
    nOutOfLoop policies verified used =
      (verified + (ThresholdTree.evalRules (takeFirst deserializer)
          (SignaturePolicy.treeRules identities rules) used).1,
        (ThresholdTree.evalRules (takeFirst deserializer)
          (SignaturePolicy.treeRules identities rules) used).2) := by
  match rules with
  | [] =>
    cases h
    rfl
  | rule :: rules =>
    obtain ⟨evaluator, hrule, h⟩ := bind_ok.mp h
    obtain ⟨policies, hrules, h⟩ := bind_ok.mp h
    cases h
    have heq := compile_eq rule hrule used
    rw [nOutOfLoop, SignaturePolicy.treeRules]
    dsimp only
    cases hok : (evaluator used).1 with
    | true =>
      rw [hok, if_pos rfl] at heq
      rw [ThresholdTree.evalRules_some heq.symm, if_pos rfl, compileRules_eq rules hrules,
        Nat.add_assoc, Nat.add_comm 1]
    | false =>
      rw [hok, if_neg Bool.false_ne_true] at heq
      rw [ThresholdTree.evalRules_none heq.symm, if_neg Bool.false_ne_true,
        compileRules_eq rules hrules]

end

def CompiledPolicy.Accepts (p : CompiledPolicy) (signatureSet : List SignedData) : Prop :=
  evaluate (some p) signatureSet = .ok ()

theorem accepts_iff {sigPolicy : SignaturePolicyEnvelope} {policy : CompiledPolicy}
    (h : newPolicy deserializer sigPolicy = .ok policy) (signatureSet : List SignedData) :
    policy.Accepts signatureSet ↔
      (sigPolicy.tree.eval (takeFirst deserializer) (signatureSet.map (·, false))).isSome := by
  unfold newPolicy at h
  split at h
  case isTrue => cases h
  case isFalse =>
    obtain ⟨evaluator, hcompile, h⟩ := bind_ok.mp h
    cases h
    rw [SignaturePolicyEnvelope.tree, ← compile_eq _ hcompile, CompiledPolicy.Accepts, evaluate]
    split
    case isTrue => simp
    case isFalse =>
      constructor
      · intro h
        cases h
      · intro h
        cases h

end FabricOev.Policy
