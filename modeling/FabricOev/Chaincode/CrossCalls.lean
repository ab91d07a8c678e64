import FabricOev.Protos.Messages

/-!
# Chaincodes that call chaincodes

An `INVOKE_CHAINCODE` request is served by a goroutine of `enterBusyState`, which sends one message
back. What the request meets on the way, up to the answer of the callee, is a parameter. The block
of the request declares an `err` of its own, which is where the error of `Execute` goes; the `err`
tested after the block is another one.
-/

namespace FabricOev.Chaincode

open Go Go.Wire Protos Result

/-- `sysccprovider.ChaincodeInstance`. The version in the name is not used. -/
structure ChaincodeInstance where
  chainId : GoString
  chaincodeName : GoString
deriving DecidableEq, Repr

/-- `getChaincodeInstance`, of a name like `name:version/channel`. -/
def getChaincodeInstance (ccName : GoString) : ChaincodeInstance :=
  let beforeSlash := ccName.takeWhile (· ≠ 47)
  ⟨(ccName.dropWhile (· ≠ 47)).drop 1, beforeSlash.takeWhile (· ≠ 58)⟩

/-- `ccprovider.CCContext`, as far as it is read. -/
structure CcContext where
  chainId : GoString
  name : GoString
  version : GoString
deriving DecidableEq, Repr

/-- What a request meets. `lscc` stores no empty version. -/
structure Callees (Message : Type) where
  checkAcl : ChaincodeInstance → Except GoError Unit
  /-- `GetLedger`, and `NewTxSimulator` of it. -/
  newTxSimulator : GoString → Option (Except GoError Unit)
  /-- The version: the peer's for a system chaincode, else from `GetChaincodeDataFromLSCC`, if the
  instantiation policy passes. -/
  chaincodeVersion : ChaincodeInstance → Except GoError GoString
  launch : CcContext → Except GoError Unit
  hasBeenLaunched : CcContext → Bool
  /-- The error of `sendExecuteMessage`, such as that of a txid that has a context already. -/
  sendExecuteMessage : CcContext → Except GoError Unit
  /-- What `notify` is called with before the time-out. -/
  answer : CcContext → Option Message
  marshal : Message → Bytes
  chaincodeVersion_ne : ∀ cc v, chaincodeVersion cc = .ok v → v ≠ []

inductive Reply where
  | response (payload : Bytes)
  | error (e : GoError)
deriving DecidableEq, Repr

def ChaincodeSpec.unmarshal (b : Bytes) : Option ChaincodeSpec := do
  let fs ← decodeFields [(1, .varint), (2, .bytes), (3, .bytes), (4, .varint)] b
  ChaincodeSpec.ofFields fs

namespace Callees

variable {Message : Type} (s : Callees Message)

def ofExcept {α : Type} : Except GoError α → Result α
  | .ok a => .ok a
  | .error e => fail e

def newCcContext (cc : ChaincodeInstance) (version : GoString) : Result CcContext :=
  if version = [] then panicWith (.explicit (str "---empty version---"))
  else .ok ⟨cc.chainId, cc.chaincodeName, version⟩

/-- The request up to the call of `Execute`; an error goes to `errHandler`. -/
def launchCalled (chainId : GoString) (called : ChaincodeInstance) : Result CcContext := do
  ofExcept (s.checkAcl called)
  ofExcept (if called.chainId = chainId then .ok () else (s.newTxSimulator called.chainId).getD
      (.error (.text (str "Failed to find ledger for called channel " ++ called.chainId))))
  let version ← ofExcept (s.chaincodeVersion called)
  let cccid ← newCcContext called version
  ofExcept (s.launch cccid)
  .ok cccid

def prepare (chainId : GoString) (payload : Bytes) :
    Result (CcContext × Option ChaincodeInput) := do
  let spec ← ofOption .proto (ChaincodeSpec.unmarshal payload)
  let id ← deref spec.chaincodeId
  let named := getChaincodeInstance id.name
  let cccid ← s.launchCalled chainId
    (if named.chainId = [] then { named with chainId } else named)
  .ok (cccid, spec.input)

def execute (cccid : CcContext) (input : Option ChaincodeInput) : Result Message :=
  if !s.hasBeenLaunched cccid then
    fail (.text (str "Cannot execute transaction for " ++ cccid.name ++ str ":" ++ cccid.version))
  else do
    -- `createCCMessage` makes no message of a nil input, and its error is dropped
    let _ ← deref input
    ofExcept (s.sendExecuteMessage cccid)
    ofOption (.text (str "Timeout expired while executing transaction")) (s.answer cccid)

/-- The block of `INVOKE_CHAINCODE`: the values of `res` and `err` after it, the latter nil. -/
def invokeChaincode (chainId : GoString) (payload : Bytes) : Result (Bytes × Option GoError) := do
  let r ← s.prepare chainId payload
  match ← attempt (s.execute r.1 r.2) with
  -- the assignment to `err` is to the one of the block
  | .error _ => .ok ([], none)
  | .ok response => .ok (s.marshal response, none)

/-- `enterBusyState` for a known transaction: the messages sent. A request pending makes it drop
this one. -/
def enterBusyState (pending : Bool) (chainId : GoString) (payload : Bytes) : Result (List Reply) :=
  if pending then .ok []
  else do
    match ← attempt (s.invokeChaincode chainId payload) with
    | .error e => .ok [.error e]
    | .ok (_, some e) => .ok [.error e]
    | .ok (res, none) => .ok [.response res]

/-- The chaincode gets one message, and a response if and only if it carries what `Execute`
returned. -/
def Reported (pending : Bool) (chainId : GoString) (payload : Bytes) : Prop :=
  ∃ reply, s.enterBusyState pending chainId payload = .ok [reply] ∧ ∀ b, reply = .response b ↔
      ∃ r m, s.prepare chainId payload = .ok r ∧ s.execute r.1 r.2 = .ok m ∧ b = s.marshal m

/-- `Execute` finds the callee, has a message to hand over and gets an answer in time. -/
def Answers (cccid : CcContext) (input : Option ChaincodeInput) : Prop :=
  s.hasBeenLaunched cccid = true ∧ input ≠ none ∧ s.sendExecuteMessage cccid = .ok () ∧
    s.answer cccid ≠ none

variable {s} {pending : Bool} {chainId : GoString} {payload : Bytes} {α : Type}

theorem execute_eq_ok {cccid : CcContext} {input : Option ChaincodeInput} :
    (∃ m, s.execute cccid input = .ok m) ↔ s.Answers cccid input := by
  unfold execute Answers
  cases s.hasBeenLaunched cccid <;> cases input <;> cases s.sendExecuteMessage cccid <;>
    cases s.answer cccid <;> simp [deref, ofExcept, ofOption, fail, panicWith, bind, Except.bind]

theorem not_panics_ofExcept (x : Except GoError α) : ¬ Result.Panics (ofExcept x) := by
  rintro ⟨p, hp⟩
  cases x <;> cases hp

theorem ofExcept_eq_ok {x : Except GoError α} {a : α} (h : ofExcept x = .ok a) : x = .ok a := by
  cases x <;> cases h
  rfl

theorem not_panics_launchCalled (called : ChaincodeInstance) :
    ¬ Result.Panics (s.launchCalled chainId called) := by
  simp only [launchCalled, panics_bind, not_panics_ofExcept, not_panics_ok, false_or,
    and_false, exists_false, or_false]
  rintro ⟨-, -, -, -, v, hv, h⟩
  rw [newCcContext, if_neg (s.chaincodeVersion_ne called v (ofExcept_eq_ok hv))] at h
  exact not_panics_ok _ h

theorem panics_prepare :
    Result.Panics (s.prepare chainId payload) ↔
      ∃ spec, ChaincodeSpec.unmarshal payload = some spec ∧ spec.chaincodeId = none := by
  simp only [prepare, panics_bind, not_panics_launchCalled, not_panics_ok, and_false, exists_false,
    or_false]
  constructor
  · rintro (⟨p, hp⟩ | ⟨spec, hspec, p, hp⟩)
    · cases h : ChaincodeSpec.unmarshal payload <;> rw [h] at hp <;> cases hp
    · refine ⟨spec, ofOption_eq_ok.mp hspec, ?_⟩
      cases h : spec.chaincodeId with
      | none => rfl
      | some id =>
        rw [h] at hp
        cases hp
  · rintro ⟨spec, hspec, hid⟩
    exact .inr ⟨spec, ofOption_eq_ok.mpr hspec, .nilDereference, by rw [hid]; rfl⟩

/-- A request is reported as it should be if and only if it is not dropped, does not lack the
chaincode id, and `Execute`, if it is reached, gets a message and an answer. -/
theorem reported_iff :
    s.Reported pending chainId payload ↔ pending = false ∧
      (∀ spec, ChaincodeSpec.unmarshal payload = some spec → spec.chaincodeId ≠ none) ∧
      ∀ r, s.prepare chainId payload = .ok r → s.Answers r.1 r.2 := by
  have hpanics : (∀ spec, ChaincodeSpec.unmarshal payload = some spec → spec.chaincodeId ≠ none) ↔
      ¬ Result.Panics (s.prepare chainId payload) := by
    rw [panics_prepare]
    simp
  rw [hpanics]
  unfold Reported enterBusyState invokeChaincode
  cases pending with
  | true => simp
  | false =>
    rcases hp : s.prepare chainId payload with (e | p) | r
    · exact iff_of_true ⟨.error e, rfl, by simp⟩ ⟨rfl, nofun, nofun⟩
    · refine iff_of_false ?_ fun h => h.2.1 ⟨p, rfl⟩
      rintro ⟨reply, h, -⟩
      cases h
    · have hanswers := @execute_eq_ok _ s r.1 r.2
      cases he : s.execute r.1 r.2 with
      | error f =>
        -- nothing is sent or the response is empty, and `Execute` has returned nothing
        refine iff_of_false ?_ fun h => ?_
        · rintro ⟨reply, h, hall⟩
          rw [ok_bind, he] at h
          cases f with
          | panic p => cases h
          | error e =>
            cases h
            obtain ⟨_, m, hr, hm, -⟩ := (hall []).mp rfl
            cases hr
            cases he.symm.trans hm
        · obtain ⟨m, hm⟩ := hanswers.mpr (h.2.2 _ rfl)
          cases he.symm.trans hm
      | ok m =>
        refine iff_of_true ⟨.response (s.marshal m), ?_, fun b => ?_⟩
          ⟨rfl, not_panics_ok _, fun r' hr => ?_⟩
        · rw [ok_bind, he]
          rfl
        · simp [he, eq_comm]
        · cases hr
          exact hanswers.mp ⟨m, he⟩

def silent : Callees Bytes where
  checkAcl _ := .ok ()
  newTxSimulator _ := none
  chaincodeVersion _ := .ok (str "1.0")
  launch _ := .ok ()
  hasBeenLaunched _ := true
  sendExecuteMessage _ := .ok ()
  answer _ := none
  marshal := id
  chaincodeVersion_ne _ v h := by cases h; decide

/-- The call times out, and the caller gets a response with nothing in it. -/
theorem timeout_is_reported_as_response :
    let payload := [18, 4, 18, 2, 99, 99, 26, 0]
    silent.enterBusyState false (str "ch") payload = .ok [.response []] ∧
      ¬ silent.Reported false (str "ch") payload := by
  intro payload
  refine ⟨by decide +kernel, ?_⟩
  rintro ⟨reply, h, hall⟩
  cases h
  obtain ⟨r, m, hr, hm, -⟩ := (hall []).mp rfl
  cases hr
  cases hm

end Callees

end FabricOev.Chaincode
