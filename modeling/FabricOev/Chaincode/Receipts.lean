import FabricOev.Bench.ReplayFacts

/-!
# Invocations and receipts

What the two benchmark chaincodes share: the outcome of an invocation on the values of
its namespace, and the functions around receipts. The stub is taken at its interface:
`GetState` shows the values before the invocation, `PutState` does not fail.
-/

namespace FabricOev.Chaincode

open Go Bench Json

/-- `shim.Success`: the payload, and the calls of `PutState` in their order. -/
structure Response where
  payload : Bytes
  writes : List (GoString × Bytes)

/-- What `Invoke` returns. Nothing has been put when it returns an error. -/
abbrev Outcome := Except GoError Response

def Response.view (j : Json) : Response := ⟨j.encode, []⟩

def receiptKey (requestId : GoString) : GoString := str "receipt:" ++ requestId

def ping (benchmark : String) : Outcome :=
  .ok (.view (.obj [(str "benchmark", .str (str benchmark)), (str "status", .str (str "ok"))]))

def receiptView (receipt : Option Json) : Json :=
  .obj ((str "found", .bool receipt.isSome) :: receipt.toList.map fun r => (str "receipt", r))

/-- `GetReceipt`; the chaincodes differ in cleaning the id, the text for an empty one and the
record. -/
def getReceiptWith (clean : GoString → GoString) (required : String) (decode : Bytes → Option Json)
    (db : View) (args : List GoString) : Outcome :=
  match args with
  | [raw] =>
    if clean raw = [] then .error (.text (str required))
    else
      match db (receiptKey (clean raw)) with
      | none => .ok (.view (receiptView none))
      | some payload =>
        match decode payload with
        | none => .error .json
        | some receipt => .ok (.view (receiptView (some receipt)))
  | _ => .error (.text (str "GetReceipt expects 1 argument"))

/-- `json.Unmarshal` into a list of request ids. -/
def requestIds (raw : GoString) : Option (List GoString) :=
  unmarshal [] (decodeSlice [] decodeString) raw

/-- `map[string]bool` of the ids asked for; an id that is blank is skipped. -/
def receiptsFound (db : View) (ids : List GoString) : Std.ExtTreeMap GoString Bool compare :=
  ids.foldl (fun m raw =>
    if trimSpace raw = [] then m
    else m.insert (trimSpace raw) (db (receiptKey (trimSpace raw))).isSome) ∅

/-- `BatchGetReceipts`; the keys of a map are written in their order. -/
def batchGetReceipts (db : View) (args : List GoString) : Outcome :=
  match args with
  | [raw] =>
    match requestIds raw with
    | none => .error (.text (str "invalid request_id list payload"))
    | some ids => .ok (.view (.obj ((receiptsFound db ids).toList.map fun e => (e.1, .bool e.2))))
  | _ => .error (.text (str "BatchGetReceipts expects 1 argument"))

/-- The keys that are kept, as a map: a later put replaces an earlier one. -/
def Response.writeMap (r : Response) (keep : GoString → Bool) : WriteMap :=
  (r.writes.filter fun w => keep w.1).foldl (fun m w => m.insert w.1 w.2) ∅

/-- Both return an error, or both succeed with the same writes under the keys that are kept. -/
def Agrees (keep : GoString → Bool) : Outcome → Except GoError WriteMap → Prop
  | .error _, .error _ => True
  | .ok r, .ok ws => ws = r.writeMap keep
  | _, _ => False

variable {keep : GoString → Bool} {o : Outcome} {e : GoError} {replay : Except GoError WriteMap}
  {db : View} {args : List GoString}

theorem agrees_error_iff : Agrees keep o (.error e) ↔ ∀ r, o ≠ .ok r := by
  cases o with
  | error e' | ok r => simp [Agrees]

theorem agrees_ok_iff {ws : WriteMap} :
    Agrees keep o (.ok ws) ↔ ∃ r, o = .ok r ∧ ws = r.writeMap keep := by
  cases o with
  | error e | ok r => simp [Agrees]

/-- A replay that takes at most one reading of its input agrees with an invocation that checks more,
if the checks pass and the writes are the same. -/
theorem agrees_iff_of_unique {ι : Type} {P E : ι → Prop} {ws : ι → WriteMap} {resp : ι → Response}
    (hreplay : ∀ w, replay = .ok w ↔ ∃ x, P x ∧ ws x = w)
    (hinvoke : ∀ r, o = .ok r ↔ ∃ x, P x ∧ E x ∧ resp x = r) (hunique : ∀ x y, P x → P y → x = y) :
    Agrees keep o replay ↔ ∀ x, P x → E x ∧ ws x = (resp x).writeMap keep := by
  cases replay with
  | error e =>
    have hnot : ∀ x, ¬ P x := fun x hx => nomatch (hreplay (ws x)).mpr ⟨x, hx, rfl⟩
    rw [agrees_error_iff]
    refine iff_of_true (fun r hr => ?_) fun x hx => absurd hx (hnot x)
    obtain ⟨x, hx, -⟩ := (hinvoke r).mp hr
    exact hnot x hx
  | ok w =>
    obtain ⟨x, hx, rfl⟩ := (hreplay w).mp rfl
    rw [agrees_ok_iff]
    constructor
    · rintro ⟨r, hr, hw⟩ y hy
      obtain rfl := hunique x y hx hy
      obtain ⟨z, hz, hE, rfl⟩ := (hinvoke r).mp hr
      obtain rfl := hunique x z hx hz
      exact ⟨hE, hw⟩
    · intro h
      obtain ⟨hE, hw⟩ := h x hx
      exact ⟨_, (hinvoke _).mpr ⟨x, hx, hE, rfl⟩, hw⟩

theorem agrees_ite {c : Prop} [Decidable c] {o' : Outcome} {P P' : Prop}
    (hpos : c → (Agrees keep o replay ↔ P)) (hneg : ¬ c → (Agrees keep o' replay ↔ P')) :
    Agrees keep (if c then o else o') replay ↔ if c then P else P' := by
  split
  · exact hpos ‹c›
  · exact hneg ‹¬ c›

theorem forall_eq_cons_cons {a b : GoString} {l : List GoString}
    {Q : GoString → GoString → List GoString → Prop} :
    (∀ a' b' l', a :: b :: l = a' :: b' :: l' → Q a' b' l') ↔ Q a b l := by
  constructor
  · intro h
    exact h a b l rfl
  · rintro h a' b' l' ⟨⟩
    exact h

theorem insert_empty_inj {k k' : GoString} {v v' : Bytes} :
    (∅ : WriteMap).insert k v = (∅ : WriteMap).insert k' v' ↔ k = k' ∧ v = v' := by
  constructor
  · intro h
    have hk : k ∈ (∅ : WriteMap).insert k' v' := h ▸ by simp
    obtain rfl := mem_insert_empty hk
    have hv := congrArg (fun m : WriteMap => m[k]?) h
    simp only [Std.ExtTreeMap.getElem?_insert_self, Option.some.injEq] at hv
    exact ⟨rfl, hv⟩
  · rintro ⟨rfl, rfl⟩
    rfl

/-- `GetReceipt` fails: the number of arguments, a blank id, or a receipt that does not
decode. -/
def ReceiptFails (clean : GoString → GoString) (decode : Bytes → Option Json) (db : View)
    (args : List GoString) : Prop :=
  ∀ raw, args = [raw] → clean raw ≠ [] →
    ∃ payload, db (receiptKey (clean raw)) = some payload ∧ decode payload = none

theorem getReceiptWith_agrees {clean : GoString → GoString} {required : String}
    {decode : Bytes → Option Json} :
    Agrees keep (getReceiptWith clean required decode db args) (.error e) ↔
      ReceiptFails clean decode db args := by
  rw [agrees_error_iff]
  match args with
  | [] | _ :: _ :: _ => exact iff_of_true (fun r h => nomatch h) fun raw h => nomatch h
  | [raw] =>
    have hone : ReceiptFails clean decode db [raw] ↔ (clean raw ≠ [] →
        ∃ payload, db (receiptKey (clean raw)) = some payload ∧ decode payload = none) := by
      constructor
      · exact fun h => h raw rfl
      · rintro h raw' he
        obtain rfl : raw = raw' := by simpa using he
        exact h
    rw [hone]
    unfold getReceiptWith
    by_cases hraw : clean raw = []
    · simp [hraw]
    · simp only [if_neg hraw]
      cases hdb : db (receiptKey (clean raw)) with
      | none => simp [hraw]
      | some payload =>
        cases hdec : decode payload with
        | none => simp [hdec]
        | some r => simp [hdec, hraw]

theorem batchReceipts_agrees :
    Agrees keep (batchGetReceipts db args) (.error e) ↔
      ∀ raw, args = [raw] → requestIds raw = none := by
  rw [agrees_error_iff]
  match args with
  | [] | _ :: _ :: _ => exact iff_of_true (fun r h => nomatch h) fun raw h => nomatch h
  | [raw] =>
    unfold batchGetReceipts
    cases hids : requestIds raw with
    | none | some ids => simp [hids]

end FabricOev.Chaincode
