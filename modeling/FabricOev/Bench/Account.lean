import FabricOev.Go.JsonDecode
import FabricOev.Go.Outcome

/-!
# Account records

The SmallBank account as it is stored: a JSON object. The replay engine and the
chaincode declare the same struct with the same tags.
-/

namespace FabricOev.Bench

open Go Option List Json

structure AccountRecord where
  accountId : GoString
  name : GoString
  checking : Int64
  savings : Int64
deriving DecidableEq, Repr

namespace AccountRecord

def zero : AccountRecord := ⟨[], [], 0, 0⟩

def toJson (a : AccountRecord) : Json :=
  .obj [(str "account_id", .str a.accountId), (str "name", .str a.name),
    (str "checking", .num (formatInt a.checking)), (str "savings", .num (formatInt a.savings))]

def marshal (a : AccountRecord) : Bytes := a.toJson.encode

def fields : Json.Fields AccountRecord :=
  [(str "account_id", fun a j => (decodeString a.accountId j).map ({ a with accountId := · })),
    (str "name", fun a j => (decodeString a.name j).map ({ a with name := · })),
    (str "checking", fun a j => (decodeInt a.checking j).map ({ a with checking := · })),
    (str "savings", fun a j => (decodeInt a.savings j).map ({ a with savings := · }))]

/-- `json.Unmarshal` into a record; `none` is its error. -/
def unmarshal (b : Bytes) : Option AccountRecord := Json.unmarshal zero (Json.decodeStruct fields) b

def coerce (a : AccountRecord) : AccountRecord :=
  { a with accountId := coerceUtf8 a.accountId, name := coerceUtf8 a.name }

variable (a : AccountRecord)

theorem canonical_toJson : Json.Canonical a.toJson :=
  ⟨trivial, trivial, isIntLit_formatInt _, isIntLit_formatInt _, trivial⟩

/-- A stored record is read back with its strings coerced. -/
theorem unmarshal_marshal : unmarshal a.marshal = some a.coerce := by
  have hshape : a.toJson.coerce = .obj [(str "account_id", .str (coerceUtf8 a.accountId)),
        (str "name", .str (coerceUtf8 a.name)),
        (str "checking", .num (formatInt a.checking)),
        (str "savings", .num (formatInt a.savings))] := by
    have hk : ∀ s ∈ ["account_id", "name", "checking", "savings"],
        coerceUtf8 (str s) = str s := by decide +kernel
    simp only [toJson, Json.coerce, Json.coerceMembers, hk "account_id" (by simp),
      hk "name" (by simp), hk "checking" (by simp), hk "savings" (by simp)]
  have h1 : decodeMember fields zero (str "account_id", .str (coerceUtf8 a.accountId)) =
      some ⟨coerceUtf8 a.accountId, [], 0, 0⟩ := rfl
  have h2 : decodeMember fields ⟨coerceUtf8 a.accountId, [], 0, 0⟩
      (str "name", .str (coerceUtf8 a.name)) =
        some ⟨coerceUtf8 a.accountId, coerceUtf8 a.name, 0, 0⟩ := rfl
  have h3 : decodeMember fields ⟨coerceUtf8 a.accountId, coerceUtf8 a.name, 0, 0⟩
      (str "checking", .num (formatInt a.checking)) =
        some ⟨coerceUtf8 a.accountId, coerceUtf8 a.name, a.checking, 0⟩ := by
    change (decodeInt _ _).map _ = _
    rw [decodeInt_formatInt]
    rfl
  have h4 : decodeMember fields ⟨coerceUtf8 a.accountId, coerceUtf8 a.name, a.checking, 0⟩
      (str "savings", .num (formatInt a.savings)) = some a.coerce := by
    change (decodeInt _ _).map _ = _
    rw [decodeInt_formatInt]
    rfl
  rw [unmarshal, marshal, Json.unmarshal_encode a.canonical_toJson, hshape]
  change foldlM _ _ _ = _
  simp only [foldlM_cons, h1, h2, h3, h4, bind_eq_bind, bind_some, foldlM_nil]
  rfl

end AccountRecord

end FabricOev.Bench
