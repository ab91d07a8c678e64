import FabricOev.Go.JsonRoundTrip

/-!
# Decoding JSON into Go values

The typed layer of `json.Unmarshal` for structs of strings, integers and slices.
A decoder takes the value already in the variable: `null` keeps it (a slice becomes
nil), an unknown key is skipped, a later duplicate of a key decodes over the earlier
one. `none` is any error of `json.Unmarshal`; its callers never look further.
-/

namespace FabricOev.Go.Json

/-- The `K` and `S` look-alikes that `encoding/json` folds together with `k` and `s`. -/
def foldAlias (n : UInt8) : Bytes :=
  if n = 0x6B then [0xE2, 0x84, 0xAA] else if n = 0x73 then [0xC5, 0xBF] else []

/-- `equalFold` of a lower-case field name; `skip` bytes of the key belong to the last rune. -/
def equalFold : Bytes → Nat → Bytes → Bool
  | [], _, [] => true
  | ns, skip + 1, _ :: ks => equalFold ns skip ks
  | n :: ns, 0, k :: ks =>
    if k = n ∨ (0x61 ≤ n ∧ n ≤ 0x7A ∧ k = n - 0x20) then equalFold ns 0 ks
    else if foldAlias n ≠ [] ∧ (foldAlias n).isPrefixOf (k :: ks) then
      equalFold ns ((foldAlias n).length - 1) ks
    else false
  | _, _, _ => false

abbrev Decoder (α : Type) := α → Json → Option α

def decodeString : Decoder GoString
  | cur, .null => some cur
  | _, .str s => some s
  | _, _ => none

def decodeInt : Decoder Int64
  | cur, .null => some cur
  | _, .num lit => (parseInt lit).toOption
  | _, _ => none

def decodeUint : Decoder UInt64
  | cur, .null => some cur
  | _, .num lit => (parseUint lit).toOption.map UInt64.ofNat
  | _, _ => none

/-- Element `i` of the array is decoded over element `i` of the slice, if it has one. -/
def decodeElems {α : Type} (zero : α) (dec : Decoder α) : List α → List Json → Option (List α)
  | _, [] => some []
  | cur, e :: es => do
    let x ← dec (cur.headD zero) e
    let xs ← decodeElems zero dec cur.tail es
    some (x :: xs)

def decodeSlice {α : Type} (zero : α) (dec : Decoder α) : Decoder (List α)
  | _, .null => some []
  | cur, .arr es => decodeElems zero dec cur es
  | _, _ => none

/-- The fields of a struct: the name and what decoding a value into the field does. -/
abbrev Fields (σ : Type) := List (GoString × Decoder σ)

/-- The field a key selects: the one of that name, else the one of that folded name. -/
def Fields.lookup {σ : Type} (fs : Fields σ) (k : GoString) : Option (Decoder σ) :=
  match fs.find? (·.1 = k) with
  | some f => some f.2
  | none => (fs.find? fun f => equalFold f.1 0 k).map (·.2)

def decodeMember {σ : Type} (fs : Fields σ) (cur : σ) (m : GoString × Json) : Option σ :=
  match fs.lookup m.1 with
  | some dec => dec cur m.2
  | none => some cur

def decodeStruct {σ : Type} (fs : Fields σ) : Decoder σ
  | cur, .null => some cur
  | cur, .obj ms => ms.foldlM (decodeMember fs) cur
  | _, _ => none

def unmarshal {α : Type} (zero : α) (dec : Decoder α) (data : Bytes) : Option α :=
  (parse data).bind (dec zero)

/-- `json.NewDecoder`, one `Decode` into a zero value: the first value of the text. -/
def decodeFirst {α : Type} (zero : α) (dec : Decoder α) (data : Bytes) : Option α :=
  (parseValue ((units data).length + 1) (units data)).bind fun p => dec zero p.1

theorem unmarshal_encode {α : Type} {zero : α} {dec : Decoder α} {j : Json} (hj : Canonical j) :
    unmarshal zero dec (encode j) = dec zero (coerce j) := by
  rw [unmarshal, parse_encode hj]
  rfl

theorem decodeInt_formatInt (cur i : Int64) : decodeInt cur (.num (formatInt i)) = some i := by
  rw [decodeInt, parseInt_formatInt]
  rfl

theorem decodeUint_formatNat (cur n : UInt64) :
    decodeUint cur (.num (formatNat n.toNat)) = some n := by
  rw [decodeUint, parseUint_formatNat n.toNat_lt]
  simp [Except.toOption]

theorem decodeElems_map {α β : Type} (zero : α) (dec : Decoder α) (f : β → Json) (g : β → α)
    (xs : List β) (h : ∀ x ∈ xs, dec zero (f x) = some (g x)) :
    decodeElems zero dec [] (xs.map f) = some (xs.map g) := by
  induction xs with
  | nil => rfl
  | cons x xs ih =>
    have hx := h x (by simp)
    have hxs := ih fun y hy => h y (by simp [hy])
    simp [decodeElems, hx, hxs]

end FabricOev.Go.Json
