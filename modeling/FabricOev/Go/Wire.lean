import FabricOev.Go.Text

/-!
# The protocol buffer wire format

The decoder of the vendored `golang/protobuf` for fields that are varints or length-delimited: a
message is the list of its declared fields in the order of the wire, unknown fields are skipped, and
a malformed part makes the whole message an error (`none`). A declared field tagged as a group start
is decoded as its own kind, as the library does. No string is checked to be UTF-8.
-/

namespace FabricOev.Go.Wire

open List Option Nat UInt8

/-- How a declared field is decoded. A member of a `oneof` must carry exactly its wire type. -/
inductive Kind where
  | varint
  | bytes
  | oneof
  | map
deriving DecidableEq, Repr

inductive Value where
  | varint (n : Nat)
  | bytes (b : Bytes)
deriving DecidableEq, Repr

structure Field where
  num : Nat
  val : Value
deriving DecidableEq, Repr

/-- At most ten bytes; bits past the 64th are lost. -/
def varintLoop : Nat → Nat → Nat → Bytes → Option (Nat × Bytes)
  | 0, _, _, _ => none
  | _ + 1, _, _, [] => none
  | k + 1, shift, acc, b :: t =>
    let acc := (acc + b.toNat % 128 * 2 ^ shift) % 2 ^ 64
    if b < 0x80 then some (acc, t) else varintLoop k (shift + 7) acc t

def decodeVarint (s : Bytes) : Option (Nat × Bytes) := varintLoop 10 0 0 s

def decodeRawBytes (s : Bytes) : Option (Bytes × Bytes) := do
  let (n, t) ← decodeVarint s
  if n ≤ t.length then some (t.take n, t.drop n) else none

def dropExactly (n : Nat) (s : Bytes) : Option Bytes :=
  if n ≤ s.length then some (s.drop n) else none

mutual
def skip : Nat → Nat → Bytes → Option Bytes
  | 0, _, _ => none
  | n + 1, wire, s =>
    if wire = 0 then (decodeVarint s).map (·.2)
    else if wire = 1 then dropExactly 8 s
    else if wire = 2 then (decodeRawBytes s).map (·.2)
    else if wire = 3 then skipGroup n s
    else if wire = 5 then dropExactly 4 s
    else none
def skipGroup : Nat → Bytes → Option Bytes
  | 0, _ => none
  | n + 1, s => do
    let (u, t) ← decodeVarint s
    if u % 8 = 4 then some t
    else do
      let t ← skip n (u % 8) t
      skipGroup n t
end

/-- The loop of `dec_new_map` over an entry of a `map<string, bytes>` with `rest` bytes behind it.
Key and value are read from the whole buffer, and the last one may run on past the entry. -/
def mapLoop (rest : Nat) : Nat → Bytes → Option Bytes
  | _, [] => some []
  | 0, _ :: _ => none
  | n + 1, tag :: s =>
    if s.length < rest then some (tag :: s)
    else if tag = 0x0A ∨ tag = 0x12 then do
      let (_, t) ← decodeRawBytes s
      mapLoop rest n t
    else none

abbrev Desc := List (Nat × Kind)

def wireMatches (wire : Nat) : Kind → Bool
  | .varint => wire = 0 ∨ wire = 3
  | .bytes | .map => wire = 2 ∨ wire = 3
  | .oneof => wire = 2

def decodeValue (kind : Kind) (s : Bytes) : Option (Value × Bytes) :=
  match kind with
  | .varint => (decodeVarint s).map fun (n, t) => (.varint n, t)
  | .map => do
    let (b, t) ← decodeRawBytes s
    let t ← mapLoop t.length (b ++ t).length (b ++ t)
    some (.bytes b, t)
  | _ => (decodeRawBytes s).map fun (b, t) => (.bytes b, t)

/-- The loop of `unmarshalType`. -/
def decodeLoop (desc : Desc) : Nat → Bytes → Option (List Field)
  | _, [] => some []
  | 0, _ :: _ => none
  | n + 1, b :: s => do
    let (u, t) ← decodeVarint (b :: s)
    let wire := u % 8
    let tag := u / 8
    if wire = 4 ∨ tag = 0 then none
    else
      match desc.lookup tag with
      | none => do
        -- a call of `skip` per byte, and one of `skipGroup`
        let t ← skip (2 * t.length) wire t
        decodeLoop desc n t
      | some kind =>
        if wireMatches wire kind then do
          let (v, t) ← decodeValue kind t
          let fs ← decodeLoop desc n t
          some (⟨tag, v⟩ :: fs)
        else none

/-- The declared fields a message carries, in the order of the wire. -/
def decodeFields (desc : Desc) (s : Bytes) : Option (List Field) := decodeLoop desc s.length s

/-- An unknown field may be a group, also an empty one at the end of the message. -/
example : decodeFields [] [0x1B, 0x1C] = some [] ∧
    decodeFields [] [0x1B, 0x23, 0x24, 0x1C, 0x28, 1] = some [] := by decide

/-- The entry ends behind the tag of its value, which is read from what follows. -/
example : decodeFields [(2, .map)] [0x12, 1, 0x12, 2, 7, 7] = some [⟨2, .bytes [0x12]⟩] := by decide

def allBytes (num : Nat) (fs : List Field) : List Bytes :=
  fs.filterMap fun f =>
    match f.val with
    | .bytes b => if f.num = num then some b else none
    | .varint _ => none

def allVarints (num : Nat) (fs : List Field) : List Nat :=
  fs.filterMap fun f =>
    match f.val with
    | .varint n => if f.num = num then some n else none
    | .bytes _ => none

/-- A `bytes` field: nil if absent, else its last occurrence. -/
def lastBytes (num : Nat) (fs : List Field) : Option Bytes := (allBytes num fs).getLast?

def lastString (num : Nat) (fs : List Field) : GoString := (lastBytes num fs).getD []

def lastVarint (num : Nat) (fs : List Field) : Nat := ((allVarints num fs).getLast?).getD 0

/-- A singular message field: nil if absent, else the merge of all its occurrences. -/
def subMessage (num : Nat) (desc : Desc) (fs : List Field) : Option (Option (List Field)) := do
  let parts ← (allBytes num fs).mapM (decodeFields desc)
  some (if parts = [] then none else some parts.flatten)

def subMessages (num : Nat) (desc : Desc) (fs : List Field) : Option (List (List Field)) :=
  (allBytes num fs).mapM (decodeFields desc)

/-! ## Encoding -/

def encodeVarintLoop : Nat → Nat → Bytes
  | 0, _ => []
  | k + 1, n =>
    if n < 128 then [ofNat n]
    else ofNat (n % 128 + 128) :: encodeVarintLoop k (n / 128)

def encodeVarint (n : Nat) : Bytes := encodeVarintLoop 10 n

def encodeField (f : Field) : Bytes :=
  match f.val with
  | .varint n => encodeVarint (f.num * 8) ++ encodeVarint n
  | .bytes b => encodeVarint (f.num * 8 + 2) ++ encodeVarint b.length ++ b

def encodeFields (fs : List Field) : Bytes := fs.flatMap encodeField

/-- A `bytes` or `string` field; proto3 leaves an empty one out. -/
def bytesField (num : Nat) (b : Bytes) : List Field := if b = [] then [] else [⟨num, .bytes b⟩]

/-- A message field, or one element of a repeated field, which is written even if empty. -/
def messageField (num : Nat) (b : Bytes) : List Field := [⟨num, .bytes b⟩]

def varintField (num n : Nat) : List Field := if n = 0 then [] else [⟨num, .varint n⟩]

theorem varintLoop_encode (t : Bytes) :
    ∀ (k n shift acc : Nat), n < 128 ^ (k + 1) → acc + n * 2 ^ shift < 2 ^ 64 →
      varintLoop (k + 1) shift acc (encodeVarintLoop (k + 1) n ++ t) =
        some (acc + n * 2 ^ shift, t) := by
  have hlast : ∀ (k n shift acc : Nat), n < 128 → acc + n * 2 ^ shift < 2 ^ 64 →
      varintLoop (k + 1) shift acc (encodeVarintLoop (k + 1) n ++ t) =
        some (acc + n * 2 ^ shift, t) := by
    intro k n shift acc hn hacc
    have hb : (ofNat n).toNat = n := by rw [toNat_ofNat']; omega
    have hlt : ofNat n < 0x80 := by rw [lt_iff_toNat_lt, hb]; exact hn
    simp only [encodeVarintLoop, if_pos hn, singleton_append, varintLoop, if_pos hlt, hb,
      mod_eq_of_lt hn, mod_eq_of_lt hacc]
  intro k
  induction k with
  | zero =>
    intro n shift acc hn
    exact hlast 0 n shift acc (by simpa using hn)
  | succ k ih =>
    intro n shift acc hn hacc
    by_cases hsmall : n < 128
    · exact hlast (k + 1) n shift acc hsmall hacc
    · have hb : (ofNat (n % 128 + 128)).toNat = n % 128 + 128 := by rw [toNat_ofNat']; omega
      have hge : ¬ ofNat (n % 128 + 128) < 0x80 := by
        rw [lt_iff_toNat_lt, hb]
        simp
      have hdiv : n / 128 < 128 ^ (k + 1) := by
        rw [div_lt_iff_lt_mul (by decide), ← pow_succ]
        exact hn
      have hsum : acc + n % 128 * 2 ^ shift + n / 128 * 2 ^ (shift + 7) = acc + n * 2 ^ shift := by
        have : n = n % 128 + 128 * (n / 128) := (mod_add_div n 128).symm
        calc acc + n % 128 * 2 ^ shift + n / 128 * 2 ^ (shift + 7)
            = acc + (n % 128 + 128 * (n / 128)) * 2 ^ shift := by rw [pow_add]; ring
          _ = acc + n * 2 ^ shift := by rw [← this]
      have hacc' : acc + n % 128 * 2 ^ shift < 2 ^ 64 := by
        have := zero_le (n / 128 * 2 ^ (shift + 7))
        omega
      rw [encodeVarintLoop, if_neg hsmall, cons_append, varintLoop]
      simp only [hb, add_mod_right, mod_mod, mod_eq_of_lt hacc', if_neg hge]
      rw [ih (n / 128) (shift + 7) _ hdiv (by omega), hsum]

variable {n : Nat} {b : Bytes} {t u : Bytes} {desc : Desc}

theorem decode_encodeVarint (hn : n < 2 ^ 64) (t : Bytes) :
    decodeVarint (encodeVarint n ++ t) = some (n, t) := by
  have := varintLoop_encode t 9 n 0 0 (lt_trans hn (by norm_num)) (by simpa using hn)
  simpa [decodeVarint, encodeVarint] using this

theorem decodeRawBytes_encode (hb : b.length < 2 ^ 64) (t : Bytes) :
    decodeRawBytes (encodeVarint b.length ++ b ++ t) = some (b, t) := by
  rw [decodeRawBytes, append_assoc, decode_encodeVarint hb]
  simp

theorem encodeVarint_ne_nil (n : Nat) : encodeVarint n ≠ [] := by
  simp only [encodeVarint, encodeVarintLoop]
  split <;> simp

theorem length_encodeVarintLoop_le (k m n : Nat) (hn : n < 128 ^ (m + 1)) :
    (encodeVarintLoop k n).length ≤ m + 1 := by
  induction k generalizing m n with
  | zero => exact zero_le _
  | succ k ih =>
    rw [encodeVarintLoop]
    split
    · exact succ_le_succ (zero_le m)
    · cases m with
      | zero => omega
      | succ m =>
        have hdiv : n / 128 < 128 ^ (m + 1) := by
          rw [div_lt_iff_lt_mul (by decide), ← pow_succ]
          exact hn
        exact succ_le_succ (ih m (n / 128) hdiv)

theorem length_encodeVarint_le (hn : n < 2 ^ 56) : (encodeVarint n).length ≤ 8 :=
  length_encodeVarintLoop_le 10 7 n (lt_of_lt_of_eq hn (by norm_num))

theorem varintLoop_of_append (k n shift acc : Nat) (h : t ++ u = encodeVarintLoop k n)
    (hu : u ≠ []) : varintLoop k shift acc t = none := by
  induction k generalizing n shift acc t with
  | zero => rfl
  | succ k ih =>
    cases t with
    | nil => rfl
    | cons b t =>
      rw [encodeVarintLoop] at h
      split at h
      · obtain ⟨-, hnil⟩ := cons.inj h
        exact absurd (append_eq_nil_iff.mp hnil).2 hu
      · obtain ⟨rfl, hrest⟩ := cons.inj h
        have hb : (ofNat (n % 128 + 128)).toNat = n % 128 + 128 := by
          rw [toNat_ofNat']
          omega
        have hge : ¬ ofNat (n % 128 + 128) < 0x80 := by
          rw [lt_iff_toNat_lt, hb]
          simp
        rw [varintLoop]
        simp only [if_neg hge]
        exact ih _ _ _ hrest

theorem decodeVarint_of_append (h : t ++ u = encodeVarint n) (hu : u ≠ []) :
    decodeVarint t = none :=
  varintLoop_of_append 10 n 0 0 h hu

def Declared (desc : Desc) (f : Field) : Prop :=
  0 < f.num ∧ f.num < 2 ^ 29 ∧
    match f.val with
    | .varint n => desc.lookup f.num = some .varint ∧ n < 2 ^ 64
    | .bytes _ => desc.lookup f.num = some .bytes ∨ desc.lookup f.num = some .oneof

theorem encodeFields_cons (f : Field) (fs : List Field) :
    encodeFields (f :: fs) = encodeField f ++ encodeFields fs := rfl

theorem decodeLoop_encodeField {f : Field} (hf : Declared desc f) {s : Bytes}
    (hlen : (encodeField f).length < 2 ^ 64) (n : Nat) :
    decodeLoop desc (n + 1) (encodeField f ++ s) = (decodeLoop desc n s).map (f :: ·) := by
  obtain ⟨num, val⟩ := f
  obtain ⟨hpos, hbound, hval⟩ := hf
  simp only at hpos hbound hval
  cases val with
  | varint m =>
    obtain ⟨hl, hm⟩ := hval
    have htag : decodeVarint (encodeField ⟨num, .varint m⟩ ++ s) =
        some (num * 8, encodeVarint m ++ s) := by
      rw [encodeField, append_assoc]
      exact decode_encodeVarint (show num * 8 < 2 ^ 64 by omega) _
    have hv := decode_encodeVarint hm s
    have hne : encodeField ⟨num, .varint m⟩ ++ s ≠ [] := by simp [encodeField, encodeVarint_ne_nil]
    obtain ⟨b, t, hbt⟩ := exists_cons_of_ne_nil hne
    rw [hbt] at htag ⊢
    have h8 : num * 8 % 8 = 0 ∧ num * 8 / 8 = num := by omega
    rw [decodeLoop]
    simp only [htag, bind_eq_bind, bind_some, h8.1, h8.2, hl]
    rw [if_neg (by omega)]
    simp only [wireMatches, decodeValue, hv, map_some, true_or, decide_true, if_true, bind_some]
    cases decodeLoop desc n s <;> rfl
  | bytes c =>
    have hc : c.length < 2 ^ 64 := by
      simp only [encodeField, length_append] at hlen
      omega
    have htag : decodeVarint (encodeField ⟨num, .bytes c⟩ ++ s) =
        some (num * 8 + 2, encodeVarint c.length ++ c ++ s) := by
      simp only [encodeField, append_assoc]
      exact decode_encodeVarint (by omega) _
    have hv := decodeRawBytes_encode hc s
    have hne : encodeField ⟨num, .bytes c⟩ ++ s ≠ [] := by simp [encodeField, encodeVarint_ne_nil]
    obtain ⟨b, t, hbt⟩ := exists_cons_of_ne_nil hne
    rw [hbt] at htag ⊢
    have h8 : (num * 8 + 2) % 8 = 2 ∧ (num * 8 + 2) / 8 = num := by omega
    rw [decodeLoop]
    rcases hval with hl | hl
    all_goals
      simp only [htag, bind_eq_bind, bind_some, h8.1, h8.2, hl]
      rw [if_neg (by omega)]
      simp only [wireMatches, decodeValue, hv, map_some, true_or, decide_true, if_true, bind_some]
      cases decodeLoop desc n s <;> rfl

/-- A message made of declared fields is read back field by field. -/
theorem decode_encodeFields {fs : List Field} (hf : ∀ f ∈ fs, Declared desc f)
    (hlen : (encodeFields fs).length < 2 ^ 64) :
    decodeFields desc (encodeFields fs) = some fs := by
  have key : ∀ (fs : List Field) (n : Nat), (∀ f ∈ fs, Declared desc f) →
      (encodeFields fs).length ≤ n → (encodeFields fs).length < 2 ^ 64 →
      decodeLoop desc n (encodeFields fs) = some fs := by
    intro fs
    induction fs with
    | nil =>
      intro n _ _ _
      simp [encodeFields, decodeLoop]
    | cons f fs ih =>
      intro n hd hn hlen
      rw [encodeFields_cons, length_append] at hn hlen
      have hpos : 0 < (encodeField f).length := by
        refine length_pos_iff.mpr ?_
        unfold encodeField
        split <;> simp [encodeVarint_ne_nil]
      obtain ⟨m, rfl⟩ : ∃ m, n = m + 1 := ⟨n - 1, by omega⟩
      rw [encodeFields_cons, decodeLoop_encodeField (hd f (by simp)) (by omega),
        ih m (fun g hg => hd g (by simp [hg])) (by omega) (by omega)]
      rfl
  exact key fs _ hf le_rfl hlen

/-! ## Fields of encoded messages -/

def DeclaredIn (desc : Desc) (fs : List Field) : Prop := ∀ f ∈ fs, Declared desc f

@[simp] theorem declaredIn_nil : DeclaredIn desc [] := by simp [DeclaredIn]

@[simp] theorem declaredIn_append {fs gs : List Field} :
    DeclaredIn desc (fs ++ gs) ↔ DeclaredIn desc fs ∧ DeclaredIn desc gs := forall_mem_append

@[simp] theorem declaredIn_flatMap {α : Type} {l : List α} {g : α → List Field} :
    DeclaredIn desc (l.flatMap g) ↔ ∀ a ∈ l, DeclaredIn desc (g a) := forall_mem_flatMap

@[simp] theorem declaredIn_messageField {num : Nat} (hn : 0 < num ∧ num < 2 ^ 29)
    (h : desc.lookup num = some .bytes ∨ desc.lookup num = some .oneof) :
    DeclaredIn desc (messageField num b) := by
  intro f hf
  obtain rfl := mem_singleton.mp hf
  exact ⟨hn.1, hn.2, h⟩

@[simp] theorem declaredIn_bytesField {num : Nat} (hn : 0 < num ∧ num < 2 ^ 29)
    (h : desc.lookup num = some .bytes) : DeclaredIn desc (bytesField num b) := by
  unfold bytesField
  split
  · exact declaredIn_nil
  · exact declaredIn_messageField hn (.inl h)

@[simp] theorem declaredIn_varintField {num : Nat} (hn : 0 < num ∧ num < 2 ^ 29)
    (h : desc.lookup num = some .varint) (hb : n < 2 ^ 64) :
    DeclaredIn desc (varintField num n) := by
  unfold varintField
  split
  · exact declaredIn_nil
  · intro f hf
    obtain rfl := mem_singleton.mp hf
    exact ⟨hn.1, hn.2, h, hb⟩

@[simp] theorem declaredIn_uint64 {num : Nat} {x : UInt64} (hn : 0 < num ∧ num < 2 ^ 29)
    (h : desc.lookup num = some .varint) : DeclaredIn desc (varintField num x.toNat) :=
  declaredIn_varintField hn h x.toNat_lt

/-- What proto3 writes of a value: nothing if it is empty. -/
def present (b : Bytes) : List Bytes := if b = [] then [] else [b]

/-- What a reader sees of it: nil if it was left out. -/
def nonNil (b : Bytes) : Option Bytes := if b = [] then none else some b

@[simp] theorem getLast?_present (b : Bytes) : (present b).getLast? = nonNil b := by
  by_cases hb : b = []
  · simp [present, nonNil, hb]
  · simp [present, nonNil, hb]

@[simp] theorem nonNil_getD (b : Bytes) : (nonNil b).getD [] = b := by
  by_cases hb : b = []
  · simp [nonNil, hb]
  · simp [nonNil, hb]

theorem nonNil_of_ne (hb : b ≠ []) : nonNil b = some b := if_neg hb

@[simp] theorem allBytes_append (num : Nat) (fs gs : List Field) :
    allBytes num (fs ++ gs) = allBytes num fs ++ allBytes num gs := filterMap_append

@[simp] theorem allBytes_nil (num : Nat) : allBytes num [] = [] := rfl

@[simp] theorem allBytes_messageField (num num' : Nat) (b : Bytes) :
    allBytes num (messageField num' b) = if num' = num then [b] else [] := by
  by_cases h : num' = num
  · simp [allBytes, messageField, h]
  · simp [allBytes, messageField, h]

@[simp] theorem allBytes_bytesField (num num' : Nat) (b : Bytes) :
    allBytes num (bytesField num' b) = if num' = num then present b else [] := by
  by_cases hb : b = []
  · simp [bytesField, present, hb]
  · by_cases h : num' = num
    · simp [allBytes, bytesField, present, hb, h]
    · simp [allBytes, bytesField, hb, h]

@[simp] theorem allBytes_varintField (num num' n : Nat) :
    allBytes num (varintField num' n) = [] := by
  unfold varintField
  split
  · rfl
  · rfl

@[simp] theorem allVarints_append (num : Nat) (fs gs : List Field) :
    allVarints num (fs ++ gs) = allVarints num fs ++ allVarints num gs := filterMap_append

@[simp] theorem allVarints_bytesField (num num' : Nat) (b : Bytes) :
    allVarints num (bytesField num' b) = [] := by
  unfold bytesField
  split
  · rfl
  · rfl

@[simp] theorem allVarints_messageField (num num' : Nat) (b : Bytes) :
    allVarints num (messageField num' b) = [] := rfl

@[simp] theorem allVarints_varintField (num num' n : Nat) :
    allVarints num (varintField num' n) =
      if num' = num then (if n = 0 then [] else [n]) else [] := by
  by_cases hn : n = 0
  · simp [varintField, allVarints, hn]
  · by_cases h : num' = num
    · simp [allVarints, varintField, hn, h]
    · simp [allVarints, varintField, hn, h]

@[simp] theorem getLast?_varint (n : Nat) : ((if n = 0 then [] else [n]).getLast?).getD 0 = n := by
  split
  · rename_i h
    simp [h]
  · rfl

section Read

variable {α : Type} {num : Nat} {fs : List Field} {a : α} {b : Bytes}
  {f : Option (List Field) → Option α} {num' : Nat}

theorem lt_of_part (num : Nat) {k : Nat} (h : (encodeFields fs).length < k)
    (hb : b ∈ allBytes num fs) : b.length < k := by
  obtain ⟨⟨num', val⟩, hf, hval⟩ := mem_filterMap.mp hb
  obtain ⟨u, v, rfl⟩ := append_of_mem hf
  cases val with
  | varint n => simp at hval
  | bytes c =>
    obtain rfl : c = b := by simpa using (ite_none_right_eq_some.mp hval).2
    simp only [encodeFields, flatMap_append, flatMap_cons, encodeField, length_append] at h
    omega

theorem lt_of_present (num : Nat) (h : (encodeFields fs).length < 2 ^ 64)
    (hb : allBytes num fs = present b) : b.length < 2 ^ 64 := by
  by_cases hnil : b = []
  · simp [hnil]
  · exact lt_of_part num h (by simp [hb, present, hnil])

theorem read_fields {f : List Field → Option α} (h : (encodeFields fs).length < 2 ^ 64)
    (hd : DeclaredIn desc fs) (hf : f fs = some a) :
    (decodeFields desc (encodeFields fs) >>= f) = some a := by
  rw [decode_encodeFields hd h]
  exact hf

theorem read_no_subMessage (hb : allBytes num fs = []) (hf : f none = some a) :
    (subMessage num desc fs >>= f) = some a := by
  simpa [subMessage, hb] using hf

theorem read_subMessage (gs : List Field) (h : (encodeFields fs).length < 2 ^ 64)
    (hb : allBytes num fs = [encodeFields gs]) (hd : DeclaredIn desc gs)
    (hf : f (some gs) = some a) :
    (subMessage num desc fs >>= f) = some a := by
  have hlen : (encodeFields gs).length < 2 ^ 64 := lt_of_part num h (by simp [hb])
  simpa [subMessage, hb, decode_encodeFields hd hlen] using hf

theorem read_subMessages {β : Type} (l : List β) (g : β → List Field)
    {f : List (List Field) → Option α} (h : (encodeFields fs).length < 2 ^ 64)
    (hb : allBytes num fs = l.map fun x => encodeFields (g x))
    (hd : ∀ x ∈ l, DeclaredIn desc (g x)) (hf : f (l.map g) = some a) :
    (subMessages num desc fs >>= f) = some a := by
  have hlen : ∀ x ∈ l, (encodeFields (g x)).length < 2 ^ 64 := by
    intro x hx
    exact lt_of_part num h (hb ▸ mem_map_of_mem hx)
  have hparts : subMessages num desc fs = some (l.map g) := by
    rw [subMessages, hb]
    clear hb hf
    induction l with
    | nil => rfl
    | cons x l ih =>
      rw [map_cons, mapM_cons, decode_encodeFields (hd x (by simp)) (hlen x (by simp)),
        ih (fun y hy => hd y (by simp [hy])) fun y hy => hlen y (by simp [hy])]
      rfl
  rw [hparts]
  exact hf

@[simp] theorem allBytes_flatMap_messageField {l : List α} {g : α → Bytes} :
    allBytes num (l.flatMap fun x => messageField num' (g x)) =
      if num' = num then l.map g else [] := by
  induction l with
  | nil => simp
  | cons x l ih =>
    rw [flatMap_cons, allBytes_append, ih, allBytes_messageField]
    split
    · rfl
    · rfl

@[simp] theorem allBytes_flatMap_messageField_self {l : List Bytes} :
    allBytes num (l.flatMap (messageField num')) = if num' = num then l else [] :=
  (allBytes_flatMap_messageField (g := id)).trans (by simp)

end Read

end FabricOev.Go.Wire
