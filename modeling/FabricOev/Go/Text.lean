import Mathlib

/-!
# Go strings

A Go string is a sequence of bytes with no well-formedness condition. This file
has the parts of `unicode/utf8`, `strings` and `strconv` that byte strings pass
through: the split into runes, `strings.TrimSpace`, `strconv.ParseInt` with base
10 and 64 bits, and the decimal rendering of an `int64`. No string is assumed to
be valid UTF-8.
-/

namespace FabricOev.Go

open List

abbrev Bytes := List UInt8

abbrev GoString := Bytes

/-- The bytes of a string constant of the source. -/
def str (s : String) : GoString := s.toUTF8.data.toList

theorem str_inj {a b : String} : str a = str b ↔ a = b := by
  rw [str, str, Array.toList_inj, ← ByteArray.ext_iff]
  exact String.toByteArray_inj

/-! ## Runes -/

/-- What `utf8.DecodeRune` finds: an encoding, or one byte reported as `RuneError`. -/
inductive Rune where
  | valid (enc : Bytes)
  | invalid (b : UInt8)
deriving DecidableEq, Repr

/-- The encoding of U+FFFD. -/
def replacement : Bytes := [0xEF, 0xBF, 0xBD]

/-- The bytes `utf8.EncodeRune` writes for a decoded rune. -/
def Rune.bytes : Rune → Bytes
  | .valid enc => enc
  | .invalid _ => replacement

def Rune.width : Rune → Nat
  | .valid enc => enc.length
  | .invalid _ => 1

/-- The length a leading byte announces; 0 if no encoding starts with it. -/
def runeLen (b : UInt8) : Nat :=
  if b < 0x80 then 1
  else if b < 0xC2 then 0
  else if b < 0xE0 then 2
  else if b < 0xF0 then 3
  else if b < 0xF5 then 4
  else 0

def isCont (b : UInt8) : Bool := 0x80 ≤ b && b ≤ 0xBF

/-- The second byte, whose range depends on the first. -/
def isSecond (b0 b1 : UInt8) : Bool :=
  isCont b1 && (b0 != 0xE0 || 0xA0 ≤ b1) && (b0 != 0xED || b1 ≤ 0x9F) &&
    (b0 != 0xF0 || 0x90 ≤ b1) && (b0 != 0xF4 || b1 ≤ 0x8F)

/-- `utf8.DecodeRune` on the string `b0 :: t`. -/
def decodeRune (b0 : UInt8) (t : Bytes) : Rune :=
  match runeLen b0, t with
  | 1, _ => .valid [b0]
  | 2, b1 :: _ => if isSecond b0 b1 then .valid [b0, b1] else .invalid b0
  | 3, b1 :: b2 :: _ =>
    if isSecond b0 b1 && isCont b2 then .valid [b0, b1, b2] else .invalid b0
  | 4, b1 :: b2 :: b3 :: _ =>
    if isSecond b0 b1 && isCont b2 && isCont b3 then .valid [b0, b1, b2, b3] else .invalid b0
  | _, _ => .invalid b0

/-- `skip` bytes belong to the rune emitted last. -/
def toRunesAux : Nat → Bytes → List Rune
  | _, [] => []
  | skip + 1, _ :: t => toRunesAux skip t
  | 0, b :: t => decodeRune b t :: toRunesAux ((decodeRune b t).width - 1) t

/-- The runes of a string, in the order of Go's `range`. -/
def toRunes (s : GoString) : List Rune := toRunesAux 0 s

/-- The string with every byte outside a well-formed encoding replaced by U+FFFD. -/
def coerceUtf8 (s : GoString) : GoString := (toRunes s).flatMap Rune.bytes

def IsEncoding (enc : Bytes) : Prop := ∃ b t, enc = b :: t ∧ decodeRune b t = .valid enc

theorem toRunesAux_drop (k : Nat) (s : Bytes) : toRunesAux k s = toRunesAux 0 (s.drop k) := by
  induction k generalizing s with
  | zero => rfl
  | succ k ih =>
    cases s with
    | nil => rfl
    | cons b t => exact ih t

theorem toRunes_cons (b : UInt8) (t : Bytes) :
    toRunes (b :: t) = decodeRune b t :: toRunes (t.drop ((decodeRune b t).width - 1)) := by
  rw [toRunes, toRunesAux, toRunesAux_drop]
  rfl

/-- `decodeRune` finds a bad byte or an encoding of at most four bytes, which alone decides it. -/
theorem decodeRune_cases (b : UInt8) (t : Bytes) :
    decodeRune b t = .invalid b ∨ ∃ u rest, t = u ++ rest ∧ decodeRune b t = .valid (b :: u) ∧
        ∀ w, decodeRune b (u ++ w) = .valid (b :: u) := by
  unfold decodeRune
  split
  · exact .inr ⟨[], _, rfl, by simp_all⟩
  · rename_i b1 rest _
    split
    · exact .inr ⟨[b1], rest, by simp_all⟩
    · exact .inl rfl
  · rename_i b1 b2 rest _
    split
    · exact .inr ⟨[b1, b2], rest, by simp_all⟩
    · exact .inl rfl
  · rename_i b1 b2 b3 rest _
    split
    · exact .inr ⟨[b1, b2, b3], rest, by simp_all⟩
    · exact .inl rfl
  · exact .inl rfl

variable {b : UInt8} {enc : Bytes} {t : Bytes} {s : Bytes} {w : Bytes} {encs : List Bytes}

theorem decodeRune_valid (h : decodeRune b t = .valid enc) : IsEncoding enc := by
  obtain hi | ⟨u, rest, -, hv, hw⟩ := decodeRune_cases b t
  · simp [hi] at h
  · obtain rfl := Rune.valid.inj (hv.symm.trans h)
    exact ⟨b, u, rfl, by simpa using hw []⟩

theorem IsEncoding.decodeRune_append {u : Bytes} (h : IsEncoding (b :: u)) (w : Bytes) :
    decodeRune b (u ++ w) = .valid (b :: u) := by
  obtain ⟨b', u', heq, hd⟩ := h
  obtain ⟨rfl, rfl⟩ := cons.inj heq
  obtain hi | ⟨v, rest, -, hv, hw⟩ := decodeRune_cases b u
  · simp [hi] at hd
  · obtain ⟨-, rfl⟩ := cons.inj (Rune.valid.inj (hv.symm.trans hd))
    exact hw w

theorem toRunes_encoding_append (h : IsEncoding enc) (w : Bytes) :
    toRunes (enc ++ w) = .valid enc :: toRunes w := by
  obtain ⟨b, u, rfl, -⟩ := id h
  rw [cons_append, toRunes_cons, h.decodeRune_append]
  simp [Rune.width]

theorem toRunes_flatten (h : ∀ enc ∈ encs, IsEncoding enc) :
    toRunes encs.flatten = encs.map .valid := by
  induction encs with
  | nil => rfl
  | cons enc encs ih =>
    rw [flatten_cons, toRunes_encoding_append (h enc (by simp)), ih fun e he => h e (by simp [he])]
    rfl

theorem isEncoding_ascii (h : b < 0x80) : IsEncoding [b] :=
  ⟨b, [], rfl, by simp [decodeRune, runeLen, h]⟩

theorem isEncoding_repl : IsEncoding replacement := ⟨0xEF, [0xBF, 0xBD], rfl, by decide⟩

/-- Induction along the runes of a string. -/
theorem rune_induction {P : Bytes → Prop} (nil : P [])
    (cons : ∀ b t, P (t.drop ((decodeRune b t).width - 1)) → P (b :: t)) (s : Bytes) : P s := by
  induction hn : s.length using Nat.strong_induction_on generalizing s with
  | _ n ih =>
    cases s with
    | nil => exact nil
    | cons b t =>
      refine cons b t (ih _ ?_ _ rfl)
      simp only [length_cons, length_drop] at hn ⊢
      omega

theorem mem_toRunes_valid : .valid enc ∈ toRunes s → IsEncoding enc := by
  induction s using rune_induction with
  | nil => simp [toRunes, toRunesAux]
  | cons b t ih =>
    rw [toRunes_cons, mem_cons]
    rintro (h | h)
    · exact decodeRune_valid h.symm
    · exact ih h

/-- `w` does not begin inside an encoding. -/
def StartsRune (w : Bytes) : Prop := ∀ b ∈ w.head?, isCont b = false

/-- Behind the leading byte an encoding has continuation bytes only. -/
theorem IsEncoding.isCont_tail {u : Bytes} (h : IsEncoding (b :: u)) :
    ∀ c ∈ u, isCont c = true := by
  obtain ⟨b', u', heq, hd⟩ := h
  obtain ⟨rfl, rfl⟩ := cons.inj heq
  have second : ∀ {c}, isSecond b c = true → isCont c = true := by
    intro c hc
    simp only [isSecond, Bool.and_eq_true] at hc
    exact hc.1.1.1.1
  unfold decodeRune at hd
  split at hd
  · simp_all
  · split at hd <;> simp_all
  · split at hd <;> simp_all
  · split at hd <;> simp_all
  · cases hd

theorem decodeRune_append_invalid (hw : StartsRune w) (h : decodeRune b t = .invalid b) :
    decodeRune b (t ++ w) = .invalid b := by
  obtain hi | ⟨u, rest, hu, hv, hall⟩ := decodeRune_cases b (t ++ w)
  · exact hi
  obtain ⟨a, rfl, rfl⟩ | ⟨a, rfl, rfl⟩ := append_eq_append_iff.mp hu
  · cases a with
    | nil =>
      have := hall []
      simp [h] at this
    | cons c a =>
      -- the encoding would reach into `w`, whose first byte continues nothing
      have hc := (decodeRune_valid hv).isCont_tail c (by simp)
      rw [hw c rfl] at hc
      cases hc
  · rw [hall a] at h
    cases h

theorem toRunes_append (hw : StartsRune w) (s : Bytes) :
    toRunes (s ++ w) = toRunes s ++ toRunes w := by
  induction s using rune_induction with
  | nil => rfl
  | cons b t ih =>
    rw [cons_append, toRunes_cons, toRunes_cons]
    obtain hi | ⟨u, rest, rfl, hv, hu⟩ := decodeRune_cases b t
    · rw [hi] at ih
      rw [hi, decodeRune_append_invalid hw hi]
      simpa [Rune.width] using ih
    · rw [hv] at ih
      rw [hv, append_assoc, hu]
      simpa [Rune.width] using ih

theorem toRunes_ascii (h : ∀ b ∈ s, b < 0x80) : toRunes s = s.map fun b => .valid [b] := by
  have := @toRunes_flatten (s.map ([·])) (by simpa using fun b hb => isEncoding_ascii (h b hb))
  rw [← flatMap_def, flatMap_singleton'] at this
  simpa [Function.comp_def] using this

theorem coerceUtf8_ascii (h : ∀ b ∈ s, b < 0x80) : coerceUtf8 s = s := by
  simp [coerceUtf8, toRunes_ascii h, flatMap_map, Rune.bytes]

theorem coerce_encoding_append (h : IsEncoding enc) (s : Bytes) :
    coerceUtf8 (enc ++ s) = enc ++ coerceUtf8 s := by
  rw [coerceUtf8, toRunes_encoding_append h]
  rfl

theorem coerce_flatten_append (h : ∀ enc ∈ encs, IsEncoding enc) (s : Bytes) :
    coerceUtf8 (encs.flatten ++ s) = encs.flatten ++ coerceUtf8 s := by
  induction encs with
  | nil => rfl
  | cons enc encs ih =>
    rw [flatten_cons, append_assoc, coerce_encoding_append (h enc (by simp)),
      ih fun e he => h e (by simp [he]), append_assoc]

theorem coerceUtf8_append (hw : StartsRune w) (s : Bytes) :
    coerceUtf8 (s ++ w) = coerceUtf8 s ++ coerceUtf8 w := by
  rw [coerceUtf8, toRunes_append hw, flatMap_append]
  rfl

/-- The encodings of the runes for which `unicode.IsSpace` holds. -/
def spaces : List Bytes :=
  [[0x09], [0x0A], [0x0B], [0x0C], [0x0D], [0x20], [0xC2, 0x85], [0xC2, 0xA0],
    [0xE1, 0x9A, 0x80], [0xE2, 0x80, 0x80], [0xE2, 0x80, 0x81], [0xE2, 0x80, 0x82],
    [0xE2, 0x80, 0x83], [0xE2, 0x80, 0x84], [0xE2, 0x80, 0x85], [0xE2, 0x80, 0x86],
    [0xE2, 0x80, 0x87], [0xE2, 0x80, 0x88], [0xE2, 0x80, 0x89], [0xE2, 0x80, 0x8A],
    [0xE2, 0x80, 0xA8], [0xE2, 0x80, 0xA9], [0xE2, 0x80, 0xAF], [0xE2, 0x81, 0x9F],
    [0xE3, 0x80, 0x80]]

/-- Drop patterns from the front; `skip` bytes belong to the last one matched. -/
def strip (pats : List Bytes) : Nat → Bytes → Bytes
  | _, [] => []
  | skip + 1, _ :: t => strip pats skip t
  | 0, b :: t =>
    match pats.find? (·.isPrefixOf (b :: t)) with
    | some p => strip pats (p.length - 1) t
    | none => b :: t

/-- `strings.TrimSpace`; the right end is stripped on the reversed bytes. -/
def trimSpace (s : GoString) : GoString :=
  (strip (spaces.map reverse) 0 (strip spaces 0 s).reverse).reverse

theorem strip_drop (pats : List Bytes) (k : Nat) (s : Bytes) :
    strip pats k s = strip pats 0 (s.drop k) := by
  induction k generalizing s with
  | zero => rfl
  | succ k ih =>
    cases s with
    | nil => rfl
    | cons b t => exact ih t

/-- What `strip` removes is a sequence of patterns. -/
theorem strip_split {pats : List Bytes} (hne : [] ∉ pats) (s : Bytes) :
    ∃ ws : List Bytes, (∀ w ∈ ws, w ∈ pats) ∧ s = ws.flatten ++ strip pats 0 s := by
  induction hn : s.length using Nat.strong_induction_on generalizing s with
  | _ n ih =>
    cases s with
    | nil => exact ⟨[], by simp, rfl⟩
    | cons b t =>
      rw [strip]
      cases hf : pats.find? (·.isPrefixOf (b :: t)) with
      | none => exact ⟨[], by simp, rfl⟩
      | some p =>
        have hmem := mem_of_find?_eq_some hf
        have hpre : p.isPrefixOf (b :: t) = true := by simpa using find?_some hf
        obtain ⟨r, hr⟩ := isPrefixOf_iff_prefix.mp hpre
        cases p with
        | nil => exact absurd hmem hne
        | cons c p =>
          obtain ⟨rfl, rfl⟩ := cons.inj hr
          obtain ⟨ws, hws, hs⟩ := ih r.length (by simp at hn; omega) r rfl
          refine ⟨(c :: p) :: ws, by simpa using ⟨hmem, hws⟩, ?_⟩
          simp only [length_cons, Nat.add_sub_cancel, strip_drop pats p.length,
            append_eq, drop_left]
          simpa using hs

/-- A trimmed string is the original without some space runes at both ends. -/
theorem trimSpace_split (s : GoString) :
    ∃ pre post : List Bytes, (∀ w ∈ pre, w ∈ spaces) ∧ (∀ w ∈ post, w ∈ spaces) ∧
      s = pre.flatten ++ trimSpace s ++ post.flatten := by
  obtain ⟨pre, hpre, hs⟩ := @strip_split spaces (by decide) s
  obtain ⟨ws, hws, ht⟩ := @strip_split (spaces.map reverse) (by decide) (strip spaces 0 s).reverse
  refine ⟨pre, ws.reverse.map reverse, hpre, ?_, ?_⟩
  · intro w hw
    obtain ⟨v, hv, rfl⟩ := mem_map.mp hw
    obtain ⟨u, hu, rfl⟩ := mem_map.mp (hws v (by simpa using hv))
    simpa using hu
  · have ht' := congrArg reverse ht
    rw [reverse_reverse, reverse_append, reverse_flatten] at ht'
    rw [append_assoc, trimSpace, map_reverse, ← ht']
    exact hs

theorem isEncoding_space (h : w ∈ spaces) : IsEncoding w := by
  have hall : ∀ w ∈ spaces, (w.head?.map fun b => decodeRune b w.tail) = some (.valid w) := by
    decide +kernel
  have hw := hall w h
  cases w with
  | nil => cases hw
  | cons b t => exact ⟨b, t, rfl, Option.some.inj hw⟩

theorem startsRune_spaces {ws : List Bytes} (h : ∀ w ∈ ws, w ∈ spaces) : StartsRune ws.flatten := by
  have hall : ∀ w ∈ spaces, w ≠ [] ∧ ∀ b ∈ w.head?, isCont b = false := by decide +kernel
  cases ws with
  | nil =>
    intro b hb
    cases hb
  | cons w ws =>
    obtain ⟨hne, hhead⟩ := hall w (h w (by simp))
    intro b hb
    refine hhead b ?_
    rwa [flatten_cons, head?_append_of_ne_nil _ hne] at hb

/-- Trimming shows in the coerced text: it is unchanged only if nothing was trimmed. -/
theorem trimSpace_eq_of_coerceUtf8 {s : GoString}
    (h : coerceUtf8 (trimSpace s) = coerceUtf8 s) : trimSpace s = s := by
  obtain ⟨pre, post, hpre, hpost, hs⟩ := trimSpace_split s
  have hc : coerceUtf8 s = pre.flatten ++ (coerceUtf8 (trimSpace s) ++ post.flatten) := by
    have hp : coerceUtf8 post.flatten = post.flatten := by
      have hflat := coerce_flatten_append (fun w hw => isEncoding_space (hpost w hw)) []
      simpa [coerceUtf8, toRunes, toRunesAux] using hflat
    conv_lhs => rw [hs, append_assoc,
      coerce_flatten_append (fun w hw => isEncoding_space (hpre w hw)),
      coerceUtf8_append (startsRune_spaces hpost), hp]
  have hlen := congrArg length (hc.symm.trans h.symm)
  simp only [length_append] at hlen
  have hpre' : pre.flatten = [] := length_eq_zero_iff.mp (by omega)
  have hpost' : post.flatten = [] := length_eq_zero_iff.mp (by omega)
  rw [hpre', hpost', nil_append, append_nil] at hs
  exact hs.symm

end FabricOev.Go
