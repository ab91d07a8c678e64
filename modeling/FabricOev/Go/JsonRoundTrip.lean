import FabricOev.Go.Json

/-!
# Parsing what was encoded

The parser inverts the encoder on every value whose numbers are integer literals.
What comes back is the value with every string coerced to valid UTF-8: the encoder
escapes a stray byte as U+FFFD, so the byte itself is lost.
-/

namespace FabricOev.Go.Json

open List Nat UInt8

/-! ## Strings -/

def IsRune : Rune → Prop
  | .valid enc => IsEncoding enc
  | .invalid _ => True

variable {r : Rune} {b : UInt8} {c : UInt8} {u : Bytes} {n : Nat} {rest : Units} {lit : Bytes}
  {j : Json} {e : Json} {us : Units}

theorem isRune_of_mem {s : GoString} (h : r ∈ toRunes s) : IsRune r := by
  cases r with
  | valid enc => exact mem_toRunes_valid h
  | invalid b => trivial

theorem IsRune.isEncoding_bytes (h : IsRune r) : IsEncoding r.bytes := by
  cases r with
  | valid enc => exact h
  | invalid b => exact isEncoding_repl

theorem runeLen_cases (b : UInt8) :
    (runeLen b = 1 ∧ b < 0x80) ∨ runeLen b = 0 ∨ (2 ≤ runeLen b ∧ 0xC2 ≤ b) := by
  unfold runeLen
  split_ifs <;> simp_all

/-- A well-formed encoding is one ASCII byte, or two bytes and more from 0xC2 on. -/
theorem isEncoding_head {t : Bytes} (h : IsEncoding (b :: t)) :
    (t = [] ∧ b < 0x80) ∨ (t ≠ [] ∧ 0xC2 ≤ b) := by
  have hd := h.decodeRune_append []
  have hlen := runeLen_cases b
  unfold decodeRune at hd
  split at hd <;> grind

theorem hexVal_hexDigit : ∀ d, d < 16 → hexVal [hexDigit d] = some d := by decide

theorem encodeRune_toNat (h : b < 0x80) : encodeRune b.toNat = [b] := by
  have : b.toNat < 0x80 := by simpa [lt_iff_toNat_lt] using h
  simp [encodeRune, this]

/-- A `\u` escape outside the surrogates is one step of the string parser. -/
theorem parseStr_unicode {a b c d : Bytes} {w x y z : Nat} (n : Nat) (t : Units)
    (ha : hexVal a = some w) (hb : hexVal b = some x) (hc : hexVal c = some y)
    (hd : hexVal d = some z)
    (hr : ((w * 16 + x) * 16 + y) * 16 + z < 0xD800 ∨ 0xDC00 ≤ ((w * 16 + x) * 16 + y) * 16 + z) :
    parseStr (n + 1) ([0x5C] :: [0x75] :: a :: b :: c :: d :: t) = (parseStr n t).map fun (s, r) =>
        (encodeRune (((w * 16 + x) * 16 + y) * 16 + z) ++ s, r) := by
  have hu : unicodeEscape (((w * 16 + x) * 16 + y) * 16 + z) t =
      (encodeRune (((w * 16 + x) * 16 + y) * 16 + z), t) := by
    rw [unicodeEscape, if_neg (by omega)]
  have h4 : hex4 (a :: b :: c :: d :: t) = some (((w * 16 + x) * 16 + y) * 16 + z, t) := by
    simp [hex4, ha, hb, hc, hd]
  have hq : ([0x5C] : Bytes) ≠ [0x22] := by decide
  simp only [parseStr, if_neg hq, ↓reduceIte, h4, Option.bind_eq_bind, Option.bind_some, hu]
  cases parseStr n t <;> rfl

theorem parseStr_simple {e : Bytes} (n : Nat) (t : Units) (he : e ≠ [0x75])
    (hc : simpleEscape e = some c) :
    parseStr (n + 1) ([0x5C] :: e :: t) = (parseStr n t).map fun (s, r) => (c :: s, r) := by
  have hq : ([0x5C] : Bytes) ≠ [0x22] := by decide
  simp only [parseStr, if_neg hq, if_neg he, ↓reduceIte, hc, Option.bind_eq_bind, Option.bind_some]
  cases parseStr n t <;> rfl

theorem parseStr_plain (n : Nat) (t : Units) (hq : u ≠ [0x22]) (hb : u ≠ [0x5C])
    (hc : ¬ u < [0x20]) :
    parseStr (n + 1) (u :: t) = (parseStr n t).map fun (s, r) => (u ++ s, r) := by
  simp only [parseStr, if_neg hq, if_neg hb, if_neg hc]
  cases parseStr n t <;> rfl

/-- The escaped form of one rune is one step of the string parser, and gives the
rune's bytes back. -/
theorem parseStr_quoteRune (hr : IsRune r) (n : Nat) (t : Units) :
    parseStr (n + 1) (quoteRune r ++ t) = (parseStr n t).map fun (s, t') => (r.bytes ++ s, t') := by
  rcases r with enc | b
  · rcases enc with _ | ⟨b, _ | ⟨b1, enc⟩⟩
    · obtain ⟨_, _, h, -⟩ := hr
      simp at h
    · have hb : b < 0x80 := by
        rcases isEncoding_head hr with h | h
        · exact h.2
        · simp at h
      simp only [quoteRune]
      split_ifs with h1 h2 h3 h4 h5
      · refine parseStr_simple n t ?_ ?_
        · rintro ⟨⟩; simp at h1
        · rcases h1 with rfl | rfl <;> rfl
      · subst h2; exact parseStr_simple n t (by decide) rfl
      · subst h3; exact parseStr_simple n t (by decide) rfl
      · subst h4; exact parseStr_simple n t (by decide) rfl
      · have hlt : b.toNat < 128 := by simpa [lt_iff_toNat_lt] using hb
        have hx : ((0 * 16 + 0) * 16 + b.toNat / 16) * 16 + b.toNat % 16 = b.toNat := by omega
        have := parseStr_unicode n t (by decide : hexVal [0x30] = some 0)
          (by decide : hexVal [0x30] = some 0) (hexVal_hexDigit (b.toNat / 16) (by omega))
          (hexVal_hexDigit (b.toNat % 16) (by omega)) (by omega)
        rw [hx, encodeRune_toNat hb] at this
        exact this
      · simp only [not_or] at h1 h5
        refine parseStr_plain n t (by simpa using h1.2) (by simpa using h1.1) ?_
        simpa [cons_lt_cons_iff] using h5.1
    · have hb : 0xC2 ≤ b := by
        rcases isEncoding_head hr with h | h
        · simp at h
        · exact h.2
      simp only [quoteRune]
      split_ifs with h1 h2
      · rw [h1]
        exact parseStr_unicode n t (by decide : hexVal [0x32] = some 2)
          (by decide : hexVal [0x30] = some 0) (by decide : hexVal [0x32] = some 2)
          (by decide : hexVal [0x38] = some 8) (by decide)
      · rw [h2]
        exact parseStr_unicode n t (by decide : hexVal [0x32] = some 2)
          (by decide : hexVal [0x30] = some 0) (by decide : hexVal [0x32] = some 2)
          (by decide : hexVal [0x39] = some 9) (by decide)
      · refine parseStr_plain n t (by simp) (by simp) ?_
        simp only [cons_lt_cons_iff, not_lt_nil, and_false, or_false, UInt8.not_lt]
        exact UInt8.le_trans (by decide) hb
  · exact parseStr_unicode n t (by decide : hexVal [0x66] = some 15)
      (by decide : hexVal [0x66] = some 15) (by decide : hexVal [0x66] = some 15)
      (by decide : hexVal [0x64] = some 13) (by decide)

theorem parseStr_runes {rs : List Rune} (h : ∀ r ∈ rs, IsRune r) (t : Units) :
    ∀ {n : Nat}, rs.length < n →
      parseStr n (rs.flatMap quoteRune ++ [0x22] :: t) = some (rs.flatMap Rune.bytes, t) := by
  induction rs with
  | nil =>
    intro n hn
    cases n with
    | zero => simp at hn
    | succ n => rfl
  | cons r rs ih =>
    intro n hn
    cases n with
    | zero => simp at hn
    | succ n =>
      rw [flatMap_cons, append_assoc, parseStr_quoteRune (h r (by simp)),
        ih (fun x hx => h x (by simp [hx])) (by simpa using hn)]
      rfl

theorem length_le_flatMap_quoteRune (rs : List Rune) :
    rs.length ≤ (rs.flatMap quoteRune).length := by
  have hone : ∀ r, 1 ≤ (quoteRune r).length := by
    intro r
    unfold quoteRune
    split
    · decide
    · split_ifs <;> first | decide | simp [ascii]
    · split_ifs <;> first | decide | simp
  induction rs with
  | nil => simp
  | cons r rs ih =>
    have := hone r
    simp only [flatMap_cons, length_append, length_cons]
    omega

variable (s : GoString)

theorem parseStr_quote (t : Units) {n : Nat} (hn : (quote s).length ≤ n) :
    parseStr n ((toRunes s).flatMap quoteRune ++ [0x22] :: t) = some (coerceUtf8 s, t) := by
  refine parseStr_runes (fun r => isRune_of_mem) t ?_
  have := length_le_flatMap_quoteRune (toRunes s)
  simp only [quote, length_cons, length_append] at hn
  omega

def IsIntLit (lit : Bytes) : Prop := ∃ n, lit = formatNat n ∨ lit = 0x2D :: formatNat n

theorem isIntLit_formatInt (i : Int64) : IsIntLit (formatInt i) := by
  refine ⟨i.toInt.natAbs, ?_⟩
  unfold formatInt
  split
  · exact .inr rfl
  · exact .inl rfl

def NumEnd (rest : Units) : Prop :=
  ∀ u ∈ rest.head?, isDigitUnit u = false ∧ u ≠ [0x2E] ∧ u ≠ [0x65] ∧ u ≠ [0x45]

theorem formatNat_head (hn : n ≠ 0) : ∃ c t, formatNat n = c :: t ∧ c ≠ 0x30 := by
  have hne : digits 10 n ≠ [] := digits_ne_nil_iff_ne_zero.mpr hn
  have hlast := getLast_digit_ne_zero 10 hn
  have hlt := digits_lt_base (by omega : 1 < 10) (getLast_mem hne)
  refine ⟨digitByte ((digits 10 n).getLast hne),
    ((digits 10 n).dropLast.reverse).map digitByte, ?_, ?_⟩
  · rw [formatNat, if_neg hn]
    nth_rewrite 1 [← dropLast_append_getLast hne]
    simp
  · intro h
    have := congrArg toNat h
    rw [digitByte_toNat hlt] at this
    simp at this
    omega

theorem digits1_ascii {ds : Bytes} (hne : ds ≠ []) (hd : ∀ c ∈ ds, isDigit c = true)
    (hr : NumEnd rest) : digits1 (ascii ds ++ rest) = some (ascii ds, rest) := by
  have hall : ∀ u ∈ ascii ds, isDigitUnit u = true := by simpa [ascii, isDigitUnit] using hd
  have htake : rest.takeWhile isDigitUnit = [] ∧ rest.dropWhile isDigitUnit = rest := by
    cases rest with
    | nil => exact ⟨rfl, rfl⟩
    | cons u t => simp [(hr u rfl).1]
  have h1 : (ascii ds ++ rest).takeWhile isDigitUnit = ascii ds := by
    rw [takeWhile_append_of_pos hall, htake.1, append_nil]
  have h2 : (ascii ds ++ rest).dropWhile isDigitUnit = rest := by
    rw [dropWhile_append_of_pos hall, htake.2]
  rw [digits1, h1, h2]
  cases ds with
  | nil => exact absurd rfl hne
  | cons c t => rfl

theorem intPart_formatNat (n : Nat) (hr : NumEnd rest) :
    intPart (ascii (formatNat n) ++ rest) = some (ascii (formatNat n), rest) := by
  by_cases hn : n = 0
  · subst hn; rfl
  · obtain ⟨c, t, hc, hc0⟩ := formatNat_head hn
    have hd := digits1_ascii (formatNat_ne_nil n) (formatNat_digits n) hr
    rw [hc] at hd ⊢
    have hc' : ([c] : Bytes) ≠ [0x30] := by simpa using hc0
    simp only [ascii, map_cons, cons_append, intPart, if_neg hc'] at hd ⊢
    exact hd

theorem fracPart_numEnd (hr : NumEnd rest) : fracPart rest = some ([], rest) := by
  cases rest with
  | nil => rfl
  | cons u t => rw [fracPart, if_neg (hr u rfl).2.1]

theorem expPart_numEnd (hr : NumEnd rest) : expPart rest = some ([], rest) := by
  cases rest with
  | nil => rfl
  | cons u t => simp [expPart, (hr u rfl).2.2.1, (hr u rfl).2.2.2]

theorem flatten_ascii (s : Bytes) : (ascii s).flatten = s := by
  rw [ascii, ← flatMap_def, flatMap_singleton']

theorem parseNum_intLit (h : IsIntLit lit) (hr : NumEnd rest) :
    parseNum (ascii lit ++ rest) = some (.num lit, rest) := by
  obtain ⟨n, rfl | rfl⟩ := h
  · have hs : signPart (ascii (formatNat n) ++ rest) = ([], ascii (formatNat n) ++ rest) := by
      cases hf : formatNat n with
      | nil => exact absurd hf (formatNat_ne_nil n)
      | cons c t =>
        have hc := isDigit_iff.mp (formatNat_digits n c (by simp [hf]))
        have hne : ([c] : Bytes) ≠ [0x2D] := by
          rintro ⟨⟩
          simp at hc
        simp only [ascii, map_cons, cons_append, signPart, if_neg hne]
    simp [parseNum, hs, intPart_formatNat n hr, fracPart_numEnd hr, expPart_numEnd hr,
      flatten_ascii]
  · have hs : signPart (ascii (0x2D :: formatNat n) ++ rest) =
        ([[0x2D]], ascii (formatNat n) ++ rest) := rfl
    simp [parseNum, hs, intPart_formatNat n hr, fracPart_numEnd hr, expPart_numEnd hr,
      flatten_ascii]

/-! ## Values -/

mutual
/-- Every number is an integer literal. -/
def Canonical : Json → Prop
  | .num lit => IsIntLit lit
  | .arr es => CanonicalElems es
  | .obj ms => CanonicalMembers ms
  | _ => True
def CanonicalElems : List Json → Prop
  | [] => True
  | e :: es => Canonical e ∧ CanonicalElems es
def CanonicalMembers : List (GoString × Json) → Prop
  | [] => True
  | (_, v) :: ms => Canonical v ∧ CanonicalMembers ms
end

mutual
def coerce : Json → Json
  | .str s => .str (coerceUtf8 s)
  | .arr es => .arr (coerceElems es)
  | .obj ms => .obj (coerceMembers ms)
  | j => j
def coerceElems : List Json → List Json
  | [] => []
  | e :: es => coerce e :: coerceElems es
def coerceMembers : List (GoString × Json) → List (GoString × Json)
  | [] => []
  | (k, v) :: ms => (coerceUtf8 k, coerce v) :: coerceMembers ms
end

theorem expect_hit (c : UInt8) (t : Units) (hc : isWs [c] = false) :
    expect c ([c] :: t) = some t := by
  simp [expect, skipWs, hc]

theorem expect_miss (t : Units) (hu : isWs u = false) (hc : u ≠ [c]) :
    expect c (u :: t) = none := by
  simp [expect, skipWs, hu, hc]

theorem intLit_head (h : IsIntLit lit) : ∃ c t, lit = c :: t ∧ 45 ≤ c.toNat ∧ c.toNat ≤ 57 := by
  obtain ⟨n, rfl | rfl⟩ := h
  · cases hf : formatNat n with
    | nil => exact absurd hf (formatNat_ne_nil n)
    | cons c t =>
      have hc := isDigit_iff.mp (formatNat_digits n c (by simp [hf]))
      exact ⟨c, t, rfl, by omega, hc.2⟩
  · exact ⟨0x2D, formatNat n, rfl, by decide, by decide⟩

theorem unit_ne {d : UInt8} (h : 45 ≤ c.toNat ∧ c.toNat ≤ 57) (hd : d.toNat < 45 ∨ 57 < d.toNat) :
    ([c] : Bytes) ≠ [d] := by
  rintro ⟨⟩
  omega

theorem isWs_intLit_head (h : 45 ≤ c.toNat ∧ c.toNat ≤ 57) : isWs [c] = false := by
  simp only [isWs, decide_eq_false_iff_not, not_or]
  exact ⟨unit_ne h (by decide), unit_ne h (by decide), unit_ne h (by decide), unit_ne h (by decide)⟩

/-- The first unit of an encoded value: never white space, never a closing bracket. -/
theorem encodeUnits_head (hj : Canonical j) :
    ∃ u t, encodeUnits j = u :: t ∧ isWs u = false ∧ u ≠ [0x5D] := by
  cases j with
  | null => exact ⟨_, _, rfl, by decide⟩
  | bool b => cases b <;> exact ⟨_, _, rfl, by decide⟩
  | str s | arr es | obj ms => exact ⟨_, _, rfl, by decide⟩
  | num lit =>
    obtain ⟨c, t, rfl, hc⟩ := intLit_head hj
    exact ⟨[c], ascii t, rfl, isWs_intLit_head hc, unit_ne hc (by decide)⟩

theorem encodeElems_head (he : Canonical e) (es : List Json) :
    ∃ u t, encodeElems (e :: es) = u :: t ∧ isWs u = false ∧ u ≠ [0x5D] := by
  obtain ⟨u, t, hu, h⟩ := encodeUnits_head he
  cases es with
  | nil => exact ⟨u, t ++ [[0x5D]], by rw [encodeElems, hu]; rfl, h⟩
  | cons e' es =>
    exact ⟨u, t ++ [0x2C] :: encodeElems (e' :: es), by rw [encodeElems, hu]; rfl; simp, h⟩

theorem encodeMembers_head (k : GoString) (v : Json) (ms : List (GoString × Json)) :
    ∃ t, encodeMembers ((k, v) :: ms) = [0x22] :: t := by
  cases ms with
  | nil | cons m ms => exact ⟨_, rfl⟩

theorem parseValue_num (h : IsIntLit lit) (n : Nat) (hr : NumEnd rest) :
    parseValue (n + 1) (ascii lit ++ rest) = some (.num lit, rest) := by
  have hp := parseNum_intLit h hr
  obtain ⟨c, t, rfl, hc⟩ := intLit_head h
  simp only [ascii, map_cons, cons_append] at hp ⊢
  rw [parseValue]
  simp only [skipWs, dropWhile_cons, isWs_intLit_head hc, Bool.false_eq_true, ↓reduceIte,
    if_neg (unit_ne hc (by decide : (0x22 : UInt8).toNat < 45 ∨ _)),
    if_neg (unit_ne hc (by decide : _ ∨ 57 < (0x7B : UInt8).toNat)),
    if_neg (unit_ne hc (by decide : _ ∨ 57 < (0x5B : UInt8).toNat)),
    if_neg (unit_ne hc (by decide : _ ∨ 57 < (0x6E : UInt8).toNat)),
    if_neg (unit_ne hc (by decide : _ ∨ 57 < (0x74 : UInt8).toNat)),
    if_neg (unit_ne hc (by decide : _ ∨ 57 < (0x66 : UInt8).toNat)), hp]

theorem numEnd_cons (t : Units) (h : isDigitUnit u = false ∧ u ≠ [0x2E] ∧ u ≠ [0x65] ∧ u ≠ [0x45]) :
    NumEnd (u :: t) := by
  rintro v ⟨⟩
  exact h

theorem numEnd_comma (t : Units) : NumEnd ([0x2C] :: t) := numEnd_cons t (by decide)

theorem numEnd_bracket (t : Units) : NumEnd ([0x5D] :: t) := numEnd_cons t (by decide)

theorem numEnd_brace (t : Units) : NumEnd ([0x7D] :: t) := numEnd_cons t (by decide)

/-- One member up to the text after its value. -/
theorem parseMembers_step {k : GoString} {v : Json} (hk : (quote k).length ≤ n)
    (hv : parseValue n (encodeUnits v ++ rest) = some (coerce v, rest)) :
    parseMembers (n + 1) (quote k ++ [0x3A] :: encodeUnits v ++ rest) =
      match expect 0x2C rest with
      | some r => (parseMembers n r).map fun (ms, r) => ((coerceUtf8 k, coerce v) :: ms, r)
      | none => (expect 0x7D rest).map fun r => ([(coerceUtf8 k, coerce v)], r) := by
  have htext : quote k ++ [0x3A] :: encodeUnits v ++ rest =
      [0x22] :: ((toRunes k).flatMap quoteRune ++ [0x22] :: ([0x3A] :: (encodeUnits v ++ rest))) := by
    simp [quote]
  rw [htext, parseMembers, expect_hit _ _ (by decide)]
  cases hc : expect 0x2C rest with
  | none | some r => simp [parseStr_quote k _ hk, expect_hit 0x3A _ (by decide), hv, hc]

theorem parseElems_step (he : parseValue n (encodeUnits e ++ rest) = some (coerce e, rest)) :
    parseElems (n + 1) (encodeUnits e ++ rest) =
      match expect 0x2C rest with
      | some r => (parseElems n r).map fun (es, r) => (coerce e :: es, r)
      | none => (expect 0x5D rest).map fun r => ([coerce e], r) := by
  rw [parseElems, he]
  rfl

mutual
theorem parseValue_encode (j : Json) (hj : Canonical j) (n : Nat) (rest : Units)
    (hn : (encodeUnits j).length < n) (hr : NumEnd rest) :
    parseValue n (encodeUnits j ++ rest) = some (coerce j, rest) := by
  obtain ⟨n, rfl⟩ : ∃ m, n = m + 1 := ⟨n - 1, by omega⟩
  match j with
  | .null | .bool true | .bool false => rfl
  | .num lit => exact parseValue_num hj n hr
  | .str s =>
    have htext : encodeUnits (.str s) ++ rest =
        [0x22] :: ((toRunes s).flatMap quoteRune ++ [0x22] :: rest) := by
      simp [encodeUnits, quote]
    have hs := @parseStr_quote s rest n (le_of_lt_succ hn)
    rw [htext, parseValue]
    simp [skipWs, isWs, hs, coerce]
  | .arr [] => rfl
  | .arr (e :: es) =>
    simp only [encodeUnits, length_cons] at hn
    have hes := parseElems_encode e es hj.1 hj.2 n rest (by omega)
    obtain ⟨u, t, hu, hws, hne⟩ := encodeElems_head hj.1 es
    rw [hu, cons_append] at hes
    rw [encodeUnits, hu, cons_append, cons_append, parseValue]
    simp [skipWs, isWs, expect_miss _ hws hne, hes, coerce]
  | .obj [] => rfl
  | .obj ((k, v) :: ms) =>
    simp only [encodeUnits, length_cons] at hn
    have hms := parseMembers_encode k v ms hj.1 hj.2 n rest (by omega)
    obtain ⟨t, ht⟩ := encodeMembers_head k v ms
    rw [ht, cons_append] at hms
    rw [encodeUnits, ht, cons_append, cons_append, parseValue]
    simp [skipWs, isWs, expect, hms, coerce]
termination_by n
theorem parseElems_encode (e : Json) (es : List Json) (he : Canonical e)
    (hes : CanonicalElems es) (n : Nat) (rest : Units)
    (hn : (encodeElems (e :: es)).length < n) :
    parseElems n (encodeElems (e :: es) ++ rest) = some (coerceElems (e :: es), rest) := by
  obtain ⟨n, rfl⟩ : ∃ m, n = m + 1 := ⟨n - 1, by omega⟩
  match es with
  | [] =>
    simp only [encodeElems, length_append, length_cons, length_nil] at hn
    have hv := parseValue_encode e he n ([0x5D] :: rest) (by omega) (numEnd_bracket rest)
    rw [encodeElems, append_assoc]
    rw [singleton_append, parseElems_step hv, expect_miss _ (by decide) (by decide),
      expect_hit _ _ (by decide)]
    rfl
  | e' :: es =>
    simp only [encodeElems, length_append, length_cons] at hn
    have hv := parseValue_encode e he n ([0x2C] :: (encodeElems (e' :: es) ++ rest)) (by omega)
      (numEnd_comma _)
    have hes' := parseElems_encode e' es hes.1 hes.2 n rest (by omega)
    rw [encodeElems, append_assoc, cons_append, parseElems_step hv, expect_hit _ _ (by decide)]
    simp only [hes', Option.map_some]
    rfl
    simp
termination_by n
theorem parseMembers_encode (k : GoString) (v : Json) (ms : List (GoString × Json))
    (hv : Canonical v) (hms : CanonicalMembers ms) (n : Nat) (rest : Units)
    (hn : (encodeMembers ((k, v) :: ms)).length < n) :
    parseMembers n (encodeMembers ((k, v) :: ms) ++ rest) =
      some (coerceMembers ((k, v) :: ms), rest) := by
  obtain ⟨n, rfl⟩ : ∃ m, n = m + 1 := ⟨n - 1, by omega⟩
  match ms with
  | [] =>
    simp only [encodeMembers, length_append, length_cons, length_nil] at hn
    have hv' := parseValue_encode v hv n ([0x7D] :: rest) (by omega) (numEnd_brace rest)
    rw [encodeMembers, append_assoc, singleton_append,
      parseMembers_step (by omega) hv', expect_miss _ (by decide) (by decide),
      expect_hit _ _ (by decide)]
    rfl
  | (k', v') :: ms =>
    simp only [encodeMembers, length_append, length_cons] at hn
    have hv' := parseValue_encode v hv n ([0x2C] :: (encodeMembers ((k', v') :: ms) ++ rest))
      (by omega) (numEnd_comma _)
    have hms' := parseMembers_encode k' v' ms hms.1 hms.2 n rest (by omega)
    rw [encodeMembers, append_assoc, cons_append,
      parseMembers_step (by omega) hv', expect_hit _ _ (by decide)]
    simp only [hms', Option.map_some]
    rfl
    simp
termination_by n
end

def Encodings (us : Units) : Prop := ∀ u ∈ us, IsEncoding u

@[simp] theorem encodings_nil : Encodings [] := by simp [Encodings]

@[simp] theorem encodings_cons :
    Encodings (u :: us) ↔ IsEncoding u ∧ Encodings us := forall_mem_cons

@[simp] theorem encodings_append {vs : Units} :
    Encodings (us ++ vs) ↔ Encodings us ∧ Encodings vs := forall_mem_append

theorem encodings_ascii {s : Bytes} (h : ∀ b ∈ s, b < 0x80) : Encodings (ascii s) := by
  intro u hu
  obtain ⟨b, hb, rfl⟩ := mem_map.mp hu
  exact isEncoding_ascii (h b hb)

theorem encodings_quoteRune (hr : IsRune r) : Encodings (quoteRune r) := by
  unfold quoteRune
  split
  · exact encodings_ascii (by decide +kernel)
  · rename_i b
    have hb : b < 0x80 := by
      rcases isEncoding_head hr with h | h
      · exact h.2
      · simp at h
    split_ifs
    · exact encodings_ascii (by simp [hb])
    · exact encodings_ascii (by decide +kernel)
    · exact encodings_ascii (by decide +kernel)
    · exact encodings_ascii (by decide +kernel)
    · have hx : ∀ d, d < 16 → hexDigit d < 0x80 := by decide
      have hlt : b.toNat < 128 := by simpa [lt_iff_toNat_lt] using hb
      have hu : ∀ c ∈ Go.str "\\u00", c < 0x80 := by decide +kernel
      refine encodings_ascii (forall_mem_append.mpr ⟨hu, ?_⟩)
      simp only [forall_mem_cons]
      exact ⟨hx _ (by omega), hx _ (by omega), by simp⟩
    · simpa [IsRune] using hr
  · split_ifs
    · exact encodings_ascii (by decide +kernel)
    · exact encodings_ascii (by decide +kernel)
    · simpa [IsRune] using hr

theorem encodings_quote : Encodings (quote s) := by
  have hq : IsEncoding [0x22] := isEncoding_ascii (by decide)
  have hrunes : Encodings ((toRunes s).flatMap quoteRune) :=
    forall_mem_flatMap.mpr fun r hr => encodings_quoteRune (isRune_of_mem hr)
  simp [quote, hq, hrunes]

theorem encodings_intLit (h : IsIntLit lit) : Encodings (ascii lit) := by
  have hdig : ∀ n, ∀ c ∈ formatNat n, c < 0x80 := by
    intro n c hc
    have := isDigit_iff.mp (formatNat_digits n c hc)
    exact lt_of_le_of_lt this.2 (by decide)
  obtain ⟨n, rfl | rfl⟩ := h
  · exact encodings_ascii (hdig n)
  · exact encodings_ascii (forall_mem_cons.mpr ⟨by decide, hdig n⟩)

mutual
theorem encodings_encodeUnits (j : Json) (hj : Canonical j) : Encodings (encodeUnits j) := by
  match j with
  | .null | .bool true | .bool false => exact encodings_ascii (by decide +kernel)
  | .num lit => exact encodings_intLit hj
  | .str s => exact encodings_quote s
  | .arr es => simpa [encodeUnits, isEncoding_ascii] using encodings_encodeElems es hj
  | .obj ms => simpa [encodeUnits, isEncoding_ascii] using encodings_encodeMembers ms hj
theorem encodings_encodeElems (es : List Json) (hes : CanonicalElems es) :
    Encodings (encodeElems es) := by
  match es with
  | [] => simp [encodeElems, isEncoding_ascii]
  | [e] => simp [encodeElems, isEncoding_ascii, encodings_encodeUnits e hes.1]
  | e :: e' :: es =>
    simp [encodeElems, isEncoding_ascii, encodings_encodeUnits e hes.1,
      encodings_encodeElems (e' :: es) hes.2]
theorem encodings_encodeMembers (ms : List (GoString × Json)) (hms : CanonicalMembers ms) :
    Encodings (encodeMembers ms) := by
  match ms with
  | [] => simp [encodeMembers, isEncoding_ascii]
  | [(k, v)] =>
    simp [encodeMembers, isEncoding_ascii, encodings_quote, encodings_encodeUnits v hms.1]
  | (k, v) :: m :: ms =>
    simp [encodeMembers, isEncoding_ascii, encodings_quote, encodings_encodeUnits v hms.1,
      encodings_encodeMembers (m :: ms) hms.2]
end

theorem units_encode (hj : Canonical j) : units (encode j) = encodeUnits j := by
  rw [units, encode, toRunes_flatten (encodings_encodeUnits j hj), map_map]
  exact map_id _

/-- `json.Unmarshal` sees what `json.Marshal` was given, up to the coercion of strings. -/
theorem parse_encode (hj : Canonical j) : parse (encode j) = some (coerce j) := by
  have hv := parseValue_encode j hj ((encodeUnits j).length + 1) [] (lt_succ_self _)
    (by rintro u ⟨⟩)
  rw [append_nil] at hv
  rw [parse, units_encode hj, hv]
  rfl

end FabricOev.Go.Json
