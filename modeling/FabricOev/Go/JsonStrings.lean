import FabricOev.Go.JsonDecode

/-!
# Strings in parsed JSON

What the parser hands on: every string it reads is valid UTF-8, whatever bytes the text
has, and is shorter than the text it stands in. Decoding a struct keeps what holds of the
strings of the text.
-/

namespace FabricOev.Go

open List Option Nat UInt8 Prod

variable {b0 b1 : UInt8}

theorem isEncoding_two (hl : runeLen b0 = 2) (h1 : isSecond b0 b1 = true) : IsEncoding [b0, b1] :=
  ⟨b0, [b1], rfl, by simp [decodeRune, hl, h1]⟩

theorem isEncoding_three {b2 : UInt8} (hl : runeLen b0 = 3) (h1 : isSecond b0 b1 = true)
    (h2 : isCont b2 = true) : IsEncoding [b0, b1, b2] :=
  ⟨b0, [b1, b2], rfl, by simp [decodeRune, hl, h1, h2]⟩

theorem isEncoding_four {b2 b3 : UInt8} (hl : runeLen b0 = 4) (h1 : isSecond b0 b1 = true)
    (h2 : isCont b2 = true) (h3 : isCont b3 = true) : IsEncoding [b0, b1, b2, b3] :=
  ⟨b0, [b1, b2, b3], rfl, by simp [decodeRune, hl, h1, h2, h3]⟩

theorem toNat_ofNat_lt {n : Nat} (h : n < 256) : (ofNat n).toNat = n := toNat_ofNat_of_lt' h

theorem isCont_ofNat {n : Nat} (h : n < 64) : isCont (ofNat (0x80 + n)) = true := by
  have ht := toNat_ofNat_lt (n := 0x80 + n) (by omega)
  simp only [isCont, Bool.and_eq_true, decide_eq_true_eq, le_iff_toNat_le, ht]
  constructor
  · show 0x80 ≤ 0x80 + n
    omega
  · show 0x80 + n ≤ 0xBF
    omega

theorem runeLen_eq (b : UInt8) :
    runeLen b = if b.toNat < 0x80 then 1 else if b.toNat < 0xC2 then 0
      else if b.toNat < 0xE0 then 2 else if b.toNat < 0xF0 then 3
      else if b.toNat < 0xF5 then 4 else 0 := by
  rfl

theorem isSecond_of (hc : isCont b1 = true) (he0 : b0.toNat = 0xE0 → 0xA0 ≤ b1.toNat)
    (hed : b0.toNat = 0xED → b1.toNat ≤ 0x9F) (hf0 : b0.toNat = 0xF0 → 0x90 ≤ b1.toNat)
    (hf4 : b0.toNat = 0xF4 → b1.toNat ≤ 0x8F) :
    isSecond b0 b1 = true := by
  simp only [isSecond, hc, Bool.true_and, Bool.and_eq_true, Bool.or_eq_true, bne_iff_ne, ne_eq,
    decide_eq_true_eq, UInt8.le_iff_toNat_le, ← UInt8.toNat_inj]
  refine ⟨⟨⟨?_, ?_⟩, ?_⟩, ?_⟩
  · exact or_iff_not_imp_left.mpr fun h => he0 (not_not.mp h)
  · exact or_iff_not_imp_left.mpr fun h => hed (not_not.mp h)
  · exact or_iff_not_imp_left.mpr fun h => hf0 (not_not.mp h)
  · exact or_iff_not_imp_left.mpr fun h => hf4 (not_not.mp h)

namespace Json

/-- `utf8.EncodeRune` writes a whole encoding, for every number. -/
theorem isEncoding_encodeRune (c : Nat) : IsEncoding (encodeRune c) := by
  unfold encodeRune
  split_ifs with h1 h2 h3 h4
  · apply isEncoding_ascii
    rw [lt_iff_toNat_lt, toNat_ofNat_lt (by omega)]
    exact h1
  · have hb0 : (ofNat (0xC0 + c / 64)).toNat = 0xC0 + c / 64 := toNat_ofNat_lt (by omega)
    refine isEncoding_two ?_ (isSecond_of (isCont_ofNat (mod_lt _ (by omega))) ?_ ?_ ?_ ?_)
    · rw [runeLen_eq, hb0, if_neg (by omega), if_neg (by omega), if_pos (by omega)]
    all_goals omega
  · exact isEncoding_repl
  · have hb0 : (ofNat (0xE0 + c / 4096)).toNat = 0xE0 + c / 4096 := toNat_ofNat_lt (by omega)
    have hb1 : (ofNat (0x80 + c / 64 % 64)).toNat = 0x80 + c / 64 % 64 := toNat_ofNat_lt (by omega)
    refine isEncoding_three ?_ (isSecond_of (isCont_ofNat (mod_lt _ (by omega))) ?_ ?_ ?_ ?_)
      (isCont_ofNat (mod_lt _ (by omega)))
    · rw [runeLen_eq, hb0, if_neg (by omega), if_neg (by omega), if_neg (by omega),
        if_pos (by omega)]
    all_goals omega
  · have hb0 : (ofNat (0xF0 + c / 262144)).toNat = 0xF0 + c / 262144 := toNat_ofNat_lt (by omega)
    have hb1 : (ofNat (0x80 + c / 4096 % 64)).toNat = 0x80 + c / 4096 % 64 :=
      toNat_ofNat_lt (by omega)
    refine isEncoding_four ?_ (isSecond_of (isCont_ofNat (mod_lt _ (by omega))) ?_ ?_ ?_ ?_)
      (isCont_ofNat (mod_lt _ (by omega))) (isCont_ofNat (mod_lt _ (by omega)))
    · rw [runeLen_eq, hb0, if_neg (by omega), if_neg (by omega), if_neg (by omega),
        if_neg (by omega), if_pos (by omega)]
    all_goals omega

theorem length_encodeRune (c : Nat) : (encodeRune c).length ≤ 4 := by
  unfold encodeRune
  split_ifs <;> simp [replacement]

variable {n : Nat} {t r : Units} {s : Units} {ds : Units} {j : Json} {u : Bytes} {c : UInt8}
  {N : Nat}

theorem hexVal_length (h : hexVal u = some n) : u.length = 1 := by
  unfold hexVal at h
  split at h
  · rfl
  · cases h

theorem hex4_spec (h : hex4 t = some (n, r)) :
    r <:+ t ∧ r.flatten.length + 4 = t.flatten.length := by
  unfold hex4 at h
  split at h
  · rename_i a b c d t
    obtain ⟨w, hw, h⟩ := bind_eq_some_iff.mp h
    obtain ⟨x, hx, h⟩ := bind_eq_some_iff.mp h
    obtain ⟨y, hy, h⟩ := bind_eq_some_iff.mp h
    obtain ⟨z, hz, h⟩ := bind_eq_some_iff.mp h
    cases h
    constructor
    · exact ⟨[a, b, c, d], rfl⟩
    · simp only [flatten_cons, length_append, hexVal_length hw, hexVal_length hx,
        hexVal_length hy, hexVal_length hz]
      omega
  · cases h

theorem lowSurrogate_spec (h : lowSurrogate t = some (n, r)) :
    r <:+ t ∧ r.flatten.length ≤ t.flatten.length := by
  unfold lowSurrogate at h
  split at h
  · rename_i a b t
    split at h
    · split at h
      · rename_i n' t' h4
        split at h
        · cases h
          obtain ⟨hsuf, hlen⟩ := hex4_spec h4
          refine ⟨hsuf.trans ⟨[a, b], rfl⟩, ?_⟩
          simp only [flatten_cons, length_append]
          omega
        · cases h
      · cases h
    · cases h
  · cases h

theorem unicodeEscape_spec (n : Nat) (t : Units) :
    IsEncoding (unicodeEscape n t).1 ∧ (unicodeEscape n t).1.length ≤ 4 ∧
      (unicodeEscape n t).2 <:+ t ∧ (unicodeEscape n t).2.flatten.length ≤ t.flatten.length := by
  unfold unicodeEscape
  split
  · cases hs : lowSurrogate t with
    | none =>
      have hlen : replacement.length ≤ 4 := by decide
      exact ⟨isEncoding_repl, hlen, suffix_refl t, le_refl _⟩
    | some p =>
      obtain ⟨k, r⟩ := p
      obtain ⟨hsuf, hlen⟩ := lowSurrogate_spec hs
      dsimp only
      exact ⟨isEncoding_encodeRune _, length_encodeRune _, hsuf, hlen⟩
  · exact ⟨isEncoding_encodeRune _, length_encodeRune _, suffix_refl t, le_refl _⟩

theorem simpleEscape_ascii (h : simpleEscape u = some c) : c < 0x80 := by
  unfold simpleEscape at h
  split_ifs at h <;> (cases h; decide)

/-- A string is read from a prefix of the text, is valid UTF-8 and shorter than it. -/
theorem parseStr_spec {s : GoString} (h : parseStr n t = some (s, r)) (ht : ∀ u ∈ t, IsEncoding u) :
    coerceUtf8 s = s ∧ r <:+ t ∧ s.length + r.flatten.length < t.flatten.length := by
  induction n generalizing t s with
  | zero => simp [parseStr] at h
  | succ n ih =>
    cases t with
    | nil => simp [parseStr] at h
    | cons u t =>
      have htail : ∀ x ∈ t, IsEncoding x := fun x hx => ht x (by simp [hx])
      simp only [parseStr] at h
      split_ifs at h with hq hb hc
      · obtain ⟨rfl, rfl⟩ := mk.inj (some.inj h)
        refine ⟨rfl, suffix_cons u t, ?_⟩
        simp [hq]
      · cases t with
        | nil => cases h
        | cons e t =>
          have htail' : ∀ x ∈ t, IsEncoding x := fun x hx => htail x (by simp [hx])
          dsimp only at h
          split_ifs at h with hu
          · obtain ⟨⟨k, t1⟩, h4, h⟩ := bind_eq_some_iff.mp h
            obtain ⟨⟨s', t2⟩, hs, h⟩ := bind_eq_some_iff.mp h
            cases h
            obtain ⟨hsuf, hlen⟩ := hex4_spec h4
            obtain ⟨henc, hle, hsuf', hlen'⟩ := unicodeEscape_spec k t1
            obtain ⟨hv, hsuf'', hlen''⟩ := ih hs fun x hx => htail' x ((hsuf'.trans hsuf).subset hx)
            refine ⟨?_, ?_, ?_⟩
            · rw [coerce_encoding_append henc, hv]
            · exact hsuf''.trans (hsuf'.trans (hsuf.trans ⟨[u, e], rfl⟩))
            · dsimp only at hlen''
              simp only [flatten_cons, length_append]
              omega
          · obtain ⟨c, hce, h⟩ := bind_eq_some_iff.mp h
            obtain ⟨⟨s', t2⟩, hs, h⟩ := bind_eq_some_iff.mp h
            cases h
            obtain ⟨hv, hsuf, hlen⟩ := ih hs htail'
            refine ⟨?_, hsuf.trans ⟨[u, e], rfl⟩, ?_⟩
            · have happ := coerce_encoding_append (isEncoding_ascii (simpleEscape_ascii hce)) s'
              rw [hv] at happ
              exact happ
            · dsimp only at hlen
              simp only [flatten_cons, length_append, length_cons, hb]
              omega
      · obtain ⟨⟨s', t2⟩, hs, h⟩ := bind_eq_some_iff.mp h
        cases h
        obtain ⟨hv, hsuf, hlen⟩ := ih hs htail
        refine ⟨?_, hsuf.trans (suffix_cons u t), ?_⟩
        · rw [coerce_encoding_append (ht u (by simp)), hv]
        · dsimp only at hlen
          simp only [flatten_cons, length_append]
          omega

/-! ## Values -/

theorem expect_suffix (h : expect c s = some r) : r <:+ s := by
  unfold expect at h
  split at h
  · cases h
  · rename_i u t hs
    split at h
    · obtain rfl := some.inj h
      exact (suffix_cons u t).trans (hs ▸ dropWhile_suffix isWs)
    · cases h

theorem digits1_suffix (h : digits1 s = some (ds, r)) : r <:+ s := by
  unfold digits1 at h
  split at h
  · cases h
  · cases h
    exact dropWhile_suffix isDigitUnit

theorem signPart_suffix (s : Units) : (signPart s).2 <:+ s := by
  unfold signPart
  split
  · exact suffix_refl []
  · rename_i u t
    split
    · exact suffix_cons u t
    · exact suffix_refl (u :: t)

theorem intPart_suffix (h : intPart s = some (ds, r)) : r <:+ s := by
  unfold intPart at h
  split at h
  · cases h
  · rename_i u t
    split at h
    · obtain ⟨-, rfl⟩ := mk.inj (some.inj h)
      exact suffix_cons u t
    · exact digits1_suffix h

theorem map_digits1_suffix {f : Units → Units}
    (h : ((digits1 s).map fun (ds, r) => (f ds, r)) = some (ds, r)) : r <:+ s := by
  obtain ⟨⟨ds', r'⟩, hd, he⟩ := map_eq_some_iff.mp h
  obtain ⟨-, rfl⟩ := mk.inj he
  exact digits1_suffix hd

theorem fracPart_suffix (h : fracPart s = some (ds, r)) : r <:+ s := by
  unfold fracPart at h
  split at h
  · cases h
    exact suffix_refl []
  · rename_i u t
    split at h
    · exact (map_digits1_suffix h).trans (suffix_cons u t)
    · cases h
      exact suffix_refl (u :: t)

theorem expPart_suffix (h : expPart s = some (ds, r)) : r <:+ s := by
  unfold expPart at h
  split at h
  · cases h
    exact suffix_refl []
  · rename_i u t
    split at h
    · split at h
      · cases h
      · rename_i v t'
        split at h
        · exact (map_digits1_suffix (f := fun ds => u :: v :: ds) h).trans ⟨[u, v], rfl⟩
        · exact (map_digits1_suffix h).trans (suffix_cons u _)
    · cases h
      exact suffix_refl (u :: t)

theorem parseNum_spec (h : parseNum s = some (j, r)) : r <:+ s ∧ ∃ lit, j = .num lit := by
  obtain ⟨⟨ip, r1⟩, h1, h⟩ := bind_eq_some_iff.mp h
  obtain ⟨⟨fp, r2⟩, h2, h⟩ := bind_eq_some_iff.mp h
  obtain ⟨⟨ep, r3⟩, h3, h⟩ := bind_eq_some_iff.mp h
  cases h
  refine ⟨?_, _, rfl⟩
  exact (expPart_suffix h3).trans ((fracPart_suffix h2).trans ((intPart_suffix h1).trans
    (signPart_suffix s)))

theorem parseLit_spec {lit : String} {j' : Json} (h : parseLit lit j s = some (j', r)) :
    r <:+ s ∧ j' = j := by
  unfold parseLit at h
  split at h
  · cases h
    exact ⟨drop_suffix _ s, rfl⟩
  · cases h

mutual
/-- Every string among the values of a text, keys apart, satisfies `P`. -/
def StringsIn (P : GoString → Prop) : Json → Prop
  | .str s => P s
  | .arr es => StringsInElems P es
  | .obj ms => StringsInMembers P ms
  | _ => True
def StringsInElems (P : GoString → Prop) : List Json → Prop
  | [] => True
  | e :: es => StringsIn P e ∧ StringsInElems P es
def StringsInMembers (P : GoString → Prop) : List (GoString × Json) → Prop
  | [] => True
  | (_, v) :: ms => StringsIn P v ∧ StringsInMembers P ms
end

/-- Valid UTF-8, and shorter than a text of length `N`. -/
def ReadString (N : Nat) (s : GoString) : Prop := coerceUtf8 s = s ∧ s.length < N

/-- A text the parser can be given: whole encodings, of total length at most `N`. -/
def Text (N : Nat) (s : Units) : Prop := (∀ u ∈ s, IsEncoding u) ∧ s.flatten.length ≤ N

theorem Text.suffix (h : Text N s) (hr : r <:+ s) : Text N r := by
  refine ⟨fun u hu => h.1 u (hr.subset hu), ?_⟩
  obtain ⟨t, rfl⟩ := hr
  have hlen := h.2
  rw [flatten_append, length_append] at hlen
  omega

theorem Text.parseStr {s : GoString} (h : Text N t) (hs : parseStr n t = some (s, r)) :
    ReadString N s ∧ r <:+ t := by
  obtain ⟨hv, hsuf, hlen⟩ := parseStr_spec hs h.1
  have hN := h.2
  exact ⟨⟨hv, by omega⟩, hsuf⟩

/-- The three parsers read their strings from the text and leave a suffix, by induction on the fuel.
-/
theorem parse_spec (N n : Nat) :
    (∀ {s r : Units} {j : Json}, Text N s → parseValue n s = some (j, r) →
        StringsIn (ReadString N) j ∧ r <:+ s) ∧
      (∀ {s r : Units} {es : List Json}, Text N s → parseElems n s = some (es, r) →
        StringsInElems (ReadString N) es ∧ r <:+ s) ∧
      ∀ {s r : Units} {ms : List (GoString × Json)}, Text N s → parseMembers n s = some (ms, r) →
        StringsInMembers (ReadString N) ms ∧ r <:+ s := by
  induction n with
  | zero =>
    refine ⟨?_, ?_, ?_⟩
    · intro s r j _ h
      simp [parseValue] at h
    · intro s r es _ h
      simp [parseElems] at h
    · intro s r ms _ h
      simp [parseMembers] at h
  | succ n ih =>
    obtain ⟨ihv, ihe, ihm⟩ := ih
    refine ⟨?_, ?_, ?_⟩
    · intro s r j hs h
      rw [parseValue] at h
      split at h
      · cases h
      · rename_i u t hws
        have ht : t <:+ s := (suffix_cons u t).trans (hws ▸ dropWhile_suffix isWs)
        split_ifs at h with h1 h2 h3 h4 h5 h6
        · obtain ⟨⟨x, r'⟩, hx, he⟩ := map_eq_some_iff.mp h
          obtain ⟨rfl, rfl⟩ := mk.inj he
          obtain ⟨hread, hsuf⟩ := (hs.suffix ht).parseStr hx
          exact ⟨hread, hsuf.trans ht⟩
        · split at h
          · rename_i r' hr'
            cases h
            exact ⟨trivial, (expect_suffix hr').trans ht⟩
          · obtain ⟨⟨ms, r'⟩, hms, he⟩ := map_eq_some_iff.mp h
            obtain ⟨rfl, rfl⟩ := mk.inj he
            obtain ⟨hin, hsuf⟩ := ihm (hs.suffix ht) hms
            exact ⟨hin, hsuf.trans ht⟩
        · split at h
          · rename_i r' hr'
            cases h
            exact ⟨trivial, (expect_suffix hr').trans ht⟩
          · obtain ⟨⟨es, r'⟩, hes, he⟩ := map_eq_some_iff.mp h
            obtain ⟨rfl, rfl⟩ := mk.inj he
            obtain ⟨hin, hsuf⟩ := ihe (hs.suffix ht) hes
            exact ⟨hin, hsuf.trans ht⟩
        · obtain ⟨hsuf, rfl⟩ := parseLit_spec h
          exact ⟨trivial, hsuf.trans ht⟩
        · obtain ⟨hsuf, rfl⟩ := parseLit_spec h
          exact ⟨trivial, hsuf.trans ht⟩
        · obtain ⟨hsuf, rfl⟩ := parseLit_spec h
          exact ⟨trivial, hsuf.trans ht⟩
        · obtain ⟨hsuf, lit, rfl⟩ := parseNum_spec h
          exact ⟨trivial, hsuf.trans (hws ▸ dropWhile_suffix isWs)⟩
    · intro s r es hs h
      obtain ⟨⟨e, r1⟩, he, h⟩ := bind_eq_some_iff.mp h
      obtain ⟨hin, hsuf⟩ := ihv hs he
      dsimp only at h hin hsuf
      split at h
      · rename_i r2 hr2
        obtain ⟨⟨es', r3⟩, hes, heq⟩ := map_eq_some_iff.mp h
        obtain ⟨rfl, rfl⟩ := mk.inj heq
        have hsuf2 := (expect_suffix hr2).trans hsuf
        obtain ⟨hin', hsuf'⟩ := ihe (hs.suffix hsuf2) hes
        exact ⟨⟨hin, hin'⟩, hsuf'.trans hsuf2⟩
      · obtain ⟨r2, hr2, heq⟩ := map_eq_some_iff.mp h
        obtain ⟨rfl, rfl⟩ := mk.inj heq
        exact ⟨⟨hin, trivial⟩, (expect_suffix hr2).trans hsuf⟩
    · intro s r ms hs h
      obtain ⟨r1, hr1, h⟩ := bind_eq_some_iff.mp h
      obtain ⟨⟨k, r2⟩, hk, h⟩ := bind_eq_some_iff.mp h
      obtain ⟨r3, hr3, h⟩ := bind_eq_some_iff.mp h
      obtain ⟨⟨v, r4⟩, hv, h⟩ := bind_eq_some_iff.mp h
      have hsuf1 := expect_suffix hr1
      have hsuf2 := ((hs.suffix hsuf1).parseStr hk).2.trans hsuf1
      have hsuf3 := (expect_suffix hr3).trans hsuf2
      obtain ⟨hin, hsuf4⟩ := ihv (hs.suffix hsuf3) hv
      dsimp only at h hin hsuf4
      split at h
      · rename_i r5 hr5
        obtain ⟨⟨ms', r6⟩, hms, heq⟩ := map_eq_some_iff.mp h
        obtain ⟨rfl, rfl⟩ := mk.inj heq
        have hsuf5 := (expect_suffix hr5).trans (hsuf4.trans hsuf3)
        obtain ⟨hin', hsuf'⟩ := ihm (hs.suffix hsuf5) hms
        exact ⟨⟨hin, hin'⟩, hsuf'.trans hsuf5⟩
      · obtain ⟨r5, hr5, heq⟩ := map_eq_some_iff.mp h
        obtain ⟨rfl, rfl⟩ := mk.inj heq
        exact ⟨⟨hin, trivial⟩, (expect_suffix hr5).trans (hsuf4.trans hsuf3)⟩

theorem text_units (s : GoString) : Text (coerceUtf8 s).length (units s) := by
  constructor
  · intro u hu
    obtain ⟨r, hr, rfl⟩ := mem_map.mp hu
    exact (isRune_of_mem hr).isEncoding_bytes
  · exact le_refl _

theorem parseValue_strings {s : GoString} (h : parseValue n (units s) = some (j, r)) :
    StringsIn (ReadString (coerceUtf8 s).length) j :=
  ((parse_spec _ n).1 (text_units s) h).1

theorem parse_eq_some {s : GoString} (h : parse s = some j) :
    ∃ r, parseValue ((units s).length + 1) (units s) = some (j, r) ∧ skipWs r = [] := by
  obtain ⟨⟨j', r⟩, hv, h⟩ := bind_eq_some_iff.mp h
  dsimp only at h
  split at h
  · rename_i hr
    cases h
    exact ⟨r, hv, hr⟩
  · cases h

theorem decodeStruct_keeps {σ : Type} {P : GoString → Prop} {Q : σ → Prop} {fs : Fields σ}
    (hf : ∀ f ∈ fs, ∀ cur j cur', Q cur → StringsIn P j → f.2 cur j = some cur' → Q cur')
    {cur cur' : σ} (hcur : Q cur) (hj : StringsIn P j) (h : decodeStruct fs cur j = some cur') :
    Q cur' := by
  have hmember : ∀ (m : GoString × Json) cur cur', Q cur → StringsIn P m.2 →
      decodeMember fs cur m = some cur' → Q cur' := by
    intro m cur cur' hc hm h
    unfold decodeMember Fields.lookup at h
    cases h1 : fs.find? (·.1 = m.1) with
    | some f =>
      rw [h1] at h
      exact hf f (mem_of_find?_eq_some h1) cur m.2 cur' hc hm h
    | none =>
      cases h2 : fs.find? fun f => equalFold f.1 0 m.1 with
      | some f =>
        rw [h1, h2] at h
        exact hf f (mem_of_find?_eq_some h2) cur m.2 cur' hc hm h
      | none =>
        rw [h1, h2] at h
        exact some.inj h ▸ hc
  cases j with
  | null => exact some.inj h ▸ hcur
  | obj ms =>
    change ms.foldlM (decodeMember fs) cur = some cur' at h
    change StringsInMembers P ms at hj
    induction ms generalizing cur with
    | nil => exact some.inj h ▸ hcur
    | cons m ms ih =>
      obtain ⟨cur1, h1, h⟩ := bind_eq_some_iff.mp h
      exact ih (hmember m cur cur1 hcur hj.1 h1) h hj.2
  | bool b | num lit | str s | arr es => cases h

theorem decodeString_cases {cur s : GoString} (h : decodeString cur j = some s) :
    s = cur ∨ j = .str s := by
  cases j with
  | null => exact .inl (some.inj h).symm
  | str x => exact .inr (congrArg Json.str (some.inj h))
  | bool b | num lit | arr es | obj ms => cases h

end Json

end FabricOev.Go
