import FabricOev.Go.Strconv

/-!
# JSON text

The syntax layer of `encoding/json`: the values, the encoder with its string
escapes, and the parser. Both work on the runes of a text, each given by its
encoding: a byte outside every encoding is accepted only inside a string, where
the decoder reads it as U+FFFD. The parser is fuelled by the length of the text
(`parse`), so running out of fuel is not an outcome of its own.
-/

namespace FabricOev.Go

open UInt8

inductive Json where
  | null
  | bool (b : Bool)
  | num (lit : Bytes)
  | str (s : GoString)
  | arr (elems : List Json)
  | obj (members : List (GoString × Json))

namespace Json

/-- A text as the list of the encodings of its runes. -/
abbrev Units := List Bytes

def units (s : GoString) : Units := (toRunes s).map Rune.bytes

def ascii (s : Bytes) : Units := s.map ([·])

def hexDigit (n : Nat) : UInt8 := if n < 10 then ofNat (48 + n) else ofNat (87 + n)

/-- `encodeState.string` on one rune, with the HTML escapes on. -/
def quoteRune : Rune → Units
  | .invalid _ => ascii (Go.str "\\ufffd")
  | .valid [b] =>
    if b = 0x5C ∨ b = 0x22 then ascii [0x5C, b]
    else if b = 0x0A then ascii (Go.str "\\n")
    else if b = 0x0D then ascii (Go.str "\\r")
    else if b = 0x09 then ascii (Go.str "\\t")
    else if b < 0x20 ∨ b = 0x3C ∨ b = 0x3E ∨ b = 0x26 then
      ascii (Go.str "\\u00" ++ [hexDigit (b.toNat / 16), hexDigit (b.toNat % 16)])
    else [[b]]
  | .valid enc =>
    if enc = [0xE2, 0x80, 0xA8] then ascii (Go.str "\\u2028")
    else if enc = [0xE2, 0x80, 0xA9] then ascii (Go.str "\\u2029")
    else [enc]

def quote (s : GoString) : Units := [0x22] :: (toRunes s).flatMap quoteRune ++ [[0x22]]

mutual
def encodeUnits : Json → Units
  | .null => ascii (Go.str "null")
  | .bool b => ascii (Go.str (if b then "true" else "false"))
  | .num lit => ascii lit
  | .str s => quote s
  | .arr es => [0x5B] :: encodeElems es
  | .obj ms => [0x7B] :: encodeMembers ms
def encodeElems : List Json → Units
  | [] => [[0x5D]]
  | [e] => encodeUnits e ++ [[0x5D]]
  | e :: es => encodeUnits e ++ [0x2C] :: encodeElems es
def encodeMembers : List (GoString × Json) → Units
  | [] => [[0x7D]]
  | [(k, v)] => quote k ++ [0x3A] :: encodeUnits v ++ [[0x7D]]
  | (k, v) :: ms => quote k ++ [0x3A] :: encodeUnits v ++ [0x2C] :: encodeMembers ms
end

def encode (j : Json) : Bytes := (encodeUnits j).flatten

/-! ## Parser -/

def isWs (u : Bytes) : Bool := u = [0x20] ∨ u = [0x09] ∨ u = [0x0A] ∨ u = [0x0D]

def skipWs (s : Units) : Units := s.dropWhile isWs

def expect (c : UInt8) (s : Units) : Option Units :=
  match skipWs s with
  | [] => none
  | u :: t => if u = [c] then some t else none

def hexVal : Bytes → Option Nat
  | [c] =>
    if isDigit c then some (c.toNat - 48)
    else if 0x61 ≤ c ∧ c ≤ 0x66 then some (c.toNat - 87)
    else if 0x41 ≤ c ∧ c ≤ 0x46 then some (c.toNat - 55)
    else none
  | _ => none

def hex4 : Units → Option (Nat × Units)
  | a :: b :: c :: d :: t => do
    let w ← hexVal a
    let x ← hexVal b
    let y ← hexVal c
    let z ← hexVal d
    some (((w * 16 + x) * 16 + y) * 16 + z, t)
  | _ => none

def simpleEscape (u : Bytes) : Option UInt8 :=
  if u = [0x22] then some 0x22
  else if u = [0x5C] then some 0x5C
  else if u = [0x2F] then some 0x2F
  else if u = [0x62] then some 0x08
  else if u = [0x66] then some 0x0C
  else if u = [0x6E] then some 0x0A
  else if u = [0x72] then some 0x0D
  else if u = [0x74] then some 0x09
  else none

def encodeRune (c : Nat) : Bytes :=
  if c < 0x80 then [ofNat c]
  else if c < 0x800 then [ofNat (0xC0 + c / 64), ofNat (0x80 + c % 64)]
  else if (0xD800 ≤ c ∧ c < 0xE000) ∨ 0x110000 ≤ c then replacement
  else if c < 0x10000 then
    [ofNat (0xE0 + c / 4096), ofNat (0x80 + c / 64 % 64), ofNat (0x80 + c % 64)]
  else
    [ofNat (0xF0 + c / 262144), ofNat (0x80 + c / 4096 % 64),
      ofNat (0x80 + c / 64 % 64), ofNat (0x80 + c % 64)]

/-- The low half of a surrogate pair, when the text goes on with its escape. -/
def lowSurrogate (s : Units) : Option (Nat × Units) :=
  match s with
  | a :: b :: t =>
    if a = [0x5C] ∧ b = [0x75] then
      match hex4 t with
      | some (r, t') => if 0xDC00 ≤ r ∧ r < 0xE000 then some (r, t') else none
      | none => none
    else none
  | _ => none

/-- The rune of a `\u` escape with digits `r`, and the rest. An unpaired surrogate is U+FFFD. -/
def unicodeEscape (r : Nat) (t : Units) : Bytes × Units :=
  if 0xD800 ≤ r ∧ r < 0xDC00 then
    match lowSurrogate t with
    | some (r', t') => (encodeRune (0x10000 + (r - 0xD800) * 1024 + (r' - 0xDC00)), t')
    | none => (replacement, t)
  else (encodeRune r, t)

/-- A string after its opening quote. -/
def parseStr : Nat → Units → Option (GoString × Units)
  | 0, _ => none
  | _ + 1, [] => none
  | n + 1, u :: t =>
    if u = [0x22] then some ([], t)
    else if u = [0x5C] then
      match t with
      | [] => none
      | e :: t =>
        if e = [0x75] then do
          let (r, t) ← hex4 t
          let (enc, t) := unicodeEscape r t
          let (s, t) ← parseStr n t
          some (enc ++ s, t)
        else do
          let c ← simpleEscape e
          let (s, t) ← parseStr n t
          some (c :: s, t)
    else if u < [0x20] then none
    else do
      let (s, t) ← parseStr n t
      some (u ++ s, t)

def isDigitUnit : Bytes → Bool
  | [c] => isDigit c
  | _ => false

def digits1 (s : Units) : Option (Units × Units) :=
  match s.takeWhile isDigitUnit with
  | [] => none
  | ds => some (ds, s.dropWhile isDigitUnit)

/-- The integer part: `0`, or digits that do not start with `0`. -/
def intPart (s : Units) : Option (Units × Units) :=
  match s with
  | [] => none
  | u :: t => if u = [0x30] then some ([u], t) else digits1 s

def fracPart (s : Units) : Option (Units × Units) :=
  match s with
  | [] => some ([], [])
  | u :: t =>
    if u = [0x2E] then (digits1 t).map fun (ds, r) => (u :: ds, r) else some ([], s)

def expPart (s : Units) : Option (Units × Units) :=
  match s with
  | [] => some ([], [])
  | u :: t =>
    if u = [0x65] ∨ u = [0x45] then
      match t with
      | [] => none
      | v :: t' =>
        if v = [0x2B] ∨ v = [0x2D] then (digits1 t').map fun (ds, r) => (u :: v :: ds, r)
        else (digits1 t).map fun (ds, r) => (u :: ds, r)
    else some ([], s)

def signPart : Units → Units × Units
  | [] => ([], [])
  | u :: t => if u = [0x2D] then ([u], t) else ([], u :: t)

def parseNum (s : Units) : Option (Json × Units) := do
  let (sg, s) := signPart s
  let (ip, s) ← intPart s
  let (fp, s) ← fracPart s
  let (ep, s) ← expPart s
  some (.num (sg ++ ip ++ fp ++ ep).flatten, s)

def parseLit (lit : String) (j : Json) (s : Units) : Option (Json × Units) :=
  if (ascii (Go.str lit)).isPrefixOf s then some (j, s.drop (Go.str lit).length) else none

mutual
def parseValue : Nat → Units → Option (Json × Units)
  | 0, _ => none
  | n + 1, s =>
    match skipWs s with
    | [] => none
    | u :: t =>
      if u = [0x22] then (parseStr n t).map fun (x, r) => (.str x, r)
      else if u = [0x7B] then
        match expect 0x7D t with
        | some r => some (.obj [], r)
        | none => (parseMembers n t).map fun (ms, r) => (.obj ms, r)
      else if u = [0x5B] then
        match expect 0x5D t with
        | some r => some (.arr [], r)
        | none => (parseElems n t).map fun (es, r) => (.arr es, r)
      else if u = [0x6E] then parseLit "ull" .null t
      else if u = [0x74] then parseLit "rue" (.bool true) t
      else if u = [0x66] then parseLit "alse" (.bool false) t
      else parseNum (u :: t)
def parseElems : Nat → Units → Option (List Json × Units)
  | 0, _ => none
  | n + 1, s => do
    let (e, r) ← parseValue n s
    match expect 0x2C r with
    | some r => (parseElems n r).map fun (es, r) => (e :: es, r)
    | none => (expect 0x5D r).map fun r => ([e], r)
def parseMembers : Nat → Units → Option (List (GoString × Json) × Units)
  | 0, _ => none
  | n + 1, s => do
    let r ← expect 0x22 s
    let (k, r) ← parseStr n r
    let r ← expect 0x3A r
    let (v, r) ← parseValue n r
    match expect 0x2C r with
    | some r => (parseMembers n r).map fun (ms, r) => ((k, v) :: ms, r)
    | none => (expect 0x7D r).map fun r => ([(k, v)], r)
end

/-- The syntax check and the parse of `json.Unmarshal`; `none` is a syntax error. -/
def parse (s : GoString) : Option Json := do
  let (j, r) ← parseValue ((units s).length + 1) (units s)
  if skipWs r = [] then some j else none

end Json

end FabricOev.Go
