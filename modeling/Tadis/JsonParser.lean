import Tadis.Json

/-!
# The JSON parser

A cursor is what is left of the buffer, with the terminating NUL at its end: `state_.data_ +
state_.offset_` is its first byte, and at most the NUL is left where the offset has reached the size.
`PSON_ASSERT` only prints. A parse function returns whether it succeeded, the value that it leaves and
the cursor; it is `none` where a byte behind the NUL is read, and where `fuel` calls are not enough.
`strtod` is the conversion of a text to a double; it is `none` where the result is out of range.
-/

namespace Tadis.Pson

variable {ν : Type}

abbrev Outcome (α : Type) := Bool × α × Bytes

/-- `offset >= size`. -/
def atEnd (p : Bytes) : Bool := p.length ≤ 1

def isBlank (c : UInt8) : Bool := c = 0x20 ∨ c = 0x09 ∨ c = 0x0A ∨ c = 0x0D

/-- The NUL is no blank. -/
def skipWriteBlank (p : Bytes) : Bytes := p.dropWhile isBlank

/-- `word` at the cursor, whose first byte has been looked at. -/
def parseWord (word : Bytes) (val v : Json ν) (p : Bytes) : Outcome (Json ν) :=
  if word.length < p.length ∧ (p.take word.length).tail = word.tail then
    (true, val, p.drop word.length)
  else (false, v, p)

def parseTrue (v : Json ν) (p : Bytes) : Outcome (Json ν) := parseWord (str "true") (.bool true) v p

def parseFalse (v : Json ν) (p : Bytes) : Outcome (Json ν) := parseWord (str "false") (.bool false) v p

def parseNull (v : Json ν) (p : Bytes) : Outcome (Json ν) := parseWord (str "null") .null v p

def isDigit (c : UInt8) : Bool := '0'.toUInt8 ≤ c ∧ c ≤ '9'.toUInt8

def isOneToNine (c : UInt8) : Bool := '1'.toUInt8 ≤ c ∧ c ≤ '9'.toUInt8

def skipDigits : Bytes → Option Bytes
  | [] => none
  | c :: p => if isDigit c then skipDigits p else some (c :: p)

def scanDigits : Bytes → Option (Option Bytes)
  | [] => none
  | c :: p => if isDigit c then (skipDigits p).map some else some none

def scanSign : Bytes → Option Bytes
  | [] => none
  | c :: p => some (if c = '+'.toUInt8 ∨ c = '-'.toUInt8 then p else c :: p)

def scanExp : Bytes → Option (Option Bytes)
  | [] => none
  | c :: p =>
    if c = 'e'.toUInt8 ∨ c = 'E'.toUInt8 then (scanSign p).bind scanDigits else some (some (c :: p))

def scanFrac : Bytes → Option (Option Bytes)
  | [] => none
  | c :: p =>
    if c = '.'.toUInt8 then
      match scanDigits p with
      | some (some p) => scanExp p
      | r => r
    else scanExp (c :: p)

def scanInt : Bytes → Option (Option Bytes)
  | [] => none
  | c :: p =>
    if c = '0'.toUInt8 then some (some p)
    else if isOneToNine c then (skipDigits p).map some
    else some none

/-- The end of the number at the cursor, `some none` where there is no number. -/
def scanNumber : Bytes → Option (Option Bytes)
  | [] => none
  | c :: p =>
    match scanInt (if c = '-'.toUInt8 then p else c :: p) with
    | some (some p) => scanFrac p
    | r => r

/-- `strtod` reads the text at the cursor on its own. -/
def parseNumber (strtod : Bytes → Option ν) (v : Json ν) (p : Bytes) :
    Option (Outcome (Json ν)) :=
  (scanNumber p).map (fun r =>
    match r, strtod p with
    | some q, some x => (true, .number x, q)
    | _, _ => (false, v, p))

def hexDigit (c : UInt8) : Option ℕ :=
  if '0'.toUInt8 ≤ c ∧ c ≤ '9'.toUInt8 then some (c - '0'.toUInt8).toNat
  else if 'A'.toUInt8 ≤ c ∧ c ≤ 'F'.toUInt8 then some (c - 'A'.toUInt8 + 10).toNat
  else if 'a'.toUInt8 ≤ c ∧ c ≤ 'f'.toUInt8 then some (c - 'a'.toUInt8 + 10).toNat
  else none

/-- `k` more hexadecimal digits, `none` in the result where one is missing. -/
def parseHex : ℕ → ℕ → Bytes → Option (Option ℕ × Bytes)
  | 0, u, p => some (some u, p)
  | _ + 1, _, [] => none
  | k + 1, u, c :: p =>
    match hexDigit c with
    | some x => parseHex k (u * 16 + x) p
    | none => some (none, p)

def parseHex4 (p : Bytes) : Option (Option ℕ × Bytes) := parseHex 4 0 p

def parseUtf8 (s : Bytes) (u : ℕ) : Bytes :=
  if u ≤ 0x7F then s ++ [.ofNat u]
  else if u ≤ 0x7FF then s ++ [.ofNat (0xC0 + u / 2 ^ 6), .ofNat (0x80 + u % 2 ^ 6)]
  else if u ≤ 0xFFFF then
    s ++ [.ofNat (0xE0 + u / 2 ^ 12), .ofNat (0x80 + u / 2 ^ 6 % 2 ^ 6), .ofNat (0x80 + u % 2 ^ 6)]
  else
    s ++ [.ofNat (0xF0 + u / 2 ^ 18), .ofNat (0x80 + u / 2 ^ 12 % 2 ^ 6),
      .ofNat (0x80 + u / 2 ^ 6 % 2 ^ 6), .ofNat (0x80 + u % 2 ^ 6)]

/-- `\u`, with the second half of a surrogate pair; `none` in the middle for a failure. -/
def parseUnicode (s : Bytes) (p : Bytes) : Option (Option Bytes × Bytes) :=
  match parseHex4 p with
  | none => none
  | some (none, p) => some (none, p)
  | some (some u, p) =>
    if 0xD800 ≤ u ∧ u ≤ 0xDBFF then
      match p with
      | [] => none
      | c :: p =>
        if c ≠ '\\'.toUInt8 then some (none, p)
        else
          match p with
          | [] => none
          | c :: p =>
            if c ≠ 'u'.toUInt8 then some (none, p)
            else
              match parseHex4 p with
              | none => none
              | some (none, p) => some (none, p)
              | some (some u2, p) =>
                if u2 < 0xDC00 ∨ 0xDFFF < u2 then some (none, p)
                else some (some (parseUtf8 s ((u - 0xD800) * 2 ^ 10 + (u2 - 0xDC00) + 0x10000)), p)
    else some (some (parseUtf8 s u), p)

/-- The inner switch, on the byte `c` before the cursor `p`. -/
def parseEscape (c : UInt8) (s p : Bytes) : Option (Option Bytes × Bytes) :=
  if c = '"'.toUInt8 then some (some (s ++ [c]), p)
  else if c = '\\'.toUInt8 then some (some (s ++ [c]), p)
  else if c = '/'.toUInt8 then some (some (s ++ [c]), p)
  else if c = 'b'.toUInt8 then some (some (s ++ [8]), p)
  else if c = 'f'.toUInt8 then some (some (s ++ [12]), p)
  else if c = 'n'.toUInt8 then some (some (s ++ [10]), p)
  else if c = 'r'.toUInt8 then some (some (s ++ [13]), p)
  else if c = 't'.toUInt8 then some (some (s ++ [9]), p)
  else if c = 'u'.toUInt8 then parseUnicode s p
  else some (some s, p)

/-- The loop of `parse_string_row`. The inner switch is on `d[offset++]`, which is the backslash
itself, and it falls through to `default`, which takes the byte `ch` once more. -/
def stringRow : ℕ → Bytes → Bytes → Option (Outcome Bytes)
  | 0, _, _ => none
  | fuel + 1, s, p =>
    if atEnd p then some (false, s, p)
    else
      match p with
      | [] => none
      | ch :: q =>
        if ch = '"'.toUInt8 then some (true, s, q)
        else if ch = 0 then some (false, s, p)
        else if ch = '\\'.toUInt8 then
          match parseEscape ch s q with
          | none => none
          | some (none, p) => some (false, s, p)
          | some (some s, p) => stringRow fuel (s ++ [ch]) p.tail
        else stringRow fuel (s ++ [ch]) q

/-- The byte at the cursor should be a quote. It is skipped. -/
def parseStringRow (p : Bytes) : Option (Outcome Bytes) :=
  match p with
  | [] => none
  | _ :: q => stringRow (q.length + 1) [] q

def parseString (v : Json ν) (p : Bytes) : Option (Outcome (Json ν)) :=
  (parseStringRow p).map (fun
    | (true, s, p) => (true, .string s, p)
    | (false, _, p) => (false, v, p))

variable (strtod : Bytes → Option ν)

mutual

/-- `parse_value` in a buffer that is not empty. -/
def parseValue : ℕ → Json ν → Bytes → Option (Outcome (Json ν))
  | 0, _, _ => none
  | _ + 1, _, [] => none
  | fuel + 1, v, ch :: p =>
    if ch = 't'.toUInt8 then some (parseTrue v (ch :: p))
    else if ch = 'f'.toUInt8 then some (parseFalse v (ch :: p))
    else if ch = 'n'.toUInt8 then some (parseNull v (ch :: p))
    else if ch = '"'.toUInt8 then parseString v (ch :: p)
    else if ch = '['.toUInt8 then
      let p := skipWriteBlank p
      if atEnd p then some (false, v, p)
      else if p.head? = some ']'.toUInt8 then some (true, .array [], p.tail)
      else parseArrayFrom fuel [] p
    else if ch = '{'.toUInt8 then
      let p := skipWriteBlank p
      if atEnd p then some (false, v, p)
      else if p.head? = some '}'.toUInt8 then some (true, .object [], p.tail)
      else parseObjectFrom fuel [] p
    else parseNumber strtod v (ch :: p)

/-- The loop of `parse_array`; `values` are in the array. -/
def parseArrayFrom : ℕ → List (Json ν) → Bytes → Option (Outcome (Json ν))
  | 0, _, _ => none
  | fuel + 1, values, p =>
    match parseValue fuel .null (skipWriteBlank p) with
    | none => none
    | some (false, _, p) => some (false, .array values, p)
    | some (true, val, p) =>
      match skipWriteBlank p with
      | [] => none
      | ch :: p =>
        if ch = ','.toUInt8 then parseArrayFrom fuel (values ++ [val]) p
        else if ch = ']'.toUInt8 then some (true, .array (values ++ [val]), p)
        else some (false, .array (values ++ [val]), ch :: p)

/-- The loop of `parse_object`; `members` are in the object. Where neither a comma nor a brace
follows a member, the loop goes on. -/
def parseObjectFrom : ℕ → List (Bytes × Json ν) → Bytes → Option (Outcome (Json ν))
  | 0, _, _ => none
  | fuel + 1, members, p =>
    match parseStringRow p with
    | none => none
    | some (false, _, p) => some (false, .object members, p)
    | some (true, name, p) =>
      match skipWriteBlank p with
      | [] => none
      | ch :: p =>
        if ch ≠ ':'.toUInt8 then some (false, .object members, ch :: p)
        else
          match parseValue fuel .null (skipWriteBlank p) with
          | none => none
          | some (false, _, p) => some (false, .object members, p)
          | some (true, val, p) =>
            match skipWriteBlank p with
            | [] => none
            | ch :: p =>
              if ch = ','.toUInt8 then
                parseObjectFrom fuel (emplace name val members) (skipWriteBlank p)
              else if ch = '}'.toUInt8 then some (true, .object (emplace name val members), p)
              else if atEnd (ch :: p) then some (false, .object (emplace name val members), ch :: p)
              else parseObjectFrom fuel (emplace name val members) (ch :: p)

end

/-- `Parser::Parse` of a text into the value `v`. -/
def parse (v : Json ν) (text : Bytes) : Option (Outcome (Json ν)) :=
  if text = [] then some (true, .null, [0])
  else parseValue strtod (2 * text.length + 2) v (skipWriteBlank (text ++ [0]))

end Tadis.Pson
