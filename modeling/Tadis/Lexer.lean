import Tadis.Ast

/-!
# The lexer

The lexer has a cursor and a slot `cur_val_` for the value of the last token that has one; its input
never changes and is a parameter here. `scan` is one call of `internal_next` at position `p`: the
code, the token, what is stored in `cur_val_` (`none` when it is left alone) and the new position.
`stof` is the standard conversion of a text to a `float`; it is `none` where it throws.
-/

namespace Tadis

inductive Token
  | selectT
  | insertT
  | createT
  | deleteT
  | updateT
  | dropT
  | fromT
  | whereT
  | intoT
  | valuesT
  | tableT
  | idT
  | plusT
  | minusT
  | floatT
  | integerT
  | stringT
  | colonT
  | dotT
  | commasT
  | starT
  | assignT
  | notEqT
  | greaterT
  | smallerT
  | lbraceT
  | rbraceT
  | inT
  | isT
  | notT
  | nullT
  | nullableT
  | sCharT
  | sVarcharT
  | sIntT
  | sFloatT
  | badExpr
  deriving DecidableEq, Repr

structure Lexer where
  p : ℕ := 0
  curVal : Value := .undefined
  deriving DecidableEq, Repr

namespace Lexer

def specToken : List (Bytes × Token) :=
  [(str "SELECT", .selectT), (str "INSERT", .insertT), (str "UPDATE", .updateT),
    (str "CREATE", .createT), (str "DELETE", .deleteT), (str "DROP", .dropT),
    (str "INTO", .intoT), (str "FROM", .fromT), (str "WHERE", .whereT), (str "INFO", .intoT),
    (str "TABLE", .tableT), (str "VALUES", .valuesT), (str "IN", .inT), (str "IS", .isT),
    (str "NOT", .notT), (str "NULL", .nullT), (str "NULLABLE", .nullableT), (str "CHAR", .sCharT),
    (str "VARCHAR", .sVarcharT), (str "INT", .sIntT), (str "FLOAT", .sFloatT)]

def isDigit (b : UInt8) : Bool := '0'.toUInt8 ≤ b ∧ b ≤ '9'.toUInt8

/-- `a` to `z`, `A` to `Z` and `_`. -/
def isIdStart (b : UInt8) : Bool :=
  ('a'.toUInt8 ≤ b ∧ b ≤ 'z'.toUInt8) ∨ ('A'.toUInt8 ≤ b ∧ b ≤ 'Z'.toUInt8) ∨ b = '_'.toUInt8

def isIdPart (b : UInt8) : Bool := isIdStart b ∨ isDigit b

def toUpper (s : Bytes) : Bytes :=
  s.map (fun b => if 'a'.toUInt8 ≤ b ∧ b ≤ 'z'.toUInt8 then b - 'a'.toUInt8 + 'A'.toUInt8 else b)

variable (stof : Bytes → Option UInt32) (input : Bytes)

/-- The byte behind the last one is NUL. -/
def charAt (i : ℕ) : UInt8 := input.getD i 0

/-- The end of the run of bytes from `p` on that satisfy `f`. -/
def skipWhile (f : UInt8 → Bool) (p : ℕ) : ℕ := p + ((input.drop p).takeWhile f).length

def skipBlank (p : ℕ) : ℕ := skipWhile input (· = ' '.toUInt8) p

def slice (p k : ℕ) : Bytes := (input.drop p).take k

/-- The value of a run of digits, as a `long`. -/
def digitsValue (bs : Bytes) : Int64 :=
  bs.foldl (fun num b => Int64.ofNat (b.toNat - '0'.toNat) + num * 10) 0

/-- The text of a `float` is cut one byte short. -/
def parseNum (p : ℕ) : Option (Token × Option Value × ℕ) :=
  let stop := skipWhile input isDigit p
  if charAt input stop = '.'.toUInt8 then
    let last := skipWhile input isDigit (stop + 1)
    if stop = last - 1 then some (.badExpr, none, last)
    else (stof (slice input p (last - p - 1))).map (fun f => (.floatT, some (.floats f), last))
  else some (.integerT, some (.ints (digitsValue (slice input p (stop - p)))), stop)

/-- `cur_val_ * -1`. -/
def negate : Value → Value
  | .ints n => .ints (n * -1)
  | .floats f => .floats (f ^^^ 0x80000000)
  | v => v

def scanNum (p : ℕ) : Option (RC × Token × Option Value × ℕ) :=
  (parseNum stof input p).map
    (fun r => (if r.1 = .badExpr then .syntaxError else .success, r.1, r.2.1, r.2.2))

def scanId (p : ℕ) : RC × Token × Option Value × ℕ :=
  let stop := skipWhile input isIdPart p
  let id := slice input p (stop - p)
  match specToken.lookup (toUpper id) with
  | some token => (.success, token, none, stop)
  | none => (.success, .idT, some (.string id), stop)

def scanString (p : ℕ) : RC × Token × Option Value × ℕ :=
  let stop := skipWhile input (· ≠ '\''.toUInt8) (p + 1)
  if stop = p + 1 then (.syntaxError, .badExpr, none, p)
  else (.success, .stringT, some (.string (slice input (p + 1) (stop - p - 1))), stop + 1)

/-- The tokens of one character that no other token starts with. -/
def symbols : List (UInt8 × Token) :=
  [('+'.toUInt8, .plusT), ('='.toUInt8, .assignT), ('>'.toUInt8, .greaterT),
    (','.toUInt8, .commasT), ('*'.toUInt8, .starT), ('.'.toUInt8, .dotT), (';'.toUInt8, .colonT),
    ('('.toUInt8, .lbraceT), (')'.toUInt8, .rbraceT)]

def scan (p : ℕ) : Option (RC × Token × Option Value × ℕ) :=
  let p := skipBlank input p
  let ch := charAt input p
  let next := charAt input (p + 1)
  if input.length ≤ p then some (.syntaxError, .badExpr, none, p)
  else if isIdStart ch then some (scanId input p)
  else if ch = '0'.toUInt8 ∧ isDigit next then some (.syntaxError, .badExpr, none, p)
  else if isDigit ch then scanNum stof input p
  else if ch = '-'.toUInt8 then
    if isDigit next then
      (parseNum stof input (p + 1)).map (fun r => (.success, r.1, r.2.1.map negate, r.2.2))
    else some (.success, .minusT, none, p + 1)
  else if ch = '<'.toUInt8 then
    if next = '>'.toUInt8 then some (.success, .notEqT, none, p + 2)
    else some (.success, .smallerT, none, p + 1)
  else if ch = '\''.toUInt8 then some (scanString input p)
  else
    match symbols.lookup ch with
    | some token => some (.success, token, none, p + 1)
    | none => some (.syntaxError, .badExpr, none, p)

def internalNext (l : Lexer) : Option ((RC × Token) × Lexer) :=
  (scan stof input l.p).map (fun r => ((r.1, r.2.1), ⟨r.2.2.2, r.2.2.1.getD l.curVal⟩))

end Lexer

end Tadis
