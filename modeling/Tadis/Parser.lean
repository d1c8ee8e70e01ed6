import Tadis.Lexer

/-!
# The parser

A parse function runs on the cursor and the value slot of the lexer; the input never changes. It is
`none` where an assertion or an `any_cast` fails or a conversion throws, and an error is the code it
returns. Every loop has the number of its rounds as fuel.
-/

namespace Tadis

abbrev Parse := StateT Lexer (ExceptT RC Option)

namespace Parser

def abort {α : Type} : Parse α := fun _ => none

variable (stof : Bytes → Option UInt32) (input : Bytes)

def next : Parse (RC × Token) := fun l => (l.internalNext stof input).map .ok

/-- Another token is not consumed, but what it stored in `cur_val_` stays there. -/
def nextIf (t : Token) : Parse (RC × Token) := fun l =>
  (l.internalNext stof input).map (fun r =>
    if r.1.2 = t then .ok ((.success, r.1.2), r.2)
    else .ok ((.syntaxError, r.1.2), { r.2 with p := l.p }))

def peek : Parse (RC × Token) := fun l =>
  (l.internalNext stof input).map (fun r => .ok (r.1, { r.2 with p := l.p }))

def curString : Parse Bytes := fun l =>
  match l.curVal with
  | .string s => some (.ok (s, l))
  | _ => none

def curLong : Parse Int64 := fun l =>
  match l.curVal with
  | .ints n => some (.ok (n, l))
  | _ => none

def curFloat : Parse UInt32 := fun l =>
  match l.curVal with
  | .floats f => some (.ok (f, l))
  | _ => none

/-- `next_if(t)`, where any other token ends the parse. -/
def expect (t : Token) : Parse Unit := do
  let r ← nextIf stof input t
  if r.1 = .success then pure () else throw r.1

def expectId : Parse Bytes := do
  expect stof input .idT
  curString

/-- The loop of the list productions: go on after a comma. -/
def parseList {α : Type} (item : Parse α) : ℕ → Parse (List α)
  | 0 => abort
  | fuel + 1 => do
    let a ← item
    let r ← nextIf stof input .commasT
    if r.1 = .success then do
      let as ← parseList item fuel
      pure (a :: as)
    else pure [a]

/-- The attribute that starts with the identifier `name`. -/
def parseRelAttr (name : Bytes) : Parse RelAttr := do
  let r ← peek stof input
  if r.2 = .dotT then do
    let _ ← next stof input
    let attr ← expectId stof input
    pure ⟨name, attr⟩
  else pure ⟨[], name⟩

/-- The loop of `parse_attrs`; `first` says that the list is still empty. -/
def parseAttrsFrom (first : Bool) : ℕ → Parse (List RelAttr)
  | 0 => abort
  | fuel + 1 => do
    let r ← next stof input
    if r.1 ≠ .success then throw r.1
    else if r.2 = .starT then
      if first then pure [⟨[], str "*"⟩] else throw .syntaxError
    else if r.2 ≠ .idT then throw .syntaxError
    else do
      let name ← curString
      let attr ← parseRelAttr stof input name
      let r ← nextIf stof input .commasT
      if r.1 = .success then do
        let attrs ← parseAttrsFrom false fuel
        pure (attr :: attrs)
      else pure [attr]

def parseAttrs (fuel : ℕ) : Parse (List RelAttr) := parseAttrsFrom stof input true fuel

def parseCols (fuel : ℕ) : Parse (List Bytes) := parseList stof input (expectId stof input) fuel

def parseFrom (fuel : ℕ) : Parse (List Bytes) := do
  let r ← next stof input
  if r.1 ≠ .success ∨ r.2 ≠ .fromT then throw .syntaxError
  else parseList stof input (expectId stof input) fuel

def parseValue : Parse Value := do
  let r ← next stof input
  if r.1 ≠ .success then throw r.1
  else
    match r.2 with
    | .idT => do
      let name ← curString
      let r ← nextIf stof input .dotT
      if r.1 = .success then do
        let attr ← expectId stof input
        pure (.relAttr ⟨name, attr⟩)
      else pure (.relAttr ⟨[], name⟩)
    | .floatT => do
      let f ← curFloat
      pure (.floats f)
    | .integerT => do
      let n ← curLong
      pure (.ints n)
    | .stringT => do
      let s ← curString
      pure (.string s)
    | .nullT => pure .nullA
    | _ => abort

/-- An element of `parse_values`. -/
def parseLiteral : Parse Value := do
  let v ← parseValue stof input
  if v.attrType = .relAttr ∨ v.attrType = .undefined then throw .syntaxError else pure v

def parseValues (fuel : ℕ) : Parse (List Value) :=
  parseList stof input (parseLiteral stof input) fuel

def token2op : Token → CondOp
  | .notEqT => .notEq
  | .assignT => .eq
  | .greaterT => .greater
  | .smallerT => .smaller
  | .inT => .inOp
  | .isT => .is
  | _ => .undefined

def parseOp : Parse CondOp := do
  let r ← next stof input
  if r.1 ≠ .success then throw r.1
  else if token2op r.2 = .undefined then throw .syntaxError
  else pure (token2op r.2)

def parseCond : Parse Condition := do
  let left ← parseValue stof input
  let op ← parseOp stof input
  let right ← parseValue stof input
  pure ⟨left, right, op⟩

def parseConds (fuel : ℕ) : Parse (List Condition) := do
  let r ← next stof input
  if r.1 ≠ .success then throw r.1
  else if r.2 = .whereT then parseList stof input (parseCond stof input) fuel
  else if r.2 = .colonT then pure []
  else throw .syntaxError

def parseSelect (fuel : ℕ) : Parse QueryStmt := do
  let r ← next stof input
  if r.2 = .selectT ∧ r.1 = .success then do
    let selist ← parseAttrs stof input fuel
    let fromList ← parseFrom stof input fuel
    let condList ← parseConds stof input fuel
    pure (.select ⟨selist, fromList, condList⟩)
  else abort

/-- The optional `*` of a `DELETE`. -/
def parseStar : Parse Bool := do
  let r ← nextIf stof input .starT
  if r.1 = .success then pure true else pure false

def parseDelete (fuel : ℕ) : Parse QueryStmt := do
  expect stof input .deleteT
  let star ← parseStar stof input
  let tables ← parseFrom stof input fuel
  let r ← peek stof input
  if r.2 = .whereT ∧ star then throw .syntaxError
  else do
    let conds ← parseConds stof input fuel
    expect stof input .colonT
    pure (.delete ⟨tables, conds⟩)

/-- The columns of an `INSERT` and its `VALUES`. -/
def parseInsertCols (fuel : ℕ) : Parse (List Bytes) := do
  let r ← next stof input
  if r.1 ≠ .success then throw r.1
  else if r.2 = .lbraceT then do
    let cols ← parseCols stof input fuel
    expect stof input .rbraceT
    expect stof input .valuesT
    pure cols
  else if r.2 = .valuesT then pure []
  else throw .syntaxError

def parseInsert (fuel : ℕ) : Parse QueryStmt := do
  expect stof input .insertT
  expect stof input .intoT
  let tableName ← expectId stof input
  let cols ← parseInsertCols stof input fuel
  expect stof input .lbraceT
  let values ← parseValues stof input fuel
  expect stof input .rbraceT
  expect stof input .colonT
  pure (.insert ⟨tableName, cols, values⟩)

/-- A `long` converted to `size_t`. -/
def longToSize (n : Int64) : ℕ := (n.toInt % 2 ^ 64).toNat

/-- The size in brackets behind `CHAR` and `VARCHAR`. -/
def parseSize : Parse ℕ := do
  expect stof input .lbraceT
  expect stof input .integerT
  let n ← curLong
  expect stof input .rbraceT
  pure (longToSize n)

def parseColDataType : Parse (Bytes × ℕ) := do
  let r ← next stof input
  if r.1 ≠ .success then throw .syntaxError
  else
    match r.2 with
    | .sIntT => pure (str "INT", 0)
    | .sFloatT => pure (str "FLOAT", 0)
    | .sCharT => do
      let size ← parseSize stof input
      pure (str "CHAR", size)
    | .sVarcharT => do
      let size ← parseSize stof input
      pure (str "VARCHAR", size)
    | _ => throw .syntaxError

def parseColAttr : Parse ColAttr := do
  let name ← expectId stof input
  let type ← parseColDataType stof input
  pure ⟨name, type.1, type.2⟩

def parseColAttrs (fuel : ℕ) : Parse (List ColAttr) :=
  parseList stof input (parseColAttr stof input) fuel

def parseCreateTable (fuel : ℕ) : Parse QueryStmt := do
  expect stof input .tableT
  let tableName ← expectId stof input
  expect stof input .lbraceT
  let colAttrs ← parseColAttrs stof input fuel
  expect stof input .rbraceT
  expect stof input .colonT
  pure (.createTable ⟨colAttrs, tableName⟩)

def parseCreate (fuel : ℕ) : Parse QueryStmt := do
  expect stof input .createT
  let r ← peek stof input
  if r.2 = .tableT then parseCreateTable stof input fuel else throw .syntaxError

/-- `return rc` before `query_` has been assigned: with `SUCCESS`, the caller finds the statement
that the parser was built with. -/
def returnUnset (rc : RC) : Parse QueryStmt :=
  if rc = .success then pure (.select {}) else throw rc

def parseDrop : Parse QueryStmt := do
  let r ← next stof input
  if r.1 ≠ .success ∨ r.2 ≠ .dropT then returnUnset r.1
  else do
    let r ← next stof input
    if r.1 ≠ .success ∨ r.2 ≠ .tableT then returnUnset r.1
    else do
      let r ← next stof input
      if r.1 ≠ .success ∨ r.2 ≠ .idT then returnUnset r.1
      else do
        let table ← curString
        let r ← next stof input
        if r.1 = .success ∧ r.2 = .colonT then pure (.drop ⟨table⟩) else throw .syntaxError

def parseStatement (fuel : ℕ) : Parse QueryStmt := do
  let r ← peek stof input
  match r.2 with
  | .selectT => parseSelect stof input fuel
  | .createT => parseCreate stof input fuel
  | .deleteT => parseDelete stof input fuel
  | .insertT => parseInsert stof input fuel
  | .dropT => parseDrop stof input
  | _ => throw .syntaxError

/-- The result is the code, or the statement and where the lexer stands. -/
def doParse : Option (Except RC (QueryStmt × Lexer)) :=
  parseStatement stof input (input.length + 1) {}

end Parser

end Tadis
