import Tadis.Lexemes
import Tadis.Recognition

/-!
# The grammar of the statements

Which lexemes make a statement, and which statement they make. `CommaList P` is a nonempty list of `P`
with commas.
-/

namespace Tadis.Sql

inductive CommaList {α : Type} (P : List Lexeme → α → Prop) : List Lexeme → List α → Prop
  | one {ts a} (h : P ts a) : CommaList P ts [a]
  | more {ts a us as} (h : P ts a) (hus : CommaList P us as) :
    CommaList P (ts ++ .sym .commasT :: us) (a :: as)

inductive IsId : List Lexeme → Bytes → Prop
  | mk (name : Bytes) : IsId [.id name] name

inductive IsAttr : List Lexeme → RelAttr → Prop
  | plain (name : Bytes) : IsAttr [.id name] ⟨[], name⟩
  | qualified (table name : Bytes) : IsAttr [.id table, .sym .dotT, .id name] ⟨table, name⟩

inductive IsSelist : List Lexeme → List RelAttr → Prop
  | star : IsSelist [.sym .starT] [⟨[], str "*"⟩]
  | attrs {ts as} (h : CommaList IsAttr ts as) : IsSelist ts as

inductive IsLiteral : List Lexeme → Value → Prop
  | string (s : Bytes) : IsLiteral [.string s] (.string s)
  | integer (n : Int64) : IsLiteral [.integer n] (.ints n)
  | float (f : UInt32) : IsLiteral [.float f] (.floats f)
  | null : IsLiteral [.sym .nullT] .nullA

inductive IsOperand : List Lexeme → Value → Prop
  | attr {ts a} (h : IsAttr ts a) : IsOperand ts (.relAttr a)
  | literal {ts v} (h : IsLiteral ts v) : IsOperand ts v

inductive IsOp : Token → CondOp → Prop
  | notEq : IsOp .notEqT .notEq
  | eq : IsOp .assignT .eq
  | greater : IsOp .greaterT .greater
  | smaller : IsOp .smallerT .smaller
  | inOp : IsOp .inT .inOp
  | is : IsOp .isT .is

inductive IsCond : List Lexeme → Condition → Prop
  | mk {ls l o op rs r} (hl : IsOperand ls l) (ho : IsOp o op) (hr : IsOperand rs r) :
    IsCond (ls ++ .sym o :: rs) ⟨l, r, op⟩

inductive IsType : List Lexeme → Bytes × ℕ → Prop
  | int : IsType [.sym .sIntT] (str "INT", 0)
  | float : IsType [.sym .sFloatT] (str "FLOAT", 0)
  | char (n : Int64) :
    IsType [.sym .sCharT, .sym .lbraceT, .integer n, .sym .rbraceT] (str "CHAR", Parser.longToSize n)
  | varchar (n : Int64) :
    IsType [.sym .sVarcharT, .sym .lbraceT, .integer n, .sym .rbraceT]
      (str "VARCHAR", Parser.longToSize n)

inductive IsColAttr : List Lexeme → ColAttr → Prop
  | mk {ts type} (name : Bytes) (h : IsType ts type) :
    IsColAttr (.id name :: ts) ⟨name, type.1, type.2⟩

/-- The column list of an `INSERT`, which may be left out. -/
inductive IsCols : List Lexeme → List Bytes → Prop
  | none : IsCols [] []
  | some {ts cols} (h : CommaList IsId ts cols) :
    IsCols (.sym .lbraceT :: ts ++ [.sym .rbraceT]) cols

inductive Sentence : List Lexeme → QueryStmt → Prop
  | select {ss sel fs tables} (hs : IsSelist ss sel) (hf : CommaList IsId fs tables) :
    Sentence (.sym .selectT :: ss ++ .sym .fromT :: fs ++ [.sym .colonT]) (.select ⟨sel, tables, []⟩)
  | selectWhere {ss sel fs tables cs conds} (hs : IsSelist ss sel) (hf : CommaList IsId fs tables)
    (hc : CommaList IsCond cs conds) :
    Sentence (.sym .selectT :: ss ++ .sym .fromT :: fs ++ .sym .whereT :: cs ++ [.sym .colonT])
      (.select ⟨sel, tables, conds⟩)
  | delete {fs tables} (hf : CommaList IsId fs tables) :
    Sentence (.sym .deleteT :: .sym .fromT :: fs ++ [.sym .colonT]) (.delete ⟨tables, []⟩)
  | deleteStar {fs tables} (hf : CommaList IsId fs tables) :
    Sentence (.sym .deleteT :: .sym .starT :: .sym .fromT :: fs ++ [.sym .colonT])
      (.delete ⟨tables, []⟩)
  | deleteWhere {fs tables cs conds} (hf : CommaList IsId fs tables)
    (hc : CommaList IsCond cs conds) :
    Sentence (.sym .deleteT :: .sym .fromT :: fs ++ .sym .whereT :: cs ++ [.sym .colonT])
      (.delete ⟨tables, conds⟩)
  | insert {cs cols vs values} (table : Bytes) (hc : IsCols cs cols)
    (hv : CommaList IsLiteral vs values) :
    Sentence (.sym .insertT :: .sym .intoT :: .id table :: cs ++ .sym .valuesT :: .sym .lbraceT ::
      vs ++ [.sym .rbraceT, .sym .colonT]) (.insert ⟨table, cols, values⟩)
  | createTable {cs cols} (table : Bytes) (hc : CommaList IsColAttr cs cols) :
    Sentence (.sym .createT :: .sym .tableT :: .id table :: .sym .lbraceT :: cs ++
      [.sym .rbraceT, .sym .colonT]) (.createTable ⟨cols, table⟩)
  | drop (table : Bytes) :
    Sentence [.sym .dropT, .sym .tableT, .id table, .sym .colonT] (.drop ⟨table⟩)

/-- `ts` are all lexemes of the input: behind them there are only blanks, and no string is left
open. -/
def AllLexemes (stof : Bytes → Option UInt32) (input : Bytes) (ts : List Lexeme) : Prop :=
  ∃ q, Recognition.Reads (Lexer.lexeme stof input) 0 ts q ∧ q ≤ input.length ∧
    input.length ≤ Lexer.skipBlank input q

end Tadis.Sql
