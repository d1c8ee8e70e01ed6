import Tadis.Basic

/-!
# Values and statements

What the parser builds and the binder reads. A `Value` holds its payload together with its type: a
`long` is a 64-bit integer, a `float` is its bit pattern.
-/

namespace Tadis

structure RelAttr where
  table : Bytes := []
  attr : Bytes := []
  deriving DecidableEq, Repr

inductive CondOp
  | undefined
  | notEq
  | eq
  | greater
  | smaller
  | is
  | isNot
  | inOp
  deriving DecidableEq, Repr

inductive AttrType
  | undefined
  | relAttr
  | string
  | ints
  | floats
  | nullA
  | query
  deriving DecidableEq, Repr

inductive Value
  | undefined
  | relAttr (a : RelAttr)
  | string (s : Bytes)
  | ints (n : Int64)
  | floats (f : UInt32)
  | nullA
  deriving DecidableEq, Repr

namespace Value

def attrType : Value → AttrType
  | undefined => .undefined
  | relAttr _ => .relAttr
  | string _ => .string
  | ints _ => .ints
  | floats _ => .floats
  | nullA => .nullA

/-- The sign of `std::string::compare`. -/
def compareBytes : Bytes → Bytes → ℤ
  | [], [] => 0
  | [], _ :: _ => -1
  | _ :: _, [] => 1
  | a :: s, b :: t => if a < b then -1 else if b < a then 1 else compareBytes s t

/-- The difference of two integers is truncated to an `int`. `floatSub` is the `int` that the
difference of two floats converts to. The result is `none` where an assertion fails. -/
def compare (floatSub : UInt32 → UInt32 → ℤ) : Value → Value → Option ℤ
  | ints a, ints b => some (a - b).toInt32.toInt
  | floats a, floats b => some (floatSub a b)
  | string s, string t => some (compareBytes s t)
  | _, _ => none

theorem compare_isSome (floatSub : UInt32 → UInt32 → ℤ) {a b : Value} {t : AttrType}
    (ht : t = .ints ∨ t = .floats ∨ t = .string) (ha : a.attrType = t) (hb : b.attrType = t) :
    ∃ c, a.compare floatSub b = some c := by
  subst ha
  cases a <;> cases b <;> simp_all [attrType, compare]

theorem compare_isSome_iff {floatSub : UInt32 → UInt32 → ℤ} {a b : Value} :
    (∃ c, a.compare floatSub b = some c) ↔
      ∃ t, (t = .ints ∨ t = .floats ∨ t = .string) ∧ a.attrType = t ∧ b.attrType = t := by
  constructor
  · rintro ⟨c, hc⟩
    cases a <;> cases b <;> cases hc
    · exact ⟨.string, by simp, rfl, rfl⟩
    · exact ⟨.ints, by simp, rfl, rfl⟩
    · exact ⟨.floats, by simp, rfl, rfl⟩
  · rintro ⟨t, ht, ha, hb⟩
    exact compare_isSome floatSub ht ha hb

end Value

structure Condition where
  left : Value
  right : Value
  op : CondOp := .undefined
  deriving DecidableEq, Repr

structure SelectStmt where
  selist : List RelAttr := []
  fromList : List Bytes := []
  condList : List Condition := []
  deriving DecidableEq, Repr

structure DeleteStmt where
  tables : List Bytes := []
  conds : List Condition := []
  deriving DecidableEq, Repr

structure InsertStmt where
  tableName : Bytes := []
  cols : List Bytes := []
  values : List Value := []
  deriving DecidableEq, Repr

structure ColAttr where
  name : Bytes := []
  type : Bytes := []
  size : ℕ := 0
  deriving DecidableEq, Repr

structure CreateTableStmt where
  colAttrs : List ColAttr := []
  tableName : Bytes := []
  deriving DecidableEq, Repr

structure DropStmt where
  table : Bytes := []
  deriving DecidableEq, Repr

inductive QueryStmt
  | select (s : SelectStmt)
  | delete (s : DeleteStmt)
  | insert (s : InsertStmt)
  | createTable (s : CreateTableStmt)
  | drop (s : DropStmt)
  deriving DecidableEq, Repr

inductive QueryType
  | select
  | insert
  | delete
  | create
  | drop
  deriving DecidableEq, Repr

def QueryStmt.type : QueryStmt → QueryType
  | .select _ => .select
  | .insert _ => .insert
  | .delete _ => .delete
  | .createTable _ => .create
  | .drop _ => .drop

end Tadis
