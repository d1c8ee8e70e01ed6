import Tadis.Tuple

/-!
# Expressions and pull executers

A query is a tree of executers over one scan. The scan is a parameter `scan`: a call delivers a tuple
or stops with an `RC`. A call is `none` when an assertion fails, and when `fuel` tuples have been
skipped by the loop of a filter. `floatSub` is the `int` that the difference of two floats converts
to.
-/

namespace Tadis

inductive ComparsionType
  | equal
  | notEqual
  | lessThan
  | greaterThan
  deriving DecidableEq, Repr

/-- `none` for `false`. -/
def convert : CondOp → Option ComparsionType
  | .greater => some .greaterThan
  | .notEq => some .notEqual
  | .smaller => some .lessThan
  | .eq => some .equal
  | _ => none

def ComparsionType.holds : ComparsionType → ℤ → Bool
  | .equal, c => c = 0
  | .notEqual, c => c ≠ 0
  | .lessThan, c => c < 0
  | .greaterThan, c => 0 < c

inductive Expression
  | columnValue (idx : ℕ)
  | constant (val : Value)
  | comparsion (left right : Expression) (type : ComparsionType)
  deriving DecidableEq, Repr

structure FilterExpression where
  children : List Expression
  deriving DecidableEq, Repr

structure ProjectionExpression where
  children : List Expression
  deriving DecidableEq, Repr

section

variable (floatSub : UInt32 → UInt32 → ℤ)

/-- A comparison evaluates to `1` when it holds and to `-1` when it does not. -/
def Expression.evaluate (tuple : Tuple) (schema : Schema) : Expression → Option Value
  | .columnValue idx => tuple.valueAt schema idx
  | .constant val => some val
  | .comparsion left right type =>
    match left.evaluate tuple schema, right.evaluate tuple schema with
    | some left, some right =>
      (left.compare floatSub right).map (fun c => .ints (if type.holds c then 1 else -1))
    | _, _ => none

/-- The loop of `FilterExpression::evaluate`; `v` is the last value. -/
def FilterExpression.evaluateFrom (tuple : Tuple) (schema : Schema) (v : Value) :
    List Expression → Option Value
  | [] => some v
  | child :: rest =>
    match child.evaluate floatSub tuple schema with
    | some (.ints n) =>
      if n = -1 then some (.ints n) else evaluateFrom tuple schema (.ints n) rest
    | _ => none

def FilterExpression.evaluate (e : FilterExpression) (tuple : Tuple) (schema : Schema) :
    Option Value :=
  FilterExpression.evaluateFrom floatSub tuple schema (.ints 1) e.children

end

/-- Each executer carries its `schema_`. -/
inductive Executer
  | seqScan (table : Bytes) (schema : Schema)
  | filter (expression : FilterExpression) (child : Executer) (schema : Schema)
  | projection (expression : ProjectionExpression) (child : Executer) (schema : Schema)
  deriving DecidableEq, Repr

namespace Executer

def schema : Executer → Schema
  | seqScan _ schema => schema
  | filter _ _ schema => schema
  | projection _ _ schema => schema

variable {σ : Type*} (floatSub : UInt32 → UInt32 → ℤ)

/-- The loop of `FilterExecuter::next`. -/
def filterNext (expression : FilterExpression) (schema : Schema)
    (child : σ → Option (Except RC Tuple × σ)) : ℕ → σ → Option (Except RC Tuple × σ)
  | 0, _ => none
  | fuel + 1, s =>
    match child s with
    | none => none
    | some (.error rc, s) => some (.error rc, s)
    | some (.ok t, s) =>
      match expression.evaluate floatSub t schema with
      | some (.ints n) => if n = 1 then some (.ok t, s) else filterNext expression schema child fuel s
      | _ => none

def projectionNext (expression : ProjectionExpression) (childSchema schema : Schema)
    (child : σ → Option (Except RC Tuple × σ)) (s : σ) : Option (Except RC Tuple × σ) :=
  match child s with
  | none => none
  | some (.error rc, s) => some (.error rc, s)
  | some (.ok t, s) =>
    match expression.children.mapM (Expression.evaluate floatSub t childSchema) with
    | none => none
    | some values => (Tuple.createTuple values schema).map (fun t => (.ok t, s))

def next (scan : σ → Option (Except RC Tuple × σ)) (fuel : ℕ) :
    Executer → σ → Option (Except RC Tuple × σ)
  | seqScan _ _ => scan
  | filter expression child _ =>
    filterNext floatSub expression child.schema (child.next scan fuel) fuel
  | projection expression child schema =>
    projectionNext floatSub expression child.schema schema (child.next scan fuel)

end Executer

end Tadis
