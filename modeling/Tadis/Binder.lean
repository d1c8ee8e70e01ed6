import Mathlib.Data.List.AList
import Tadis.Executer

/-!
# The catalog and the binder

The binder checks a statement against the catalog and builds its executer. The result is an error
executer for a refused statement, and `none` where an assertion fails.
-/

namespace Tadis

structure Catalog where
  tables : AList (fun _ : Bytes => Schema)

namespace Catalog

def getTable (c : Catalog) (name : Bytes) : Option Schema := c.tables.lookup name

def hasTable (c : Catalog) (name : Bytes) : Bool := (c.getTable name).isSome

/-- `emplace` keeps a table that is there already. -/
def createTable (c : Catalog) (name : Bytes) (cols : List Column) : Catalog :=
  if c.hasTable name then c else { tables := c.tables.insert name ⟨cols⟩ }

def dropTable (c : Catalog) (name : Bytes) : Catalog := { tables := c.tables.erase name }

theorem getTable_createTable {c : Catalog} {name : Bytes} (h : c.hasTable name = false)
    (cols : List Column) : (c.createTable name cols).getTable name = some ⟨cols⟩ := by
  rw [createTable, h, getTable]
  exact AList.lookup_insert c.tables

end Catalog

structure ErrorExecuter where
  rc : RC
  msg : Bytes := []
  deriving DecidableEq, Repr

structure InsertExecuter where
  table : Bytes
  schema : Schema
  values : List Value
  deriving DecidableEq, Repr

structure CreateTableExecuter where
  name : Bytes
  cols : List Column
  deriving DecidableEq, Repr

structure DropTableExecuter where
  table : Bytes
  deriving DecidableEq, Repr

inductive BoundExecuter
  | error (e : ErrorExecuter)
  | query (e : Executer)
  | insert (e : InsertExecuter)
  | createTable (e : CreateTableExecuter)
  | dropTable (e : DropTableExecuter)

namespace Binder

def bindInsert (catalog : Catalog) (insert : InsertStmt) : Except ErrorExecuter InsertExecuter :=
  match catalog.getTable insert.tableName with
  | none => .error { rc := .tableNotExisted }
  | some schema =>
    if insert.values.length ≠ schema.columns.length then .error { rc := .columnTypeMismatch }
    else if (insert.values.zip schema.columns).all
        (fun x => checkAttrType x.1.attrType x.2.type) then
      .ok { table := insert.tableName, schema := schema, values := insert.values }
    else .error { rc := .columnTypeMismatch }

/-- The column of one attribute of `CREATE TABLE`. Only a `CHAR` keeps its size. -/
def bindColumn (col : ColAttr) : Option Column :=
  if col.type = str "VARCHAR" then some { type := .varchar, name := col.name, size := 0 }
  else if col.type = str "CHAR" then some { type := .char, name := col.name, size := col.size }
  else if col.type = str "INT" then some { type := .int, name := col.name, size := 0 }
  else if col.type = str "FLOAT" then some { type := .float, name := col.name, size := 0 }
  else none

def bindCreate (catalog : Catalog) (create : CreateTableStmt) :
    Option (Except ErrorExecuter CreateTableExecuter) :=
  if catalog.hasTable create.tableName then some (.error { rc := .tableAlreadyExisted })
  else if create.colAttrs = [] then
    some (.error { rc := .syntaxError, msg := str "empty attributes while create table" })
  else (create.colAttrs.mapM bindColumn).map
    (fun cols => .ok { name := create.tableName, cols := cols })

def bindDrop (drop : DropStmt) : DropTableExecuter := { table := drop.table }

/-- `DELETE` is parsed but not implemented. -/
def bindDelete (_ : DeleteStmt) : ErrorExecuter := { rc := .syntaxError }

def colValueExpress (schema : Schema) (attr : Bytes) : Option Expression :=
  (schema.columnIdx attr).map .columnValue

/-- An operand of a condition. The qualifier of an attribute is not looked at. -/
def operandExpress (schema : Schema) : Value → Option Expression
  | .relAttr a => colValueExpress schema a.attr
  | v => some (.constant v)

def conditionExpress (schema : Schema) (cnd : Condition) : Option Expression :=
  match operandExpress schema cnd.left, operandExpress schema cnd.right, convert cnd.op with
  | some left, some right, some type => some (.comparsion left right type)
  | _, _, _ => none

def filterExecuter (schema : Schema) (condList : List Condition) : Option FilterExpression :=
  (condList.mapM (conditionExpress schema)).map FilterExpression.mk

/-- The column indices of one entry of the select list, `none` for a column that does not exist. -/
def selectedColumns (schema : Schema) (attr : RelAttr) : Option (List ℕ) :=
  if attr.attr = str "*" then some (List.range schema.columns.length)
  else (schema.columnIdx attr.attr).map (fun idx => [idx])

def outputColumns (schema : Schema) (selist : List RelAttr) : Option (List ℕ) :=
  (selist.mapM (selectedColumns schema)).map List.flatten

/-- The executer of a query whose table and qualifiers have been checked. -/
def bindQuery (table : Bytes) (schema : Schema) (select : SelectStmt) :
    Option (Except ErrorExecuter Executer) :=
  let scan := Executer.seqScan table schema
  let child :=
    if select.condList = [] then some scan
    else (filterExecuter schema select.condList).map (fun e => .filter e scan schema)
  match child with
  | none => none
  | some child =>
    match outputColumns schema select.selist with
    | none => some (.error { rc := .columnNotExist })
    | some idx =>
      (schema.copySchema idx).map (fun output => .ok (.projection ⟨idx.map .columnValue⟩ child output))

def bindSelect (catalog : Catalog) (select : SelectStmt) : Option (Except ErrorExecuter Executer) :=
  match select.selist, select.fromList with
  | [], _ => some (.error { rc := .syntaxError })
  | _, [] => some (.error { rc := .syntaxError })
  | _, _ :: _ :: _ => some (.error { rc := .syntaxError, msg := str "Not support syntax" })
  | selist, [table] =>
    match selist.find? (fun attr => attr.table ≠ [] ∧ table ≠ attr.table) with
    | some attr =>
      some (.error { rc := .syntaxError, msg := attr.table ++ str " can't bind to " ++ table })
    | none =>
      match catalog.getTable table with
      | none => some (.error { rc := .tableNotExisted })
      | some schema => bindQuery table schema select

def orError {α : Type} (f : α → BoundExecuter) : Except ErrorExecuter α → BoundExecuter
  | .error e => .error e
  | .ok a => f a

def bind (catalog : Catalog) : QueryStmt → Option BoundExecuter
  | .select s => (bindSelect catalog s).map (orError .query)
  | .insert s => some (orError .insert (bindInsert catalog s))
  | .delete s => some (.error (bindDelete s))
  | .drop s => some (.dropTable (bindDrop s))
  | .createTable s => (bindCreate catalog s).map (orError .createTable)

end Binder

end Tadis
