import Tadis.Engine
import Tadis.ResidentHeap
import Tadis.SelectProject

/-!
# Relations

What the engine is for: relations with typed columns, each under a name. Rows are added to a relation,
and a query selects rows and projects them. Nothing is said of pages, scanners and files, except that
`Stored` and `StmtOk` draw the line up to which rows and conditions are handled.
-/

namespace Tadis

def Schema.takes (schema : Schema) (row : List Value) : Bool :=
  row.length = schema.columns.length ∧
    (row.zip schema.columns).all (fun x => checkAttrType x.1.attrType x.2.type)

structure Relation where
  schema : Schema
  rows : List (List Value) := []
  typed : ∀ row ∈ rows, schema.takes row = true := by simp

abbrev Relations := AList (fun _ : Bytes => Relation)

inductive Reply
  | refused (rc : RC)
  | done
  | rows (header : List Bytes) (rows : List (List Value))
  deriving DecidableEq, Repr

namespace Relation

def add (rel : Relation) (row : List Value) (h : rel.schema.takes row = true) : Relation where
  schema := rel.schema
  rows := rel.rows ++ [row]
  typed := by
    intro row' hrow
    rcases List.mem_append.1 hrow with hrow | hrow
    · exact rel.typed row' hrow
    · rw [List.mem_singleton.1 hrow]
      exact h

def operand (schema : Schema) (row : List Value) : Value → Option Value
  | .relAttr a => (schema.columnIdx a.attr).bind (fun i => row[i]?)
  | v => some v

def holds (floatSub : UInt32 → UInt32 → ℤ) (schema : Schema) (row : List Value) (cnd : Condition) :
    Bool :=
  match operand schema row cnd.left, operand schema row cnd.right with
  | some a, some b =>
    match a.compare floatSub b with
    | some c => cnd.op.holds c
    | none => false
  | _, _ => false

/-- The rows for which all conditions hold, cut down to the selected columns. -/
def select (floatSub : UInt32 → UInt32 → ℤ) (rel : Relation) (s : SelectStmt) : Reply :=
  let idx := selectedIdx rel.schema s.selist
  .rows (idx.filterMap (fun i => (rel.schema.columns[i]?).map Column.name))
    ((rel.rows.filter (fun row => s.condList.all (holds floatSub rel.schema row))).map
      (fun row => idx.filterMap (fun i => row[i]?)))

end Relation

namespace Relations

variable (floatSub : UInt32 → UInt32 → ℤ)

/-- Only one table is queried, and its name is the only qualifier. -/
def query (r : Relations) (s : SelectStmt) : Reply :=
  match s.fromList with
  | [table] =>
    if s.selist = [] ∨ ∃ a ∈ s.selist, a.table ≠ [] ∧ a.table ≠ table then .refused .syntaxError
    else
      match r.lookup table with
      | none => .refused .tableNotExisted
      | some rel =>
        if ∀ a ∈ s.selist, a.attr = str "*" ∨ (rel.schema.columnIdx a.attr).isSome then
          rel.select floatSub s
        else .refused .columnNotExist
  | _ => .refused .syntaxError

/-- A statement is refused, or it does what it says. -/
def execute (r : Relations) : QueryStmt → Reply × Relations
  | .select s => (r.query floatSub s, r)
  | .insert s =>
    match r.lookup s.tableName with
    | none => (.refused .tableNotExisted, r)
    | some rel =>
      if h : rel.schema.takes s.values = true then
        (.done, r.insert s.tableName (rel.add s.values h))
      else (.refused .columnTypeMismatch, r)
  | .delete _ => (.refused .syntaxError, r)
  | .createTable s =>
    if (r.lookup s.tableName).isSome then (.refused .tableAlreadyExisted, r)
    else (.done, r.insert s.tableName { schema := ⟨s.colAttrs.filterMap Binder.bindColumn⟩ })
  | .drop s =>
    if (r.lookup s.table).isSome then (.done, r.erase s.table)
    else (.refused .tableNotExisted, r)

end Relations

def Reply.print (floatText : UInt32 → Bytes) (line : Bytes) : Reply → Output
  | .refused rc => .failed (rc2str rc) (rc2str rc ++ str " " ++ line)
  | .done => .success
  | .rows header cells => .rows header (cells.map (fun row => row.map (Value.toString floatText)))

namespace Relations

variable {ν : Type} (rt : Runtime ν)

def runLine (r : Relations) (line : Bytes) : Output × Relations :=
  if line.head? = some 0x2E then
    (if line = str ".show tables" then .tables (r.keys.insertionSort (· ≤ ·)) else .nothing, r)
  else
    match Parser.doParse rt.stof line with
    | some (.ok (stmt, _)) =>
      let x := r.execute rt.floatSub stmt
      (x.1.print rt.floatText line, x.2)
    | some (.error _) => ((Reply.refused .syntaxError).print rt.floatText line, r)
    | none => (.nothing, r)

end Relations

namespace Relation

def bytes (rel : Relation) : List Bytes :=
  rel.rows.filterMap (fun row => encodeRow row rel.schema.columns)

def pages (rel : Relation) : List (List Slot) :=
  rel.bytes.foldl (fun pages bytes => (TableHeap.insertPages pages bytes).2) []

/-- A row comes back as it was written. Its bytes fit into a page and are shorter than `free_addr_end_`
of the page that is tried first, and the pages fit into the pool. -/
def RowOk (rel : Relation) (row : List Value) : Prop :=
  (∀ x ∈ rel.schema.columns.zip row, x.1.Fits x.2 ∧ x.1.Exact x.2) ∧
    ∀ bytes ∈ encodeRow row rel.schema.columns, bytes.length ≤ 990 ∧
      bytes.length < TableHeap.lastFreeEnd rel.pages ∧
      TableHeap.Roomy poolSize (TableHeap.insertPages rel.pages bytes).2

instance (rel : Relation) (row : List Value) : Decidable (rel.RowOk row) :=
  inferInstanceAs (Decidable (_ ∧ _))

end Relation

theorem typed_iff {schema : Schema} {cnd : Condition} : Typed schema cnd ↔
    (cnd.op = .eq ∨ cnd.op = .notEq ∨ cnd.op = .greater ∨ cnd.op = .smaller) ∧
      operandType schema cnd.left = operandType schema cnd.right ∧
      (operandType schema cnd.left = some .ints ∨ operandType schema cnd.left = some .floats ∨
        operandType schema cnd.left = some .string) := by
  constructor
  · rintro ⟨hop, t, rfl | rfl | rfl, hl, hr⟩ <;> simp [hop, hl, hr]
  · rintro ⟨hop, heq, h | h | h⟩ <;> rw [h] at heq
    · exact ⟨hop, .ints, by simp, h, heq.symm⟩
    · exact ⟨hop, .floats, by simp, h, heq.symm⟩
    · exact ⟨hop, .string, by simp, h, heq.symm⟩

instance (schema : Schema) (cnd : Condition) : Decidable (Typed schema cnd) :=
  decidable_of_iff _ typed_iff.symm

namespace Relations

/-- Only columns that are declared too wide for a double, rows that do not come back as they were
written or for which there is no room, and conditions that cannot be compared are left out. -/
def StmtOk (r : Relations) : QueryStmt → Prop
  | .select s => ∀ table ∈ s.fromList, ∀ rel ∈ r.lookup table, ∀ cnd ∈ s.condList,
      Typed rel.schema cnd
  | .insert s => ∀ rel ∈ r.lookup s.tableName, rel.schema.takes s.values = true → rel.RowOk s.values
  | .createTable s => ∀ col ∈ s.colAttrs, col.type = str "CHAR" → col.size < 2 ^ 53
  | _ => True

instance (r : Relations) : (stmt : QueryStmt) → Decidable (r.StmtOk stmt)
  | .select s => inferInstanceAs (Decidable (∀ table ∈ s.fromList, ∀ rel ∈ r.lookup table,
      ∀ cnd ∈ s.condList, Typed rel.schema cnd))
  | .insert s => inferInstanceAs (Decidable (∀ rel ∈ r.lookup s.tableName,
      rel.schema.takes s.values = true → rel.RowOk s.values))
  | .createTable s => inferInstanceAs (Decidable (∀ col ∈ s.colAttrs,
      col.type = str "CHAR" → col.size < 2 ^ 53))
  | .delete _ | .drop _ => isTrue trivial

variable {ν : Type} (rt : Runtime ν)

/-- The line does not end the shell, and it is a command or parsed. -/
def LineOk (r : Relations) (line : Bytes) : Prop :=
  line ≠ str ".quit" ∧ (line.head? ≠ some 0x2E →
    match Parser.doParse rt.stof line with
    | some (.ok (stmt, _)) => r.StmtOk stmt
    | some (.error _) => True
    | none => False)

instance (r : Relations) (line : Bytes) : Decidable (r.LineOk rt line) := by
  unfold LineOk
  split <;> infer_instance

end Relations

end Tadis
