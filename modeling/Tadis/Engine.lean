import Tadis.InsertReport
import Tadis.Metadata
import Tadis.ScannerPins
import Tadis.Sessions

/-!
# The engine

The shell executes one line after the other and prints what comes of it. The catalog holds the
schemas and its storage manager the heaps. When the shell is left both are written to the working
directory, and the next shell reads them back. A call is `none` where an assertion fails, a null
pointer is followed or an exception is thrown.
-/

namespace Tadis

open Pson

/-- What is left open: the difference of two floats as an `int`, the texts of floats, and doubles. -/
structure Runtime (ν : Type) where
  floatSub : UInt32 → UInt32 → ℤ
  stof : Bytes → Option UInt32
  floatText : UInt32 → Bytes
  ofInt : ℤ → ν
  trunc : ν → ℤ
  toString : ν → Bytes
  strtod : Bytes → Option ν

/-- Files by their path below the working directory: the metadata, and the files of the heaps. That of
an open heap is in its pool. -/
structure Directory where
  texts : AList (fun _ : Bytes => Bytes) := ∅
  dbs : AList (fun _ : Bytes => File) := ∅

def metaName (table : Bytes) : Bytes := table ++ str ".json"

def dbName (table : Bytes) : Bytes := table ++ str ".db"

/-- The default of `TableHeap`. -/
abbrev poolSize : ℕ := 16

/-- The constructor of the scanner does not look at the result of `init`. -/
def RecordScanner.make {n : ℕ} (s : BufferPool n) : Option (RecordScanner n × BufferPool n) :=
  (RecordScanner.init s).map (fun x => (x.1.getD {}, x.2))

/-- The catalog with the heaps of its storage manager. -/
structure Engine where
  catalog : Catalog := ⟨∅⟩
  heaps : AList (fun _ : Bytes => BufferPool poolSize) := ∅
  directory : Directory := {}

namespace Engine

def openHeap (e : Engine) (name : Bytes) : Option (BufferPool poolSize) :=
  BufferPool.openFile poolSize ((e.directory.dbs.lookup (dbName name)).getD File.absent)

def setHeap (e : Engine) (name : Bytes) (s : BufferPool poolSize) : Engine :=
  { e with heaps := e.heaps.insert name s }

/-- The storage manager asserts that it does not have the table yet. A heap file that is there already
is opened. -/
def createTable (e : Engine) (name : Bytes) (cols : List Column) : Option Engine :=
  if (e.heaps.lookup name).isSome then none
  else (e.openHeap name).map (fun s =>
    { e with catalog := e.catalog.createTable name cols, heaps := e.heaps.insert name s })

/-- The heap closes itself, then its file is removed. -/
def dropTable (e : Engine) (name : Bytes) : Option Engine :=
  let dropped : Engine :=
    { catalog := e.catalog.dropTable name, heaps := e.heaps.erase name,
      directory := ⟨e.directory.texts.erase (metaName name), e.directory.dbs.erase (dbName name)⟩ }
  if e.catalog.hasTable name then
    match e.heaps.lookup name with
    | none => some dropped
    | some s => (TableHeap.close s).map (fun _ => dropped)
  else none

/-- The inner option is `none` for a null pointer. -/
def scanner (e : Engine) (table : Bytes) : Option (Option (RecordScanner poolSize) × Engine) :=
  match e.heaps.lookup table with
  | none => some (none, e)
  | some s => (RecordScanner.make s).map (fun x => (some x.1, e.setHeap table x.2))

/-- `std::map` keeps its keys in order. -/
def tablesName (e : Engine) : List Bytes := e.catalog.tables.keys.insertionSort (· ≤ ·)

end Engine

/-- A statement that is executed: its executer pulls from a scan of a table. -/
structure Running where
  engine : Engine
  table : Bytes := []
  scanner : Option (RecordScanner poolSize) := none

namespace Running

/-- `next` of the sequential scan. -/
def scan (r : Running) : Option (Except RC Tuple × Running) :=
  match r.scanner, r.engine.heaps.lookup r.table with
  | some sc, some s =>
    (RecordScanner.seqScanNext (sc, s)).map (fun x =>
      (x.1.map (fun row => { data := row.2, rid := row.1 }),
        { r with engine := r.engine.setHeap r.table x.2.2, scanner := some x.2.1 }))
  | _, _ => none

/-- No heap has more slots. -/
def scanFuel : ℕ := bfpMaxPageNum * pageSize

def next (floatSub : UInt32 → UInt32 → ℤ) (r : Running) :
    BoundExecuter → Option (Except RC Tuple × Running)
  | .error x => if rcSuccess x.rc then none else some (.error x.rc, r)
  | .query x => x.next floatSub scan scanFuel r
  | .insert x =>
    (r.engine.heaps.lookup x.table).bind (fun s =>
      (TableHeap.insertNext s x).map (fun y =>
        (.error y.1, { r with engine := r.engine.setHeap x.table y.2 })))
  | .createTable x =>
    (r.engine.createTable x.name x.cols).map (fun e => (.error .outOfRange, { r with engine := e }))
  | .dropTable x =>
    if r.engine.catalog.hasTable x.table then
      (r.engine.dropTable x.table).map (fun e => (.error .outOfRange, { r with engine := e }))
    else some (.error .tableNotExisted, r)

/-- The executer is deleted, and with it the scanner that it owns. -/
def finish (r : Running) : BoundExecuter → Engine
  | .query _ =>
    match r.scanner, r.engine.heaps.lookup r.table with
    | some sc, some s => r.engine.setHeap r.table (RecordScanner.destroy (sc, s))
    | _, _ => r.engine
  | _ => r.engine

end Running

/-- The table for which `bind_select` makes a scanner. It does so before it looks at the columns of the
select list, and a scanner that is not handed to an executer is never deleted. -/
def scannedTable (catalog : Catalog) : QueryStmt → Option Bytes
  | .select ⟨a :: selist, [table], _⟩ =>
    if (a :: selist).any (fun attr => attr.table ≠ [] ∧ table ≠ attr.table) then none
    else if catalog.hasTable table then some table
    else none
  | _ => none

namespace Engine

def start (e : Engine) (stmt : QueryStmt) : Option (BoundExecuter × Running) :=
  (Binder.bind e.catalog stmt).bind (fun b =>
    match scannedTable e.catalog stmt with
    | none => some (b, { engine := e })
    | some table =>
      (e.scanner table).map (fun x => (b, { engine := x.2, table := table, scanner := x.1 })))

end Engine

/-- `INTERNAL_ERROR` is in the table twice, and the first entry counts; `SUCCESS` is not in it. -/
def rc2str : RC → Bytes
  | .internalError => str "Internal Error"
  | .syntaxError => str "Syntax error"
  | .keyNotExist => str "Key is not existed"
  | .columnNotExist => str "Column is not existed"
  | .jsonDeserializationError => str "Json deserialization error"
  | .outOfRange => str "Out of range"
  | .pageIsDeleted => str "Page has been deleted"
  | .recordIsDeleted => str "Record has been deleted"
  | .dbOpenTableError => str "Db open table error"
  | .uninit => str "Not init"
  | .tableAlreadyExisted => str "Table is already existed"
  | .tableNotExisted => str "Table is not existed"
  | .fetchPageError => str "Fetch page error"
  | .recordTooLarge => str "Record is too large"
  | .ambiguousColumnName => str "Ambiguous column name"
  | .columnTypeMismatch => str "Column type mismatch"
  | .success => []

def Value.toString (floatText : UInt32 → Bytes) : Value → Bytes
  | .relAttr a => a.table ++ str "." ++ a.attr
  | .string s => s
  | .ints n => decimal n.toInt
  | .floats f => floatText f
  | .nullA => str "null"
  | .undefined => []

/-- `output_schema_` is there for a query only. -/
structure QueryResult where
  rc : RC
  msg : Bytes := []
  tuples : List Tuple := []
  outputSchema : Option Schema := none

/-- The message that the binder leaves is overwritten. -/
def QueryResult.refused (rc : RC) (sql : Bytes) : QueryResult :=
  { rc := rc, msg := rc2str rc ++ str " " ++ sql }

def BoundExecuter.outputSchema : BoundExecuter → Option Schema
  | .query x => some x.schema
  | _ => none

/-- What is printed for a line: `FAIL` with a code and a message, `Success` alone or with the column
names and the rows, or the names of the tables. -/
inductive Output
  | failed (rc message : Bytes)
  | success
  | rows (header : List Bytes) (cells : List (List Bytes))
  | tables (names : List Bytes)
  | nothing
  deriving DecidableEq, Repr

namespace Engine

variable {ν : Type} (rt : Runtime ν)

def printRows (floatText : UInt32 → Bytes) (res : QueryResult) : Option Output :=
  match res.outputSchema with
  | none => some .success
  | some schema =>
    (res.tuples.mapM (fun t : Tuple =>
      (List.range schema.columns.length).mapM (fun j =>
        (t.valueAt schema j).map (Value.toString floatText)))).map
      (.rows (schema.columns.map Column.name))

/-- What `main` prints. -/
def report (floatText : UInt32 → Bytes) (res : QueryResult) : Option Output :=
  if res.rc ≠ .success then some (.failed (rc2str res.rc) res.msg) else printRows floatText res

/-- `execute_sql` from the call of `bind` on. -/
def executeStmt (floatSub : UInt32 → UInt32 → ℤ) (e : Engine) (sql : Bytes) (stmt : QueryStmt) :
    Option (QueryResult × Engine) :=
  (e.start stmt).bind (fun (b, r) =>
    (Pull.collect (fun r => Running.next floatSub r b) Running.scanFuel r).map
      (fun (tuples, rc, r) =>
        (if rc ≠ .outOfRange then .refused rc sql
          else { rc := .success, tuples := tuples, outputSchema := b.outputSchema }, r.finish b)))

def executeSql (e : Engine) (sql : Bytes) : Option (QueryResult × Engine) :=
  match Parser.doParse rt.stof sql with
  | none => none
  | some (.error rc) => some (.refused rc sql, e)
  | some (.ok (stmt, _)) => e.executeStmt rt.floatSub sql stmt

/-- A line that starts with a point is a command, and an unknown command does nothing. -/
def runLine (e : Engine) (line : Bytes) : Option (Output × Engine) :=
  if line.head? = some 0x2E then
    some (if line = str ".show tables" then .tables e.tablesName else .nothing, e)
  else
    (e.executeSql rt line).bind (fun (res, e) =>
      (report rt.floatText res).map (fun out => (out, e)))

/-- The loop of `main`, which `.quit` leaves. The end of the input does not. -/
def mainLoop (e : Engine) : List Bytes → Option (List Output × Engine)
  | [] => none
  | line :: lines =>
    if line = str ".quit" then some ([], e)
    else (e.runLine rt line).bind (fun (out, e) =>
      (mainLoop e lines).map (fun (outs, e) => (out :: outs, e)))

end Engine

/-- Store what `f` makes of every entry in the file that `file` names. -/
def storeAll {β γ : Type*} (file : Bytes → Bytes) (f : β → Option γ) :
    List (Sigma fun _ : Bytes => β) → AList (fun _ : Bytes => γ) → Option (AList (fun _ : Bytes => γ))
  | [], files => some files
  | t :: ts, files => (f t.2).bind (fun c => storeAll file f ts (files.insert (file t.1) c))

namespace Catalog

/-- What `.` matches in a regular expression. -/
def anyChar (c : UInt8) : Bool := c ≠ 0x0A ∧ c ≠ 0x0D

/-- `regex_match` with `./\w+.json`: a word stands between the first two and the last five
characters. -/
def matchesJson (file : Bytes) : Bool :=
  let path := file.drop 2
  let word := path.take (path.length - 5)
  match file.take 2, path.drop (path.length - 5) with
  | [c, d], e :: ext =>
    anyChar c && d = 0x2F && word ≠ [] && word.all Lexer.isIdPart && anyChar e && ext = str "json"
  | _, _ => false

/-- The name of the table, `none` inside for `false`. The loop that takes the name runs over the end of
a path that has no point behind the first two characters. -/
def isJson (file : Bytes) : Option (Option Bytes) :=
  if matchesJson file then
    let name := (file.drop 2).takeWhile (· ≠ 0x2E)
    if name.length < (file.drop 2).length then some (some name) else none
  else some none

end Catalog

namespace Engine

variable {ν : Type} (rt : Runtime ν)

/-- The metadata, then the heaps. -/
def close (e : Engine) : Option Directory :=
  (storeAll metaName (fun s : Schema => JsonFileRWer.write rt.toString (s.toJson rt.ofInt))
      e.catalog.tables.entries e.directory.texts).bind (fun texts =>
    (storeAll dbName (fun s => (TableHeap.close s).map (fun t => t.disk.file))
      e.heaps.entries e.directory.dbs).map (fun dbs => ⟨texts, dbs⟩))

/-- One file of `init`. `emplace` keeps what is there. -/
def loadFile (ch : Bytes → UInt8) (e : Engine) (file : Bytes) : Option Engine :=
  match Catalog.isJson (str "./" ++ file) with
  | none => none
  | some none => some e
  | some (some name) =>
    (e.openHeap name).bind (fun s =>
      (e.directory.texts.lookup file).bind (fun text =>
        (JsonFileRWer.read rt.strtod (ch file) text .null).bind (fun (ok, v) =>
          if ok then
            (Schema.fromJson rt.trunc ⟨[]⟩ v).map (fun schema =>
              { e with
                catalog := e.catalog.createTable name schema.columns
                heaps := if (e.heaps.lookup name).isSome then e.heaps else e.heaps.insert name s })
          else none)))

/-- The files of the directory in some order. The files of the heaps are passed over. -/
def init (ch : Bytes → UInt8) (order : List Bytes → List Bytes) (d : Directory) : Option Engine :=
  (order d.texts.keys).foldlM (loadFile rt ch) { directory := d }

end Engine

end Tadis
