import Tadis.ShellSessions
import Tadis.TableScan

/-!
# What a statement can change

Nothing is assumed of the state here but that the catalog and the storage manager have the same
tables. `Change` lists what a statement that comes back may have done; what holds of every state of
every run of lines is read off from it.
-/

namespace Tadis

open Pson

namespace RecordScanner

variable {n : ℕ} {sc : RecordScanner n} {s : BufferPool n} {record : Record} {rid : RID}

theorem pageNext_rc {rp : RecordPage} {p : Page} {nextRid : RID} {x : RC × Record × RID × RID}
    (h : pageNext rp p record rid nextRid = some x) : x.1 = .outOfRange ∨ x.1 = .success := by
  fun_induction pageNext rp p record rid nextRid with
  | case1 =>
    cases h
    exact .inl rfl
  | case2 =>
    cases h
    exact .inr rfl
  | case3 _ _ _ _ _ _ _ _ _ ih => exact ih h
  | case4 => cases h

theorem nextInPage_rc {x : RC × Record × RID × RecordScanner n × BufferPool n}
    (h : sc.nextInPage s record rid = some x) : x.1 = .outOfRange ∨ x.1 = .success := by
  unfold nextInPage at h
  split at h
  · cases h
  · obtain ⟨y, hy, rfl⟩ := Option.map_eq_some_iff.1 h
    exact pageNext_rc hy

theorem next_rc {x : RC × Record × RID × RecordScanner n × BufferPool n}
    (h : sc.next s record rid = some x) :
    x.1 = .outOfRange ∨ x.1 = .success ∨ x.1 = .internalError := by
  unfold next at h
  split at h
  · cases h
  · cases h
    exact .inl rfl
  · split at h
    · exact (nextInPage_rc h).imp id .inl
    · split at h
      · cases h
        exact .inr (.inr rfl)
      · split at h
        · cases h
        · exact (nextInPage_rc h).imp id .inl

theorem seqScanNext_error {c c' : RecordScanner n × BufferPool n} {rc : RC}
    (h : seqScanNext c = some (.error rc, c')) : rc = .outOfRange ∨ rc = .internalError := by
  obtain ⟨x, hx, heq⟩ := Option.map_eq_some_iff.1 h
  rw [Prod.mk.injEq] at heq
  rcases next_rc hx with hrc | hrc | hrc <;> rw [hrc] at heq
  · cases heq.1
    exact .inl rfl
  · cases heq.1
  · cases heq.1
    exact .inr rfl

theorem scanned_make {c : RecordScanner n × BufferPool n} (h : make s = some c) : Scanned s c.2 := by
  obtain ⟨x, hx, rfl⟩ := Option.map_eq_some_iff.1 h
  exact scanned_init hx

end RecordScanner

section

variable {σ : Type} {I : σ → Prop} {E : RC → Prop} {scan : σ → Option (Except RC Tuple × σ)}

theorem Executer.next_filter (floatSub : UInt32 → UInt32 → ℤ) (scan : σ → Option (Except RC Tuple × σ))
    (fuel : ℕ) (e : FilterExpression) (child : Executer) (schema : Schema) :
    (Executer.filter e child schema).next floatSub scan fuel =
      Pull.filter (e.accepts floatSub child.schema) (child.next floatSub scan fuel) fuel :=
  funext (fun s => filterNext_eq floatSub e fuel s)

theorem Executer.next_projection (floatSub : UInt32 → UInt32 → ℤ)
    (scan : σ → Option (Except RC Tuple × σ)) (fuel : ℕ) (e : ProjectionExpression) (child : Executer)
    (schema : Schema) :
    (Executer.projection e child schema).next floatSub scan fuel =
      Pull.map (e.project floatSub child.schema schema) (child.next floatSub scan fuel) :=
  funext (fun s => projectionNext_eq floatSub e child.schema schema s)

theorem Executer.keeps_next (h : Pull.Keeps scan I E) (floatSub : UInt32 → UInt32 → ℤ) (fuel : ℕ)
    (x : Executer) : Pull.Keeps (x.next floatSub scan fuel) I E := by
  induction x with
  | seqScan _ _ => exact h
  | filter e child schema ih =>
    rw [Executer.next_filter]
    exact ih.filter _ fuel
  | projection e child schema ih =>
    rw [Executer.next_projection]
    exact ih.map _

end

namespace Engine

variable {floatSub : UInt32 → UInt32 → ℤ} {e e' : Engine} {stmt : QueryStmt} {b : BoundExecuter}
  {run run' : Running} {sql table : Bytes} {res : QueryResult} {rc : RC}

/-- The catalog and the storage manager have the same tables. -/
def SameTables (e : Engine) : Prop :=
  ∀ name, (e.heaps.lookup name).isSome = e.catalog.hasTable name

/-- What a statement may have done when it comes back with a code. A query leaves a pool that its scan
has gone through, whether or not the scanner has been destroyed. -/
inductive Change (e : Engine) : QueryStmt → RC → Engine → Prop
  | refused (stmt : QueryStmt) {rc : RC} (hrc : rc = .syntaxError ∨ rc = .tableNotExisted ∨
      rc = .tableAlreadyExisted ∨ rc = .columnTypeMismatch) : Change e stmt rc e
  | scanned {s : SelectStmt} {table : Bytes} {rc : RC}
      (hscan : scannedTable e.catalog (.select s) = some table)
      (hrc : rc = .success ∨ rc = .columnNotExist ∨ rc = .internalError)
      {s₀ u : BufferPool poolSize} (hs₀ : e.heaps.lookup table = some s₀)
      (hu : RecordScanner.Scanned s₀ u) : Change e (.select s) rc (e.setHeap table u)
  | inserted {s : InsertStmt} (h : e.catalog.hasTable s.tableName = true)
      (u : BufferPool poolSize) : Change e (.insert s) .success (e.setHeap s.tableName u)
  | created {s : CreateTableStmt} {cols : List Column} {e' : Engine}
      (h : e.createTable s.tableName cols = some e') : Change e (.createTable s) .success e'
  | dropped {s : DropStmt} {e' : Engine} (h : e.dropTable s.table = some e') :
      Change e (.drop s) .success e'

theorem bindSelect_scanned (catalog : Catalog) (s : SelectStmt) :
    (scannedTable catalog (.select s) = none ∧ ∃ x, Binder.bindSelect catalog s = some (.error x) ∧
        (x.rc = .syntaxError ∨ x.rc = .tableNotExisted)) ∨
      ∃ table schema, scannedTable catalog (.select s) = some table ∧
        catalog.getTable table = some schema ∧
        Binder.bindSelect catalog s = Binder.bindQuery table schema s := by
  obtain ⟨selist, fromList, conds⟩ := s
  rcases selist with _ | ⟨a, selist⟩
  · exact .inl ⟨rfl, _, rfl, .inl rfl⟩
  rcases fromList with _ | ⟨table, _ | ⟨table', tables⟩⟩
  · exact .inl ⟨rfl, _, rfl, .inl rfl⟩
  · rw [scannedTable_eq, Binder.bindSelect]
    dsimp only
    cases hfind : (a :: selist).find? (fun attr => attr.table ≠ [] ∧ table ≠ attr.table) with
    | some attr =>
      have hbad := List.find?_some hfind
      refine .inl ⟨if_pos (.inr ?_), _, rfl, .inl rfl⟩
      exact List.any_eq_true.2 ⟨attr, List.mem_of_find?_eq_some hfind, hbad⟩
    | none =>
      have hany : ¬ (a :: selist = [] ∨
          (a :: selist).any (fun attr => attr.table ≠ [] ∧ table ≠ attr.table) = true) := by
        rintro (h | h)
        · cases h
        · obtain ⟨attr, hmem, hbad⟩ := List.any_eq_true.1 h
          exact List.find?_eq_none.1 hfind attr hmem hbad
      rw [if_neg hany, Catalog.hasTable]
      cases htable : catalog.getTable table with
      | none => exact .inl ⟨rfl, _, rfl, .inr rfl⟩
      | some schema => exact .inr ⟨table, schema, rfl, htable, rfl⟩
  · exact .inl ⟨rfl, _, rfl, .inl rfl⟩

theorem bindQuery_error {schema : Schema} {s : SelectStmt} {x : ErrorExecuter}
    (h : Binder.bindQuery table schema s = some (.error x)) : x.rc = .columnNotExist := by
  unfold Binder.bindQuery at h
  dsimp only at h
  generalize (if s.condList = [] then some (Executer.seqScan table schema)
    else (Binder.filterExecuter schema s.condList).map
      (fun e => Executer.filter e (.seqScan table schema) schema)) = child at h
  cases child with
  | none => cases h
  | some child =>
    dsimp only at h
    cases hcols : Binder.outputColumns schema s.selist with
    | none =>
      rw [hcols] at h
      cases h
      rfl
    | some idx =>
      rw [hcols] at h
      obtain ⟨_, _, h⟩ := Option.map_eq_some_iff.1 h
      cases h

def outcome (sql : Bytes) (b : BoundExecuter) (tuples : List Tuple) (rc : RC) : QueryResult :=
  if rc ≠ .outOfRange then .refused rc sql
  else { rc := .success, tuples := tuples, outputSchema := b.outputSchema }

theorem executeStmt_some (h : e.executeStmt floatSub sql stmt = some (res, e')) :
    ∃ b run tuples rc run', e.start stmt = some (b, run) ∧
      Pull.collect (fun r => Running.next floatSub r b) Running.scanFuel run =
        some (tuples, rc, run') ∧ res = outcome sql b tuples rc ∧ e' = run'.finish b := by
  obtain ⟨⟨b, run⟩, hstart, h⟩ := Option.bind_eq_some_iff.1 h
  obtain ⟨⟨tuples, rc, run'⟩, hc, h⟩ := Option.map_eq_some_iff.1 h
  cases h
  exact ⟨b, run, tuples, rc, run', hstart, hc, rfl, rfl⟩

theorem executeStmt_stop (hstart : e.start stmt = some (b, run))
    (hnext : run.next floatSub b = some (.error rc, run'))
    (h : e.executeStmt floatSub sql stmt = some (res, e')) :
    res = outcome sql b [] rc ∧ e' = run'.finish b := by
  rw [executeStmt_eq sql hstart (.stop hnext) (by decide)] at h
  cases h
  exact ⟨rfl, rfl⟩

theorem executeStmt_none (hstart : e.start stmt = some (b, run))
    (hnext : run.next floatSub b = none) : e.executeStmt floatSub sql stmt = none := by
  rw [executeStmt, hstart, Option.bind_some]
  dsimp only
  rw [show Running.scanFuel = Running.scanFuel - 1 + 1 by decide, Pull.collect, hnext]
  rfl

theorem keeps_scan (e : Engine) (table : Bytes) (s₀ : BufferPool poolSize) :
    Pull.Keeps Running.scan
      (fun r => ∃ c, r = scanning e table c ∧ RecordScanner.Scanned s₀ c.2)
      (fun rc => rc = .outOfRange ∨ rc = .internalError) := by
  rintro r x t ⟨c, rfl, hc⟩ h
  rw [scan_scanning] at h
  obtain ⟨⟨y, c'⟩, hy, heq⟩ := Option.map_eq_some_iff.1 h
  cases heq
  refine ⟨⟨c', rfl, hc.trans (RecordScanner.scanned_seqScanNext hy)⟩, fun rc hrc => ?_⟩
  rcases y with rc' | row
  · cases hrc
    exact RecordScanner.seqScanNext_error hy
  · cases hrc

/-- A query that is bound to its table starts with a scanner over the table's heap. -/
theorem start_scan {s : SelectStmt} {schema : Schema} {u : BufferPool poolSize}
    {y : Except ErrorExecuter Executer} (hscan : scannedTable e.catalog (.select s) = some table)
    (hbind : Binder.bindSelect e.catalog s = Binder.bindQuery table schema s)
    (hq : Binder.bindQuery table schema s = some y) (hu : e.heaps.lookup table = some u) :
    e.start (.select s) =
      (RecordScanner.make u).map (fun c => (Binder.orError .query y, scanning e table c)) := by
  rw [start, Binder.bind, hbind, hq, Option.map_some, Option.bind_some, hscan]
  dsimp only
  rw [Engine.scanner, hu]
  dsimp only
  rw [Option.map_map]
  rfl

theorem change_query {s : SelectStmt} {x : Executer} {s₀ : BufferPool poolSize}
    {c : RecordScanner poolSize × BufferPool poolSize} (hs₀ : e.heaps.lookup table = some s₀)
    (hmake : RecordScanner.make s₀ = some c)
    (hscan : scannedTable e.catalog (.select s) = some table)
    (hstart : e.start (.select s) = some (.query x, scanning e table c))
    (h : e.executeStmt floatSub sql (.select s) = some (res, e')) :
    Change e (.select s) res.rc e' := by
  obtain ⟨b, run, tuples, rc, run', hstart', hc, rfl, rfl⟩ := executeStmt_some h
  rw [hstart] at hstart'
  cases hstart'
  obtain ⟨⟨c', rfl, hc'⟩, hrc⟩ := (Executer.keeps_next (keeps_scan e table s₀) floatSub
    Running.scanFuel x).collect ⟨c, rfl, RecordScanner.scanned_make hmake⟩ hc
  have hfinish : (scanning e table c').finish (.query x) =
      e.setHeap table (RecordScanner.destroy c') := by
    unfold scanning Running.finish
    dsimp only
    rw [lookup_setHeap]
    dsimp only
    rw [setHeap_setHeap]
  rw [hfinish]
  refine .scanned hscan ?_ hs₀ (hc'.tail (.unpin _ _))
  rcases hrc with rfl | rfl
  · exact .inl rfl
  · exact .inr (.inr rfl)

theorem change_select (hI : e.SameTables) {s : SelectStmt}
    (h : e.executeStmt floatSub sql (.select s) = some (res, e')) :
    Change e (.select s) res.rc e' := by
  rcases bindSelect_scanned e.catalog s with
    ⟨hscan, x, hx, hrc⟩ | ⟨table, schema, hscan, htable, hbind⟩
  · have hb : Binder.bind e.catalog (.select s) = some (.error x) := by
      rw [Binder.bind, hx]
      rfl
    have hnext : Running.next floatSub { engine := e } (.error x) =
        some (.error x.rc, { engine := e }) := if_neg (by rcases hrc with h | h <;> simp [rcSuccess, h])
    obtain ⟨rfl, rfl⟩ := executeStmt_stop (start_eq hscan hb) hnext h
    rcases hrc with hrc | hrc <;> rw [hrc]
    · exact .refused _ (.inl rfl)
    · exact .refused _ (.inr (.inl rfl))
  · have hheap := hI table
    rw [Catalog.hasTable, htable] at hheap
    obtain ⟨u, hu⟩ := Option.isSome_iff_exists.1 hheap
    cases hq : Binder.bindQuery table schema s with
    | none =>
      rw [executeStmt, start, Binder.bind, hbind, hq] at h
      cases h
    | some y =>
      have hstart := start_scan hscan hbind hq hu
      cases hmake : RecordScanner.make u with
      | none =>
        rw [executeStmt, hstart, hmake] at h
        cases h
      | some c =>
        rw [hmake, Option.map_some] at hstart
        rcases y with x | x
        · have hrc := bindQuery_error hq
          have hnext : (scanning e table c).next floatSub (.error x) =
              some (.error x.rc, scanning e table c) := if_neg (by simp [rcSuccess, hrc])
          obtain ⟨rfl, rfl⟩ := executeStmt_stop hstart hnext h
          rw [hrc]
          exact .scanned hscan (.inr (.inl rfl)) hu (RecordScanner.scanned_make hmake)
        · exact change_query hu hmake hscan hstart h

theorem change_insert {s : InsertStmt}
    (h : e.executeStmt floatSub sql (.insert s) = some (res, e')) :
    Change e (.insert s) res.rc e' := by
  have hstart := start_insert e s
  cases hb : Binder.bindInsert e.catalog s with
  | error x =>
    rw [hb] at hstart
    have hrc := Binder.bindInsert_error hb
    have hnext : Running.next floatSub { engine := e } (.error x) =
        some (.error x.rc, { engine := e }) := if_neg (by rcases hrc with h | h <;> simp [rcSuccess, h])
    obtain ⟨rfl, rfl⟩ := executeStmt_stop hstart hnext h
    rcases hrc with hrc | hrc <;> rw [hrc]
    · exact .refused _ (.inr (.inl rfl))
    · exact .refused _ (.inr (.inr (.inr rfl)))
  | ok x =>
    rw [hb] at hstart
    obtain ⟨schema, hschema, _, _, hx⟩ := Binder.bindInsert_ok hb
    have htable : e.catalog.hasTable s.tableName = true := by
      rw [Catalog.hasTable, hschema]
      rfl
    have hname : x.table = s.tableName := by rw [hx]
    cases hnext : Running.next floatSub { engine := e } (.insert x) with
    | none =>
      rw [executeStmt_none hstart hnext] at h
      cases h
    | some y =>
      obtain ⟨u, hu, hy⟩ := Option.bind_eq_some_iff.1 hnext
      obtain ⟨⟨rc, u'⟩, hins, rfl⟩ := Option.map_eq_some_iff.1 hy
      obtain ⟨t, ht, hins⟩ := Option.bind_eq_some_iff.1 hins
      obtain ⟨z, hz, heq⟩ := Option.map_eq_some_iff.1 hins
      cases heq
      obtain ⟨rfl, rfl⟩ := executeStmt_stop hstart hnext h
      rw [hname]
      exact .inserted htable z.2

theorem change_create {s : CreateTableStmt}
    (h : e.executeStmt floatSub sql (.createTable s) = some (res, e')) :
    Change e (.createTable s) res.rc e' := by
  cases hb : Binder.bindCreate e.catalog s with
  | none =>
    rw [executeStmt, start, Binder.bind, hb] at h
    cases h
  | some y =>
    have hstart : e.start (.createTable s) =
        some (Binder.orError .createTable y, { engine := e }) := start_eq rfl (by
      rw [Binder.bind, hb]
      rfl)
    unfold Binder.bindCreate at hb
    split_ifs at hb
    · cases hb
      obtain ⟨rfl, rfl⟩ := executeStmt_stop hstart rfl h
      exact .refused _ (.inr (.inr (.inl rfl)))
    · cases hb
      obtain ⟨rfl, rfl⟩ := executeStmt_stop hstart rfl h
      exact .refused _ (.inl rfl)
    · obtain ⟨cols, hcols, rfl⟩ := Option.map_eq_some_iff.1 hb
      cases hc : e.createTable s.tableName cols with
      | none =>
        rw [executeStmt_none hstart (by rw [Binder.orError, Running.next, hc]; rfl)] at h
        cases h
      | some e₁ =>
        have hnext : Running.next floatSub { engine := e } (.createTable ⟨s.tableName, cols⟩) =
            some (.error .outOfRange, { engine := e₁ }) := by
          rw [Running.next, hc]
          rfl
        obtain ⟨rfl, rfl⟩ := executeStmt_stop hstart hnext h
        exact .created hc

theorem change_drop {s : DropStmt} (h : e.executeStmt floatSub sql (.drop s) = some (res, e')) :
    Change e (.drop s) res.rc e' := by
  have hstart := start_drop e s
  by_cases htable : e.catalog.hasTable s.table = true
  · cases hd : e.dropTable s.table with
    | none =>
      rw [executeStmt_none hstart (by rw [Running.next, if_pos htable, hd]; rfl)] at h
      cases h
    | some e₁ =>
      have hnext : Running.next floatSub { engine := e } (.dropTable ⟨s.table⟩) =
          some (.error .outOfRange, { engine := e₁ }) := by
        rw [Running.next, if_pos htable, hd]
        rfl
      obtain ⟨rfl, rfl⟩ := executeStmt_stop hstart hnext h
      exact .dropped hd
  · obtain ⟨rfl, rfl⟩ := executeStmt_stop hstart (if_neg htable) h
    exact .refused _ (.inr (.inl rfl))

theorem executeStmt_change (hI : e.SameTables)
    (h : e.executeStmt floatSub sql stmt = some (res, e')) : Change e stmt res.rc e' := by
  cases stmt with
  | select s => exact change_select hI h
  | delete s =>
    obtain ⟨rfl, rfl⟩ := executeStmt_stop (start_eq rfl rfl) rfl h
    exact .refused _ (.inl rfl)
  | insert s => exact change_insert h
  | createTable s => exact change_create h
  | drop s => exact change_drop h

theorem executeStmt_refused (h : e.executeStmt floatSub sql stmt = some (res, e'))
    (hrc : res.rc ≠ .success) : res = .refused res.rc sql := by
  obtain ⟨b, run, tuples, rc, run', _, _, rfl, _⟩ := executeStmt_some h
  unfold outcome at hrc ⊢
  split_ifs at hrc ⊢
  · rfl
  · exact absurd rfl hrc

theorem hasTable_eq (catalog : Catalog) (name : Bytes) :
    catalog.hasTable name = (catalog.tables.lookup name).isSome := rfl

theorem createTable_some {name : Bytes} {cols : List Column} (h : e.createTable name cols = some e') :
    e.heaps.lookup name = none ∧ ∃ u, e' =
      { e with catalog := e.catalog.createTable name cols, heaps := e.heaps.insert name u } := by
  unfold Engine.createTable at h
  split_ifs at h with hheap
  obtain ⟨u, _, rfl⟩ := Option.map_eq_some_iff.1 h
  exact ⟨Option.not_isSome_iff_eq_none.1 hheap, u, rfl⟩

theorem dropTable_some {name : Bytes} (h : e.dropTable name = some e') :
    e.catalog.hasTable name = true ∧ e' =
      { catalog := e.catalog.dropTable name, heaps := e.heaps.erase name,
        directory :=
          ⟨e.directory.texts.erase (metaName name), e.directory.dbs.erase (dbName name)⟩ } := by
  unfold Engine.dropTable at h
  dsimp only at h
  split_ifs at h with htable
  split at h
  · cases h
    exact ⟨htable, rfl⟩
  · obtain ⟨_, _, rfl⟩ := Option.map_eq_some_iff.1 h
    exact ⟨htable, rfl⟩

theorem SameTables.setHeap (hI : e.SameTables) (htable : e.catalog.hasTable table = true)
    (u : BufferPool poolSize) : (e.setHeap table u).SameTables := by
  intro name
  unfold Engine.setHeap
  dsimp only
  rw [lookup_insert_eq]
  split_ifs with hname
  · rw [hname, htable]
    rfl
  · exact hI name

theorem SameTables.createTable (hI : e.SameTables) {name : Bytes} {cols : List Column}
    (h : e.createTable name cols = some e') : e'.SameTables := by
  obtain ⟨hheap, u, rfl⟩ := createTable_some h
  have htable : e.catalog.hasTable name = false := by rw [← hI, hheap]; rfl
  intro m
  rw [Catalog.createTable, htable, hasTable_eq]
  dsimp only
  rw [if_neg (by simp), lookup_insert_eq, lookup_insert_eq]
  split_ifs
  · rfl
  · exact hI m

theorem SameTables.dropTable (hI : e.SameTables) {name : Bytes} (h : e.dropTable name = some e') :
    e'.SameTables := by
  obtain ⟨_, rfl⟩ := dropTable_some h
  intro m
  rw [Catalog.dropTable, hasTable_eq]
  dsimp only
  rw [lookup_erase_eq, lookup_erase_eq]
  split_ifs
  · rfl
  · exact hI m

theorem hasTable_of_scanned (h : scannedTable e.catalog stmt = some table) :
    e.catalog.hasTable table = true := by
  unfold scannedTable at h
  split at h
  · split_ifs at h with _ htable
    cases h
    exact htable
  · cases h

theorem Change.sameTables (h : Change e stmt rc e') (hI : e.SameTables) : e'.SameTables := by
  cases h with
  | refused => exact hI
  | scanned hscan => exact hI.setHeap (hasTable_of_scanned hscan) _
  | inserted htable u => exact hI.setHeap htable u
  | created h => exact hI.createTable h
  | dropped h => exact hI.dropTable h

def stmtTables : QueryStmt → List Bytes
  | .select s => s.fromList
  | .delete s => s.tables
  | .insert s => [s.tableName]
  | .createTable s => [s.tableName]
  | .drop s => [s.table]

theorem mem_of_scannedTable {catalog : Catalog} (h : scannedTable catalog stmt = some table) :
    table ∈ stmtTables stmt := by
  unfold scannedTable at h
  split at h
  · split_ifs at h
    cases h
    exact List.mem_singleton_self _
  · cases h

/-- The table, its rows and its files are those of the other engine. -/
structure AgreeOn (table : Bytes) (e e' : Engine) : Prop where
  schema : e'.catalog.getTable table = e.catalog.getTable table
  heap : e'.heaps.lookup table = e.heaps.lookup table
  text : e'.directory.texts.lookup (metaName table) = e.directory.texts.lookup (metaName table)
  db : e'.directory.dbs.lookup (dbName table) = e.directory.dbs.lookup (dbName table)

theorem agreeOn_setHeap {name : Bytes} (hne : table ≠ name) (u : BufferPool poolSize) :
    AgreeOn table e (e.setHeap name u) := ⟨rfl, AList.lookup_insert_ne hne, rfl, rfl⟩

theorem Change.agreeOn (h : Change e stmt rc e') (hne : table ∉ stmtTables stmt) :
    AgreeOn table e e' := by
  cases h with
  | refused => exact ⟨rfl, rfl, rfl, rfl⟩
  | @scanned s name _ hscan =>
    refine agreeOn_setHeap (fun heq => hne ?_) _
    rw [heq]
    exact mem_of_scannedTable hscan
  | inserted _ u => exact agreeOn_setHeap (List.mem_singleton.not.1 hne) u
  | created h =>
    have hne := List.mem_singleton.not.1 hne
    obtain ⟨_, u, rfl⟩ := createTable_some h
    refine ⟨?_, AList.lookup_insert_ne hne, rfl, rfl⟩
    dsimp only
    rw [Catalog.createTable]
    split_ifs
    · rfl
    · exact AList.lookup_insert_ne hne
  | dropped h =>
    have hne := List.mem_singleton.not.1 hne
    obtain ⟨_, rfl⟩ := dropTable_some h
    exact ⟨AList.lookup_erase_ne hne, AList.lookup_erase_ne hne,
      AList.lookup_erase_ne (metaName_injective.ne hne),
      AList.lookup_erase_ne (dbName_injective.ne hne)⟩

theorem Change.catalog_of_failed (h : Change e stmt rc e') (hrc : rc ≠ .success) :
    e'.catalog = e.catalog ∧ e'.directory = e.directory := by
  cases h with
  | refused => exact ⟨rfl, rfl⟩
  | scanned => exact ⟨rfl, rfl⟩
  | inserted => exact ⟨rfl, rfl⟩
  | created => exact absurd rfl hrc
  | dropped => exact absurd rfl hrc

section

variable {ν : Type} {rt : Runtime ν} {line : Bytes} {lines : List Bytes} {out : Output}
  {outs : List Output} {e₀ : Engine} {ch : Bytes → UInt8} {order : List Bytes → List Bytes}
  {d : Directory}

/-- A line is a command, is refused by the parser, or is a statement that is executed. -/
theorem runLine_cases (h : e.runLine rt line = some (out, e')) :
    (line.head? = some 0x2E ∧ e' = e ∧ ∀ code message, out ≠ .failed code message) ∨
    (e' = e ∧ out = .failed (rc2str .syntaxError) (rc2str .syntaxError ++ str " " ++ line)) ∨
    ∃ stmt l res, Parser.doParse rt.stof line = some (.ok (stmt, l)) ∧
      e.executeStmt rt.floatSub line stmt = some (res, e') ∧ report rt.floatText res = some out := by
  unfold runLine at h
  split_ifs at h with hdot hshow
  · cases h
    exact .inl ⟨hdot, rfl, fun _ _ h => by cases h⟩
  · cases h
    exact .inl ⟨hdot, rfl, fun _ _ h => by cases h⟩
  · obtain ⟨⟨res, e₁⟩, hexec, h⟩ := Option.bind_eq_some_iff.1 h
    obtain ⟨out, hout, h⟩ := Option.map_eq_some_iff.1 h
    cases h
    unfold executeSql at hexec
    split at hexec
    · cases hexec
    · rename_i rc hparse
      obtain rfl := Parser.doParse_error hparse
      cases hexec
      cases hout
      exact .inr (.inl ⟨rfl, rfl⟩)
    · rename_i stmt l hparse
      exact .inr (.inr ⟨stmt, l, res, hparse, hexec, hout⟩)

theorem SameTables.runLine (hI : e.SameTables) (h : e.runLine rt line = some (out, e')) :
    e'.SameTables := by
  rcases runLine_cases h with ⟨_, rfl, _⟩ | ⟨rfl, _⟩ | ⟨stmt, l, res, _, hexec, _⟩
  · exact hI
  · exact hI
  · exact (executeStmt_change hI hexec).sameTables hI

theorem SameTables.loadFile (hI : e.SameTables) {file : Bytes}
    (h : e.loadFile rt ch file = some e') : e'.SameTables := by
  unfold Engine.loadFile at h
  split at h
  · cases h
  · cases h
    exact hI
  · rename_i name _
    obtain ⟨u, _, h⟩ := Option.bind_eq_some_iff.1 h
    obtain ⟨text, _, h⟩ := Option.bind_eq_some_iff.1 h
    obtain ⟨⟨ok, v⟩, _, h⟩ := Option.bind_eq_some_iff.1 h
    dsimp only at h
    split_ifs at h
    all_goals
      obtain ⟨schema, _, rfl⟩ := Option.map_eq_some_iff.1 h
      intro m
      have hname := hI name
      rw [Catalog.createTable, ← hname]
      split_ifs
    · exact hI m
    · rename_i hheap
      rw [hasTable_eq]
      dsimp only
      rw [lookup_insert_eq, lookup_insert_eq]
      split_ifs
      · rfl
      · exact hI m

theorem sameTables_init (h : Engine.init rt ch order d = some e) : e.SameTables := by
  unfold Engine.init at h
  generalize order d.texts.keys = files at h
  suffices hfold : ∀ e₁ : Engine, e₁.SameTables → files.foldlM (Engine.loadFile rt ch) e₁ = some e →
      e.SameTables from hfold _ (fun _ => rfl) h
  clear h
  induction files with
  | nil =>
    rintro e₁ hI h
    cases h
    exact hI
  | cons file files ih =>
    intro e₁ hI h
    rw [List.foldlM_cons] at h
    obtain ⟨e₂, h₂, h⟩ := Option.bind_eq_some_iff.1 h
    exact ih e₂ (hI.loadFile h₂) h

theorem sameTables_run (hinit : Engine.init rt ch order d = some e₀)
    (hrun : Machine.run (Engine.runLine rt) e₀ lines = some (outs, e)) :
    e.SameTables :=
  Machine.run_invariant (fun _ _ _ _ hI h => SameTables.runLine hI h) (sameTables_init hinit) hrun

/-- The executer finds the heap that it works on, no assertion on a code or a name fails, and the
scanner of a query is not null. -/
def Ready (run : Running) : BoundExecuter → Prop
  | .error x => x.rc ≠ .success
  | .query _ => run.scanner.isSome ∧ (run.engine.heaps.lookup run.table).isSome
  | .insert x => (run.engine.heaps.lookup x.table).isSome
  | .createTable x => run.engine.heaps.lookup x.name = none
  | .dropTable x =>
    run.engine.catalog.hasTable x.table = (run.engine.heaps.lookup x.table).isSome

theorem start_some (hscan : scannedTable e.catalog stmt = none) (h : e.start stmt = some (b, run)) :
    Binder.bind e.catalog stmt = some b ∧ run = { engine := e } := by
  obtain ⟨b', hb, h⟩ := Option.bind_eq_some_iff.1 h
  rw [hscan] at h
  cases h
  exact ⟨hb, rfl⟩

theorem SameTables.ready_select (hI : e.SameTables) {s : SelectStmt}
    (h : e.start (.select s) = some (b, run)) : Ready run b := by
  rcases bindSelect_scanned e.catalog s with
    ⟨hscan, x, hx, hrc⟩ | ⟨table, schema, hscan, htable, hbind⟩
  · obtain ⟨hb, rfl⟩ := start_some hscan h
    rw [Binder.bind, hx] at hb
    cases hb
    rcases hrc with hrc | hrc <;> simp [Binder.orError, Ready, hrc]
  · obtain ⟨b', hb, h⟩ := Option.bind_eq_some_iff.1 h
    rw [hscan] at h
    obtain ⟨⟨sc, e₁⟩, hscanner, heq⟩ := Option.map_eq_some_iff.1 h
    cases heq
    have hheap := hI table
    rw [Catalog.hasTable, htable] at hheap
    obtain ⟨u, hu⟩ := Option.isSome_iff_exists.1 hheap
    unfold Engine.scanner at hscanner
    rw [hu] at hscanner
    obtain ⟨c, _, heq⟩ := Option.map_eq_some_iff.1 hscanner
    cases heq
    rw [Binder.bind, hbind] at hb
    obtain ⟨y, hq, rfl⟩ := Option.map_eq_some_iff.1 hb
    rcases y with x | x
    · simp [Binder.orError, Ready, bindQuery_error hq]
    · refine ⟨rfl, ?_⟩
      dsimp only
      rw [lookup_setHeap]
      rfl

theorem SameTables.ready (hI : e.SameTables) (h : e.start stmt = some (b, run)) : Ready run b := by
  cases stmt with
  | select s => exact hI.ready_select h
  | delete s =>
    obtain ⟨hb, rfl⟩ := start_some rfl h
    cases hb
    simp [Ready, Binder.bindDelete]
  | insert s =>
    obtain ⟨hb, rfl⟩ := start_some rfl h
    obtain rfl := Option.some.inj hb
    unfold Binder.bindInsert
    split
    · simp [Binder.orError, Ready]
    · rename_i schema hschema
      split_ifs
      · simp [Binder.orError, Ready]
      · exact (hI s.tableName).trans (by rw [Catalog.hasTable, hschema]; rfl)
      · simp [Binder.orError, Ready]
  | createTable s =>
    obtain ⟨hb, rfl⟩ := start_some rfl h
    obtain ⟨y, hy, rfl⟩ := Option.map_eq_some_iff.1 hb
    unfold Binder.bindCreate at hy
    split_ifs at hy with htable
    · cases hy
      simp [Binder.orError, Ready]
    · cases hy
      simp [Binder.orError, Ready]
    · obtain ⟨cols, _, rfl⟩ := Option.map_eq_some_iff.1 hy
      have hheap := hI s.tableName
      rw [Bool.not_eq_true] at htable
      rw [htable] at hheap
      exact Option.isSome_eq_false_iff.1 hheap |> Option.isNone_iff_eq_none.1
  | drop s =>
    obtain ⟨hb, rfl⟩ := start_some rfl h
    cases hb
    exact (hI s.table).symm

/-- Whatever the directory, and whatever lines have been run, the catalog and the storage manager have
the same tables, and a statement that is started finds the heaps that it needs. -/
theorem started_statements_ready (hinit : Engine.init rt ch order d = some e₀)
    (hrun : Machine.run (Engine.runLine rt) e₀ lines = some (outs, e)) :
    e.SameTables ∧ ∀ stmt b run, e.start stmt = some (b, run) → Ready run b :=
  have hI := sameTables_run hinit hrun
  ⟨hI, fun _ _ _ hstart => hI.ready hstart⟩

theorem init_empty (rt : Runtime ν) (ch : Bytes → UInt8) : Engine.init rt ch id {} = some {} := rfl

theorem represents_empty : Represents {} ∅ := by
  have hsaved : Saved integral {} ∅ := saved_empty
  obtain ⟨e, he, h⟩ := hsaved.init (fun _ => 0) fun l => .refl l
  cases he
  exact h.1

/-- `started_statements_ready` for an `INSERT` after a `CREATE TABLE`. -/
theorem started_insert_ready : ∃ outs e b run,
    Machine.run (Engine.runLine integral) {} [str "CREATE TABLE t (a INT);"] = some (outs, e) ∧
    e.SameTables ∧ e.start (.insert ⟨str "t", [], [.ints 1]⟩) = some (b, run) ∧ Ready run b := by
  have hok : Machine.Allowed (Relations.runLine integral) (Relations.LineOk integral) ∅
      [str "CREATE TABLE t (a INT);"] := by decide +kernel
  obtain ⟨e, hrun, _⟩ := implements_runLine.run represents_empty hok
  have hstart : e.start (.insert ⟨str "t", [], [.ints 1]⟩) = some (_, _) := start_eq rfl rfl
  obtain ⟨hI, hready⟩ := started_statements_ready (init_empty integral fun _ => 0) hrun
  exact ⟨_, e, _, _, hrun, hI, hstart, hready _ _ _ hstart⟩

/-- A line that fails shows why and for what line. It keeps the catalog, the directory and every heap
but the one that a query scans, whose pool has gone through a scan. -/
theorem failed_lines_change_nothing (hinit : Engine.init rt ch order d = some e₀)
    (hrun : Machine.run (Engine.runLine rt) e₀ lines = some (outs, e))
    {code message : Bytes} (h : e.runLine rt line = some (.failed code message, e')) :
    message = code ++ str " " ++ line ∧ e'.catalog = e.catalog ∧ e'.directory = e.directory ∧
      ((e' = e ∧ (code = rc2str .syntaxError ∨ code = rc2str .tableNotExisted ∨
          code = rc2str .tableAlreadyExisted ∨ code = rc2str .columnTypeMismatch)) ∨
        ((code = rc2str .columnNotExist ∨ code = rc2str .internalError) ∧
          ∃ s l table s₀ u, Parser.doParse rt.stof line = some (.ok (.select s, l)) ∧
            scannedTable e.catalog (.select s) = some table ∧ e.heaps.lookup table = some s₀ ∧
            RecordScanner.Scanned s₀ u ∧ e' = e.setHeap table u)) := by
  rcases runLine_cases h with ⟨_, _, hout⟩ | ⟨rfl, hout⟩ | ⟨stmt, l, res, hparse, hexec, hout⟩
  · exact absurd rfl (hout code message)
  · cases hout
    exact ⟨rfl, rfl, rfl, .inl ⟨rfl, .inl rfl⟩⟩
  · have hrc : res.rc ≠ .success := by
      intro hrc
      rw [report, if_neg (not_not.2 hrc), printRows] at hout
      split at hout
      · cases hout
      · obtain ⟨_, _, hout⟩ := Option.map_eq_some_iff.1 hout
        cases hout
    have hchange := executeStmt_change (sameTables_run hinit hrun) hexec
    have hkeep := hchange.catalog_of_failed hrc
    rw [report, if_pos hrc] at hout
    have hres := executeStmt_refused hexec hrc
    generalize res.rc = rc at *
    subst hres
    cases hout
    refine ⟨rfl, hkeep.1, hkeep.2, ?_⟩
    cases hchange with
    | refused _ hcode =>
      refine .inl ⟨rfl, ?_⟩
      rcases hcode with rfl | rfl | rfl | rfl
      · exact .inl rfl
      · exact .inr (.inl rfl)
      · exact .inr (.inr (.inl rfl))
      · exact .inr (.inr (.inr rfl))
    | @scanned s table _ hscan hcode s₀ u hs₀ hu =>
      refine .inr ⟨?_, s, l, table, s₀, u, hparse, hscan, hs₀, hu, rfl⟩
      rcases hcode with rfl | rfl | rfl
      · exact absurd rfl hrc
      · exact .inl rfl
      · exact .inr rfl
    | inserted => exact absurd rfl hrc
    | created => exact absurd rfl hrc
    | dropped => exact absurd rfl hrc

/-- `failed_lines_change_nothing` for a query of a column that the table does not have. -/
theorem failed_query_changes_nothing : ∃ outs e e' code message,
    Machine.run (Engine.runLine integral) {} [str "CREATE TABLE t (a INT);"] = some (outs, e) ∧
    e.runLine integral (str "SELECT b FROM t;") = some (.failed code message, e') ∧
    message = code ++ str " SELECT b FROM t;" ∧ e'.catalog = e.catalog := by
  have hok : Machine.Allowed (Relations.runLine integral) (Relations.LineOk integral) ∅
      [str "CREATE TABLE t (a INT);"] := by decide +kernel
  obtain ⟨e, hrun, hrep⟩ := implements_runLine.run represents_empty hok
  have hline : Relations.LineOk integral (Machine.answers (Relations.runLine integral) ∅
      [str "CREATE TABLE t (a INT);"]).2 (str "SELECT b FROM t;") := by decide +kernel
  obtain ⟨e', h, _⟩ := implements_runLine e _ _ hrep hline
  have hfailed : (Relations.runLine integral (Machine.answers (Relations.runLine integral) ∅
      [str "CREATE TABLE t (a INT);"]).2 (str "SELECT b FROM t;")).1 = .failed (rc2str .columnNotExist)
        (rc2str .columnNotExist ++ str " SELECT b FROM t;") := by decide +kernel
  rw [hfailed] at h
  have hchange := failed_lines_change_nothing (init_empty integral fun _ => 0) hrun h
  exact ⟨_, e, e', _, _, hrun, h, rfl, hchange.2.1⟩

theorem AgreeOn.trans {e₁ e₂ e₃ : Engine} (h : AgreeOn table e₁ e₂) (h' : AgreeOn table e₂ e₃) :
    AgreeOn table e₁ e₃ :=
  ⟨h'.schema.trans h.schema, h'.heap.trans h.heap, h'.text.trans h.text, h'.db.trans h.db⟩

theorem AgreeOn.symm_trans {e₁ e₂ : Engine} (h : AgreeOn table e e₁) (h' : AgreeOn table e e₂) :
    AgreeOn table e₁ e₂ :=
  ⟨h'.schema.trans h.schema.symm, h'.heap.trans h.heap.symm, h'.text.trans h.text.symm,
    h'.db.trans h.db.symm⟩

/-- The tables that the statement of a line names. -/
def lineTables (rt : Runtime ν) (line : Bytes) : List Bytes :=
  match Parser.doParse rt.stof line with
  | some (.ok (stmt, _)) => stmtTables stmt
  | _ => []

theorem agreeOn_runLine (hI : e.SameTables) (hline : table ∉ lineTables rt line)
    (h : e.runLine rt line = some (out, e')) : AgreeOn table e e' := by
  rcases runLine_cases h with ⟨_, rfl, _⟩ | ⟨rfl, _⟩ | ⟨stmt, l, res, hparse, hexec, _⟩
  · exact ⟨rfl, rfl, rfl, rfl⟩
  · exact ⟨rfl, rfl, rfl, rfl⟩
  · rw [lineTables, hparse] at hline
    exact (executeStmt_change hI hexec).agreeOn hline

theorem agreeOn_run (hI : e.SameTables) (hlines : ∀ line ∈ lines, table ∉ lineTables rt line)
    (h : Machine.run (Engine.runLine rt) e lines = some (outs, e')) :
    AgreeOn table e e' := by
  induction lines generalizing e outs with
  | nil =>
    cases h
    exact ⟨rfl, rfl, rfl, rfl⟩
  | cons line lines ih =>
    obtain ⟨hline, hlines⟩ := List.forall_mem_cons.1 hlines
    obtain ⟨⟨out, e₁⟩, h₁, h⟩ := Option.bind_eq_some_iff.1 h
    obtain ⟨⟨outs, e₂⟩, h₂, h⟩ := Option.map_eq_some_iff.1 h
    cases h
    exact (agreeOn_runLine hI hline h₁).trans (ih (hI.runLine h₁) hlines h₂)

theorem lookup_storeAll {β γ : Type*} {file : Bytes → Bytes} {f : β → Option γ}
    (hinj : Function.Injective file) {ts : List (Sigma fun _ : Bytes => β)} (hts : ts.NodupKeys)
    {files files' : AList (fun _ : Bytes => γ)} (h : storeAll file f ts files = some files')
    (k : Bytes) : files'.lookup (file k) =
      match ts.dlookup k with
      | some b => f b
      | none => files.lookup (file k) := by
  induction ts generalizing files with
  | nil =>
    cases h
    rfl
  | cons t ts ih =>
    obtain ⟨hfresh, hts⟩ := List.nodupKeys_cons.1 hts
    obtain ⟨c, hc, h⟩ := Option.bind_eq_some_iff.1 h
    rw [ih hts h]
    obtain ⟨name, b⟩ := t
    by_cases hk : k = name
    · subst hk
      rw [List.dlookup_eq_none.2 hfresh, List.dlookup_cons_eq]
      exact (AList.lookup_insert _).trans hc.symm
    · rw [List.dlookup_cons_ne _ _ hk, AList.lookup_insert_ne (hinj.ne hk)]

/-- What is stored for a table depends on its own schema, heap and files only. -/
theorem AgreeOn.close (h : AgreeOn table e e') {d d' : Directory} (hd : e.close rt = some d)
    (hd' : e'.close rt = some d') :
    d'.texts.lookup (metaName table) = d.texts.lookup (metaName table) ∧
      d'.dbs.lookup (dbName table) = d.dbs.lookup (dbName table) := by
  obtain ⟨texts, ht, hd⟩ := Option.bind_eq_some_iff.1 hd
  obtain ⟨dbs, hb, hd⟩ := Option.map_eq_some_iff.1 hd
  obtain ⟨texts', ht', hd'⟩ := Option.bind_eq_some_iff.1 hd'
  obtain ⟨dbs', hb', hd'⟩ := Option.map_eq_some_iff.1 hd'
  cases hd
  cases hd'
  have hschema : e'.catalog.tables.entries.dlookup table = e.catalog.tables.entries.dlookup table :=
    h.schema
  have hheap : e'.heaps.entries.dlookup table = e.heaps.entries.dlookup table := h.heap
  dsimp only
  rw [lookup_storeAll metaName_injective e.catalog.tables.nodupKeys ht,
    lookup_storeAll metaName_injective e'.catalog.tables.nodupKeys ht',
    lookup_storeAll dbName_injective e.heaps.nodupKeys hb,
    lookup_storeAll dbName_injective e'.heaps.nodupKeys hb', hschema, hheap, h.text, h.db]
  exact ⟨rfl, rfl⟩

/-- From any state that lines lead to, a table that no further line names stays as it is, and its files
are written as if the shell had been left before those lines. -/
theorem spared_table_is_untouched (hinit : Engine.init rt ch order d = some e₀)
    {before : List Bytes} {outs₀ : List Output}
    (hbefore : Machine.run (Engine.runLine rt) e₀ before = some (outs₀, e))
    (hrun : Machine.run (Engine.runLine rt) e lines = some (outs, e'))
    (hlines : ∀ line ∈ lines, table ∉ lineTables rt line) :
    AgreeOn table e e' ∧ ∀ d₀ d₁, e.close rt = some d₀ → e'.close rt = some d₁ →
      d₁.texts.lookup (metaName table) = d₀.texts.lookup (metaName table) ∧
        d₁.dbs.lookup (dbName table) = d₀.dbs.lookup (dbName table) := by
  have hagree := agreeOn_run (sameTables_run hinit hbefore) hlines hrun
  exact ⟨hagree, fun d₀ d₁ h₀ h₁ => hagree.close h₀ h₁⟩

/-- `spared_table_is_untouched` for a table with a row, and a line that creates another table. -/
theorem spared_table_survives_create : ∃ outs₀ outs e e',
    Machine.run (Engine.runLine integral) {}
      [str "CREATE TABLE t (a INT);", str "INSERT INTO t VALUES (1);"] = some (outs₀, e) ∧
    Machine.run (Engine.runLine integral) e [str "CREATE TABLE s (b INT);"] = some (outs, e') ∧
      AgreeOn (str "t") e e' := by
  have hok : Machine.Allowed (Relations.runLine integral) (Relations.LineOk integral) ∅
      [str "CREATE TABLE t (a INT);", str "INSERT INTO t VALUES (1);"] := by decide +kernel
  obtain ⟨e, hbefore, hrep⟩ := implements_runLine.run represents_empty hok
  have hok' : Machine.Allowed (Relations.runLine integral) (Relations.LineOk integral)
      (Machine.answers (Relations.runLine integral) ∅
        [str "CREATE TABLE t (a INT);", str "INSERT INTO t VALUES (1);"]).2
      [str "CREATE TABLE s (b INT);"] := by decide +kernel
  obtain ⟨e', hrun, _⟩ := implements_runLine.run hrep hok'
  exact ⟨_, _, e, e', hbefore, hrun,
    (spared_table_is_untouched (init_empty integral fun _ => 0) hbefore hrun (by decide +kernel)).1⟩

end

end Engine

end Tadis
