import Tadis.EngineInvariants

/-!
# Tables are isolated

What a line is answered, and what it does to the tables that it names, depends on these tables only. So
lines about other tables can be left out of a run.
-/

namespace Tadis

section

variable {α : Type*} [DecidableEq α] {β : Type*} {m m' : AList (fun _ : α => β)} {k : α}

theorem lookup_insert_congr (h : m'.lookup k = m.lookup k) (a : α) (b : β) :
    (m'.insert a b).lookup k = (m.insert a b).lookup k := by
  rw [lookup_insert_eq, lookup_insert_eq, h]

theorem lookup_erase_congr (h : m'.lookup k = m.lookup k) (a : α) :
    (m'.erase a).lookup k = (m.erase a).lookup k := by
  rw [lookup_erase_eq, lookup_erase_eq, h]

end

theorem Executer.follows_next {σ τ : Type} {scan : σ → Option (Except RC Tuple × σ)}
    {scan' : τ → Option (Except RC Tuple × τ)} {R : τ → σ → Prop} (h : Pull.Follows scan' scan R)
    (floatSub : UInt32 → UInt32 → ℤ) (fuel : ℕ) (x : Executer) :
    Pull.Follows (x.next floatSub scan' fuel) (x.next floatSub scan fuel) R := by
  induction x with
  | seqScan _ _ => exact h
  | filter e child schema ih =>
    rw [Executer.next_filter, Executer.next_filter]
    exact ih.filter _ fuel
  | projection e child schema ih =>
    rw [Executer.next_projection, Executer.next_projection]
    exact ih.map _

namespace Engine

variable {ν : Type} {rt : Runtime ν} {P : Bytes → Prop} {e e' e₁ : Engine}
  {floatSub : UInt32 → UInt32 → ℤ} {stmt : QueryStmt} {b : BoundExecuter} {run run' : Running}
  {name table sql line : Bytes} {lines : List Bytes} {res : QueryResult} {out : Output}
  {outs : List Output}

/-- The engines agree on every table in `P`. -/
def Agree (P : Bytes → Prop) (e' e : Engine) : Prop := ∀ table, P table → AgreeOn table e e'

theorem Agree.hasTable (h : Agree P e' e) (hP : P name) :
    e'.catalog.hasTable name = e.catalog.hasTable name := by
  rw [Catalog.hasTable, Catalog.hasTable, (h name hP).schema]

theorem Agree.setHeap (h : Agree P e' e) (table : Bytes) (s : BufferPool poolSize) :
    Agree P (e'.setHeap table s) (e.setHeap table s) := fun m hm =>
  ⟨(h m hm).schema, lookup_insert_congr (h m hm).heap table s, (h m hm).text, (h m hm).db⟩

theorem Agree.createTable (h : Agree P e' e) (hP : P name) {cols : List Column}
    (hc : e.createTable name cols = some e₁) :
    ∃ e₁', e'.createTable name cols = some e₁' ∧ Agree P e₁' e₁ := by
  have hopen : e'.openHeap name = e.openHeap name := by
    rw [openHeap, openHeap, (h name hP).db]
  unfold Engine.createTable at hc ⊢
  rw [(h name hP).heap, hopen]
  split_ifs at hc ⊢ with hheap
  obtain ⟨s, hs, rfl⟩ := Option.map_eq_some_iff.1 hc
  rw [hs, Option.map_some]
  refine ⟨_, rfl, fun m hm => ⟨?_, lookup_insert_congr (h m hm).heap name s, (h m hm).text,
    (h m hm).db⟩⟩
  dsimp only
  rw [Catalog.createTable, Catalog.createTable, h.hasTable hP]
  split_ifs
  · exact (h m hm).schema
  · exact lookup_insert_congr (h m hm).schema name ⟨cols⟩

theorem Agree.dropTable (h : Agree P e' e) (hP : P name) (hd : e.dropTable name = some e₁) :
    ∃ e₁', e'.dropTable name = some e₁' ∧ Agree P e₁' e₁ := by
  have herase : Agree P
      ⟨e'.catalog.dropTable name, e'.heaps.erase name,
        e'.directory.texts.erase (metaName name), e'.directory.dbs.erase (dbName name)⟩
      ⟨e.catalog.dropTable name, e.heaps.erase name,
        e.directory.texts.erase (metaName name), e.directory.dbs.erase (dbName name)⟩ := fun m hm =>
    ⟨lookup_erase_congr (h m hm).schema name, lookup_erase_congr (h m hm).heap name,
      lookup_erase_congr (h m hm).text _, lookup_erase_congr (h m hm).db _⟩
  unfold Engine.dropTable at hd ⊢
  dsimp only at hd ⊢
  rw [h.hasTable hP, (h name hP).heap]
  split_ifs at hd ⊢
  cases hl : e.heaps.lookup name with
  | none =>
    rw [hl] at hd
    cases hd
    exact ⟨_, rfl, herase⟩
  | some s =>
    rw [hl] at hd
    obtain ⟨u, hu, rfl⟩ := Option.map_eq_some_iff.1 hd
    dsimp only
    rw [hu, Option.map_some]
    exact ⟨_, rfl, herase⟩

/-- The same scan, of a table in `P`. -/
structure AgreeRunning (P : Bytes → Prop) (r' r : Running) : Prop where
  engine : Agree P r'.engine r.engine
  table : r'.table = r.table
  scanner : r'.scanner = r.scanner
  scanned : r.scanner.isSome → P r.table

theorem follows_scan : Pull.Follows Running.scan Running.scan (AgreeRunning P) := by
  intro r' r x t h hx
  unfold Running.scan at hx ⊢
  rw [h.scanner, h.table]
  cases hsc : r.scanner with
  | none =>
    rw [hsc] at hx
    cases hx
  | some sc =>
    have hP := h.scanned (by rw [hsc]; rfl)
    rw [hsc] at hx
    rw [(h.engine _ hP).heap]
    cases hs : r.engine.heaps.lookup r.table with
    | none =>
      rw [hs] at hx
      cases hx
    | some s =>
      rw [hs] at hx
      obtain ⟨y, hy, heq⟩ := Option.map_eq_some_iff.1 hx
      cases heq
      dsimp only
      rw [hy, Option.map_some]
      exact ⟨_, rfl, h.engine.setHeap _ _, rfl, rfl, fun _ => hP⟩

/-- The table that a statement works on. A scan has its own. -/
def boundTables : BoundExecuter → List Bytes
  | .insert x => [x.table]
  | .createTable x => [x.name]
  | .dropTable x => [x.table]
  | _ => []

theorem follows_next (hb : ∀ table ∈ boundTables b, P table) :
    Pull.Follows (fun r => Running.next floatSub r b) (fun r => Running.next floatSub r b)
      (AgreeRunning P) := by
  cases b with
  | error x =>
    intro r' r y t h hy
    dsimp only [Running.next] at hy ⊢
    split_ifs at hy ⊢
    cases hy
    exact ⟨r', rfl, h⟩
  | query x => exact Executer.follows_next follows_scan floatSub Running.scanFuel x
  | insert x =>
    intro r' r y t h hy
    dsimp only [Running.next] at hy ⊢
    obtain ⟨s, hs, hy⟩ := Option.bind_eq_some_iff.1 hy
    obtain ⟨z, hz, heq⟩ := Option.map_eq_some_iff.1 hy
    cases heq
    rw [(h.engine _ (hb _ List.mem_cons_self)).heap, hs, Option.bind_some, hz, Option.map_some]
    exact ⟨_, rfl, h.engine.setHeap _ _, h.table, h.scanner, h.scanned⟩
  | createTable x =>
    intro r' r y t h hy
    dsimp only [Running.next] at hy ⊢
    obtain ⟨e₁, he, heq⟩ := Option.map_eq_some_iff.1 hy
    cases heq
    obtain ⟨e₁', he', h₁⟩ := h.engine.createTable (hb _ List.mem_cons_self) he
    rw [he', Option.map_some]
    exact ⟨_, rfl, h₁, h.table, h.scanner, h.scanned⟩
  | dropTable x =>
    have hP := hb _ List.mem_cons_self
    intro r' r y t h hy
    dsimp only [Running.next] at hy ⊢
    rw [h.engine.hasTable hP]
    split_ifs at hy ⊢
    · obtain ⟨e₁, he, heq⟩ := Option.map_eq_some_iff.1 hy
      cases heq
      obtain ⟨e₁', he', h₁⟩ := h.engine.dropTable hP he
      rw [he', Option.map_some]
      exact ⟨_, rfl, h₁, h.table, h.scanner, h.scanned⟩
    · cases hy
      exact ⟨r', rfl, h⟩

theorem AgreeRunning.finish (h : AgreeRunning P run' run) (b : BoundExecuter) :
    Agree P (run'.finish b) (run.finish b) := by
  cases b with
  | query x =>
    unfold Running.finish
    dsimp only
    rw [h.scanner, h.table]
    cases hsc : run.scanner with
    | none => exact h.engine
    | some sc =>
      have hP := h.scanned (by rw [hsc]; rfl)
      rw [(h.engine _ hP).heap]
      split
      · exact h.engine.setHeap _ _
      · exact h.engine
  | _ => exact h.engine

end Engine

section

variable {c c' : Catalog} {stmt : QueryStmt}

theorem bind_congr (h : ∀ table ∈ Engine.stmtTables stmt, c'.getTable table = c.getTable table) :
    Binder.bind c' stmt = Binder.bind c stmt := by
  cases stmt with
  | select s =>
    obtain ⟨selist, fromList, conds⟩ := s
    rcases selist with _ | ⟨a, selist⟩
    · rfl
    rcases fromList with _ | ⟨table, _ | ⟨table', tables⟩⟩
    · rfl
    · unfold Binder.bind Binder.bindSelect
      dsimp only
      rw [h table List.mem_cons_self]
    · rfl
  | insert s =>
    unfold Binder.bind Binder.bindInsert
    dsimp only
    rw [h s.tableName List.mem_cons_self]
  | delete s => rfl
  | createTable s =>
    unfold Binder.bind Binder.bindCreate Catalog.hasTable
    dsimp only
    rw [h s.tableName List.mem_cons_self]
  | drop s => rfl

theorem scannedTable_congr
    (h : ∀ table ∈ Engine.stmtTables stmt, c'.getTable table = c.getTable table) :
    scannedTable c' stmt = scannedTable c stmt := by
  unfold scannedTable
  split
  · rename_i table conds
    rw [Catalog.hasTable, Catalog.hasTable, h table List.mem_cons_self]
  · rfl

end

namespace Engine

variable {ν : Type} {rt : Runtime ν} {P : Bytes → Prop} {e e' e₁ : Engine}
  {floatSub : UInt32 → UInt32 → ℤ} {stmt : QueryStmt} {b : BoundExecuter} {run run' : Running}
  {name table sql line : Bytes} {lines : List Bytes} {res : QueryResult} {out : Output}
  {outs : List Output}

theorem boundTables_of_bind {catalog : Catalog} (h : Binder.bind catalog stmt = some b) :
    ∀ table ∈ boundTables b, table ∈ stmtTables stmt := by
  cases stmt with
  | select s =>
    obtain ⟨x, _, rfl⟩ := Option.map_eq_some_iff.1 h
    cases x <;> simp [Binder.orError, boundTables]
  | insert s =>
    cases h
    cases hx : Binder.bindInsert catalog s with
    | error x => simp [Binder.orError, boundTables]
    | ok x =>
      obtain ⟨schema, _, _, _, rfl⟩ := Binder.bindInsert_ok hx
      exact fun table ht => ht
  | delete s =>
    cases h
    simp [boundTables]
  | createTable s =>
    obtain ⟨x, hx, rfl⟩ := Option.map_eq_some_iff.1 h
    cases x with
    | error x => simp [Binder.orError, boundTables]
    | ok x =>
      intro table ht
      rw [Binder.orError, boundTables, (Binder.bindCreate_ok hx).2] at ht
      exact ht
  | drop s =>
    cases h
    exact fun table ht => ht

theorem Agree.start (h : Agree P e' e) (hP : ∀ table ∈ stmtTables stmt, P table)
    (hs : e.start stmt = some (b, run)) :
    ∃ run', e'.start stmt = some (b, run') ∧ AgreeRunning P run' run := by
  have htables : ∀ table ∈ stmtTables stmt, e'.catalog.getTable table = e.catalog.getTable table :=
    fun table ht => (h table (hP table ht)).schema
  unfold Engine.start at hs ⊢
  rw [bind_congr htables, scannedTable_congr htables]
  obtain ⟨b', hb, hs⟩ := Option.bind_eq_some_iff.1 hs
  rw [hb, Option.bind_some]
  cases hscan : scannedTable e.catalog stmt with
  | none =>
    rw [hscan] at hs
    cases hs
    exact ⟨_, rfl, h, rfl, rfl, fun hsome => by cases hsome⟩
  | some table =>
    have htable := hP table (mem_of_scannedTable hscan)
    rw [hscan] at hs
    dsimp only at hs ⊢
    unfold Engine.scanner at hs ⊢
    rw [(h table htable).heap]
    cases hl : e.heaps.lookup table with
    | none =>
      rw [hl] at hs
      cases hs
      exact ⟨_, rfl, h, rfl, rfl, fun _ => htable⟩
    | some s =>
      rw [hl] at hs
      dsimp only at hs ⊢
      cases hm : RecordScanner.make s with
      | none =>
        rw [hm] at hs
        cases hs
      | some c =>
        rw [hm] at hs
        cases hs
        exact ⟨_, rfl, h.setHeap _ _, rfl, rfl, fun _ => htable⟩

theorem Agree.executeStmt (h : Agree P e' e) (hP : ∀ table ∈ stmtTables stmt, P table)
    (hx : e.executeStmt floatSub sql stmt = some (res, e₁)) :
    ∃ e₁', e'.executeStmt floatSub sql stmt = some (res, e₁') ∧ Agree P e₁' e₁ := by
  obtain ⟨b, run, tuples, rc, run₁, hstart, hc, rfl, rfl⟩ := executeStmt_some hx
  obtain ⟨run', hstart', hrun⟩ := h.start hP hstart
  have hbound : ∀ table ∈ boundTables b, P table := by
    obtain ⟨b', hb, hs⟩ := Option.bind_eq_some_iff.1 hstart
    have heq : b' = b := by
      split at hs
      · cases hs
        rfl
      · obtain ⟨y, _, heq⟩ := Option.map_eq_some_iff.1 hs
        cases heq
        rfl
    exact fun table ht => hP table (boundTables_of_bind (heq ▸ hb) table ht)
  obtain ⟨run₁', hc', hrun₁⟩ := (follows_next hbound).collect hrun hc
  refine ⟨run₁'.finish b, ?_, hrun₁.finish b⟩
  rw [Engine.executeStmt, hstart', Option.bind_some]
  dsimp only
  rw [hc', Option.map_some]
  unfold outcome
  exact rfl

/-- A line is answered alike by engines that agree on the tables that it names. -/
theorem Agree.runLine (h : Agree P e' e) (hP : ∀ table ∈ lineTables rt line, P table)
    (hshow : line ≠ str ".show tables") (hx : e.runLine rt line = some (out, e₁)) :
    ∃ e₁', e'.runLine rt line = some (out, e₁') ∧ Agree P e₁' e₁ := by
  unfold lineTables at hP
  unfold Engine.runLine at hx ⊢
  split_ifs at hx ⊢
  · cases hx
    exact ⟨e', rfl, h⟩
  · obtain ⟨⟨res, e₂⟩, hsql, hx⟩ := Option.bind_eq_some_iff.1 hx
    obtain ⟨out', hout, heq⟩ := Option.map_eq_some_iff.1 hx
    cases heq
    have hexec : ∃ e₂', e'.executeSql rt line = some (res, e₂') ∧ Agree P e₂' e₁ := by
      unfold Engine.executeSql at hsql ⊢
      cases hparse : Parser.doParse rt.stof line with
      | none =>
        rw [hparse] at hsql
        cases hsql
      | some y =>
        rw [hparse] at hsql hP
        rcases y with rc | ⟨stmt, l⟩
        · cases hsql
          exact ⟨e', rfl, h⟩
        · exact h.executeStmt hP hsql
    obtain ⟨e₂', hsql', h₂⟩ := hexec
    refine ⟨e₂', ?_, h₂⟩
    rw [hsql', Option.bind_some]
    dsimp only
    rw [hout, Option.map_some]

/-- The line names only tables in `P`, so it is not `.show tables`. -/
def Within (rt : Runtime ν) (P : Bytes → Prop) (line : Bytes) : Prop :=
  line ≠ str ".show tables" ∧ ∀ table ∈ lineTables rt line, P table

instance [DecidablePred P] : DecidablePred (Within rt P) := fun _ =>
  inferInstanceAs (Decidable (_ ∧ _))

/-- Lines that name no table in `P` can be left out: the others are answered alike, and do the same to
the tables in `P`. -/
theorem Agree.runLines [DecidablePred P] (hI : e.SameTables) (h : Agree P e' e)
    (hlines : ∀ line ∈ lines, Within rt P line ∨ Within rt (fun table => ¬ P table) line)
    (hx : Machine.run (Engine.runLine rt) e lines = some (outs, e₁)) :
    ∃ e₁', Machine.run (Engine.runLine rt) e' (lines.filter (fun line => Within rt P line)) =
        some (((lines.zip outs).filter (fun x => Within rt P x.1)).map Prod.snd, e₁') ∧
      Agree P e₁' e₁ := by
  induction lines generalizing e e' outs with
  | nil =>
    cases hx
    exact ⟨e', rfl, h⟩
  | cons line lines ih =>
    obtain ⟨hline, hlines⟩ := List.forall_mem_cons.1 hlines
    obtain ⟨⟨out, e₂⟩, h₂, hx⟩ := Option.bind_eq_some_iff.1 hx
    obtain ⟨⟨outs', e₃⟩, h₃, heq⟩ := Option.map_eq_some_iff.1 hx
    cases heq
    by_cases hwithin : Within rt P line
    · obtain ⟨e₂', h₂', hagree⟩ := h.runLine hwithin.2 hwithin.1 h₂
      obtain ⟨e₃', h₃', hagree'⟩ := ih (hI.runLine h₂) hagree hlines h₃
      refine ⟨e₃', ?_, hagree'⟩
      rw [List.filter_cons, if_pos (decide_eq_true hwithin), Machine.run, h₂', Option.bind_some, h₃',
        Option.map_some, List.zip_cons_cons, List.filter_cons, if_pos (decide_eq_true hwithin),
        List.map_cons]
    · have hspared : Agree P e' e₂ := fun table hP =>
        AgreeOn.symm_trans (agreeOn_runLine hI
          (fun hmem => (hline.resolve_left hwithin).2 table hmem hP) h₂) (h table hP)
      obtain ⟨e₃', h₃', hagree'⟩ := ih (hI.runLine h₂) hspared hlines h₃
      refine ⟨e₃', ?_, hagree'⟩
      rw [List.filter_cons, if_neg (by simpa using hwithin), h₃', List.zip_cons_cons,
        List.filter_cons, if_neg (by simpa using hwithin)]

/-- In every state that a run leads to, lines that name tables in `P` are answered as if no line about
other tables had been typed in between, and do the same to the tables in `P`. -/
theorem tables_are_isolated [DecidablePred P] {ch : Bytes → UInt8} {order : List Bytes → List Bytes}
    {d : Directory} {e₀ : Engine} (hinit : Engine.init rt ch order d = some e₀) {before : List Bytes}
    {outs₀ : List Output} (hbefore : Machine.run (Engine.runLine rt) e₀ before = some (outs₀, e))
    (hlines : ∀ line ∈ lines, Within rt P line ∨ Within rt (fun table => ¬ P table) line)
    (hrun : Machine.run (Engine.runLine rt) e lines = some (outs, e₁)) :
    ∃ e₁', Machine.run (Engine.runLine rt) e (lines.filter (fun line => Within rt P line)) =
        some (((lines.zip outs).filter (fun x => Within rt P x.1)).map Prod.snd, e₁') ∧
      Agree P e₁' e₁ :=
  Agree.runLines (sameTables_run hinit hbefore) (fun _ _ => ⟨rfl, rfl, rfl, rfl⟩) hlines hrun

def twoTables : List Bytes :=
  [str "CREATE TABLE t (a INT);", str "CREATE TABLE s (b INT);", str "INSERT INTO t VALUES (1);",
    str "INSERT INTO s VALUES (2);", str "DROP TABLE s;", str "SELECT a FROM t;"]

theorem tables_are_isolated_two_tables : ∃ e, Machine.run (Engine.runLine integral) {}
    [str "CREATE TABLE t (a INT);", str "INSERT INTO t VALUES (1);", str "SELECT a FROM t;"] =
      some ([.success, .success, .rows [str "a"] [[str "1"]]], e) := by
  have hok : Machine.Allowed (Relations.runLine integral) (Relations.LineOk integral) ∅
      twoTables := by decide +kernel
  have hlines : ∀ line ∈ twoTables, Within integral (fun table => table = str "t") line ∨
      Within integral (fun table => ¬ table = str "t") line := by decide +kernel
  obtain ⟨e₁, hrun, _⟩ := implements_runLine.run represents_empty hok
  obtain ⟨e, h, _⟩ := tables_are_isolated (init_empty integral fun _ => 0)
    (show Machine.run (Engine.runLine integral) {} [] = some ([], {}) from rfl) hlines hrun
  have hfilter : twoTables.filter (fun line => Within integral (fun table => table = str "t") line) =
      [str "CREATE TABLE t (a INT);", str "INSERT INTO t VALUES (1);", str "SELECT a FROM t;"] := by
    decide +kernel
  have houts : ((twoTables.zip (Machine.answers (Relations.runLine integral) ∅ twoTables).1).filter
      (fun x => Within integral (fun table => table = str "t") x.1)).map Prod.snd =
        [.success, .success, .rows [str "a"] [[str "1"]]] := by decide +kernel
  rw [hfilter, houts] at h
  exact ⟨e, h⟩

end Engine

end Tadis
