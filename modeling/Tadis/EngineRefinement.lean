import Tadis.Conditions
import Tadis.StoredRelations

/-!
# The engine implements relations

`Represents e r` says that the heaps of the engine hold the relations. A line that is handled is
answered as the relations say, and the relations that come of it are represented again, whatever
pins the scanners of earlier queries have left behind.
-/

namespace Tadis

open TableHeap

section

variable {α β : Type*} [DecidableEq α]

theorem lookup_insert_eq (m : AList (fun _ : α => β)) (a : α) (b : β) (k : α) :
    (m.insert a b).lookup k = if k = a then some b else m.lookup k := by
  split_ifs with h
  · rw [h, AList.lookup_insert]
  · exact AList.lookup_insert_ne h

theorem lookup_erase_eq (m : AList (fun _ : α => β)) (a k : α) :
    (m.erase a).lookup k = if k = a then none else m.lookup k := by
  split_ifs with h
  · rw [h, AList.lookup_erase]
  · exact AList.lookup_erase_ne h

end

/-- The file of an open heap, as long as nothing is written to it. -/
def Directory.heapFile (d : Directory) (name : Bytes) : File :=
  (d.dbs.lookup (dbName name)).getD (BufferPool.freshPool 15).disk.file

namespace Engine

/-- A file without a table is that of a heap without pages. -/
structure Represents (e : Engine) (r : Relations) : Prop where
  tables : ∀ name, e.catalog.getTable name = (r.lookup name).map Relation.schema
  heaps : ∀ name rel, r.lookup name = some rel →
    ∃ s, e.heaps.lookup name = some s ∧ ResidentHeap s rel.pages
  noHeap : ∀ name, r.lookup name = none → e.heaps.lookup name = none
  files : ∀ name s, e.heaps.lookup name = some s → s.disk.file = e.directory.heapFile name
  noFile : ∀ name, r.lookup name = none → ∀ file, e.directory.dbs.lookup (dbName name) = some file →
    SettledPages file []
  texts : ∀ file ∈ e.directory.texts, ∃ name, (r.lookup name).isSome ∧ file = metaName name
  stored : ∀ name rel, r.lookup name = some rel → rel.Stored
  names : ∀ name, (r.lookup name).isSome → Identifier name ∧ name ≠ []

variable {e e' : Engine} {r r' : Relations} {name sql : Bytes} {rel rel' : Relation}
  {s s₀ : BufferPool poolSize} {b : BoundExecuter} {run run' : Running} {rc : RC}
  (floatSub : UInt32 → UInt32 → ℤ) (floatText : UInt32 → Bytes)

theorem Represents.getTable (h : Represents e r) (hl : r.lookup name = some rel) :
    e.catalog.getTable name = some rel.schema := by
  rw [h.tables, hl, Option.map_some]

theorem Represents.hasTable_eq (h : Represents e r) (name : Bytes) :
    e.catalog.hasTable name = (r.lookup name).isSome := by
  rw [Catalog.hasTable, h.tables, Option.isSome_map]

theorem Represents.update (h : Represents e r) (hl : r.lookup name = some rel)
    (hr : ∀ m, r'.lookup m = if m = name then some rel' else r.lookup m)
    (hschema : rel'.schema = rel.schema) (hs₀ : e.heaps.lookup name = some s₀)
    (hfile : s.disk.file = s₀.disk.file) (hs : ResidentHeap s rel'.pages) (hstored : rel'.Stored) :
    Represents (e.setHeap name s) r' := by
  have hsome : ∀ m, (r'.lookup m).isSome = (r.lookup m).isSome := by
    intro m
    rw [hr]
    split_ifs with hm
    · rw [hm, hl]
      rfl
    · rfl
  have hnone : ∀ m, r'.lookup m = none → m ≠ name ∧ r.lookup m = none := by
    intro m hm
    rw [hr] at hm
    split_ifs at hm with heq
    exact ⟨heq, hm⟩
  have hheap := fun m => lookup_insert_eq e.heaps name s m
  refine ⟨fun m => ?_, fun m rel₁ hm => ?_, fun m hm => ?_, fun m s₁ hm => ?_,
    fun m hm => h.noFile m (hnone m hm).2, fun file hf => ?_, fun m rel₁ hm => ?_,
    fun m hm => h.names m (hsome m ▸ hm)⟩
  · rw [hr]
    split_ifs with hm
    · rw [Option.map_some, hschema, hm]
      exact h.getTable hl
    · exact h.tables m
  · rw [setHeap, hheap]
    rw [hr] at hm
    split_ifs at hm ⊢
    · obtain rfl := Option.some.inj hm
      exact ⟨s, rfl, hs⟩
    · exact h.heaps m rel₁ hm
  · obtain ⟨hne, hm⟩ := hnone m hm
    rw [setHeap, hheap, if_neg hne]
    exact h.noHeap m hm
  · rw [setHeap, hheap] at hm
    split_ifs at hm with heq
    · rw [← Option.some.inj hm, hfile, heq]
      exact h.files name s₀ hs₀
    · exact h.files m s₁ hm
  · obtain ⟨m, hm, rfl⟩ := h.texts file hf
    exact ⟨m, (hsome m).trans hm, rfl⟩
  · rw [hr] at hm
    split_ifs at hm
    · obtain rfl := Option.some.inj hm
      exact hstored
    · exact h.stored m rel₁ hm

theorem Represents.setHeap (h : Represents e r) (hl : r.lookup name = some rel)
    (hs₀ : e.heaps.lookup name = some s₀) (hfile : s.disk.file = s₀.disk.file)
    (hs : ResidentHeap s rel.pages) : Represents (e.setHeap name s) r := by
  refine h.update hl (fun m => ?_) rfl hs₀ hfile hs (h.stored name rel hl)
  split_ifs with hm
  · rw [hm, hl]
  · rfl

theorem sort_keys_congr {β γ : Type*} {m : AList (fun _ : Bytes => β)} {m' : AList (fun _ : Bytes => γ)}
    (h : ∀ k, k ∈ m ↔ k ∈ m') :
    m.keys.insertionSort (· ≤ ·) = m'.keys.insertionSort (· ≤ ·) := by
  have hperm : m.keys.Perm m'.keys := by
    rw [List.perm_ext_iff_of_nodup (AList.keys_nodup _) (AList.keys_nodup _)]
    intro name
    rw [← AList.mem_keys, ← AList.mem_keys, h]
  have hsort := fun l : List Bytes => List.pairwise_insertionSort (· ≤ ·) l
  refine List.Perm.eq_of_pairwise (fun a b _ _ => List.le_antisymm) (hsort _) (hsort _) ?_
  exact ((List.perm_insertionSort _ _).trans hperm).trans (List.perm_insertionSort _ _).symm

theorem Represents.tablesName_eq (h : Represents e r) :
    e.tablesName = r.keys.insertionSort (· ≤ ·) := by
  refine sort_keys_congr fun name => ?_
  have hsome := h.hasTable_eq name
  rw [Catalog.hasTable, Catalog.getTable] at hsome
  rw [← AList.lookup_isSome, ← AList.lookup_isSome, hsome]

/-- The statement is executed, `x` is printed, and what `x` says is represented. -/
def Realizes (e : Engine) (sql : Bytes) (stmt : QueryStmt) (x : Reply × Relations) : Prop :=
  ∃ res e', e.executeStmt floatSub sql stmt = some (res, e') ∧
    report floatText res = some (x.1.print floatText sql) ∧ Represents e' x.2

variable {floatSub floatText} {stmt : QueryStmt}

theorem executeStmt_eq (sql : Bytes) (hstart : e.start stmt = some (b, run)) {tuples : List Tuple}
    (hd : Pull.Drains (fun x => Running.next floatSub x b) run tuples rc run')
    (hfuel : tuples.length < Running.scanFuel) :
    e.executeStmt floatSub sql stmt = some (if rc ≠ .outOfRange then .refused rc sql
      else { rc := .success, tuples := tuples, outputSchema := b.outputSchema }, run'.finish b) := by
  rw [executeStmt, hstart, Option.bind_some]
  dsimp only
  rw [hd.collect hfuel, Option.map_some]

theorem realizes_refused (hstart : e.start stmt = some (b, run))
    (hnext : run.next floatSub b = some (.error rc, run')) (hrc : rc ≠ .outOfRange)
    (hs : rc ≠ .success) (h : Represents (run'.finish b) r) :
    Realizes floatSub floatText e sql stmt (.refused rc, r) := by
  have he := executeStmt_eq sql hstart (.stop hnext) (by decide)
  refine ⟨_, _, he, ?_, h⟩
  rw [if_pos hrc, report]
  exact if_pos hs

theorem realizes_done (hstart : e.start stmt = some (b, run)) (hb : b.outputSchema = none)
    (hnext : run.next floatSub b = some (.error .outOfRange, run'))
    (h : Represents (run'.finish b) r) :
    Realizes floatSub floatText e sql stmt (.done, r) := by
  have he := executeStmt_eq sql hstart (.stop hnext) (by decide)
  refine ⟨_, _, he, ?_, h⟩
  rw [if_neg (by simp), hb]
  rfl

theorem metaName_injective : Function.Injective metaName := fun _ _ h => List.append_cancel_right h

theorem dbName_injective : Function.Injective dbName := fun _ _ h => List.append_cancel_right h

/-- A table without a file, or with one that has no pages, starts without rows. -/
theorem Represents.openHeap (h : Represents e r) (hl : r.lookup name = none) :
    ∃ s, e.openHeap name = some s ∧ ResidentHeap s [] ∧ s.disk.file = e.directory.heapFile name := by
  rw [Engine.openHeap, Directory.heapFile]
  cases hf : e.directory.dbs.lookup (dbName name) with
  | none => exact ⟨_, BufferPool.openFile_absent_succ 15, residentHeap_freshPool 15, rfl⟩
  | some file =>
    have hfile := h.noFile name hl file hf
    obtain ⟨s, hs, hres⟩ := hfile.saved 15
    exact ⟨s, hs, hres, hfile.open_file hs⟩

theorem Represents.createTable (h : Represents e r) (hl : r.lookup name = none) {cols : List Column}
    (hname : Identifier name ∧ name ≠ []) (hcols : ∀ c ∈ cols, Identifier c.name ∧ c.size < 2 ^ 53) :
    ∃ e', e.createTable name cols = some e' ∧
      Represents e' (r.insert name { schema := ⟨cols⟩ }) := by
  obtain ⟨s, hopen, hres, hfile⟩ := h.openHeap hl
  have htable : e.catalog.hasTable name = false := by
    rw [h.hasTable_eq, hl]
    rfl
  have hcatalog : e.catalog.createTable name cols = ⟨e.catalog.tables.insert name ⟨cols⟩⟩ := by
    rw [Catalog.createTable, htable]
    rfl
  have hstored : Relation.Stored { schema := ⟨cols⟩ } := Relation.stored_empty hcols
  refine ⟨{ e with
    catalog := e.catalog.createTable name cols, heaps := e.heaps.insert name s }, ?_, ?_⟩
  · rw [Engine.createTable, h.noHeap name hl, hopen]
    rfl
  · rw [hcatalog]
    have hr := lookup_insert_eq r name { schema := ⟨cols⟩ }
    refine ⟨fun m => ?_, fun m rel hm => ?_, fun m hm => ?_, fun m s₁ hm => ?_, fun m hm => ?_,
      fun file hf => ?_, fun m rel hm => ?_, fun m hm => ?_⟩
    · rw [Catalog.getTable, lookup_insert_eq, hr]
      split_ifs
      · rfl
      · exact h.tables m
    · rw [hr] at hm
      rw [lookup_insert_eq]
      split_ifs at hm ⊢
      · obtain rfl := Option.some.inj hm
        exact ⟨s, rfl, hres⟩
      · exact h.heaps m rel hm
    · rw [hr] at hm
      rw [lookup_insert_eq]
      split_ifs at hm ⊢
      exact h.noHeap m hm
    · rw [lookup_insert_eq] at hm
      split_ifs at hm with heq
      · rw [← Option.some.inj hm, hfile, heq]
      · exact h.files m s₁ hm
    · rw [hr] at hm
      split_ifs at hm
      exact h.noFile m hm
    · obtain ⟨m, hm, rfl⟩ := h.texts file hf
      refine ⟨m, ?_, rfl⟩
      rw [hr]
      split_ifs
      · rfl
      · exact hm
    · rw [hr] at hm
      split_ifs at hm
      · obtain rfl := Option.some.inj hm
        exact hstored
      · exact h.stored m rel hm
    · rw [hr] at hm
      split_ifs at hm with heq
      · exact heq ▸ hname
      · exact h.names m hm

theorem Represents.dropTable (h : Represents e r) (hl : r.lookup name = some rel) :
    ∃ e', e.dropTable name = some e' ∧ Represents e' (r.erase name) := by
  obtain ⟨s, hs, hres⟩ := h.heaps name rel hl
  obtain ⟨t, ht, _⟩ := hres.close (h.stored name rel hl).roomy
  have htable : e.catalog.hasTable name = true := by
    rw [h.hasTable_eq, hl]
    rfl
  have hr := lookup_erase_eq r name
  refine ⟨{
    catalog := e.catalog.dropTable name, heaps := e.heaps.erase name
    directory := ⟨e.directory.texts.erase (metaName name), e.directory.dbs.erase (dbName name)⟩ },
    ?_, ?_⟩
  · rw [Engine.dropTable, if_pos htable, hs]
    dsimp only
    rw [ht, Option.map_some]
  · refine ⟨fun m => ?_, fun m rel hm => ?_, fun m hm => ?_, fun m s₁ hm => ?_,
      fun m hm file hf => ?_, fun file hf => ?_, fun m rel hm => ?_, fun m hm => ?_⟩
    · rw [Catalog.getTable, Catalog.dropTable, lookup_erase_eq, hr]
      split_ifs
      · rfl
      · exact h.tables m
    · rw [hr] at hm
      rw [lookup_erase_eq]
      split_ifs at hm ⊢
      exact h.heaps m rel hm
    · rw [hr] at hm
      rw [lookup_erase_eq]
      split_ifs at hm ⊢
      · rfl
      · exact h.noHeap m hm
    · rw [lookup_erase_eq] at hm
      split_ifs at hm with heq
      rw [h.files m s₁ hm, Directory.heapFile, Directory.heapFile, lookup_erase_eq,
        if_neg fun hname => heq (dbName_injective hname)]
    · rw [lookup_erase_eq] at hf
      split_ifs at hf with hfile
      rw [hr, if_neg fun heq => hfile (congrArg dbName heq)] at hm
      exact h.noFile m hm file hf
    · obtain ⟨hne, hf⟩ := AList.mem_erase.1 hf
      obtain ⟨m, hm, rfl⟩ := h.texts file hf
      refine ⟨m, ?_, rfl⟩
      rwa [hr, if_neg fun heq => hne (congrArg metaName heq)]
    · rw [hr] at hm
      split_ifs at hm
      exact h.stored m rel hm
    · rw [hr] at hm
      split_ifs at hm
      · cases hm
      · exact h.names m hm

variable {stmt : QueryStmt} {x : ErrorExecuter}

theorem start_eq (hscan : scannedTable e.catalog stmt = none)
    (hb : Binder.bind e.catalog stmt = some b) : e.start stmt = some (b, { engine := e }) := by
  rw [start, hb, Option.bind_some, hscan]

theorem start_insert (e : Engine) (s : InsertStmt) : e.start (.insert s) =
    some (Binder.orError .insert (Binder.bindInsert e.catalog s), { engine := e }) :=
  start_eq rfl rfl

theorem start_drop (e : Engine) (s : DropStmt) :
    e.start (.drop s) = some (.dropTable ⟨s.table⟩, { engine := e }) :=
  start_eq rfl rfl

theorem next_insert {x : InsertExecuter} {u : BufferPool poolSize} {row : Bytes}
    (hu : e.heaps.lookup x.table = some u) (hrow : encodeRow x.values x.schema.columns = some row) :
    Running.next floatSub { engine := e } (.insert x) =
      (TableHeap.insert u { data := row }).map
        (fun y => (.error .outOfRange, { engine := e.setHeap x.table y.2 })) := by
  rw [Running.next]
  dsimp only
  rw [hu, Option.bind_some, insertNext, Tuple.createTuple, hrow, Option.map_some, Option.bind_some,
    Option.map_map]
  rfl

theorem realizes_error (h : Represents e r) (hscan : scannedTable e.catalog stmt = none)
    (hb : Binder.bind e.catalog stmt = some (.error x)) (hrc : x.rc ≠ .outOfRange)
    (hs : x.rc ≠ .success) : Realizes floatSub floatText e sql stmt (.refused x.rc, r) := by
  have hnext : Running.next floatSub { engine := e } (.error x) =
      some (.error x.rc, { engine := e }) := by
    rw [Running.next, if_neg (by simp [rcSuccess, hs])]
  exact realizes_refused (start_eq hscan hb) hnext hrc hs h

/-- What the parser makes of `CREATE TABLE`. -/
structure Declares (s : CreateTableStmt) : Prop where
  table : Identifier s.tableName ∧ s.tableName ≠ []
  ne_nil : s.colAttrs ≠ []
  cols : ∀ col ∈ s.colAttrs, Identifier col.name ∧ (Binder.bindColumn col).isSome

theorem realizes_create (h : Represents e r) {s : CreateTableStmt} (hp : Declares s)
    (hok : r.StmtOk (.createTable s)) :
    Realizes floatSub floatText e sql (.createTable s) (r.execute floatSub (.createTable s)) := by
  have htable := h.hasTable_eq s.tableName
  have hb : Binder.bind e.catalog (.createTable s) =
      (Binder.bindCreate e.catalog s).map (Binder.orError .createTable) := rfl
  rw [Relations.execute]
  rw [Binder.bindCreate, htable] at hb
  split_ifs at hb ⊢ with hl hnil
  · exact realizes_error (x := { rc := .tableAlreadyExisted }) h rfl hb (by simp) (by simp)
  · exact absurd hnil hp.ne_nil
  · obtain ⟨cols, hcols, hall⟩ := exists_mapM (R := fun col c => Binder.bindColumn col = some c)
      fun col hcol => (Option.isSome_iff_exists.1 (hp.cols col hcol).2).imp fun c hc => ⟨hc, hc⟩
    have hsize : ∀ c ∈ cols, Identifier c.name ∧ c.size < 2 ^ 53 := by
      intro c hc
      obtain ⟨col, hcol, hbind⟩ := mem_mapM hcols hc
      obtain ⟨hname, hzero⟩ := bindColumn_name hbind
      refine ⟨hname ▸ (hp.cols col hcol).1, ?_⟩
      have hcol' := hok col hcol
      rw [Binder.bindColumn] at hbind
      split_ifs at hbind with _ hchar <;> cases hbind
      · exact Nat.two_pow_pos 53
      · exact hcol' hchar
      · exact Nat.two_pow_pos 53
      · exact Nat.two_pow_pos 53
    obtain ⟨e', he', hrep⟩ := h.createTable (Option.not_isSome_iff_eq_none.1 hl) hp.table hsize
    obtain rfl : s.colAttrs.filterMap Binder.bindColumn = cols := filterMap_of_forall₂ hall
    rw [hcols] at hb
    have hnext : Running.next floatSub { engine := e }
        (.createTable ⟨s.tableName, s.colAttrs.filterMap Binder.bindColumn⟩) =
          some (.error .outOfRange, { engine := e' }) := by
      rw [Running.next]
      dsimp only
      rw [he', Option.map_some]
    exact realizes_done (start_eq rfl hb) rfl hnext hrep

theorem realizes_drop (h : Represents e r) (s : DropStmt) :
    Realizes floatSub floatText e sql (.drop s) (r.execute floatSub (.drop s)) := by
  have htable := h.hasTable_eq s.table
  have hstart := start_drop e s
  rw [Relations.execute]
  split_ifs with hl
  · obtain ⟨rel, hl'⟩ := Option.isSome_iff_exists.1 hl
    obtain ⟨e', he', hrep⟩ := h.dropTable hl'
    have hnext : Running.next floatSub { engine := e } (.dropTable ⟨s.table⟩) =
        some (.error .outOfRange, { engine := e' }) := by
      rw [Running.next]
      dsimp only
      rw [if_pos (htable.trans hl), he', Option.map_some]
    exact realizes_done hstart rfl hnext hrep
  · have hnext : Running.next floatSub { engine := e } (.dropTable ⟨s.table⟩) =
        some (.error .tableNotExisted, { engine := e }) := by
      rw [Running.next]
      dsimp only
      rw [if_neg (by rwa [htable])]
    exact realizes_refused hstart hnext (by simp) (by simp) h

theorem realizes_insert (h : Represents e r) {s : InsertStmt} (hok : r.StmtOk (.insert s)) :
    Realizes floatSub floatText e sql (.insert s) (r.execute floatSub (.insert s)) := by
  have hb : Binder.bind e.catalog (.insert s) =
      some (Binder.orError .insert (Binder.bindInsert e.catalog s)) := rfl
  rw [Binder.bindInsert] at hb
  rw [Relations.execute]
  cases hl : r.lookup s.tableName with
  | none =>
    rw [h.tables, hl] at hb
    exact realizes_error (x := { rc := .tableNotExisted }) h rfl hb (by simp) (by simp)
  | some rel =>
    rw [h.getTable hl] at hb
    dsimp only at hb ⊢
    by_cases htakes : rel.schema.takes s.values = true
    · obtain ⟨hlen, htypes⟩ := Schema.takes_iff.1 htakes
      rw [dif_pos htakes]
      rw [if_neg (not_not.2 hlen), if_pos htypes] at hb
      obtain ⟨bytes, hrow⟩ := exists_encodeRow hlen htypes
      obtain ⟨hfits, hbytes⟩ := hok rel hl htakes
      obtain ⟨hlen990, hend, hroom⟩ := hbytes bytes hrow
      obtain ⟨u, hu, hres⟩ := h.heaps _ rel hl
      obtain ⟨u', hi, hres', hquiet⟩ := hres.insert
        (show (Record.mk false {} bytes).data.length ≤ 990 from hlen990) hend hroom
      rw [← Relation.pages_add rel htakes hrow] at hres'
      have hstored := (h.stored _ rel hl).add htakes ⟨hfits, hbytes⟩ hrow
      have hrep := h.update hl (fun m => lookup_insert_eq r s.tableName _ m)
        (show (rel.add s.values htakes).schema = rel.schema from rfl) hu hquiet.file hres' hstored
      have hnext : Running.next floatSub { engine := e } (.insert ⟨s.tableName, rel.schema, s.values⟩) =
          some (.error .outOfRange, { engine := e.setHeap s.tableName u' }) := by
        rw [next_insert hu hrow, hi, Option.map_some]
      exact realizes_done (start_eq rfl hb) rfl hnext hrep
    · rw [dif_neg htakes]
      rw [Schema.takes_iff, not_and] at htakes
      refine realizes_error (x := { rc := .columnTypeMismatch }) h rfl ?_ (by simp) (by simp)
      rw [hb]
      split_ifs with hlen hall
      · rfl
      · exact absurd hall (htakes (not_not.1 hlen))
      · rfl

theorem realizes_delete (h : Represents e r) (s : DeleteStmt) :
    Realizes floatSub floatText e sql (.delete s) (r.execute floatSub (.delete s)) :=
  realizes_error (x := Binder.bindDelete s) h rfl rfl (by simp [Binder.bindDelete])
    (by simp [Binder.bindDelete])

end Engine

end Tadis
