import Tadis.Acceptance
import Tadis.EngineQueries
import Tadis.Machine
import Tadis.ParseErrors

/-!
# The engine implements relations: leaving and starting the shell

`Saved d r` says that the files of a directory hold the relations. The shell that is left saves them,
and the next one finds them, in whatever order it comes across the files.
-/

namespace Tadis

open TableHeap Pson

theorem isColAttr_bindColumn {ts : List Lexeme} {col : ColAttr} (h : Sql.IsColAttr ts col) :
    (Binder.bindColumn col).isSome := by
  obtain ⟨name, h⟩ := h
  cases h <;> simp [Binder.bindColumn, str]

theorem forall_of_commaList {α : Type} {P : List Lexeme → α → Prop} {Q : α → Prop} {ts : List Lexeme}
    {as : List α} (h : Sql.CommaList P ts as) (hPQ : ∀ ts a, P ts a → Q a) : ∀ a ∈ as, Q a := by
  induction h with
  | one h => simpa using hPQ _ _ h
  | more h _ ih => exact List.forall_mem_cons.2 ⟨hPQ _ _ h, ih⟩

namespace Engine

variable {ν : Type} {rt : Runtime ν} {e : Engine} {r : Relations} {d : Directory}
  {name line : Bytes} {rel : Relation}

theorem declares_of_parsed {stof : Bytes → Option UInt32} {input : Bytes} {s : CreateTableStmt}
    {l : Lexer} (h : Parser.doParse stof input = some (.ok (.createTable s, l))) : Declares s := by
  obtain ⟨ts, stop, hw, hr, _⟩ := Parser.doParse_ok_iff.1 ⟨l, h, rfl⟩
  rcases Sql.statement_sound hw with ⟨_, hs⟩ | ⟨_, _, htype⟩ | ⟨_, ⟨_, htype⟩ | ⟨_, htype⟩⟩
  · cases hs with
    | @createTable cs cols table hcols =>
      obtain ⟨p, q, hp⟩ := mem_reads hr (t := .id table) (by simp)
      obtain ⟨⟨c, hc, _⟩, hname, _⟩ := Lexer.lexeme_id hp
      have hne : table ≠ [] := by
        rintro rfl
        cases hc
      refine ⟨⟨hname, hne⟩, ?_, fun col hcol => ⟨identifier_of_parsed h col hcol, ?_⟩⟩
      · cases hcols <;> exact List.cons_ne_nil _ _
      · exact forall_of_commaList hcols (fun _ _ => isColAttr_bindColumn) col hcol
  · cases htype
  · cases htype
  · cases htype

theorem implements_runLine : Machine.Implements (Engine.runLine rt) (Relations.runLine rt)
    (Relations.LineOk rt) Represents := by
  rintro e r line h ⟨_, hok⟩
  rw [runLine, Relations.runLine]
  split_ifs with hdot hshow
  · exact ⟨e, by rw [h.tablesName_eq], h⟩
  · exact ⟨e, rfl, h⟩
  · have hok := hok hdot
    rw [executeSql]
    cases hparse : Parser.doParse rt.stof line with
    | none => simp [hparse] at hok
    | some x =>
      rcases x with rc | ⟨stmt, l⟩
      · obtain rfl := Parser.doParse_error hparse
        exact ⟨e, rfl, h⟩
      · rw [hparse] at hok
        have hrealizes : Realizes rt.floatSub rt.floatText e line stmt (r.execute rt.floatSub stmt) := by
          cases stmt with
          | select s => exact realizes_select h hok
          | delete s => exact realizes_delete h s
          | insert s => exact realizes_insert h hok
          | createTable s => exact realizes_create h (declares_of_parsed hparse) hok
          | drop s => exact realizes_drop h s
        obtain ⟨res, e', he, hout, hrep⟩ := hrealizes
        refine ⟨e', ?_, hrep⟩
        dsimp only
        rw [he, Option.bind_some]
        dsimp only
        rw [hout, Option.map_some]

theorem mainLoop_eq {lines : List Bytes} (h : ∀ line ∈ lines, line ≠ str ".quit") :
    e.mainLoop rt (lines ++ [str ".quit"]) =
      Machine.run (Engine.runLine rt) e lines := by
  induction lines generalizing e with
  | nil =>
    rw [List.nil_append, mainLoop, if_pos rfl]
    rfl
  | cons line lines ih =>
    obtain ⟨hline, hlines⟩ := List.forall_mem_cons.1 h
    rw [List.cons_append, mainLoop, if_neg hline, Machine.run]
    refine congrArg (Option.bind _) (funext fun x => ?_)
    obtain ⟨out, e⟩ := x
    dsimp only
    rw [ih hlines]

theorem ne_quit_of_allowed {lines : List Bytes}
    (h : Machine.Allowed (Relations.runLine rt) (Relations.LineOk rt) r lines) :
    ∀ line ∈ lines, line ≠ str ".quit" := by
  induction lines generalizing r with
  | nil => simp
  | cons line lines ih => exact List.forall_mem_cons.2 ⟨h.1.1, ih h.2⟩

end Engine

section

variable {β γ : Type*} {file : Bytes → Bytes} {f : β → Option γ} {ts : List (Sigma fun _ : Bytes => β)}

/-- Every entry is stored in its file, and no other file is touched. -/
theorem exists_storeAll (hinj : Function.Injective file) (hts : ts.NodupKeys)
    (hf : ∀ t ∈ ts, ∃ c, f t.2 = some c) (files : AList (fun _ : Bytes => γ)) :
    ∃ files', storeAll file f ts files = some files' ∧
      (∀ t ∈ ts, ∃ c, f t.2 = some c ∧ files'.lookup (file t.1) = some c) ∧
      ∀ k, (∀ t ∈ ts, k ≠ file t.1) → files'.lookup k = files.lookup k := by
  induction ts generalizing files with
  | nil => exact ⟨files, rfl, by simp, fun _ _ => rfl⟩
  | cons t ts ih =>
    obtain ⟨hfresh, hts⟩ := List.nodupKeys_cons.1 hts
    obtain ⟨⟨c, hc⟩, hf⟩ := List.forall_mem_cons.1 hf
    obtain ⟨files', hs, hstored, hframe⟩ := ih hts hf (files.insert (file t.1) c)
    have hkeep : ∀ u ∈ ts, file t.1 ≠ file u.1 := by
      intro u hu heq
      exact hfresh (hinj heq ▸ List.mem_keys_of_mem hu)
    refine ⟨files', by rw [storeAll, hc, Option.bind_some, hs], ?_, fun k hk => ?_⟩
    · refine List.forall_mem_cons.2 ⟨⟨c, hc, ?_⟩, hstored⟩
      rw [hframe _ hkeep, AList.lookup_insert]
    · obtain ⟨hne, hk⟩ := List.forall_mem_cons.1 hk
      rw [hframe k hk, AList.lookup_insert_ne hne]

end

/-- What the metadata files rely on, below `2 ^ 53`. -/
structure Runtime.Lawful {ν : Type} (rt : Runtime ν) : Prop where
  text : DoubleText rt.ofInt rt.toString rt.strtod
  exact : ExactDoubles rt.ofInt rt.trunc

def Engine.integral : Runtime ℤ where
  floatSub _ _ := 0
  stof _ := some 0
  floatText _ := []
  ofInt := id
  trunc := id
  toString n := Pson.decimal n ++ Pson.zeros
  strtod := Pson.readDouble

theorem Engine.lawful_integral : integral.Lawful := ⟨Pson.doubleText_readDouble, fun _ _ => rfl⟩

structure Engine.Saved {ν : Type} (rt : Runtime ν) (d : Directory) (r : Relations) : Prop where
  text : ∀ name rel, r.lookup name = some rel → ∃ text, d.texts.lookup (metaName name) = some text ∧
    ∀ c, ∃ v, JsonFileRWer.read rt.strtod c text .null = some (true, v) ∧
      Schema.fromJson rt.trunc ⟨[]⟩ v = some rel.schema
  db : ∀ name rel, r.lookup name = some rel →
    ∃ file, d.dbs.lookup (dbName name) = some file ∧ SettledPages file rel.pages
  noFile : ∀ name, r.lookup name = none → ∀ file, d.dbs.lookup (dbName name) = some file →
    SettledPages file []
  texts : ∀ file ∈ d.texts, ∃ name, (r.lookup name).isSome ∧ file = metaName name
  stored : ∀ name rel, r.lookup name = some rel → rel.Stored
  names : ∀ name, (r.lookup name).isSome → Identifier name ∧ name ≠ []

namespace Engine

variable {ν : Type} {rt : Runtime ν} {e : Engine} {r : Relations} {d : Directory}
  {name : Bytes} {rel : Relation}

theorem saved_empty : Saved rt {} ∅ where
  text _ _ h := by cases h
  db _ _ h := by cases h
  noFile _ _ _ h := by cases h
  texts _ h := absurd h (AList.notMem_empty _)
  stored _ _ h := by cases h
  names _ h := by cases h

theorem mem_entries {β : Type*} {m : AList (fun _ : Bytes => β)} {t : Sigma fun _ : Bytes => β} :
    t ∈ m.entries ↔ m.lookup t.1 = some t.2 := AList.mem_lookup_iff.symm

theorem Represents.close (hrt : rt.Lawful) (h : Represents e r) :
    ∃ d, e.close rt = some d ∧ Saved rt d r := by
  have htable : ∀ name schema, e.catalog.tables.lookup name = some schema →
      ∃ rel, r.lookup name = some rel ∧ rel.schema = schema := by
    intro name schema hs
    rw [← Catalog.getTable, h.tables] at hs
    exact Option.map_eq_some_iff.1 hs
  have hheap : ∀ name s, e.heaps.lookup name = some s →
      ∃ rel, r.lookup name = some rel ∧ ResidentHeap s rel.pages := by
    intro name s hs
    cases hl : r.lookup name with
    | none =>
      rw [h.noHeap name hl] at hs
      cases hs
    | some rel =>
      obtain ⟨s', hs', hres⟩ := h.heaps name rel hl
      obtain rfl := Option.some.inj (hs'.symm.trans hs)
      exact ⟨rel, rfl, hres⟩
  have hwrite : ∀ t ∈ e.catalog.tables.entries, ∃ text,
      JsonFileRWer.write rt.toString (t.2.toJson rt.ofInt) = some text := fun _ _ => ⟨_, rfl⟩
  have hclose : ∀ t ∈ e.heaps.entries, ∃ file,
      (TableHeap.close t.2).map (fun u => u.disk.file) = some file := by
    intro t ht
    obtain ⟨rel, hl, hres⟩ := hheap _ _ (mem_entries.1 ht)
    obtain ⟨u, hu, _⟩ := hres.close (h.stored _ rel hl).roomy
    exact ⟨_, by rw [hu, Option.map_some]⟩
  obtain ⟨texts, htexts, htext, htframe⟩ := exists_storeAll
    (f := fun schema : Schema => JsonFileRWer.write rt.toString (schema.toJson rt.ofInt))
    metaName_injective e.catalog.tables.nodupKeys hwrite e.directory.texts
  obtain ⟨dbs, hdbs, hdb, hdframe⟩ := exists_storeAll
    (f := fun s : BufferPool poolSize => (TableHeap.close s).map (fun t => t.disk.file))
    dbName_injective e.heaps.nodupKeys hclose e.directory.dbs
  refine ⟨⟨texts, dbs⟩, by rw [Engine.close, htexts, Option.bind_some, hdbs, Option.map_some],
    fun name rel hl => ?_, fun name rel hl => ?_, fun name hl file hf => ?_, fun file hf => ?_,
    h.stored, h.names⟩
  · have hmem := mem_entries (t := ⟨name, rel.schema⟩).2 (h.getTable hl)
    obtain ⟨text, hw, ht⟩ := htext _ hmem
    refine ⟨text, ht, fun c => ?_⟩
    have hcols := (h.stored name rel hl).columns
    obtain ⟨text', v, hw', hr, hv⟩ := Schema.read_write hrt.text hrt.exact
      (fun c hc => (hcols c hc).1) (fun c hc => (hcols c hc).2) c .null
    obtain rfl : text' = text := Option.some.inj (hw'.symm.trans hw)
    exact ⟨v, hr, hv⟩
  · obtain ⟨s, hs, hres⟩ := h.heaps name rel hl
    obtain ⟨file, hfile, ht⟩ := hdb _ (mem_entries (t := ⟨name, s⟩).2 hs)
    obtain ⟨u, hu, hsaved⟩ := hres.close (h.stored name rel hl).roomy
    rw [hu, Option.map_some] at hfile
    exact ⟨file, ht, Option.some.inj hfile ▸ hsaved⟩
  · refine h.noFile name hl file ?_
    rw [← hdframe _ fun t ht heq => ?_]
    · exact hf
    obtain ⟨rel, hl', _⟩ := hheap _ _ (mem_entries.1 ht)
    rw [← dbName_injective heq, hl] at hl'
    cases hl'
  · by_cases hold : ∃ t ∈ e.catalog.tables.entries, file = metaName t.1
    · obtain ⟨t, ht, rfl⟩ := hold
      obtain ⟨rel, hl, _⟩ := htable _ _ (mem_entries.1 ht)
      exact ⟨t.1, by rw [hl]; rfl, rfl⟩
    · refine h.texts file ?_
      rw [← AList.lookup_isSome] at hf ⊢
      rwa [← htframe file fun t ht heq => hold ⟨t, ht, heq⟩]

end Engine

end Tadis
