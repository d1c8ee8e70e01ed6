import Tadis.EngineRestart
import Tadis.MetadataNames

/-!
# Starting the shell

The shell starts exactly if every file that it takes for metadata can be read. It then has the tables of
these files, in whatever order it comes across them.
-/

namespace Tadis.Engine

open Pson

variable {ν : Type} {rt : Runtime ν} {ch : Bytes → UInt8} {order : List Bytes → List Bytes}
  {d : Directory} {e e' : Engine} {done files : List Bytes} {file name : Bytes}

def storedTable (rt : Runtime ν) (ch : Bytes → UInt8) (d : Directory) (name : Bytes) :
    Option (Schema × BufferPool poolSize) :=
  (BufferPool.openFile poolSize ((d.dbs.lookup (dbName name)).getD File.absent)).bind (fun s =>
    (d.texts.lookup (metaName name)).bind (fun text =>
      (JsonFileRWer.read rt.strtod (ch (metaName name)) text .null).bind (fun x =>
        if x.1 then (Schema.fromJson rt.trunc ⟨[]⟩ x.2).map (fun schema => (schema, s)) else none)))

/-- The file is passed over, or it is the metadata of a table that can be read. -/
def Loads (rt : Runtime ν) (ch : Bytes → UInt8) (d : Directory) (file : Bytes) : Prop :=
  match Catalog.isJson (str "./" ++ file) with
  | none => False
  | some none => True
  | some (some name) => (storedTable rt ch d name).isSome

/-- The table of this name, if its metadata is among the files. -/
def tableAmong (rt : Runtime ν) (ch : Bytes → UInt8) (d : Directory) (files : List Bytes)
    (name : Bytes) : Option (Schema × BufferPool poolSize) :=
  if metaName name ∈ files ∧ Identifier name ∧ name ≠ [] then storedTable rt ch d name else none

/-- The engine has the tables of the files `done`. -/
structure Holds (rt : Runtime ν) (ch : Bytes → UInt8) (d : Directory) (done : List Bytes)
    (e : Engine) : Prop where
  directory : e.directory = d
  tables : ∀ name, e.catalog.getTable name = (tableAmong rt ch d done name).map Prod.fst
  heaps : ∀ name, e.heaps.lookup name = (tableAmong rt ch d done name).map Prod.snd

theorem holds_nil : Holds rt ch d [] { directory := d } :=
  ⟨rfl, fun _ => rfl, fun _ => rfl⟩

theorem tableAmong_congr (h : metaName name ∈ done ↔ metaName name ∈ files) :
    tableAmong rt ch d done name = tableAmong rt ch d files name := by
  simp only [tableAmong, h]

theorem tableAmong_cons_of_ne (h : metaName name ≠ file) :
    tableAmong rt ch d (file :: done) name = tableAmong rt ch d done name :=
  tableAmong_congr (by rw [List.mem_cons, or_iff_right h])

theorem loadFile_of_isJson (hdir : e.directory = d)
    (h : Catalog.isJson (str "./" ++ metaName name) = some (some name)) :
    e.loadFile rt ch (metaName name) = (storedTable rt ch d name).map (fun x =>
      { e with
        catalog := e.catalog.createTable name x.1.columns
        heaps := if (e.heaps.lookup name).isSome then e.heaps else e.heaps.insert name x.2 }) := by
  unfold loadFile storedTable
  rw [h]
  dsimp only
  rw [openHeap, hdir, Option.map_bind]
  refine congrArg _ (funext fun s => ?_)
  rw [Function.comp_apply, Option.map_bind]
  refine congrArg _ (funext fun text => ?_)
  rw [Function.comp_apply, Option.map_bind]
  refine congrArg _ (funext fun x => ?_)
  rw [Function.comp_apply]
  by_cases hok : x.1 = true
  · rw [if_pos hok, if_pos hok, Option.map_map]
    rfl
  · rw [if_neg hok, if_neg hok, Option.map_none]

theorem loadFile_eq_none (hdir : e.directory = d) (h : ¬ Loads rt ch d file) :
    e.loadFile rt ch file = none := by
  unfold Loads at h
  split at h
  · rename_i hjson
    rw [loadFile, hjson]
  · exact absurd trivial h
  · rename_i name hjson
    obtain ⟨rfl, _⟩ := Catalog.isJson_some_iff.1 hjson
    rw [loadFile_of_isJson hdir hjson, Option.not_isSome_iff_eq_none.1 h, Option.map_none]

theorem Holds.loadFile (h : Holds rt ch d done e) (hnew : file ∉ done) (hl : Loads rt ch d file) :
    ∃ e', e.loadFile rt ch file = some e' ∧ Holds rt ch d (file :: done) e' := by
  unfold Loads at hl
  split at hl
  · exact hl.elim
  · rename_i hjson
    have hother : ∀ name, tableAmong rt ch d (file :: done) name = tableAmong rt ch d done name := by
      intro name
      by_cases hfile : metaName name = file
      · have hno : ¬ (Identifier name ∧ name ≠ []) := by
          rintro ⟨hname, hne⟩
          rw [Catalog.isJson_some_iff.2 ⟨hfile.symm, hname, hne⟩] at hjson
          cases hjson
        unfold tableAmong
        rw [if_neg fun hc => hno hc.2, if_neg fun hc => hno hc.2]
      · exact tableAmong_cons_of_ne hfile
    refine ⟨e, by rw [Engine.loadFile, hjson], h.directory, fun name => ?_, fun name => ?_⟩
    · rw [hother, h.tables]
    · rw [hother, h.heaps]
  · rename_i name hjson
    obtain ⟨rfl, hname, hne⟩ := Catalog.isJson_some_iff.1 hjson
    obtain ⟨⟨schema, s⟩, hs⟩ := Option.isSome_iff_exists.1 hl
    have hnone : tableAmong rt ch d done name = none := if_neg fun hc => hnew hc.1
    have hsome : tableAmong rt ch d (metaName name :: done) name = some (schema, s) := by
      unfold tableAmong
      rw [if_pos ⟨List.mem_cons_self, hname, hne⟩, hs]
    have hheap : e.heaps.lookup name = none := by rw [h.heaps, hnone, Option.map_none]
    have htable : e.catalog.hasTable name = false := by
      rw [Catalog.hasTable, h.tables, hnone]
      rfl
    have hload : e.loadFile rt ch (metaName name) = _ := loadFile_of_isJson h.directory hjson
    rw [hs, Option.map_some] at hload
    refine ⟨_, hload, h.directory, fun m => ?_, fun m => ?_⟩
    · have hcatalog : e.catalog.createTable name schema.columns =
          ⟨e.catalog.tables.insert name schema⟩ := by
        rw [Catalog.createTable, htable]
        rfl
      dsimp only
      rw [hcatalog, Catalog.getTable, lookup_insert_eq]
      split_ifs with heq
      · rw [heq, hsome, Option.map_some]
      · rw [tableAmong_cons_of_ne fun hm => heq (metaName_injective hm), ← h.tables]
        rfl
    · dsimp only
      rw [hheap, if_neg (by simp), lookup_insert_eq]
      split_ifs with heq
      · rw [heq, hsome, Option.map_some]
      · rw [tableAmong_cons_of_ne fun hm => heq (metaName_injective hm), ← h.heaps]

theorem Holds.foldlM (h : Holds rt ch d done e) (hnodup : files.Nodup)
    (hnew : ∀ file ∈ files, file ∉ done) (hl : ∀ file ∈ files, Loads rt ch d file) :
    ∃ e', files.foldlM (Engine.loadFile rt ch) e = some e' ∧
      Holds rt ch d (files.reverse ++ done) e' := by
  induction files generalizing e done with
  | nil => exact ⟨e, rfl, h⟩
  | cons file files ih =>
    obtain ⟨hfile, hnodup⟩ := List.nodup_cons.1 hnodup
    obtain ⟨hfresh, hnew⟩ := List.forall_mem_cons.1 hnew
    obtain ⟨hload, hl⟩ := List.forall_mem_cons.1 hl
    obtain ⟨e₁, he₁, h₁⟩ := h.loadFile hfresh hload
    have hnew' : ∀ m ∈ files, m ∉ file :: done := by
      intro m hm hdone
      rcases List.mem_cons.1 hdone with rfl | hdone
      · exact hfile hm
      · exact hnew m hm hdone
    obtain ⟨e₂, he₂, h₂⟩ := ih h₁ hnodup hnew' hl
    refine ⟨e₂, ?_, by simpa using h₂⟩
    rw [List.foldlM_cons, he₁]
    exact he₂

theorem directory_loadFile (h : e.loadFile rt ch file = some e') : e'.directory = e.directory := by
  unfold Engine.loadFile at h
  split at h
  · cases h
  · cases h
    rfl
  · obtain ⟨u, _, h⟩ := Option.bind_eq_some_iff.1 h
    obtain ⟨text, _, h⟩ := Option.bind_eq_some_iff.1 h
    obtain ⟨⟨ok, v⟩, _, h⟩ := Option.bind_eq_some_iff.1 h
    dsimp only at h
    split_ifs at h
    all_goals
      obtain ⟨schema, _, rfl⟩ := Option.map_eq_some_iff.1 h
      rfl

theorem loads_of_foldlM (hdir : e.directory = d)
    (h : files.foldlM (Engine.loadFile rt ch) e = some e') : ∀ file ∈ files, Loads rt ch d file := by
  induction files generalizing e with
  | nil => simp
  | cons file files ih =>
    rw [List.foldlM_cons] at h
    obtain ⟨e₁, h₁, h⟩ := Option.bind_eq_some_iff.1 h
    refine List.forall_mem_cons.2 ⟨?_, ih ((directory_loadFile h₁).trans hdir) h⟩
    by_contra hno
    rw [loadFile_eq_none hdir hno] at h₁
    cases h₁

theorem init_some_iff (horder : ∀ l, (order l).Perm l) :
    (∃ e, Engine.init rt ch order d = some e) ↔ ∀ file ∈ d.texts, Loads rt ch d file := by
  have hmem : ∀ file, file ∈ order d.texts.keys ↔ file ∈ d.texts := by
    intro file
    rw [(horder _).mem_iff, AList.mem_keys]
  refine ⟨fun ⟨e, h⟩ file hf => loads_of_foldlM rfl h file ((hmem file).2 hf), fun h => ?_⟩
  obtain ⟨e, he, _⟩ := holds_nil.foldlM ((horder _).nodup_iff.2 d.texts.keys_nodup) (by simp)
    fun file hf => h file ((hmem file).1 hf)
  exact ⟨e, he⟩

theorem holds_init (horder : ∀ l, (order l).Perm l) (h : Engine.init rt ch order d = some e) :
    Holds rt ch d d.texts.keys e := by
  obtain ⟨e', he', hheld⟩ := holds_nil.foldlM ((horder _).nodup_iff.2 d.texts.keys_nodup) (by simp)
    (loads_of_foldlM rfl h)
  obtain rfl := Option.some.inj (he'.symm.trans h)
  have heq : ∀ name, tableAmong rt ch d ((order d.texts.keys).reverse ++ []) name =
      tableAmong rt ch d d.texts.keys name := fun name =>
    tableAmong_congr (by rw [List.append_nil, List.mem_reverse, (horder _).mem_iff])
  exact ⟨hheld.directory, fun name => heq name ▸ hheld.tables name,
    fun name => heq name ▸ hheld.heaps name⟩

/-- The shell starts exactly if every file is passed over or can be loaded. It then has exactly the
tables whose metadata is there, with what their files hold. -/
theorem start_iff (horder : ∀ l, (order l).Perm l) :
    ((∃ e, Engine.init rt ch order d = some e) ↔ ∀ file ∈ d.texts, Loads rt ch d file) ∧
      ∀ e, Engine.init rt ch order d = some e → Holds rt ch d d.texts.keys e :=
  ⟨init_some_iff horder, fun _ h => holds_init horder h⟩

/-- One character other than the point between a word and `json` stops the start. -/
theorem start_stopped : ¬ ∃ e, Engine.init integral (fun _ => 0) List.reverse
    { texts := AList.singleton (str "a_json") [] } = some e := by
  rw [(start_iff fun l => l.reverse_perm).1]
  intro h
  exact h (str "a_json") (AList.mem_keys.1 List.mem_cons_self)

end Tadis.Engine
