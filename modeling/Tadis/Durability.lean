import Tadis.EngineInvariants

/-!
# Shells that are killed

Metadata and pages are written when the shell is left, and only a dropped table loses its files at
once. A shell that is killed between two lines thus leaves the tables that were there when it was
started, less those that it has dropped. The heap files of tables that it has created stay behind,
without pages, and do no harm.
-/

namespace Tadis

variable {ν : Type} {rt : Runtime ν}

def droppedBy (rt : Runtime ν) (line : Bytes) : Option Bytes :=
  if line.head? = some 0x2E then none
  else
    match Parser.doParse rt.stof line with
    | some (.ok (.drop s, _)) => some s.table
    | _ => none

def Relations.undropped (rt : Runtime ν) (r : Relations) (line : Bytes) : Relations :=
  match droppedBy rt line with
  | none => r
  | some table => r.erase table

def Directory.erase (d : Directory) (name : Bytes) : Directory :=
  ⟨d.texts.erase (metaName name), d.dbs.erase (dbName name)⟩

/-- The files as they are while the shell waits for a line. -/
def Engine.killed (e : Engine) : Option Directory :=
  (storeAll dbName (fun s : BufferPool poolSize => some s.disk.file) e.heaps.entries
    e.directory.dbs).map (fun dbs => ⟨e.directory.texts, dbs⟩)

namespace Engine

open TableHeap

variable {e e' : Engine} {r r₀ : Relations} {d : Directory} {name line : Bytes} {out : Output}
  {lines : List Bytes}

theorem Represents.sameTables (h : Represents e r) : e.SameTables := by
  intro name
  rw [h.hasTable_eq]
  cases hl : r.lookup name with
  | none => rw [h.noHeap name hl]; rfl
  | some rel =>
    obtain ⟨s, hs, _⟩ := h.heaps name rel hl
    rw [hs]
    rfl

theorem directory_drop {floatSub : UInt32 → UInt32 → ℤ} {s : DropStmt} {sql : Bytes}
    {res : QueryResult} (h : e.executeStmt floatSub sql (.drop s) = some (res, e')) :
    e'.directory =
      if e.catalog.hasTable s.table then e.directory.erase s.table else e.directory := by
  have hstart := start_drop e s
  split_ifs with htable
  · cases hd : e.dropTable s.table with
    | none =>
      rw [executeStmt_none hstart (by rw [Running.next, if_pos htable, hd]; rfl)] at h
      cases h
    | some e₁ =>
      have hnext : Running.next floatSub { engine := e } (.dropTable ⟨s.table⟩) =
          some (.error .outOfRange, { engine := e₁ }) := by
        rw [Running.next, if_pos htable, hd]
        rfl
      obtain ⟨_, rfl⟩ := executeStmt_stop hstart hnext h
      obtain ⟨_, rfl⟩ := dropTable_some hd
      rfl
  · obtain ⟨_, rfl⟩ := executeStmt_stop hstart (if_neg htable) h
    rfl

theorem Change.directory {stmt : QueryStmt} {rc : RC} (h : Change e stmt rc e')
    (hdrop : ∀ s, stmt ≠ .drop s) : e'.directory = e.directory := by
  cases h with
  | refused => rfl
  | scanned => rfl
  | inserted => rfl
  | created h =>
    obtain ⟨_, u, rfl⟩ := createTable_some h
    rfl
  | @dropped s => exact absurd rfl (hdrop s)

theorem directory_runLine (hI : e.SameTables) (h : e.runLine rt line = some (out, e')) :
    e'.directory = match droppedBy rt line with
      | none => e.directory
      | some table =>
        if e.catalog.hasTable table then e.directory.erase table else e.directory := by
  unfold runLine at h
  unfold droppedBy
  split_ifs at h ⊢ with hdot hshow
  · cases h
    rfl
  · cases h
    rfl
  · obtain ⟨⟨res, e₁⟩, hexec, h⟩ := Option.bind_eq_some_iff.1 h
    obtain ⟨_, _, h⟩ := Option.map_eq_some_iff.1 h
    cases h
    unfold executeSql at hexec
    split at hexec
    · cases hexec
    · rename_i rc hparse
      rw [hparse]
      cases hexec
      rfl
    · rename_i stmt l hparse
      rw [hparse]
      cases stmt with
      | drop s => exact directory_drop hexec
      | select s => exact (executeStmt_change hI hexec).directory (by simp)
      | delete s => exact (executeStmt_change hI hexec).directory (by simp)
      | insert s => exact (executeStmt_change hI hexec).directory (by simp)
      | createTable s => exact (executeStmt_change hI hexec).directory (by simp)

theorem lookup_undropped (rt : Runtime ν) (r : Relations) (line m : Bytes) :
    (r.undropped rt line).lookup m = if droppedBy rt line = some m then none else r.lookup m := by
  unfold Relations.undropped
  cases hd : droppedBy rt line with
  | none => rfl
  | some name =>
    dsimp only
    rw [lookup_erase_eq]
    by_cases hm : m = name
    · rw [if_pos hm, if_pos (by rw [hm])]
    · rw [if_neg hm, if_neg fun heq => hm (Option.some.inj heq).symm]

theorem lookup_of_runLine (hnone : (r.runLine rt line).2.lookup name = none) :
    r.lookup name = none ∨ droppedBy rt line = some name := by
  unfold Relations.runLine at hnone
  unfold droppedBy
  split_ifs at hnone ⊢ with hdot hshow
  · exact .inl hnone
  · exact .inl hnone
  · split at hnone
    · rename_i stmt l hparse
      rw [hparse]
      dsimp only at hnone
      unfold Relations.execute at hnone
      cases stmt with
      | select s => exact .inl hnone
      | delete s => exact .inl hnone
      | insert s =>
        dsimp only at hnone
        split at hnone
        · exact .inl hnone
        · split_ifs at hnone
          · rw [lookup_insert_eq] at hnone
            split_ifs at hnone
            exact .inl hnone
          · exact .inl hnone
      | createTable s =>
        dsimp only at hnone
        split_ifs at hnone
        · exact .inl hnone
        · rw [lookup_insert_eq] at hnone
          split_ifs at hnone
          exact .inl hnone
      | drop s =>
        dsimp only at hnone ⊢
        split_ifs at hnone
        · rw [lookup_erase_eq] at hnone
          split_ifs at hnone with hname
          · exact .inr (by rw [hname])
          · exact .inl hnone
        · exact .inl hnone
    · exact .inl hnone
    · exact .inl hnone

theorem Saved.congr (h : Saved rt d r₀) (hr : ∀ m, r.lookup m = r₀.lookup m) : Saved rt d r where
  text m rel hm := h.text m rel (hr m ▸ hm)
  db m rel hm := h.db m rel (hr m ▸ hm)
  noFile m hm := h.noFile m (hr m ▸ hm)
  texts file hf := by
    obtain ⟨m, hm, rfl⟩ := h.texts file hf
    exact ⟨m, by rwa [hr], rfl⟩
  stored m rel hm := h.stored m rel (hr m ▸ hm)
  names m hm := h.names m (hr m ▸ hm)

theorem Saved.erase (h : Saved rt d r₀) (hr : ∀ m, r.lookup m = if m = name then none else r₀.lookup m) :
    Saved rt (d.erase name) r := by
  have hsome : ∀ m rel, r.lookup m = some rel → m ≠ name ∧ r₀.lookup m = some rel := by
    intro m rel hm
    rw [hr] at hm
    split_ifs at hm with hname
    exact ⟨hname, hm⟩
  have htext := fun m => lookup_erase_eq d.texts (metaName name) (metaName m)
  have hdb := fun m => lookup_erase_eq d.dbs (dbName name) (dbName m)
  simp only [metaName_injective.eq_iff] at htext
  simp only [dbName_injective.eq_iff] at hdb
  refine ⟨fun m rel hm => ?_, fun m rel hm => ?_, fun m hm file hf => ?_, fun file hf => ?_,
    fun m rel hm => h.stored m rel (hsome m rel hm).2, fun m hm => ?_⟩
  · obtain ⟨hne, hm⟩ := hsome m rel hm
    rw [Directory.erase, htext, if_neg hne]
    exact h.text m rel hm
  · obtain ⟨hne, hm⟩ := hsome m rel hm
    rw [Directory.erase, hdb, if_neg hne]
    exact h.db m rel hm
  · rw [Directory.erase, hdb] at hf
    split_ifs at hf with hname
    rw [hr, if_neg hname] at hm
    exact h.noFile m hm file hf
  · obtain ⟨hne, hf⟩ := AList.mem_erase.1 hf
    obtain ⟨m, hm, rfl⟩ := h.texts file hf
    refine ⟨m, ?_, rfl⟩
    rwa [hr, if_neg fun heq => hne (congrArg metaName heq)]
  · obtain ⟨rel, hm⟩ := Option.isSome_iff_exists.1 hm
    exact h.names m (by rw [(hsome m rel hm).2]; rfl)

/-- While the shell runs, its directory still holds `r₀`. -/
structure Keeps (rt : Runtime ν) (e : Engine) (r r₀ : Relations) : Prop where
  represents : Represents e r
  saved : Saved rt e.directory r₀
  dropped : ∀ name, r.lookup name = none → r₀.lookup name = none

theorem Keeps.runLine (h : Keeps rt e r r₀) (hok : r.LineOk rt line) :
    ∃ e', e.runLine rt line = some ((r.runLine rt line).1, e') ∧
      Keeps rt e' (r.runLine rt line).2 (r₀.undropped rt line) := by
  obtain ⟨e', he', hrep⟩ := implements_runLine e r line h.represents hok
  have hdir := directory_runLine h.represents.sameTables he'
  have hlookup := lookup_undropped rt r₀ line
  refine ⟨e', he', hrep, ?_, fun m hm => ?_⟩
  · rw [hdir]
    cases hd : droppedBy rt line with
    | none => exact h.saved.congr fun m => by rw [hlookup, hd, if_neg (by simp)]
    | some name =>
      have herase : ∀ m, (r₀.undropped rt line).lookup m = if m = name then none else r₀.lookup m := by
        intro m
        rw [hlookup, hd]
        simp only [Option.some.injEq, eq_comm]
      dsimp only
      rw [h.represents.hasTable_eq]
      split_ifs with hname
      · exact h.saved.erase herase
      · refine h.saved.congr fun m => ?_
        rw [herase]
        split_ifs with hm
        · rw [hm, h.dropped name (Option.not_isSome_iff_eq_none.1 hname)]
        · rfl
  · rw [hlookup]
    split_ifs with hd
    · rfl
    · exact h.dropped m ((lookup_of_runLine hm).resolve_right hd)

theorem Keeps.run (h : Keeps rt e r r₀)
    (hok : Machine.Allowed (Relations.runLine rt) (Relations.LineOk rt) r lines) :
    ∃ e', Machine.run (Engine.runLine rt) e lines =
        some ((Machine.answers (Relations.runLine rt) r lines).1, e') ∧
      Keeps rt e' (Machine.answers (Relations.runLine rt) r lines).2
        (lines.foldl (Relations.undropped rt) r₀) := by
  induction lines generalizing e r r₀ with
  | nil => exact ⟨e, rfl, h⟩
  | cons line lines ih =>
    obtain ⟨e₁, h₁, hkeeps⟩ := h.runLine hok.1
    obtain ⟨e₂, h₂, hkeeps'⟩ := ih hkeeps hok.2
    refine ⟨e₂, ?_, hkeeps'⟩
    rw [Machine.run, h₁, Option.bind_some, h₂, Option.map_some]
    rfl

/-- The heap files of the tables that are open are those from the start, or have no pages. -/
theorem Keeps.killed (h : Keeps rt e r r₀) : ∃ d, e.killed = some d ∧ Saved rt d r₀ := by
  obtain ⟨dbs, hdbs, hstored, hframe⟩ := exists_storeAll
    (f := fun s : BufferPool poolSize => some s.disk.file) dbName_injective e.heaps.nodupKeys
    (fun _ _ => ⟨_, rfl⟩) e.directory.dbs
  have hfile : ∀ name, dbs.lookup (dbName name) = e.directory.dbs.lookup (dbName name) ∨
      dbs.lookup (dbName name) = some (e.directory.heapFile name) := by
    intro name
    cases hs : e.heaps.lookup name with
    | some s =>
      obtain ⟨file, hf, hl⟩ := hstored _ (mem_entries (t := ⟨name, s⟩).2 hs)
      rw [← h.represents.files name s hs, Option.some.inj hf]
      exact .inr hl
    | none =>
      refine .inl (hframe _ fun t ht heq => ?_)
      rw [dbName_injective heq, mem_entries.1 ht] at hs
      cases hs
  refine ⟨⟨e.directory.texts, dbs⟩, by rw [Engine.killed, hdbs, Option.map_some], h.saved.text,
    fun name rel hl => ?_, fun name hl file hf => ?_, h.saved.texts, h.saved.stored, h.saved.names⟩
  · obtain ⟨file, hf, hsettled⟩ := h.saved.db name rel hl
    refine ⟨file, ?_, hsettled⟩
    rcases hfile name with heq | heq <;> dsimp only <;> rw [heq]
    · exact hf
    · rw [Directory.heapFile, hf, Option.getD_some]
  · dsimp only at hf
    rcases hfile name with heq | heq <;> rw [heq] at hf
    · exact h.saved.noFile name hl file hf
    · obtain rfl := Option.some.inj hf
      unfold Directory.heapFile
      cases hd : e.directory.dbs.lookup (dbName name) with
      | none => exact settledPages_freshPool 15
      | some file => exact h.saved.noFile name hl file hd

/-- A session that is left with `.quit`, or killed while it waits for the line after the last. -/
structure KillableSession extends ShellSession where
  killed : Bool

def KillableSession.run (rt : Runtime ν) (d : Directory) (se : KillableSession) :
    Option (List Output × Directory) :=
  if se.killed then
    (Engine.init rt se.ch se.order d).bind (fun e =>
      (Machine.run (Engine.runLine rt) e se.lines).bind (fun (outs, e) =>
        e.killed.map (fun d => (outs, d))))
  else se.toShellSession.run rt d

/-- A session that is killed has only dropped tables. -/
def KillableSession.answers (rt : Runtime ν) (r : Relations) (se : KillableSession) :
    List Output × Relations :=
  let (outs, r') := se.toShellSession.answers rt r
  (outs, if se.killed then se.lines.foldl (Relations.undropped rt) r else r')

theorem implements_killableSessions (hrt : rt.Lawful) :
    Machine.Implements (KillableSession.run rt) (KillableSession.answers rt)
      (fun r se => se.toShellSession.Ok rt r) (Saved rt) := by
  rintro d r ⟨se, killed⟩ hd hok
  cases killed with
  | false => exact implements_sessions hrt d r se hd hok
  | true =>
    obtain ⟨e, he, hrep, rfl⟩ := hd.init se.ch se.perm
    obtain ⟨e', hrun, hkeeps⟩ := Keeps.run ⟨hrep, hd, fun _ h => h⟩ hok
    obtain ⟨d', hd', hsaved⟩ := hkeeps.killed
    refine ⟨d', ?_, hsaved⟩
    rw [KillableSession.run, if_pos rfl, he, Option.bind_some, hrun, Option.bind_some]
    dsimp only
    rw [hd', Option.map_some]
    rfl

/-- The second session is killed: its row is lost, and so is its table, but not its `DROP`. -/
def killedSession : List KillableSession :=
  [⟨⟨id, List.Perm.refl, fun _ => 0, [str "CREATE TABLE t (a INT);",
      str "INSERT INTO t VALUES (7);", str "CREATE TABLE s (d INT);"]⟩, false⟩,
    ⟨⟨id, List.Perm.refl, fun _ => 0, [str "INSERT INTO t VALUES (8);", str "DROP TABLE s;",
      str "CREATE TABLE u (c INT);", str "INSERT INTO u VALUES (1);", str ".show tables"]⟩, true⟩,
    ⟨⟨id, List.Perm.refl, fun _ => 0, [str ".show tables", str "SELECT * FROM t;",
      str "CREATE TABLE u (c INT);", str "SELECT * FROM u;"]⟩, false⟩]

end Engine

end Tadis
