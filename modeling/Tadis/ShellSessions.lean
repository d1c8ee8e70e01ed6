import Tadis.Startup

/-!
# Shell sessions

A session starts the shell in a directory, answers its lines and leaves the shell with `.quit`. Any
number of sessions answers as the relations do.
-/

namespace Tadis.Engine

open TableHeap

variable {ν : Type} {rt : Runtime ν} {r : Relations} {d : Directory} {name : Bytes} {rel : Relation}
  {order : List Bytes → List Bytes}

theorem Saved.exists_storedTable (hd : Saved rt d r) (hl : r.lookup name = some rel)
    (ch : Bytes → UInt8) : ∃ s, storedTable rt ch d name = some (rel.schema, s) ∧
      ResidentHeap s rel.pages ∧ s.disk.file = d.heapFile name := by
  obtain ⟨file, hfile, hsettled⟩ := hd.db name rel hl
  obtain ⟨s, hs, hres⟩ := hsettled.saved 15
  obtain ⟨text, htext, hread⟩ := hd.text name rel hl
  obtain ⟨v, hv, hschema⟩ := hread (ch (metaName name))
  refine ⟨s, ?_, hres, ?_⟩
  · have hopen : BufferPool.openFile poolSize file = some s := hs
    rw [storedTable, hfile, Option.getD_some, hopen, Option.bind_some, htext, Option.bind_some, hv,
      Option.bind_some, if_pos rfl, hschema, Option.map_some]
  · rw [hsettled.open_file hs, Directory.heapFile, hfile, Option.getD_some]

theorem Saved.loads (hd : Saved rt d r) (ch : Bytes → UInt8) {file : Bytes} (hf : file ∈ d.texts) :
    Loads rt ch d file := by
  obtain ⟨name, hsome, rfl⟩ := hd.texts file hf
  obtain ⟨rel, hl⟩ := Option.isSome_iff_exists.1 hsome
  obtain ⟨hname, hne⟩ := hd.names name hsome
  obtain ⟨s, hs, _⟩ := hd.exists_storedTable hl ch
  rw [Loads, Catalog.isJson_metaName hname hne]
  dsimp only
  rw [hs]
  rfl

theorem Saved.tableAmong_some (hd : Saved rt d r) (hl : r.lookup name = some rel)
    (ch : Bytes → UInt8) : ∃ s, tableAmong rt ch d d.texts.keys name = some (rel.schema, s) ∧
      ResidentHeap s rel.pages ∧ s.disk.file = d.heapFile name := by
  obtain ⟨s, hs, hres, hfile⟩ := hd.exists_storedTable hl ch
  obtain ⟨text, htext, _⟩ := hd.text name rel hl
  have hmem : metaName name ∈ d.texts := AList.lookup_isSome.1 (by rw [htext]; rfl)
  refine ⟨s, ?_, hres, hfile⟩
  rw [tableAmong, if_pos ⟨AList.mem_keys.1 hmem, hd.names name (by rw [hl]; rfl)⟩, hs]

theorem Saved.tableAmong_none (hd : Saved rt d r) (hl : r.lookup name = none) (ch : Bytes → UInt8) :
    tableAmong rt ch d d.texts.keys name = none := by
  refine if_neg fun hc => ?_
  obtain ⟨name', hsome, heq⟩ := hd.texts _ (AList.mem_keys.2 hc.1)
  rw [← metaName_injective heq, hl] at hsome
  cases hsome

theorem Saved.init (hd : Saved rt d r) (ch : Bytes → UInt8) (horder : ∀ l, (order l).Perm l) :
    ∃ e, Engine.init rt ch order d = some e ∧ Represents e r ∧ e.directory = d := by
  obtain ⟨e, he⟩ := (init_some_iff horder).2 fun file hf => hd.loads ch hf
  have hheld := holds_init horder he
  refine ⟨e, he, ⟨fun name => ?_, fun name rel hl => ?_, fun name hl => ?_, fun name s hs => ?_,
    ?_, ?_, hd.stored, hd.names⟩, hheld.directory⟩
  · rw [hheld.tables]
    cases hl : r.lookup name with
    | none => rw [hd.tableAmong_none hl, Option.map_none, Option.map_none]
    | some rel =>
      obtain ⟨s, hs, _⟩ := hd.tableAmong_some hl ch
      rw [hs, Option.map_some, Option.map_some]
  · obtain ⟨s, hs, hres, _⟩ := hd.tableAmong_some hl ch
    exact ⟨s, by rw [hheld.heaps, hs, Option.map_some], hres⟩
  · rw [hheld.heaps, hd.tableAmong_none hl, Option.map_none]
  · rw [hheld.heaps] at hs
    rw [hheld.directory]
    cases hl : r.lookup name with
    | none =>
      rw [hd.tableAmong_none hl] at hs
      cases hs
    | some rel =>
      obtain ⟨s', hs', _, hfile⟩ := hd.tableAmong_some hl ch
      rw [hs'] at hs
      cases hs
      exact hfile
  · rw [hheld.directory]
    exact hd.noFile
  · rw [hheld.directory]
    exact hd.texts

/-- The directory is listed in some order, and the byte that is taken behind the end of a metadata file
is any. -/
structure ShellSession where
  order : List Bytes → List Bytes
  perm : ∀ l, (order l).Perm l
  ch : Bytes → UInt8
  lines : List Bytes

/-- The lines and `.quit`. -/
def ShellSession.run (rt : Runtime ν) (d : Directory) (se : ShellSession) :
    Option (List Output × Directory) :=
  (Engine.init rt se.ch se.order d).bind (fun e =>
    (e.mainLoop rt (se.lines ++ [str ".quit"])).bind (fun (outs, e) =>
      (e.close rt).map (fun d => (outs, d))))

def ShellSession.answers (rt : Runtime ν) (r : Relations) (se : ShellSession) :
    List Output × Relations :=
  Machine.answers (Relations.runLine rt) r se.lines

def ShellSession.Ok (rt : Runtime ν) (r : Relations) (se : ShellSession) : Prop :=
  Machine.Allowed (Relations.runLine rt) (Relations.LineOk rt) r se.lines

instance (rt : Runtime ν) (r : Relations) (se : ShellSession) : Decidable (se.Ok rt r) :=
  inferInstanceAs (Decidable (Machine.Allowed _ _ _ _))

theorem implements_sessions (hrt : rt.Lawful) :
    Machine.Implements (ShellSession.run rt) (ShellSession.answers rt)
      (fun r se => se.Ok rt r) (Saved rt) := by
  rintro d r se hd hok
  obtain ⟨e, he, hrep, _⟩ := hd.init se.ch se.perm
  obtain ⟨e', hrun, hrep'⟩ := implements_runLine.run hrep hok
  obtain ⟨d', hd', hsaved⟩ := hrep'.close hrt
  refine ⟨d', ?_, hsaved⟩
  rw [ShellSession.run, he, Option.bind_some, mainLoop_eq (ne_quit_of_allowed hok), hrun,
    Option.bind_some]
  dsimp only
  rw [hd', Option.map_some]
  rfl

/-- The first query leaves its scanner behind. The second session lists its files backwards. -/
def twoSessions : List ShellSession :=
  [⟨id, fun _ => .refl _, fun _ => 0, [str "CREATE TABLE t (a INT, b CHAR(2));",
      str "INSERT INTO t VALUES (7, 'xy');", str "SELECT c FROM t;",
      str "CREATE TABLE s (d VARCHAR(9));"]⟩,
    ⟨List.reverse, List.reverse_perm, fun _ => 0x7D, [str ".show tables",
      str "SELECT b, a FROM t WHERE a > 1;", str "DROP TABLE s;", str "SELECT d FROM s;"]⟩]

/-- Where the shell is left and started again between the lines makes no difference. -/
theorem restarts_are_transparent (hrt : rt.Lawful) {sessions sessions' : List ShellSession}
    (hlines : sessions.flatMap ShellSession.lines = sessions'.flatMap ShellSession.lines)
    (h : Machine.Allowed (ShellSession.answers rt) (fun r se => se.Ok rt r) ∅ sessions) :
    ∃ outs outs' d d' r, Machine.run (ShellSession.run rt) {} sessions = some (outs, d) ∧
      Machine.run (ShellSession.run rt) {} sessions' = some (outs', d') ∧
      outs.flatten = outs'.flatten ∧ Saved rt d r ∧ Saved rt d' r := by
  have h' : Machine.Allowed (ShellSession.answers rt) (fun r se => se.Ok rt r) ∅ sessions' := by
    refine Machine.allowed_batches.2 ?_
    rw [← hlines]
    exact Machine.allowed_batches.1 h
  obtain ⟨d, hrun, hd⟩ := (implements_sessions hrt).run saved_empty h
  obtain ⟨d', hrun', hd'⟩ := (implements_sessions hrt).run saved_empty h'
  have hbatches := Machine.answers_batches (Relations.runLine rt) ShellSession.lines ∅ sessions
  rw [hlines, Machine.answers_batches] at hbatches
  obtain ⟨houts, hr⟩ := Prod.mk.inj hbatches
  exact ⟨_, _, d, d', _, hrun, hrun', houts.symm, hr ▸ hd, hd'⟩

/-- `restarts_are_transparent` for a restart between two lines. -/
theorem restart_between_two_lines :
    let line := str "CREATE TABLE t (a INT);"
    let line' := str "SELECT * FROM t;"
    let session := fun lines => (⟨id, List.Perm.refl, fun _ => 0, lines⟩ : ShellSession)
    ∃ outs outs' d d' r,
      Machine.run (ShellSession.run integral) {} [session [line, line']] = some (outs, d) ∧
      Machine.run (ShellSession.run integral) {} [session [line], session [line']] =
        some (outs', d') ∧
      outs.flatten = outs'.flatten ∧ Saved integral d r ∧ Saved integral d' r :=
  restarts_are_transparent lawful_integral rfl (by decide +kernel)

end Tadis.Engine
