import Tadis.Durability
import Tadis.Locality

/-!
# The order of the files

`recursive_directory_iterator` lists the files in no particular order. Two engines are alike if they
have the same tables and files; they answer alike, and what they leave is alike. So the order cannot be
told from what the shells print, nor from the files that they leave.
-/

namespace Tadis

structure Directory.Alike (d' d : Directory) : Prop where
  texts : ∀ file, d'.texts.lookup file = d.texts.lookup file
  dbs : ∀ file, d'.dbs.lookup file = d.dbs.lookup file

structure Engine.Alike (e' e : Engine) : Prop where
  tables : ∀ name, e'.catalog.getTable name = e.catalog.getTable name
  heaps : ∀ name, e'.heaps.lookup name = e.heaps.lookup name
  directory : e'.directory.Alike e.directory

theorem mem_congr {α : Type*} [DecidableEq α] {β : Type*} {m m' : AList (fun _ : α => β)}
    (h : ∀ k, m'.lookup k = m.lookup k) {k : α} : k ∈ m' ↔ k ∈ m := by
  rw [← AList.lookup_isSome, ← AList.lookup_isSome, h]

namespace Engine

variable {ν : Type} {rt : Runtime ν} {e e' e₁ : Engine} {lines : List Bytes} {outs : List Output}

theorem Alike.agree (h : e'.Alike e) : Agree (fun _ => True) e' e := fun name _ =>
  ⟨h.tables name, h.heaps name, h.directory.texts _, h.directory.dbs _⟩

theorem Alike.sameTables (h : e'.Alike e) (hI : e.SameTables) : e'.SameTables := by
  intro name
  rw [h.heaps, h.agree.hasTable trivial]
  exact hI name

theorem Alike.tablesName_eq (h : e'.Alike e) : e'.tablesName = e.tablesName :=
  sort_keys_congr fun _ => mem_congr h.tables

theorem Alike.runLine (hI : e.SameTables) (h : e'.Alike e) {line : Bytes} {out : Output}
    (hx : e.runLine rt line = some (out, e₁)) :
    ∃ e₁', e'.runLine rt line = some (out, e₁') ∧ e₁'.Alike e₁ := by
  by_cases hshow : line = str ".show tables"
  · have hhead : (str ".show tables").head? = some 0x2E := rfl
    rw [hshow, Engine.runLine, if_pos hhead, if_pos rfl] at hx
    rw [hshow, Engine.runLine, if_pos hhead, if_pos rfl]
    cases hx
    exact ⟨e', by rw [h.tablesName_eq], h⟩
  · obtain ⟨e₁', hx', h₁⟩ := h.agree.runLine (fun _ _ => trivial) hshow hx
    refine ⟨e₁', hx', fun name => (h₁ name trivial).schema, fun name => (h₁ name trivial).heap, ?_⟩
    rw [directory_runLine (h.sameTables hI) hx', directory_runLine hI hx]
    split
    · exact h.directory
    · rename_i table _
      rw [h.agree.hasTable trivial]
      split_ifs
      · exact ⟨fun _ => lookup_erase_congr (h.directory.texts _) _,
          fun _ => lookup_erase_congr (h.directory.dbs _) _⟩
      · exact h.directory

theorem Alike.mainLoop (hI : e.SameTables) (h : e'.Alike e)
    (hx : e.mainLoop rt lines = some (outs, e₁)) :
    ∃ e₁', e'.mainLoop rt lines = some (outs, e₁') ∧ e₁'.Alike e₁ := by
  induction lines generalizing e e' outs with
  | nil => cases hx
  | cons line lines ih =>
    rw [Engine.mainLoop] at hx ⊢
    split_ifs at hx ⊢
    · cases hx
      exact ⟨e', rfl, h⟩
    · obtain ⟨⟨out, e₂⟩, hline, hx⟩ := Option.bind_eq_some_iff.1 hx
      obtain ⟨⟨outs', e₃⟩, hlines, heq⟩ := Option.map_eq_some_iff.1 hx
      cases heq
      obtain ⟨e₂', hline', h₂⟩ := h.runLine hI hline
      obtain ⟨e₃', hlines', h₃⟩ := ih (hI.runLine hline) h₂ hlines
      refine ⟨e₃', ?_, h₃⟩
      rw [hline', Option.bind_some]
      dsimp only
      rw [hlines', Option.map_some]

end Engine

section

variable {β γ : Type*} {file : Bytes → Bytes} {f : β → Option γ} {m m' : AList (fun _ : Bytes => β)}
  {files files' fs : AList (fun _ : Bytes => γ)}

theorem exists_of_storeAll {ts : List (Sigma fun _ : Bytes => β)}
    (h : storeAll file f ts files = some fs) : ∀ t ∈ ts, ∃ c, f t.2 = some c := by
  induction ts generalizing files with
  | nil => simp
  | cons t ts ih =>
    obtain ⟨c, hc, h⟩ := Option.bind_eq_some_iff.1 h
    exact List.forall_mem_cons.2 ⟨⟨c, hc⟩, ih h⟩

/-- The order of the entries makes no difference. -/
theorem storeAll_congr (hinj : Function.Injective file) (hm : ∀ k, m'.lookup k = m.lookup k)
    (hfiles : ∀ k, files'.lookup k = files.lookup k)
    (h : storeAll file f m.entries files = some fs) :
    ∃ fs', storeAll file f m'.entries files' = some fs' ∧ ∀ k, fs'.lookup k = fs.lookup k := by
  have hmem : ∀ t, t ∈ m'.entries ↔ t ∈ m.entries := by
    intro t
    rw [Engine.mem_entries, Engine.mem_entries, hm]
  have hsome := exists_of_storeAll h
  obtain ⟨fs₁, h₁, hstored, hframe⟩ := exists_storeAll hinj m.nodupKeys hsome files
  obtain rfl := Option.some.inj (h₁.symm.trans h)
  obtain ⟨fs', h', hstored', hframe'⟩ := exists_storeAll hinj m'.nodupKeys
    (fun t ht => hsome t ((hmem t).1 ht)) files'
  refine ⟨fs', h', fun k => ?_⟩
  by_cases hk : ∃ t ∈ m.entries, k = file t.1
  · obtain ⟨t, ht, rfl⟩ := hk
    obtain ⟨c, hc, hl⟩ := hstored t ht
    obtain ⟨c', hc', hl'⟩ := hstored' t ((hmem t).2 ht)
    rw [hl, hl', ← hc, hc']
  · have hno : ∀ t ∈ m.entries, k ≠ file t.1 := fun t ht heq => hk ⟨t, ht, heq⟩
    rw [hframe k hno, hframe' k fun t ht => hno t ((hmem t).1 ht), hfiles]

end

namespace Engine

variable {ν : Type} {rt : Runtime ν} {ch : Bytes → UInt8} {e e' : Engine} {d d' : Directory}
  {file name : Bytes}

theorem Alike.close (h : e'.Alike e) (hd : e.close rt = some d) :
    ∃ d', e'.close rt = some d' ∧ d'.Alike d := by
  obtain ⟨texts, ht, hd⟩ := Option.bind_eq_some_iff.1 hd
  obtain ⟨dbs, hb, heq⟩ := Option.map_eq_some_iff.1 hd
  cases heq
  obtain ⟨texts', ht', htexts⟩ := storeAll_congr metaName_injective h.tables h.directory.texts ht
  obtain ⟨dbs', hb', hdbs⟩ := storeAll_congr dbName_injective h.heaps h.directory.dbs hb
  refine ⟨⟨texts', dbs'⟩, ?_, htexts, hdbs⟩
  rw [Engine.close, ht', Option.bind_some, hb', Option.map_some]

theorem storedTable_congr (h : d'.Alike d) (name : Bytes) :
    storedTable rt ch d' name = storedTable rt ch d name := by
  unfold storedTable
  rw [h.dbs, h.texts]

theorem loads_congr (h : d'.Alike d) : Loads rt ch d' file ↔ Loads rt ch d file := by
  unfold Loads
  simp only [storedTable_congr h]

theorem tableAmong_alike (h : d'.Alike d) (name : Bytes) :
    tableAmong rt ch d' d'.texts.keys name = tableAmong rt ch d d.texts.keys name := by
  have hmem : metaName name ∈ d'.texts.keys ↔ metaName name ∈ d.texts.keys := by
    rw [← AList.mem_keys, ← AList.mem_keys]
    exact mem_congr h.texts
  rw [tableAmong_congr hmem]
  unfold tableAmong
  rw [storedTable_congr h]

/-- Two orders of the same files start alike engines. -/
theorem alike_init {order order' : List Bytes → List Bytes} (hd : d'.Alike d)
    (horder : ∀ l, (order l).Perm l) (horder' : ∀ l, (order' l).Perm l)
    (h : Engine.init rt ch order d = some e) :
    ∃ e', Engine.init rt ch order' d' = some e' ∧ e'.Alike e := by
  have hloads := (init_some_iff horder).1 ⟨e, h⟩
  have hloads' : ∀ file ∈ d'.texts, Loads rt ch d' file := fun file hf =>
    (loads_congr hd).2 (hloads file ((mem_congr hd.texts).1 hf))
  obtain ⟨e', he'⟩ := (init_some_iff horder').2 hloads'
  have hheld := holds_init horder h
  have hheld' := holds_init horder' he'
  refine ⟨e', he', fun name => ?_, fun name => ?_, ?_⟩
  · rw [hheld'.tables, hheld.tables, tableAmong_alike hd]
  · rw [hheld'.heaps, hheld.heaps, tableAmong_alike hd]
  · rw [hheld'.directory, hheld.directory]
    exact hd

theorem Alike.killed (h : e'.Alike e) (hd : e.killed = some d) :
    ∃ d', e'.killed = some d' ∧ d'.Alike d := by
  obtain ⟨dbs, hb, heq⟩ := Option.map_eq_some_iff.1 hd
  cases heq
  obtain ⟨dbs', hb', hdbs⟩ := storeAll_congr dbName_injective h.heaps h.directory.dbs hb
  exact ⟨⟨e'.directory.texts, dbs'⟩, by rw [Engine.killed, hb', Option.map_some], h.directory.texts,
    hdbs⟩

theorem follows_runLine : Machine.Follows (Engine.runLine rt) (Engine.runLine rt)
    (fun e' e => e.SameTables ∧ e'.Alike e) (fun line' line => line' = line) := by
  rintro e' e line _ out e₁ ⟨hI, h⟩ rfl hx
  obtain ⟨e₁', hx', h₁⟩ := h.runLine hI hx
  exact ⟨e₁', hx', hI.runLine hx, h₁⟩

/-- The files may be listed in another order. -/
structure KillableSession.SameLines (se' se : KillableSession) : Prop where
  ch : se'.ch = se.ch
  lines : se'.lines = se.lines
  killed : se'.killed = se.killed

theorem follows_session : Machine.Follows (KillableSession.run rt) (KillableSession.run rt)
    Directory.Alike KillableSession.SameLines := by
  intro d' d se' se outs d₁ hd hse h
  unfold KillableSession.run ShellSession.run at h ⊢
  rw [hse.ch, hse.lines, hse.killed]
  split_ifs at h ⊢
  · obtain ⟨e, he, h⟩ := Option.bind_eq_some_iff.1 h
    obtain ⟨⟨outs', e₁⟩, hrun, h⟩ := Option.bind_eq_some_iff.1 h
    obtain ⟨d₂, hkilled, heq⟩ := Option.map_eq_some_iff.1 h
    cases heq
    obtain ⟨e', he', halike⟩ := alike_init hd se.perm se'.perm he
    obtain ⟨e₁', hrun', _, h₁⟩ := follows_runLine.run (List.forall₂_same.2 fun _ _ => rfl)
      ⟨sameTables_init he, halike⟩ hrun
    obtain ⟨d₂', hkilled', h₂⟩ := h₁.killed hkilled
    refine ⟨d₂', ?_, h₂⟩
    rw [he', Option.bind_some, hrun', Option.bind_some]
    dsimp only
    rw [hkilled', Option.map_some]
  · obtain ⟨e, he, h⟩ := Option.bind_eq_some_iff.1 h
    obtain ⟨⟨outs', e₁⟩, hmain, h⟩ := Option.bind_eq_some_iff.1 h
    obtain ⟨d₂, hclose, heq⟩ := Option.map_eq_some_iff.1 h
    cases heq
    obtain ⟨e', he', halike⟩ := alike_init hd se.perm se'.perm he
    obtain ⟨e₁', hmain', h₁⟩ := halike.mainLoop (sameTables_init he) hmain
    obtain ⟨d₂', hclose', h₂⟩ := h₁.close hclose
    refine ⟨d₂', ?_, h₂⟩
    rw [he', Option.bind_some, hmain', Option.bind_some]
    dsimp only
    rw [hclose', Option.map_some]

/-- From any directory and for any lines, sessions that list their files in another order print the same
and leave the same files. -/
theorem order_of_files_is_invisible {sessions sessions' : List KillableSession} (hd : d'.Alike d)
    (hlines : List.Forall₂ KillableSession.SameLines sessions' sessions) {outs : List (List Output)}
    {d₁ : Directory} (h : Machine.run (KillableSession.run rt) d sessions = some (outs, d₁)) :
    ∃ d₁', Machine.run (KillableSession.run rt) d' sessions' = some (outs, d₁') ∧ d₁'.Alike d₁ :=
  follows_session.run hlines hd h

def KillableSession.backwards (se : KillableSession) : KillableSession :=
  ⟨⟨List.reverse, List.reverse_perm, se.ch, se.lines⟩, se.killed⟩

theorem order_of_files_is_invisible_backwards : ∃ outs d d',
    Machine.run (KillableSession.run integral) {} killedSession = some (outs, d) ∧
      Machine.run (KillableSession.run integral) {} (killedSession.map KillableSession.backwards) =
        some (outs, d') := by
  have hok : Machine.Allowed (KillableSession.answers integral)
      (fun r se => se.toShellSession.Ok integral r) ∅ killedSession := by decide +kernel
  obtain ⟨d, hd, _⟩ := (implements_killableSessions lawful_integral).run saved_empty hok
  have hlines : List.Forall₂ KillableSession.SameLines
      (killedSession.map KillableSession.backwards) killedSession :=
    .cons ⟨rfl, rfl, rfl⟩ (.cons ⟨rfl, rfl, rfl⟩ (.cons ⟨rfl, rfl, rfl⟩ .nil))
  obtain ⟨d', hd', _⟩ := order_of_files_is_invisible ⟨fun _ => rfl, fun _ => rfl⟩ hlines hd
  exact ⟨_, d, d', hd, hd'⟩

end Engine

end Tadis
