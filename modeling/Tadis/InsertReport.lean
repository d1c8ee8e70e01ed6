import Tadis.ColumnList
import Tadis.TableState

/-!
# What an `INSERT` reports

`InsertExecuter::next` drops what the heap returns and always stops with `OUT_OF_RANGE`, the code of a
stream that has come to its end, which `execute_sql` shows as a success. The report is therefore
right exactly when the heap finds room for the row.
-/

namespace Tadis.TableHeap

open BufferPool

attribute [local irreducible] RecordPage.formatted

variable {n : ℕ} {s s' t u : BufferPool n} {f : Fin n} {record : Record} {slots : List Slot} {pid : ℕ}

/-- `InsertExecuter::next`. -/
def insertNext (s : BufferPool n) (e : InsertExecuter) : Option (RC × BufferPool n) :=
  (Tuple.createTuple e.values e.schema).bind (fun t =>
    (TableHeap.insert s { data := t.data }).map (fun r => (.outOfRange, r.2)))

/-- The code that `execute_sql` shows once `next` has returned `rc`. -/
def shownRc (rc : RC) : RC := if rc ≠ .outOfRange then rc else .success

/-- `next` returns. With `OUT_OF_RANGE` the heap has taken the row, which is then a live record; a row
that the heap has not taken is shown as a failure. -/
def HonestReport (s : BufferPool n) (e : InsertExecuter) : Prop :=
  ∃ t rid rc s', Tuple.createTuple e.values e.schema = some t ∧
    TableHeap.insert s { data := t.data } = some (rid, s') ∧ insertNext s e = some (rc, s') ∧
    (rc = .outOfRange → ∃ r, rid = some r ∧
      storedRecord s' r = some (true, { rid := r, data := t.data })) ∧
    (rid = none → rcSuccess (shownRc rc) = false)

/-- There is an id to allocate, and a frame for it once the page that is tried first has been put
back. -/
def AllocatesNext (s : BufferPool n) : Prop :=
  s.chosenId ≠ none ∧ ¬ (s.freeList = [] ∧ NoVictim s)

/-- The record goes into a new page if there is no current page. Else the current page can be loaded
and takes the record, or refuses it and a new page takes it. -/
def FindsRoom (s : BufferPool n) (len : ℕ) : Prop :=
  (NoCurrentPage s ∧ AllocatesNext s ∧ Fits [] len) ∨
    (¬ NoCurrentPage s ∧
      (s.dir.lookup s.currentPid ≠ none ∨ s.freeList ≠ [] ∨ s.replacer.items ≠ []) ∧
      ∃ slots, HasSlots (pageBytes s s.currentPid) slots ∧ len < freeEnd slots ∧
        (Fits slots len ∨ (AllocatesNext s ∧ Fits [] len)))

theorem newPage_ne_none_iff : s.newPage.1 ≠ none ↔ s.chosenId ≠ none ∧ s.victim ≠ none := by
  rw [Ne, newPage_fst_eq_none_iff, ← chosenId_eq_none_iff, not_or]

theorem chosenId_congr (hhead : t.head = s.head) (hnext : t.disk.nextPid = s.disk.nextPid) :
    t.chosenId = s.chosenId := by
  unfold chosenId
  rw [reusableId_congr hhead hnext, hnext]

theorem allocatesNext_iff_of_noCurrentPage (hc : NoCurrentPage s) :
    AllocatesNext s ↔ s.newPage.1 ≠ none := by
  rw [newPage_ne_none_iff, AllocatesNext, Ne, Ne, victim_eq_none_iff, NoVictim]
  simp [hc]

theorem allocatesNext_iff_refused (hc : ¬ NoCurrentPage s)
    (hf : s.fetch s.currentPid = (some f, u)) :
    AllocatesNext s ↔ (refused u s.currentPid f).newPage.1 ≠ none := by
  have hhead := fetch_head s s.currentPid
  have hnext := fetch_nextPid (s := s) s.currentPid
  rw [hf] at hhead hnext
  have hid : (refused u s.currentPid f).chosenId = s.chosenId :=
    chosenId_congr ((refused_head _ _ _).trans hhead) ((refused_nextPid _ _ _).trans hnext)
  rw [newPage_ne_none_iff, hid, AllocatesNext, Ne, Ne, victim_refused hf, NoVictim]
  simp [hc]

theorem fetch_pageBytes (h : s.CachesAddressable) {id : ℕ} (hid : Addressable id)
    (hf : s.fetch id = (some f, u)) : (u.pages f).buffer = pageBytes s id := by
  unfold pageBytes
  rcases s.fetch_cases id with ⟨g, hd, hg⟩ | ⟨_, _, hg⟩ | ⟨g, free, lru, hd, _, hg⟩
  · obtain ⟨rfl, rfl⟩ := by simpa [hf] using hg
    simp [hd, pinFrame]
  · simp [hf] at hg
  · obtain ⟨rfl, rfl⟩ := by simpa [hf] using hg
    have hev := evicted_congr (s := s) (t := { s with freeList := free, replacer := lru })
      rfl rfl rfl f
    rw [hd, loadFrame_eq]
    dsimp only
    rw [Function.update_self, hev]
    exact stored_evicted_of_not_cached h hid hd f

theorem freeEnd_le (slots : List Slot) : freeEnd slots ≤ pageSize := Nat.sub_le _ _

/-- A record is taken by the page that is tried first, or by the page that is allocated next. -/
theorem insertAt_takes_iff (hs : HasSlots (s.pages f).buffer slots) :
    (∃ rid s', insertAt s pid f record = some (some rid, s')) ↔
      record.data.length < freeEnd slots ∧ (Fits slots record.data.length ∨
        ((refused s pid f).newPage.1 ≠ none ∧ Fits [] record.data.length)) := by
  have hnew : ∀ {id g w}, (refused s pid f).newPage = (some (id, g), w) →
      HasSlots (w.pages g).buffer [] := by
    intro id g w hn
    rw [(newPage_frame hn).2.2]
    exact hasSlots_zero
  rcases insertInto_cases_of_slots record hs with
    ⟨hlen, hfit, rp, b, hi, _⟩ | ⟨hlen, hfit, hi⟩ | ⟨hlen, hnone, hno⟩
  · exact iff_of_true ⟨_, _, insertAt_accepted hi⟩ ⟨hlen, .inl hfit⟩
  · rw [and_iff_right hlen, or_iff_right hfit]
    rcases hn : (refused s pid f).newPage with ⟨_ | ⟨id, g⟩, w⟩
    · rw [insertAt_refused hi hn]
      simp
    · have hlen' : record.data.length < freeEnd [] := hlen.trans_le (freeEnd_le slots)
      rcases insertInto_cases_of_slots record (hnew hn) with
        ⟨_, hfit', _, _, hw, _⟩ | ⟨_, hfit', hw⟩ | ⟨hge, _⟩
      · rw [insertAt_moved hi hn hw]
        exact iff_of_true ⟨_, _, rfl⟩ ⟨Option.some_ne_none _, hfit'⟩
      · rw [insertAt_moved hi hn hw]
        refine iff_of_false (by simp) fun h => hfit' h.2
      · exact absurd hlen' (not_lt.2 hge)
  · refine iff_of_false ?_ fun h => absurd h.1 (not_lt.2 hlen)
    rintro ⟨rid, s', h⟩
    rw [insertAt] at h
    obtain ⟨⟨r, t⟩, hi, h⟩ := Option.bind_eq_some_iff.1 h
    cases r with
    | some r => exact hno r t hi
    | none =>
      obtain ⟨p, rfl, hp⟩ := insertInto_cases hi
      rw [hp rfl] at h
      dsimp only at h
      rw [← refused] at h
      rcases hn : (refused s pid f).newPage with ⟨_ | ⟨id, g⟩, w⟩
      · rw [hn] at h
        cases h
      · rw [hn] at h
        obtain ⟨⟨r, v⟩, hw, h⟩ := Option.bind_eq_some_iff.1 h
        obtain rfl : r = some rid := (Prod.mk.inj (Option.some.inj h)).1
        -- no page takes a record that is longer than a page
        rcases insertInto_cases_of_slots record (hnew hn) with
          ⟨hlt, _⟩ | ⟨hlt, _⟩ | ⟨_, _, hno'⟩
        · rw [freeEnd_nil] at hlt
          unfold pageSize at hlt
          rw [hnone (by omega)] at hi
          cases hi
        · rw [freeEnd_nil] at hlt
          unfold pageSize at hlt
          rw [hnone (by omega)] at hi
          cases hi
        · exact hno' rid v hw

theorem storedRecord_insertInto (hs : HasSlots (s.pages f).buffer slots)
    (hd : s.dir.lookup pid = some f) (hp : (s.pages f).pid = pid) {rid : RID}
    (hi : insertInto s f record = some (some rid, t)) :
    storedRecord (t.unpin pid true) rid = some (true, { rid := rid, data := record.data }) := by
  rcases insertInto_cases_of_slots record hs with
    ⟨_, _, rp, b, hr, hb⟩ | ⟨_, _, hr⟩ | ⟨_, _, hno⟩
  · obtain ⟨hrid, rfl⟩ := Prod.mk.inj (Option.some.inj (hi.symm.trans hr))
    obtain rfl := Option.some.inj hrid
    subst hp
    have hbytes : pageBytes ((s.setPage f { s.pages f with buffer := b }).unpin (s.pages f).pid true)
        (s.pages f).pid = b := by
      have hl : ((s.setPage f { s.pages f with buffer := b }).unpin (s.pages f).pid true).dir.lookup
          (s.pages f).pid = some f := (congrArg _ (unpin_dir _ _ _)).trans hd
      unfold pageBytes
      rw [hl]
      dsimp only
      rw [(unpin_frame _ _ true f).1, setPage_pages, Function.update_self]
    unfold storedRecord
    dsimp only
    rw [hbytes, RecordPage.Holds.init (p := { buffer := b, pid := (s.pages f).pid }) hb,
      Option.bind_some]
    dsimp only
    rw [RecordPage.Holds.get_eq (p := { buffer := b, pid := (s.pages f).pid }) hb]
    simp [RecordPage.getOf]
  · cases (Prod.mk.inj (Option.some.inj (hi.symm.trans hr))).1
  · exact absurd hi (hno rid t)

theorem storedRecord_insertAt (hs : HasSlots (s.pages f).buffer slots)
    (hd : s.dir.lookup pid = some f) (hp : (s.pages f).pid = pid) {rid : RID}
    (h : insertAt s pid f record = some (some rid, s')) :
    storedRecord s' rid = some (true, { rid := rid, data := record.data }) := by
  rw [insertAt] at h
  obtain ⟨⟨r, t⟩, hi, h⟩ := Option.bind_eq_some_iff.1 h
  cases r with
  | some r =>
    cases h
    exact storedRecord_insertInto hs hd hp hi
  | none =>
    dsimp only at h
    rcases hn : (t.unpin pid false).newPage with ⟨_ | ⟨id, g⟩, w⟩
    · rw [hn] at h
      cases h
    · rw [hn] at h
      obtain ⟨⟨r, v⟩, hw, h⟩ := Option.bind_eq_some_iff.1 h
      cases h
      obtain ⟨hd', hp', hz⟩ := newPage_frame hn
      exact storedRecord_insertInto (hz ▸ hasSlots_zero) hd' hp' hw

/-- The heap takes a record exactly when it finds room for it, and the record is then live. -/
theorem TableState.takes_iff (h : TableState s) (hcur : Addressable s.currentPid) (record : Record) :
    ((∃ rid s', TableHeap.insert s record = some (some rid, s')) ↔
      FindsRoom s record.data.length) ∧
    ∀ rid s', TableHeap.insert s record = some (some rid, s') →
      storedRecord s' rid = some (true, { rid := rid, data := record.data }) := by
  by_cases hc : NoCurrentPage s
  · have hroom : FindsRoom s record.data.length ↔ s.newPage.1 ≠ none ∧ Fits [] record.data.length := by
      rw [FindsRoom, allocatesNext_iff_of_noCurrentPage hc]
      simp [hc]
    have hc' : s.currentPid = invalidId ∨ s.currentPid = 0 := hc
    rw [hroom]
    unfold TableHeap.insert
    simp only [if_pos hc']
    rcases hn : s.newPage with ⟨_ | ⟨id, f⟩, t⟩
    · simp
    · obtain ⟨hd, hp, hz⟩ := newPage_frame hn
      have hs : HasSlots (t.pages f).buffer [] := hz ▸ hasSlots_zero
      refine ⟨?_, fun rid s' hi => storedRecord_insertAt hs hd hp hi⟩
      dsimp only
      rw [insertAt_takes_iff hs, and_iff_right (Option.some_ne_none _)]
      refine ⟨fun hx => hx.2.elim (fun hfit => hfit) And.right, fun hfit => ⟨?_, .inl hfit⟩⟩
      unfold Fits at hfit
      omega
  · have hc' : ¬ (s.currentPid = invalidId ∨ s.currentPid = 0) := hc
    have hroom : FindsRoom s record.data.length ↔ (s.fetch s.currentPid).1 ≠ none ∧
        ∃ slots, HasSlots (pageBytes s s.currentPid) slots ∧ record.data.length < freeEnd slots ∧
          (Fits slots record.data.length ∨ (AllocatesNext s ∧ Fits [] record.data.length)) := by
      rw [FindsRoom, fetch_ne_none_iff]
      simp [hc]
    rw [hroom]
    unfold TableHeap.insert
    simp only [if_neg hc']
    have hfetch := h.fetch hcur
    rcases hf : s.fetch s.currentPid with ⟨_ | f, u⟩
    · simp
    · rw [hf] at hfetch
      have hd := fetch_lookup_self hf
      have hb := fetch_pageBytes h.addressable hcur hf
      obtain ⟨slots, hs⟩ := hfetch.cached _ f (fun h0 => hc (.inr h0)) hd
      refine ⟨?_, fun rid s' hi => storedRecord_insertAt hs hd (hfetch.own _ f hd) hi⟩
      dsimp only
      rw [and_iff_right (Option.some_ne_none _), allocatesNext_iff_refused hc hf, ← hb]
      constructor
      · intro hx
        exact ⟨slots, hs, (insertAt_takes_iff hs).1 hx⟩
      · rintro ⟨slots', hs', hx⟩
        exact (insertAt_takes_iff hs').2 hx

theorem honestReport_iff_takes {e : InsertExecuter} {t : Tuple}
    (ht : Tuple.createTuple e.values e.schema = some t) :
    HonestReport s e ↔ ∃ rid s', TableHeap.insert s { data := t.data } = some (some rid, s') ∧
      storedRecord s' rid = some (true, { rid := rid, data := t.data }) := by
  constructor
  · rintro ⟨t', rid, rc, s', ht', hi, hn, hout, _⟩
    obtain rfl := Option.some.inj (ht.symm.trans ht')
    rw [insertNext, ht, Option.bind_some, hi] at hn
    obtain ⟨r, rfl, hr⟩ := hout (Prod.mk.inj (Option.some.inj hn)).1.symm
    exact ⟨r, s', hi, hr⟩
  · rintro ⟨rid, s', hi, hr⟩
    refine ⟨t, some rid, .outOfRange, s', ht, hi, ?_, fun _ => ⟨rid, rfl, hr⟩, fun hno => ?_⟩
    · rw [insertNext, ht, Option.bind_some, hi, Option.map_some]
    · cases hno

/-- In every state of a table, the report on a row that the binder has accepted is right exactly when
the heap finds room for the row. -/
theorem insert_report_iff {file : File} (hfile : TableFile { file := file }) {s₀ : BufferPool n}
    (h₀ : openFile n file = some s₀) {ops : List (TableOp n)}
    (hrun : Transition.Run TableStep s₀ ops s)
    (hops : ∀ u op, Transition.Taken TableStep s₀ ops s u op → InFile u op)
    (hcur : Addressable s.currentPid) {catalog : Catalog} {insert : InsertStmt} {e : InsertExecuter}
    (hbind : Binder.bindInsert catalog insert = .ok e) :
    ∃ t, Tuple.createTuple e.values e.schema = some t ∧
      (HonestReport s e ↔ FindsRoom s t.data.length) := by
  obtain ⟨schema, _, hlen, hall, rfl⟩ := Binder.bindInsert_ok hbind
  obtain ⟨row, hrow⟩ := exists_encodeRow hlen hall
  have ht : Tuple.createTuple insert.values schema = some { data := row } := by
    rw [Tuple.createTuple, hrow, Option.map_some]
  obtain ⟨htakes, hlive⟩ := (tableState_run hfile h₀ hrun hops).takes_iff hcur { data := row }
  refine ⟨_, ht, ?_⟩
  rw [honestReport_iff_takes ht, ← htakes]
  constructor
  · rintro ⟨rid, s', hi, _⟩
    exact ⟨rid, s', hi⟩
  · rintro ⟨rid, s', hi⟩
    exact ⟨rid, s', hi, hlive rid s' hi⟩

def oneColumn (c : Column) : Catalog := Catalog.createTable ⟨∅⟩ (str "t") [c]

def charColumn : Column := ⟨.char, str "c", 1000⟩

def intColumn : Column := ⟨.int, str "c", 0⟩

theorem no_steps {u : BufferPool n} {op : TableOp n} (h : Transition.Taken TableStep s [] t u op) :
    InFile u op := by
  obtain ⟨pre, post, _, he, _⟩ := h
  simp at he

/-- `insert_report_iff` for the first row of a table. -/
theorem insert_report_first_row :
    HonestReport (freshPool 0) ⟨str "t", ⟨[intColumn]⟩, [.ints 7]⟩ := by
  have hbind : Binder.bindInsert (oneColumn intColumn) ⟨str "t", [], [.ints 7]⟩ =
      .ok ⟨str "t", ⟨[intColumn]⟩, [.ints 7]⟩ := by decide
  obtain ⟨t, ht, hiff⟩ := insert_report_iff tableFile_absent (openFile_absent_succ 0) (.nil _)
    (fun _ _ => no_steps) (addressable_of_le (Nat.zero_le _)) hbind
  have hrow : Tuple.createTuple [.ints 7] ⟨[intColumn]⟩ = some ⟨[7, 0, 0, 0], {}⟩ := by decide
  obtain rfl := Option.some.inj (hrow.symm.trans ht)
  have hc : NoCurrentPage (freshPool 0) := .inr rfl
  refine hiff.2 (.inl ⟨hc, (allocatesNext_iff_of_noCurrentPage hc).2 ?_, ?_⟩) <;> decide

/-- A row of 1000 bytes fits no page and is reported as stored. -/
theorem insert_report_large_row : ¬ ∀ (s : BufferPool 1) (catalog : Catalog) (insert : InsertStmt) e,
    openFile 1 File.absent = some s → Binder.bindInsert catalog insert = .ok e →
      HonestReport s e := by
  intro h
  have hbind : Binder.bindInsert (oneColumn charColumn)
      ⟨str "t", [], [.string (List.replicate 1000 0)]⟩ =
      .ok ⟨str "t", ⟨[charColumn]⟩, [.string (List.replicate 1000 0)]⟩ :=
    Binder.bindInsert_of_matches [] (by decide) ⟨rfl, rfl⟩
  have hrow : ∀ x, Tuple.createTuple [.string x] ⟨[charColumn]⟩ = some { data := x } := fun x => by
    simp [Tuple.createTuple, encodeRow, encodeValue, charColumn]
  obtain ⟨rid, s', hi, _⟩ :=
    (honestReport_iff_takes (hrow _)).1 (h _ _ _ _ (openFile_absent_succ 0) hbind)
  obtain ⟨s'', hi'⟩ := insert_largeRecord
  cases (Prod.mk.inj (Option.some.inj (hi.symm.trans hi'))).1

end Tadis.TableHeap
