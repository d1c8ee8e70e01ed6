import Tadis.RecordScanner
import Tadis.Transition

/-!
# When a scan of a table heap is exact

The history of a heap is the list of its accepted records, each live until it is removed. A fresh
scanner delivers exactly the live ones when no page at which the scan ends lies before a page with a
live record. The scan ends at a page whose last record is removed, and at a page other than page 1
that never accepted a record.
-/

namespace Tadis.TableHeap

open RecordScanner

variable {n m : ℕ} {pages : List (List Slot)}

structure Entry where
  rid : RID
  bytes : Bytes
  live : Bool

def Entry.kill (rid : RID) (e : Entry) : Entry := if e.rid = rid then { e with live := false } else e

def liveRecords (entries : List Entry) : List (RID × Bytes) :=
  (entries.filter Entry.live).map (fun e => (e.rid, e.bytes))

inductive HeapOp
  | insert (bytes : Bytes)
  | remove (rid : RID)

/-- One operation on a heap below the page limit, and the history after it. An offered record is
shorter than `free_addr_end_` of the page that is tried first and than a page. -/
inductive HeapStep : BufferPool n × List Entry → HeapOp → BufferPool n × List Entry → Prop
  | accept {s s' : BufferPool n} {entries : List Entry} {record : Record} {rid : RID}
      (hlen : ∀ e, firstFreeEnd s = some e → record.data.length < e)
      (hsize : record.data.length < pageSize) (h : insert s record = some (some rid, s'))
      (hlimit : s'.currentPid ≤ BFPHeaderPage.maxPageCount) :
      HeapStep (s, entries) (.insert record.data) (s', entries ++ [⟨rid, record.data, true⟩])
  | reject {s s' : BufferPool n} {entries : List Entry} {record : Record}
      (hlen : ∀ e, firstFreeEnd s = some e → record.data.length < e)
      (hsize : record.data.length < pageSize) (h : insert s record = some (none, s'))
      (hlimit : s'.currentPid ≤ BFPHeaderPage.maxPageCount) :
      HeapStep (s, entries) (.insert record.data) (s', entries)
  | remove {s s' : BufferPool n} {entries : List Entry} {rid : RID} {ok : Bool}
      (hrid : ∃ e ∈ entries, e.rid = rid) (h : remove s rid = some (ok, s')) :
      HeapStep (s, entries) (.remove rid) (s', entries.map (Entry.kill rid))

def RidLt (a b : RID) : Prop := a.pageId < b.pageId ∨ (a.pageId = b.pageId ∧ a.slotId < b.slotId)

/-- A fresh scanner delivers exactly the live records of the history, in order. -/
def ScanIsExact (s : BufferPool n) (entries : List Entry) : Prop :=
  ∃ sc s' rc t, RecordScanner.init s = some (some sc, s') ∧
    Pull.Drains seqScanNext (sc, s') (liveRecords entries) rc t

/-- The scan ends at page `p`: its last record is removed, or it never had one and is not the page
that the scan starts from. -/
def EndsScan (entries : List Entry) (first p : ℕ) : Prop :=
  (first < p ∧ ∀ e ∈ entries, e.rid.pageId ≠ p) ∨
    ∃ e, (entries.filter (fun e => e.rid.pageId = p)).getLast? = some e ∧ e.live = false

/-- No page of `first, …, last` at which the scan ends lies before a page with a live record. -/
def ScanReachesAll (entries : List Entry) (first last : ℕ) : Prop :=
  ∀ p, first ≤ p → p ≤ last → EndsScan entries first p →
    ∀ e ∈ entries, e.live = true → e.rid.pageId ≤ p

def pageEntries (pid : ℕ) : ℕ → List Slot → List Entry
  | _, [] => []
  | j, s :: slots => ⟨⟨pid, j⟩, s.bytes, s.live⟩ :: pageEntries pid (j + 1) slots

def entriesFrom (pid : ℕ) : List (List Slot) → List Entry
  | [] => []
  | slots :: rest => pageEntries pid 0 slots ++ entriesFrom (pid + 1) rest

theorem pageEntries_append (pid j : ℕ) (l l' : List Slot) :
    pageEntries pid j (l ++ l') = pageEntries pid j l ++ pageEntries pid (j + l.length) l' := by
  induction l generalizing j with
  | nil => rfl
  | cons s l ih =>
    have hlen : j + (s :: l).length = j + 1 + l.length := by
      rw [List.length_cons]
      omega
    rw [List.cons_append, pageEntries, pageEntries, ih, hlen, List.cons_append]

theorem entriesFrom_append (pid : ℕ) (l l' : List (List Slot)) :
    entriesFrom pid (l ++ l') = entriesFrom pid l ++ entriesFrom (pid + l.length) l' := by
  induction l generalizing pid with
  | nil => rfl
  | cons slots l ih =>
    have hlen : pid + (slots :: l).length = pid + 1 + l.length := by
      rw [List.length_cons]
      omega
    rw [List.cons_append, entriesFrom, entriesFrom, ih, hlen, List.append_assoc]

theorem mem_pageEntries {pid j : ℕ} {slots : List Slot} {e : Entry}
    (h : e ∈ pageEntries pid j slots) :
    e.rid.pageId = pid ∧ j ≤ e.rid.slotId ∧ e.rid.slotId < j + slots.length := by
  induction slots generalizing j with
  | nil => cases h
  | cons s slots ih =>
    rw [List.length_cons]
    rcases List.mem_cons.1 h with rfl | h
    · exact ⟨rfl, le_rfl, by dsimp only; omega⟩
    · obtain ⟨h1, h2, h3⟩ := ih h
      exact ⟨h1, by omega, by omega⟩

theorem mem_entriesFrom {pid : ℕ} {e : Entry} (h : e ∈ entriesFrom pid pages) :
    ∃ i slots, pages[i]? = some slots ∧ e.rid.pageId = pid + i ∧ e.rid.slotId < slots.length := by
  induction pages generalizing pid with
  | nil => cases h
  | cons slots rest ih =>
    rcases List.mem_append.1 h with h | h
    · obtain ⟨h1, _, h3⟩ := mem_pageEntries h
      exact ⟨0, slots, rfl, h1, by omega⟩
    · obtain ⟨i, slots', hi, h1, h2⟩ := ih h
      exact ⟨i + 1, slots', hi, by omega, h2⟩

theorem pairwise_pageEntries (pid j : ℕ) (slots : List Slot) :
    (pageEntries pid j slots).Pairwise (fun a b => RidLt a.rid b.rid) := by
  induction slots generalizing j with
  | nil => exact .nil
  | cons s slots ih =>
    refine .cons ?_ (ih (j + 1))
    intro e he
    obtain ⟨h1, h2, _⟩ := mem_pageEntries he
    exact .inr ⟨h1.symm, h2⟩

theorem pairwise_entriesFrom (pid : ℕ) (pages : List (List Slot)) :
    (entriesFrom pid pages).Pairwise (fun a b => RidLt a.rid b.rid) := by
  induction pages generalizing pid with
  | nil => exact .nil
  | cons slots rest ih =>
    refine List.pairwise_append.2 ⟨pairwise_pageEntries pid 0 slots, ih (pid + 1), ?_⟩
    intro a ha b hb
    obtain ⟨i, _, _, hbp, _⟩ := mem_entriesFrom hb
    have hap := (mem_pageEntries ha).1
    exact .inl (by omega)

theorem map_kill_pageEntries {pid j : ℕ} {rid : RID} (slots : List Slot) :
    (pageEntries pid j slots).map (Entry.kill rid) =
      if rid.pageId = pid ∧ j ≤ rid.slotId then
        pageEntries pid j (slots.modify (rid.slotId - j) Slot.kill)
      else pageEntries pid j slots := by
  induction slots generalizing j with
  | nil => split <;> simp [pageEntries]
  | cons s slots ih =>
    rw [pageEntries, List.map_cons, ih]
    by_cases hp : rid.pageId = pid
    · rcases lt_trichotomy rid.slotId j with hlt | rfl | hgt
      · have hne : ¬ (⟨pid, j⟩ : RID) = rid := by
          rintro rfl
          exact lt_irrefl _ hlt
        simp [Entry.kill, hne, not_le.2 hlt, show ¬ j + 1 ≤ rid.slotId by omega]
      · have he : (⟨pid, rid.slotId⟩ : RID) = rid := by rw [← hp]
        simp [Entry.kill, he, hp, pageEntries, Slot.kill]
      · have hne : ¬ (⟨pid, j⟩ : RID) = rid := by
          rintro rfl
          exact lt_irrefl _ hgt
        have hsub : rid.slotId - j = rid.slotId - (j + 1) + 1 := by omega
        simp [Entry.kill, hne, hp, hgt.le, show j + 1 ≤ rid.slotId by omega, hsub, pageEntries]
    · have hne : ¬ (⟨pid, j⟩ : RID) = rid := by
        rintro rfl
        exact hp rfl
      simp [Entry.kill, hne, hp]

theorem map_kill_of_lt {pid : ℕ} {rid : RID} (h : rid.pageId < pid) (pages : List (List Slot)) :
    (entriesFrom pid pages).map (Entry.kill rid) = entriesFrom pid pages := by
  refine (List.map_congr_left ?_).trans (List.map_id _)
  intro e he
  obtain ⟨i, _, _, hp, _⟩ := mem_entriesFrom he
  have hne : ¬ e.rid = rid := by
    rintro rfl
    omega
  simp [Entry.kill, hne]

theorem map_kill_entriesFrom {pid i : ℕ} {rid : RID} (hp : rid.pageId = pid + i)
    (pages : List (List Slot)) :
    (entriesFrom pid pages).map (Entry.kill rid) =
      entriesFrom pid (pages.modify i (fun slots => slots.modify rid.slotId Slot.kill)) := by
  induction pages generalizing pid i with
  | nil => cases i <;> rfl
  | cons slots rest ih =>
    rw [entriesFrom, List.map_append, map_kill_pageEntries]
    cases i with
    | zero =>
      rw [if_pos ⟨hp, Nat.zero_le _⟩, map_kill_of_lt (by omega)]
      rfl
    | succ i =>
      rw [if_neg (by omega), ih (i := i) (by omega)]
      rfl

theorem entriesFrom_placeNew (pages : List (List Slot)) (bytes : Bytes) :
    entriesFrom 1 (placeNew pages bytes).2 = entriesFrom 1 pages ++
      ((placeNew pages bytes).1.map (fun rid => ⟨rid, bytes, true⟩)).toList := by
  unfold placeNew
  split
  · rw [entriesFrom_append, Nat.add_comm 1]
    rfl
  · rw [entriesFrom_append]
    rfl

theorem entriesFrom_placeLast (front : List (List Slot)) (last : List Slot) (bytes : Bytes) :
    entriesFrom 1 (placeLast (front ++ [last]) last bytes).2 = entriesFrom 1 (front ++ [last]) ++
      ((placeLast (front ++ [last]) last bytes).1.map (fun rid => ⟨rid, bytes, true⟩)).toList := by
  unfold placeLast
  split
  · have hset : (front ++ [last]).set ((front ++ [last]).length - 1) (last ++ [⟨bytes, true⟩]) =
        front ++ [last ++ [⟨bytes, true⟩]] := by simp
    dsimp only
    rw [hset, entriesFrom_append, entriesFrom_append, entriesFrom, entriesFrom, pageEntries_append]
    simp [entriesFrom, pageEntries, Nat.add_comm 1]
  · exact entriesFrom_placeNew _ _

theorem entriesFrom_insertPages (pages : List (List Slot)) (bytes : Bytes) :
    entriesFrom 1 (insertPages pages bytes).2 = entriesFrom 1 pages ++
      ((insertPages pages bytes).1.map (fun rid => ⟨rid, bytes, true⟩)).toList := by
  unfold insertPages
  cases hl : pages.getLast? with
  | none =>
    rw [List.getLast?_eq_none_iff.1 hl]
    exact entriesFrom_placeLast [] [] bytes
  | some last =>
    obtain ⟨front, rfl⟩ := List.getLast?_eq_some_iff.1 hl
    exact entriesFrom_placeLast front last bytes

def Records (c : BufferPool n × List Entry) : Prop :=
  ∃ pages, HeapInv c.1 pages ∧ c.2 = entriesFrom 1 pages

theorem Records.insert {s s' : BufferPool (m + 1)} {entries : List Entry} {record : Record}
    {r : Option RID} (h : Records (s, entries))
    (hlen : ∀ e, firstFreeEnd s = some e → record.data.length < e)
    (hsize : record.data.length < pageSize) (hi : TableHeap.insert s record = some (r, s'))
    (hlimit : s'.currentPid ≤ BFPHeaderPage.maxPageCount) :
    Records (s', entries ++ (r.map (fun rid => ⟨rid, record.data, true⟩)).toList) := by
  obtain ⟨pages, hinv, hent⟩ := h
  dsimp only at hinv hent
  obtain ⟨r', t, ht, _, hres⟩ := hinv.insert (hlen _ hinv.firstFreeEnd_eq) hsize
  obtain ⟨rfl, rfl⟩ := by simpa using hi.symm.trans ht
  obtain ⟨rfl, hinv'⟩ := hres hlimit
  exact ⟨_, hinv', by rw [entriesFrom_insertPages, hent]⟩

/-- One step keeps the correspondence between slots and history. -/
theorem Records.step {c c' : BufferPool (m + 1) × List Entry} {op : HeapOp} (h : Records c)
    (hs : HeapStep c op c') : Records c' := by
  cases hs with
  | accept hlen hsize hi hlimit => exact h.insert hlen hsize hi hlimit
  | reject hlen hsize hi hlimit => simpa using h.insert hlen hsize hi hlimit
  | @remove s s' entries rid ok hrid hr =>
    obtain ⟨pages, hinv, hent⟩ := h
    dsimp only at hinv hent
    obtain ⟨e, he, rfl⟩ := hrid
    rw [hent] at he
    obtain ⟨i, slots, hi, hp, _⟩ := mem_entriesFrom he
    have hp' : e.rid.pageId = i + 1 := by omega
    obtain ⟨t, ht, hinv'⟩ := hinv.remove hi hp'
    obtain ⟨_, rfl⟩ := by simpa using hr.symm.trans ht
    refine ⟨_, hinv', ?_⟩
    have hset : pages.set i (slots.modify e.rid.slotId Slot.kill) =
        pages.modify i (fun slots => slots.modify e.rid.slotId Slot.kill) := by
      rw [List.modify_eq_set_getElem? _ i pages, hi]
      rfl
    dsimp only
    rw [hset, hent, map_kill_entriesFrom hp]

theorem liveRecords_append (l l' : List Entry) :
    liveRecords (l ++ l') = liveRecords l ++ liveRecords l' := by
  rw [liveRecords, List.filter_append, List.map_append]
  rfl

theorem liveRecords_eq_nil_iff (l : List Entry) :
    liveRecords l = [] ↔ ∀ e ∈ l, e.live = false := by
  simp [liveRecords, List.filter_eq_nil_iff]

theorem liveRecords_pageEntries (pid j : ℕ) (slots : List Slot) :
    liveRecords (pageEntries pid j slots) = pageRows pid j slots := by
  induction slots generalizing j with
  | nil => rfl
  | cons s slots ih =>
    have hcons : liveRecords (pageEntries pid j (s :: slots)) =
        liveRecords [⟨⟨pid, j⟩, s.bytes, s.live⟩] ++ liveRecords (pageEntries pid (j + 1) slots) :=
      liveRecords_append [_] _
    rw [hcons, ih, pageRows]
    cases hl : s.live <;> simp [liveRecords]

theorem pageId_gt {pid : ℕ} {e : Entry} (h : e ∈ entriesFrom (pid + 1) pages) :
    pid < e.rid.pageId := by
  obtain ⟨i, _, _, hp, _⟩ := mem_entriesFrom h
  omega

theorem filter_first_page (pid : ℕ) (slots : List Slot) (rest : List (List Slot)) :
    (entriesFrom pid (slots :: rest)).filter (fun e => e.rid.pageId = pid) =
      pageEntries pid 0 slots := by
  have h1 : (pageEntries pid 0 slots).filter (fun e => e.rid.pageId = pid) = pageEntries pid 0 slots :=
    List.filter_eq_self.2 (fun e he => decide_eq_true (mem_pageEntries he).1)
  have h2 : (entriesFrom (pid + 1) rest).filter (fun e => e.rid.pageId = pid) = [] :=
    List.filter_eq_nil_iff.2 (fun e he => by simpa using (pageId_gt he).ne')
  rw [entriesFrom, List.filter_append, h1, h2, List.append_nil]

theorem filter_later_page {pid p : ℕ} (hp : pid < p) (slots : List Slot) (rest : List (List Slot)) :
    (entriesFrom pid (slots :: rest)).filter (fun e => e.rid.pageId = p) =
      (entriesFrom (pid + 1) rest).filter (fun e => e.rid.pageId = p) := by
  have h1 : (pageEntries pid 0 slots).filter (fun e => e.rid.pageId = p) = [] :=
    List.filter_eq_nil_iff.2 (fun e he => by simpa [(mem_pageEntries he).1] using hp.ne)
  rw [entriesFrom, List.filter_append, h1, List.nil_append]

theorem last_pageEntries_dead_iff (pid j : ℕ) (slots : List Slot) :
    (∃ e, (pageEntries pid j slots).getLast? = some e ∧ e.live = false) ↔ EndsDead slots := by
  cases slots using List.reverseRecOn with
  | nil => simp [pageEntries, EndsDead]
  | append_singleton slots s =>
    rw [pageEntries_append, pageEntries, pageEntries, List.getLast?_concat, EndsDead,
      List.getLast?_concat]
    simp

theorem endsScan_first_iff (pid : ℕ) (slots : List Slot) (rest : List (List Slot)) :
    EndsScan (entriesFrom pid (slots :: rest)) pid pid ↔ EndsDead slots := by
  rw [EndsScan, filter_first_page, last_pageEntries_dead_iff]
  simp

theorem endsScan_later_iff {pid p : ℕ} (hp : pid < p) (slots : List Slot) {next : List Slot}
    (hne : next ≠ []) (rest : List (List Slot)) :
    EndsScan (entriesFrom pid (slots :: next :: rest)) pid p ↔
      EndsScan (entriesFrom (pid + 1) (next :: rest)) (pid + 1) p := by
  have hnone : ∀ l : List Entry,
      (∀ e ∈ l, e.rid.pageId ≠ p) ↔ l.filter (fun e => e.rid.pageId = p) = [] := by
    intro l
    simp [List.filter_eq_nil_iff]
  rw [EndsScan, EndsScan, hnone, hnone, filter_later_page hp]
  refine or_congr (and_congr_left fun hempty => ?_) Iff.rfl
  constructor
  · intro _
    refine lt_of_le_of_ne hp ?_
    rintro rfl
    rw [filter_first_page] at hempty
    cases next with
    | nil => exact hne rfl
    | cons s next => cases hempty
  · omega

/-- Nothing live lies behind the first page at which the scan ends. -/
theorem scanFrom_eq_iff (pid : ℕ) (slots : List Slot) (rest : List (List Slot)) :
    scanFrom pid slots rest = liveRecords (entriesFrom pid (slots :: rest)) ↔
      ScanReachesAll (entriesFrom pid (slots :: rest)) pid (pid + rest.length) := by
  induction rest generalizing pid slots with
  | nil =>
    rw [scanFrom, entriesFrom, entriesFrom, List.append_nil, liveRecords_pageEntries]
    refine ⟨fun _ p hp _ _ e he _ => ?_, fun _ => rfl⟩
    exact (mem_pageEntries he).1.trans_le hp
  | cons next rest ih =>
    have hsplit : liveRecords (entriesFrom pid (slots :: next :: rest)) =
        pageRows pid 0 slots ++ liveRecords (entriesFrom (pid + 1) (next :: rest)) := by
      rw [entriesFrom, liveRecords_append, liveRecords_pageEntries]
    rw [scanFrom, hsplit, List.append_cancel_left_eq, List.length_cons]
    by_cases hstop : EndsDead slots ∨ next = []
    · rw [if_pos hstop, eq_comm, liveRecords_eq_nil_iff]
      constructor
      · intro hdead p hp _ _ e he hlive
        rcases List.mem_append.1 he with he | he
        · exact (mem_pageEntries he).1.trans_le hp
        · rw [hdead e he] at hlive
          cases hlive
      · intro hall e he
        by_contra hlive
        rw [Bool.not_eq_false] at hlive
        have hmem : e ∈ entriesFrom pid (slots :: next :: rest) := List.mem_append_right _ he
        rcases hstop with hdead | rfl
        · have hle := hall pid le_rfl (by omega) ((endsScan_first_iff _ _ _).2 hdead) e hmem hlive
          exact absurd (pageId_gt he) (not_lt.2 hle)
        · have hend : EndsScan (entriesFrom pid (slots :: [] :: rest)) pid (pid + 1) := by
            refine .inl ⟨Nat.lt_succ_self pid, fun e' he' hp => ?_⟩
            rcases List.mem_append.1 he' with he' | he'
            · have := (mem_pageEntries he').1
              omega
            · have : pid + 1 < e'.rid.pageId := pageId_gt he'
              omega
          have hle := hall (pid + 1) (Nat.le_succ _) (by omega) hend e hmem hlive
          have hgt : pid + 1 < e.rid.pageId := pageId_gt he
          exact absurd hgt (not_lt.2 hle)
    · obtain ⟨hdead, hne⟩ := not_or.1 hstop
      rw [if_neg hstop, ih]
      constructor
      · intro hall p hp hlast hend e he hlive
        rcases hp.eq_or_lt with rfl | hlt
        · exact absurd ((endsScan_first_iff _ _ _).1 hend) hdead
        · rcases List.mem_append.1 he with he | he
          · exact ((mem_pageEntries he).1.trans_lt hlt).le
          · exact hall p hlt (by omega) ((endsScan_later_iff hlt _ hne _).1 hend) e he hlive
      · intro hall p hp hlast hend e he hlive
        exact hall p (by omega) (by omega) ((endsScan_later_iff hp _ hne _).2 hend) e
          (List.mem_append_right _ he) hlive

theorem Records.scanIsExact_iff {s : BufferPool (m + 1)} {entries : List Entry}
    (h : Records (s, entries)) : ScanIsExact s entries ↔ ScanReachesAll entries 1 s.currentPid := by
  obtain ⟨pages, hinv, hent⟩ := h
  dsimp only at hinv hent
  obtain ⟨sc, s', t, hi, hd⟩ := scan_heap hinv
  have hrows : ScanIsExact s entries ↔ scanRows pages = liveRecords entries := by
    constructor
    · rintro ⟨sc', s'', rc, u, hi', hd'⟩
      obtain ⟨rfl, rfl⟩ := by simpa using hi.symm.trans hi'
      exact (hd.unique hd').1
    · intro heq
      exact ⟨sc, s', _, t, hi, heq ▸ hd⟩
  rw [hrows, hinv.currentPid_eq, hent]
  cases pages with
  | nil =>
    refine ⟨fun _ p _ _ _ e he => absurd he List.not_mem_nil, fun _ => rfl⟩
  | cons slots rest =>
    rw [scanRows, scanFrom_eq_iff, List.length_cons, Nat.add_comm 1]

theorem insert_no_frames {s s' : BufferPool 0} {record : Record} {r : Option RID}
    (h : TableHeap.insert s record = some (r, s')) : r = none := by
  rw [TableHeap.insert] at h
  split_ifs at h
  · rcases hn : s.newPage with ⟨_ | ⟨_, f⟩, t⟩
    · rw [hn] at h
      exact (congrArg Prod.fst (Option.some.inj h)).symm
    · exact f.elim0
  · rcases hf : s.fetch s.currentPid with ⟨_ | f, t⟩
    · rw [hf] at h
      cases h
    · exact f.elim0

theorem run_no_frames {s : BufferPool 0} {c : BufferPool 0 × List Entry} {ops : List HeapOp}
    (h : Transition.Run HeapStep (s, []) ops c) : c.2 = [] := by
  refine h.invariant (I := fun c => c.2 = []) ?_ rfl
  intro c op c' hc hs
  cases hs with
  | accept _ _ hi _ => cases insert_no_frames hi
  | reject _ _ _ _ => exact hc
  | remove hrid _ =>
    obtain ⟨e, he, _⟩ := hrid
    dsimp only at hc
    rw [hc] at he
    cases he

theorem scanner_init_no_frames (s : BufferPool 0) {sc : RecordScanner 0} {s' : BufferPool 0} :
    RecordScanner.init s ≠ some (some sc, s') := by
  rw [RecordScanner.init]
  rcases hf : s.fetch 1 with ⟨_ | f, t⟩
  · dsimp only
    split <;> simp
  · exact f.elim0

/-- After any run of insertions and removals from an empty heap, the history is in the order of
pages and slots, and a fresh scanner delivers its live records exactly when the pool has a frame and
no page at which the scan ends lies before a page with a live record. -/
theorem scan_exact_iff {s₀ s : BufferPool n} {entries : List Entry} {ops : List HeapOp}
    (h₀ : BufferPool.openFile n File.absent = some s₀)
    (hrun : Transition.Run HeapStep (s₀, []) ops (s, entries)) :
    entries.Pairwise (fun a b => RidLt a.rid b.rid) ∧
      (ScanIsExact s entries ↔ 0 < n ∧ ScanReachesAll entries 1 s.currentPid) := by
  cases n with
  | zero =>
    obtain rfl : entries = [] := run_no_frames hrun
    refine ⟨.nil, iff_of_false ?_ (fun h => lt_irrefl 0 h.1)⟩
    rintro ⟨sc, s', rc, t, hi, _⟩
    exact absurd hi (scanner_init_no_frames s)
  | succ m =>
    obtain rfl : BufferPool.freshPool m = s₀ :=
      Option.some.inj ((BufferPool.openFile_absent_succ m).symm.trans h₀)
    have h : Records (s, entries) :=
      hrun.invariant (fun _ _ _ h => h.step) ⟨[], heapInv_freshPool m, rfl⟩
    refine ⟨?_, by simpa using h.scanIsExact_iff⟩
    obtain ⟨pages, _, rfl⟩ := h
    exact pairwise_entriesFrom 1 pages

theorem HeapInv.accept {s : BufferPool (m + 1)} (h : HeapInv s pages) (entries : List Entry)
    (record : Record) {rid : RID} {pages' : List (List Slot)}
    (hlen : record.data.length < lastFreeEnd pages) (hsize : record.data.length < pageSize)
    (hplace : insertPages pages record.data = (some rid, pages'))
    (hlimit : pages'.length ≤ bfpMaxPageNum) :
    ∃ s', HeapInv s' pages' ∧ HeapStep (s, entries) (.insert record.data)
      (s', entries ++ [⟨rid, record.data, true⟩]) := by
  obtain ⟨r, s', hi, hlim, hres⟩ := h.insert hlen hsize
  rw [hplace] at hlim hres
  have hle := hlim hlimit
  obtain ⟨rfl, hinv⟩ := hres hle
  refine ⟨s', hinv, .accept ?_ hsize hi hle⟩
  intro e he
  rw [h.firstFreeEnd_eq] at he
  exact (Option.some.inj he) ▸ hlen

theorem accept_first (m : ℕ) (record : Record) (hlen : record.data.length ≤ 990) :
    ∃ s : BufferPool (m + 1), HeapInv s [[⟨record.data, true⟩]] ∧
      HeapStep (BufferPool.freshPool m, []) (.insert record.data)
        (s, [⟨⟨1, 0⟩, record.data, true⟩]) := by
  have hp : pageSize = 1024 := rfl
  refine (heapInv_freshPool m).accept [] record (show _ < pageSize by omega) (by omega) (if_pos ?_)
    (by simp [bfpMaxPageNum, hp])
  rw [Fits, freeEnd_nil, List.length_nil]
  omega

/-- `scan_exact_iff` after one insertion. -/
theorem scan_exact_iff_first_insert :
    ∃ s : BufferPool 1, Transition.Run HeapStep (BufferPool.freshPool 0, []) [.insert [7, 8]]
      (s, [⟨⟨1, 0⟩, [7, 8], true⟩]) ∧ ScanIsExact s [⟨⟨1, 0⟩, [7, 8], true⟩] := by
  obtain ⟨s, _, hstep⟩ := accept_first 0 { data := [7, 8] } (by decide)
  have hrun := Transition.Run.single hstep
  refine ⟨s, hrun, ?_⟩
  refine (scan_exact_iff (BufferPool.openFile_absent_succ 0) hrun).2.2 ⟨Nat.one_pos, ?_⟩
  intro p hp _ _ e he _
  obtain rfl := List.mem_singleton.1 he
  exact hp

/-- The record of page 1 is removed: a scan ends there and misses the record of page 2. -/
theorem scan_stops_at_removed_record :
    ∃ s₀ : BufferPool 1, BufferPool.openFile 1 File.absent = some s₀ ∧
      ∃ s entries, Transition.Run HeapStep (s₀, []) [.insert (List.replicate 600 1),
          .insert (List.replicate 400 2), .remove ⟨1, 0⟩] (s, entries) ∧
        liveRecords entries = [(⟨2, 0⟩, List.replicate 400 2)] ∧ ¬ ScanIsExact s entries := by
  have h600 : (List.replicate 600 (1 : UInt8)).length = 600 := List.length_replicate
  have h400 : (List.replicate 400 (2 : UInt8)).length = 400 := List.length_replicate
  generalize List.replicate 600 (1 : UInt8) = b₁ at h600 ⊢
  generalize List.replicate 400 (2 : UInt8) = b₂ at h400 ⊢
  have hp : pageSize = 1024 := rfl
  have hend : lastFreeEnd [[⟨b₁, true⟩]] = 423 := by
    simp [lastFreeEnd, freeEnd, used, h600, hp]
  have hplace : insertPages [[⟨b₁, true⟩]] b₂ = (some ⟨2, 0⟩, [[⟨b₁, true⟩], [⟨b₂, true⟩]]) := by
    simp [insertPages, placeLast, placeNew, Fits, freeEnd, used, h600, h400, hp]
  obtain ⟨s₁, hinv₁, hstep₁⟩ := accept_first 0 { data := b₁ } (by simp [h600])
  obtain ⟨s₂, hinv₂, hstep₂⟩ := hinv₁.accept [⟨⟨1, 0⟩, b₁, true⟩] { data := b₂ }
    (by simp [h400, hend]) (by simp [h400, hp]) hplace (by simp [bfpMaxPageNum, hp])
  let rid : RID := ⟨1, 0⟩
  obtain ⟨s₃, hr, hinv₃⟩ := hinv₂.remove (show [[(⟨b₁, true⟩ : Slot)], [⟨b₂, true⟩]][0]? = _ from rfl)
    (show rid.pageId = 0 + 1 from rfl)
  have hstep₃ : HeapStep (s₂, [⟨⟨1, 0⟩, b₁, true⟩, ⟨⟨2, 0⟩, b₂, true⟩]) (.remove rid)
      (s₃, [⟨⟨1, 0⟩, b₁, false⟩, ⟨⟨2, 0⟩, b₂, true⟩]) :=
    .remove ⟨_, List.mem_cons_self, rfl⟩ hr
  refine ⟨_, BufferPool.openFile_absent_succ 0, s₃, _,
    .cons hstep₁ (.cons hstep₂ (.single hstep₃)), rfl, fun hexact => ?_⟩
  have h : Records (s₃, [⟨⟨1, 0⟩, b₁, false⟩, ⟨⟨2, 0⟩, b₂, true⟩]) := ⟨_, hinv₃, rfl⟩
  have hcur : 1 ≤ s₃.currentPid := by
    rw [hinv₃.currentPid_eq]
    exact Nat.le_succ 1
  have hle : 2 ≤ 1 := h.scanIsExact_iff.1 hexact 1 le_rfl hcur
    (.inr ⟨⟨⟨1, 0⟩, b₁, false⟩, by simp, rfl⟩) ⟨⟨2, 0⟩, b₂, true⟩ (by simp) rfl
  exact absurd hle (by decide)

end Tadis.TableHeap
