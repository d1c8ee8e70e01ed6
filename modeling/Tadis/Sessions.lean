import Tadis.Restart
import Tadis.RecordScanner

/-!
# Sessions on one file

A session opens the file of a table heap, inserts records and closes. Closing writes the header page
and every dirty page, so that the next session finds the same pages. As long as every record fits
into an empty page, no page stays empty and no slot is removed, and a scan returns all records.
-/

namespace Tadis.BufferPool

variable {n m : ℕ} {v : PageView}

theorem unpin_setPage_dirty (s : BufferPool n) {id : ℕ} {f : Fin n} (hd : s.dir.lookup id = some f)
    (p : Page) : (s.setPage f { p with dirty := true }).unpin id true = (s.setPage f p).unpin id true := by
  rw [unpin_eq _ true (show (s.setPage f { p with dirty := true }).dir.lookup id = some f from hd),
    unpin_eq _ true (show (s.setPage f p).dir.lookup id = some f from hd)]
  simp [setPage]

/-- Closing a pool in which nothing is pinned writes the header and every page of the view. -/
theorem Shows.close {s : BufferPool (m + 1)} (h : s.Shows v) (hpins : v.pins = fun _ => 0)
    (hunsaved : v.unsaved = ∅) (hz : 0 ∈ v.live) (hclosed : s.closed = false)
    (hfit : Block.Fits pageSize 16 s.head.bitmap.length) (hn : s.head.pageNum < 2 ^ 64)
    (hp : s.head.phyNum < 2 ^ 64) :
    ∃ t, s.close = some t ∧ HoldsHeader t.disk.file s.head ∧
      (∀ id ∈ v.live, id ≠ 0 → t.disk.stored id = v.bytes id) ∧
      ∀ id, id ∉ v.live → Addressable id → t.disk.stored id = s.disk.stored id := by
  obtain ⟨f, u, hf⟩ := h.fetch_ne_none hpins 0
  obtain ⟨hu, hd, _⟩ := h.fetch hz (by simp [hpins]) hf
  have hus : (s.fetch 0).2 = u := by rw [hf]
  have hhead : u.head = s.head := hus ▸ fetch_head s 0
  have hpid : (u.pages f).pid = 0 := (hu.frames.pid_of_lookup hd).1
  obtain ⟨p, hwp⟩ : ∃ p, s.head.write2page (u.pages f) = some p := ⟨_, if_pos hfit⟩
  have hload := BFPHeaderPage.load_of_write2page hwp hn hp
  have hp2 := ((s.head.write2page_eq_some_iff _ _).1 hwp).2
  generalize hb : ((storeSize (storeSize (u.pages f).buffer 0 s.head.pageNum) 8
    s.head.phyNum).store 16 s.head.bitmap) = b at hp2
  have hpins' : (v.pin 0).pins = addPin (fun _ => 0) 0 := by rw [PageView.pin, hpins]
  have hunsaved' : (v.pin 0).unsaved = ∅ := hunsaved
  have hw : ((u.setPage f { u.pages f with buffer := b }).unpin 0 true).Shows
      (((v.pin 0).write 0 b).unpin 0 ∅) :=
    (hu.write hd (by simp [hpins', addPin]) b).unpin (by simp [PageView.write, hpins', addPin])
      (by simp [PageView.write, hunsaved']) (by simp)
  have hwrite : s.writeHeadPage =
      some (true, (u.setPage f { u.pages f with buffer := b }).unpin 0 true) := by
    have hp0 : p.pid = 0 := by rw [hp2, hpid]
    rw [writeHeadPage, hf]
    dsimp only
    rw [hhead, hwp, Option.bind_eq_bind, Option.bind_some, hp0, hp2]
    rw [unpin_setPage_dirty u hd { u.pages f with buffer := b }]
  refine ⟨_, ((close_eq_some_iff hclosed).2 ⟨_, hwrite, rfl⟩).1, ?_, ?_, ?_⟩
  · have hst := hw.stored_flushAllPage hz (Set.notMem_empty 0)
    have hb0 : p.buffer = b := by rw [hp2]
    simp only [PageView.unpin, PageView.write, Function.update_self] at hst
    rw [hb0, ← hst] at hload
    exact ⟨hload.1, hload.2.1, hload.2.2⟩
  · intro id hid h0
    refine (hw.stored_flushAllPage hid (Set.notMem_empty id)).trans ?_
    simp [PageView.unpin, PageView.write, PageView.pin, h0]
  · intro id hid haddr
    refine (hw.flushAllPage_stored haddr hid).trans ?_
    rw [unpin_disk]
    refine Eq.trans ?_ (h.fetch_stored 0 haddr hid)
    rw [hus]
    rfl

theorem openFile_closed {file : File} {s : BufferPool (m + 1)} (h : openFile (m + 1) file = some s) :
    s.closed = false := by
  rw [openFile_succ] at h
  obtain ⟨r, _, rfl⟩ := Option.map_eq_some_iff.1 h
  rfl

theorem openFile_stored {file : File} {s : BufferPool (m + 1)} (h : openFile (m + 1) file = some s)
    {id : ℕ} (hid : Addressable id) (h0 : id ≠ 0) :
    s.disk.stored id = DiskManager.stored { file := file } id := by
  rw [openFile_succ] at h
  obtain ⟨r, _, rfl⟩ := Option.map_eq_some_iff.1 h
  cases hr : r.1
  · simp [openedPool, hr, DiskManager.stored, DiskManager.readPage]
  · exact stored_update_zero file _ r.2.2.buffer hid h0 (by simp [openedPool, hr])

theorem Dense.header_readable {s : BufferPool n} {k : ℕ} (h : s.Dense k) (hk : k < bfpMaxPageNum) :
    Block.Fits pageSize 16 s.head.bitmap.length ∧
      s.head.bitmap.length = BFPHeaderPage.bitmapSize s.head.pageNum s.head.phyNum := by
  rw [h.pageNum_eq, h.phyNum_eq, BFPHeaderPage.bitmapSize_self_eq, h.bitmap_length]
  unfold Block.Fits bfpMaxPageNum pageSize at *
  omega

end Tadis.BufferPool

namespace Tadis.TableHeap

open BufferPool RecordScanner

variable {n m : ℕ} {s s' : BufferPool n} {pages : List (List Slot)}

def close (s : BufferPool n) : Option (BufferPool n) := BufferPool.close s

/-- Insert records one after the other; the results of `insert` are collected. -/
def insertAll (s : BufferPool n) : List Bytes → Option (List Bool × BufferPool n)
  | [] => some ([], s)
  | bytes :: rest =>
    (insert s { data := bytes }).bind (fun x =>
      (insertAll x.2 rest).map (fun y => (x.1.isSome :: y.1, y.2)))

structure Session where
  poolSize : ℕ
  pos : 0 < poolSize
  records : List Bytes

def Session.run (se : Session) (file : File) : Option (List Bool × File) :=
  (openFile se.poolSize file).bind (fun s =>
    (insertAll s se.records).bind (fun x => (close x.2).map (fun t => (x.1, t.disk.file))))

def runSessions : File → List Session → Option (List Bool × File)
  | file, [] => some ([], file)
  | file, se :: rest =>
    (se.run file).bind (fun x => (runSessions x.2 rest).map (fun y => (x.1 ++ y.1, y.2)))

/-- Every record is at most 990 bytes long and shorter than `free_addr_end_` of the page that is
tried first, and fewer than 8064 pages are allocated. -/
def Admissible (s : BufferPool n) : List Bytes → Prop
  | [] => True
  | bytes :: rest =>
    bytes.length ≤ 990 ∧ (∀ e, firstFreeEnd s = some e → bytes.length < e) ∧
      ∀ r s', insert s { data := bytes } = some (r, s') →
        s'.currentPid < BFPHeaderPage.maxPageCount ∧ Admissible s' rest

def SessionsAdmissible : File → List Session → Prop
  | _, [] => True
  | file, se :: rest =>
    (∀ s, openFile se.poolSize file = some s → Admissible s se.records) ∧
      ∀ x, se.run file = some x → SessionsAdmissible x.2 rest

/-- Opening the file with any pool gives the heap back. -/
def SavedHeap (file : File) (pages : List (List Slot)) : Prop :=
  ∀ m, ∃ s : BufferPool (m + 1), openFile (m + 1) file = some s ∧ HeapInv s pages

theorem savedHeap_absent : SavedHeap File.absent [] :=
  fun m => ⟨freshPool m, openFile_absent_succ m, heapInv_freshPool m⟩

/-- What the pool leaves in the file when a heap is closed. -/
structure Saved (file : File) (s : BufferPool n) (v : PageView) (pages : List (List Slot)) :
    Prop where
  header : HoldsHeader file s.head
  data : ∀ i < pages.length, DiskManager.stored { file := file } (i + 1) = v.bytes (i + 1)
  blank : pages = [] → DiskManager.stored { file := file } 1 = Block.zero

theorem Stores.reopened {v : PageView} (h : Stores s v pages) (hlimit : pages.length < bfpMaxPageNum)
    {file : File} (hf : Saved file s v pages) : SavedHeap file pages := by
  intro m
  have hget := h.dense.allocates.get_iff
  obtain ⟨hfit, hlen⟩ := Dense.header_readable h.dense hlimit
  have hpos : s.head.pageNum ≠ 0 := by
    rw [h.dense.pageNum_eq]
    exact Nat.succ_ne_zero _
  obtain ⟨t, ht, hv, ha, hhead, hnext⟩ := openFile_of_header m s.head hf.header.pageNum
    hf.header.phyNum (hlen ▸ hfit) (hlen ▸ hf.header.bitmap) hpos
    ((hget 0).2 (Nat.zero_le _))
    (fun id hid => by rw [h.dense.phyNum_eq]; exact Nat.lt_succ_of_le ((hget id).1 hid))
  have hlive : {id | BitMap.get s.head.bitmap id = true} = {i | i ≤ pages.length} := Set.ext hget
  rw [hlive] at hv ha
  refine ⟨t, ht, ⟨_, ⟨hv, rfl, ?_, ?_⟩, rfl, rfl⟩, fun he => ?_⟩
  · exact ⟨ha, hnext.trans h.dense.phyNum_eq, by rw [hhead, h.dense.pageNum_eq],
      by rw [hhead, h.dense.phyNum_eq], by rw [hhead, h.dense.bitmap_length], openFile_closed ht⟩
  · intro i slots hi
    have hlt : i < pages.length := (List.getElem?_eq_some_iff.1 hi).1
    obtain ⟨rp, hrp⟩ := h.formatted i slots hi
    rw [openedView_bytes, openedBytes_of_header (by rwa [hf.header.pageNum]), hf.data i hlt]
    exact ⟨rp, hrp⟩
  · have haddr : Addressable 1 := addressable_of_le (by simp [bfpMaxPageNum, pageSize])
    rw [openFile_stored ht haddr one_ne_zero, hf.blank he]

theorem HeapInv.close {s : BufferPool (m + 1)} (h : HeapInv s pages)
    (hlimit : pages.length < bfpMaxPageNum) :
    ∃ t, TableHeap.close s = some t ∧ SavedHeap t.disk.file pages := by
  obtain ⟨v, hv, hrest⟩ := h.stores
  have hlt : pages.length + 1 < 2 ^ 64 := by
    unfold bfpMaxPageNum pageSize at hlimit
    omega
  obtain ⟨hfit, _⟩ := hv.dense.header_readable hlimit
  obtain ⟨t, ht, hheader, hdata, hold⟩ := hv.shows.close hrest.pins_eq hrest.unsaved_eq
    (hv.mem_live (Nat.zero_le _)) hv.dense.not_closed hfit (hv.dense.pageNum_eq ▸ hlt)
    (hv.dense.phyNum_eq ▸ hlt)
  refine ⟨t, ht, hv.reopened hlimit ⟨hheader, ?_, fun he => ?_⟩⟩
  · exact fun i hi => hdata (i + 1) (hv.mem_live hi) (Nat.succ_ne_zero i)
  · have hnot : (1 : ℕ) ∉ v.live := by
      rw [hv.live_eq, he]
      simp
    have haddr : Addressable 1 := addressable_of_le (by simp [bfpMaxPageNum, pageSize])
    exact (hold 1 hnot haddr).trans (h.blank he)

/-- No page is empty and no slot is removed. A page keeps more than 32 bytes of its free space. -/
structure Filled (pages : List (List Slot)) : Prop where
  ne_nil : ∀ slots ∈ pages, slots ≠ []
  live : ∀ slots ∈ pages, ∀ s ∈ slots, s.live = true
  room : ∀ slots ∈ pages, 32 < freeEnd slots

def contents (pages : List (List Slot)) : List Bytes := pages.flatten.map Slot.bytes

theorem filled_nil : Filled [] := ⟨by simp, by simp, by simp⟩

theorem fits_nil {len : ℕ} (h : len ≤ 990) : Fits [] len := by
  rw [Fits, freeEnd_nil, List.length_nil]
  have hp : pageSize = 1024 := rfl
  omega

theorem freeEnd_append (slots : List Slot) (s : Slot) :
    freeEnd (slots ++ [s]) = freeEnd slots - s.bytes.length - 1 := by
  simp only [freeEnd, used, List.map_append, List.sum_append, List.map_cons, List.map_nil,
    List.sum_cons, List.sum_nil]
  omega

theorem room_of_fits {slots : List Slot} {bytes : Bytes} (h : Fits slots bytes.length) (b : Bool) :
    32 < freeEnd (slots ++ [⟨bytes, b⟩]) := by
  rw [freeEnd_append]
  unfold Fits at h
  dsimp only
  omega

theorem Filled.push {front : List (List Slot)} {last : List Slot} {bytes : Bytes}
    (h : Filled front) (hlive : ∀ s ∈ last, s.live = true) (hfit : Fits last bytes.length) :
    Filled (front ++ [last ++ [⟨bytes, true⟩]]) := by
  refine ⟨?_, ?_, ?_⟩ <;> intro slots hs <;> rcases List.mem_append.1 hs with hs | hs
  · exact h.ne_nil slots hs
  · rw [List.mem_singleton.1 hs]
    simp
  · exact h.live slots hs
  · rw [List.mem_singleton.1 hs]
    intro s hs
    rcases List.mem_append.1 hs with hs | hs
    · exact hlive s hs
    · rw [List.mem_singleton.1 hs]
  · exact h.room slots hs
  · rw [List.mem_singleton.1 hs]
    exact room_of_fits hfit true

theorem contents_push (front : List (List Slot)) (last : List Slot) (bytes : Bytes) :
    contents (front ++ [last ++ [⟨bytes, true⟩]]) = contents (front ++ [last]) ++ [bytes] := by
  simp [contents]

theorem placeNew_of_le (pages : List (List Slot)) {bytes : Bytes} (h : bytes.length ≤ 990) :
    placeNew pages bytes = (some ⟨pages.length + 1, 0⟩, pages ++ [[⟨bytes, true⟩]]) :=
  if_pos (fits_nil h)

theorem Filled.insertPages {bytes : Bytes} (h : Filled pages) (hlen : bytes.length ≤ 990) :
    (insertPages pages bytes).1.isSome = true ∧ Filled (insertPages pages bytes).2 ∧
      contents (insertPages pages bytes).2 = contents pages ++ [bytes] ∧
      (TableHeap.insertPages pages bytes).2.length ≤ pages.length + 1 := by
  have hnew : Filled (pages ++ [[⟨bytes, true⟩]]) := h.push (by simp) (fits_nil hlen)
  unfold TableHeap.insertPages
  cases hl : pages.getLast? with
  | none =>
    obtain rfl := List.getLast?_eq_none_iff.1 hl
    have hplace : placeLast [[]] [] bytes = (some ⟨1, 0⟩, [[⟨bytes, true⟩]]) := if_pos (fits_nil hlen)
    dsimp only
    rw [hplace]
    exact ⟨rfl, hnew, rfl, le_rfl⟩
  | some last =>
    obtain ⟨front, rfl⟩ := List.getLast?_eq_some_iff.1 hl
    dsimp only
    unfold placeLast
    by_cases hfit : Fits last bytes.length
    · have hset : (front ++ [last]).set ((front ++ [last]).length - 1) (last ++ [⟨bytes, true⟩]) =
          front ++ [last ++ [⟨bytes, true⟩]] := by simp
      have hfront : Filled front := ⟨fun x hx => h.ne_nil x (by simp [hx]),
        fun x hx => h.live x (by simp [hx]), fun x hx => h.room x (by simp [hx])⟩
      rw [if_pos hfit, hset]
      refine ⟨rfl, hfront.push (h.live last (by simp)) hfit, contents_push front last bytes, ?_⟩
      simp
    · rw [if_neg hfit, placeNew_of_le _ hlen]
      refine ⟨rfl, hnew, ?_, by simp⟩
      simp [contents]

theorem pageRows_bytes (pid j : ℕ) {slots : List Slot} (h : ∀ s ∈ slots, s.live = true) :
    (pageRows pid j slots).map Prod.snd = slots.map Slot.bytes := by
  induction slots generalizing j with
  | nil => rfl
  | cons s slots ih =>
    rw [pageRows, if_pos (h s List.mem_cons_self), List.map_cons, List.map_cons,
      ih (j + 1) (fun t ht => h t (List.mem_cons_of_mem _ ht))]

theorem scanFrom_bytes (pid : ℕ) (slots : List Slot) (rest : List (List Slot))
    (h : Filled (slots :: rest)) :
    (scanFrom pid slots rest).map Prod.snd = contents (slots :: rest) := by
  induction rest generalizing pid slots with
  | nil =>
    rw [scanFrom, pageRows_bytes pid 0 (h.live slots List.mem_cons_self)]
    simp [contents]
  | cons next rest ih =>
    have hlive := h.live slots List.mem_cons_self
    have hrest : Filled (next :: rest) := ⟨fun x hx => h.ne_nil x (List.mem_cons_of_mem _ hx),
      fun x hx => h.live x (List.mem_cons_of_mem _ hx), fun x hx => h.room x (List.mem_cons_of_mem _ hx)⟩
    have hgo : ¬ (EndsDead slots ∨ next = []) := by
      rintro (⟨s, hs, hdead⟩ | hnil)
      · rw [hlive s (List.mem_of_getLast? hs)] at hdead
        cases hdead
      · exact hrest.ne_nil next List.mem_cons_self hnil
    rw [scanFrom, if_neg hgo, List.map_append, pageRows_bytes pid 0 hlive, ih _ _ hrest]
    simp [contents]

theorem Filled.scanRows_bytes (h : Filled pages) : (scanRows pages).map Prod.snd = contents pages := by
  cases pages with
  | nil => rfl
  | cons slots rest => exact scanFrom_bytes 1 slots rest h

theorem HeapInv.insertAll {s : BufferPool (m + 1)} (h : HeapInv s pages) (hf : Filled pages)
    (hlimit : pages.length < bfpMaxPageNum) {records : List Bytes} (ha : Admissible s records) :
    ∃ s' pages', insertAll s records = some (records.map (fun _ => true), s') ∧
      HeapInv s' pages' ∧ Filled pages' ∧ pages'.length < bfpMaxPageNum ∧
      pages'.length ≤ pages.length + records.length ∧
      contents pages' = contents pages ++ records := by
  induction records generalizing s pages with
  | nil => exact ⟨s, pages, rfl, h, hf, hlimit, le_rfl, (List.append_nil _).symm⟩
  | cons bytes rest ih =>
    obtain ⟨hsize, hend, hnext⟩ := ha
    have hp : pageSize = 1024 := rfl
    obtain ⟨hok, hf', hcontents, hle⟩ := hf.insertPages hsize
    obtain ⟨r, t, hi, hlim, hres⟩ := h.insert
      (show ({ data := bytes } : Record).data.length < _ from hend _ h.firstFreeEnd_eq)
      (show bytes.length < pageSize by omega)
    obtain ⟨hcur, hrest⟩ := hnext r t hi
    obtain ⟨rfl, hinv⟩ := hres hcur.le
    have hlimit' : (insertPages pages bytes).2.length < bfpMaxPageNum := by
      rw [← hinv.currentPid_eq]
      exact hcur
    obtain ⟨s', pages', hall, hinv', hfilled, hlen, hgrow, hc⟩ := ih hinv hf' hlimit' hrest
    refine ⟨s', pages', ?_, hinv', hfilled, hlen, ?_, ?_⟩
    · rw [TableHeap.insertAll, hi, Option.bind_some, hall, Option.map_some, List.map_cons]
      dsimp only
      rw [hok]
    · rw [List.length_cons]
      exact (hgrow.trans (Nat.add_le_add_right hle _)).trans (by omega)
    · rw [hc, hcontents, List.append_assoc]
      rfl

theorem Session.run_saved (se : Session) {file : File} (h : SavedHeap file pages) (hf : Filled pages)
    (hlimit : pages.length < bfpMaxPageNum)
    (ha : ∀ s, openFile se.poolSize file = some s → Admissible s se.records) :
    ∃ file' pages', se.run file = some (se.records.map (fun _ => true), file') ∧
      SavedHeap file' pages' ∧ Filled pages' ∧ pages'.length < bfpMaxPageNum ∧
      pages'.length ≤ pages.length + se.records.length ∧
      contents pages' = contents pages ++ se.records := by
  obtain ⟨poolSize, hpos, records⟩ := se
  obtain ⟨m, rfl⟩ : ∃ m, poolSize = m + 1 := Nat.exists_eq_succ_of_ne_zero hpos.ne'
  obtain ⟨s, hs, hinv⟩ := h m
  obtain ⟨s', pages', hall, hinv', hfilled, hlen, hgrow, hc⟩ := hinv.insertAll hf hlimit (ha s hs)
  obtain ⟨t, ht, hsaved⟩ := hinv'.close hlen
  refine ⟨t.disk.file, pages', ?_, hsaved, hfilled, hlen, hgrow, hc⟩
  rw [Session.run]
  dsimp only at hall ⊢
  rw [hs, Option.bind_some, hall, Option.bind_some]
  dsimp only
  rw [ht, Option.map_some]

theorem runSessions_saved {file : File} {sessions : List Session} (h : SavedHeap file pages)
    (hf : Filled pages) (hlimit : pages.length < bfpMaxPageNum)
    (ha : SessionsAdmissible file sessions) :
    ∃ file' pages', runSessions file sessions =
        some ((sessions.flatMap Session.records).map (fun _ => true), file') ∧
      SavedHeap file' pages' ∧ Filled pages' ∧
      contents pages' = contents pages ++ sessions.flatMap Session.records := by
  induction sessions generalizing file pages with
  | nil => exact ⟨file, pages, rfl, h, hf, (List.append_nil _).symm⟩
  | cons se rest ih =>
    obtain ⟨file₁, pages₁, hrun, h₁, hf₁, hlimit₁, _, hc₁⟩ := se.run_saved h hf hlimit ha.1
    obtain ⟨file', pages', hruns, h', hf', hc'⟩ := ih h₁ hf₁ hlimit₁ (ha.2 _ hrun)
    refine ⟨file', pages', ?_, h', hf', ?_⟩
    · rw [runSessions, hrun, Option.bind_some]
      dsimp only
      rw [hruns, Option.map_some, List.flatMap_cons, List.map_append]
    · rw [hc', hc₁, List.append_assoc, List.flatMap_cons]

/-- Every insertion of every session returns true, and opening the file once more with any pool and
scanning it returns the records of all sessions in order. -/
theorem reopened_scan_returns_all {sessions : List Session}
    (h : SessionsAdmissible File.absent sessions) :
    ∃ file, runSessions File.absent sessions =
        some ((sessions.flatMap Session.records).map (fun _ => true), file) ∧
      ∀ m, ∃ s : BufferPool (m + 1), openFile (m + 1) file = some s ∧
        ∃ sc s' rows t, RecordScanner.init s = some (some sc, s') ∧
          Pull.Drains seqScanNext (sc, s') rows .outOfRange t ∧
          rows.map Prod.snd = sessions.flatMap Session.records := by
  obtain ⟨file, pages, hrun, hsaved, hf, hc⟩ :=
    runSessions_saved savedHeap_absent filled_nil (by simp [bfpMaxPageNum, pageSize]) h
  refine ⟨file, hrun, fun m => ?_⟩
  obtain ⟨s, hs, hinv⟩ := hsaved m
  obtain ⟨sc, s', t, hi, hd⟩ := scan_heap hinv
  exact ⟨s, hs, sc, s', _, t, hi, hd, hf.scanRows_bytes.trans hc⟩

theorem HeapInv.admissible_of_short {s : BufferPool (m + 1)} (h : HeapInv s pages)
    (hf : Filled pages) {records : List Bytes} (hshort : ∀ b ∈ records, b.length ≤ 32)
    (hcount : pages.length + records.length < bfpMaxPageNum) : Admissible s records := by
  induction records generalizing s pages with
  | nil => trivial
  | cons bytes rest ih =>
    have hp : pageSize = 1024 := rfl
    have hlen : bytes.length ≤ 32 := hshort bytes List.mem_cons_self
    rw [List.length_cons] at hcount
    have hend : 32 < lastFreeEnd pages := by
      unfold lastFreeEnd
      cases hl : pages.getLast? with
      | none => simp [hp]
      | some last => exact hf.room last (List.mem_of_getLast? hl)
    refine ⟨by omega, fun e he => ?_, fun r s' hi => ?_⟩
    · rw [h.firstFreeEnd_eq] at he
      rw [← Option.some.inj he]
      omega
    · obtain ⟨_, hf', _, hle⟩ := hf.insertPages (show bytes.length ≤ 990 by omega)
      obtain ⟨r', t, ht, hlim, hres⟩ := h.insert
        (show ({ data := bytes } : Record).data.length < _ from hlen.trans_lt hend)
        (show bytes.length < pageSize by omega)
      obtain ⟨rfl, rfl⟩ := by simpa using hi.symm.trans ht
      obtain ⟨rfl, hinv⟩ := hres (hlim (show _ ≤ bfpMaxPageNum by dsimp only; omega))
      refine ⟨?_, ih hinv hf' (fun b hb => hshort b (List.mem_cons_of_mem _ hb)) ?_⟩
      · rw [hinv.currentPid_eq]
        exact hle.trans_lt (show _ < bfpMaxPageNum by omega)
      · dsimp only
        omega

theorem sessionsAdmissible_of_short {file : File} {sessions : List Session}
    (h : SavedHeap file pages) (hf : Filled pages)
    (hshort : ∀ b ∈ sessions.flatMap Session.records, b.length ≤ 32)
    (hcount : pages.length + (sessions.flatMap Session.records).length < bfpMaxPageNum) :
    SessionsAdmissible file sessions := by
  induction sessions generalizing file pages with
  | nil => trivial
  | cons se rest ih =>
    rw [List.flatMap_cons] at hshort hcount
    rw [List.length_append] at hcount
    have hadm : ∀ s, openFile se.poolSize file = some s → Admissible s se.records := by
      obtain ⟨poolSize, hpos, records⟩ := se
      obtain ⟨m, rfl⟩ : ∃ m, poolSize = m + 1 := Nat.exists_eq_succ_of_ne_zero hpos.ne'
      intro s hs
      obtain ⟨s', hs', hinv⟩ := h m
      obtain rfl := Option.some.inj (hs.symm.trans hs')
      exact hinv.admissible_of_short hf (fun b hb => hshort b (List.mem_append_left _ hb)) (by omega)
    refine ⟨hadm, fun x hx => ?_⟩
    obtain ⟨file', pages', hrun, h', hf', _, hgrow, _⟩ := se.run_saved h hf (by omega) hadm
    obtain rfl := Option.some.inj (hx.symm.trans hrun)
    exact ih h' hf' (fun b hb => hshort b (List.mem_append_right _ hb)) (by omega)

/-- `reopened_scan_returns_all` for two sessions with pools of one and two frames. -/
theorem reopened_scan_two_sessions :
    let sessions : List Session := [⟨1, Nat.one_pos, [[7, 8], []]⟩, ⟨2, Nat.two_pos, [[9]]⟩]
    SessionsAdmissible File.absent sessions ∧
      ∃ file, runSessions File.absent sessions = some ([true, true, true], file) ∧
        ∀ m, ∃ s : BufferPool (m + 1), openFile (m + 1) file = some s ∧
          ∃ sc s' rows t, RecordScanner.init s = some (some sc, s') ∧
            Pull.Drains seqScanNext (sc, s') rows .outOfRange t ∧
            rows.map Prod.snd = [[7, 8], [], [9]] := by
  have h : SessionsAdmissible File.absent
      [⟨1, Nat.one_pos, [[7, 8], []]⟩, ⟨2, Nat.two_pos, [[9]]⟩] :=
    sessionsAdmissible_of_short savedHeap_absent filled_nil (by decide) (by decide)
  exact ⟨h, reopened_scan_returns_all h⟩

end Tadis.TableHeap
