import Tadis.PageView

/-!
# Allocated pages

The header's bitmap marks the allocated pages. Every allocated id is below the next page id, so the
id that `new_page` takes, a clear bit or the next page id, was not allocated. When only allocated
pages are cached it therefore is not cached either, and `new_page` keeps the page table.
-/

namespace Tadis.BufferPool

variable {n : ℕ} {s s' : BufferPool n} {v : PageView} {live : Set ℕ}

structure Allocates (s : BufferPool n) (live : Set ℕ) : Prop where
  bounded : s.BitmapBounded
  zero_mem : 0 ∈ live
  get_iff : ∀ id, BitMap.get s.head.bitmap id = true ↔ id ∈ live
  lt_next : ∀ id ∈ live, id < s.disk.nextPid

theorem contain_eq_success_iff (id : ℕ) :
    s.contain id = .success ↔ BitMap.get s.head.bitmap id = true := by
  unfold contain
  by_cases hlen : s.head.bitmap.length * 8 ≤ id
  · simp [hlen, BitMap.get_of_length_le hlen]
  · cases hg : BitMap.get s.head.bitmap id <;> simp [hlen]

theorem Allocates.congr (h : s.Allocates live) (hhead : s'.head = s.head)
    (hnext : s'.disk.nextPid = s.disk.nextPid) : s'.Allocates live where
  bounded := by simpa only [BitmapBounded, hhead] using h.bounded
  zero_mem := h.zero_mem
  get_iff id := by rw [hhead, h.get_iff]
  lt_next id hid := by
    rw [hnext]
    exact h.lt_next id hid

theorem Allocates.chosenId_not_mem (h : s.Allocates live) {id : ℕ} (hc : s.chosenId = some id) :
    id ∉ live ∧ id < s.chosenDisk.nextPid := by
  rcases chosenId_cases hc with ⟨hr, hd⟩ | ⟨_, rfl, _, hd⟩
  · obtain ⟨_, hg, hlt⟩ := reusableId_eq_some hr
    rw [← h.get_iff, hg, hd]
    have hpos := h.lt_next 0 h.zero_mem
    rw [DiskManager.currentPid, sizeDec_of_pos hpos] at hlt
    exact ⟨by simp, by omega⟩
  · rw [hd]
    exact ⟨fun hid => absurd (h.lt_next _ hid) (lt_irrefl _), Nat.lt_succ_self _⟩

theorem nextPid_le_chosenDisk (s : BufferPool n) : s.disk.nextPid ≤ s.chosenDisk.nextPid := by
  unfold chosenDisk
  split
  · exact le_rfl
  · exact Nat.le_succ _

theorem get_growBitmap (bitmap : Bytes) (idx i : ℕ) :
    BitMap.get (growBitmap bitmap idx) i = BitMap.get bitmap i :=
  BitMap.get_append_zeros bitmap _ i

theorem lt_length_growBitmap (bitmap : Bytes) (idx : ℕ) :
    idx < (growBitmap bitmap idx).length * 8 := by
  rw [length_growBitmap]
  omega

theorem Allocates.newPage (h : s.Allocates live) {id : ℕ} {f : Fin n}
    (hf : s.newPage = (some (id, f), s')) : s'.Allocates (insert id live) ∧ id ∉ live := by
  have hb := h.bounded.newPage
  rw [hf] at hb
  rcases s.newPage_cases with ⟨_, hg⟩ | ⟨j, g, free, lru, hc, _, hg⟩
  · simp [hf] at hg
  · obtain ⟨⟨rfl, rfl⟩, rfl⟩ := by simpa [hf] using hg
    obtain ⟨hnot, hlt⟩ := h.chosenId_not_mem hc
    refine ⟨⟨hb, .inr h.zero_mem, ?_, ?_⟩, hnot⟩
    · intro i
      simp only [allocFrame_eq]
      rw [BitMap.get_set _ _ _ (lt_length_growBitmap _ _), get_growBitmap, Set.mem_insert_iff]
      by_cases hi : id = i
      · simp [hi]
      · simp [hi, Ne.symm hi, h.get_iff]
    · simp only [allocFrame_eq, evicted_nextPid]
      rintro i (rfl | hi)
      · exact hlt
      · exact (h.lt_next i hi).trans_le s.nextPid_le_chosenDisk

theorem Allocates.newPage_none (h : s.Allocates live) (hf : s.newPage = (none, s')) :
    s'.Allocates live := by
  rw [newPage_none_eq hf]
  exact ⟨h.bounded, h.zero_mem, h.get_iff,
    fun id hid => (h.lt_next id hid).trans_le s.nextPid_le_chosenDisk⟩

theorem fetch_nextPid (id : ℕ) : (s.fetch id).2.disk.nextPid = s.disk.nextPid := by
  rcases s.fetch_cases id with ⟨f, _, hf⟩ | ⟨_, _, hf⟩ | ⟨f, free, lru, _, _, hf⟩
  · rw [hf]
    rfl
  · rw [hf]
  · rw [hf, loadFrame_eq]
    simp

theorem unpin_disk (id : ℕ) (d : Bool) : (s.unpin id d).disk = s.disk := by
  cases hd : s.dir.lookup id with
  | none => rw [s.unpin_of_not_cached d hd]
  | some f => rw [s.unpin_eq d hd]

theorem unpin_nextPid (id : ℕ) (d : Bool) : (s.unpin id d).disk.nextPid = s.disk.nextPid := by
  rw [unpin_disk]

theorem fetch_closed (id : ℕ) : (s.fetch id).2.closed = s.closed := by
  rcases s.fetch_cases id with ⟨f, _, hf⟩ | ⟨_, _, hf⟩ | ⟨f, free, lru, _, _, hf⟩
  · rw [hf]
    rfl
  · rw [hf]
  · rw [hf, loadFrame_eq]

theorem unpin_closed (id : ℕ) (d : Bool) : (s.unpin id d).closed = s.closed := by
  cases hd : s.dir.lookup id with
  | none => rw [s.unpin_of_not_cached d hd]
  | some f => rw [s.unpin_eq d hd]

theorem Allocates.fetch (h : s.Allocates live) (id : ℕ) : (s.fetch id).2.Allocates live :=
  h.congr (fetch_head s id) (fetch_nextPid id)

theorem Allocates.unpin (h : s.Allocates live) (id : ℕ) (d : Bool) :
    (s.unpin id d).Allocates live := h.congr (unpin_head s id d) (unpin_nextPid id d)

theorem flushEntries_nextPid (pages : Fin n → Page) (d : DiskManager)
    (l : List (Sigma fun _ : ℕ => Fin n)) : (flushEntries pages d l).nextPid = d.nextPid := by
  induction l generalizing d with
  | nil => rfl
  | cons e l ih =>
    rw [flushEntries, List.foldl_cons, ← flushEntries, ih]
    split <;> rfl

/-- Caching only allocated pages makes `new_page` keep the page table. -/
theorem Shows.keepsTable (hv : s.Shows v) (h : s.Allocates v.live) : s.KeepsTable .newPage := by
  intro id f hid _
  cases hd : s.dir.lookup id with
  | none => exact .inl rfl
  | some g => exact absurd (hv.cached_live id g hd) (h.chosenId_not_mem hid).1

/-- The header that opening the file writes into a page 0 without one. -/
def formatted (b : PageBlock) : PageBlock :=
  (storeSize (storeSize b 0 1) 8 1).store 16 (BitMap.set [0] 0 true)

/-- The bytes of each page once the file has been opened. -/
def openedBytes (file : File) (id : ℕ) : PageBlock :=
  if id = 0 ∧ loadSize (DiskManager.stored { file := file } 0) 0 = 0 then
    formatted (DiskManager.stored { file := file } 0)
  else DiskManager.stored { file := file } id

def openedView (file : File) (live : Set ℕ) : PageView where
  pins := fun _ => 0
  unsaved := ∅
  live := live
  bytes := openedBytes file

@[simp] theorem openedView_bytes (file : File) (live : Set ℕ) :
    (openedView file live).bytes = openedBytes file := rfl

theorem init_buffer {file : File} {r : Bool × BFPHeaderPage × Page}
    (hi : BFPHeaderPage.init (headerPage file) = some r) :
    r.2.2.buffer = openedBytes file 0 ∧
      (r.1 = false → openedBytes file 0 = DiskManager.stored { file := file } 0) := by
  rcases BFPHeaderPage.init_cases hi with ⟨h0, q, hq, rfl⟩ | ⟨h0, _, rfl⟩
  · obtain ⟨-, rfl⟩ := (BFPHeaderPage.write2page_eq_some_iff _ _ _).1 hq
    refine ⟨(if_pos ⟨rfl, h0⟩).symm, fun h => by cases h⟩
  · have hb : openedBytes file 0 = DiskManager.stored { file := file } 0 := if_neg (fun h => h0 h.2)
    exact ⟨hb.symm, fun _ => hb⟩

theorem stored_update_zero (file : File) (d : DiskManager) (b : PageBlock) {id : ℕ}
    (hid : Addressable id) (h0 : id ≠ 0)
    (hd : d.file = Function.update file (pageOffset 0) (some b)) :
    d.stored id = DiskManager.stored { file := file } id := by
  have hne := pageOffset_ne hid (addressable_of_le (Nat.zero_le _)) h0
  simp [DiskManager.stored, DiskManager.readPage, hd, Function.update_of_ne hne]

/-- A pool that has just been opened shows the file. -/
theorem shows_openedPool {m : ℕ} {file : File} {r : Bool × BFPHeaderPage × Page} {live : Set ℕ}
    (hi : BFPHeaderPage.init (headerPage file) = some r) (hz : 0 ∈ live)
    (haddr : ∀ id ∈ live, Addressable id) : (openedPool m file r).Shows (openedView file live) := by
  obtain ⟨hbuf, hclean⟩ := init_buffer hi
  have hlookup : ∀ id f, (openedPool m file r).dir.lookup id = some f → id = 0 ∧ f = Fin.last m := by
    intro id f hf
    simp only [openedPool, lookup_singleton] at hf
    split_ifs at hf with h0
    exact ⟨h0, (Option.some.inj hf).symm⟩
  refine ⟨frameInv_openedPool m file r (BFPHeaderPage.init_page hi).1, haddr, ?_, ?_, ?_, ?_⟩
  · intro id f hf
    rw [(hlookup id f hf).1]
    exact hz
  · exact fun id hid => absurd hid (Set.notMem_empty id)
  · intro id f hf
    obtain ⟨rfl, rfl⟩ := hlookup id f hf
    have hpage : ((openedPool m file r).pages (Fin.last m)).buffer = r.2.2.buffer := by
      simp [openedPool]
    rw [openedView_bytes, hpage, hbuf]
  · intro id hid _ hc
    by_cases h0 : id = 0
    · subst h0
      have hd := hc (Fin.last m) (by simp [openedPool, lookup_singleton])
      simp only [openedPool, Function.update_self, Bool.or_eq_false_iff] at hd
      have hdisk : (openedPool m file r).disk.file = file := by simp [openedPool, hd.2]
      rw [openedView_bytes, hclean hd.2, DiskManager.stored, DiskManager.readPage, hdisk]
      rfl
    · have hb : openedBytes file id = DiskManager.stored { file := file } id :=
        if_neg (fun h => h0 h.1)
      rw [openedView_bytes, hb]
      cases hr : r.1
      · simp [openedPool, DiskManager.stored, DiskManager.readPage, hr]
      · exact stored_update_zero file _ r.2.2.buffer (haddr id hid) h0 (by simp [openedPool, hr])

/-- Opening a file whose header page holds the given header, all of whose marked ids are below
`phy_num_`. -/
theorem openFile_of_header (m : ℕ) {file : File} (h : BFPHeaderPage)
    (hn : loadSize (DiskManager.stored { file := file } 0) 0 = h.pageNum)
    (hp : loadSize (DiskManager.stored { file := file } 0) 8 = h.phyNum)
    (hfit : Block.Fits pageSize 16 (BFPHeaderPage.bitmapSize h.pageNum h.phyNum))
    (hb : (DiskManager.stored { file := file } 0).load 16
      (BFPHeaderPage.bitmapSize h.pageNum h.phyNum) = h.bitmap)
    (hpos : h.pageNum ≠ 0) (hz : BitMap.get h.bitmap 0 = true)
    (hlt : ∀ id, BitMap.get h.bitmap id = true → id < h.phyNum) :
    ∃ s₀ : BufferPool (m + 1), openFile (m + 1) file = some s₀ ∧
      s₀.Shows (openedView file {id | BitMap.get h.bitmap id = true}) ∧
      s₀.Allocates {id | BitMap.get h.bitmap id = true} ∧ s₀.head = h ∧
      s₀.disk.nextPid = h.phyNum := by
  have hi : BFPHeaderPage.init (headerPage file) = some (false, h, headerPage file) := by
    have hbuf : (headerPage file).buffer = DiskManager.stored { file := file } 0 := rfl
    simp only [BFPHeaderPage.init, hbuf, hn, hp, if_neg hpos, if_pos hfit, hb]
  have hlen : h.bitmap.length * 8 ≤ bfpMaxPageNum := by
    have hle : 16 + h.bitmap.length ≤ pageSize := BFPHeaderPage.init_bitmap_length hi
    unfold bfpMaxPageNum pageSize at *
    omega
  refine ⟨_, by rw [openFile_succ, hi]; rfl, shows_openedPool hi hz ?_, ?_, rfl, rfl⟩
  · exact fun id hid => addressable_of_le ((BitMap.lt_of_get hid).le.trans hlen)
  · refine ⟨?_, hz, fun id => Iff.rfl, hlt⟩
    unfold BitmapBounded openedPool
    dsimp only
    omega

theorem openedBytes_of_header {file : File}
    (hpos : loadSize (DiskManager.stored { file := file } 0) 0 ≠ 0) (id : ℕ) :
    openedBytes file id = DiskManager.stored { file := file } id := if_neg (fun h => hpos h.2)

theorem openFile_of_no_header (m : ℕ) {file : File}
    (hn : loadSize (DiskManager.stored { file := file } 0) 0 = 0) :
    ∃ s₀ : BufferPool (m + 1), openFile (m + 1) file = some s₀ ∧
      s₀.Shows (openedView file {0}) ∧ s₀.Allocates {0} ∧ s₀.head = .fresh ∧
      s₀.disk.nextPid = 1 := by
  have hfit : Block.Fits pageSize 16 BFPHeaderPage.fresh.bitmap.length := by decide
  obtain ⟨q, hq⟩ : ∃ q, BFPHeaderPage.fresh.write2page (headerPage file) = some q :=
    ⟨_, if_pos hfit⟩
  have hi : BFPHeaderPage.init (headerPage file) = some (true, .fresh, q) := by
    have hbuf : (headerPage file).buffer = DiskManager.stored { file := file } 0 := rfl
    simp only [BFPHeaderPage.init, hbuf, hn, if_true, hq, Option.map_some]
  refine ⟨_, by rw [openFile_succ, hi]; rfl, shows_openedPool hi rfl ?_, ?_, rfl, rfl⟩
  · rintro id rfl
    exact addressable_of_le (Nat.zero_le _)
  · have hb : BFPHeaderPage.fresh.bitmap.length ≤ bfpMaxPageNum / 8 + 1 := by decide
    refine ⟨hb, rfl, ?_, ?_⟩
    · intro id
      have hbit : BitMap.get BFPHeaderPage.fresh.bitmap id = if 0 = id then true else
          BitMap.get [0] id := BitMap.get_set [0] id true (by decide)
      have hz : BitMap.get [0] id = false :=
        (BitMap.get_append_zeros [] 1 id).trans (BitMap.get_of_length_le (Nat.zero_le _))
      simp [openedPool, hbit, hz, eq_comm]
    · rintro id rfl
      exact Nat.zero_lt_one

end Tadis.BufferPool
