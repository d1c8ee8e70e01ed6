import Tadis.BitMap

/-!
# Pages, the data file and the header page

The file holds whole pages and is indexed by byte offset. A page that was never written is past
the end of the file, or a hole of zero bytes before it; reading it leaves the target buffer
untouched, and every buffer that is read into has been cleared before.
-/

namespace Tadis

structure Page where
  buffer : PageBlock := Block.zero
  pid : ℕ := invalidId
  pinCount : ℕ := 0
  dirty : Bool := false

def Page.clearAll (_ : Page) : Page := {}

abbrev File := ℕ → Option PageBlock

def File.absent : File := fun _ => none

/-- `id * PAGE_SIZE` in `size_t` arithmetic. -/
def pageOffset (id : ℕ) : ℕ := id * pageSize % 2 ^ 64

structure DiskManager where
  file : File
  nextPid : ℕ := 1

namespace DiskManager

def setNextPageId (d : DiskManager) (id : ℕ) : DiskManager := { d with nextPid := id }

def readPage (d : DiskManager) (id : ℕ) (dst : PageBlock) : PageBlock :=
  (d.file (pageOffset id)).getD dst

def writePage (d : DiskManager) (id : ℕ) (src : PageBlock) : DiskManager :=
  { d with file := Function.update d.file (pageOffset id) (some src) }

def nextPageId (d : DiskManager) : ℕ × DiskManager := (d.nextPid, { d with nextPid := d.nextPid + 1 })

def currentPid (d : DiskManager) : ℕ := sizeDec d.nextPid

@[simp] theorem nextPid_writePage (d : DiskManager) (id : ℕ) (src : PageBlock) :
    (d.writePage id src).nextPid = d.nextPid := rfl

@[simp] theorem currentPid_writePage (d : DiskManager) (id : ℕ) (src : PageBlock) :
    (d.writePage id src).currentPid = d.currentPid := rfl

/-- The bytes of a page as the file stores them, zeros where it stores none. -/
def stored (d : DiskManager) (id : ℕ) : PageBlock := d.readPage id Block.zero

theorem stored_writePage_same (d : DiskManager) (id : ℕ) (src : PageBlock) :
    (d.writePage id src).stored id = src := by
  simp [stored, readPage, writePage]

theorem stored_writePage_of_ne (d : DiskManager) {id j : ℕ} (src : PageBlock)
    (h : pageOffset j ≠ pageOffset id) : (d.writePage id src).stored j = d.stored j := by
  simp [stored, readPage, writePage, h]

end DiskManager

/-- The byte offset of the page does not wrap. -/
def Addressable (id : ℕ) : Prop := id * pageSize < 2 ^ 64

theorem pageOffset_ne {i j : ℕ} (hi : Addressable i) (hj : Addressable j) (h : i ≠ j) :
    pageOffset i ≠ pageOffset j := by
  unfold Addressable pageSize at hi hj
  unfold pageOffset pageSize
  omega

theorem addressable_of_le {id : ℕ} (h : id ≤ bfpMaxPageNum) : Addressable id := by
  unfold bfpMaxPageNum pageSize at h
  unfold Addressable pageSize
  omega

theorem Addressable.ne_invalid {id : ℕ} (h : Addressable id) : id ≠ invalidId := by
  unfold Addressable pageSize at h
  unfold invalidId
  omega

structure BFPHeaderPage where
  pageNum : ℕ := 1
  phyNum : ℕ := 1
  bitmap : Bytes := []

namespace BFPHeaderPage

def maxPageCount : ℕ := bfpMaxPageNum

/-- The header's image in a page; `none` when the bitmap would be copied past the buffer. -/
def write2page (h : BFPHeaderPage) (p : Page) : Option Page :=
  if Block.Fits pageSize 16 h.bitmap.length then
    some { p with
      buffer := (storeSize (storeSize p.buffer 0 h.pageNum) 8 h.phyNum).store 16 h.bitmap
      dirty := true }
  else none

/-- The length of the bitmap that `init` recomputes from the two counters. -/
def bitmapSize (pageNum phyNum : ℕ) : ℕ :=
  if phyNum > 8 then pageNum / 8 + (if pageNum % 8 = 0 then 0 else 1) else 1

def fresh : BFPHeaderPage := { pageNum := 1, phyNum := 1, bitmap := BitMap.set [0] 0 true }

/-- Decode the header from a page, or format the page of a new file. The flag says which; `none`
when the recomputed bitmap would be copied from past the buffer. -/
def init (p : Page) : Option (Bool × BFPHeaderPage × Page) :=
  let pageNum := loadSize p.buffer 0
  let phyNum := loadSize p.buffer 8
  if pageNum = 0 then (fresh.write2page p).map (fun p' => (true, fresh, p'))
  else
    let size := bitmapSize pageNum phyNum
    if Block.Fits pageSize 16 size then
      some (false, { pageNum := pageNum, phyNum := phyNum, bitmap := p.buffer.load 16 size }, p)
    else none

theorem bitmapSize_self_eq (k : ℕ) : bitmapSize (k + 1) (k + 1) = k / 8 + 1 := by
  unfold bitmapSize
  split_ifs <;> omega

theorem write2page_eq_some_iff (h : BFPHeaderPage) (p p' : Page) :
    h.write2page p = some p' ↔ Block.Fits pageSize 16 h.bitmap.length ∧
      p' = { p with
        buffer := (storeSize (storeSize p.buffer 0 h.pageNum) 8 h.phyNum).store 16 h.bitmap
        dirty := true } := by
  unfold write2page
  split_ifs with hf <;> simp [hf, eq_comm]

theorem init_cases {p : Page} {r : Bool × BFPHeaderPage × Page} (hi : init p = some r) :
    (loadSize p.buffer 0 = 0 ∧ ∃ q, fresh.write2page p = some q ∧ r = (true, fresh, q)) ∨
    (loadSize p.buffer 0 ≠ 0 ∧
      Block.Fits pageSize 16 (bitmapSize (loadSize p.buffer 0) (loadSize p.buffer 8)) ∧
      r = (false,
        { pageNum := loadSize p.buffer 0
          phyNum := loadSize p.buffer 8
          bitmap := p.buffer.load 16 (bitmapSize (loadSize p.buffer 0) (loadSize p.buffer 8)) },
        p)) := by
  unfold init at hi
  by_cases h0 : loadSize p.buffer 0 = 0
  · rw [if_pos h0] at hi
    obtain ⟨q, hq, he⟩ := Option.map_eq_some_iff.1 hi
    exact .inl ⟨h0, q, hq, he.symm⟩
  · rw [if_neg h0] at hi
    dsimp only at hi
    split_ifs at hi with hf
    exact .inr ⟨h0, hf, (Option.some.inj hi).symm⟩

theorem init_page {p : Page} {r : Bool × BFPHeaderPage × Page} (hi : init p = some r) :
    r.2.2.pid = p.pid ∧ r.2.2.pinCount = p.pinCount ∧ r.2.2.dirty = (p.dirty || r.1) := by
  rcases init_cases hi with ⟨_, q, hq, rfl⟩ | ⟨_, _, rfl⟩
  · obtain ⟨-, rfl⟩ := (write2page_eq_some_iff _ _ _).1 hq
    simp
  · simp

theorem init_bitmap_length {p : Page} {r : Bool × BFPHeaderPage × Page} (hi : init p = some r) :
    16 + r.2.1.bitmap.length ≤ pageSize := by
  rcases init_cases hi with ⟨_, q, hq, rfl⟩ | ⟨_, hf, rfl⟩
  · exact ((write2page_eq_some_iff _ _ _).1 hq).1
  · simpa [Block.Fits] using hf

/-- The two counters and the bitmap read back from a written header page. -/
theorem load_of_write2page {h : BFPHeaderPage} {p p' : Page} (hw : h.write2page p = some p')
    (hn : h.pageNum < 2 ^ 64) (hp : h.phyNum < 2 ^ 64) :
    loadSize p'.buffer 0 = h.pageNum ∧ loadSize p'.buffer 8 = h.phyNum ∧
      p'.buffer.load 16 h.bitmap.length = h.bitmap := by
  obtain ⟨hf, rfl⟩ := (h.write2page_eq_some_iff p p').1 hw
  refine ⟨?_, ?_, Block.load_store_same _ hf⟩
  · rw [loadSize_store_disjoint _ (by omega), loadSize_storeSize_disjoint _ (by omega),
      loadSize_storeSize_same _ (by simp [pageSize]) hn]
  · rw [loadSize_store_disjoint _ (by omega), loadSize_storeSize_same _ (by simp [pageSize]) hp]

end BFPHeaderPage

end Tadis
