import Tadis.HeaderPage
import Tadis.Transition

/-!
# The slotted page

A record page holds a header of three words, a directory of record starts that grows upward and the
records, which grow downward from the end of the page. A record is a mark byte and its bytes; its
length is the distance to the start of the record before it. `RecordPage` is the decoded header and
is passed along with the page it was read from. `none` stands for an access outside the page.
-/

namespace Tadis

structure Record where
  isDeleted : Bool := false
  rid : RID := {}
  data : Bytes := []

/-- A record in place: its bytes are the range `[off, off + len)` of the page. -/
structure RecordView where
  isDeleted : Bool := false
  rid : RID := {}
  off : ℕ := 0
  len : ℕ := 0

def RecordView.data (v : RecordView) (p : Page) : Bytes := p.buffer.load v.off v.len

structure RecordPage where
  freeAddrStart : ℕ := 0
  freeAddrEnd : ℕ := pageSize
  recIdxCount : ℕ := 0
  recIdx : List ℕ := []

namespace RecordPage

def loadIdx (b : PageBlock) (count : ℕ) : List ℕ :=
  (List.range count).map (fun i => loadSize b ((3 + i) * 8))

def init (p : Page) : Option (RecordPage × Page) :=
  let freeAddrStart := loadSize p.buffer 0
  let freeAddrEnd := loadSize p.buffer 8
  let count := loadSize p.buffer 16
  let (freeAddrEnd, p) :=
    if freeAddrEnd = 0 then (pageSize, { p with buffer := storeSize p.buffer 8 pageSize })
    else (freeAddrEnd, p)
  if (3 + count) * 8 ≤ pageSize then
    some (⟨freeAddrStart, freeAddrEnd, count, loadIdx p.buffer count⟩, p)
  else none

def startIdx (rp : RecordPage) (recordSize : ℕ) : ℕ :=
  sizeSub (sizeSub rp.freeAddrEnd recordSize) 1

def enough (rp : RecordPage) (recordSize : ℕ) : Bool :=
  8 * (3 + rp.recIdx.length) + 8 < rp.startIdx recordSize

/-- `write_head` after an insertion: the three header words and the new directory entry. -/
def writeHead (rp : RecordPage) (p : Page) (rid : RID) (idx : ℕ) : Option Page :=
  if 8 * (3 + rid.slotId) + 8 ≤ pageSize then
    let b := storeSize p.buffer 0 rp.freeAddrStart
    let b := storeSize b 8 rp.freeAddrEnd
    let b := storeSize b 16 rp.recIdxCount
    some { p with buffer := storeSize b (8 * (3 + rid.slotId)) idx }
  else none

/-- The inner option is `none` when the record is refused. -/
def insert (rp : RecordPage) (p : Page) (rec : Record) : Option (Option RID × RecordPage × Page) :=
  if rp.enough rec.data.length then
    let start := rp.startIdx rec.data.length
    if Block.Fits pageSize start (1 + rec.data.length) then
      let p := { p with buffer := p.buffer.store start (0 :: rec.data) }
      let rid : RID := { pageId := p.pid, slotId := rp.recIdx.length }
      let rp : RecordPage :=
        { freeAddrStart := rp.freeAddrStart + 1
          freeAddrEnd := start
          recIdxCount := rp.recIdxCount + 1
          recIdx := rp.recIdx ++ [start] }
      (rp.writeHead p rid start).map (fun p => (some rid, rp, p))
    else none
  else some (none, rp, p)

/-- The start of the record in a slot, `none` past the last slot. -/
def slotStart (rp : RecordPage) (rid : RID) : Option ℕ :=
  if rp.recIdx.isEmpty || rp.recIdx.length ≤ rid.slotId then none
  else some (rp.recIdx.getD rid.slotId 0)

def slotEnd (rp : RecordPage) (slotId : ℕ) : ℕ :=
  if slotId = 0 then pageSize else rp.recIdx.getD (slotId - 1) 0

def remove (rp : RecordPage) (p : Page) (rid : RID) : Option (Bool × Page) :=
  match rp.slotStart rid with
  | none => some (false, p)
  | some start =>
    if start < pageSize then some (true, { p with buffer := p.buffer.store start [1] }) else none

def contain (rp : RecordPage) (p : Page) (rid : RID) : Option RC :=
  match rp.slotStart rid with
  | none => some .outOfRange
  | some start =>
    if start < pageSize then
      if p.buffer.byte start = 1 then some .recordIsDeleted else some .success
    else none

def get (rp : RecordPage) (p : Page) (rec : Record) (rid : RID) : Option (Bool × Record) :=
  match rp.slotStart rid with
  | none => some (false, rec)
  | some start =>
    if start < pageSize then
      if p.buffer.byte start = 1 then some (false, { rec with isDeleted := true })
      else
        let len := sizeSub (sizeSub (rp.slotEnd rid.slotId) start) 1
        if Block.Fits pageSize (start + 1) len then
          some (true, { isDeleted := false, rid := rid, data := p.buffer.load (start + 1) len })
        else none
    else none

def getView (rp : RecordPage) (p : Page) (rec : RecordView) (rid : RID) :
    Option (Bool × RecordView) :=
  match rp.slotStart rid with
  | none => some (false, rec)
  | some start =>
    if start < pageSize then
      if p.buffer.byte start = 1 then some (false, { rec with isDeleted := true })
      else
        let finish := rp.slotEnd rid.slotId
        if start + 1 ≤ finish ∧ finish ≤ pageSize then
          some (true, { isDeleted := false, rid := rid, off := start + 1, len := finish - (start + 1) })
        else none
    else none

end RecordPage

structure Slot where
  bytes : Bytes
  live : Bool

def Slot.kill (s : Slot) : Slot := { s with live := false }

def Slot.mark (s : Slot) : UInt8 := if s.live then 0 else 1

theorem Slot.mark_eq_one_iff (s : Slot) : s.mark = 1 ↔ s.live = false := by
  unfold Slot.mark
  cases s.live <;> simp

namespace RecordPage

variable {rp rp' : RecordPage} {p p' : Page} {b : PageBlock} {slots : List Slot}

/-- The page holds the slots: the starts are laid end to end from the end of the page, the header
words and the directory agree with the decoded header, and each record has its mark and bytes. -/
structure Holds (rp : RecordPage) (b : PageBlock) (slots : List Slot) : Prop where
  length_eq : rp.recIdx.length = slots.length
  start_add : ∀ i s, slots[i]? = some s → rp.recIdx.getD i 0 + (s.bytes.length + 1) = rp.slotEnd i
  freeAddrEnd_eq : rp.freeAddrEnd = rp.slotEnd slots.length
  room : 8 * (3 + slots.length) < rp.freeAddrEnd
  freeAddrStart_eq : rp.freeAddrStart = slots.length
  recIdxCount_eq : rp.recIdxCount = slots.length
  load_start : loadSize b 0 = slots.length
  load_end : loadSize b 8 = rp.freeAddrEnd
  load_count : loadSize b 16 = slots.length
  load_idx : ∀ i < slots.length, loadSize b (8 * (3 + i)) = rp.recIdx.getD i 0
  load_record : ∀ i s, slots[i]? = some s →
    b.load (rp.recIdx.getD i 0) (1 + s.bytes.length) = s.mark :: s.bytes

theorem lt_of_getElem?_eq_some {i : ℕ} {s : Slot} (h : slots[i]? = some s) : i < slots.length :=
  (List.getElem?_eq_some_iff.1 h).1

theorem slotEnd_succ (rp : RecordPage) (i : ℕ) : rp.slotEnd (i + 1) = rp.recIdx.getD i 0 := by
  simp [slotEnd]

theorem Holds.slotEnd_succ_lt (h : rp.Holds b slots) {i : ℕ} (hi : i < slots.length) :
    rp.slotEnd (i + 1) < rp.slotEnd i := by
  have hs := h.start_add i slots[i] (List.getElem?_eq_getElem hi)
  rw [slotEnd_succ]
  omega

theorem Holds.slotEnd_le (h : rp.Holds b slots) {i j : ℕ} (hij : i ≤ j) (hj : j ≤ slots.length) :
    rp.slotEnd j ≤ rp.slotEnd i := by
  induction j, hij using Nat.le_induction with
  | base => exact le_rfl
  | succ j _ ih => exact (h.slotEnd_succ_lt hj).le.trans (ih (Nat.le_of_succ_le hj))

theorem Holds.slotEnd_le_pageSize (h : rp.Holds b slots) {i : ℕ} (hi : i ≤ slots.length) :
    rp.slotEnd i ≤ pageSize := h.slotEnd_le (Nat.zero_le i) hi

theorem Holds.freeAddrEnd_le (h : rp.Holds b slots) : rp.freeAddrEnd ≤ pageSize := by
  rw [h.freeAddrEnd_eq]
  exact h.slotEnd_le_pageSize le_rfl

theorem Holds.start_bounds (h : rp.Holds b slots) {i : ℕ} {s : Slot} (hs : slots[i]? = some s) :
    rp.freeAddrEnd ≤ rp.recIdx.getD i 0 ∧
      rp.recIdx.getD i 0 + (s.bytes.length + 1) = rp.slotEnd i ∧ rp.slotEnd i ≤ pageSize := by
  have hi := lt_of_getElem?_eq_some hs
  have hle := h.slotEnd_le (Nat.succ_le_of_lt hi) le_rfl
  rw [slotEnd_succ, ← h.freeAddrEnd_eq] at hle
  exact ⟨hle, h.start_add i s hs, h.slotEnd_le_pageSize hi.le⟩

theorem Holds.start_disjoint (h : rp.Holds b slots) {i j : ℕ} {s t : Slot}
    (hs : slots[i]? = some s) (ht : slots[j]? = some t) (hij : i ≠ j) :
    rp.recIdx.getD i 0 + (1 + s.bytes.length) ≤ rp.recIdx.getD j 0 ∨
      rp.recIdx.getD j 0 + (1 + t.bytes.length) ≤ rp.recIdx.getD i 0 := by
  have hi := lt_of_getElem?_eq_some hs
  have hj := lt_of_getElem?_eq_some ht
  have hsi := h.start_add i s hs
  have htj := h.start_add j t ht
  rcases lt_or_gt_of_ne hij with hlt | hlt
  · have hle := h.slotEnd_le (Nat.succ_le_of_lt hlt) hj.le
    rw [slotEnd_succ] at hle
    exact .inr (by omega)
  · have hle := h.slotEnd_le (Nat.succ_le_of_lt hlt) hi.le
    rw [slotEnd_succ] at hle
    exact .inl (by omega)

/-- The page that a zeroed page becomes when a `RecordPage` is first built over it. -/
theorem init_zero (h : p.buffer = Block.zero) :
    init p = some ({}, { p with buffer := storeSize Block.zero 8 pageSize }) ∧
      Holds {} (storeSize Block.zero 8 pageSize) [] := by
  have h0 : loadSize (storeSize Block.zero 8 pageSize) 0 = 0 := by
    rw [loadSize_storeSize_disjoint _ (by omega), loadSize_zero]
  have h16 : loadSize (storeSize Block.zero 8 pageSize) 16 = 0 := by
    rw [loadSize_storeSize_disjoint _ (by omega), loadSize_zero]
  have h8 : loadSize (storeSize Block.zero 8 pageSize) 8 = pageSize :=
    loadSize_storeSize_same _ (by decide) (by decide)
  refine ⟨?_, ?_⟩
  · have hz : ∀ off, loadSize p.buffer off = 0 := fun off => by rw [h, loadSize_zero]
    simp only [init, hz, if_true, Nat.add_zero, loadIdx, List.range_zero, List.map_nil]
    rw [if_pos (by decide), h]
  · refine ⟨rfl, ?_, rfl, by decide, rfl, rfl, h0, h8, h16, ?_, ?_⟩ <;> simp

/-- Building a `RecordPage` over the page again finds the same slots and leaves the page as it is. -/
theorem Holds.init (h : rp.Holds p.buffer slots) : RecordPage.init p = some (rp, p) := by
  have hpos : rp.freeAddrEnd ≠ 0 := by
    have := h.room
    omega
  have hfit : (3 + slots.length) * 8 ≤ pageSize := by
    have h1 := h.room
    have h2 := h.freeAddrEnd_le
    omega
  have hidx : loadIdx p.buffer slots.length = rp.recIdx := by
    apply List.ext_getElem (by simp [loadIdx, h.length_eq])
    intro i hi hi'
    have hlen : i < slots.length := by simpa [loadIdx] using hi
    simp only [loadIdx, List.getElem_map, List.getElem_range]
    rw [Nat.mul_comm, h.load_idx i hlen, List.getD_eq_getElem _ _ hi']
  have hrp : (⟨slots.length, rp.freeAddrEnd, slots.length, rp.recIdx⟩ : RecordPage) = rp := by
    obtain ⟨freeAddrStart, freeAddrEnd, count, idx⟩ := rp
    have h1 : freeAddrStart = slots.length := h.freeAddrStart_eq
    have h2 : count = slots.length := h.recIdxCount_eq
    rw [h1, h2]
  simp only [RecordPage.init, h.load_start, h.load_end, h.load_count, if_neg hpos, if_pos hfit, hidx,
    hrp]

theorem startIdx_eq {len : ℕ} (hlen : len < rp.freeAddrEnd) (hend : rp.freeAddrEnd ≤ pageSize) :
    rp.startIdx len = rp.freeAddrEnd - len - 1 := by
  unfold pageSize at hend
  rw [startIdx, sizeSub_of_le hlen.le (by omega), sizeSub_of_le (by omega) (by omega)]

def inserted (rp : RecordPage) (b : PageBlock) (rec : Bytes) (start : ℕ) : PageBlock :=
  storeSize (storeSize (storeSize (storeSize (b.store start (0 :: rec)) 0 (rp.freeAddrStart + 1)) 8
    start) 16 (rp.recIdxCount + 1)) (8 * (3 + rp.recIdx.length)) start

def afterInsert (rp : RecordPage) (start : ℕ) : RecordPage where
  freeAddrStart := rp.freeAddrStart + 1
  freeAddrEnd := start
  recIdxCount := rp.recIdxCount + 1
  recIdx := rp.recIdx ++ [start]

/-- `insert` refuses the record or writes it; it never writes outside the page. -/
theorem Holds.insert_eq (h : rp.Holds p.buffer slots) {rec : Record}
    (hlen : rec.data.length < rp.freeAddrEnd) :
    rp.insert p rec =
      if rp.enough rec.data.length then
        some (some ⟨p.pid, slots.length⟩, rp.afterInsert (rp.startIdx rec.data.length),
          { p with buffer := rp.inserted p.buffer rec.data (rp.startIdx rec.data.length) })
      else some (none, rp, p) := by
  unfold RecordPage.insert
  by_cases he : rp.enough rec.data.length
  · have hstart := startIdx_eq hlen h.freeAddrEnd_le
    have hend := h.freeAddrEnd_le
    have hroom : 8 * (3 + slots.length) + 8 < rp.startIdx rec.data.length := by
      simpa [enough, h.length_eq] using he
    have hfit : Block.Fits pageSize (rp.startIdx rec.data.length) (1 + rec.data.length) := by
      rw [hstart, Block.Fits]
      omega
    have hhead : 8 * (3 + slots.length) + 8 ≤ pageSize := by omega
    simp only [if_pos he, if_pos hfit, writeHead, h.length_eq, if_pos hhead]
    simp [inserted, afterInsert, h.length_eq]
  · simp only [if_neg he]

theorem loadSize_inserted (h : rp.Holds b slots) {rec : Bytes} {start off : ℕ}
    (hoff : 24 ≤ off ∧ off + 8 ≤ 8 * (3 + slots.length)) (hstart : off + 8 ≤ start) :
    loadSize (rp.inserted b rec start) off = loadSize b off := by
  rw [inserted, h.length_eq, loadSize_storeSize_disjoint _ (.inl hoff.2),
    loadSize_storeSize_disjoint _ (by omega), loadSize_storeSize_disjoint _ (by omega),
    loadSize_storeSize_disjoint _ (by omega), loadSize_store_disjoint _ (.inl hstart)]

theorem load_inserted (h : rp.Holds b slots) {rec : Bytes} {start off len : ℕ}
    (hoff : 8 * (3 + slots.length) + 8 ≤ off) :
    (rp.inserted b rec start).load off len = (b.store start (0 :: rec)).load off len := by
  rw [inserted, h.length_eq, load_storeSize_disjoint _ (.inr hoff),
    load_storeSize_disjoint _ (by omega), load_storeSize_disjoint _ (by omega),
    load_storeSize_disjoint _ (by omega)]

theorem getD_afterInsert (h : rp.Holds b slots) {start i : ℕ} (hi : i < slots.length) :
    (rp.afterInsert start).recIdx.getD i 0 = rp.recIdx.getD i 0 := by
  rw [afterInsert, List.getD_append _ _ _ _ (by rwa [h.length_eq])]

theorem getD_afterInsert_last (h : rp.Holds b slots) {start : ℕ} :
    (rp.afterInsert start).recIdx.getD slots.length 0 = start := by
  simp [afterInsert, ← h.length_eq]

theorem slotEnd_afterInsert (h : rp.Holds b slots) {start i : ℕ} (hi : i ≤ slots.length) :
    (rp.afterInsert start).slotEnd i = rp.slotEnd i := by
  cases i with
  | zero => rfl
  | succ i => rw [slotEnd_succ, slotEnd_succ, getD_afterInsert h hi]

theorem Holds.inserted (h : rp.Holds b slots) {rec : Bytes} (hlen : rec.length < rp.freeAddrEnd)
    (he : rp.enough rec.length) :
    (rp.afterInsert (rp.startIdx rec.length)).Holds (rp.inserted b rec (rp.startIdx rec.length))
      (slots ++ [⟨rec, true⟩]) := by
  have hend := h.freeAddrEnd_le
  have hroom : 8 * (3 + slots.length) + 8 < rp.startIdx rec.length := by
    simpa [enough, h.length_eq] using he
  have hstart := startIdx_eq hlen hend
  generalize rp.startIdx rec.length = start at hroom hstart
  have hsize : start < 2 ^ 64 ∧ slots.length + 1 < 2 ^ 64 := by
    unfold pageSize at hend
    omega
  have hhead : 8 * (3 + slots.length) + 8 ≤ pageSize := by omega
  have hlast : ∀ i s, (slots ++ [⟨rec, true⟩])[i]? = some s →
      slots[i]? = some s ∨ (i = slots.length ∧ s = ⟨rec, true⟩) := by
    intro i s hs
    rcases lt_trichotomy i slots.length with hi | rfl | hi
    · exact .inl (by rwa [List.getElem?_append_left hi] at hs)
    · exact .inr ⟨rfl, by simpa [eq_comm] using hs⟩
    · rw [List.getElem?_eq_none (by simp; omega)] at hs
      cases hs
  refine ⟨?_, ?_, ?_, ?_, ?_, ?_, ?_, ?_, ?_, ?_, ?_⟩
  · simp [afterInsert, h.length_eq]
  · intro i s hs
    rcases hlast i s hs with hs | ⟨rfl, rfl⟩
    · have hi := lt_of_getElem?_eq_some hs
      rw [getD_afterInsert h hi, slotEnd_afterInsert h hi.le, h.start_add i s hs]
    · rw [getD_afterInsert_last h, slotEnd_afterInsert h le_rfl, ← h.freeAddrEnd_eq]
      dsimp only
      omega
  · rw [List.length_append, List.length_singleton, slotEnd_succ, getD_afterInsert_last h]
    rfl
  · rw [List.length_append, List.length_singleton]
    change 8 * (3 + (slots.length + 1)) < start
    omega
  · simp [afterInsert, h.freeAddrStart_eq]
  · simp [afterInsert, h.recIdxCount_eq]
  · rw [RecordPage.inserted, h.length_eq, h.freeAddrStart_eq,
      loadSize_storeSize_disjoint _ (by omega), loadSize_storeSize_disjoint _ (by omega),
      loadSize_storeSize_disjoint _ (by omega), loadSize_storeSize_same _ (by decide) hsize.2]
    simp
  · rw [RecordPage.inserted, h.length_eq, loadSize_storeSize_disjoint _ (by omega),
      loadSize_storeSize_disjoint _ (by omega), loadSize_storeSize_same _ (by decide) hsize.1]
    rfl
  · rw [RecordPage.inserted, h.length_eq, h.recIdxCount_eq,
      loadSize_storeSize_disjoint _ (by omega), loadSize_storeSize_same _ (by decide) hsize.2]
    simp
  · intro i hi
    rw [List.length_append, List.length_singleton] at hi
    rcases Nat.lt_succ_iff_lt_or_eq.1 hi with hi | rfl
    · rw [loadSize_inserted h (by omega) (by omega), h.load_idx i hi, getD_afterInsert h hi]
    · rw [RecordPage.inserted, h.length_eq, loadSize_storeSize_same _ hhead hsize.1,
        getD_afterInsert_last h]
  · intro i s hs
    rcases hlast i s hs with hs | ⟨rfl, rfl⟩
    · obtain ⟨hlo, _, _⟩ := h.start_bounds hs
      rw [getD_afterInsert h (lt_of_getElem?_eq_some hs), load_inserted h (by omega),
        Block.load_store_disjoint _ (.inr (by rw [List.length_cons]; omega)), h.load_record i s hs]
    · have hfit : Block.Fits pageSize start (0 :: rec).length := by
        rw [Block.Fits, List.length_cons]
        omega
      have hsame := Block.load_store_same b hfit
      rw [getD_afterInsert_last h, load_inserted h (by omega), Nat.add_comm 1]
      simpa [Slot.mark] using hsame

theorem Holds.slotStart_eq (h : rp.Holds b slots) (rid : RID) :
    rp.slotStart rid = (slots[rid.slotId]?).map (fun _ => rp.recIdx.getD rid.slotId 0) := by
  unfold slotStart
  by_cases hi : rid.slotId < slots.length
  · have hne : rp.recIdx ≠ [] := List.length_pos_iff.1 (by rw [h.length_eq]; omega)
    rw [List.getElem?_eq_getElem hi]
    simp [hne, h.length_eq, hi]
  · rw [List.getElem?_eq_none (not_lt.1 hi)]
    simp [h.length_eq, not_lt.1 hi]

theorem load_succ (b : PageBlock) (off len : ℕ) :
    b.load off (1 + len) = b.byte off :: b.load (off + 1) len := by
  rw [Nat.add_comm 1, Block.load, List.range_succ_eq_map]
  simp [Block.load, Nat.add_assoc, Nat.add_comm 1]

theorem Holds.byte_mark (h : rp.Holds b slots) {i : ℕ} {s : Slot} (hs : slots[i]? = some s) :
    b.byte (rp.recIdx.getD i 0) = s.mark ∧
      b.load (rp.recIdx.getD i 0 + 1) s.bytes.length = s.bytes := by
  have hload := h.load_record i s hs
  rw [load_succ] at hload
  exact ⟨(List.cons.inj hload).1, (List.cons.inj hload).2⟩

/-- What `contain` answers for a slot of the list. -/
def containOf : Option Slot → RC
  | none => .outOfRange
  | some s => if s.live then .success else .recordIsDeleted

/-- The record that `get` leaves in its argument. -/
def getOf (rec : Record) (rid : RID) : Option Slot → Bool × Record
  | none => (false, rec)
  | some s =>
    if s.live then (true, { isDeleted := false, rid := rid, data := s.bytes })
    else (false, { rec with isDeleted := true })

theorem Holds.contain_eq (h : rp.Holds p.buffer slots) (rid : RID) :
    rp.contain p rid = some (containOf slots[rid.slotId]?) := by
  rw [contain, h.slotStart_eq]
  cases hs : slots[rid.slotId]? with
  | none => rfl
  | some s =>
    obtain ⟨_, hadd, hend⟩ := h.start_bounds hs
    have hlt : rp.recIdx.getD rid.slotId 0 < pageSize := by omega
    simp only [Option.map_some, if_pos hlt, (h.byte_mark hs).1, s.mark_eq_one_iff, containOf]
    cases s.live <;> simp

theorem Holds.slotEnd_eq (h : rp.Holds b slots) {i : ℕ} {s : Slot} (hs : slots[i]? = some s) :
    sizeSub (sizeSub (rp.slotEnd i) (rp.recIdx.getD i 0)) 1 = s.bytes.length := by
  obtain ⟨_, hadd, hend⟩ := h.start_bounds hs
  unfold pageSize at hend
  have hsub : sizeSub (rp.slotEnd i) (rp.recIdx.getD i 0) = s.bytes.length + 1 := by
    rw [sizeSub_of_le (by omega) (by omega)]
    omega
  rw [hsub, sizeSub_of_le (by omega) (by omega), Nat.add_sub_cancel]

theorem Holds.get_eq (h : rp.Holds p.buffer slots) (rec : Record) (rid : RID) :
    rp.get p rec rid = some (getOf rec rid slots[rid.slotId]?) := by
  rw [get, h.slotStart_eq]
  cases hs : slots[rid.slotId]? with
  | none => rfl
  | some s =>
    obtain ⟨_, hadd, hend⟩ := h.start_bounds hs
    have hlt : rp.recIdx.getD rid.slotId 0 < pageSize := by omega
    have hfit : Block.Fits pageSize (rp.recIdx.getD rid.slotId 0 + 1) s.bytes.length := by
      rw [Block.Fits]
      omega
    simp only [Option.map_some, if_pos hlt, (h.byte_mark hs).1, s.mark_eq_one_iff, getOf,
      h.slotEnd_eq hs, if_pos hfit, (h.byte_mark hs).2]
    cases s.live <;> simp

/-- The view overload answers as the list does, and a view that it fills shows the bytes. -/
theorem Holds.getView_eq (h : rp.Holds p.buffer slots) (v : RecordView) (rid : RID) :
    ∃ ok v', rp.getView p v rid = some (ok, v') ∧
      match slots[rid.slotId]? with
      | none => ok = false ∧ v' = v
      | some s =>
        if s.live then ok = true ∧ v'.isDeleted = false ∧ v'.rid = rid ∧ v'.data p = s.bytes
        else ok = false ∧ v' = { v with isDeleted := true } := by
  rw [getView, h.slotStart_eq]
  cases hs : slots[rid.slotId]? with
  | none => exact ⟨false, v, rfl, rfl, rfl⟩
  | some s =>
    obtain ⟨_, hadd, hend⟩ := h.start_bounds hs
    have hlt : rp.recIdx.getD rid.slotId 0 < pageSize := by omega
    have hspan : rp.recIdx.getD rid.slotId 0 + 1 ≤ rp.slotEnd rid.slotId ∧
        rp.slotEnd rid.slotId ≤ pageSize := by omega
    have hlen : rp.slotEnd rid.slotId - (rp.recIdx.getD rid.slotId 0 + 1) = s.bytes.length := by
      omega
    simp only [Option.map_some, if_pos hlt, (h.byte_mark hs).1, s.mark_eq_one_iff, if_pos hspan, hlen]
    cases s.live
    · exact ⟨_, _, rfl, by simp⟩
    · exact ⟨_, _, rfl, by simpa [RecordView.data] using (h.byte_mark hs).2⟩

theorem Holds.remove_eq (h : rp.Holds p.buffer slots) (rid : RID) :
    rp.remove p rid =
      if rid.slotId < slots.length then
        some (true, { p with buffer := p.buffer.store (rp.recIdx.getD rid.slotId 0) [1] })
      else some (false, p) := by
  rw [remove, h.slotStart_eq]
  by_cases hi : rid.slotId < slots.length
  · obtain ⟨_, hadd, hend⟩ := h.start_bounds (List.getElem?_eq_getElem hi)
    have hlt : rp.recIdx.getD rid.slotId 0 < pageSize := by omega
    simp only [List.getElem?_eq_getElem hi, Option.map_some, if_pos hlt, if_pos hi]
  · simp only [List.getElem?_eq_none (not_lt.1 hi), Option.map_none, if_neg hi]

theorem Holds.removed (h : rp.Holds b slots) {i : ℕ} (hi : i < slots.length) :
    rp.Holds (b.store (rp.recIdx.getD i 0) [1]) (slots.modify i Slot.kill) := by
  have hsi := List.getElem?_eq_getElem hi
  obtain ⟨hlo, hadd, hend⟩ := h.start_bounds hsi
  have hroom := h.room
  have hhead : ∀ off, off + 8 ≤ 8 * (3 + slots.length) →
      loadSize (b.store (rp.recIdx.getD i 0) [1]) off = loadSize b off := by
    intro off hoff
    exact loadSize_store_disjoint _ (.inl (by omega))
  have hmod : ∀ j s, (slots.modify i Slot.kill)[j]? = some s →
      ∃ t, slots[j]? = some t ∧ s.bytes = t.bytes ∧ s = if i = j then t.kill else t := by
    intro j s hs
    rw [List.getElem?_modify] at hs
    obtain ⟨t, ht, rfl⟩ := Option.map_eq_some_iff.1 hs
    refine ⟨t, ht, ?_, ?_⟩ <;> split <;> rfl
  refine ⟨by simpa using h.length_eq, ?_, by simpa using h.freeAddrEnd_eq, by simpa using hroom,
    by simpa using h.freeAddrStart_eq, by simpa using h.recIdxCount_eq, ?_, ?_, ?_, ?_, ?_⟩
  · intro j s hs
    obtain ⟨t, ht, hb, _⟩ := hmod j s hs
    rw [hb, h.start_add j t ht]
  · rw [hhead 0 (by omega), h.load_start, List.length_modify]
  · rw [hhead 8 (by omega), h.load_end]
  · rw [hhead 16 (by omega), h.load_count, List.length_modify]
  · intro j hj
    rw [List.length_modify] at hj
    rw [hhead _ (by omega), h.load_idx j hj]
  · intro j s hs
    obtain ⟨t, ht, hb, hst⟩ := hmod j s hs
    by_cases hij : i = j
    · subst hij
      rw [if_pos rfl] at hst
      have hbyte : (b.store (rp.recIdx.getD i 0) [1]).byte (rp.recIdx.getD i 0) = 1 := by
        rw [Block.byte_store_of_mem _ (by omega) le_rfl (by simp), Nat.sub_self]
        rfl
      have hrest : (b.store (rp.recIdx.getD i 0) [1]).load (rp.recIdx.getD i 0 + 1) t.bytes.length =
          t.bytes := by
        rw [Block.load_store_disjoint _ (.inr (by simp)), (h.byte_mark ht).2]
      rw [load_succ, hb, hbyte, hrest, hst]
      rfl
    · rw [if_neg hij] at hst
      have hdis := h.start_disjoint hsi ht hij
      rw [hst, Block.load_store_disjoint _ (by rw [List.length_singleton]; omega),
        h.load_record j t ht]

/-- The page bytes after a `RecordPage` has been built over them. -/
def formatted (b : PageBlock) : PageBlock :=
  if loadSize b 8 = 0 then storeSize b 8 pageSize else b

theorem loadSize_formatted (b : PageBlock) {off : ℕ} (h : off + 8 ≤ 8 ∨ 16 ≤ off) :
    loadSize (formatted b) off = loadSize b off := by
  unfold formatted
  split
  · exact loadSize_storeSize_disjoint b h
  · rfl

theorem loadIdx_formatted (b : PageBlock) (count : ℕ) :
    loadIdx (formatted b) count = loadIdx b count := by
  apply List.map_congr_left
  intro i _
  exact loadSize_formatted b (.inr (by omega))

/-- The header that a `RecordPage` decodes from a page. -/
def decoded (b : PageBlock) : RecordPage where
  freeAddrStart := loadSize b 0
  freeAddrEnd := if loadSize b 8 = 0 then pageSize else loadSize b 8
  recIdxCount := loadSize b 16
  recIdx := loadIdx b (loadSize b 16)

theorem init_eq (p : Page) :
    init p = if (3 + loadSize p.buffer 16) * 8 ≤ pageSize then
      some (decoded p.buffer, { p with buffer := formatted p.buffer }) else none := by
  have hidx := loadIdx_formatted p.buffer (loadSize p.buffer 16)
  unfold init decoded
  unfold formatted at hidx ⊢
  by_cases h : loadSize p.buffer 8 = 0
  · simp only [if_pos h] at hidx ⊢
    rw [hidx]
  · simp only [if_neg h]

theorem decoded_formatted (b : PageBlock) : decoded (formatted b) = decoded b := by
  have hend : loadSize (formatted b) 8 = if loadSize b 8 = 0 then pageSize else loadSize b 8 := by
    unfold formatted
    split
    · exact loadSize_storeSize_same b (by decide) (by decide)
    · rfl
  have hne : loadSize (formatted b) 8 ≠ 0 := by
    rw [hend]
    split
    · decide
    · assumption
  unfold decoded
  rw [if_neg hne, hend, loadSize_formatted b (.inl le_rfl), loadSize_formatted b (.inr le_rfl),
    loadIdx_formatted]

theorem formatted_formatted (b : PageBlock) : formatted (formatted b) = formatted b := by
  unfold formatted
  by_cases h8 : loadSize b 8 = 0
  · rw [if_pos h8, if_neg]
    rw [loadSize_storeSize_same b (by decide) (by decide)]
    decide
  · rw [if_neg h8, if_neg h8]

theorem init_formatted (b : PageBlock) (id : ℕ) :
    init { buffer := formatted b, pid := id } = init { buffer := b, pid := id } := by
  rw [init_eq, init_eq]
  dsimp only
  rw [loadSize_formatted b (.inr le_rfl), decoded_formatted, formatted_formatted]

theorem insert_refused {record : Record} (h : rp.insert p record = some (none, rp', p')) : p' = p := by
  unfold RecordPage.insert at h
  by_cases he : rp.enough record.data.length = true
  · simp only [if_pos he] at h
    split_ifs at h
    simp at h
  · simp only [if_neg he, Option.some.injEq, Prod.mk.injEq] at h
    exact h.2.2.symm

end RecordPage

end Tadis
