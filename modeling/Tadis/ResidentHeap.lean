import Tadis.Residency

/-!
# Heaps with a frame for every page

The heap of a pool in which nothing is evicted: insertions, removals, closing and reopening do with
the list of pages what they do in a pool without outstanding pins.
-/

namespace Tadis.TableHeap

open BufferPool

variable {n : ℕ} {s s' : BufferPool n} {f : Fin n} {i : ℕ} {slots : List Slot}
  {pages : List (List Slot)}

/-- Page 1 of a heap without pages is blank, but it may have been loaded and formatted. -/
def ResidentHeap (s : BufferPool n) (pages : List (List Slot)) : Prop :=
  ∃ bytes, s.Resident pages.length bytes ∧
    (∀ i slots, pages[i]? = some slots → ∃ rp, RecordPage.Holds rp (bytes (i + 1)) slots) ∧
    (pages = [] → HasSlots (bytes 1) [])

/-- The pages of the heap, page 0 and the spare frame fit into the pool. -/
def Roomy (n : ℕ) (pages : List (List Slot)) : Prop :=
  pages.length + 2 ≤ n ∧ pages.length < bfpMaxPageNum

instance (n : ℕ) (pages : List (List Slot)) : Decidable (Roomy n pages) :=
  inferInstanceAs (Decidable (_ ∧ _))

theorem ResidentHeap.dense (h : ResidentHeap s pages) : s.Dense pages.length := by
  obtain ⟨_, hr, _⟩ := h
  exact hr.dense

theorem ResidentHeap.currentPid_eq (h : ResidentHeap s pages) : s.currentPid = pages.length :=
  h.dense.currentPid_eq

theorem ResidentHeap.page (h : ResidentHeap s pages) (hi : pages[i]? = some slots)
    (hd : s.dir.lookup (i + 1) = some f) :
    ∃ rp, RecordPage.Holds rp (s.pages f).buffer slots ∧ (s.pages f).pid = i + 1 := by
  obtain ⟨bytes, hr, hpages, _⟩ := h
  obtain ⟨rp, hrp⟩ := hpages i slots hi
  rw [← hr.cached (i + 1) f hd] at hrp
  exact ⟨rp, hrp, hr.own (i + 1) f hd⟩

theorem ResidentHeap.fetch (h : ResidentHeap s pages) (hn : pages.length + 2 ≤ n)
    (hi : i ≤ pages.length) : ∃ f s', s.fetch i = (some f, s') ∧ ResidentHeap s' pages ∧
      s'.dir.lookup i = some f ∧ s.Quiet s' pages.length := by
  obtain ⟨bytes, hr, hpages⟩ := h
  obtain ⟨f, s', hf, hs, hd, hkeep⟩ := hr.fetch hn hi
  exact ⟨f, s', hf, ⟨bytes, hs, hpages⟩, hd, hkeep⟩

theorem ResidentHeap.unpin_clean (h : ResidentHeap s pages) (id : ℕ) :
    ResidentHeap (s.unpin id false) pages := by
  obtain ⟨bytes, hr, hpages⟩ := h
  exact ⟨bytes, hr.unpin_clean id, hpages⟩

theorem holds_set {bytes : ℕ → PageBlock} {rp : RecordPage} {b : PageBlock}
    (h : ∀ i slots, pages[i]? = some slots → ∃ rp, RecordPage.Holds rp (bytes (i + 1)) slots)
    (hb : rp.Holds b slots) (j : ℕ) (slots' : List Slot) (hj : (pages.set i slots)[j]? = some slots') :
    ∃ rp, RecordPage.Holds rp (Function.update bytes (i + 1) b (j + 1)) slots' := by
  by_cases hij : i = j
  · subst hij
    have hlt : i < pages.length := by simpa using (List.getElem?_eq_some_iff.1 hj).1
    rw [List.getElem?_set_self hlt, Option.some.injEq] at hj
    rw [Function.update_self, ← hj]
    exact ⟨rp, hb⟩
  · rw [List.getElem?_set_ne hij] at hj
    rw [Function.update_of_ne (by omega)]
    exact h j slots' hj

theorem ResidentHeap.write (h : ResidentHeap s pages) (hd : s.dir.lookup (i + 1) = some f)
    (hi : i < pages.length) {rp : RecordPage} {b : PageBlock} (hb : rp.Holds b slots) :
    ResidentHeap ((s.setPage f { s.pages f with buffer := b }).unpin (i + 1) true)
      (pages.set i slots) := by
  obtain ⟨bytes, hr, hpages, _⟩ := h
  refine ⟨_, ?_, holds_set hpages hb, fun hnil => ?_⟩
  · rw [List.length_set]
    exact hr.write hd hi b
  · rw [List.set_eq_nil_iff] at hnil
    simp [hnil] at hi

theorem ResidentHeap.newPage (h : ResidentHeap s pages) (hn : pages.length + 3 ≤ n)
    (hlimit : pages.length < bfpMaxPageNum) :
    ∃ f s', s.newPage = (some (pages.length + 1, f), s') ∧ (s'.pages f).buffer = Block.zero ∧
      (s'.pages f).pid = pages.length + 1 ∧ s.Quiet s' pages.length ∧
      ∀ rp b slots, RecordPage.Holds rp b slots →
        ResidentHeap ((s'.setPage f { s'.pages f with buffer := b }).unpin (pages.length + 1) true)
          (pages ++ [slots]) := by
  obtain ⟨bytes, hr, hpages, _⟩ := h
  obtain ⟨f, s', hf, hs, hd, hdirty, hkeep⟩ := hr.newPage hn hlimit
  refine ⟨f, s', hf, ?_, hs.own _ f hd, hkeep, fun rp b slots hb => ?_⟩
  · rw [hs.cached _ f hd, Function.update_self]
  · have hw := hs.write hd le_rfl b
    rw [Function.update_idem] at hw
    refine ⟨_, by simpa using hw, fun i slots' hi => ?_, by simp⟩
    rcases lt_trichotomy i pages.length with hlt | rfl | hgt
    · rw [List.getElem?_append_left hlt] at hi
      rw [Function.update_of_ne (by omega)]
      exact hpages i slots' hi
    · obtain rfl : slots = slots' := by simpa using hi
      rw [Function.update_self]
      exact ⟨rp, hb⟩
    · rw [List.getElem?_eq_none (by simp; omega)] at hi
      cases hi

theorem quiet_write (s : BufferPool n) (f : Fin n) (p : Page) (id : ℕ) (d : Bool) (k : ℕ) :
    s.Quiet ((s.setPage f p).unpin id d) k := by
  refine ⟨fun _ _ _ hd => ?_, ?_⟩
  · rw [unpin_dir]
    exact hd
  · rw [unpin_disk]
    rfl

theorem ResidentHeap.insertInto_new (h : ResidentHeap s pages) (hn : pages.length + 3 ≤ n)
    (hlimit : pages.length < bfpMaxPageNum) {record : Record} (hlen : record.data.length ≤ 990) :
    ∃ f s' t, s.newPage = (some (pages.length + 1, f), s') ∧
      insertInto s' f record = some (some ⟨pages.length + 1, 0⟩, t) ∧
      ResidentHeap (t.unpin (pages.length + 1) true) (pages ++ [[⟨record.data, true⟩]]) ∧
      s.Quiet (t.unpin (pages.length + 1) true) pages.length := by
  obtain ⟨f, s', hf, hbuf, hpid, hkeep, hres⟩ := h.newPage hn hlimit
  obtain ⟨hi, hz⟩ := RecordPage.init_zero hbuf
  have hz' : RecordPage.Holds {} { s'.pages f with buffer := storeSize Block.zero 8 pageSize }.buffer []
    := hz
  have hp : pageSize = 1024 := rfl
  have hend : record.data.length < freeEnd [] := by
    rw [freeEnd_nil]
    omega
  rcases offer hz' hend with
    ⟨_, rp', b, hr, hb⟩ | ⟨hfit, _⟩
  · refine ⟨f, s', _, hf, ?_, hres rp' b _ hb, hkeep.trans (quiet_write _ _ _ _ _ _) le_rfl⟩
    refine (insertInto_eq hi hr).trans ?_
    dsimp only
    rw [hpid, List.length_nil]
  · exact absurd (fits_nil hlen) hfit

theorem ResidentHeap.insert (h : ResidentHeap s pages) {record : Record}
    (hlen : record.data.length ≤ 990) (hend : record.data.length < lastFreeEnd pages)
    (hroom : Roomy n (insertPages pages record.data).2) :
    ∃ s', TableHeap.insert s record = some ((insertPages pages record.data).1, s') ∧
      ResidentHeap s' (insertPages pages record.data).2 ∧ s.Quiet s' pages.length := by
  have hcur := h.currentPid_eq
  unfold Roomy at hroom
  cases hl : pages.getLast? with
  | none =>
    obtain rfl := List.getLast?_eq_none_iff.1 hl
    have hplace : insertPages [] record.data = (some ⟨1, 0⟩, [[⟨record.data, true⟩]]) :=
      if_pos (fits_nil hlen)
    rw [hplace] at hroom ⊢
    obtain ⟨f, t, u, hf, hi, hres, hkeep⟩ := h.insertInto_new hroom.1
      (Nat.zero_lt_of_lt hroom.2) hlen
    refine ⟨_, ?_, hres, hkeep⟩
    rw [TableHeap.insert, hcur, if_pos (.inr rfl), hf]
    exact insertAt_accepted hi
  | some last =>
    obtain ⟨front, rfl⟩ := List.getLast?_eq_some_iff.1 hl
    have hplace : insertPages (front ++ [last]) record.data =
        placeLast (front ++ [last]) last record.data := by rw [insertPages, hl]
    rw [lastFreeEnd, hl, Option.getD_some] at hend
    rw [hplace] at hroom ⊢
    have hlen2 : (front ++ [last]).length ≤ (placeLast (front ++ [last]) last record.data).2.length := by
      unfold placeLast
      split
      · simp
      · simp [length_placeNew]
    have hsize : (front ++ [last]).length = front.length + 1 := by simp
    have hn : (front ++ [last]).length + 2 ≤ n := (Nat.add_le_add_right hlen2 2).trans hroom.1
    obtain ⟨f, t, hf, ht, hd, hkeep⟩ := h.fetch (i := front.length + 1) hn hsize.ge
    have hlast : (front ++ [last])[front.length]? = some last := by simp
    obtain ⟨rp, hrp, hpid⟩ := ht.page hlast hd
    have hinv : front.length + 1 ≠ invalidId := by
      have := h.dense.lt_limit
      unfold bfpMaxPageNum pageSize at this
      unfold invalidId
      omega
    have hins : TableHeap.insert s record = insertAt t (front.length + 1) f record := by
      rw [TableHeap.insert, hcur, hsize, if_neg (by omega), hf]
    rw [hins]
    unfold placeLast at hroom ⊢
    rcases offer hrp hend with ⟨hfit, rp', b, hr, hb⟩ | ⟨hfit, hr⟩
    · have hi := insertInto_eq hrp.init hr
      rw [if_pos hfit, insertAt_accepted hi]
      refine ⟨_, congrArg some (Prod.ext (by simp [hpid]) rfl), ?_,
        hkeep.trans (quiet_write _ _ _ _ _ _) le_rfl⟩
      simpa using ht.write hd (by omega) hb
    · have hi := insertInto_eq hrp.init hr
      rw [setPage_self] at hi
      rw [if_neg hfit, placeNew_of_le _ hlen] at hroom
      rw [if_neg hfit, placeNew_of_le _ hlen]
      simp only [List.length_append, List.length_singleton] at hroom
      have hu : ResidentHeap (t.unpin (front.length + 1) false) (front ++ [last]) := ht.unpin_clean _
      obtain ⟨g, u, w, hg, hw, hres, hkeep'⟩ := hu.insertInto_new (by omega) (by omega) hlen
      refine ⟨_, insertAt_moved hi hg hw, hres, ?_⟩
      exact (hkeep.trans (quiet_unpin t _ _ _) le_rfl).trans hkeep' le_rfl

theorem ResidentHeap.remove (h : ResidentHeap s pages) (hn : pages.length + 2 ≤ n) {rid : RID}
    (hi : pages[i]? = some slots) (hp : rid.pageId = i + 1) :
    ∃ s', TableHeap.remove s rid = some (decide (rid.slotId < slots.length), s') ∧
      ResidentHeap s' (pages.set i (slots.modify rid.slotId Slot.kill)) ∧
      s.Quiet s' pages.length := by
  have hlt : i < pages.length := (List.getElem?_eq_some_iff.1 hi).1
  obtain ⟨f, t, hf, ht, hd, hkeep⟩ := h.fetch (i := rid.pageId) hn (by omega)
  rw [hp] at hd
  obtain ⟨rp, hrp, _⟩ := ht.page hi hd
  have hr := hrp.remove_eq (p := t.pages f) rid
  by_cases hs : rid.slotId < slots.length
  · rw [if_pos hs] at hr
    refine ⟨_, (remove_eq hf hrp.init hr).trans (by rw [decide_eq_true hs]), ?_,
      hkeep.trans (quiet_write _ _ _ _ _ _) le_rfl⟩
    rw [hp]
    exact ht.write hd hlt (hrp.removed hs)
  · rw [if_neg hs] at hr
    refine ⟨_, (remove_eq hf hrp.init hr).trans (by rw [decide_eq_false hs]), ?_,
      hkeep.trans (quiet_write _ _ _ _ _ _) le_rfl⟩
    have hsame : slots.modify rid.slotId Slot.kill = slots := List.modify_eq_self (not_lt.1 hs)
    rw [hp, hsame]
    exact ht.write hd hlt hrp

/-- Opening the file with any pool gives the heap back. -/
def SavedPages (file : File) (pages : List (List Slot)) : Prop :=
  ∀ m, ∃ s : BufferPool (m + 1), openFile (m + 1) file = some s ∧ ResidentHeap s pages

/-- A file with a header, which is not written when it is opened. -/
structure SettledPages (file : File) (pages : List (List Slot)) : Prop where
  saved : SavedPages file pages
  header : loadSize (DiskManager.stored { file := file } 0) 0 ≠ 0

theorem residentHeap_freshPool (m : ℕ) : ResidentHeap (freshPool m) [] := by
  obtain ⟨bytes, hr, h1⟩ := resident_freshPool m
  exact ⟨bytes, hr, by simp, fun _ => h1 ▸ hasSlots_zero⟩

theorem written_freshPool (m : ℕ) (bytes : ℕ → PageBlock) :
    Written (freshPool m).disk.file (freshPool m) 0 bytes := by
  have hw : BFPHeaderPage.fresh.write2page (headerPage File.absent) =
      some { headerPage File.absent with buffer := freshHeaderPage.buffer, dirty := true } :=
    (BFPHeaderPage.write2page_eq_some_iff _ _ _).2 ⟨by decide, rfl⟩
  have hstored : DiskManager.stored { file := (freshPool m).disk.file } 0 =
      freshHeaderPage.buffer := rfl
  obtain ⟨hnum, hphy, hbitmap⟩ := BFPHeaderPage.load_of_write2page hw (by decide) (by decide)
  refine ⟨⟨?_, ?_, ?_⟩, fun id hid h0 => absurd (Nat.le_zero.1 hid) h0, fun _ => ?_⟩
  · rw [hstored]
    exact hnum
  · rw [hstored]
    exact hphy
  · rw [hstored]
    exact hbitmap
  · rfl

theorem settledPages_freshPool (m : ℕ) : SettledPages (freshPool m).disk.file [] := by
  obtain ⟨bytes, hr, _⟩ := resident_freshPool m
  have hw := written_freshPool m bytes
  refine ⟨fun k => ?_, hw.header_ne_zero hr.dense⟩
  obtain ⟨u, hu, bytes', hr', _, hblank⟩ := hw.reopened hr.dense (by decide) k
  exact ⟨u, hu, bytes', hr', by simp, fun _ => hblank rfl ▸ hasSlots_zero⟩

theorem SettledPages.open_file {file : File} (h : SettledPages file pages) {m : ℕ}
    {s : BufferPool (m + 1)} (hs : openFile (m + 1) file = some s) : s.disk.file = file := by
  rw [openFile_succ] at hs
  obtain ⟨r, hr, rfl⟩ := Option.map_eq_some_iff.1 hs
  rcases BFPHeaderPage.init_cases hr with ⟨hzero, _⟩ | ⟨_, _, rfl⟩
  · exact absurd hzero h.header
  · rfl

theorem ResidentHeap.close (h : ResidentHeap s pages) (hroom : Roomy n pages) :
    ∃ t, TableHeap.close s = some t ∧ SettledPages t.disk.file pages := by
  have hdense := h.dense
  obtain ⟨bytes, hr, hpages, _⟩ := h
  obtain ⟨t, ht, hw⟩ := hr.close hroom.1 hroom.2
  refine ⟨t, ht, fun m => ?_, hw.header_ne_zero hdense⟩
  obtain ⟨u, hu, bytes', hr', hsame, hblank⟩ := hw.reopened hdense hroom.2 m
  refine ⟨u, hu, bytes', hr', fun i slots hi => ?_, fun hnil => ?_⟩
  · rw [hsame (i + 1) (List.getElem?_eq_some_iff.1 hi).1 (Nat.succ_ne_zero i)]
    exact hpages i slots hi
  · rw [hblank (by rw [hnil]; rfl)]
    exact hasSlots_zero

end Tadis.TableHeap
