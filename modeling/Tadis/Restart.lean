import Tadis.Allocation
import Tadis.PageDeletion
import Tadis.Transition

/-!
# The allocation map across a restart

`close` writes two counters and the bitmap without its length; opening the file recomputes the
length from the counters. The bitmap keeps a byte for the highest id ever allocated, while
`page_num_` drops with every deletion, so the two lengths agree only under a condition on the header
at the time of the close.
-/

namespace Tadis.BufferPool

variable {n : ℕ} {s s' : BufferPool n}

inductive AllocOp
  | newPage
  | deletePage (id : ℕ)
  | unpin (id : ℕ) (isDirty : Bool)

/-- Successful allocations, deletions of allocated pages other than page 0, and unpins. -/
inductive AllocStep : BufferPool n → AllocOp → BufferPool n → Prop
  | newPage {s s' : BufferPool n} {id : ℕ} {f : Fin n} (h : s.newPage = (some (id, f), s')) :
      AllocStep s .newPage s'
  | deletePage {s s' : BufferPool n} {id : ℕ} (hid : s.contain id = .success) (h0 : id ≠ 0)
      (h : s.deletePage id = some s') : AllocStep s (.deletePage id) s'
  | unpin (s : BufferPool n) (id : ℕ) (isDirty : Bool) :
      AllocStep s (.unpin id isDirty) (s.unpin id isDirty)

/-- Closing the pool succeeds, and however the file is reopened, every id has the same answer from
`contain` and no later `new_page` returns an id that is allocated. -/
def SurvivesRestart (s : BufferPool n) : Prop :=
  ∃ s₁, s.close = some s₁ ∧ s₁.closed = true ∧
    ∀ m, ∃ s₂ : BufferPool (m + 1), openFile (m + 1) s₁.disk.file = some s₂ ∧
      (∀ id, s₂.contain id = s.contain id) ∧
      ∀ ops s₃, Transition.Run AllocStep s₂ ops s₃ →
        ∀ id, s₃.contain id = .success → ∀ f s₄, s₃.newPage ≠ (some (id, f), s₄)

/-- Page 0 is cached, or there is a frame to load it into. -/
def HeaderReachable (s : BufferPool n) : Prop :=
  s.dir.lookup 0 ≠ none ∨ s.freeList ≠ [] ∨ s.replacer.items ≠ []

/-- The bitmap fits into page 0 and has the length that opening the file recomputes. -/
def HeaderReadable (h : BFPHeaderPage) : Prop :=
  h.bitmap.length ≤ bfpBitmapMaxSize ∧
    h.bitmap.length = BFPHeaderPage.bitmapSize h.pageNum h.phyNum

theorem fetch_ne_none_iff (id : ℕ) :
    (s.fetch id).1 ≠ none ↔ s.dir.lookup id ≠ none ∨ s.freeList ≠ [] ∨ s.replacer.items ≠ [] := by
  rcases s.fetch_cases id with ⟨f, hd, hf⟩ | ⟨hd, hv, hf⟩ | ⟨f, free, lru, hd, ht, hf⟩
  · simp [hf, hd]
  · obtain ⟨hfree, hlru⟩ := victim_eq_none_iff.1 hv
    simp [hf, hd, hfree, hlru]
  · have hv : s.victim ≠ none := by
      rw [ht.victim_eq]
      exact Option.some_ne_none _
    rw [Ne, victim_eq_none_iff, not_and_or] at hv
    simp [hf, hd, hv]

/-- Every cached id is a page whose offset does not wrap. -/
def CachesAddressable (s : BufferPool n) : Prop :=
  ∀ id f, s.dir.lookup id = some f → Addressable id

theorem CachesAddressable.insert_erase (h : s.CachesAddressable) {old id : ℕ} {f : Fin n}
    (hid : Addressable id) (hdir : s'.dir = (s.dir.erase old).insert id f) :
    s'.CachesAddressable := by
  intro j g hj
  rw [hdir] at hj
  by_cases hji : j = id
  · rwa [hji]
  · rw [AList.lookup_insert_ne hji] at hj
    by_cases hold : j = old
    · rw [hold, AList.lookup_erase] at hj
      cases hj
    · rw [AList.lookup_erase_ne hold] at hj
      exact h j g hj

theorem CachesAddressable.fetch (h : s.CachesAddressable) {id : ℕ} (hid : Addressable id) :
    (s.fetch id).2.CachesAddressable := by
  rcases s.fetch_cases id with ⟨f, _, hf⟩ | ⟨_, _, hf⟩ | ⟨f, free, lru, _, _, hf⟩
  · rw [hf]
    exact h
  · rwa [hf]
  · rw [hf, loadFrame_eq]
    exact h.insert_erase hid rfl

theorem CachesAddressable.newPage (h : s.CachesAddressable) (hb : s.BitmapBounded) :
    s.newPage.2.CachesAddressable := by
  rcases s.newPage_cases with ⟨_, hf⟩ | ⟨id, f, free, lru, hc, _, hf⟩
  · rw [hf]
    exact h
  · rw [hf, allocFrame_eq]
    exact h.insert_erase (hb.chosenId_addressable hc) rfl

theorem writeHeadPage_keeps {b : Bool} (h : s.writeHeadPage = some (b, s')) :
    s'.disk.nextPid = s.disk.nextPid ∧ s'.closed = s.closed ∧
      (s.CachesAddressable → s'.CachesAddressable) := by
  rcases writeHeadPage_cases h with ⟨_, _, rfl⟩ | ⟨_, f, t, p, hf, _, _, rfl⟩
  · exact ⟨rfl, rfl, id⟩
  · have ht : (s.fetch 0).2 = t := by rw [hf]
    rw [unpin_nextPid, unpin_closed]
    refine ⟨ht ▸ fetch_nextPid 0, ht ▸ fetch_closed 0, fun hs => ?_⟩
    intro j g hj
    rw [unpin_dir] at hj
    exact (ht ▸ hs.fetch (addressable_of_le (Nat.zero_le _))) j g hj

theorem deletePage_keeps {id : ℕ} (hid : id < s.head.phyNum) (h : s.deletePage id = some s') :
    s'.head = s.releasedHead id ∧ s'.disk.nextPid = s.disk.nextPid ∧ s'.closed = s.closed ∧
      (s.CachesAddressable → s'.CachesAddressable) := by
  rcases deletePage_cases h with ⟨hle, _⟩ | ⟨_, _, b, ⟨f, _, hw⟩ | ⟨_, hw⟩⟩
  · omega
  · obtain ⟨hn, hc, ha⟩ := writeHeadPage_keeps hw
    refine ⟨writeHeadPage_head hw, hn, hc, fun hs => ha ?_⟩
    intro j g hj
    by_cases hji : j = id
    · rw [hji, freed, AList.lookup_erase] at hj
      cases hj
    · rw [freed, AList.lookup_erase_ne hji] at hj
      exact hs j g hj
  · obtain ⟨hn, hc, ha⟩ := writeHeadPage_keeps hw
    exact ⟨writeHeadPage_head hw, hn, hc, ha⟩

theorem Allocates.released {live : Set ℕ} (h : s.Allocates live) {id : ℕ} (hid : id ∈ live)
    (h0 : id ≠ 0) (hhead : s'.head = s.releasedHead id) (hnext : s'.disk.nextPid = s.disk.nextPid) :
    s'.Allocates (live \ {id}) := by
  have hbit : id < s.head.bitmap.length * 8 := BitMap.lt_of_get ((h.get_iff id).2 hid)
  refine ⟨?_, ⟨h.zero_mem, Ne.symm h0⟩, ?_, ?_⟩
  · have := h.bounded
    unfold BitmapBounded at *
    rwa [hhead, releasedHead, BitMap.length_set]
  · intro j
    simp only [hhead, releasedHead, BitMap.get_set _ _ _ hbit, Set.mem_sdiff, Set.mem_singleton_iff]
    by_cases hj : id = j
    · simp [hj]
    · simp [hj, Ne.symm hj, h.get_iff]
  · intro j hj
    rw [hnext]
    exact h.lt_next j hj.1

theorem exists_allocates_allocStep {op : AllocOp} (h : ∃ live, s.Allocates live)
    (hs : AllocStep s op s') : ∃ live, s'.Allocates live := by
  obtain ⟨live, h⟩ := h
  cases hs with
  | newPage hf => exact ⟨_, (h.newPage hf).1⟩
  | @deletePage _ id hid h0 hd =>
    have hlive : id ∈ live := (h.get_iff id).1 ((contain_eq_success_iff id).1 hid)
    by_cases hphy : id < s.head.phyNum
    · obtain ⟨hhead, hnext, _⟩ := deletePage_keeps hphy hd
      exact ⟨_, h.released hlive h0 hhead hnext⟩
    · rw [deletePage, if_pos (not_lt.1 hphy)] at hd
      rw [← Option.some.inj hd]
      exact ⟨live, h⟩
  | unpin id d => exact ⟨live, h.unpin id d⟩

structure RestartInv (s : BufferPool n) (live : Finset ℕ) : Prop where
  allocates : s.Allocates ↑live
  pageNum_eq : s.head.pageNum = live.card
  next_le : s.disk.nextPid ≤ s.head.phyNum
  not_closed : s.closed = false
  cached : s.CachesAddressable

theorem exists_restartInv_allocStep {op : AllocOp} (h : ∃ live, s.RestartInv live)
    (hs : AllocStep s op s') : ∃ live, s'.RestartInv live := by
  obtain ⟨live, h⟩ := h
  cases hs with
  | @newPage _ id f hf =>
    obtain ⟨ha, hnot⟩ := h.allocates.newPage hf
    have hs' : s' = s.newPage.2 := by rw [hf]
    rcases s.newPage_cases with ⟨_, hg⟩ | ⟨j, g, free, lru, hc, _, hg⟩
    · simp [hf] at hg
    · refine ⟨insert id live, by simpa using ha, ?_, ?_, ?_, ?_⟩
      · rw [Finset.card_insert_of_notMem (by simpa using hnot), ← h.pageNum_eq, hs', hg, allocFrame_eq]
      · have hnext : s.chosenDisk.nextPid ≤ s.disk.nextPid + 1 := by
          unfold chosenDisk
          split
          · exact Nat.le_succ _
          · exact le_rfl
        rw [hs', hg, allocFrame_eq]
        simp only [evicted_nextPid]
        exact hnext.trans (Nat.succ_le_succ h.next_le)
      · rw [hs', hg, allocFrame_eq]
        exact h.not_closed
      · rw [hs']
        exact h.cached.newPage h.allocates.bounded
  | @deletePage _ id hid h0 hd =>
    have hlive : id ∈ live := by
      simpa using (h.allocates.get_iff id).1 ((contain_eq_success_iff id).1 hid)
    have hphy : id < s.head.phyNum := (h.allocates.lt_next id (by simpa using hlive)).trans_le h.next_le
    obtain ⟨hhead, hnext, hclosed, hcached⟩ := deletePage_keeps hphy hd
    have ha := h.allocates.released (by simpa using hlive) h0 hhead hnext
    refine ⟨live.erase id, by simpa using ha, ?_, ?_, hclosed.trans h.not_closed, hcached h.cached⟩
    · have hpos : 0 < live.card := Finset.card_pos.2 ⟨id, hlive⟩
      rw [hhead, releasedHead, h.pageNum_eq, sizeDec_of_pos hpos, Finset.card_erase_of_mem hlive]
    · rw [hhead, hnext]
      exact h.next_le
  | unpin id d =>
    refine ⟨live, h.allocates.unpin id d, ?_, ?_, (unpin_closed id d).trans h.not_closed, ?_⟩
    · rw [unpin_head, h.pageNum_eq]
    · rw [unpin_head, unpin_nextPid]
      exact h.next_le
    · intro j g hj
      rw [unpin_dir] at hj
      exact h.cached j g hj

theorem RestartInv.allocRun {live : Finset ℕ} (h : s.RestartInv live) {ops : List AllocOp}
    (hr : Transition.Run AllocStep s ops s') : ∃ live', s'.RestartInv live' :=
  hr.invariant (I := fun t => ∃ live, t.RestartInv live) (fun _ _ _ => exists_restartInv_allocStep)
    ⟨live, h⟩

theorem restartInv_freshPool (m : ℕ) : (freshPool m).RestartInv {0} := by
  have hz : loadSize (DiskManager.stored { file := File.absent } 0) 0 = 0 := loadSize_zero 0
  obtain ⟨s₀, hs, _, ha, hhead, hnext⟩ := openFile_of_no_header m hz
  obtain rfl : s₀ = freshPool m := Option.some.inj (hs.symm.trans (openFile_absent_succ m))
  refine ⟨by simpa using ha, by rw [hhead]; rfl, by rw [hhead, hnext]; rfl, rfl, ?_⟩
  intro id f hf
  simp only [freshPool, openedPool, lookup_singleton] at hf
  split_ifs at hf with h0
  exact h0 ▸ addressable_of_le (Nat.zero_le _)

theorem unpin_frame (s : BufferPool n) (id : ℕ) (d : Bool) (f : Fin n) :
    ((s.unpin id d).pages f).buffer = (s.pages f).buffer ∧
      ((s.pages f).dirty = true → ((s.unpin id d).pages f).dirty = true) := by
  cases hd : s.dir.lookup id with
  | none => simp [s.unpin_of_not_cached d hd]
  | some g =>
    rw [s.unpin_eq d hd]
    by_cases hg : f = g
    · subst hg
      simp +contextual
    · simp [hg]

theorem fetch_lookup_self {id : ℕ} {f : Fin n} (hf : s.fetch id = (some f, s')) :
    s'.dir.lookup id = some f := by
  rcases s.fetch_cases id with ⟨g, hd, hg⟩ | ⟨_, _, hg⟩ | ⟨g, free, lru, _, _, hg⟩
  · obtain ⟨rfl, rfl⟩ := by simpa [hf] using hg
    exact hd
  · simp [hf] at hg
  · obtain ⟨rfl, rfl⟩ := by simpa [hf] using hg
    exact (s.remapped_loadFrame f id free lru).lookup_self

theorem stored_header (h : s.CachesAddressable) (hw : s.writeHeadPage = some (true, s')) :
    ∃ p p', s.head.write2page p = some p' ∧ s'.flushAllPage.disk.stored 0 = p'.buffer := by
  rcases writeHeadPage_cases hw with ⟨hb, _⟩ | ⟨_, f, t, p, hf, _, hp, rfl⟩
  · cases hb
  · refine ⟨_, p, hp, ?_⟩
    have hz : Addressable 0 := addressable_of_le (Nat.zero_le _)
    have hlookup := fetch_lookup_self hf
    have ht : t.CachesAddressable := by
      have := h.fetch hz
      rwa [hf] at this
    obtain ⟨hbuf, hdirty⟩ := (t.setPage f p).unpin_frame p.pid true f
    rw [setPage_pages, Function.update_self] at hbuf hdirty
    have hentries : ((t.setPage f p).unpin p.pid true).dir = t.dir := unpin_dir _ _ _
    unfold flushAllPage
    rw [hentries]
    dsimp only
    rw [stored_flushEntries hz (b := p.buffer)]
    · refine if_pos ⟨⟨0, f⟩, AList.mem_lookup_iff.1 hlookup, rfl, hdirty (write2page_pid hp).2.2⟩
    · exact fun e he => ht e.1 e.2 (AList.mem_lookup_iff.2 he)
    · rintro e he h0
      have hef : t.dir.lookup 0 = some e.2 := h0 ▸ AList.mem_lookup_iff.2 he
      rw [← Option.some.inj (hlookup.symm.trans hef)]
      exact hbuf

theorem close_eq_some_iff (hc : s.closed = false) {s₁ : BufferPool n} :
    (s.close = some s₁ ∧ s₁.closed = true) ↔
      ∃ t, s.writeHeadPage = some (true, t) ∧ s₁ = { t.flushAllPage with closed := true } := by
  unfold close
  simp only [hc, Bool.false_eq_true, if_false, Option.bind_eq_bind, Option.bind_eq_some_iff]
  constructor
  · rintro ⟨⟨⟨b, t⟩, hw, ht⟩, hclosed⟩
    cases b
    · obtain rfl := by simpa using ht
      rw [(writeHeadPage_keeps hw).2.1, hc] at hclosed
      cases hclosed
    · exact ⟨t, hw, by simpa [eq_comm] using ht⟩
  · rintro ⟨t, hw, rfl⟩
    exact ⟨⟨_, hw, by simp⟩, rfl⟩

theorem exists_writeHeadPage_iff :
    (∃ t, s.writeHeadPage = some (true, t)) ↔
      s.HeaderReachable ∧ s.head.bitmap.length ≤ bfpBitmapMaxSize := by
  have hfit : Block.Fits pageSize 16 s.head.bitmap.length ↔
      s.head.bitmap.length ≤ bfpBitmapMaxSize := by
    unfold Block.Fits bfpBitmapMaxSize pageSize
    omega
  rw [HeaderReachable, ← fetch_ne_none_iff, ← hfit]
  unfold writeHeadPage
  rcases hf : s.fetch 0 with ⟨_ | f, t⟩
  · simp
  · have hh : t.head = s.head := by simpa [hf] using fetch_head s 0
    by_cases hfits : Block.Fits pageSize 16 s.head.bitmap.length <;>
      simp [hh, BFPHeaderPage.write2page, hfits]

theorem contain_eq_outOfRange_iff (id : ℕ) :
    s.contain id = .outOfRange ↔ s.head.bitmap.length * 8 ≤ id := by
  unfold contain
  by_cases hlen : s.head.bitmap.length * 8 ≤ id
  · simp [hlen]
  · cases hg : BitMap.get s.head.bitmap id <;> simp [hlen]

theorem bitmap_length_eq_of_contain {m : ℕ} {s₂ : BufferPool m}
    (h : ∀ id, s₂.contain id = s.contain id) :
    s₂.head.bitmap.length = s.head.bitmap.length := by
  have h1 := (contain_eq_outOfRange_iff (s := s) _).1
    ((h _).symm.trans ((contain_eq_outOfRange_iff _).2 le_rfl))
  have h2 := (contain_eq_outOfRange_iff (s := s₂) _).1
    ((h _).trans ((contain_eq_outOfRange_iff _).2 le_rfl))
  omega

theorem RestartInv.pageNum_bounds {live : Finset ℕ} (h : s.RestartInv live) :
    s.head.pageNum ≠ 0 ∧ s.head.pageNum ≤ s.head.phyNum := by
  have hz : 0 ∈ live := by simpa using h.allocates.zero_mem
  have hsub : live ⊆ Finset.range s.disk.nextPid := by
    intro id hid
    exact Finset.mem_range.2 (h.allocates.lt_next id (by simpa using hid))
  have hle := Finset.card_le_card hsub
  rw [Finset.card_range] at hle
  rw [h.pageNum_eq]
  exact ⟨(Finset.card_pos.2 ⟨0, hz⟩).ne', hle.trans h.next_le⟩

/-- What the file holds once the pool has been closed. -/
structure HoldsHeader (file : File) (h : BFPHeaderPage) : Prop where
  pageNum : loadSize (DiskManager.stored { file := file } 0) 0 = h.pageNum
  phyNum : loadSize (DiskManager.stored { file := file } 0) 8 = h.phyNum
  bitmap : (DiskManager.stored { file := file } 0).load 16 h.bitmap.length = h.bitmap

theorem RestartInv.holdsHeader {live : Finset ℕ} (h : s.RestartInv live)
    (hphy : s.head.phyNum < 2 ^ 64) (hw : s.writeHeadPage = some (true, s')) :
    HoldsHeader s'.flushAllPage.disk.file s.head := by
  obtain ⟨p, p', hp, hstored⟩ := stored_header h.cached hw
  obtain ⟨h1, h2, h3⟩ := BFPHeaderPage.load_of_write2page hp
    (h.pageNum_bounds.2.trans_lt hphy) hphy
  rw [← hstored] at h1 h2 h3
  exact ⟨h1, h2, h3⟩

/-- A file that holds a readable header opens to it, and no allocated page is handed out again. -/
theorem RestartInv.reopened {live : Finset ℕ} (h : s.RestartInv live) {file : File}
    (hf : HoldsHeader file s.head) (hr : HeaderReadable s.head) (m : ℕ) :
    ∃ s₂ : BufferPool (m + 1), openFile (m + 1) file = some s₂ ∧
      (∀ id, s₂.contain id = s.contain id) ∧
      ∀ ops s₃, Transition.Run AllocStep s₂ ops s₃ →
        ∀ id, s₃.contain id = .success → ∀ f s₄, s₃.newPage ≠ (some (id, f), s₄) := by
  have hfit : Block.Fits pageSize 16 (BFPHeaderPage.bitmapSize s.head.pageNum s.head.phyNum) := by
    have := hr.1
    rw [← hr.2, Block.Fits]
    unfold bfpBitmapMaxSize pageSize at *
    omega
  have hlt : ∀ id, BitMap.get s.head.bitmap id = true → id < s.head.phyNum := fun id hid =>
    (h.allocates.lt_next id ((h.allocates.get_iff id).1 hid)).trans_le h.next_le
  obtain ⟨s₂, hs, _, ha, hhead, _⟩ := openFile_of_header m s.head hf.pageNum hf.phyNum hfit
    (hr.2 ▸ hf.bitmap) h.pageNum_bounds.1 ((h.allocates.get_iff 0).2 h.allocates.zero_mem) hlt
  refine ⟨s₂, hs, ?_, ?_⟩
  · intro id
    unfold contain
    rw [hhead]
  · intro ops s₃ hrun id hid f s₄ hnew
    obtain ⟨live', ha'⟩ := hrun.invariant (I := fun t => ∃ live, t.Allocates live)
      (fun _ _ _ => exists_allocates_allocStep) ⟨_, ha⟩
    exact (ha'.newPage hnew).2 ((ha'.get_iff id).1 ((contain_eq_success_iff id).1 hid))

theorem bitmap_length_of_openFile {m : ℕ} {file : File} {h : BFPHeaderPage} {s₂ : BufferPool (m + 1)}
    (hf : HoldsHeader file h) (hpos : h.pageNum ≠ 0) (hs : openFile (m + 1) file = some s₂) :
    s₂.head.bitmap.length = BFPHeaderPage.bitmapSize h.pageNum h.phyNum := by
  rw [openFile_succ] at hs
  obtain ⟨r, hi, rfl⟩ := Option.map_eq_some_iff.1 hs
  have hbuf : (headerPage file).buffer = DiskManager.stored { file := file } 0 := rfl
  rcases BFPHeaderPage.init_cases hi with ⟨h0, _⟩ | ⟨_, _, rfl⟩
  · rw [hbuf, hf.pageNum] at h0
    exact absurd h0 hpos
  · simp only [openedPool, Block.length_load, hbuf, hf.pageNum, hf.phyNum]

theorem RestartInv.survivesRestart_iff {live : Finset ℕ} (h : s.RestartInv live)
    (hphy : s.head.phyNum < 2 ^ 64) :
    s.SurvivesRestart ↔ s.HeaderReachable ∧ HeaderReadable s.head := by
  constructor
  · rintro ⟨s₁, hs, hclosed, hopen⟩
    obtain ⟨t, hw, rfl⟩ := (close_eq_some_iff h.not_closed).1 ⟨hs, hclosed⟩
    obtain ⟨hreach, hfits⟩ := exists_writeHeadPage_iff.1 ⟨t, hw⟩
    obtain ⟨s₂, hs₂, hcontain, _⟩ := hopen 0
    have hlen := bitmap_length_of_openFile (h.holdsHeader hphy hw) h.pageNum_bounds.1 hs₂
    exact ⟨hreach, hfits, (bitmap_length_eq_of_contain hcontain).symm.trans hlen⟩
  · rintro ⟨hreach, hreadable⟩
    obtain ⟨t, hw⟩ := exists_writeHeadPage_iff.2 ⟨hreach, hreadable.1⟩
    have hclose := (close_eq_some_iff h.not_closed).2 ⟨t, hw, rfl⟩
    exact ⟨_, hclose.1, hclose.2, h.reopened (h.holdsHeader hphy hw) hreadable⟩

/-- After any run over a fresh file, the allocation map survives closing and reopening exactly when
page 0 can still be loaded and the header it gets is readable. -/
theorem survives_restart_iff {m : ℕ} {s₀ s : BufferPool (m + 1)} {ops : List AllocOp}
    (h₀ : openFile (m + 1) File.absent = some s₀) (hrun : Transition.Run AllocStep s₀ ops s)
    (hphy : s.head.phyNum < 2 ^ 64) :
    s.SurvivesRestart ↔ s.HeaderReachable ∧ HeaderReadable s.head := by
  obtain rfl : freshPool m = s₀ := Option.some.inj ((openFile_absent_succ m).symm.trans h₀)
  obtain ⟨live, h⟩ := (restartInv_freshPool m).allocRun hrun
  exact h.survivesRestart_iff hphy

theorem run_newPages {s : BufferPool n} (k : ℕ)
    (h : ∀ i < k, ((fun t => t.newPage.2)^[i] s).newPage.1 ≠ none) :
    Transition.Run AllocStep s (List.replicate k .newPage) ((fun t => t.newPage.2)^[k] s) := by
  induction k with
  | zero => exact .nil s
  | succ k ih =>
    obtain ⟨⟨id, f⟩, hx⟩ := Option.ne_none_iff_exists'.1 (h k (Nat.lt_succ_self k))
    rw [List.replicate_succ', Function.iterate_succ_apply']
    exact (ih (fun i hi => h i (hi.trans (Nat.lt_succ_self k)))).append
      (.single (.newPage (f := f) (Prod.ext hx rfl)))

/-- `survives_restart_iff` after three allocations in a pool of four frames. -/
theorem survives_restart_three_pages :
    ((fun t => t.newPage.2)^[3] (freshPool 3)).SurvivesRestart := by
  have hrun := run_newPages (s := freshPool 3) 3 (by decide)
  refine (survives_restart_iff (openFile_absent_succ 3) hrun (by decide)).2 ⟨?_, by decide, by decide⟩
  exact .inl (by decide)

/-- Eight allocations and the deletion of page 1 in a pool of ten frames: the bitmap has two bytes
and one is read back. -/
theorem bitmap_cut_off_by_restart :
    ∃ s₀ : BufferPool 10, openFile 10 File.absent = some s₀ ∧
      ∃ ops s, Transition.Run AllocStep s₀ ops s ∧ s.contain 8 = .success ∧
        ¬ s.SurvivesRestart := by
  let t := (fun t => t.newPage.2)^[8] (freshPool 9)
  have hrun := run_newPages (s := freshPool 9) 8 (by decide)
  have hdel : AllocStep t (.deletePage 1) ((t.deletePage 1).get (by decide)) :=
    .deletePage (by decide) (by decide) (Option.some_get _).symm
  refine ⟨_, openFile_absent_succ 9, _, _, hrun.append (.single hdel), by decide, ?_⟩
  obtain ⟨live, h⟩ := (restartInv_freshPool 9).allocRun (hrun.append (.single hdel))
  rw [h.survivesRestart_iff (by decide)]
  rintro ⟨_, _, hlen⟩
  exact absurd hlen (by decide)

end Tadis.BufferPool
