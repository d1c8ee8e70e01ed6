import Tadis.FailedAllocation
import Tadis.PageDeletion

/-!
# No frame is leaked

In a run without deletions that only fetches allocated pages, a page that `new_page` takes is not
cached, so the page table stays consistent. Each frame is then on the free list, in the replacer or
pinned, and in one of them only. A call therefore finds no frame exactly when all frames are pinned.
-/

namespace Tadis.BufferPool

variable {n : ℕ} {s s' : BufferPool n} {pins pins' : ℕ → ℕ} {live : Set ℕ}

/-- Pages are not deleted, and only allocated pages are fetched. -/
def FetchesAllocated (s : BufferPool n) : PinOp → Prop
  | .fetch id => s.contain id = .success
  | .deletePage _ => False
  | _ => True

structure Partitioned (s : BufferPool n) (pins : ℕ → ℕ) : Prop where
  free_nodup : s.freeList.Nodup
  lru_nodup : s.replacer.items.Nodup
  place : ∀ f, (f ∈ s.freeList ∧ f ∉ s.replacer.items ∧ (s.pages f).pinCount = 0) ∨
    (f ∉ s.freeList ∧ f ∈ s.replacer.items ∧ (s.pages f).pinCount = 0) ∨
    (f ∉ s.freeList ∧ f ∉ s.replacer.items ∧ 0 < (s.pages f).pinCount)
  pin_eq : ∀ f, (s.pages f).pinCount =
    if (s.pages f).pid = invalidId then 0 else pins (s.pages f).pid
  pinned : ∀ id, pins id ≠ 0 → ∃ f, s.dir.lookup id = some f ∧ (s.pages f).pid = id

def AllPinned (s : BufferPool n) : Prop := ∀ f, 0 < (s.pages f).pinCount

/-- An id to allocate is there: the id of a page to reuse, or the next id within the limit. -/
def BelowLimit (s : BufferPool n) : Prop := s.reusableId = none → s.disk.nextPid ≤ bfpMaxPageNum

/-- The frames are owned, only allocated pages are cached, and free frames have no pins. -/
structure Accounted (s : BufferPool n) (pins : ℕ → ℕ) (live : Set ℕ) : Prop where
  frames : s.FrameInv pins
  allocates : s.Allocates live
  cached_live : ∀ id f, s.dir.lookup id = some f → id ∈ live
  free_unpinned : ∀ f ∈ s.freeList, (s.pages f).pinCount = 0

theorem Accounted.congr_pages (h : s.Accounted pins live) (hf : s'.FrameInv pins')
    (hdir : s'.dir = s.dir) (hhead : s'.head = s.head)
    (hnext : s'.disk.nextPid = s.disk.nextPid) (hfree : s'.freeList = s.freeList) {f : Fin n}
    (hnf : f ∉ s.freeList) (hpages : ∀ g, g ≠ f → s'.pages g = s.pages g) :
    s'.Accounted pins' live where
  frames := hf
  allocates := h.allocates.congr hhead hnext
  cached_live id g hg := h.cached_live id g (hdir ▸ hg)
  free_unpinned g hg := by
    rw [hfree] at hg
    have hne : g ≠ f := by
      rintro rfl
      exact hnf hg
    rw [hpages g hne]
    exact h.free_unpinned g hg

theorem Accounted.not_free (h : s.Accounted pins live) {id : ℕ} {f : Fin n}
    (hd : s.dir.lookup id = some f) : f ∉ s.freeList := by
  obtain ⟨hp, hid⟩ := h.frames.pid_of_lookup hd
  rw [h.frames.mem_free, hp]
  exact hid

/-- The free frames and the cached pages after a frame has been given to page `id`. -/
theorem Accounted.remapped (h : s.Accounted pins live) {f : Fin n} {free : List (Fin n)}
    {lru : LruReplacer (Fin n)} {id : ℕ} (ht : s.TakesFrame f free lru) (hf : s'.FrameInv pins')
    (ha : s'.Allocates (insert id live)) (hr : s.Remapped s' f id) (hfree : s'.freeList = free) :
    s'.Accounted pins' (insert id live) where
  frames := hf
  allocates := ha
  cached_live j g hg := by
    by_cases hj : j = id
    · exact .inl hj
    · by_cases hold : j = (s.pages f).pid
      · subst hold
        rw [hr.lookup_old hj] at hg
        cases hg
      · rw [hr.lookup_of_ne j hj hold] at hg
        exact .inr (h.cached_live j g hg)
  free_unpinned g hg := by
    rw [hfree, (h.frames.frameTaken ht).mem_free] at hg
    rw [hr.pages_ne g hg.1]
    exact h.free_unpinned g hg.2

theorem Accounted.fetch (h : s.Accounted pins live) {id : ℕ} {f : Fin n} (hid : id ∈ live)
    (hlt : pins id + 1 < 2 ^ 64) (hf : s.fetch id = (some f, s')) : s'.Accounted (addPin pins id) live := by
  have hget := (h.allocates.get_iff id).2 hid
  have hne : id ≠ invalidId := by
    have hlt := BitMap.lt_of_get hget
    have hb := h.allocates.bounded
    unfold BitmapBounded bfpMaxPageNum pageSize at hb
    unfold invalidId
    omega
  have hframes := (h.frames.fetch hne hlt hf).1
  have ha := h.allocates.fetch id
  rw [hf] at ha
  rcases s.fetch_cases id with ⟨g, hd, hg⟩ | ⟨_, _, hg⟩ | ⟨g, free, lru, _, ht, hg⟩
  · obtain ⟨rfl, rfl⟩ := by simpa [hf] using hg
    refine h.congr_pages hframes rfl rfl rfl rfl (h.not_free hd) fun g hgf => ?_
    simp [pinFrame, hgf]
  · simp [hf] at hg
  · obtain ⟨rfl, rfl⟩ := by simpa [hf] using hg
    have hr := s.remapped_loadFrame f id free lru
    rw [← Set.insert_eq_of_mem hid] at ha ⊢
    exact h.remapped ht hframes ha hr (by simp [loadFrame_eq])

theorem Accounted.keepsTable (h : s.Accounted pins live) : s.KeepsTable .newPage := by
  intro id f hid _
  cases hd : s.dir.lookup id with
  | none => exact .inl rfl
  | some g => exact absurd (h.cached_live id g hd) (h.allocates.chosenId_not_mem hid).1

theorem Accounted.newPage (h : s.Accounted pins live) {id : ℕ} {f : Fin n}
    (hf : s.newPage = (some (id, f), s')) : s'.Accounted (addPin pins id) (insert id live) := by
  have hframes := (h.frames.newPage h.allocates.bounded h.keepsTable hf).1
  have ha := (h.allocates.newPage hf).1
  rcases s.newPage_cases with ⟨_, hg⟩ | ⟨j, g, free, lru, _, ht, hg⟩
  · simp [hf] at hg
  · obtain ⟨⟨rfl, rfl⟩, rfl⟩ := by simpa [hf] using hg
    have hr := s.remapped_allocFrame f id s.chosenDisk free lru
    exact h.remapped ht hframes ha hr (by simp [allocFrame_eq])

theorem Accounted.newPage_none (h : s.Accounted pins live) (hf : s.newPage = (none, s')) :
    s'.Accounted pins live := by
  have ha := h.allocates.newPage_none hf
  rw [newPage_none_eq hf] at ha ⊢
  exact ⟨h.frames.congr rfl rfl rfl (fun _ => ⟨rfl, rfl, fun _ => rfl⟩), ha, h.cached_live,
    h.free_unpinned⟩

theorem Accounted.unpin (h : s.Accounted pins live) {id : ℕ} (d : Bool) (hpin : pins id ≠ 0) :
    (s.unpin id d).Accounted (dropPin pins id) live := by
  have hframes := h.frames.unpin d hpin
  cases hd : s.dir.lookup id with
  | none => exact absurd (h.frames.pinned_cached id hd) hpin
  | some f =>
    have heq := s.unpin_eq d hd
    refine h.congr_pages hframes (unpin_dir s id d) (unpin_head s id d) (unpin_nextPid id d) ?_
      (h.not_free hd) fun g hg => ?_
    · rw [heq]
    · rw [heq]
      dsimp only
      rw [Function.update_of_ne hg]

theorem Accounted.pinStep (h : s.Accounted pins live) {op : PinOp} (hP : s.FetchesAllocated op)
    (hs : PinStep s pins op s' pins') : ∃ live, s'.Accounted pins' live := by
  cases hs with
  | @fetch id f _ hlt hf =>
    have hid : id ∈ live := (h.allocates.get_iff id).1 ((contain_eq_success_iff id).1 hP)
    exact ⟨live, h.fetch hid hlt hf⟩
  | fetchFail hf =>
    rw [fetch_none_eq hf]
    exact ⟨live, h⟩
  | newPage hf => exact ⟨_, h.newPage hf⟩
  | newPageFail hf => exact ⟨live, h.newPage_none hf⟩
  | unpin hpin => exact ⟨live, h.unpin _ hpin⟩
  | deletePage => exact hP.elim

theorem accounted_freshPool (m : ℕ) : (freshPool m).Accounted (fun _ => 0) {0} := by
  have hz : loadSize (DiskManager.stored { file := File.absent } 0) 0 = 0 := loadSize_zero 0
  obtain ⟨s₀, hs, hv, ha, _, _⟩ := openFile_of_no_header m hz
  obtain rfl : s₀ = freshPool m := Option.some.inj (hs.symm.trans (openFile_absent_succ m))
  refine ⟨hv.frames, ha, hv.cached_live, fun f hf => ?_⟩
  have hpid := (hv.frames.mem_free f).1 hf
  have hne : f ≠ Fin.last m := by
    rintro rfl
    simp [freshPool, openedPool, freshHeaderPage, invalidId] at hpid
  simp [freshPool, openedPool, hne]

theorem accounted_run {s₀ : BufferPool n} (hn : 1 ≤ n) (h₀ : openFile n File.absent = some s₀)
    (h : PinRun FetchesAllocated s₀ s pins) : ∃ live, s.Accounted pins live := by
  induction h with
  | refl =>
    obtain ⟨m, rfl⟩ : ∃ m, n = m + 1 := ⟨n - 1, by omega⟩
    obtain rfl : s₀ = freshPool m := Option.some.inj (h₀.symm.trans (openFile_absent_succ m))
    exact ⟨{0}, accounted_freshPool m⟩
  | step _ hP hs ih =>
    obtain ⟨live, ih⟩ := ih
    exact ih.pinStep hP hs

theorem Accounted.partitioned (h : s.Accounted pins live) : s.Partitioned pins where
  free_nodup := h.frames.free_nodup
  lru_nodup := h.frames.lru.items_nodup
  place f := by
    rw [h.frames.mem_free, h.frames.mem_lru]
    by_cases hp : (s.pages f).pid = invalidId
    · have hz := h.free_unpinned f ((h.frames.mem_free f).2 hp)
      exact .inl ⟨hp, fun hno => hno.1 hp, hz⟩
    · rcases Nat.eq_zero_or_pos (s.pages f).pinCount with hz | hpos
      · exact .inr (.inl ⟨hp, ⟨hp, hz⟩, hz⟩)
      · exact .inr (.inr ⟨hp, fun hno => hpos.ne' hno.2, hpos⟩)
  pin_eq f := by
    split
    · exact h.free_unpinned f ((h.frames.mem_free f).2 ‹_›)
    · exact h.frames.pin_eq f ‹_›
  pinned id hpin := by
    obtain ⟨f, hd⟩ := Option.ne_none_iff_exists'.1 (fun hn => hpin (h.frames.pinned_cached id hn))
    exact ⟨f, hd, (h.frames.pid_of_lookup hd).1⟩

theorem Partitioned.victim_eq_none_iff (h : s.Partitioned pins) :
    s.victim = none ↔ s.AllPinned := by
  rw [BufferPool.victim_eq_none_iff]
  constructor
  · rintro ⟨hfree, hlru⟩ f
    rcases h.place f with ⟨hf, _⟩ | ⟨_, hf, _⟩ | ⟨_, _, hpos⟩
    · rw [hfree] at hf
      cases hf
    · rw [hlru] at hf
      cases hf
    · exact hpos
  · intro hall
    refine ⟨List.eq_nil_iff_forall_not_mem.2 fun f hf => ?_,
      List.eq_nil_iff_forall_not_mem.2 fun f hf => ?_⟩
    · rcases h.place f with ⟨_, _, hz⟩ | ⟨hno, _⟩ | ⟨hno, _⟩
      · exact (hall f).ne' hz
      · exact hno hf
      · exact hno hf
    · rcases h.place f with ⟨_, hno, _⟩ | ⟨_, _, hz⟩ | ⟨_, hno, _⟩
      · exact hno hf
      · exact (hall f).ne' hz
      · exact hno hf

theorem Partitioned.fetch_eq_none_iff (h : s.Partitioned pins) {id : ℕ}
    (hd : s.dir.lookup id = none) : (s.fetch id).1 = none ↔ s.AllPinned := by
  rw [← h.victim_eq_none_iff]
  rcases s.fetch_cases id with ⟨f, hd', _⟩ | ⟨_, hv, hf⟩ | ⟨f, free, lru, _, ht, hf⟩
  · rw [hd] at hd'
    cases hd'
  · exact iff_of_true (by rw [hf]) hv
  · refine iff_of_false (by simp [hf]) ?_
    rw [ht.victim_eq]
    exact Option.some_ne_none _

theorem Partitioned.newPage_eq_none_iff (h : s.Partitioned pins) (hb : s.BelowLimit) :
    s.newPage.1 = none ↔ s.AllPinned := by
  rw [← h.victim_eq_none_iff, newPage_fst_eq_none_iff, or_iff_right]
  rintro ⟨hr, hlt⟩
  exact absurd (hb hr) (not_le.2 hlt)

/-- In a run without deletions that only fetches allocated pages the frames are partitioned, and a
call below the page limit fails for an uncached page exactly when all frames are pinned. -/
theorem no_frame_leaked {s₀ : BufferPool n} (hn : 1 ≤ n) (h₀ : openFile n File.absent = some s₀)
    (h : PinRun FetchesAllocated s₀ s pins) :
    s.Partitioned pins ∧
      (∀ id, s.dir.lookup id = none → ((s.fetch id).1 = none ↔ s.AllPinned)) ∧
      (s.BelowLimit → (s.newPage.1 = none ↔ s.AllPinned)) := by
  obtain ⟨live, ha⟩ := accounted_run hn h₀ h
  have hp := ha.partitioned
  exact ⟨hp, fun id hd => hp.fetch_eq_none_iff hd, hp.newPage_eq_none_iff⟩

/-- With its only frame pinned by page 1, a pool has no frame for page 0. -/
theorem no_frame_leaked_one :
    ((freshPool 0).newPage.2.fetch 0).1 = none ↔ (freshPool 0).newPage.2.AllPinned := by
  have hrun : PinRun FetchesAllocated (freshPool 0) (freshPool 0).newPage.2
      (addPin (fun _ => 0) 1) := PinRun.refl.newPage trivial (f := 0) (by decide)
  exact (no_frame_leaked le_rfl (openFile_absent_succ 0) hrun).2.1 0 (by decide)

end Tadis.BufferPool
