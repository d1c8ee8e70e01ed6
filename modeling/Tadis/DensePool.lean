import Tadis.Allocation

/-!
# Pools without deletions

As long as no page is deleted and no allocation is refused, the allocated ids are `0, …, k`, both
header counters are `k + 1`, and the bitmap ends with the byte of page `k`. The next page is then
`k + 1`.
-/

namespace Tadis.BufferPool

variable {n : ℕ} {s s' : BufferPool n} {v : PageView} {k : ℕ}

structure Dense (s : BufferPool n) (k : ℕ) : Prop where
  allocates : s.Allocates {i | i ≤ k}
  nextPid_eq : s.disk.nextPid = k + 1
  pageNum_eq : s.head.pageNum = k + 1
  phyNum_eq : s.head.phyNum = k + 1
  bitmap_length : s.head.bitmap.length = k / 8 + 1
  not_closed : s.closed = false

theorem Dense.congr (h : s.Dense k) (hhead : s'.head = s.head)
    (hnext : s'.disk.nextPid = s.disk.nextPid) (hclosed : s'.closed = s.closed) : s'.Dense k where
  allocates := h.allocates.congr hhead hnext
  nextPid_eq := hnext.trans h.nextPid_eq
  pageNum_eq := by rw [hhead, h.pageNum_eq]
  phyNum_eq := by rw [hhead, h.phyNum_eq]
  bitmap_length := by rw [hhead, h.bitmap_length]
  not_closed := hclosed.trans h.not_closed

theorem Dense.fetch (h : s.Dense k) (id : ℕ) : (s.fetch id).2.Dense k :=
  h.congr (fetch_head s id) (fetch_nextPid id) (fetch_closed id)

theorem Dense.unpin (h : s.Dense k) (id : ℕ) (d : Bool) : (s.unpin id d).Dense k :=
  h.congr (unpin_head s id d) (unpin_nextPid id d) (unpin_closed id d)

theorem Dense.setPage (h : s.Dense k) (f : Fin n) (p : Page) : (s.setPage f p).Dense k :=
  h.congr rfl rfl rfl

theorem Dense.currentPid_eq (h : s.Dense k) : s.currentPid = k := by
  rw [currentPid, DiskManager.currentPid, h.nextPid_eq, sizeDec_succ]

theorem Dense.reusableId_eq (h : s.Dense k) : s.reusableId = none := by
  cases hr : s.reusableId with
  | none => rfl
  | some id =>
    obtain ⟨_, hg, hlt⟩ := reusableId_eq_some hr
    have hle : id < k := hlt.trans_eq h.currentPid_eq
    rw [(h.allocates.get_iff id).2 hle.le] at hg
    cases hg

theorem Dense.chosenDisk_eq (h : s.Dense k) :
    s.chosenDisk = { s.disk with nextPid := k + 2 } := by
  simp only [chosenDisk, h.reusableId_eq, h.nextPid_eq]

/-- `new_page` hands out the next id, and refuses only past the page limit when there is a frame. -/
theorem Dense.newPage (h : s.Dense k) {id : ℕ} {f : Fin n} (hf : s.newPage = (some (id, f), s')) :
    id = k + 1 ∧ s'.Dense (k + 1) := by
  obtain ⟨ha, _⟩ := h.allocates.newPage hf
  rcases s.newPage_cases with ⟨_, hg⟩ | ⟨j, g, free, lru, hc, _, hg⟩
  · simp [hf] at hg
  · obtain ⟨⟨rfl, rfl⟩, rfl⟩ := by simpa [hf] using hg
    have hid : id = k + 1 := by
      rcases chosenId_cases hc with ⟨hr, _⟩ | ⟨_, hid, _, _⟩
      · rw [h.reusableId_eq] at hr
        cases hr
      · exact hid.trans h.nextPid_eq
    subst hid
    have hlive : insert (k + 1) {i | i ≤ k} = {i | i ≤ k + 1} := by
      ext i
      simp only [Set.mem_insert_iff, Set.mem_ofPred_eq]
      omega
    refine ⟨rfl, hlive ▸ ha, ?_, ?_, ?_, ?_, ?_⟩
    · simp [allocFrame_eq, h.chosenDisk_eq]
    · simp [allocFrame_eq, h.pageNum_eq]
    · simp [allocFrame_eq, h.phyNum_eq]
    · simp only [allocFrame_eq, BitMap.length_set, length_growBitmap, h.bitmap_length]
      omega
    · simp [allocFrame_eq, h.not_closed]

theorem Dense.newPage_none (h : s.Dense k) (hv : s.victim ≠ none) (hf : s.newPage = (none, s')) :
    bfpMaxPageNum < k + 1 ∧ s'.currentPid = k + 1 := by
  have hs := newPage_none_eq hf
  rcases s.newPage_cases with ⟨hno, _⟩ | ⟨j, g, free, lru, _, _, hg⟩
  · have hc := hno.resolve_right hv
    unfold chosenId at hc
    rw [h.reusableId_eq] at hc
    dsimp only at hc
    split_ifs at hc with hm
    rw [h.nextPid_eq] at hm
    refine ⟨hm, ?_⟩
    rw [hs, currentPid, h.chosenDisk_eq]
    rfl
  · simp [hf] at hg

/-- With no outstanding pins and a frame at all, `victim` finds one. -/
theorem Shows.victim_ne_none {m : ℕ} {s : BufferPool (m + 1)} (hv : s.Shows v)
    (hp : v.pins = fun _ => 0) : s.victim ≠ none := by
  have hf : (s.pages 0).pid = invalidId ∨ (s.pages 0).pinCount = 0 := by
    by_cases hi : (s.pages 0).pid = invalidId
    · exact .inl hi
    · exact .inr ((hv.frames.pin_eq 0 hi).trans (congrFun hp _))
  obtain ⟨g, free, lru, ht⟩ := hv.frames.exists_takesFrame hf
  rw [ht.victim_eq]
  exact Option.some_ne_none _

theorem Shows.fetch_ne_none {m : ℕ} {s : BufferPool (m + 1)} (hv : s.Shows v)
    (hp : v.pins = fun _ => 0) (id : ℕ) : ∃ f s', s.fetch id = (some f, s') := by
  have hvictim := hv.victim_ne_none hp
  rcases s.fetch_cases id with ⟨f, _, hf⟩ | ⟨_, hn, _⟩ | ⟨f, free, lru, _, _, hf⟩
  · exact ⟨f, _, hf⟩
  · exact absurd hn hvictim
  · exact ⟨f, _, hf⟩

end Tadis.BufferPool
