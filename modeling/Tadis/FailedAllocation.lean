import Tadis.DensePool

/-!
# Allocations that fail

`new_page` draws the next page id before it checks the page limit and looks for a frame, and an id
that has been drawn is not put back. A failed allocation therefore moves `current_pid` on, to a page
that is not allocated, unless it had the id of a deleted page to reuse.
-/

namespace Tadis.BufferPool

variable {n : ℕ} {s s' : BufferPool n} {k : ℕ}

/-- If `new_page` has to draw an id, nothing keeps it from allocating it. -/
def DrawsToAllocate (s : BufferPool n) : Prop :=
  s.reusableId = none → s.disk.nextPid ≤ bfpMaxPageNum ∧ s.victim ≠ none

def FailsClean (s : BufferPool n) : Prop := ∀ s', s.newPage = (none, s') → s' = s

theorem nextPid_chosenDisk (s : BufferPool n) :
    s.chosenDisk.nextPid = s.disk.nextPid + if s.reusableId = none then 1 else 0 := by
  unfold chosenDisk
  cases s.reusableId <;> rfl

theorem chosenDisk_eq (h : s.reusableId ≠ none) : s.chosenDisk = s.disk := by
  unfold chosenDisk
  cases hr : s.reusableId with
  | none => exact absurd hr h
  | some id => rfl

theorem chosenId_eq_none_iff :
    s.chosenId = none ↔ s.reusableId = none ∧ bfpMaxPageNum < s.disk.nextPid := by
  unfold chosenId
  cases s.reusableId with
  | some id => simp
  | none => simp [BFPHeaderPage.maxPageCount]

/-- `new_page` fails when an id has to be drawn and the limit is reached, or without a frame. -/
theorem newPage_fst_eq_none_iff :
    s.newPage.1 = none ↔
      (s.reusableId = none ∧ bfpMaxPageNum < s.disk.nextPid) ∨ s.victim = none := by
  rw [← chosenId_eq_none_iff]
  rcases s.newPage_cases with ⟨hno, hf⟩ | ⟨id, f, free, lru, hc, ht, hf⟩
  · exact iff_of_true (by rw [hf]) hno
  · have hv : s.victim ≠ none := by
      rw [ht.victim_eq]
      exact Option.some_ne_none _
    simp [hf, hc, hv]

theorem newPage_fst_ne_none (h : s.DrawsToAllocate) (hr : s.reusableId = none) :
    s.newPage.1 ≠ none := by
  obtain ⟨hle, hv⟩ := h hr
  rw [Ne, newPage_fst_eq_none_iff, not_or, not_and]
  exact ⟨fun _ => not_lt.2 hle, hv⟩

theorem failsClean_iff (s : BufferPool n) : s.FailsClean ↔ s.DrawsToAllocate := by
  constructor
  · intro h hr
    rw [← not_lt, ← not_or]
    intro hno
    have hnone : s.newPage.1 = none := newPage_fst_eq_none_iff.2 (hno.imp_left fun hlt => ⟨hr, hlt⟩)
    have hf : s.newPage = (none, s.newPage.2) := Prod.ext hnone rfl
    have hnext := congrArg (fun s => s.disk.nextPid) ((newPage_none_eq hf).symm.trans (h _ hf))
    dsimp only at hnext
    rw [nextPid_chosenDisk, if_pos hr] at hnext
    omega
  · intro h s' hf
    have hr : s.reusableId ≠ none := fun hr => newPage_fst_ne_none h hr (by rw [hf])
    rw [newPage_none_eq hf, chosenDisk_eq hr]

/-- `current_pid` denotes page 0 or an allocated page. -/
def CurrentAllocated (s : BufferPool n) : Prop :=
  s.currentPid = 0 ∨ BitMap.get s.head.bitmap s.currentPid = true

/-- The condition of `failsClean_iff` for the steps of a run. -/
def DrawsSafely (s : BufferPool n) : PoolOp → Prop
  | .newPage => s.DrawsToAllocate
  | _ => True

/-- No page has been deleted and no allocation has failed: the pages up to `k` are allocated, where a
pool without frames has none. -/
structure Undeleted (s : BufferPool n) (k : ℕ) : Prop where
  bounded : s.BitmapBounded
  nextPid_eq : s.disk.nextPid = k + 1
  get_iff : ∀ id, id ≠ 0 → (BitMap.get s.head.bitmap id = true ↔ id ≤ k)
  get_zero : n = 0 ∧ k = 0 ∨ BitMap.get s.head.bitmap 0 = true

theorem Undeleted.currentPid_eq (h : s.Undeleted k) : s.currentPid = k := by
  rw [currentPid, DiskManager.currentPid, h.nextPid_eq, sizeDec_succ]

theorem Undeleted.currentAllocated (h : s.Undeleted k) : s.CurrentAllocated := by
  rw [CurrentAllocated, h.currentPid_eq]
  by_cases hk : k = 0
  · exact .inl hk
  · exact .inr ((h.get_iff k hk).2 le_rfl)

theorem Undeleted.reusableId_eq (h : s.Undeleted k) : s.reusableId = none := by
  cases hr : s.reusableId with
  | none => rfl
  | some id =>
    obtain ⟨_, hg, hlt⟩ := reusableId_eq_some hr
    have hle : id < k := hlt.trans_eq h.currentPid_eq
    by_cases hid : id = 0
    · rcases h.get_zero with ⟨_, hk⟩ | hz
      · omega
      · rw [hid, hz] at hg
        cases hg
    · rw [(h.get_iff id hid).2 hle.le] at hg
      cases hg

theorem Undeleted.congr (h : s.Undeleted k) (hhead : s'.head = s.head)
    (hnext : s'.disk.nextPid = s.disk.nextPid) : s'.Undeleted k where
  bounded := by simpa only [BitmapBounded, hhead] using h.bounded
  nextPid_eq := hnext.trans h.nextPid_eq
  get_iff := by simpa only [hhead] using h.get_iff
  get_zero := by simpa only [hhead] using h.get_zero

theorem Undeleted.newPage (h : s.Undeleted k) {id : ℕ} {f : Fin n}
    (hf : s.newPage = (some (id, f), s')) : s'.Undeleted (k + 1) := by
  have hb := h.bounded.newPage
  rw [hf] at hb
  rcases s.newPage_cases with ⟨_, hg⟩ | ⟨j, g, free, lru, hc, _, hg⟩
  · simp [hf] at hg
  · obtain ⟨⟨rfl, rfl⟩, rfl⟩ := by simpa [hf] using hg
    obtain rfl : id = k + 1 := by
      rcases chosenId_cases hc with ⟨hr, _⟩ | ⟨_, hid, _, _⟩
      · rw [h.reusableId_eq] at hr
        cases hr
      · exact hid.trans h.nextPid_eq
    have hget : ∀ i, BitMap.get (BitMap.set (growBitmap s.head.bitmap (k + 1)) (k + 1) true) i =
        if k + 1 = i then true else BitMap.get s.head.bitmap i := by
      intro i
      rw [BitMap.get_set _ _ _ (lt_length_growBitmap _ _), get_growBitmap]
    have hzero : BitMap.get s.head.bitmap 0 = true :=
      h.get_zero.resolve_left fun hn => absurd f.isLt (by omega)
    refine ⟨hb, ?_, fun i hi => ?_, .inr ?_⟩
    · simp [allocFrame_eq, nextPid_chosenDisk, h.reusableId_eq, h.nextPid_eq]
    · simp only [allocFrame_eq, hget]
      by_cases hik : k + 1 = i
      · simp [← hik]
      · rw [if_neg hik, h.get_iff i hi]
        omega
    · simp only [allocFrame_eq, hget]
      rw [if_neg (by omega), hzero]

theorem Undeleted.newPage_none (h : s.Undeleted k) (hf : s.newPage = (none, s')) :
    ¬ s'.CurrentAllocated := by
  have hcur : s'.currentPid = k + 1 := by
    rw [newPage_none_eq hf, currentPid, DiskManager.currentPid, nextPid_chosenDisk,
      if_pos h.reusableId_eq, h.nextPid_eq, sizeDec_succ]
  have hhead : s'.head = s.head := by rw [newPage_none_eq hf]
  rw [CurrentAllocated, hcur, hhead, h.get_iff _ (by omega)]
  omega

/-- One call keeps `current_pid` on an allocated page exactly when it draws safely. -/
theorem Undeleted.applyOp (h : s.Undeleted k) (op : PoolOp) :
    ((s.applyOp op).CurrentAllocated ↔ s.DrawsSafely op) ∧
      (s.DrawsSafely op → ∃ k, (s.applyOp op).Undeleted k) := by
  have hkeep : ∀ {t : BufferPool n}, t.head = s.head → t.disk.nextPid = s.disk.nextPid →
      t.CurrentAllocated ∧ t.Undeleted k := fun hhead hnext =>
    ⟨(h.congr hhead hnext).currentAllocated, h.congr hhead hnext⟩
  cases op with
  | newPage =>
    rcases hf : s.newPage with ⟨_ | ⟨id, f⟩, s'⟩
    · have hno : ¬ s.DrawsToAllocate := fun hd =>
        newPage_fst_ne_none hd h.reusableId_eq (by rw [hf])
      refine ⟨iff_of_false ?_ hno, fun hd => absurd hd hno⟩
      rw [BufferPool.applyOp, hf]
      exact h.newPage_none hf
    · have hd : s.DrawsToAllocate := (failsClean_iff s).1 fun _ h => by simp [hf] at h
      have hs : (s.applyOp .newPage).Undeleted (k + 1) := by
        rw [BufferPool.applyOp, hf]
        exact h.newPage hf
      exact ⟨iff_of_true hs.currentAllocated hd, fun _ => ⟨_, hs⟩⟩
  | fetch id =>
    obtain ⟨hc, hs⟩ := hkeep (fetch_head s id) (fetch_nextPid id)
    exact ⟨iff_of_true hc trivial, fun _ => ⟨k, hs⟩⟩
  | flushPage id =>
    obtain ⟨hc, hs⟩ := hkeep (flushPage_head s id) (flushPage_nextPid s id)
    exact ⟨iff_of_true hc trivial, fun _ => ⟨k, hs⟩⟩
  | unpin id d =>
    obtain ⟨hc, hs⟩ := hkeep (unpin_head s id d) (unpin_nextPid id d)
    exact ⟨iff_of_true hc trivial, fun _ => ⟨k, hs⟩⟩

theorem currentAllocated_runOps_iff (h : s.Undeleted k) (ops : List PoolOp) :
    (∀ pre, pre <+: ops → (s.runOps pre).CurrentAllocated) ↔
      ∀ pre op, pre ++ [op] <+: ops → (s.runOps pre).DrawsSafely op := by
  refine Transition.forall_foldl_iff (I := fun s : BufferPool n => ∃ k, s.Undeleted k) ?_ ?_ ⟨k, h⟩ ops
  · rintro s ⟨k, hk⟩
    exact hk.currentAllocated
  · rintro s op ⟨k, hk⟩
    exact hk.applyOp op

theorem undeleted_openFile_absent (n : ℕ) : ∃ s, openFile n File.absent = some s ∧ s.Undeleted 0 := by
  cases n with
  | zero =>
    refine ⟨_, openFile_zero _, by simp [BitmapBounded], rfl, fun id hid => ?_, .inl ⟨rfl, rfl⟩⟩
    have hg : BitMap.get [] id = false := BitMap.get_of_length_le (Nat.zero_le _)
    simp [hg, hid]
  | succ m =>
    have hz : loadSize (DiskManager.stored { file := File.absent } 0) 0 = 0 := loadSize_zero 0
    obtain ⟨s₀, hs, _, ha, _, hnext⟩ := openFile_of_no_header m hz
    refine ⟨s₀, hs, ha.bounded, hnext, fun id hid => ?_, .inr ((ha.get_iff 0).2 rfl)⟩
    rw [ha.get_iff, Set.mem_singleton_iff]
    omega

/-- In every state, a failed allocation has no effect exactly when it had not drawn an id. In a run
over a new file without deletions `current_pid` stays on page 0 or an allocated page exactly when no
allocation of the run fails. -/
theorem failed_new_page_iff (n : ℕ) :
    (∀ s : BufferPool n, s.FailsClean ↔ s.DrawsToAllocate) ∧
      ∃ s₀ : BufferPool n, openFile n File.absent = some s₀ ∧ ∀ ops : List PoolOp,
        ((∀ pre, pre <+: ops → (s₀.runOps pre).CurrentAllocated) ↔
          ∀ pre op, pre ++ [op] <+: ops → (s₀.runOps pre).DrawsSafely op) := by
  obtain ⟨s₀, hs, hu⟩ := undeleted_openFile_absent n
  exact ⟨failsClean_iff, s₀, hs, currentAllocated_runOps_iff hu⟩

/-- With its only frame pinned by page 1, the pool fails to allocate a page, and `current_pid` moves
on to page 2. -/
theorem new_page_without_frame :
    ¬ ∀ s₀ : BufferPool 1, openFile 1 File.absent = some s₀ → ∀ ops : List PoolOp,
      (s₀.runOps ops).FailsClean ∧ (s₀.runOps ops).CurrentAllocated := by
  intro h
  have hclean := (h _ (openFile_absent_succ 0) [.newPage, .newPage]).2
  have hbad : ¬ ((freshPool 0).runOps [.newPage, .newPage]).CurrentAllocated := by
    rw [CurrentAllocated]
    decide
  exact hbad hclean

end Tadis.BufferPool
