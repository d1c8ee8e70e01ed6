import Tadis.FramePartition

/-!
# The page limit and the size of the header

The header page has room for a bitmap of `BFP_BITMAP_MAX_SIZE` bytes, which is a bit for each id below
`BFP_MAX_PAGE_NUM`. `new_page` refuses only ids above that number, so the id `BFP_MAX_PAGE_NUM` itself
is allocated, and the bitmap then has one byte too many.
-/

namespace Tadis.BufferPool

variable {n : ℕ} {s s' : BufferPool n}

/-- The header fits into its page, so that writing it stays inside the buffer. -/
structure HeaderFits (s : BufferPool n) : Prop where
  size_le : 2 * 8 + s.head.bitmap.length ≤ pageSize
  write2page : ∀ p, s.head.write2page p ≠ none

/-- An id that `new_page` returns has a bit in the bitmap, also in what the header page holds of it. -/
def StoresBit (s : BufferPool n) : PoolOp → Prop
  | .newPage => ∀ id f s', s.newPage = (some (id, f), s') →
      BitMap.get (s'.head.bitmap.take bfpBitmapMaxSize) id = true
  | _ => True

/-- The step does not allocate the id `BFP_MAX_PAGE_NUM`. -/
def BelowLast (s : BufferPool n) : PoolOp → Prop
  | .newPage => s.chosenId = some bfpMaxPageNum → s.victim = none
  | _ => True

theorem headerFits_iff : s.HeaderFits ↔ s.head.bitmap.length ≤ bfpBitmapMaxSize := by
  constructor
  · intro h
    have hsize := h.size_le
    unfold pageSize at hsize
    unfold bfpBitmapMaxSize pageSize
    omega
  · intro h
    unfold bfpBitmapMaxSize pageSize at h
    have hfit : Block.Fits pageSize 16 s.head.bitmap.length := by
      unfold Block.Fits pageSize
      omega
    refine ⟨by unfold pageSize; omega, fun p => ?_⟩
    rw [BFPHeaderPage.write2page, if_pos hfit]
    exact Option.some_ne_none _

theorem HeaderFits.congr (h : s.HeaderFits) (hhead : s'.head = s.head) : s'.HeaderFits := by
  rw [headerFits_iff] at h ⊢
  rwa [hhead]

theorem length_bitmap_newPage {id : ℕ} {f : Fin n} (hf : s.newPage = (some (id, f), s')) :
    s'.head.bitmap.length = max s.head.bitmap.length (id / 8 + 1) ∧
      BitMap.get s'.head.bitmap id = true := by
  rcases s.newPage_cases with ⟨_, hg⟩ | ⟨j, g, free, lru, _, _, hg⟩
  · simp [hf] at hg
  · obtain ⟨⟨rfl, rfl⟩, rfl⟩ := by simpa [hf] using hg
    simp only [allocFrame_eq]
    rw [BitMap.length_set, length_growBitmap, BitMap.get_set_self _ _ (lt_length_growBitmap _ _)]
    exact ⟨rfl, rfl⟩

/-- While the header fits, the only id that makes it too large is the last one. -/
theorem HeaderFits.newPage_iff (h : s.HeaderFits) {id : ℕ} {f : Fin n}
    (hf : s.newPage = (some (id, f), s')) : s'.HeaderFits ↔ id ≠ bfpMaxPageNum := by
  obtain ⟨hlen, _⟩ := length_bitmap_newPage hf
  have hle : id / 8 + 1 ≤ s.head.bitmap.length ∨ id ≤ bfpMaxPageNum := by
    rcases s.newPage_cases with ⟨_, hg⟩ | ⟨j, g, free, lru, hc, _, hg⟩
    · simp [hf] at hg
    · obtain ⟨⟨rfl, rfl⟩, _⟩ := by simpa [hf] using hg
      rcases chosenId_cases hc with ⟨hr, _⟩ | ⟨_, _, hmax, _⟩
      · have hlt := (reusableId_eq_some hr).1
        exact .inl (by omega)
      · exact .inr hmax
  rw [headerFits_iff] at h ⊢
  rw [hlen]
  unfold bfpBitmapMaxSize bfpMaxPageNum pageSize at *
  omega

theorem HeaderFits.applyOp_iff (h : s.HeaderFits) (op : PoolOp) :
    (s.applyOp op).HeaderFits ↔ s.BelowLast op := by
  cases op with
  | newPage =>
    rw [BufferPool.applyOp, BelowLast]
    rcases s.newPage_cases with ⟨hno, hf⟩ | ⟨id, f, free, lru, hc, ht, hf⟩
    · rw [hf]
      refine iff_of_true (h.congr rfl) fun hc => hno.resolve_left ?_
      rw [hc]
      exact Option.some_ne_none _
    · have hv : s.victim ≠ none := by
        rw [ht.victim_eq]
        exact Option.some_ne_none _
      rw [hf]
      dsimp only
      rw [h.newPage_iff hf, hc, Option.some.injEq]
      exact ⟨fun hne he => absurd he hne, fun hb he => hv (hb he)⟩
  | fetch id => exact iff_of_true (h.congr (fetch_head s id)) trivial
  | flushPage id => exact iff_of_true (h.congr (flushPage_head s id)) trivial
  | unpin id d => exact iff_of_true (h.congr (unpin_head s id d)) trivial

theorem HeaderFits.storesBit {op : PoolOp} (h : (s.applyOp op).HeaderFits) : s.StoresBit op := by
  cases op with
  | newPage =>
    intro id f s' hf
    rw [BufferPool.applyOp, hf] at h
    rw [List.take_of_length_le (headerFits_iff.1 h)]
    exact (length_bitmap_newPage hf).2
  | fetch id => trivial
  | flushPage id => trivial
  | unpin id d => trivial

theorem headerFits_runOps_iff (h : s.HeaderFits) (ops : List PoolOp) :
    ((∀ pre, pre <+: ops → (s.runOps pre).HeaderFits) ∧
      ∀ pre op, pre ++ [op] <+: ops → (s.runOps pre).StoresBit op) ↔
        ∀ pre op, pre ++ [op] <+: ops → (s.runOps pre).BelowLast op := by
  have hiff : (∀ pre, pre <+: ops → (s.runOps pre).HeaderFits) ↔
      ∀ pre op, pre ++ [op] <+: ops → (s.runOps pre).BelowLast op := by
    refine Transition.forall_foldl_iff (I := HeaderFits) (fun s h => h) ?_ h ops
    intro s op hs
    exact ⟨hs.applyOp_iff op, (hs.applyOp_iff op).2⟩
  rw [← hiff, and_iff_left_iff_imp]
  intro hall pre op hp
  have hnext := hall _ hp
  rw [runOps_concat] at hnext
  exact hnext.storesBit

theorem headerFits_openFile (n : ℕ) :
    ∃ s₀ : BufferPool n, openFile n File.absent = some s₀ ∧ s₀.HeaderFits := by
  cases n with
  | zero => exact ⟨_, openFile_zero _, headerFits_iff.2 (by simp)⟩
  | succ m =>
    have hlen : (freshPool m).head.bitmap.length = 1 := rfl
    exact ⟨_, openFile_absent_succ m, headerFits_iff.2 (hlen.trans_le (by decide))⟩

/-- In a run over a new file the header fits into its page in every state, and every id that
`new_page` returns has a bit, exactly when the id `BFP_MAX_PAGE_NUM` is not allocated. -/
theorem header_fits_iff (n : ℕ) :
    ∃ s₀ : BufferPool n, openFile n File.absent = some s₀ ∧ ∀ ops : List PoolOp,
      ((∀ pre, pre <+: ops → (s₀.runOps pre).HeaderFits) ∧
        ∀ pre op, pre ++ [op] <+: ops → (s₀.runOps pre).StoresBit op) ↔
          ∀ pre op, pre ++ [op] <+: ops → (s₀.runOps pre).BelowLast op := by
  obtain ⟨s₀, hs, h⟩ := headerFits_openFile n
  exact ⟨s₀, hs, headerFits_runOps_iff h⟩

/-- `new_page` and the `unpin` of its page. -/
def allocate (id : ℕ) : List PoolOp := [.newPage, .unpin id false]

/-- Allocate the pages `1, …, k`. -/
def allocateTo (k : ℕ) : List PoolOp := (List.range k).flatMap (fun i => allocate (i + 1))

theorem allocateTo_succ (k : ℕ) : allocateTo (k + 1) = allocateTo k ++ allocate (k + 1) := by
  rw [allocateTo, List.range_succ, List.flatMap_append, List.flatMap_singleton, allocateTo]

theorem runOps_append (s : BufferPool n) (ops ops' : List PoolOp) :
    s.runOps (ops ++ ops') = (s.runOps ops).runOps ops' := List.foldl_append

/-- As long as the limit is not passed, each page of `allocateTo` is allocated and unpinned. -/
theorem dense_allocateTo (m : ℕ) {k : ℕ} (hk : k ≤ bfpMaxPageNum) :
    ((freshPool m).runOps (allocateTo k)).Dense k ∧
      ((freshPool m).runOps (allocateTo k)).Accounted (fun _ => 0) {i | i ≤ k} := by
  induction k with
  | zero =>
    have hz : loadSize (DiskManager.stored { file := File.absent } 0) 0 = 0 := loadSize_zero 0
    have hlive : ({0} : Set ℕ) = {i | i ≤ 0} := by
      ext i
      simp
    have h := accounted_freshPool m
    rw [hlive] at h
    exact ⟨⟨h.allocates, rfl, rfl, rfl, rfl, rfl⟩, h⟩
  | succ k ih =>
    obtain ⟨hd, ha⟩ := ih (Nat.le_of_succ_le hk)
    generalize hs : (freshPool m).runOps (allocateTo k) = s at hd ha
    have hnot : ¬ s.AllPinned := by
      intro hall
      have hpin := ha.partitioned.pin_eq 0
      rw [ite_self] at hpin
      exact (hall 0).ne' hpin
    have hbelow : s.BelowLimit := fun _ => by
      rw [hd.nextPid_eq]
      exact hk
    obtain ⟨⟨id, f⟩, hf⟩ := Option.ne_none_iff_exists'.1
      (fun hno => hnot ((ha.partitioned.newPage_eq_none_iff hbelow).1 hno))
    have hnew : s.newPage = (some (id, f), s.newPage.2) := Prod.ext hf rfl
    obtain ⟨rfl, hd'⟩ := hd.newPage hnew
    have hpin : addPin (fun _ => 0) (k + 1) (k + 1) ≠ 0 := by simp [addPin]
    have ha' := (ha.newPage hnew).unpin false hpin
    have hlive : insert (k + 1) {i | i ≤ k} = {i | i ≤ k + 1} := by
      ext i
      simp only [Set.mem_insert_iff, Set.mem_ofPred_eq]
      omega
    rw [dropPin_addPin, hlive] at ha'
    rw [allocateTo_succ, runOps_append, hs]
    exact ⟨hd'.unpin _ _, ha'⟩

/-- After 8064 allocations, each followed by an `unpin`, the bitmap has 1009 bytes. -/
theorem header_overflows :
    ¬ ((freshPool 0).runOps (allocateTo bfpMaxPageNum)).HeaderFits := by
  rw [headerFits_iff, (dense_allocateTo 0 le_rfl).1.bitmap_length]
  decide

end Tadis.BufferPool
