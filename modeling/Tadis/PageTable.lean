import Tadis.BufferPool
import Tadis.Transition

/-!
# Consistency of the page table

`Linked` relates the directory and the page ids stored in the frames. Cache hits, misses on an
uncached id, evictions, flushes and unpins keep it. `new_page` keeps it exactly when the id it
takes is not cached in a frame other than the one it reuses: `fetch` also caches pages that are
not allocated yet, and `new_page` does not look for them in the directory.
-/

namespace Tadis.BufferPool

variable {n : ℕ}

/-- `dir_[id] = f` iff `pages_[f].pid_ = id`, for every id that denotes a page. -/
def Linked (s : BufferPool n) : Prop :=
  ∀ id f, id ≠ invalidId → (s.dir.lookup id = some f ↔ (s.pages f).pid = id)

theorem Linked.congr {s s' : BufferPool n} (h : s.Linked) (hdir : s'.dir = s.dir)
    (hpid : ∀ f, (s'.pages f).pid = (s.pages f).pid) : s'.Linked := by
  intro id f hid
  rw [hdir, hpid]
  exact h id f hid

theorem Linked.frame_unique {s : BufferPool n} (h : s.Linked) {f g : Fin n}
    (hf : (s.pages f).pid ≠ invalidId) (hfg : (s.pages f).pid = (s.pages g).pid) : f = g := by
  have h1 := (h _ f hf).2 rfl
  have h2 := (h _ g hf).2 hfg.symm
  exact Option.some.inj (h1.symm.trans h2)

/-- Frame `f` is given to page `id`: the old page of `f` leaves the directory. -/
structure Remapped (s s' : BufferPool n) (f : Fin n) (id : ℕ) : Prop where
  lookup_self : s'.dir.lookup id = some f
  lookup_old : (s.pages f).pid ≠ id → s'.dir.lookup (s.pages f).pid = none
  lookup_of_ne : ∀ j, j ≠ id → j ≠ (s.pages f).pid → s'.dir.lookup j = s.dir.lookup j
  pid_self : (s'.pages f).pid = id
  pages_ne : ∀ g, g ≠ f → s'.pages g = s.pages g

theorem remapped_of_dir {s s' : BufferPool n} {f : Fin n} {id : ℕ}
    (hdir : s'.dir = (s.dir.erase (s.pages f).pid).insert id f) (hpid : (s'.pages f).pid = id)
    (hpages : ∀ g, g ≠ f → s'.pages g = s.pages g) : s.Remapped s' f id where
  lookup_self := by rw [hdir, AList.lookup_insert]
  lookup_old h := by rw [hdir, AList.lookup_insert_ne h, AList.lookup_erase]
  lookup_of_ne j hj hold := by rw [hdir, AList.lookup_insert_ne hj, AList.lookup_erase_ne hold]
  pid_self := hpid
  pages_ne := hpages

theorem remapped_loadFrame (s : BufferPool n) (f : Fin n) (id : ℕ) (free : List (Fin n))
    (lru : LruReplacer (Fin n)) :
    s.Remapped ({ s with freeList := free, replacer := lru }.loadFrame f id) f id := by
  rw [loadFrame_eq]
  exact remapped_of_dir rfl (by simp) (fun g hg => by simp [hg])

theorem remapped_allocFrame (s : BufferPool n) (f : Fin n) (id : ℕ) (d : DiskManager)
    (free : List (Fin n)) (lru : LruReplacer (Fin n)) :
    s.Remapped ({ s with disk := d, freeList := free, replacer := lru }.allocFrame f id) f id := by
  rw [allocFrame_eq]
  exact remapped_of_dir rfl (by simp) (fun g hg => by simp [hg])

theorem Linked.remapped {s s' : BufferPool n} {f : Fin n} {id : ℕ} (h : s.Linked)
    (hr : s.Remapped s' f id)
    (hid : id ≠ invalidId → s.dir.lookup id = none ∨ s.dir.lookup id = some f) : s'.Linked := by
  intro j g hj
  by_cases hji : j = id
  · subst hji
    rw [hr.lookup_self]
    by_cases hg : g = f
    · simp [hg, hr.pid_self]
    · have hne : (s.pages g).pid ≠ j := by
        intro hp
        have hl := (h j g hj).2 hp
        rcases hid hj with hn | hf
        · rw [hn] at hl
          cases hl
        · exact hg (Option.some.inj (hl.symm.trans hf))
      rw [hr.pages_ne g hg]
      simp [hne, Ne.symm hg]
  · by_cases hold : j = (s.pages f).pid
    · subst hold
      rw [hr.lookup_old hji]
      by_cases hg : g = f
      · simp [hg, hr.pid_self, Ne.symm hji]
      · have hne : (s.pages g).pid ≠ (s.pages f).pid := fun hp => hg (h.frame_unique hj hp.symm).symm
        rw [hr.pages_ne g hg]
        simp [hne]
    · rw [hr.lookup_of_ne j hji hold, h j g hj]
      by_cases hg : g = f
      · simp [hg, hr.pid_self, Ne.symm hold, Ne.symm hji]
      · rw [hr.pages_ne g hg]

theorem Remapped.not_linked {s s' : BufferPool n} {f g : Fin n} {id : ℕ} (h : s.Linked)
    (hr : s.Remapped s' f id) (hid : id ≠ invalidId) (hg : s.dir.lookup id = some g) (hgf : g ≠ f) :
    ¬ s'.Linked := by
  intro h'
  have hp : (s'.pages g).pid = id := by rw [hr.pages_ne g hgf, (h id g hid).1 hg]
  have hl := (h' id g hid).2 hp
  rw [hr.lookup_self] at hl
  exact hgf (Option.some.inj hl).symm

theorem Linked.fetch {s : BufferPool n} (h : s.Linked) (id : ℕ) : (s.fetch id).2.Linked := by
  rcases s.fetch_cases id with ⟨f, _, hf⟩ | ⟨_, _, hf⟩ | ⟨f, free, lru, hn, _, hf⟩
  · rw [hf]
    refine h.congr ?_ ?_
    · rfl
    · intro g
      by_cases hg : g = f <;> simp [pinFrame, hg]
  · rw [hf]
    exact h
  · rw [hf]
    exact h.remapped (s.remapped_loadFrame f id free lru) (fun _ => .inl hn)

theorem Linked.unpin {s : BufferPool n} (h : s.Linked) (id : ℕ) (d : Bool) :
    (s.unpin id d).Linked := by
  cases hd : s.dir.lookup id with
  | none => rwa [s.unpin_of_not_cached d hd]
  | some f =>
    rw [s.unpin_eq d hd]
    refine h.congr ?_ ?_
    · rfl
    · intro g
      by_cases hg : g = f <;> simp [hg]

theorem Linked.flushPage {s : BufferPool n} (h : s.Linked) (id : ℕ) : (s.flushPage id).Linked :=
  h.congr (s.flushPage_dir id) (fun f => by rw [s.flushPage_pages id])

/-- The frame that `victim` is about to take. -/
def chosenFrame (s : BufferPool n) : Option (Fin n) :=
  s.freeList.getLast? <|> s.replacer.lruList.getLast?.map Prod.snd

theorem TakesFrame.chosenFrame_eq {s : BufferPool n} {f : Fin n} {free : List (Fin n)}
    {lru : LruReplacer (Fin n)} (h : s.TakesFrame f free lru) : s.chosenFrame = some f := by
  cases h with
  | free h => simp [chosenFrame, h]
  | evict hf hr =>
    unfold LruReplacer.victim at hr
    cases hl : s.replacer.lruList.getLast? with
    | none => simp [hl] at hr
    | some x =>
      simp only [hl, Option.some.injEq, Prod.mk.injEq] at hr
      simp [chosenFrame, hf, hl, hr.1]

theorem chosenFrame_of_victim_none {s : BufferPool n} (h : s.victim = none) :
    s.chosenFrame = none := by
  obtain ⟨hf, hr⟩ := victim_eq_none_iff.1 h
  have hl : s.replacer.lruList = [] := List.map_eq_nil_iff.1 hr
  simp [chosenFrame, hf, hl]

/-- The bitmap never grows past the byte that holds the bit of the last page id. -/
def BitmapBounded (s : BufferPool n) : Prop := s.head.bitmap.length ≤ bfpMaxPageNum / 8 + 1

theorem reusableId_eq_some {s : BufferPool n} {id : ℕ} (h : s.reusableId = some id) :
    id < s.head.bitmap.length * 8 ∧ BitMap.get s.head.bitmap id = false ∧
      id < s.disk.currentPid := by
  obtain ⟨hf, hlt⟩ := Option.filter_eq_some_iff.1 h
  obtain ⟨hb, hg, _⟩ := (BitMap.first_eq_some_iff _ _ _).1 hf
  exact ⟨hb, hg, by simpa using hlt⟩

theorem chosenId_cases {s : BufferPool n} {id : ℕ} (h : s.chosenId = some id) :
    (s.reusableId = some id ∧ s.chosenDisk = s.disk) ∨
    (s.reusableId = none ∧ id = s.disk.nextPid ∧ id ≤ bfpMaxPageNum ∧
      s.chosenDisk = { s.disk with nextPid := s.disk.nextPid + 1 }) := by
  unfold chosenId at h
  unfold chosenDisk
  cases hr : s.reusableId with
  | some idx =>
    simp only [hr, Option.some.injEq] at h
    exact .inl ⟨by rw [h], rfl⟩
  | none =>
    simp only [hr] at h
    split_ifs at h with hm
    refine .inr ⟨rfl, (Option.some.inj h).symm, ?_, rfl⟩
    rw [← Option.some.inj h]
    exact not_lt.1 hm

theorem BitmapBounded.chosenId_lt {s : BufferPool n} (h : s.BitmapBounded) {id : ℕ}
    (hid : s.chosenId = some id) : id < (bfpMaxPageNum / 8 + 1) * 8 := by
  rcases chosenId_cases hid with ⟨hr, _⟩ | ⟨_, _, hle, _⟩
  · have := (reusableId_eq_some hr).1
    unfold BitmapBounded at h
    omega
  · omega

theorem BitmapBounded.chosenId_addressable {s : BufferPool n} (h : s.BitmapBounded) {id : ℕ}
    (hid : s.chosenId = some id) : Addressable id := by
  have hlt := h.chosenId_lt hid
  unfold bfpMaxPageNum pageSize at hlt
  unfold Addressable pageSize
  omega

@[simp] theorem length_growBitmap (bitmap : Bytes) (idx : ℕ) :
    (growBitmap bitmap idx).length = max bitmap.length (idx / 8 + 1) := by
  simp only [growBitmap, List.length_append, List.length_replicate]
  omega

theorem BitmapBounded.newPage {s : BufferPool n} (h : s.BitmapBounded) :
    s.newPage.2.BitmapBounded := by
  rcases s.newPage_cases with ⟨_, hn⟩ | ⟨id, f, free, lru, hid, _, hn⟩
  · rw [hn]
    exact h
  · have hlt := h.chosenId_lt hid
    rw [hn, allocFrame_eq]
    unfold BitmapBounded at h ⊢
    simp only [BitMap.length_set, length_growBitmap]
    omega

theorem fetch_head (s : BufferPool n) (id : ℕ) : (s.fetch id).2.head = s.head := by
  rcases s.fetch_cases id with ⟨f, _, hf⟩ | ⟨_, _, hf⟩ | ⟨f, free, lru, _, _, hf⟩
  · rw [hf]
    rfl
  · rw [hf]
  · rw [hf, loadFrame_eq]

theorem unpin_head (s : BufferPool n) (id : ℕ) (d : Bool) : (s.unpin id d).head = s.head := by
  cases hd : s.dir.lookup id with
  | none => rw [s.unpin_of_not_cached d hd]
  | some f => rw [s.unpin_eq d hd]

inductive PoolOp
  | fetch (id : ℕ)
  | newPage
  | flushPage (id : ℕ)
  | unpin (id : ℕ) (isDirty : Bool)

def applyOp (s : BufferPool n) : PoolOp → BufferPool n
  | .fetch id => (s.fetch id).2
  | .newPage => s.newPage.2
  | .flushPage id => s.flushPage id
  | .unpin id isDirty => s.unpin id isDirty

def runOps (s : BufferPool n) (ops : List PoolOp) : BufferPool n := ops.foldl applyOp s

/-- The step does not allocate an id that is cached in a frame other than the one it reuses. -/
def KeepsTable (s : BufferPool n) : PoolOp → Prop
  | .newPage => ∀ id f, s.chosenId = some id → s.chosenFrame = some f →
      s.dir.lookup id = none ∨ s.dir.lookup id = some f
  | _ => True

theorem BitmapBounded.applyOp {s : BufferPool n} (h : s.BitmapBounded) (op : PoolOp) :
    (s.applyOp op).BitmapBounded := by
  cases op with
  | newPage => exact h.newPage
  | fetch id => simpa only [BitmapBounded, BufferPool.applyOp, fetch_head] using h
  | flushPage id => simpa only [BitmapBounded, BufferPool.applyOp, flushPage_head] using h
  | unpin id d => simpa only [BitmapBounded, BufferPool.applyOp, unpin_head] using h

theorem linked_newPage_iff {s : BufferPool n} (h : s.Linked) (hb : s.BitmapBounded) :
    s.newPage.2.Linked ↔ s.KeepsTable .newPage := by
  rcases s.newPage_cases with ⟨hno, hn⟩ | ⟨id, f, free, lru, hid, ht, hn⟩
  · have hkeep : s.KeepsTable .newPage := by
      intro id f hid hf
      rcases hno with hno | hno
      · rw [hno] at hid
        cases hid
      · rw [chosenFrame_of_victim_none hno] at hf
        cases hf
    rw [hn]
    exact iff_of_true (h.congr rfl (fun _ => rfl)) hkeep
  · have hr := s.remapped_allocFrame f id s.chosenDisk free lru
    have hinv : id ≠ invalidId := (hb.chosenId_addressable hid).ne_invalid
    rw [hn]
    constructor
    · intro h' j g hj hg
      obtain rfl : id = j := Option.some.inj (hid.symm.trans hj)
      obtain rfl : f = g := Option.some.inj (ht.chosenFrame_eq.symm.trans hg)
      cases hl : s.dir.lookup id with
      | none => exact .inl rfl
      | some g =>
        by_cases hgf : g = f
        · exact .inr (by rw [hgf])
        · exact absurd h' (hr.not_linked h hinv hl hgf)
    · exact fun hk => h.remapped hr (fun _ => hk id f hid ht.chosenFrame_eq)

/-- One step keeps the table consistent exactly when it satisfies `KeepsTable`. -/
theorem linked_applyOp_iff {s : BufferPool n} (h : s.Linked) (hb : s.BitmapBounded) (op : PoolOp) :
    (s.applyOp op).Linked ↔ s.KeepsTable op := by
  cases op with
  | newPage => exact linked_newPage_iff h hb
  | fetch id => exact iff_of_true (h.fetch id) trivial
  | flushPage id => exact iff_of_true (h.flushPage id) trivial
  | unpin id d => exact iff_of_true (h.unpin id d) trivial

@[simp] theorem runOps_nil (s : BufferPool n) : s.runOps [] = s := rfl

theorem runOps_concat (s : BufferPool n) (ops : List PoolOp) (op : PoolOp) :
    s.runOps (ops ++ [op]) = (s.runOps ops).applyOp op := by
  simp [runOps]

theorem BitmapBounded.runOps {s : BufferPool n} (h : s.BitmapBounded) (ops : List PoolOp) :
    (s.runOps ops).BitmapBounded := by
  induction ops using List.reverseRecOn with
  | nil => exact h
  | append_singleton ops op ih =>
    rw [runOps_concat]
    exact ih.applyOp op

theorem linked_runOps_iff {s : BufferPool n} (h : s.Linked) (hb : s.BitmapBounded)
    (ops : List PoolOp) :
    (∀ pre, pre <+: ops → (s.runOps pre).Linked) ↔
      ∀ pre op, pre ++ [op] <+: ops → (s.runOps pre).KeepsTable op := by
  have hinv : s.Linked ∧ s.BitmapBounded := ⟨h, hb⟩
  refine Transition.forall_foldl_iff (I := fun s : BufferPool n => s.Linked ∧ s.BitmapBounded)
    (fun s h => h.1) ?_ hinv ops
  intro s op hs
  have hiff := linked_applyOp_iff hs.1 hs.2 op
  exact ⟨hiff, fun hk => ⟨hiff.2 hk, hs.2.applyOp op⟩⟩

/-- The header page that the constructor formats in an absent file. -/
def freshHeaderPage : Page where
  buffer := (storeSize (storeSize Block.zero 0 1) 8 1).store 16 (BitMap.set [0] 0 true)
  pid := 0
  pinCount := 1
  dirty := true

def freshPool (n : ℕ) : BufferPool (n + 1) :=
  openedPool n File.absent (true, BFPHeaderPage.fresh, freshHeaderPage)

theorem openFile_absent_succ (n : ℕ) : openFile (n + 1) File.absent = some (freshPool n) := by
  have hz : (headerPage File.absent).buffer = Block.zero := rfl
  have hi : BFPHeaderPage.init (headerPage File.absent) =
      some (true, BFPHeaderPage.fresh, freshHeaderPage) := by
    simp only [BFPHeaderPage.init, hz, loadSize_zero, if_true]
    rfl
  rw [openFile_succ, hi]
  rfl

theorem linked_openedPool (m : ℕ) (file : File) (r : Bool × BFPHeaderPage × Page)
    (hp : r.2.2.pid = 0) : (openedPool m file r).Linked := by
  intro id f hid
  simp only [openedPool, lookup_singleton]
  by_cases hf : f = Fin.last m
  · by_cases h0 : id = 0 <;> simp [hf, hp, h0, eq_comm]
  · have hz : invalidId ≠ 0 := by decide
    by_cases h0 : id = 0 <;> simp [hf, h0, eq_comm, hid, hz]

/-- A fresh file opens to a consistent table whose only allocated page is the header page. -/
theorem openFile_absent (n : ℕ) :
    ∃ s, openFile n File.absent = some s ∧ s.Linked ∧ s.BitmapBounded := by
  cases n with
  | zero => exact ⟨_, openFile_zero _, fun _ f => f.elim0, by simp [BitmapBounded]⟩
  | succ m =>
    refine ⟨_, openFile_absent_succ m, linked_openedPool m _ _ rfl, ?_⟩
    simp [freshPool, openedPool, BitmapBounded, BFPHeaderPage.fresh, bfpMaxPageNum]

/-- The page table of a pool over a fresh file stays consistent through a run exactly when no
`new_page` of the run allocates an id that another frame caches already. -/
theorem page_table_consistent_iff (n : ℕ) :
    ∃ s₀, openFile n File.absent = some s₀ ∧ ∀ ops : List PoolOp,
      ((∀ pre, pre <+: ops → (s₀.runOps pre).Linked) ↔
        ∀ pre op, pre ++ [op] <+: ops → (s₀.runOps pre).KeepsTable op) := by
  obtain ⟨s₀, hs, hl, hb⟩ := openFile_absent n
  exact ⟨s₀, hs, linked_runOps_iff hl hb⟩

/-- Fetching page 1 of an empty table, as a scan of it does, and then allocating page 1 leaves two
frames that claim page 1. -/
theorem fetch_unallocated_then_new_page :
    ∃ s₀ : BufferPool 2, openFile 2 File.absent = some s₀ ∧
      ((s₀.runOps [.fetch 1, .newPage]).pages 0).pid = 1 ∧
      ((s₀.runOps [.fetch 1, .newPage]).pages 1).pid = 1 ∧
      ¬ (s₀.runOps [.fetch 1, .newPage]).Linked := by
  refine ⟨freshPool 1, openFile_absent_succ 1, ?_⟩
  have hp : ∀ f : Fin 2, (((freshPool 1).runOps [.fetch 1, .newPage]).pages f).pid = 1 := by
    decide
  refine ⟨hp 0, hp 1, fun hl => ?_⟩
  have hne : (((freshPool 1).runOps [.fetch 1, .newPage]).pages 0).pid ≠ invalidId := by
    rw [hp 0]
    decide
  exact absurd (hl.frame_unique hne ((hp 0).trans (hp 1).symm)) (by decide)

end Tadis.BufferPool
