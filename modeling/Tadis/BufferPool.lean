import Tadis.HeaderPage
import Tadis.LruReplacer

/-!
# The buffer pool

`BufferPool n` is a pool of `n` frames. A `Page *` handed to a client is the frame's index and
`nullptr` is `none`. An outcome `none` of a whole operation stands for a failed assertion or for a
copy that leaves its buffer.
-/

namespace Tadis

structure BufferPool (n : ℕ) where
  dir : AList (fun _ : ℕ => Fin n) := ∅
  freeList : List (Fin n) := List.finRange n
  pages : Fin n → Page := fun _ => {}
  replacer : LruReplacer (Fin n) := LruReplacer.create n
  disk : DiskManager
  head : BFPHeaderPage := {}
  closed : Bool := false

namespace BufferPool

variable {n : ℕ}

def setPage (s : BufferPool n) (f : Fin n) (p : Page) : BufferPool n :=
  { s with pages := Function.update s.pages f p }

def currentPid (s : BufferPool n) : ℕ := s.disk.currentPid

def contain (s : BufferPool n) (id : ℕ) : RC :=
  if s.head.bitmap.length * 8 ≤ id then .outOfRange
  else if BitMap.get s.head.bitmap id then .success else .pageIsDeleted

def nextPidAfter (s : BufferPool n) (currentPid : ℕ) : Option ℕ :=
  BitMap.firstAfter s.head.bitmap true currentPid

def unpin (s : BufferPool n) (id : ℕ) (isDirty : Bool) : BufferPool n :=
  match s.dir.lookup id with
  | none => s
  | some f =>
    let page := s.pages f
    let page := { page with dirty := page.dirty || isDirty, pinCount := sizeDec page.pinCount }
    let s := s.setPage f page
    if page.pinCount = 0 then { s with replacer := s.replacer.put f } else s

def flushPage (s : BufferPool n) (id : ℕ) : BufferPool n :=
  match s.dir.lookup id with
  | none => s
  | some f => { s with disk := s.disk.writePage id (s.pages f).buffer }

/-- Write every dirty page of a directory listing. -/
def flushEntries (pages : Fin n → Page) (d : DiskManager) (l : List (Sigma fun _ : ℕ => Fin n)) :
    DiskManager :=
  l.foldl (fun d e => if (pages e.2).dirty then d.writePage e.1 (pages e.2).buffer else d) d

def flushAllPage (s : BufferPool n) : BufferPool n :=
  { s with disk := flushEntries s.pages s.disk s.dir.entries }

def victim (s : BufferPool n) : Option (Fin n × BufferPool n) :=
  match s.freeList.getLast? with
  | some f => some (f, { s with freeList := s.freeList.dropLast })
  | none =>
    match s.replacer.victim with
    | some (f, r) => some (f, { s with replacer := r })
    | none => none

def changeCorrespondence (s : BufferPool n) (f : Fin n) (id : ℕ) : BufferPool n :=
  let p := s.pages f
  let s := if p.dirty then s.flushPage p.pid else s
  { s with dir := (s.dir.erase p.pid).insert id f }.setPage f { p.clearAll with pid := id }

/-- The cache hit of `fetch`. -/
def pinFrame (s : BufferPool n) (f : Fin n) : BufferPool n :=
  { s with replacer := s.replacer.remove f }.setPage f
    { s.pages f with pinCount := sizeInc (s.pages f).pinCount }

/-- The cache miss of `fetch`, once `victim` has found a frame. -/
def loadFrame (s : BufferPool n) (f : Fin n) (id : ℕ) : BufferPool n :=
  let s := s.changeCorrespondence f id
  s.setPage f { buffer := s.disk.readPage id (s.pages f).buffer, pid := id, pinCount := 1, dirty := false }

def fetch (s : BufferPool n) (id : ℕ) : Option (Fin n) × BufferPool n :=
  match s.dir.lookup id with
  | some f => (some f, s.pinFrame f)
  | none =>
    match s.victim with
    | none => (none, s)
    | some (f, s) => (some f, s.loadFrame f id)

/-- The loop that appends zero bytes to the bitmap until it has a bit for `idx`. -/
def growBitmap (bitmap : Bytes) (idx : ℕ) : Bytes :=
  bitmap ++ List.replicate (idx / 8 + 1 - bitmap.length) 0

/-- The rest of `new_page`, once `victim` has found a frame for page `idx`. -/
def allocFrame (s : BufferPool n) (f : Fin n) (idx : ℕ) : BufferPool n :=
  let bitmap := BitMap.set (growBitmap s.head.bitmap idx) idx true
  let s := { s with head := { s.head with bitmap := bitmap } }.changeCorrespondence f idx
  let s := { s with head :=
    { s.head with pageNum := s.head.pageNum + 1, phyNum := s.head.phyNum + 1 } }
  s.setPage f { s.pages f with pid := idx, dirty := true, pinCount := 1 }

def newPageAt (s : BufferPool n) (idx : ℕ) : Option (ℕ × Fin n) × BufferPool n :=
  match s.victim with
  | none => (none, s)
  | some (f, s) => (some (idx, f), s.allocFrame f idx)

/-- The id of a deleted page below `current_pid` that `new_page` hands out again, if any. -/
def reusableId (s : BufferPool n) : Option ℕ :=
  (BitMap.first s.head.bitmap false).filter (fun idx => idx < s.disk.currentPid)

def newPage (s : BufferPool n) : Option (ℕ × Fin n) × BufferPool n :=
  match s.reusableId with
  | some idx => s.newPageAt idx
  | none =>
    let (idx, disk) := s.disk.nextPageId
    let s := { s with disk := disk }
    if idx > BFPHeaderPage.maxPageCount then (none, s) else s.newPageAt idx

/-- Fetch page 0, write the header into it and unpin it; the flag is false when `fetch` fails. -/
def writeHeadPage (s : BufferPool n) : Option (Bool × BufferPool n) :=
  match s.fetch 0 with
  | (none, s) => some (false, s)
  | (some f, s) => do
    let p ← s.head.write2page (s.pages f)
    some (true, (s.setPage f p).unpin p.pid true)

def deletePage (s : BufferPool n) (id : ℕ) : Option (BufferPool n) :=
  if id ≥ s.head.phyNum then some s
  else if s.head.bitmap.length ≤ id / 8 then none
  else
    let head := { s.head with
      bitmap := BitMap.set s.head.bitmap id false, pageNum := sizeDec s.head.pageNum }
    match s.dir.lookup id with
    | some f =>
      let s := s.setPage f (s.pages f).clearAll
      { s with head := head, freeList := f :: s.freeList, dir := s.dir.erase id }.writeHeadPage.map
        Prod.snd
    | none => { s with head := head }.writeHeadPage.map Prod.snd

/-- The body of the constructor once the frames are on the free list. -/
def init (s : BufferPool n) : Option (BufferPool n) :=
  match s.fetch 0 with
  | (none, s) => some s
  | (some f, s) => do
    let (isDirty, head, p) ← BFPHeaderPage.init (s.pages f)
    let s := ({ s with head := head }.setPage f p).unpin 0 isDirty
    let s := if isDirty then s.flushPage 0 else s
    some { s with disk := s.disk.setNextPageId s.head.phyNum }

/-- The constructor: a pool of `n` frames over an existing or absent file. -/
def openFile (n : ℕ) (file : File) : Option (BufferPool n) :=
  init { disk := { file := file } }

def close (s : BufferPool n) : Option (BufferPool n) :=
  if s.closed then some s
  else do
    let (ok, s) ← s.writeHeadPage
    if ok then some { s.flushAllPage with closed := true } else some s

@[simp] theorem setPage_pages (s : BufferPool n) (f : Fin n) (p : Page) :
    (s.setPage f p).pages = Function.update s.pages f p := rfl

@[simp] theorem flushPage_pages (s : BufferPool n) (id : ℕ) : (s.flushPage id).pages = s.pages := by
  unfold flushPage
  split <;> rfl

@[simp] theorem flushPage_dir (s : BufferPool n) (id : ℕ) : (s.flushPage id).dir = s.dir := by
  unfold flushPage
  split <;> rfl

@[simp] theorem flushPage_freeList (s : BufferPool n) (id : ℕ) :
    (s.flushPage id).freeList = s.freeList := by
  unfold flushPage
  split <;> rfl

@[simp] theorem flushPage_replacer (s : BufferPool n) (id : ℕ) :
    (s.flushPage id).replacer = s.replacer := by
  unfold flushPage
  split <;> rfl

@[simp] theorem flushPage_head (s : BufferPool n) (id : ℕ) : (s.flushPage id).head = s.head := by
  unfold flushPage
  split <;> rfl

@[simp] theorem flushPage_nextPid (s : BufferPool n) (id : ℕ) :
    (s.flushPage id).disk.nextPid = s.disk.nextPid := by
  unfold flushPage
  split <;> rfl

/-- The disk after the write-back that precedes the reuse of frame `f`. -/
def evicted (s : BufferPool n) (f : Fin n) : DiskManager :=
  if (s.pages f).dirty then (s.flushPage (s.pages f).pid).disk else s.disk

theorem evicted_congr {s t : BufferPool n} (hdir : t.dir = s.dir) (hpages : t.pages = s.pages)
    (hdisk : t.disk = s.disk) (f : Fin n) : t.evicted f = s.evicted f := by
  unfold evicted flushPage
  rw [hdir, hpages]
  cases s.dir.lookup (s.pages f).pid <;> simp [hdisk]

@[simp] theorem evicted_nextPid (s : BufferPool n) (f : Fin n) :
    (s.evicted f).nextPid = s.disk.nextPid := by
  unfold evicted
  split <;> simp

theorem changeCorrespondence_eq (s : BufferPool n) (f : Fin n) (id : ℕ) :
    s.changeCorrespondence f id =
      { s with
        dir := (s.dir.erase (s.pages f).pid).insert id f
        disk := s.evicted f
        pages := Function.update s.pages f { pid := id } } := by
  unfold changeCorrespondence evicted flushPage
  cases hdirty : (s.pages f).dirty
  · simp [hdirty, setPage, Page.clearAll]
  · cases hd : s.dir.lookup (s.pages f).pid <;> simp [hdirty, hd, setPage, Page.clearAll]

theorem loadFrame_eq (s : BufferPool n) (f : Fin n) (id : ℕ) :
    s.loadFrame f id =
      { s with
        dir := (s.dir.erase (s.pages f).pid).insert id f
        disk := s.evicted f
        pages := Function.update s.pages f
          { buffer := (s.evicted f).stored id, pid := id, pinCount := 1, dirty := false } } := by
  simp [loadFrame, changeCorrespondence_eq, setPage, DiskManager.stored]

theorem allocFrame_eq (s : BufferPool n) (f : Fin n) (idx : ℕ) :
    s.allocFrame f idx =
      { s with
        dir := (s.dir.erase (s.pages f).pid).insert idx f
        disk := s.evicted f
        pages := Function.update s.pages f { pid := idx, pinCount := 1, dirty := true }
        head :=
          { pageNum := s.head.pageNum + 1
            phyNum := s.head.phyNum + 1
            bitmap := BitMap.set (growBitmap s.head.bitmap idx) idx true } } := by
  simp only [allocFrame, changeCorrespondence_eq, setPage, Function.update_idem,
    Function.update_self]
  have he := evicted_congr (s := s) (t := { s with head := { s.head with
    bitmap := BitMap.set (growBitmap s.head.bitmap idx) idx true } }) rfl rfl rfl f
  simp only [he]

/-- A frame comes from the free list or, when that is empty, from the replacer. -/
inductive TakesFrame (s : BufferPool n) : Fin n → List (Fin n) → LruReplacer (Fin n) → Prop
  | free {f : Fin n} {rest : List (Fin n)} (h : s.freeList = rest ++ [f]) :
      TakesFrame s f rest s.replacer
  | evict {f : Fin n} {r : LruReplacer (Fin n)} (hf : s.freeList = [])
      (hr : s.replacer.victim = some (f, r)) : TakesFrame s f [] r

theorem victim_eq_some {s s' : BufferPool n} {f : Fin n} (h : s.victim = some (f, s')) :
    ∃ free lru, s.TakesFrame f free lru ∧ s' = { s with freeList := free, replacer := lru } := by
  unfold victim at h
  cases hl : s.freeList.getLast? with
  | some g =>
    simp only [hl, Option.some.injEq, Prod.mk.injEq] at h
    obtain ⟨rfl, rfl⟩ := h
    obtain ⟨rest, hrest⟩ := List.getLast?_eq_some_iff.1 hl
    exact ⟨rest, s.replacer, .free hrest, by simp [hrest]⟩
  | none =>
    have hnil : s.freeList = [] := List.getLast?_eq_none_iff.1 hl
    cases hv : s.replacer.victim with
    | none => simp [hl, hv] at h
    | some x =>
      simp only [hl, hv, Option.some.injEq, Prod.mk.injEq] at h
      obtain ⟨rfl, rfl⟩ := h
      exact ⟨[], x.2, .evict hnil hv, by rw [← hnil]⟩

theorem TakesFrame.victim_eq {s : BufferPool n} {f : Fin n} {free : List (Fin n)}
    {lru : LruReplacer (Fin n)} (h : s.TakesFrame f free lru) :
    s.victim = some (f, { s with freeList := free, replacer := lru }) := by
  cases h with
  | free h => simp [victim, h]
  | evict hf hr => simp [victim, hf, hr]

theorem victim_eq_none_iff {s : BufferPool n} :
    s.victim = none ↔ s.freeList = [] ∧ s.replacer.items = [] := by
  rw [← LruReplacer.victim_eq_none_iff, ← List.getLast?_eq_none_iff]
  unfold victim
  cases s.freeList.getLast? <;> cases s.replacer.victim <;> simp

theorem fetch_cases (s : BufferPool n) (id : ℕ) :
    (∃ f, s.dir.lookup id = some f ∧ s.fetch id = (some f, s.pinFrame f)) ∨
    (s.dir.lookup id = none ∧ s.victim = none ∧ s.fetch id = (none, s)) ∨
    (∃ f free lru, s.dir.lookup id = none ∧ s.TakesFrame f free lru ∧
      s.fetch id = (some f, { s with freeList := free, replacer := lru }.loadFrame f id)) := by
  unfold fetch
  cases hd : s.dir.lookup id with
  | some f => exact .inl ⟨f, rfl, rfl⟩
  | none =>
    cases hv : s.victim with
    | none => exact .inr (.inl ⟨rfl, rfl, rfl⟩)
    | some x =>
      obtain ⟨free, lru, ht, hs⟩ := victim_eq_some hv
      exact .inr (.inr ⟨x.1, free, lru, rfl, ht, by rw [← hs]⟩)

/-- The id that `new_page` is about to take, unless the page limit is reached. -/
def chosenId (s : BufferPool n) : Option ℕ :=
  match s.reusableId with
  | some idx => some idx
  | none => if s.disk.nextPid > BFPHeaderPage.maxPageCount then none else some s.disk.nextPid

/-- The disk manager after `new_page` has chosen an id. -/
def chosenDisk (s : BufferPool n) : DiskManager :=
  match s.reusableId with
  | some _ => s.disk
  | none => { s.disk with nextPid := s.disk.nextPid + 1 }

@[simp] theorem chosenDisk_file (s : BufferPool n) : s.chosenDisk.file = s.disk.file := by
  unfold chosenDisk
  split <;> rfl

theorem stored_chosenDisk (s : BufferPool n) (id : ℕ) : s.chosenDisk.stored id = s.disk.stored id := by
  simp [DiskManager.stored, DiskManager.readPage]

theorem victim_withDisk (s : BufferPool n) (d : DiskManager) :
    { s with disk := d }.victim = s.victim.map (fun x => (x.1, { x.2 with disk := d })) := by
  unfold victim
  cases hl : s.freeList.getLast? with
  | some f => simp
  | none => cases hv : s.replacer.victim <;> simp

/-- `new_page` fails and changes at most the next page id, or allocates the chosen id. -/
theorem newPage_cases (s : BufferPool n) :
    ((s.chosenId = none ∨ s.victim = none) ∧ s.newPage = (none, { s with disk := s.chosenDisk })) ∨
    (∃ id f free lru, s.chosenId = some id ∧ s.TakesFrame f free lru ∧
      s.newPage = (some (id, f),
        { s with disk := s.chosenDisk, freeList := free, replacer := lru }.allocFrame f id)) := by
  have hat (d : DiskManager) (idx : ℕ) :
      (s.victim = none ∧ { s with disk := d }.newPageAt idx = (none, { s with disk := d })) ∨
      (∃ f free lru, s.TakesFrame f free lru ∧ { s with disk := d }.newPageAt idx = (some (idx, f),
        { s with disk := d, freeList := free, replacer := lru }.allocFrame f idx)) := by
    cases hv : s.victim with
    | none => exact .inl ⟨rfl, by simp only [newPageAt, victim_withDisk, hv, Option.map_none]⟩
    | some x =>
      obtain ⟨free, lru, ht, hs⟩ := victim_eq_some hv
      exact .inr ⟨x.1, free, lru, ht, by
        simp only [newPageAt, victim_withDisk, hv, Option.map_some, hs]⟩
  unfold newPage chosenId chosenDisk
  cases hr : s.reusableId with
  | some idx =>
    rcases hat s.disk idx with ⟨hv, h⟩ | ⟨f, free, lru, ht, h⟩
    · exact .inl ⟨.inr hv, h⟩
    · exact .inr ⟨idx, f, free, lru, rfl, ht, h⟩
  | none =>
    simp only [DiskManager.nextPageId]
    by_cases hm : s.disk.nextPid > BFPHeaderPage.maxPageCount
    · exact .inl ⟨.inl (if_pos hm), if_pos hm⟩
    · simp only [if_neg hm]
      rcases hat { s.disk with nextPid := s.disk.nextPid + 1 } s.disk.nextPid with
        ⟨hv, h⟩ | ⟨f, free, lru, ht, h⟩
      · exact .inl ⟨.inr hv, (if_neg hm).trans h⟩
      · exact .inr ⟨s.disk.nextPid, f, free, lru, rfl, ht, (if_neg hm).trans h⟩

theorem unpin_eq (s : BufferPool n) {id : ℕ} {f : Fin n} (d : Bool) (hd : s.dir.lookup id = some f) :
    s.unpin id d = { s with
      pages := Function.update s.pages f { s.pages f with
        dirty := (s.pages f).dirty || d, pinCount := sizeDec (s.pages f).pinCount }
      replacer := if sizeDec (s.pages f).pinCount = 0 then s.replacer.put f else s.replacer } := by
  simp only [unpin, hd]
  split <;> rfl

theorem unpin_of_not_cached (s : BufferPool n) {id : ℕ} (d : Bool) (hd : s.dir.lookup id = none) :
    s.unpin id d = s := by
  simp only [unpin, hd]

@[simp] theorem unpin_dir (s : BufferPool n) (id : ℕ) (d : Bool) : (s.unpin id d).dir = s.dir := by
  cases hd : s.dir.lookup id with
  | none => rw [s.unpin_of_not_cached d hd]
  | some f => rw [s.unpin_eq d hd]

def headerPage (file : File) : Page :=
  { buffer := DiskManager.stored { file := file } 0, pid := 0, pinCount := 1, dirty := false }

/-- The pool after the header page has been decoded or formatted. -/
def openedPool (n : ℕ) (file : File) (r : Bool × BFPHeaderPage × Page) : BufferPool (n + 1) where
  dir := AList.singleton 0 (Fin.last n)
  freeList := (List.finRange (n + 1)).dropLast
  pages := Function.update (fun _ => {}) (Fin.last n)
    { r.2.2 with dirty := r.2.2.dirty || r.1, pinCount := 0 }
  replacer := (LruReplacer.create (n + 1)).put (Fin.last n)
  disk :=
    { file := if r.1 then Function.update file (pageOffset 0) (some r.2.2.buffer) else file
      nextPid := r.2.1.phyNum }
  head := r.2.1

theorem lookup_singleton (i j : ℕ) (f : Fin n) :
    (AList.singleton i f : AList (fun _ : ℕ => Fin n)).lookup j = if j = i then some f else none := by
  rw [← AList.insert_empty]
  by_cases h : j = i
  · subst h
    rw [AList.lookup_insert, if_pos rfl]
  · rw [AList.lookup_insert_ne h, if_neg h, AList.lookup_empty]

theorem openFile_zero (file : File) : openFile 0 file = some { disk := { file := file } } := rfl

theorem getLast?_finRange (n : ℕ) : (List.finRange (n + 1)).getLast? = some (Fin.last n) := by
  rw [List.finRange_succ_last]
  simp

theorem openFile_succ (n : ℕ) (file : File) :
    openFile (n + 1) file = (BFPHeaderPage.init (headerPage file)).map (openedPool n file) := by
  have hf : fetch ({ disk := { file := file } } : BufferPool (n + 1)) 0 = (some (Fin.last n),
      loadFrame { disk := { file := file }, freeList := (List.finRange (n + 1)).dropLast }
        (Fin.last n) 0) := by
    simp [fetch, victim, getLast?_finRange]
  have hp : (loadFrame ({ disk := { file := file }, freeList := (List.finRange (n + 1)).dropLast } :
      BufferPool (n + 1)) (Fin.last n) 0).pages (Fin.last n) = headerPage file := by
    simp [loadFrame_eq, headerPage, evicted]
  simp only [openFile, init, hf, hp]
  cases hi : BFPHeaderPage.init (headerPage file) with
  | none => rfl
  | some r =>
    obtain ⟨b, head, p⟩ := r
    have hpin : p.pinCount = 1 := (BFPHeaderPage.init_page hi).2.1
    cases b <;>
      simp [unpin, flushPage, setPage, loadFrame_eq, evicted, openedPool, hpin,
        DiskManager.setNextPageId, DiskManager.writePage] <;> rfl

end BufferPool

end Tadis
