import Tadis.FrameOwnership

/-!
# Pinned pages under page deletion

`delete_page` puts the frame of a cached page on the free list and leaves it in the replacer. The
frame then has two owners unless it is taken off the free list at once, which happens when the free
list was empty and the header page has to be fetched from the file.
-/

namespace Tadis.BufferPool

variable {n : ℕ} {s s' : BufferPool n} {pins : ℕ → ℕ}

theorem writeHeadPage_cases {b : Bool} (h : s.writeHeadPage = some (b, s')) :
    (b = false ∧ s.fetch 0 = (none, s) ∧ s' = s) ∨
    (b = true ∧ ∃ f t p, s.fetch 0 = (some f, t) ∧ t.head = s.head ∧
      s.head.write2page (t.pages f) = some p ∧ s' = (t.setPage f p).unpin p.pid true) := by
  unfold writeHeadPage at h
  rcases hf : s.fetch 0 with ⟨_ | f, t⟩
  · have ht := fetch_none_eq hf
    simp only [hf, Option.some.injEq, Prod.mk.injEq] at h
    exact .inl ⟨h.1.symm, by rw [ht], h.2.symm.trans ht⟩
  · have hh : t.head = s.head := by simpa [hf] using fetch_head s 0
    simp only [hf, Option.bind_eq_bind, Option.bind_eq_some_iff, Option.some.injEq,
      Prod.mk.injEq] at h
    obtain ⟨p, hp, hb, hs⟩ := h
    exact .inr ⟨hb.symm, f, t, p, rfl, hh, hh ▸ hp, hs.symm⟩

theorem write2page_pid {h : BFPHeaderPage} {p q : Page} (hw : h.write2page p = some q) :
    q.pid = p.pid ∧ q.pinCount = p.pinCount ∧ q.dirty = true := by
  obtain ⟨-, rfl⟩ := (BFPHeaderPage.write2page_eq_some_iff _ _ _).1 hw
  exact ⟨rfl, rfl, rfl⟩

theorem writeHeadPage_head {b : Bool} (h : s.writeHeadPage = some (b, s')) : s'.head = s.head := by
  rcases writeHeadPage_cases h with ⟨_, _, rfl⟩ | ⟨_, f, t, p, _, hh, _, rfl⟩
  · rfl
  · rw [unpin_head]
    exact hh

theorem FrameInv.setPage (h : s.FrameInv pins) {f : Fin n} {p : Page}
    (hpid : p.pid = (s.pages f).pid) (hpin : p.pinCount = (s.pages f).pinCount)
    (hvalid : (s.pages f).pid ≠ invalidId) : (s.setPage f p).FrameInv pins := by
  refine h.congr rfl rfl rfl ?_
  intro g
  by_cases hg : g = f
  · subst hg
    simp [hpid, hpin, hvalid]
  · simp [hg]

theorem FrameInv.writeHeadPage (h : s.FrameInv pins) (hlt : pins 0 + 1 < 2 ^ 64) {b : Bool}
    (hw : s.writeHeadPage = some (b, s')) : s'.FrameInv pins := by
  rcases writeHeadPage_cases hw with ⟨_, _, rfl⟩ | ⟨_, f, t, p, hf, _, hp, rfl⟩
  · exact h
  · obtain ⟨ht, hd⟩ := h.fetch (by decide) hlt hf
    obtain ⟨hpid, hinv⟩ := ht.pid_of_lookup hd
    obtain ⟨hp1, hp2, _⟩ := write2page_pid hp
    have hset := ht.setPage hp1 hp2 (by rwa [hpid])
    have hun := hset.unpin true (show addPin pins 0 0 ≠ 0 by simp [addPin])
    rwa [dropPin_addPin, ← hpid, ← hp1] at hun

theorem frameTaken_remove (h : s.FrameInv pins) {id : ℕ} {f : Fin n}
    (hd : s.dir.lookup id = some f) (hpin : pins id = 0) :
    s.FrameTaken f s.freeList (s.replacer.remove f) where
  free_nodup := h.free_nodup
  mem_free g := by
    obtain ⟨hp, hid⟩ := h.pid_of_lookup hd
    refine ⟨fun hg => ⟨?_, hg⟩, And.right⟩
    rintro rfl
    exact hid (hp.symm.trans ((h.mem_free g).1 hg))
  lru_inv := h.lru.remove_inv f
  lru_capacity := (LruReplacer.capacity_remove f).trans h.lru_capacity
  mem_lru g := by rw [h.lru.items_remove, h.lru.items_nodup.mem_erase_iff]
  unpinned := .inr ((h.pinCount_of_lookup hd).trans hpin)

/-- The state of `delete_page` on a page cached in frame `f`, before the header is written. -/
def freed (s : BufferPool n) (f : Fin n) (id : ℕ) (head : BFPHeaderPage) : BufferPool n :=
  { s with
    pages := Function.update s.pages f {}
    head := head
    freeList := f :: s.freeList
    dir := s.dir.erase id }

theorem lookup_freed_zero {f : Fin n} {id : ℕ} {head : BFPHeaderPage}
    (hzero : id = 0 ∨ s.dir.lookup 0 = none) : (s.freed f id head).dir.lookup 0 = none := by
  by_cases h0 : 0 = id
  · subst h0
    exact AList.lookup_erase _ _
  · exact (AList.lookup_erase_ne h0).trans (hzero.resolve_left (Ne.symm h0))

/-- The frame of the deleted page is reused for the header page within the same call. The inner
`fetch` takes it off the free list while it is still in the replacer, and the inner `unpin` then
moves it to the recent end. -/
theorem FrameInv.delete_reused (h : s.FrameInv pins) {id : ℕ} {f : Fin n}
    (hd : s.dir.lookup id = some f) (hpin : pins id = 0) (hfree : s.freeList = [])
    (hzero : id = 0 ∨ s.dir.lookup 0 = none) {head : BFPHeaderPage} {b : Bool}
    (hw : (s.freed f id head).writeHeadPage = some (b, s')) : s'.FrameInv pins := by
  obtain ⟨hpf, hid⟩ := h.pid_of_lookup hd
  let t : BufferPool n := { s.freed f id head with freeList := [] }.loadFrame f 0
  have hfetch : (s.freed f id head).fetch 0 = (some f, t) := by
    have hlist : (s.freed f id head).freeList = [] ++ [f] := by simp [freed, hfree]
    simp only [BufferPool.fetch, lookup_freed_zero hzero, (TakesFrame.free hlist).victim_eq]
    rfl
  have hremapped : s.Remapped { t with replacer := s.replacer.remove f } f 0 := by
    refine ⟨?_, ?_, ?_, ?_, ?_⟩
    · simp [t, loadFrame_eq]
    · intro h0
      rw [hpf] at h0 ⊢
      simp only [t, loadFrame_eq, freed, Function.update_self]
      rw [AList.lookup_insert_ne h0, AList.lookup_erase_ne hid, AList.lookup_erase]
    · intro j hj hold
      rw [hpf] at hold
      simp only [t, loadFrame_eq, freed, Function.update_self]
      rw [AList.lookup_insert_ne hj]
      by_cases hji : j = invalidId
      · subst hji
        rw [AList.lookup_erase, h.sentinel]
      · rw [AList.lookup_erase_ne hji, AList.lookup_erase_ne hold]
    · simp [t, loadFrame_eq]
    · intro g hg
      simp [t, loadFrame_eq, freed, hg]
  have htaken := frameTaken_remove h hd hpin
  have hremoved : FrameInv { t with replacer := s.replacer.remove f } (addPin pins 0) := by
    refine h.remapped htaken hremapped ?_ rfl ?_ (by decide) ?_
    · simp [t, loadFrame_eq, hfree]
    · simp [t, loadFrame_eq]
    · rcases hzero with rfl | h0
      · exact .inr hd
      · exact .inl h0
  rcases writeHeadPage_cases hw with ⟨_, hn, _⟩ | ⟨_, g, u, p, hg, _, hp, rfl⟩
  · rw [hfetch] at hn
    cases (Prod.mk.inj hn).1
  · obtain ⟨rfl, rfl⟩ := by simpa [hfetch] using hg
    obtain ⟨hp1, hp2, _⟩ := write2page_pid hp
    have htf : (t.pages f).pid = 0 ∧ (t.pages f).pinCount = 1 := by simp [t, loadFrame_eq]
    have hlru : t.replacer = s.replacer := by simp [t, loadFrame_eq, freed]
    have hset := hremoved.setPage (f := f) (p := p) hp1 hp2 (by rw [htf.1]; decide)
    have hun := hset.unpin true (show addPin pins 0 0 ≠ 0 by simp [addPin])
    rw [dropPin_addPin] at hun
    have hput1 := h.lru.put_spec (t := f) (.inl ((h.mem_lru f).2
      ⟨by rwa [hpf], (h.pinCount_of_lookup hd).trans hpin⟩))
    have hput2 := (h.lru.remove_inv f).put_spec (t := f) (.inr (hremoved.lru_room (f := f) (by
      rw [htaken.mem_lru]
      simp)))
    have hl1 : (t.setPage f p).dir.lookup 0 = some f := hremapped.lookup_self
    have hl2 : ({ t with replacer := s.replacer.remove f }.setPage f p).dir.lookup 0 = some f := hl1
    have hpc : (Function.update t.pages f p f).pinCount = 1 := by
      rw [Function.update_self, hp2, htf.2]
    rw [unpin_eq _ true hl2] at hun
    rw [hp1, htf.1, unpin_eq _ true hl1]
    simp only [BufferPool.setPage, hpc, sizeDec, if_true, hlru] at hun ⊢
    refine hun.withReplacer hput1.1 ((LruReplacer.capacity_put f).trans h.lru_capacity) ?_
    intro g
    rw [hput1.2, hput2.2, h.lru.items_remove]
    by_cases hgf : g = f <;> simp [hgf, List.mem_erase_of_ne]

/-- The header after the bit of page `id` has been cleared. -/
def releasedHead (s : BufferPool n) (id : ℕ) : BFPHeaderPage :=
  { s.head with
    bitmap := BitMap.set s.head.bitmap id false
    pageNum := sizeDec s.head.pageNum }

theorem deletePage_cases {id : ℕ} (h : s.deletePage id = some s') :
    (s.head.phyNum ≤ id ∧ s' = s) ∨
    (id < s.head.phyNum ∧ id < s.head.bitmap.length * 8 ∧ ∃ b,
      (∃ f, s.dir.lookup id = some f ∧
        (s.freed f id (s.releasedHead id)).writeHeadPage = some (b, s')) ∨
      (s.dir.lookup id = none ∧ { s with head := s.releasedHead id }.writeHeadPage = some (b, s'))) := by
  unfold deletePage at h
  split_ifs at h with hphy hbit
  · exact .inl ⟨hphy, (Option.some.inj h).symm⟩
  · refine .inr ⟨by omega, by omega, ?_⟩
    cases hd : s.dir.lookup id with
    | some f =>
      simp only [hd] at h
      obtain ⟨⟨b, t⟩, ht, rfl⟩ := Option.map_eq_some_iff.1 h
      exact ⟨b, .inl ⟨f, rfl, ht⟩⟩
    | none =>
      simp only [hd] at h
      obtain ⟨⟨b, t⟩, ht, rfl⟩ := Option.map_eq_some_iff.1 h
      exact ⟨b, .inr ⟨rfl, ht⟩⟩

theorem deletePage_bitmap_length {id : ℕ} (h : s.deletePage id = some s') :
    s'.head.bitmap.length = s.head.bitmap.length := by
  rcases deletePage_cases h with ⟨_, rfl⟩ | ⟨_, _, b, ⟨f, _, hw⟩ | ⟨_, hw⟩⟩
  · rfl
  · rw [writeHeadPage_head hw]
    exact BitMap.length_set _ _ _
  · rw [writeHeadPage_head hw]
    exact BitMap.length_set _ _ _

/-- The page is not deleted at all, has no frame, or its frame is taken at once for page 0. -/
def DeletesSafely (s : BufferPool n) (id : ℕ) : Prop :=
  s.head.phyNum ≤ id ∨ s.dir.lookup id = none ∨
    (s.freeList = [] ∧ (id = 0 ∨ s.dir.lookup 0 = none))

theorem FrameInv.deletePage (h : s.FrameInv pins) {id : ℕ} (hpin : pins id = 0)
    (hlt : pins 0 + 1 < 2 ^ 64) (hsafe : s.DeletesSafely id) (hd : s.deletePage id = some s') : s'.FrameInv pins := by
  rcases deletePage_cases hd with ⟨_, rfl⟩ | ⟨hphy, _, b, ⟨f, hf, hw⟩ | ⟨_, hw⟩⟩
  · exact h
  · rcases hsafe with hs | hs | ⟨hfree, hzero⟩
    · omega
    · rw [hs] at hf
      cases hf
    · exact h.delete_reused hf hpin hfree hzero hw
  · have hc : FrameInv { s with head := s.releasedHead id } pins :=
      h.congr rfl rfl rfl (fun _ => ⟨rfl, rfl, fun _ => rfl⟩)
    exact hc.writeHeadPage hlt hw

inductive PinOp
  | fetch (id : ℕ)
  | newPage
  | unpin (id : ℕ) (isDirty : Bool)
  | deletePage (id : ℕ)

/-- One call and its effect on the number of outstanding pins of each page. An `unpin` gives back
an earlier pin and a deleted page has none. The pins of a page, those included that `delete_page`
takes of the header page, stay below `2 ^ 64`. -/
inductive PinStep (s : BufferPool n) (pins : ℕ → ℕ) : PinOp → BufferPool n → (ℕ → ℕ) → Prop
  | fetch {id : ℕ} {f : Fin n} {s' : BufferPool n} (hlt : pins id + 1 < 2 ^ 64)
      (h : s.fetch id = (some f, s')) : PinStep s pins (.fetch id) s' (addPin pins id)
  | fetchFail {id : ℕ} {s' : BufferPool n} (h : s.fetch id = (none, s')) :
      PinStep s pins (.fetch id) s' pins
  | newPage {id : ℕ} {f : Fin n} {s' : BufferPool n} (h : s.newPage = (some (id, f), s')) :
      PinStep s pins .newPage s' (addPin pins id)
  | newPageFail {s' : BufferPool n} (h : s.newPage = (none, s')) : PinStep s pins .newPage s' pins
  | unpin {id : ℕ} {isDirty : Bool} (h : pins id ≠ 0) :
      PinStep s pins (.unpin id isDirty) (s.unpin id isDirty) (dropPin pins id)
  | deletePage {id : ℕ} {s' : BufferPool n} (h : pins id = 0) (hlt : pins 0 + 1 < 2 ^ 64)
      (hd : s.deletePage id = some s') : PinStep s pins (.deletePage id) s' pins

/-- Runs from `s₀` without outstanding pins, each step of which satisfies `P` in the state it
starts from. -/
inductive PinRun (P : BufferPool n → PinOp → Prop) (s₀ : BufferPool n) :
    BufferPool n → (ℕ → ℕ) → Prop
  | refl : PinRun P s₀ s₀ (fun _ => 0)
  | step {s s' : BufferPool n} {pins pins' : ℕ → ℕ} {op : PinOp} (h : PinRun P s₀ s pins)
      (hP : P s op) (hs : PinStep s pins op s' pins') : PinRun P s₀ s' pins'

/-- The step does not reach a defect of the frame bookkeeping: a deleted page's frame has one owner,
`new_page` does not allocate a page that another frame caches, and `INVALID_ID` is not fetched. -/
def KeepsOwners (s : BufferPool n) : PinOp → Prop
  | .fetch id => id ≠ invalidId
  | .newPage => s.KeepsTable .newPage
  | .unpin _ _ => True
  | .deletePage id => s.DeletesSafely id

theorem FrameInv.pinStep (h : s.FrameInv pins) (hb : s.BitmapBounded) {op : PinOp} {pins' : ℕ → ℕ}
    (hk : s.KeepsOwners op) (hs : PinStep s pins op s' pins') :
    s'.FrameInv pins' ∧ s'.BitmapBounded := by
  cases hs with
  | @fetch id f _ hlt hf =>
    refine ⟨(h.fetch hk hlt hf).1, ?_⟩
    have hh : s'.head = s.head := by simpa [hf] using fetch_head s id
    simpa only [BitmapBounded, hh] using hb
  | fetchFail hf =>
    rw [fetch_none_eq hf]
    exact ⟨h, hb⟩
  | newPage hf =>
    refine ⟨(h.newPage hb hk hf).1, ?_⟩
    have hb' := hb.newPage
    rwa [hf] at hb'
  | newPageFail hf =>
    rw [newPage_none_eq hf]
    exact ⟨h.congr rfl rfl rfl (fun _ => ⟨rfl, rfl, fun _ => rfl⟩), hb⟩
  | unpin hpin =>
    refine ⟨h.unpin _ hpin, ?_⟩
    simpa only [BitmapBounded, unpin_head] using hb
  | deletePage hpin hlt hd =>
    refine ⟨h.deletePage hpin hlt hk hd, ?_⟩
    simpa only [BitmapBounded, deletePage_bitmap_length hd] using hb

theorem openFile_frameInv {file : File} {s₀ : BufferPool n} (h : openFile n file = some s₀) :
    s₀.FrameInv (fun _ => 0) ∧ s₀.BitmapBounded := by
  cases n with
  | zero =>
    rw [openFile_zero] at h
    obtain rfl := Option.some.inj h
    refine ⟨⟨fun _ f => f.elim0, rfl, List.nodup_nil, fun f => f.elim0, fun f => f.elim0,
      LruReplacer.inv_create 0, rfl, fun f => f.elim0, fun f => f.elim0, fun _ _ => rfl⟩, ?_⟩
    simp [BitmapBounded]
  | succ m =>
    rw [openFile_succ] at h
    obtain ⟨⟨b, head, p⟩, hi, rfl⟩ := Option.map_eq_some_iff.1 h
    have hp := BFPHeaderPage.init_page hi
    refine ⟨frameInv_openedPool m file _ hp.1, ?_⟩
    have hl := BFPHeaderPage.init_bitmap_length hi
    simp only [BitmapBounded, openedPool, bfpMaxPageNum, pageSize] at hl ⊢
    omega

theorem PinRun.frameInv {file : File} {s₀ : BufferPool n} (h₀ : openFile n file = some s₀)
    (h : PinRun KeepsOwners s₀ s pins) : s.FrameInv pins ∧ s.BitmapBounded := by
  induction h with
  | refl => exact openFile_frameInv h₀
  | step _ hP hs ih => exact ih.1.pinStep ih.2 hP hs

/-- In every run whose steps satisfy `KeepsOwners`, no frame is on the free list and in the
replacer, and a pinned page keeps its frame, its directory entry and its bytes through every
`fetch` and `new_page` of another page. -/
theorem pinned_page_kept {file : File} {s₀ : BufferPool n} (h₀ : openFile n file = some s₀)
    (h : PinRun KeepsOwners s₀ s pins) :
    (∀ f, ¬ (f ∈ s.freeList ∧ f ∈ s.replacer.items)) ∧
    ∀ id, pins id ≠ 0 → ∃ f, s.dir.lookup id = some f ∧ (s.pages f).pid = id ∧
      (s.pages f).pinCount = pins id ∧
      (∀ j, j ≠ id → s.FrameKept (s.fetch j).2 id f) ∧
      (s.KeepsOwners .newPage → s.FrameKept s.newPage.2 id f ∧
        ∀ j g, s.newPage.1 = some (j, g) → j ≠ id) := by
  obtain ⟨hi, _⟩ := h.frameInv h₀
  refine ⟨hi.free_not_lru, ?_⟩
  intro id hpin
  obtain ⟨f, hd⟩ := Option.ne_none_iff_exists'.1 (fun hn => hpin (hi.pinned_cached id hn))
  exact ⟨f, hd, (hi.pid_of_lookup hd).1, hi.pinCount_of_lookup hd,
    fun j hj => hi.fetch_keeps hd hpin hj, fun hk => hi.newPage_keeps hd hpin hk⟩

theorem PinRun.newPage {P : BufferPool n → PinOp → Prop} {s₀ : BufferPool n}
    (h : PinRun P s₀ s pins) (hP : P s .newPage) {id : ℕ} {f : Fin n}
    (hf : s.newPage.1 = some (id, f)) : PinRun P s₀ s.newPage.2 (addPin pins id) :=
  .step h hP (.newPage (f := f) (Prod.ext hf rfl))

/-- `pinned_page_kept` for page 1, allocated and pinned in a pool of two frames. -/
theorem pinned_page_kept_new_page :
    ∃ f, (freshPool 1).newPage.2.dir.lookup 1 = some f ∧
      (freshPool 1).newPage.2.FrameKept ((freshPool 1).newPage.2.fetch 0).2 1 f := by
  have hk : (freshPool 1).KeepsOwners .newPage := by
    intro id f hid hf
    obtain rfl : 1 = id := Option.some.inj ((by decide : (freshPool 1).chosenId = some 1).symm.trans hid)
    exact .inl (by decide)
  have hrun : PinRun KeepsOwners (freshPool 1) (freshPool 1).newPage.2 (addPin (fun _ => 0) 1) :=
    PinRun.refl.newPage hk (f := 0) (by decide)
  obtain ⟨f, hd, _, _, hfetch, _⟩ :=
    (pinned_page_kept (openFile_absent_succ 1) hrun).2 1 (by decide)
  exact ⟨f, hd, hfetch 0 (by decide)⟩

/-- Allocate, unpin and delete page 1 in a pool of two frames: its frame is then on the free list
and in the replacer. The next `new_page` pins page 2 in it, and the one after that evicts page 2. -/
theorem deleted_frame_reused_while_pinned :
    ∃ s₀ : BufferPool 2, openFile 2 File.absent = some s₀ ∧
      ∃ s pins f, PinRun (fun _ _ => True) s₀ s pins ∧ f ∈ s.freeList ∧ f ∈ s.replacer.items ∧
      ∃ s' pins', PinRun (fun _ _ => True) s₀ s' pins' ∧ pins' 2 ≠ 0 ∧
        s'.dir.lookup 2 = some f ∧ ¬ s'.FrameKept s'.newPage.2 2 f := by
  let s₁ := (freshPool 1).newPage.2.unpin 1 true
  let s₂ := (s₁.deletePage 1).get (by decide)
  have hrun : PinRun (fun _ _ => True) (freshPool 1) (freshPool 1).newPage.2 (addPin (fun _ => 0) 1) :=
    PinRun.refl.newPage trivial (f := 0) (by decide)
  have hunpin : PinStep (freshPool 1).newPage.2 (addPin (fun _ => 0) 1) (.unpin 1 true) s₁ _ :=
    .unpin (by decide)
  have hrun₁ := hrun.step trivial hunpin
  have hdelete : PinStep s₁ (dropPin (addPin (fun _ => 0) 1) 1) (.deletePage 1) s₂ _ :=
    .deletePage (by decide) (by decide) (Option.some_get _).symm
  have hrun₂ := hrun₁.step trivial hdelete
  have hnew : s₂.newPage.1 = some (2, 0) := by decide
  have hrun₃ := hrun₂.newPage trivial hnew
  refine ⟨freshPool 1, openFile_absent_succ 1, s₂, _, 0, hrun₂, by decide, by decide,
    s₂.newPage.2, _, hrun₃, by decide, by decide, ?_⟩
  rintro ⟨hl, _⟩
  exact absurd hl (by decide)

end Tadis.BufferPool
