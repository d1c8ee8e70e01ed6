import Tadis.FrameOwnership

/-!
# The pages that a pool shows

A `PageView` is what the clients of a pool may rely on: the pins they hold, the bytes of every live
page, and the pinned pages whose last bytes no dirty flag records yet. `Shows s v` ties a pool to a
view: a cached page holds the bytes of the view, and so does the file for every page that is neither
dirty nor unsaved. `fetch`, `new_page`, writes through a pin, `unpin` and the flushes keep it.
-/

namespace Tadis

structure PageView where
  pins : ℕ → ℕ
  unsaved : Set ℕ
  live : Set ℕ
  bytes : ℕ → PageBlock

namespace PageView

def pin (v : PageView) (id : ℕ) : PageView := { v with pins := BufferPool.addPin v.pins id }

/-- Page `id` comes to life with the given bytes and one pin. -/
def adopt (v : PageView) (id : ℕ) (b : PageBlock) : PageView where
  pins := BufferPool.addPin v.pins id
  unsaved := v.unsaved
  live := insert id v.live
  bytes := Function.update v.bytes id b

def write (v : PageView) (id : ℕ) (b : PageBlock) : PageView :=
  { v with unsaved := insert id v.unsaved, bytes := Function.update v.bytes id b }

def unpin (v : PageView) (id : ℕ) (unsaved : Set ℕ) : PageView :=
  { v with pins := BufferPool.dropPin v.pins id, unsaved := unsaved }

theorem adopt_of_mem {v : PageView} {id : ℕ} (h : id ∈ v.live) : v.adopt id (v.bytes id) = v.pin id := by
  simp [adopt, pin, Set.insert_eq_of_mem h]

end PageView

namespace BufferPool

variable {n : ℕ}

structure Shows (s : BufferPool n) (v : PageView) : Prop where
  frames : s.FrameInv v.pins
  addressable : ∀ id ∈ v.live, Addressable id
  cached_live : ∀ id f, s.dir.lookup id = some f → id ∈ v.live
  unsaved_pinned : ∀ id ∈ v.unsaved, v.pins id ≠ 0
  cached : ∀ id f, s.dir.lookup id = some f → (s.pages f).buffer = v.bytes id
  saved : ∀ id ∈ v.live, id ∉ v.unsaved →
    (∀ f, s.dir.lookup id = some f → (s.pages f).dirty = false) → s.disk.stored id = v.bytes id

variable {s s' : BufferPool n} {v : PageView}

/-- The write-back of a frame makes the file agree with the view on its page. -/
theorem Shows.stored_evicted (h : s.Shows v) {f : Fin n} {id : ℕ} (hid : id ∈ v.live)
    (hu : id ∉ v.unsaved)
    (hclean : ∀ g, g ≠ f → s.dir.lookup id = some g → (s.pages g).dirty = false) :
    (s.evicted f).stored id = v.bytes id := by
  unfold evicted
  cases hdirty : (s.pages f).dirty
  · refine h.saved id hid hu ?_
    intro g hg
    by_cases hgf : g = f
    · rwa [hgf]
    · exact hclean g hgf hg
  · have hpid : (s.pages f).pid ≠ invalidId := fun hp => by
      rw [h.frames.free_clean f hp] at hdirty
      cases hdirty
    have hd := (h.frames.linked _ f hpid).2 rfl
    simp only [if_true, flushPage, hd]
    by_cases he : id = (s.pages f).pid
    · rw [he, DiskManager.stored_writePage_same, h.cached _ f hd]
    · rw [DiskManager.stored_writePage_of_ne _ _
        (pageOffset_ne (h.addressable id hid) (h.addressable _ (h.cached_live _ f hd)) he)]
      refine h.saved id hid hu ?_
      intro g hg
      refine hclean g ?_ hg
      rintro rfl
      exact he (h.frames.pid_of_lookup hg).1.symm

theorem stored_evicted_of_not_cached (h : ∀ id f, s.dir.lookup id = some f → Addressable id)
    {id : ℕ} (hid : Addressable id) (hn : s.dir.lookup id = none) (f : Fin n) :
    (s.evicted f).stored id = s.disk.stored id := by
  unfold evicted flushPage
  split
  · cases hg : s.dir.lookup (s.pages f).pid with
    | none => rfl
    | some g =>
      refine DiskManager.stored_writePage_of_ne _ _ (pageOffset_ne hid (h _ g hg) ?_)
      rintro rfl
      rw [hn] at hg
      cases hg
  · rfl

theorem Shows.cached_addressable (h : s.Shows v) (id : ℕ) (f : Fin n)
    (hf : s.dir.lookup id = some f) : Addressable id := h.addressable id (h.cached_live id f hf)

theorem Shows.not_cached (h : s.Shows v) {id : ℕ} (hn : id ∉ v.live) : s.dir.lookup id = none := by
  cases hf : s.dir.lookup id with
  | none => rfl
  | some f => exact absurd (h.cached_live id f hf) hn

theorem Shows.stored_evicted_of_not_mem (h : s.Shows v) (f : Fin n) {id : ℕ} (hid : Addressable id)
    (hn : id ∉ v.live) : (s.evicted f).stored id = s.disk.stored id :=
  stored_evicted_of_not_cached h.cached_addressable hid (h.not_cached hn) f

theorem Shows.remapped (h : s.Shows v) {f : Fin n} {free : List (Fin n)}
    {lru : LruReplacer (Fin n)} {id : ℕ} (hk : s.FrameTaken f free lru) (hr : s.Remapped s' f id)
    (hfree : s'.freeList = free) (hlru : s'.replacer = lru) (hpin : (s'.pages f).pinCount = 1)
    (hid : Addressable id) (hn : s.dir.lookup id = none ∨ s.dir.lookup id = some f)
    (hdisk : s'.disk.stored = (s.evicted f).stored)
    (hclean : (s'.pages f).dirty = false → (s.evicted f).stored id = (s'.pages f).buffer) :
    s'.Shows (v.adopt id (s'.pages f).buffer) where
  frames := h.frames.remapped hk hr hfree hlru hpin hid.ne_invalid hn
  addressable := by
    rintro j (rfl | hj)
    · exact hid
    · exact h.addressable j hj
  cached_live := by
    intro j g hj
    by_cases hji : j = id
    · exact .inl hji
    · by_cases hold : j = (s.pages f).pid
      · rw [hold, hr.lookup_old (hold ▸ hji)] at hj
        cases hj
      · rw [hr.lookup_of_ne j hji hold] at hj
        exact .inr (h.cached_live j g hj)
  unsaved_pinned := by
    intro j hj
    have hne := h.unsaved_pinned j hj
    by_cases hji : j = id
    · subst hji
      simp [PageView.adopt, addPin]
    · simpa [PageView.adopt, addPin, hji] using hne
  cached := by
    intro j g hj
    by_cases hji : j = id
    · subst hji
      rw [hr.lookup_self] at hj
      rw [← Option.some.inj hj]
      simp [PageView.adopt]
    · by_cases hold : j = (s.pages f).pid
      · rw [hold, hr.lookup_old (hold ▸ hji)] at hj
        cases hj
      · rw [hr.lookup_of_ne j hji hold] at hj
        have hgf : g ≠ f := by
          rintro rfl
          exact hold (h.frames.pid_of_lookup hj).1.symm
        simpa [PageView.adopt, hji, hr.pages_ne g hgf] using h.cached j g hj
  saved := by
    intro j hj hu hc
    rw [hdisk]
    by_cases hji : j = id
    · subst hji
      simpa [PageView.adopt] using hclean (hc f hr.lookup_self)
    · have hlive : j ∈ v.live := hj.resolve_left hji
      simp only [PageView.adopt, Function.update_of_ne hji]
      refine h.stored_evicted hlive hu ?_
      intro g hgf hg
      have hold : j ≠ (s.pages f).pid := by
        intro he
        have hpg := (h.frames.pid_of_lookup hg).1
        have hinv := (h.frames.pid_of_lookup hg).2
        exact hgf (h.frames.linked.frame_unique (by rwa [hpg]) (hpg.trans he))
      rw [← hr.pages_ne g hgf]
      exact hc g ((hr.lookup_of_ne j hji hold).trans hg)

theorem Shows.pinFrame (h : s.Shows v) {id : ℕ} {f : Fin n} (hd : s.dir.lookup id = some f)
    (hlt : v.pins id + 1 < 2 ^ 64) : (s.pinFrame f).Shows (v.pin id) where
  frames := h.frames.pinFrame hd hlt
  addressable := h.addressable
  cached_live := h.cached_live
  unsaved_pinned j hj := by
    have hne := h.unsaved_pinned j hj
    by_cases hji : j = id
    · subst hji
      simp [PageView.pin, addPin]
    · simpa [PageView.pin, addPin, hji] using hne
  cached j g hj := by
    refine Eq.trans ?_ (h.cached j g hj)
    by_cases hg : g = f <;> simp [BufferPool.pinFrame, hg]
  saved j hj hu hc := by
    refine h.saved j hj hu ?_
    intro g hg
    rw [← hc g hg]
    by_cases hgf : g = f <;> simp [BufferPool.pinFrame, hgf]

theorem Shows.fetch (h : s.Shows v) {id : ℕ} {f : Fin n} (hid : id ∈ v.live)
    (hlt : v.pins id + 1 < 2 ^ 64) (hf : s.fetch id = (some f, s')) :
    s'.Shows (v.pin id) ∧ s'.dir.lookup id = some f ∧ (s'.pages f).buffer = v.bytes id := by
  have hlookup := (h.frames.fetch (h.addressable id hid).ne_invalid hlt hf).2
  have hs : s'.Shows (v.pin id) := by
    rcases s.fetch_cases id with ⟨g, hd, hg⟩ | ⟨_, _, hg⟩ | ⟨g, free, lru, hn, ht, hg⟩
    · obtain ⟨rfl, rfl⟩ := by simpa [hf] using hg
      exact h.pinFrame hd hlt
    · simp [hf] at hg
    · obtain ⟨rfl, rfl⟩ := by simpa [hf] using hg
      have hstored : (s.evicted f).stored id = v.bytes id := by
        refine h.stored_evicted hid ?_ ?_
        · exact fun hu => h.unsaved_pinned id hu (h.frames.pinned_cached id hn)
        · intro g _ hg
          rw [hn] at hg
          cases hg
      have hev := evicted_congr (s := s) (t := { s with freeList := free, replacer := lru })
        rfl rfl rfl f
      have hr := h.remapped (h.frames.frameTaken ht) (s.remapped_loadFrame f id free lru)
        (by simp [loadFrame_eq]) (by simp [loadFrame_eq]) (by simp [loadFrame_eq])
        (h.addressable id hid) (.inl hn) (by simp [loadFrame_eq, hev]) (by simp [loadFrame_eq, hev])
      have hbuf : (({ s with freeList := free, replacer := lru }.loadFrame f id).pages f).buffer =
          v.bytes id := by
        simp [loadFrame_eq, hev, hstored]
      rwa [hbuf, PageView.adopt_of_mem hid] at hr
  exact ⟨hs, hlookup, hs.cached id f hlookup⟩

theorem stored_evicted_congr {s t : BufferPool n} (hdir : t.dir = s.dir) (hpages : t.pages = s.pages)
    (hfile : t.disk.file = s.disk.file) {f : Fin n} : (t.evicted f).stored = (s.evicted f).stored := by
  funext id
  unfold evicted flushPage
  rw [hdir, hpages]
  cases s.dir.lookup (s.pages f).pid <;> cases (s.pages f).dirty <;>
    simp [DiskManager.stored, DiskManager.readPage, DiskManager.writePage, hfile]

theorem Shows.newPage (h : s.Shows v) {id : ℕ} {f : Fin n} (hb : s.BitmapBounded)
    (hk : s.KeepsTable .newPage) (hf : s.newPage = (some (id, f), s')) :
    s'.Shows (v.adopt id Block.zero) ∧ s'.dir.lookup id = some f ∧ (s'.pages f).dirty = true := by
  rcases s.newPage_cases with ⟨_, hg⟩ | ⟨j, g, free, lru, hc, ht, hg⟩
  · simp [hf] at hg
  · obtain ⟨⟨rfl, rfl⟩, rfl⟩ := by simpa [hf] using hg
    have hstored := stored_evicted_congr (s := s) (f := f)
      (t := { s with disk := s.chosenDisk, freeList := free, replacer := lru })
      rfl rfl s.chosenDisk_file
    have hr := h.remapped (h.frames.frameTaken ht) (s.remapped_allocFrame f id s.chosenDisk free lru)
      (by simp [allocFrame_eq]) (by simp [allocFrame_eq]) (by simp [allocFrame_eq])
      (hb.chosenId_addressable hc)
      (hk id f hc ht.chosenFrame_eq) (by simpa [allocFrame_eq] using hstored)
      (by simp [allocFrame_eq])
    refine ⟨?_, (s.remapped_allocFrame f id s.chosenDisk free lru).lookup_self, ?_⟩
    · simpa [allocFrame_eq] using hr
    · simp [allocFrame_eq]

/-- Bytes written into the frame of a cached page, which is pinned or already marked dirty. -/
theorem Shows.setBuffer (h : s.Shows v) {id : ℕ} {f : Fin n} (hd : s.dir.lookup id = some f)
    {unsaved : Set ℕ} (hu : ∀ j ∈ v.unsaved, j ∈ unsaved) (hpin : ∀ j ∈ unsaved, v.pins j ≠ 0)
    (hsave : id ∈ unsaved ∨ (s.pages f).dirty = true) (b : PageBlock) :
    (s.setPage f { s.pages f with buffer := b }).Shows
      { v with unsaved := unsaved, bytes := Function.update v.bytes id b } := by
  obtain ⟨hp, hid⟩ := h.frames.pid_of_lookup hd
  have hne : ∀ j g, s.dir.lookup j = some g → j ≠ id → g ≠ f := by
    rintro j g hj hji rfl
    exact hji ((h.frames.pid_of_lookup hj).1.symm.trans hp)
  refine ⟨?_, h.addressable, h.cached_live, hpin, ?_, ?_⟩
  · refine h.frames.congr rfl rfl rfl ?_
    intro g
    by_cases hg : g = f <;> simp [hg]
  · intro j g hj
    by_cases hji : j = id
    · subst hji
      have hgf : f = g := Option.some.inj (hd.symm.trans hj)
      simp [← hgf]
    · simpa [hji, hne j g hj hji] using h.cached j g hj
  · intro j hj hju hc
    have hji : j ≠ id := by
      rintro rfl
      have hclean := hc f hd
      rw [setPage_pages, Function.update_self] at hclean
      rcases hsave with hs | hs
      · exact hju hs
      · rw [hs] at hclean
        cases hclean
    simp only [Function.update_of_ne hji]
    refine h.saved j hj (fun hm => hju (hu j hm)) ?_
    intro g hg
    simpa [hne j g hg hji] using hc g hg

theorem Shows.write (h : s.Shows v) {id : ℕ} {f : Fin n} (hd : s.dir.lookup id = some f)
    (hpin : v.pins id ≠ 0) (b : PageBlock) :
    (s.setPage f { s.pages f with buffer := b }).Shows (v.write id b) := by
  refine h.setBuffer hd (fun j hj => .inr hj) ?_ (.inl (.inl rfl)) b
  rintro j (rfl | hj)
  · exact hpin
  · exact h.unsaved_pinned j hj

/-- Giving a pin back. A page leaves the unsaved set only when it is marked dirty. -/
theorem Shows.unpin (h : s.Shows v) {id : ℕ} {d : Bool} {unsaved : Set ℕ} (hpin : v.pins id ≠ 0)
    (hu : ∀ j ∈ v.unsaved, j ∈ unsaved ∨ (j = id ∧ d = true))
    (hp : ∀ j ∈ unsaved, dropPin v.pins id j ≠ 0) :
    (s.unpin id d).Shows (v.unpin id unsaved) := by
  have hframes := h.frames.unpin d hpin
  cases hd : s.dir.lookup id with
  | none => exact absurd (h.frames.pinned_cached id hd) hpin
  | some f =>
    rw [s.unpin_eq d hd] at hframes ⊢
    refine ⟨hframes, h.addressable, h.cached_live, hp, ?_, ?_⟩
    · intro j g hj
      rw [PageView.unpin, ← h.cached j g hj]
      by_cases hg : g = f <;> simp [hg]
    · intro j hj hju hc
      have hclean : ∀ g, s.dir.lookup j = some g →
          (s.pages g).dirty = false ∧ (g = f → d = false) := by
        intro g hg
        have := hc g hg
        by_cases hgf : g = f
        · subst hgf
          simpa using this
        · simpa [hgf] using this
      refine h.saved j hj ?_ (fun g hg => (hclean g hg).1)
      intro hm
      rcases hu j hm with hm | ⟨rfl, rfl⟩
      · exact hju hm
      · have := (hclean f hd).2 rfl
        cases this

theorem Shows.withDisk (h : s.Shows v) {d : DiskManager}
    (hd : ∀ id ∈ v.live, d.stored id = s.disk.stored id ∨ d.stored id = v.bytes id) :
    { s with disk := d }.Shows v where
  frames := h.frames.congr rfl rfl rfl (fun _ => ⟨rfl, rfl, fun _ => rfl⟩)
  addressable := h.addressable
  cached_live := h.cached_live
  unsaved_pinned := h.unsaved_pinned
  cached := h.cached
  saved id hid hu hc := by
    rcases hd id hid with he | he
    · exact he.trans (h.saved id hid hu hc)
    · exact he

theorem stored_writePage {d : DiskManager} {i id : ℕ} {p b : PageBlock} (hi : Addressable i)
    (hid : Addressable id) (hb : i = id → p = b) :
    (d.writePage i p).stored id = if i = id then b else d.stored id := by
  by_cases he : i = id
  · subst he
    rw [DiskManager.stored_writePage_same, if_pos rfl, hb rfl]
  · rw [if_neg he, DiskManager.stored_writePage_of_ne _ _ (pageOffset_ne hid hi (Ne.symm he))]

/-- `flush_all_page` writes the page with id `id` when its frame is dirty. -/
theorem stored_flushEntries {pages : Fin n → Page} {id : ℕ} (hid : Addressable id) {b : PageBlock}
    (l : List (Sigma fun _ : ℕ => Fin n)) (haddr : ∀ e ∈ l, Addressable e.1)
    (hb : ∀ e ∈ l, e.1 = id → (pages e.2).buffer = b) (d : DiskManager) :
    (flushEntries pages d l).stored id =
      if ∃ e ∈ l, e.1 = id ∧ (pages e.2).dirty = true then b else d.stored id := by
  induction l generalizing d with
  | nil => simp [flushEntries]
  | cons e l ih =>
    have ih := ih (fun e he => haddr e (List.mem_cons_of_mem _ he))
      (fun e he => hb e (List.mem_cons_of_mem _ he))
      (if (pages e.2).dirty then d.writePage e.1 (pages e.2).buffer else d)
    have hstep : (if (pages e.2).dirty then d.writePage e.1 (pages e.2).buffer else d).stored id =
        if e.1 = id ∧ (pages e.2).dirty = true then b else d.stored id := by
      cases hdirty : (pages e.2).dirty
      · simp
      · simp [stored_writePage (haddr e List.mem_cons_self) hid (hb e List.mem_cons_self)]
    rw [flushEntries, List.foldl_cons, ← flushEntries, ih, hstep]
    simp only [List.mem_cons, exists_eq_or_imp]
    by_cases he : e.1 = id ∧ (pages e.2).dirty = true <;> simp [he]

theorem lookup_of_mem_entries {e : Sigma fun _ : ℕ => Fin n} (he : e ∈ s.dir.entries) :
    s.dir.lookup e.1 = some e.2 := AList.mem_lookup_iff.2 he

theorem Shows.flushPage (h : s.Shows v) (id : ℕ) : (s.flushPage id).Shows v := by
  unfold BufferPool.flushPage
  cases hd : s.dir.lookup id with
  | none => exact h
  | some f =>
    refine h.withDisk ?_
    intro j hj
    have hid := h.addressable id (h.cached_live id f hd)
    rw [stored_writePage hid (h.addressable j hj) (fun he => he ▸ h.cached id f hd)]
    split_ifs
    · exact .inr rfl
    · exact .inl rfl

theorem Shows.stored_flushEntries (h : s.Shows v) {id : ℕ} (hid : id ∈ v.live) :
    (flushEntries s.pages s.disk s.dir.entries).stored id =
      if ∃ e ∈ s.dir.entries, e.1 = id ∧ (s.pages e.2).dirty = true then v.bytes id
      else s.disk.stored id := by
  refine BufferPool.stored_flushEntries (h.addressable id hid) _ ?_ ?_ _
  · exact fun e he => h.addressable _ (h.cached_live _ _ (lookup_of_mem_entries he))
  · exact fun e he hi => hi ▸ h.cached _ _ (lookup_of_mem_entries he)

theorem Shows.flushAllPage (h : s.Shows v) : s.flushAllPage.Shows v := by
  refine h.withDisk ?_
  intro id hid
  rw [h.stored_flushEntries hid]
  split_ifs
  · exact .inr rfl
  · exact .inl rfl

/-- After `flush_all_page` the file holds every live page without unsaved bytes. -/
theorem Shows.stored_flushAllPage (h : s.Shows v) {id : ℕ} (hid : id ∈ v.live)
    (hu : id ∉ v.unsaved) : s.flushAllPage.disk.stored id = v.bytes id := by
  unfold BufferPool.flushAllPage
  rw [h.stored_flushEntries hid]
  split_ifs with hx
  · rfl
  · refine h.saved id hid hu ?_
    intro f hf
    have hmem : (⟨id, f⟩ : Sigma fun _ : ℕ => Fin n) ∈ s.dir.entries := AList.mem_lookup_iff.1 hf
    by_contra hdirty
    exact hx ⟨_, hmem, rfl, by simpa using hdirty⟩

theorem Shows.fetch_stored (h : s.Shows v) (i : ℕ) {id : ℕ} (hid : Addressable id)
    (hn : id ∉ v.live) : (s.fetch i).2.disk.stored id = s.disk.stored id := by
  rcases s.fetch_cases i with ⟨g, _, hf⟩ | ⟨_, _, hf⟩ | ⟨g, free, lru, _, _, hf⟩
  · rw [hf]
    rfl
  · rw [hf]
  · have hev := evicted_congr (s := s) (t := { s with freeList := free, replacer := lru })
      rfl rfl rfl g
    rw [hf, loadFrame_eq]
    dsimp only
    rw [hev, h.stored_evicted_of_not_mem g hid hn]

theorem stored_flushAllPage_of_not_cached (h : ∀ id f, s.dir.lookup id = some f → Addressable id)
    {id : ℕ} (hid : Addressable id) (hn : s.dir.lookup id = none) :
    s.flushAllPage.disk.stored id = s.disk.stored id := by
  have hne : ∀ e ∈ s.dir.entries, e.1 ≠ id := by
    rintro e he rfl
    rw [lookup_of_mem_entries he] at hn
    cases hn
  unfold flushAllPage
  dsimp only
  rw [stored_flushEntries hid (b := Block.zero), if_neg]
  · rintro ⟨e, he, hi, _⟩
    exact hne e he hi
  · exact fun e he => h e.1 e.2 (lookup_of_mem_entries he)
  · exact fun e he hi => absurd hi (hne e he)

theorem Shows.flushAllPage_stored (h : s.Shows v) {id : ℕ} (hid : Addressable id)
    (hn : id ∉ v.live) : s.flushAllPage.disk.stored id = s.disk.stored id :=
  stored_flushAllPage_of_not_cached h.cached_addressable hid (h.not_cached hn)

end BufferPool

end Tadis
