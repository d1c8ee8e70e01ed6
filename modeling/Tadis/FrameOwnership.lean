import Tadis.PageTable

/-!
# Ownership of frames

Every frame is on the free list, unpinned and in the replacer, or pinned. `FrameInv s pins` says so
of a pool whose clients hold `pins id` outstanding pins of each page. `fetch`, `new_page` and a
matched `unpin` keep it. A frame that is reused is never a pinned one.
-/

namespace Tadis.BufferPool

variable {n : ℕ}

def addPin (pins : ℕ → ℕ) (id : ℕ) : ℕ → ℕ := Function.update pins id (pins id + 1)

def dropPin (pins : ℕ → ℕ) (id : ℕ) : ℕ → ℕ := Function.update pins id (pins id - 1)

@[simp] theorem dropPin_addPin (pins : ℕ → ℕ) (id : ℕ) : dropPin (addPin pins id) id = pins := by
  simp [dropPin, addPin]

structure FrameInv (s : BufferPool n) (pins : ℕ → ℕ) : Prop where
  linked : s.Linked
  sentinel : s.dir.lookup invalidId = none
  free_nodup : s.freeList.Nodup
  mem_free : ∀ f, f ∈ s.freeList ↔ (s.pages f).pid = invalidId
  free_clean : ∀ f, (s.pages f).pid = invalidId → (s.pages f).dirty = false
  lru : s.replacer.Inv
  lru_capacity : s.replacer.capacity = n
  mem_lru : ∀ f, f ∈ s.replacer.items ↔ (s.pages f).pid ≠ invalidId ∧ (s.pages f).pinCount = 0
  pin_eq : ∀ f, (s.pages f).pid ≠ invalidId → (s.pages f).pinCount = pins (s.pages f).pid
  pinned_cached : ∀ id, s.dir.lookup id = none → pins id = 0

variable {s s' : BufferPool n} {pins : ℕ → ℕ}

theorem FrameInv.pid_of_lookup (h : s.FrameInv pins) {id : ℕ} {f : Fin n}
    (hd : s.dir.lookup id = some f) : (s.pages f).pid = id ∧ id ≠ invalidId := by
  have hid : id ≠ invalidId := by
    rintro rfl
    rw [h.sentinel] at hd
    cases hd
  exact ⟨(h.linked id f hid).1 hd, hid⟩

theorem FrameInv.pinCount_of_lookup (h : s.FrameInv pins) {id : ℕ} {f : Fin n}
    (hd : s.dir.lookup id = some f) : (s.pages f).pinCount = pins id := by
  obtain ⟨hp, hid⟩ := h.pid_of_lookup hd
  rw [h.pin_eq f (by rwa [hp]), hp]

theorem FrameInv.free_not_lru (h : s.FrameInv pins) (f : Fin n) :
    ¬ (f ∈ s.freeList ∧ f ∈ s.replacer.items) := by
  rintro ⟨hf, hl⟩
  exact ((h.mem_lru f).1 hl).1 ((h.mem_free f).1 hf)

/-- What the free list and the replacer look like once `victim` has taken frame `f`. -/
structure FrameTaken (s : BufferPool n) (f : Fin n) (free : List (Fin n))
    (lru : LruReplacer (Fin n)) : Prop where
  free_nodup : free.Nodup
  mem_free : ∀ g, g ∈ free ↔ g ≠ f ∧ g ∈ s.freeList
  lru_inv : lru.Inv
  lru_capacity : lru.capacity = n
  mem_lru : ∀ g, g ∈ lru.items ↔ g ≠ f ∧ g ∈ s.replacer.items
  unpinned : (s.pages f).pid = invalidId ∨ (s.pages f).pinCount = 0

theorem FrameInv.frameTaken (h : s.FrameInv pins) {f : Fin n} {free : List (Fin n)}
    {lru : LruReplacer (Fin n)} (ht : s.TakesFrame f free lru) : s.FrameTaken f free lru := by
  cases ht with
  | free hl =>
    have hnd := h.free_nodup
    rw [hl] at hnd
    have hf : f ∉ free := fun hf => (List.nodup_append.1 hnd).2.2 f hf f (by simp) rfl
    have hpid : (s.pages f).pid = invalidId := (h.mem_free f).1 (by simp [hl])
    have hlru : f ∉ s.replacer.items := fun hm => ((h.mem_lru f).1 hm).1 hpid
    refine ⟨hnd.of_append_left, ?_, h.lru, h.lru_capacity, ?_, .inl hpid⟩
    · intro g
      rw [hl, List.mem_append, List.mem_singleton]
      constructor
      · exact fun hg => ⟨fun he => hf (he ▸ hg), .inl hg⟩
      · exact fun hg => hg.2.resolve_right hg.1
    · exact fun g => ⟨fun hg => ⟨fun he => hlru (he ▸ hg), hg⟩, And.right⟩
  | evict hnil hv =>
    obtain ⟨hinv, hitems, hcap⟩ := h.lru.victim_spec hv
    have hnd := h.lru.items_nodup
    rw [hitems] at hnd
    have hf : f ∉ lru.items := fun hf => (List.nodup_append.1 hnd).2.2 f hf f (by simp) rfl
    have hmem : f ∈ s.replacer.items := by simp [hitems]
    refine ⟨List.nodup_nil, by simp [hnil], hinv, hcap.trans h.lru_capacity, ?_,
      .inr ((h.mem_lru f).1 hmem).2⟩
    intro g
    rw [hitems, List.mem_append, List.mem_singleton]
    constructor
    · exact fun hg => ⟨fun he => hf (he ▸ hg), .inl hg⟩
    · exact fun hg => hg.2.resolve_right hg.1

theorem FrameInv.taken_ne (h : s.FrameInv pins) {f g : Fin n} {free : List (Fin n)}
    {lru : LruReplacer (Fin n)} (hk : s.FrameTaken f free lru) {id : ℕ}
    (hd : s.dir.lookup id = some g) (hpin : pins id ≠ 0) : g ≠ f := by
  rintro rfl
  obtain ⟨hp, hid⟩ := h.pid_of_lookup hd
  rcases hk.unpinned with hu | hu
  · exact hid (hp.symm.trans hu)
  · exact hpin ((h.pinCount_of_lookup hd).symm.trans hu)

/-- Giving a reusable frame to page `id` and pinning it once. -/
theorem FrameInv.remapped (h : s.FrameInv pins) {f : Fin n} {free : List (Fin n)}
    {lru : LruReplacer (Fin n)} {id : ℕ} (hk : s.FrameTaken f free lru) (hr : s.Remapped s' f id)
    (hfree : s'.freeList = free) (hlru : s'.replacer = lru) (hpin : (s'.pages f).pinCount = 1)
    (hid : id ≠ invalidId) (hn : s.dir.lookup id = none ∨ s.dir.lookup id = some f) :
    s'.FrameInv (addPin pins id) := by
  have hzero : pins id = 0 := by
    by_contra hne
    rcases hn with hn | hn
    · exact hne (h.pinned_cached id hn)
    · exact h.taken_ne hk hn hne rfl
  have hpid : ∀ g, g ≠ f → (s.pages g).pid ≠ id := by
    intro g hg hp
    have hl := (h.linked id g hid).2 hp
    rcases hn with hn | hn
    · rw [hn] at hl
      cases hl
    · exact hg (Option.some.inj (hl.symm.trans hn))
  refine ⟨h.linked.remapped hr (fun _ => hn), ?_, ?_, ?_, ?_, ?_, ?_, ?_, ?_, ?_⟩
  · by_cases hp : (s.pages f).pid = invalidId
    · rw [← hp, hr.lookup_old (by rwa [hp, ne_comm])]
    · rw [hr.lookup_of_ne _ (Ne.symm hid) (Ne.symm hp), h.sentinel]
  · rw [hfree]
    exact hk.free_nodup
  · intro g
    rw [hfree, hk.mem_free]
    by_cases hg : g = f
    · simp [hg, hr.pid_self, hid]
    · simp [hg, hr.pages_ne g hg, h.mem_free]
  · intro g hg
    by_cases hgf : g = f
    · rw [hgf, hr.pid_self] at hg
      exact absurd hg hid
    · rw [hr.pages_ne g hgf] at hg ⊢
      exact h.free_clean g hg
  · rw [hlru]
    exact hk.lru_inv
  · rw [hlru]
    exact hk.lru_capacity
  · intro g
    rw [hlru, hk.mem_lru]
    by_cases hg : g = f
    · simp [hg, hpin]
    · simp [hg, hr.pages_ne g hg, h.mem_lru]
  · intro g hg
    by_cases hgf : g = f
    · rw [hgf, hr.pid_self, hpin]
      simp [addPin, hzero]
    · rw [hr.pages_ne g hgf] at hg ⊢
      rw [h.pin_eq g hg, addPin, Function.update_of_ne (hpid g hgf)]
  · intro j hj
    have hji : j ≠ id := by
      rintro rfl
      rw [hr.lookup_self] at hj
      cases hj
    rw [addPin, Function.update_of_ne hji]
    by_cases hold : j = (s.pages f).pid
    · subst hold
      rcases hk.unpinned with hu | hu
      · exact h.pinned_cached _ (hu ▸ h.sentinel)
      · by_cases hi : (s.pages f).pid = invalidId
        · exact h.pinned_cached _ (hi ▸ h.sentinel)
        · rw [← h.pin_eq f hi, hu]
    · rw [hr.lookup_of_ne j hji hold] at hj
      exact h.pinned_cached j hj

/-- An update that leaves the directory, both lists and every page's id and pin count alone. -/
theorem FrameInv.congr (h : s.FrameInv pins) (hdir : s'.dir = s.dir)
    (hfree : s'.freeList = s.freeList) (hlru : s'.replacer = s.replacer)
    (hpage : ∀ f, (s'.pages f).pid = (s.pages f).pid ∧
      (s'.pages f).pinCount = (s.pages f).pinCount ∧
      ((s.pages f).pid = invalidId → (s'.pages f).dirty = (s.pages f).dirty)) :
    s'.FrameInv pins := by
  refine ⟨h.linked.congr hdir (fun f => (hpage f).1), by rw [hdir, h.sentinel],
    by rw [hfree]; exact h.free_nodup, ?_, ?_, by rw [hlru]; exact h.lru,
    by rw [hlru, h.lru_capacity], ?_, ?_, ?_⟩
  · intro f
    rw [hfree, (hpage f).1, h.mem_free]
  · intro f hf
    rw [(hpage f).1] at hf
    rw [(hpage f).2.2 hf, h.free_clean f hf]
  · intro f
    rw [hlru, (hpage f).1, (hpage f).2.1, h.mem_lru]
  · intro f hf
    rw [(hpage f).1] at hf ⊢
    rw [(hpage f).2.1, h.pin_eq f hf]
  · intro id hd
    exact h.pinned_cached id (hdir ▸ hd)

theorem FrameInv.withReplacer (h : s.FrameInv pins) {r : LruReplacer (Fin n)} (hr : r.Inv)
    (hcap : r.capacity = n) (hmem : ∀ f, f ∈ r.items ↔ f ∈ s.replacer.items) :
    { s with replacer := r }.FrameInv pins where
  linked := h.linked.congr rfl (fun _ => rfl)
  sentinel := h.sentinel
  free_nodup := h.free_nodup
  mem_free := h.mem_free
  free_clean := h.free_clean
  lru := hr
  lru_capacity := hcap
  mem_lru f := (hmem f).trans (h.mem_lru f)
  pin_eq := h.pin_eq
  pinned_cached := h.pinned_cached

theorem FrameInv.pinFrame (h : s.FrameInv pins) {id : ℕ} {f : Fin n}
    (hd : s.dir.lookup id = some f) (hlt : pins id + 1 < 2 ^ 64) :
    (s.pinFrame f).FrameInv (addPin pins id) := by
  obtain ⟨hp, hid⟩ := h.pid_of_lookup hd
  have hinc : sizeInc (s.pages f).pinCount = pins id + 1 := by
    rw [h.pinCount_of_lookup hd, sizeInc_of_lt hlt]
  have hpage : ∀ g, ((s.pinFrame f).pages g).pid = (s.pages g).pid := by
    intro g
    by_cases hg : g = f <;> simp [BufferPool.pinFrame, hg]
  have hitems : (s.pinFrame f).replacer.items = s.replacer.items.erase f := h.lru.items_remove f
  refine ⟨h.linked.congr (by rfl) hpage, h.sentinel, h.free_nodup, ?_, ?_, h.lru.remove_inv f,
    (LruReplacer.capacity_remove f).trans h.lru_capacity, ?_, ?_, ?_⟩
  · intro g
    rw [hpage]
    exact h.mem_free g
  · intro g hg
    rw [hpage] at hg
    have hgf : g ≠ f := by
      rintro rfl
      exact hid (hp.symm.trans hg)
    simpa [BufferPool.pinFrame, hgf] using h.free_clean g hg
  · intro g
    rw [hitems, h.lru.items_nodup.mem_erase_iff, hpage, h.mem_lru]
    by_cases hg : g = f <;> simp [BufferPool.pinFrame, hg, hinc]
  · intro g hg
    rw [hpage] at hg ⊢
    by_cases hgf : g = f
    · subst hgf
      simp [BufferPool.pinFrame, hp, addPin, hinc]
    · have hne : (s.pages g).pid ≠ id := by
        intro he
        have hpf : (s.pages f).pid ≠ invalidId := by rwa [hp]
        exact hgf (h.linked.frame_unique hpf (hp.trans he.symm)).symm
      simp [BufferPool.pinFrame, hgf, addPin, hne, h.pin_eq g hg]
  · intro j hj
    have hji : j ≠ id := by
      rintro rfl
      rw [show (s.pinFrame f).dir = s.dir from rfl, hd] at hj
      cases hj
    rw [addPin, Function.update_of_ne hji]
    exact h.pinned_cached j hj

theorem FrameInv.fetch (h : s.FrameInv pins) {id : ℕ} {f : Fin n} (hid : id ≠ invalidId)
    (hlt : pins id + 1 < 2 ^ 64) (hf : s.fetch id = (some f, s')) :
    s'.FrameInv (addPin pins id) ∧ s'.dir.lookup id = some f := by
  rcases s.fetch_cases id with ⟨g, hd, hg⟩ | ⟨_, _, hg⟩ | ⟨g, free, lru, hn, ht, hg⟩
  · obtain ⟨rfl, rfl⟩ := by simpa [hf] using hg
    exact ⟨h.pinFrame hd hlt, hd⟩
  · simp [hf] at hg
  · obtain ⟨rfl, rfl⟩ := by simpa [hf] using hg
    have hr := s.remapped_loadFrame f id free lru
    refine ⟨h.remapped (h.frameTaken ht) hr ?_ ?_ ?_ hid (.inl hn), hr.lookup_self⟩ <;> simp [loadFrame_eq]

theorem fetch_none_eq {id : ℕ} (hf : s.fetch id = (none, s')) : s' = s := by
  rcases s.fetch_cases id with ⟨g, _, hg⟩ | ⟨_, _, hg⟩ | ⟨g, free, lru, _, _, hg⟩
  · simp [hf] at hg
  · simpa [hf] using hg
  · simp [hf] at hg

theorem FrameInv.newPage (h : s.FrameInv pins) {id : ℕ} {f : Fin n}
    (hb : s.BitmapBounded) (hk : s.KeepsTable .newPage) (hf : s.newPage = (some (id, f), s')) :
    s'.FrameInv (addPin pins id) ∧ s'.dir.lookup id = some f ∧ s.chosenId = some id := by
  rcases s.newPage_cases with ⟨_, hg⟩ | ⟨j, g, free, lru, hc, ht, hg⟩
  · simp [hf] at hg
  · obtain ⟨⟨rfl, rfl⟩, rfl⟩ := by simpa [hf] using hg
    have hr := s.remapped_allocFrame f id s.chosenDisk free lru
    have hn := hk id f hc ht.chosenFrame_eq
    refine ⟨h.remapped (h.frameTaken ht) hr ?_ ?_ ?_ (hb.chosenId_addressable hc).ne_invalid hn,
      hr.lookup_self, hc⟩ <;>
      simp [allocFrame_eq]

theorem newPage_none_eq (hf : s.newPage = (none, s')) : s' = { s with disk := s.chosenDisk } := by
  rcases s.newPage_cases with ⟨_, hg⟩ | ⟨id, g, free, lru, _, _, hg⟩
  · simpa [hf] using hg
  · simp [hf] at hg

theorem FrameInv.lru_room (h : s.FrameInv pins) {f : Fin n} (hf : f ∉ s.replacer.items) :
    s.replacer.items.length < s.replacer.capacity := by
  have hnd : (f :: s.replacer.items).Nodup := List.nodup_cons.2 ⟨hf, h.lru.items_nodup⟩
  have hle := hnd.length_le_card
  rw [Fintype.card_fin, List.length_cons] at hle
  rw [h.lru_capacity]
  omega

theorem FrameInv.unpin (h : s.FrameInv pins) {id : ℕ} (d : Bool) (hpin : pins id ≠ 0) :
    (s.unpin id d).FrameInv (dropPin pins id) := by
  obtain ⟨f, hd⟩ : ∃ f, s.dir.lookup id = some f := by
    cases hd : s.dir.lookup id with
    | none => exact absurd (h.pinned_cached id hd) hpin
    | some f => exact ⟨f, rfl⟩
  obtain ⟨hp, hid⟩ := h.pid_of_lookup hd
  have hcount := h.pinCount_of_lookup hd
  have hdec : sizeDec (s.pages f).pinCount = pins id - 1 := by
    rw [hcount, sizeDec_of_pos (Nat.pos_of_ne_zero hpin)]
  have hnot : f ∉ s.replacer.items := fun hm => hpin (hcount.symm.trans ((h.mem_lru f).1 hm).2)
  have hput := h.lru.put_spec (t := f) (.inr (h.lru_room hnot))
  rw [s.unpin_eq d hd, hdec]
  have hpage : ∀ g, (Function.update s.pages f { s.pages f with
      dirty := (s.pages f).dirty || d, pinCount := pins id - 1 } g).pid = (s.pages g).pid := by
    intro g
    by_cases hg : g = f <;> simp [hg]
  refine ⟨h.linked.congr (by rfl) hpage, h.sentinel, h.free_nodup, ?_, ?_, ?_, ?_, ?_, ?_, ?_⟩
  · intro g
    rw [hpage]
    exact h.mem_free g
  · intro g hg
    rw [hpage] at hg
    have hgf : g ≠ f := by
      rintro rfl
      exact hid (hp.symm.trans hg)
    simpa [hgf] using h.free_clean g hg
  · dsimp only
    split
    · exact hput.1
    · exact h.lru
  · dsimp only
    split
    · exact (LruReplacer.capacity_put f).trans h.lru_capacity
    · exact h.lru_capacity
  · intro g
    rw [hpage]
    by_cases hgf : g = f
    · subst hgf
      by_cases hz : pins id - 1 = 0
      · simp [hz, hput.2, hp, hid]
      · simp [hz, hnot]
    · by_cases hz : pins id - 1 = 0
      · simp [hz, hput.2, hgf, List.mem_erase_of_ne, h.mem_lru]
      · simp [hz, hgf, h.mem_lru]
  · intro g hg
    rw [hpage] at hg ⊢
    by_cases hgf : g = f
    · subst hgf
      simp [hp, dropPin]
    · have hne : (s.pages g).pid ≠ id := by
        intro he
        have hpf : (s.pages f).pid ≠ invalidId := by rwa [hp]
        exact hgf (h.linked.frame_unique hpf (hp.trans he.symm)).symm
      simp [hgf, dropPin, hne, h.pin_eq g hg]
  · intro j hj
    have hji : j ≠ id := by
      rintro rfl
      exact absurd hj (by simp [hd])
    rw [dropPin, Function.update_of_ne hji]
    exact h.pinned_cached j hj

/-- The frame of a pinned page and its directory entry survive a call that remaps frames. -/
def FrameKept (s s' : BufferPool n) (id : ℕ) (f : Fin n) : Prop :=
  s'.dir.lookup id = some f ∧ s'.pages f = s.pages f

theorem FrameInv.remap_keeps (h : s.FrameInv pins) {f g : Fin n} {free : List (Fin n)}
    {lru : LruReplacer (Fin n)} {id j : ℕ} (ht : s.TakesFrame g free lru) (hr : s.Remapped s' g j)
    (hd : s.dir.lookup id = some f) (hpin : pins id ≠ 0) (hj : j ≠ id) : s.FrameKept s' id f := by
  have hne := h.taken_ne (h.frameTaken ht) hd hpin
  obtain ⟨hp, hid⟩ := h.pid_of_lookup hd
  have hold : id ≠ (s.pages g).pid := by
    intro he
    exact hne (h.linked.frame_unique (by rwa [hp]) (hp.trans he))
  exact ⟨(hr.lookup_of_ne id (Ne.symm hj) hold).trans hd, hr.pages_ne f hne⟩

theorem FrameInv.fetch_keeps (h : s.FrameInv pins) {f : Fin n} {id j : ℕ}
    (hd : s.dir.lookup id = some f) (hpin : pins id ≠ 0) (hj : j ≠ id) :
    s.FrameKept (s.fetch j).2 id f := by
  rcases s.fetch_cases j with ⟨g, hg, hf⟩ | ⟨_, _, hf⟩ | ⟨g, free, lru, _, ht, hf⟩
  · have hgf : f ≠ g := by
      rintro rfl
      exact hj ((h.pid_of_lookup hg).1.symm.trans (h.pid_of_lookup hd).1)
    rw [hf]
    exact ⟨hd, by simp [BufferPool.pinFrame, hgf]⟩
  · rw [hf]
    exact ⟨hd, rfl⟩
  · rw [hf]
    exact h.remap_keeps ht (s.remapped_loadFrame g j free lru) hd hpin hj

theorem FrameInv.fetch_lookup (h : s.FrameInv pins) {f : Fin n} {id : ℕ}
    (hd : s.dir.lookup id = some f) (hpin : pins id ≠ 0) (j : ℕ) :
    (s.fetch j).2.dir.lookup id = some f := by
  by_cases hj : j = id
  · subst hj
    have hf : s.fetch j = (some f, s.pinFrame f) := by simp only [BufferPool.fetch, hd]
    rw [hf]
    exact hd
  · exact (h.fetch_keeps hd hpin hj).1

theorem FrameInv.newPage_keeps (h : s.FrameInv pins) {f : Fin n} {id : ℕ}
    (hd : s.dir.lookup id = some f) (hpin : pins id ≠ 0) (hk : s.KeepsTable .newPage) :
    s.FrameKept s.newPage.2 id f ∧ ∀ j g, s.newPage.1 = some (j, g) → j ≠ id := by
  rcases s.newPage_cases with ⟨_, hf⟩ | ⟨j, g, free, lru, hc, ht, hf⟩
  · rw [hf]
    exact ⟨⟨hd, rfl⟩, fun _ _ hn => by cases hn⟩
  · have hj : j ≠ id := by
      rintro rfl
      rcases hk j g hc ht.chosenFrame_eq with hn | hn
      · rw [hn] at hd
        cases hd
      · have hfg : f = g := Option.some.inj (hd.symm.trans hn)
        exact h.taken_ne (h.frameTaken ht) hd hpin hfg
    rw [hf]
    refine ⟨h.remap_keeps ht (s.remapped_allocFrame g j s.chosenDisk free lru) hd hpin hj, ?_⟩
    intro k l hkl
    obtain ⟨rfl, rfl⟩ := by simpa using hkl
    exact hj

/-- With a frame that no client has pinned, `victim` succeeds. -/
theorem FrameInv.exists_takesFrame (h : s.FrameInv pins) {f : Fin n}
    (hf : (s.pages f).pid = invalidId ∨ (s.pages f).pinCount = 0) :
    ∃ g free lru, s.TakesFrame g free lru := by
  have hv : s.victim ≠ none := by
    rw [Ne, victim_eq_none_iff]
    rintro ⟨hfree, hlru⟩
    have hmem : (s.pages f).pid ≠ invalidId := by
      rw [Ne, ← h.mem_free, hfree]
      exact List.not_mem_nil
    have : f ∈ s.replacer.items := (h.mem_lru f).2 ⟨hmem, hf.resolve_left hmem⟩
    rw [hlru] at this
    cases this
  obtain ⟨x, hx⟩ := Option.ne_none_iff_exists'.1 hv
  obtain ⟨free, lru, ht, _⟩ := victim_eq_some hx
  exact ⟨x.1, free, lru, ht⟩

theorem frameInv_openedPool (m : ℕ) (file : File) (r : Bool × BFPHeaderPage × Page)
    (hp : r.2.2.pid = 0) : (openedPool m file r).FrameInv (fun _ => 0) := by
  have hz : invalidId ≠ 0 := by decide
  have hput := (LruReplacer.inv_create (m + 1)).put_spec (t := Fin.last m)
    (.inr (by rw [LruReplacer.items_create]; exact Nat.succ_pos m))
  have hnd : (List.finRange (m + 1)).dropLast ++ [Fin.last m] = List.finRange (m + 1) := by
    rw [List.finRange_succ_last]
    simp
  have hmem : ∀ f, f ∈ (List.finRange (m + 1)).dropLast ↔ f ≠ Fin.last m := by
    intro f
    have hfull : f ∈ (List.finRange (m + 1)).dropLast ++ [Fin.last m] := by
      rw [hnd]
      exact List.mem_finRange f
    have hdis := (List.nodup_append.1 (hnd ▸ List.nodup_finRange (m + 1))).2.2
    constructor
    · exact fun hf he => hdis f hf (Fin.last m) (by simp) he
    · intro hne
      simpa [hne] using hfull
  have hpage : ∀ f, ((openedPool m file r).pages f).pid = if f = Fin.last m then 0 else invalidId := by
    intro f
    by_cases hf : f = Fin.last m <;> simp [openedPool, hf, hp]
  refine ⟨linked_openedPool m file r hp, ?_, ?_, ?_, ?_, hput.1, LruReplacer.capacity_put _, ?_, ?_,
    fun _ _ => rfl⟩
  · simp [openedPool, lookup_singleton, hz]
  · exact (List.nodup_finRange (m + 1)).sublist (List.dropLast_sublist _)
  · intro f
    rw [hpage]
    refine (hmem f).trans ?_
    by_cases hf : f = Fin.last m <;> simp [hf, Ne.symm hz]
  · intro f hf
    rw [hpage] at hf
    by_cases hl : f = Fin.last m
    · simp [hl, Ne.symm hz] at hf
    · simp [openedPool, hl]
  · intro f
    rw [hpage, show (openedPool m file r).replacer = (LruReplacer.create (m + 1)).put (Fin.last m) from
      rfl, hput.2]
    by_cases hf : f = Fin.last m <;> simp [hf, openedPool, Ne.symm hz]
  · intro f hf
    rw [hpage] at hf
    by_cases hl : f = Fin.last m
    · simp [openedPool, hl]
    · simp [hl] at hf

end Tadis.BufferPool
