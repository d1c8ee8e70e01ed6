import Tadis.Sessions
import Tadis.TableState

/-!
# Pools with a frame for every page

As long as every page finds a frame of its own nothing is evicted, and what a pool shows no longer
depends on its pins: neither on those that nobody gives back nor on a count that has wrapped below
zero. One more frame is set aside for page 1, which is loaded before it is allocated when an empty
heap is scanned, and once more when it is allocated.
-/

namespace Tadis.BufferPool

variable {n : ℕ} {s s' : BufferPool n} {k k' id : ℕ} {f : Fin n} {bytes : ℕ → PageBlock}

/-- Every frame is free, caches an allocated page, or is the one set aside. -/
def Places (s : BufferPool n) (k : ℕ) (spare : Option (Fin n)) : Prop :=
  ∀ f, f ∈ s.freeList ∨ (∃ id ≤ k, s.dir.lookup id = some f) ∨ spare = some f

/-- Pages `0, …, k` have the given bytes, and no frame has been used twice. Page 1 may be cached
before it is allocated. -/
structure Resident (s : BufferPool n) (k : ℕ) (bytes : ℕ → PageBlock) : Prop where
  dense : s.Dense k
  own : s.CachesOwn
  cached_le : ∀ id f, s.dir.lookup id = some f → id ≤ max k 1
  cached : ∀ id f, s.dir.lookup id = some f → (s.pages f).buffer = bytes id
  saved : ∀ id ≤ k, (∀ f, s.dir.lookup id = some f → (s.pages f).dirty = false) →
    s.disk.stored id = bytes id
  free_nodup : s.freeList.Nodup
  free_clean : ∀ f ∈ s.freeList, (s.pages f).pid = invalidId ∧ (s.pages f).dirty = false
  blank : k = 0 → s.disk.stored 1 = Block.zero
  spare_clean : k = 0 → ∀ f, s.dir.lookup 1 = some f → (s.pages f).dirty = false
  places : ∃ spare, (k = 0 → spare = s.dir.lookup 1) ∧ s.Places k spare

theorem Dense.lt_limit (h : s.Dense k) : k < bfpMaxPageNum + 8 := by
  have hb := h.allocates.bounded
  unfold BitmapBounded at hb
  rw [h.bitmap_length] at hb
  unfold bfpMaxPageNum pageSize at *
  omega

theorem Resident.addressable (h : s.Resident k bytes) (hid : id ≤ max k 1) : Addressable id := by
  have hk := h.dense.lt_limit
  unfold bfpMaxPageNum pageSize at hk
  unfold Addressable pageSize
  omega

theorem Resident.cachesAddressable (h : s.Resident k bytes) : s.CachesAddressable :=
  fun id f hf => h.addressable (h.cached_le id f hf)

theorem Resident.not_free (h : s.Resident k bytes) (hd : s.dir.lookup id = some f) :
    f ∉ s.freeList := by
  intro hf
  have hinv := (h.free_clean f hf).1
  rw [h.own id f hd] at hinv
  exact (h.addressable (h.cached_le id f hd)).ne_invalid hinv

/-- Without a free frame, the cached pages and the spare frame account for all frames. -/
theorem Places.le_card {spare : Option (Fin n)} (h : s.Places k spare) (hfree : s.freeList = [])
    (ids : Finset ℕ) (hids : ∀ id ≤ k, s.dir.lookup id ≠ none → id ∈ ids) :
    n ≤ ids.card + (if spare = none then 0 else 1) := by
  have hsub : Finset.univ.image some ⊆ ids.image s.dir.lookup ∪ (if spare = none then ∅ else {spare})
      := by
    intro x hx
    obtain ⟨f, _, rfl⟩ := Finset.mem_image.1 hx
    rcases h f with hf | ⟨id, hid, hd⟩ | hf
    · rw [hfree] at hf
      cases hf
    · refine Finset.mem_union_left _ (Finset.mem_image.2 ⟨id, hids id hid ?_, hd⟩)
      rw [hd]
      exact Option.some_ne_none f
    · refine Finset.mem_union_right _ ?_
      rw [hf, if_neg (Option.some_ne_none f), Finset.mem_singleton]
  have hcard := Finset.card_le_card hsub
  rw [Finset.card_image_of_injective _ (Option.some_injective _), Finset.card_univ,
    Fintype.card_fin] at hcard
  refine hcard.trans ((Finset.card_union_le _ _).trans ?_)
  refine Nat.add_le_add Finset.card_image_le ?_
  split <;> simp

theorem Resident.card_cached_le (h : s.Resident k bytes) (hfree : s.freeList = []) (ids : Finset ℕ)
    (hids : ∀ id ≤ k, s.dir.lookup id ≠ none → id ∈ ids) : n ≤ ids.card + 1 := by
  obtain ⟨spare, _, hplaces⟩ := h.places
  refine (hplaces.le_card hfree ids hids).trans (Nat.add_le_add_left ?_ _)
  split <;> simp

theorem Resident.free_of_miss (h : s.Resident k bytes) (hn : k + 2 ≤ n) (hid : id ≤ k)
    (hd : s.dir.lookup id = none) : s.freeList ≠ [] := by
  intro hfree
  have hle := h.card_cached_le hfree ((Finset.range (k + 1)).erase id) fun j hj hne => by
    refine Finset.mem_erase.2 ⟨?_, Finset.mem_range.2 (by omega)⟩
    rintro rfl
    exact hne hd
  rw [Finset.card_erase_of_mem (Finset.mem_range.2 (by omega)), Finset.card_range] at hle
  omega

theorem Resident.free_of_room (h : s.Resident k bytes) (hn : k + 3 ≤ n) : s.freeList ≠ [] := by
  intro hfree
  have hle := h.card_cached_le hfree (Finset.range (k + 1)) fun j hj _ =>
    Finset.mem_range.2 (by omega)
  rw [Finset.card_range] at hle
  omega

theorem Resident.free_of_empty (h : s.Resident 0 bytes) (hn : 2 ≤ n) (hd : s.dir.lookup 1 = none) :
    s.freeList ≠ [] := by
  intro hfree
  obtain ⟨spare, hspare, hplaces⟩ := h.places
  have hle := hplaces.le_card hfree {0} fun j hj _ => by simpa using hj
  rw [hspare rfl, hd, if_pos rfl, Finset.card_singleton] at hle
  omega

theorem TakesFrame.of_free {free : List (Fin n)} {lru : LruReplacer (Fin n)}
    (h : s.TakesFrame f free lru) (hne : s.freeList ≠ []) :
    s.freeList = free ++ [f] ∧ lru = s.replacer := by
  cases h with
  | free h => exact ⟨h, rfl⟩
  | evict hf _ => exact absurd hf hne

theorem victim_of_free (hne : s.freeList ≠ []) : s.victim ≠ none := by
  rw [Ne, victim_eq_none_iff]
  exact fun h => hne h.1

theorem Resident.evicted_eq (h : s.Resident k bytes) (hf : f ∈ s.freeList) :
    s.evicted f = s.disk := by
  rw [evicted, (h.free_clean f hf).2]
  rfl

theorem Resident.remapped (h : s.Resident k bytes) {free : List (Fin n)}
    (hfree : s.freeList = free ++ [f]) (hr : s.Remapped s' f id) (hfree' : s'.freeList = free)
    (hstored : s'.disk.stored = s.disk.stored) (hdense : s'.Dense k') (hk : k ≤ k')
    (hle : ∀ j ≤ k', j ≠ id → j ≤ k) (hid : id ≤ max k' 1)
    (hclean : (s'.pages f).dirty = false → id ≤ k' → s.disk.stored id = (s'.pages f).buffer)
    (hspare : k' = 0 → id = 1 → (s'.pages f).dirty = false)
    (hplaces : ∃ spare, (k' = 0 → spare = s'.dir.lookup 1) ∧ s'.Places k' spare) :
    s'.Resident k' (Function.update bytes id (s'.pages f).buffer) := by
  have hmem : f ∈ s.freeList := by simp [hfree]
  have hinv := (h.free_clean f hmem).1
  have hlookup : ∀ j, j ≤ max k' 1 → j ≠ id → s'.dir.lookup j = s.dir.lookup j := by
    intro j hj hne
    refine hr.lookup_of_ne j hne ?_
    rw [hinv]
    have hk' := hdense.lt_limit
    unfold bfpMaxPageNum pageSize at hk'
    unfold invalidId
    omega
  have hcached : ∀ j g, s'.dir.lookup j = some g → j ≠ id → s.dir.lookup j = some g := by
    intro j g hj hne
    by_cases hold : j = (s.pages f).pid
    · subst hold
      rw [hr.lookup_old hne] at hj
      cases hj
    · rwa [hr.lookup_of_ne j hne hold] at hj
  have hne : ∀ j g, s.dir.lookup j = some g → g ≠ f := by
    rintro j g hj rfl
    exact h.not_free hj hmem
  refine ⟨hdense, h.own.remapped hr, ?_, ?_, ?_, ?_, ?_, ?_, ?_, hplaces⟩
  · intro j g hj
    by_cases hji : j = id
    · exact hji ▸ hid
    · exact (h.cached_le j g (hcached j g hj hji)).trans (max_le_max hk le_rfl)
  · intro j g hj
    by_cases hji : j = id
    · subst hji
      rw [hr.lookup_self] at hj
      rw [Function.update_self, Option.some.inj hj]
    · have hold := hcached j g hj hji
      rw [Function.update_of_ne hji, hr.pages_ne g (hne j g hold), h.cached j g hold]
  · intro j hj hc
    rw [hstored]
    by_cases hji : j = id
    · subst hji
      rw [Function.update_self, hclean (hc f hr.lookup_self) hj]
    · rw [Function.update_of_ne hji]
      refine h.saved j (hle j hj hji) fun g hg => ?_
      rw [← hr.pages_ne g (hne j g hg)]
      exact hc g ((hlookup j (hj.trans (le_max_left _ _)) hji).trans hg)
  · have hnd := h.free_nodup
    rw [hfree] at hnd
    rw [hfree']
    exact (List.nodup_append.1 hnd).1
  · intro g hg
    have hgf : g ≠ f := by
      have hnd := h.free_nodup
      rw [hfree] at hnd
      rintro rfl
      exact (List.nodup_append.1 hnd).2.2 g (hfree' ▸ hg) g (by simp) rfl
    rw [hr.pages_ne g hgf]
    refine h.free_clean g ?_
    rw [hfree]
    exact List.mem_append_left _ (hfree' ▸ hg)
  · intro h0
    rw [hstored]
    exact h.blank (by omega)
  · intro h0 g hg
    by_cases h1 : 1 = id
    · subst h1
      rw [hr.lookup_self] at hg
      rw [← Option.some.inj hg]
      exact hspare h0 rfl
    · have hold := hcached 1 g hg h1
      rw [hr.pages_ne g (hne 1 g hold)]
      exact h.spare_clean (by omega) g hold

/-- An update of one frame that leaves its page id, and its buffer unless `bytes` says so. -/
theorem Resident.congr (h : s.Resident k bytes) (hdir : s'.dir = s.dir)
    (hfree : s'.freeList = s.freeList) (hhead : s'.head = s.head)
    (hnext : s'.disk.nextPid = s.disk.nextPid) (hclosed : s'.closed = s.closed)
    (hstored : s'.disk.stored = s.disk.stored)
    (hpages : ∀ g, (s'.pages g).pid = (s.pages g).pid ∧ (s'.pages g).buffer = (s.pages g).buffer ∧
      (s'.pages g).dirty = (s.pages g).dirty) : s'.Resident k bytes where
  dense := h.dense.congr hhead hnext hclosed
  own := h.own.congr hdir fun g => (hpages g).1
  cached_le id g hg := h.cached_le id g (hdir ▸ hg)
  cached id g hg := by
    rw [(hpages g).2.1]
    exact h.cached id g (hdir ▸ hg)
  saved id hid hc := by
    rw [hstored]
    refine h.saved id hid fun g hg => ?_
    rw [← (hpages g).2.2]
    exact hc g (hdir ▸ hg)
  free_nodup := hfree ▸ h.free_nodup
  free_clean g hg := by
    rw [(hpages g).1, (hpages g).2.2]
    exact h.free_clean g (hfree ▸ hg)
  blank h0 := by
    rw [hstored]
    exact h.blank h0
  spare_clean h0 g hg := by
    rw [(hpages g).2.2]
    exact h.spare_clean h0 g (hdir ▸ hg)
  places := by
    obtain ⟨spare, hspare, hplaces⟩ := h.places
    refine ⟨spare, fun h0 => hdir ▸ hspare h0, fun g => ?_⟩
    rw [hfree, hdir]
    exact hplaces g

/-- New bytes in the frame of a cached page, which is marked dirty if it is allocated. -/
theorem Resident.rewritten (h : s.Resident k bytes) (hd : s.dir.lookup id = some f) {p : Page}
    (hpid : p.pid = (s.pages f).pid) (hdirty : id ≤ k → p.dirty = true)
    (hspare : k < id → p.dirty = (s.pages f).dirty) :
    (s.setPage f p).Resident k (Function.update bytes id p.buffer) := by
  have hne : ∀ j g, s.dir.lookup j = some g → j ≠ id → g ≠ f := by
    rintro j g hj hji rfl
    exact hji ((h.own j g hj).symm.trans (h.own id g hd))
  refine ⟨h.dense.setPage f p, h.own.congr rfl fun g => ?_, h.cached_le, ?_, ?_, h.free_nodup, ?_,
    h.blank, ?_, h.places⟩
  · by_cases hg : g = f
    · rw [hg, setPage_pages, Function.update_self, hpid]
    · rw [setPage_pages, Function.update_of_ne hg]
  · intro j g hj
    by_cases hji : j = id
    · subst hji
      obtain rfl : f = g := Option.some.inj (hd.symm.trans hj)
      simp
    · rw [Function.update_of_ne hji, setPage_pages, Function.update_of_ne (hne j g hj hji)]
      exact h.cached j g hj
  · intro j hj hc
    have hji : j ≠ id := by
      rintro rfl
      have hclean := hc f hd
      rw [setPage_pages, Function.update_self, hdirty hj] at hclean
      cases hclean
    rw [Function.update_of_ne hji]
    refine h.saved j hj fun g hg => ?_
    have hclean := hc g hg
    rwa [setPage_pages, Function.update_of_ne (hne j g hg hji)] at hclean
  · intro g hg
    have hgf : g ≠ f := by
      rintro rfl
      exact h.not_free hd hg
    rw [setPage_pages, Function.update_of_ne hgf]
    exact h.free_clean g hg
  · intro h0 g hg
    by_cases hgf : g = f
    · have h1 : 1 = id := (h.own 1 g hg).symm.trans (hgf ▸ h.own id f hd)
      rw [hgf, setPage_pages, Function.update_self, hspare (by omega), ← hgf]
      exact h.spare_clean h0 g hg
    · rw [setPage_pages, Function.update_of_ne hgf]
      exact h.spare_clean h0 g hg

theorem Resident.unpin_clean (h : s.Resident k bytes) (id : ℕ) :
    (s.unpin id false).Resident k bytes := by
  refine h.congr (unpin_dir s id false) ?_ (unpin_head s id false) (unpin_nextPid id false)
    (unpin_closed id false) (by rw [unpin_disk]) fun g => ?_
  · cases hd : s.dir.lookup id with
    | none => rw [s.unpin_of_not_cached false hd]
    | some f => rw [s.unpin_eq false hd]
  · cases hd : s.dir.lookup id with
    | none => simp [s.unpin_of_not_cached false hd]
    | some f =>
      rw [s.unpin_eq false hd]
      by_cases hg : g = f <;> simp [hg]

/-- The bytes written into the frame of a page are there after an `unpin` that marks it dirty. -/
theorem Resident.write (h : s.Resident k bytes) (hd : s.dir.lookup id = some f) (hid : id ≤ k)
    (b : PageBlock) : ((s.setPage f { s.pages f with buffer := b }).unpin id true).Resident k
      (Function.update bytes id b) := by
  have hw := h.rewritten hd (p := { s.pages f with buffer := b, dirty := true }) rfl (fun _ => rfl)
    (fun hlt => absurd hid (by omega))
  have hsame := unpin_setPage_dirty s hd { s.pages f with buffer := b }
  have hd' : (s.setPage f { s.pages f with buffer := b, dirty := true }).dir.lookup id = some f := hd
  dsimp only at hsame
  rw [← hsame, unpin_eq _ true hd']
  refine hw.congr rfl rfl rfl rfl rfl rfl fun g => ?_
  by_cases hg : g = f <;> simp [hg]

theorem Resident.pinFrame (h : s.Resident k bytes) (f : Fin n) :
    (s.pinFrame f).Resident k bytes := by
  refine h.congr rfl rfl rfl rfl rfl rfl fun g => ?_
  by_cases hg : g = f <;> simp [BufferPool.pinFrame, hg]

/-- Pages up to `k` stay in their frames, and nothing is written to the file. -/
structure Quiet (s s' : BufferPool n) (k : ℕ) : Prop where
  cached : ∀ id ≤ k, ∀ f, s.dir.lookup id = some f → s'.dir.lookup id = some f
  file : s'.disk.file = s.disk.file

theorem quiet_of_dir (hdir : s'.dir = s.dir) (hfile : s'.disk.file = s.disk.file) (k : ℕ) :
    s.Quiet s' k := ⟨fun _ _ _ hd => hdir ▸ hd, hfile⟩

theorem quiet_pinFrame (s : BufferPool n) (f : Fin n) (k : ℕ) : s.Quiet (s.pinFrame f) k :=
  ⟨fun _ _ _ hd => hd, rfl⟩

theorem quiet_unpin (s : BufferPool n) (id : ℕ) (d : Bool) (k : ℕ) : s.Quiet (s.unpin id d) k :=
  quiet_of_dir (unpin_dir s id d) (by rw [unpin_disk]) k

theorem Quiet.trans {t : BufferPool n} (h : s.Quiet s' k) (h' : s'.Quiet t k') (hk : k ≤ k') :
    s.Quiet t k :=
  ⟨fun id hid f hd => h'.cached id (hid.trans hk) f (h.cached id hid f hd), h'.file.trans h.file⟩

theorem Resident.quiet_remapped (h : s.Resident k bytes) (hf : f ∈ s.freeList)
    (hr : s.Remapped s' f id) (hd : id ≤ k → s.dir.lookup id = none)
    (hfile : s'.disk.file = s.disk.file) : s.Quiet s' k := by
  refine ⟨fun j hj g hg => ?_, hfile⟩
  have hji : j ≠ id := by
    rintro rfl
    rw [hd hj] at hg
    cases hg
  rw [hr.lookup_of_ne j hji ?_, hg]
  rw [(h.free_clean f hf).1]
  exact (h.addressable (h.cached_le j g hg)).ne_invalid

theorem fetch_miss (hd : s.dir.lookup id = none) (hne : s.freeList ≠ []) :
    ∃ f free, s.freeList = free ++ [f] ∧
      s.fetch id = (some f, { s with freeList := free, replacer := s.replacer }.loadFrame f id) := by
  rcases s.fetch_cases id with ⟨f, hf, _⟩ | ⟨_, hv, _⟩ | ⟨f, free, lru, _, ht, hf⟩
  · rw [hd] at hf
    cases hf
  · exact absurd hv (victim_of_free hne)
  · obtain ⟨hfree, rfl⟩ := ht.of_free hne
    exact ⟨f, free, hfree, hf⟩

/-- A frame from the free list is given to a page, and the spare frame is still accounted for. -/
theorem Places.remapped {spare spare' : Option (Fin n)} (h : s.Places k spare) {free : List (Fin n)}
    (hfree : s.freeList = free ++ [f]) (hfree' : s'.freeList = free) (hkeep : s.Quiet s' k)
    (hk : k ≤ k') (hf : (∃ id ≤ k', s'.dir.lookup id = some f) ∨ spare' = some f)
    (hspare : ∀ g, spare = some g → spare' = some g) : s'.Places k' spare' := by
  intro g
  rcases h g with hg | ⟨id, hid, hg⟩ | hg
  · rw [hfree] at hg
    rcases List.mem_append.1 hg with hg | hg
    · exact .inl (hfree' ▸ hg)
    · rw [List.mem_singleton.1 hg]
      exact .inr hf
  · exact .inr (.inl ⟨id, hid.trans hk, hkeep.cached id hid g hg⟩)
  · exact .inr (.inr (hspare g hg))

theorem Resident.fetch (h : s.Resident k bytes) (hn : k + 2 ≤ n) (hid : id ≤ k) :
    ∃ f s', s.fetch id = (some f, s') ∧ s'.Resident k bytes ∧ s'.dir.lookup id = some f ∧
      s.Quiet s' k := by
  cases hd : s.dir.lookup id with
  | some f =>
    refine ⟨f, s.pinFrame f, by rw [BufferPool.fetch, hd], h.pinFrame f, hd, ?_⟩
    exact s.quiet_pinFrame f k
  | none =>
    obtain ⟨f, free, hfree, hf⟩ := fetch_miss hd (h.free_of_miss hn hid hd)
    have hmem : f ∈ s.freeList := by simp [hfree]
    have hr := s.remapped_loadFrame f id free s.replacer
    have hev := (evicted_congr (s := s) (t := { s with freeList := free, replacer := s.replacer })
      rfl rfl rfl f).trans (h.evicted_eq hmem)
    have hdense := h.dense.fetch id
    have hkeep := h.quiet_remapped hmem hr (fun _ => hd) (by rw [loadFrame_eq]; dsimp only; rw [hev])
    have hbuf : (({ s with freeList := free, replacer := s.replacer }.loadFrame f id).pages f).buffer =
        bytes id := by
      rw [loadFrame_eq]
      dsimp only
      rw [hev, Function.update_self, h.saved id hid fun g hg => ?_]
      rw [hd] at hg
      cases hg
    rw [hf] at hdense
    have hs := h.remapped hfree hr (by rw [loadFrame_eq]) (by rw [loadFrame_eq]; dsimp only; rw [hev])
      hdense le_rfl (fun j hj _ => hj) (hid.trans (le_max_left _ _)) (fun _ _ => ?_) (fun h0 h1 => ?_) ?_
    · rw [hbuf, Function.update_eq_self] at hs
      exact ⟨f, _, hf, hs, hr.lookup_self, hkeep⟩
    · rw [hbuf, h.saved id hid fun g hg => ?_]
      rw [hd] at hg
      cases hg
    · omega
    · obtain ⟨spare, hspare, hplaces⟩ := h.places
      refine ⟨spare, fun h0 => ?_, hplaces.remapped hfree (by rw [loadFrame_eq]) hkeep le_rfl
        (.inl ⟨id, hid, hr.lookup_self⟩) fun _ hg => hg⟩
      have h1 : (1 : ℕ) ≠ (s.pages f).pid := by
        rw [(h.free_clean f hmem).1]
        decide
      rw [hspare h0, hr.lookup_of_ne 1 (by omega) h1]

/-- Page 1 can be fetched before it is allocated. It is blank unless it was cached. -/
theorem Resident.fetch_one (h : s.Resident 0 bytes) (hn : 2 ≤ n) :
    ∃ f s' b, s.fetch 1 = (some f, s') ∧ s'.Resident 0 (Function.update bytes 1 b) ∧
      s'.dir.lookup 1 = some f ∧ s.Quiet s' 0 ∧ (b = bytes 1 ∨ b = Block.zero) := by
  cases hd : s.dir.lookup 1 with
  | some f =>
    refine ⟨f, s.pinFrame f, bytes 1, by rw [BufferPool.fetch, hd], ?_, hd, ?_, .inl rfl⟩
    · rw [Function.update_eq_self]
      exact h.pinFrame f
    · exact s.quiet_pinFrame f 0
  | none =>
    obtain ⟨f, free, hfree, hf⟩ := fetch_miss hd (h.free_of_empty hn hd)
    have hmem : f ∈ s.freeList := by simp [hfree]
    have hr := s.remapped_loadFrame f 1 free s.replacer
    have hev := (evicted_congr (s := s) (t := { s with freeList := free, replacer := s.replacer })
      rfl rfl rfl f).trans (h.evicted_eq hmem)
    have hdense := h.dense.fetch 1
    have hkeep := h.quiet_remapped hmem hr (fun h1 => absurd h1 (by omega))
      (by rw [loadFrame_eq]; dsimp only; rw [hev])
    rw [hf] at hdense
    have hs := h.remapped hfree hr (by rw [loadFrame_eq]) (by rw [loadFrame_eq]; dsimp only; rw [hev])
      hdense le_rfl (fun j hj _ => hj) (le_max_right _ _) (fun _ h1 => absurd h1 (by omega))
      (fun _ _ => by simp [loadFrame_eq]) ?_
    · refine ⟨f, _, Block.zero, hf, ?_, hr.lookup_self, hkeep, .inr rfl⟩
      have hbuf : (({ s with freeList := free, replacer := s.replacer }.loadFrame f 1).pages
          f).buffer = Block.zero := by
        rw [loadFrame_eq]
        dsimp only
        rw [hev, Function.update_self, h.blank rfl]
      rwa [hbuf] at hs
    · obtain ⟨spare, hspare, hplaces⟩ := h.places
      refine ⟨some f, fun _ => hr.lookup_self.symm, hplaces.remapped hfree (by rw [loadFrame_eq])
        hkeep le_rfl (.inr rfl) fun g hg => ?_⟩
      rw [hspare rfl, hd] at hg
      cases hg

theorem Resident.newPage (h : s.Resident k bytes) (hn : k + 3 ≤ n) (hlimit : k < bfpMaxPageNum) :
    ∃ f s', s.newPage = (some (k + 1, f), s') ∧
      s'.Resident (k + 1) (Function.update bytes (k + 1) Block.zero) ∧
      s'.dir.lookup (k + 1) = some f ∧ (s'.pages f).dirty = true ∧ s.Quiet s' k := by
  have hne := h.free_of_room hn
  rcases s.newPage_cases with ⟨hno, hf⟩ | ⟨id, f, free, lru, _, ht, hf⟩
  · have := (h.dense.newPage_none (victim_of_free hne) hf).1
    omega
  · obtain ⟨rfl, hdense⟩ := h.dense.newPage hf
    obtain ⟨hfree, rfl⟩ := ht.of_free hne
    have hmem : f ∈ s.freeList := by simp [hfree]
    have hr := s.remapped_allocFrame f (k + 1) s.chosenDisk free s.replacer
    have hev : (BufferPool.evicted { s with disk := s.chosenDisk, freeList := free } f) =
        s.chosenDisk := by
      unfold BufferPool.evicted
      rw [(h.free_clean f hmem).2]
      rfl
    have hkeep := h.quiet_remapped hmem hr (fun hk => absurd hk (by omega))
      (by rw [allocFrame_eq]; dsimp only; rw [hev, chosenDisk_file])
    have hs := h.remapped hfree hr (by rw [allocFrame_eq])
      (by rw [allocFrame_eq]; dsimp only; rw [hev]; exact funext s.stored_chosenDisk)
      hdense (Nat.le_succ k) (fun j hj hne => by omega) (le_max_left _ _)
      (fun hclean => by simp [allocFrame_eq] at hclean) (fun h0 => by omega) ?_
    · refine ⟨f, _, hf, ?_, hr.lookup_self, by simp [allocFrame_eq], hkeep⟩
      have hbuf : (({ s with disk := s.chosenDisk, freeList := free, replacer := s.replacer }.allocFrame
          f (k + 1)).pages f).buffer = Block.zero := by simp [allocFrame_eq]
      rwa [hbuf] at hs
    · obtain ⟨spare, hspare, hplaces⟩ := h.places
      refine ⟨spare, fun h0 => by omega, hplaces.remapped hfree (by rw [allocFrame_eq]) hkeep
        (Nat.le_succ k) (.inl ⟨k + 1, le_rfl, hr.lookup_self⟩) fun _ hg => hg⟩

structure Written (file : File) (s : BufferPool n) (k : ℕ) (bytes : ℕ → PageBlock) : Prop where
  header : HoldsHeader file s.head
  data : ∀ id ≤ k, id ≠ 0 → DiskManager.stored { file := file } id = bytes id
  blank : k = 0 → DiskManager.stored { file := file } 1 = Block.zero

theorem Resident.stored_flushAllPage (h : s.Resident k bytes) (hid : id ≤ k) :
    s.flushAllPage.disk.stored id = bytes id := by
  have haddr := h.addressable (hid.trans (le_max_left _ _))
  rw [flushAllPage]
  dsimp only
  rw [stored_flushEntries haddr _ (fun e he => h.cachesAddressable e.1 e.2 (AList.mem_lookup_iff.2 he))
    (b := bytes id)]
  · split_ifs with hex
    · rfl
    · refine h.saved id hid fun f hf => ?_
      by_contra hdirty
      exact hex ⟨⟨id, f⟩, AList.mem_lookup_iff.1 hf, rfl, by simpa using hdirty⟩
  · rintro e he rfl
    exact h.cached e.1 e.2 (AList.mem_lookup_iff.2 he)

theorem Resident.blank_flushAllPage (h : s.Resident 0 bytes) :
    s.flushAllPage.disk.stored 1 = Block.zero := by
  have haddr := h.addressable (le_max_right 0 1)
  rw [flushAllPage]
  dsimp only
  rw [stored_flushEntries haddr _ (fun e he => h.cachesAddressable e.1 e.2 (AList.mem_lookup_iff.2 he))
    (b := bytes 1), if_neg, h.blank rfl]
  · rintro ⟨e, he, h1, hdirty⟩
    have hlookup : s.dir.lookup 1 = some e.2 := h1 ▸ AList.mem_lookup_iff.2 he
    rw [h.spare_clean rfl e.2 hlookup] at hdirty
    cases hdirty
  · intro e he h1
    exact h.cached 1 e.2 (h1 ▸ AList.mem_lookup_iff.2 he)

theorem Resident.close (h : s.Resident k bytes) (hn : k + 2 ≤ n) (hlimit : k < bfpMaxPageNum) :
    ∃ t, s.close = some t ∧ Written t.disk.file s k bytes := by
  obtain ⟨f, u, hf, hu, hd, _⟩ := h.fetch hn (Nat.zero_le k)
  obtain ⟨hfit, _⟩ := h.dense.header_readable hlimit
  have hlt : k + 1 < 2 ^ 64 := by
    unfold bfpMaxPageNum pageSize at hlimit
    omega
  have hhead : u.head = s.head := by
    have := fetch_head s 0
    rwa [hf] at this
  have hpid : (u.pages f).pid = 0 := hu.own 0 f hd
  obtain ⟨p, hwp⟩ : ∃ p, s.head.write2page (u.pages f) = some p := ⟨_, if_pos hfit⟩
  have hload := BFPHeaderPage.load_of_write2page hwp (h.dense.pageNum_eq ▸ hlt)
    (h.dense.phyNum_eq ▸ hlt)
  have hp := ((s.head.write2page_eq_some_iff _ _).1 hwp).2
  generalize ((storeSize (storeSize (u.pages f).buffer 0 s.head.pageNum) 8
    s.head.phyNum).store 16 s.head.bitmap) = b at hp
  have hw := hu.write hd (Nat.zero_le k) b
  have hwrite : s.writeHeadPage =
      some (true, (u.setPage f { u.pages f with buffer := b }).unpin 0 true) := by
    have hp0 : p.pid = 0 := by rw [hp, hpid]
    rw [writeHeadPage, hf]
    dsimp only
    rw [hhead, hwp, Option.bind_eq_bind, Option.bind_some, hp0, hp]
    rw [unpin_setPage_dirty u hd { u.pages f with buffer := b }]
  refine ⟨_, ((close_eq_some_iff h.dense.not_closed).2 ⟨_, hwrite, rfl⟩).1, ?_, ?_, ?_⟩
  · have hst := hw.stored_flushAllPage (Nat.zero_le k)
    have hb : p.buffer = b := by rw [hp]
    rw [Function.update_self] at hst
    rw [hb, ← hst] at hload
    exact ⟨hload.1, hload.2.1, hload.2.2⟩
  · intro id hid h0
    refine (hw.stored_flushAllPage hid).trans ?_
    rw [Function.update_of_ne h0]
  · rintro rfl
    exact hw.blank_flushAllPage

/-- A pool that has just been opened has not used any frame but that of page 0. -/
theorem resident_openFile {m : ℕ} {file : File} {t : BufferPool (m + 1)}
    (ht : openFile (m + 1) file = some t) (hv : t.Shows (openedView file {i | i ≤ k}))
    (hd : t.Dense k) (hblank : k = 0 → DiskManager.stored { file := file } 1 = Block.zero) :
    t.Resident k (openedBytes file) := by
  have hopen := ht
  rw [openFile_succ] at ht
  obtain ⟨r, _, rfl⟩ := Option.map_eq_some_iff.1 ht
  have hlookup : ∀ id f, (openedPool m file r).dir.lookup id = some f → id = 0 := by
    intro id f hf
    simp only [openedPool, lookup_singleton] at hf
    split_ifs at hf with h0
    exact h0
  refine ⟨hd, fun id f hf => (hv.frames.pid_of_lookup hf).1, ?_, hv.cached, fun id hid hc => ?_,
    hv.frames.free_nodup, fun f hf => ?_, fun h0 => ?_, fun _ f hf => ?_, none, fun _ => ?_, fun f => ?_⟩
  · intro id f hf
    rw [hlookup id f hf]
    exact Nat.zero_le _
  · exact hv.saved id hid (Set.notMem_empty id) hc
  · have hpid := (hv.frames.mem_free f).1 hf
    exact ⟨hpid, hv.frames.free_clean f hpid⟩
  · have haddr : Addressable 1 := addressable_of_le (by simp [bfpMaxPageNum, pageSize])
    rw [openFile_stored hopen haddr one_ne_zero, hblank h0]
  · exact absurd (hlookup 1 f hf) one_ne_zero
  · simp [openedPool, lookup_singleton]
  · by_cases hf : (((openedPool m file r).pages f).pid = invalidId)
    · exact .inl ((hv.frames.mem_free f).2 hf)
    · have hl := (hv.frames.linked _ f hf).2 rfl
      exact .inr (.inl ⟨_, (hlookup _ f hl).trans_le (Nat.zero_le k), hl⟩)

theorem resident_freshPool (m : ℕ) :
    ∃ bytes, (freshPool m).Resident 0 bytes ∧ bytes 1 = Block.zero := by
  have hz : loadSize (DiskManager.stored { file := File.absent } 0) 0 = 0 := loadSize_zero 0
  obtain ⟨t, ht, hv, ha, hhead, hnext⟩ := openFile_of_no_header m hz
  obtain rfl : t = freshPool m := Option.some.inj (ht.symm.trans (openFile_absent_succ m))
  have hlive : ({0} : Set ℕ) = {i | i ≤ 0} := by
    ext i
    simp
  rw [hlive] at hv ha
  refine ⟨_, resident_openFile ht hv ⟨ha, hnext, by rw [hhead]; rfl, by rw [hhead]; rfl,
    by rw [hhead]; rfl, rfl⟩ fun _ => rfl, ?_⟩
  rw [openedBytes, if_neg (by simp)]
  rfl

theorem Written.header_ne_zero {file : File} (hw : Written file s k bytes) (h : s.Dense k) :
    loadSize (DiskManager.stored { file := file } 0) 0 ≠ 0 := by
  rw [hw.header.pageNum, h.pageNum_eq]
  exact Nat.succ_ne_zero _

theorem Written.reopened {file : File} (hw : Written file s k bytes) (h : s.Dense k)
    (hlimit : k < bfpMaxPageNum) (m : ℕ) :
    ∃ t : BufferPool (m + 1), openFile (m + 1) file = some t ∧ ∃ bytes', t.Resident k bytes' ∧
      (∀ id ≤ k, id ≠ 0 → bytes' id = bytes id) ∧ (k = 0 → bytes' 1 = Block.zero) := by
  have hget := h.allocates.get_iff
  obtain ⟨hfit, hlen⟩ := h.header_readable hlimit
  have hpos : s.head.pageNum ≠ 0 := by
    rw [h.pageNum_eq]
    exact Nat.succ_ne_zero _
  obtain ⟨t, ht, hv, ha, hhead, hnext⟩ := openFile_of_header m s.head hw.header.pageNum
    hw.header.phyNum (hlen ▸ hfit) (hlen ▸ hw.header.bitmap) hpos ((hget 0).2 (Nat.zero_le _))
    (fun id hid => by rw [h.phyNum_eq]; exact Nat.lt_succ_of_le ((hget id).1 hid))
  have hlive : {id | BitMap.get s.head.bitmap id = true} = {i | i ≤ k} := Set.ext hget
  rw [hlive] at hv ha
  have hd : t.Dense k := ⟨ha, hnext.trans h.phyNum_eq, by rw [hhead, h.pageNum_eq],
    by rw [hhead, h.phyNum_eq], by rw [hhead, h.bitmap_length], openFile_closed ht⟩
  have hbytes : ∀ id, openedBytes file id = DiskManager.stored { file := file } id :=
    openedBytes_of_header (by rwa [hw.header.pageNum])
  refine ⟨t, ht, openedBytes file, resident_openFile ht hv hd hw.blank, fun id hid h0 => ?_,
    fun h0 => ?_⟩
  · rw [hbytes, hw.data id hid h0]
  · rw [hbytes, hw.blank h0]

end Tadis.BufferPool
