import Tadis.FailedAllocation
import Tadis.TableHeap

/-!
# Inserts that are rejected

`insert` allocates a page before it knows that the record fits there, and `new_page` draws an id
before it knows that it has a frame. A rejected insert therefore leaves a page or a drawn id behind,
unless it had the id of a deleted page to reuse and no frame to put that page into.
-/

namespace Tadis.TableHeap

open BufferPool

variable {n : ℕ} {s s' t u : BufferPool n} {record : Record}

/-- The bytes that `fetch` shows a client. -/
def pageBytes (s : BufferPool n) (id : ℕ) : PageBlock :=
  match s.dir.lookup id with
  | some f => (s.pages f).buffer
  | none => s.disk.stored id

/-- What `RecordPage::get` reads under a record id. -/
def storedRecord (s : BufferPool n) (rid : RID) : Option (Bool × Record) :=
  (RecordPage.init { buffer := pageBytes s rid.pageId, pid := rid.pageId }).bind
    (fun x => x.1.get x.2 {} rid)

/-- The allocated pages, `current_pid` and the stored records are the same. -/
structure Unchanged (s s' : BufferPool n) : Prop where
  contain_iff : ∀ id, s'.contain id = .success ↔ s.contain id = .success
  currentPid_eq : s'.currentPid = s.currentPid
  storedRecord_eq : ∀ rid, storedRecord s' rid = storedRecord s rid

/-- `insert` has no page to try first. -/
def NoCurrentPage (s : BufferPool n) : Prop := s.currentPid = invalidId ∨ s.currentPid = 0

/-- The replacer holds no frame once `insert` has looked at the page that it tries first: there is
no such page and the replacer is empty, or that page is cached, a client has pinned it, and no other
frame is in the replacer. -/
def NoVictim (s : BufferPool n) : Prop :=
  (NoCurrentPage s ∧ s.replacer.items = []) ∨
    (¬ NoCurrentPage s ∧ ∃ f, s.dir.lookup s.currentPid = some f ∧ (s.pages f).pinCount ≠ 0 ∧
      (s.replacer.remove f).items = [])

/-- There is the id of a deleted page to reuse and no frame to put that page into. -/
structure ReusesWithoutFrame (s : BufferPool n) : Prop where
  reuses : s.reusableId ≠ none
  noFree : s.freeList = []
  noVictim : NoVictim s

/-- At most `k` ids have been drawn and no page has been deleted. -/
structure Grown (s t : BufferPool n) (k : ℕ) : Prop where
  get_of_get : ∀ id, BitMap.get s.head.bitmap id = true → BitMap.get t.head.bitmap id = true
  le_next : s.disk.nextPid ≤ t.disk.nextPid
  next_le : t.disk.nextPid ≤ s.disk.nextPid + k

/-- An id has been drawn or a page has been allocated. -/
def Allocated (s t : BufferPool n) : Prop :=
  s.disk.nextPid < t.disk.nextPid ∨
    ∃ id, BitMap.get s.head.bitmap id = false ∧ BitMap.get t.head.bitmap id = true

theorem Grown.trans {j k : ℕ} (h : Grown s t j) (h' : Grown t u k) : Grown s u (j + k) where
  get_of_get id hid := h'.get_of_get id (h.get_of_get id hid)
  le_next := h.le_next.trans h'.le_next
  next_le := h'.next_le.trans (by have := h.next_le; omega)

theorem Grown.of_eq (hhead : t.head = s.head) (hnext : t.disk.nextPid = s.disk.nextPid) :
    Grown s t 0 where
  get_of_get id hid := by rwa [hhead]
  le_next := hnext.ge
  next_le := hnext.le

theorem Allocated.grown {k : ℕ} (h : Allocated s t) (h' : Grown t u k) : Allocated s u := by
  rcases h with hlt | ⟨id, hs, ht⟩
  · exact .inl (hlt.trans_le h'.le_next)
  · exact .inr ⟨id, hs, h'.get_of_get id ht⟩

theorem Allocated.of_eq (hhead : t.head = s.head) (hnext : t.disk.nextPid = s.disk.nextPid)
    (h : Allocated t u) : Allocated s u := by
  unfold Allocated at h
  rwa [hhead, hnext] at h

theorem get_allocFrame (s : BufferPool n) (f : Fin n) (idx i : ℕ) :
    BitMap.get (s.allocFrame f idx).head.bitmap i =
      if idx = i then true else BitMap.get s.head.bitmap i := by
  rw [allocFrame_eq]
  dsimp only
  rw [BitMap.get_set _ _ _ (lt_length_growBitmap _ _), get_growBitmap]

theorem grown_newPage (s : BufferPool n) : Grown s s.newPage.2 1 := by
  have hnext := nextPid_chosenDisk s
  have hle : s.disk.nextPid ≤ s.chosenDisk.nextPid ∧
      s.chosenDisk.nextPid ≤ s.disk.nextPid + 1 := by
    split at hnext <;> omega
  rcases s.newPage_cases with ⟨_, hf⟩ | ⟨id, f, free, lru, _, _, hf⟩
  · rw [hf]
    exact ⟨fun _ hid => hid, hle.1, hle.2⟩
  · rw [hf]
    refine ⟨fun i hi => ?_, ?_, ?_⟩
    · rw [get_allocFrame]
      split
      · rfl
      · exact hi
    · simpa [allocFrame_eq] using hle.1
    · simpa [allocFrame_eq] using hle.2

/-- `new_page` draws an id or sets the clear bit of the page that it hands out. -/
theorem allocated_newPage {x : ℕ × Fin n} (h : s.newPage = (some x, t)) : Allocated s t := by
  rcases s.newPage_cases with ⟨_, hf⟩ | ⟨id, f, free, lru, hc, _, hf⟩
  · simp [h] at hf
  · obtain ⟨-, rfl⟩ := Prod.mk.inj (h.symm.trans hf)
    rcases chosenId_cases hc with ⟨hr, hd⟩ | ⟨_, _, _, hd⟩
    · exact .inr ⟨id, (reusableId_eq_some hr).2.1, by rw [get_allocFrame, if_pos rfl]⟩
    · exact .inl (by simp [allocFrame_eq, hd])

theorem allocated_newPage_none (h : s.newPage = (none, t)) (hr : s.reusableId = none) :
    Allocated s t := by
  rw [newPage_none_eq h]
  refine .inl ?_
  dsimp only
  rw [nextPid_chosenDisk, if_pos hr]
  exact Nat.lt_succ_self _

theorem sizeDec_ne {a b : ℕ} (h : a < b) (hb : b ≤ a + 2) : sizeDec b ≠ sizeDec a := by
  rw [sizeDec_of_pos (by omega : 0 < b)]
  cases a with
  | zero =>
    rw [sizeDec]
    omega
  | succ a =>
    rw [sizeDec_succ]
    omega

theorem not_unchanged (h : Allocated s t) (hg : Grown s t 2) : ¬ Unchanged s t := by
  intro hu
  rcases h with hlt | ⟨id, hs, ht⟩
  · exact sizeDec_ne hlt hg.next_le hu.currentPid_eq
  · have hc := hu.contain_iff id
    rw [contain_eq_success_iff, contain_eq_success_iff, hs, ht] at hc
    simp at hc

theorem insertInto_cases {f : Fin n} {rid : Option RID} (h : insertInto s f record = some (rid, t)) :
    ∃ p, t = s.setPage f p ∧ (rid = none →
      p = { s.pages f with buffer := RecordPage.formatted (s.pages f).buffer }) := by
  unfold insertInto at h
  rw [RecordPage.init_eq] at h
  split at h
  · rw [Option.bind_eq_bind, Option.bind_some] at h
    obtain ⟨⟨rid', rp, p⟩, hr, hs⟩ := Option.bind_eq_some_iff.1 h
    obtain ⟨rfl, rfl⟩ := Prod.mk.inj (Option.some.inj hs)
    refine ⟨p, rfl, ?_⟩
    rintro rfl
    exact RecordPage.insert_refused hr
  · cases h

theorem insertAt_cases {pid : ℕ} {f : Fin n} (h : insertAt s pid f record = some (none, s')) :
    ∃ t, insertInto s f record = some (none, t) ∧
      ((t.unpin pid false).newPage = (none, s') ∨ ∃ id g u w,
        (t.unpin pid false).newPage = (some (id, g), u) ∧ insertInto u g record = some (none, w) ∧
          s' = w.unpin id true) := by
  unfold insertAt at h
  obtain ⟨⟨rid, t⟩, hi, h⟩ := Option.bind_eq_some_iff.1 h
  cases rid with
  | some rid => cases h
  | none =>
    refine ⟨t, hi, ?_⟩
    dsimp only at h
    rcases hn : (t.unpin pid false).newPage with ⟨_ | ⟨id, g⟩, u⟩
    · rw [hn] at h
      cases h
      exact .inl rfl
    · rw [hn] at h
      obtain ⟨⟨rid, w⟩, hw, h⟩ := Option.bind_eq_some_iff.1 h
      cases h
      exact .inr ⟨id, g, u, w, rfl, hw, rfl⟩

/-- `new_page` would fail without drawing an id. -/
def Stuck (s : BufferPool n) : Prop := s.reusableId ≠ none ∧ s.victim = none

/-- The pool after page `pid` in frame `f` has refused the record. -/
def refused (s : BufferPool n) (pid : ℕ) (f : Fin n) : BufferPool n :=
  (s.setPage f { s.pages f with buffer := RecordPage.formatted (s.pages f).buffer }).unpin pid false

theorem stuck_or_allocated (s : BufferPool n) :
    (Stuck s ∧ s.newPage = (none, s)) ∨ (¬ Stuck s ∧ Allocated s s.newPage.2) := by
  rcases hn : s.newPage with ⟨_ | x, t⟩
  · have hnone : s.newPage.1 = none := by rw [hn]
    by_cases hr : s.reusableId = none
    · exact .inr ⟨fun h => h.1 hr, allocated_newPage_none hn hr⟩
    · have hv : s.victim = none :=
        (newPage_fst_eq_none_iff.1 hnone).resolve_left fun h => hr h.1
      have ht : t = s := by rw [newPage_none_eq hn, chosenDisk_eq hr]
      exact .inl ⟨⟨hr, hv⟩, by rw [ht]⟩
  · refine .inr ⟨fun h => ?_, allocated_newPage hn⟩
    have hnone : s.newPage.1 = none := newPage_fst_eq_none_iff.2 (.inr h.2)
    rw [hn] at hnone
    cases hnone

theorem grown_insertInto {f : Fin n} {rid : Option RID} (h : insertInto s f record = some (rid, t)) :
    Grown s t 0 := by
  obtain ⟨p, rfl, _⟩ := insertInto_cases h
  exact .of_eq rfl rfl

theorem grown_unpin (s : BufferPool n) (id : ℕ) (d : Bool) : Grown s (s.unpin id d) 0 :=
  .of_eq (unpin_head s id d) (unpin_nextPid id d)

theorem refused_head (s : BufferPool n) (pid : ℕ) (f : Fin n) : (refused s pid f).head = s.head :=
  unpin_head _ pid false

theorem refused_nextPid (s : BufferPool n) (pid : ℕ) (f : Fin n) :
    (refused s pid f).disk.nextPid = s.disk.nextPid := unpin_nextPid pid false

/-- The page that was tried first refused the record, and so did the new one if there was one. -/
theorem insertAt_none {pid : ℕ} {f : Fin n} (h : insertAt s pid f record = some (none, s')) :
    Grown s s' 1 ∧ ((Stuck (refused s pid f) ∧ s' = refused s pid f) ∨
      (¬ Stuck (refused s pid f) ∧ Allocated s s')) := by
  have hg : Grown s (refused s pid f) 0 := .of_eq (refused_head s pid f) (refused_nextPid s pid f)
  have hg' := hg.trans (grown_newPage (refused s pid f))
  obtain ⟨t, hi, hn⟩ := insertAt_cases h
  obtain ⟨p, rfl, hp⟩ := insertInto_cases hi
  rw [hp rfl, ← refused] at hn
  have hcases := stuck_or_allocated (refused s pid f)
  rcases hn with hn | ⟨id, g, u, w, hn, hw, rfl⟩
  · rw [hn] at hg' hcases
    refine ⟨hg', ?_⟩
    rcases hcases with ⟨hs, he⟩ | ⟨hs, ha⟩
    · exact .inl ⟨hs, (Prod.mk.inj he).2⟩
    · exact .inr ⟨hs, ha.of_eq (refused_head s pid f) (refused_nextPid s pid f)⟩
  · rw [hn] at hg' hcases
    have hlast := (grown_insertInto hw).trans (grown_unpin w id true)
    refine ⟨hg'.trans hlast, ?_⟩
    rcases hcases with ⟨_, he⟩ | ⟨hs, ha⟩
    · cases (Prod.mk.inj he).1
    · exact .inr ⟨hs, (ha.grown hlast).of_eq (refused_head s pid f) (refused_nextPid s pid f)⟩

/-- Without a page to try first, a rejected insert has done nothing or allocated a page. -/
theorem insert_none_of_noCurrentPage (hc : NoCurrentPage s)
    (h : insert s record = some (none, s')) :
    Grown s s' 2 ∧ ((Stuck s ∧ s' = s) ∨ (¬ Stuck s ∧ Allocated s s')) := by
  have hg := grown_newPage s
  have hcases := stuck_or_allocated s
  unfold NoCurrentPage at hc
  simp only [insert, if_pos hc] at h
  rcases hn : s.newPage with ⟨_ | ⟨id, f⟩, t⟩
  · rw [hn] at h hg hcases
    obtain ⟨-, rfl⟩ := Prod.mk.inj (Option.some.inj h)
    refine ⟨⟨hg.get_of_get, hg.le_next, hg.next_le.trans (Nat.le_succ _)⟩, ?_⟩
    exact hcases.imp_left fun hs => ⟨hs.1, (Prod.mk.inj hs.2).2⟩
  · rw [hn] at h hg hcases
    have hat := (insertAt_none h).1
    refine ⟨hg.trans hat, ?_⟩
    rcases hcases with ⟨_, he⟩ | ⟨hs, ha⟩
    · cases (Prod.mk.inj he).1
    · exact .inr ⟨hs, ha.grown hat⟩

/-- With a page to try first, the heap is as after the refusal or a page has been allocated. -/
theorem insert_none_of_currentPage (hc : ¬ NoCurrentPage s)
    (h : insert s record = some (none, s')) :
    ∃ f u, s.fetch s.currentPid = (some f, u) ∧ Grown s s' 2 ∧
      ((Stuck (refused u s.currentPid f) ∧ s' = refused u s.currentPid f) ∨
        (¬ Stuck (refused u s.currentPid f) ∧ Allocated s s')) := by
  have hhead := fetch_head s s.currentPid
  have hnext := fetch_nextPid (s := s) s.currentPid
  unfold NoCurrentPage at hc
  simp only [insert, if_neg hc] at h
  rcases hf : s.fetch s.currentPid with ⟨_ | f, u⟩
  · rw [hf] at h
    cases h
  · rw [hf] at h hhead hnext
    obtain ⟨hg, hcases⟩ := insertAt_none h
    have hg' := (Grown.of_eq hhead hnext).trans hg
    refine ⟨f, u, rfl, ⟨hg'.get_of_get, hg'.le_next, hg'.next_le.trans (by omega)⟩, ?_⟩
    exact hcases.imp_right fun hs => ⟨hs.1, hs.2.of_eq hhead hnext⟩

theorem reusableId_congr (hhead : t.head = s.head) (hnext : t.disk.nextPid = s.disk.nextPid) :
    t.reusableId = s.reusableId := by
  unfold reusableId DiskManager.currentPid
  rw [hhead, hnext]

theorem put_items_ne_nil (r : LruReplacer (Fin n)) (f : Fin n) : (r.put f).items ≠ [] :=
  List.cons_ne_nil _ _

theorem refused_pinFrame {id : ℕ} {f : Fin n} (hd : s.dir.lookup id = some f) :
    refused (s.pinFrame f) id f = { s with
      pages := Function.update s.pages f
        { s.pages f with buffer := RecordPage.formatted (s.pages f).buffer }
      replacer := if (s.pages f).pinCount = 0 then (s.replacer.remove f).put f
        else s.replacer.remove f } := by
  have hd' : ((s.pinFrame f).setPage f { (s.pinFrame f).pages f with
      buffer := RecordPage.formatted ((s.pinFrame f).pages f).buffer }).dir.lookup id = some f := hd
  rw [refused, unpin_eq _ false hd']
  simp [pinFrame, setPage]

theorem victim_refused_loadFrame (s : BufferPool n) (f : Fin n) (id : ℕ) :
    (refused (s.loadFrame f id) id f).victim ≠ none := by
  have hd : ((s.loadFrame f id).setPage f { (s.loadFrame f id).pages f with
      buffer := RecordPage.formatted ((s.loadFrame f id).pages f).buffer }).dir.lookup id = some f := by
    simp [loadFrame_eq, setPage]
  rw [refused, unpin_eq _ false hd, Ne, victim_eq_none_iff, not_and]
  intro _
  simp only [loadFrame_eq, setPage_pages, Function.update_self, sizeDec_succ, if_true]
  exact put_items_ne_nil _ f

theorem victim_refused {id : ℕ} {f : Fin n} (hf : s.fetch id = (some f, u)) :
    (refused u id f).victim = none ↔ s.freeList = [] ∧ ∃ g, s.dir.lookup id = some g ∧
      (s.pages g).pinCount ≠ 0 ∧ (s.replacer.remove g).items = [] := by
  rcases s.fetch_cases id with ⟨g, hd, hg⟩ | ⟨_, _, hg⟩ | ⟨g, free, lru, hd, _, hg⟩
  · obtain ⟨hfg, rfl⟩ := Prod.mk.inj (hf.symm.trans hg)
    obtain rfl := Option.some.inj hfg
    rw [refused_pinFrame hd, victim_eq_none_iff]
    dsimp only
    by_cases hp : (s.pages f).pinCount = 0
    · simp [hd, hp, put_items_ne_nil]
    · simp [hd, hp]
  · simp [hf] at hg
  · obtain ⟨hfg, rfl⟩ := Prod.mk.inj (hf.symm.trans hg)
    obtain rfl := Option.some.inj hfg
    refine iff_of_false (victim_refused_loadFrame _ f id) ?_
    rintro ⟨_, g, hg, _⟩
    rw [hd] at hg
    cases hg

theorem stuck_iff_of_noCurrentPage (hc : NoCurrentPage s) : Stuck s ↔ ReusesWithoutFrame s := by
  rw [Stuck, victim_eq_none_iff]
  constructor
  · rintro ⟨hr, hfree, hitems⟩
    exact ⟨hr, hfree, .inl ⟨hc, hitems⟩⟩
  · rintro ⟨hr, hfree, ⟨_, hitems⟩ | ⟨hno, _⟩⟩
    · exact ⟨hr, hfree, hitems⟩
    · exact absurd hc hno

theorem stuck_refused_iff (hc : ¬ NoCurrentPage s) {f : Fin n}
    (hf : s.fetch s.currentPid = (some f, u)) :
    Stuck (refused u s.currentPid f) ↔ ReusesWithoutFrame s := by
  have hhead := fetch_head s s.currentPid
  have hnext := fetch_nextPid (s := s) s.currentPid
  rw [hf] at hhead hnext
  have hr : (refused u s.currentPid f).reusableId = s.reusableId :=
    reusableId_congr ((refused_head _ _ _).trans hhead) ((refused_nextPid _ _ _).trans hnext)
  rw [Stuck, hr, victim_refused hf]
  constructor
  · rintro ⟨hr, hfree, hpinned⟩
    exact ⟨hr, hfree, .inr ⟨hc, hpinned⟩⟩
  · rintro ⟨hr, hfree, ⟨hno, _⟩ | ⟨_, hpinned⟩⟩
    · exact absurd hno hc
    · exact ⟨hr, hfree, hpinned⟩

theorem unchanged_refl (s : BufferPool n) : Unchanged s s := ⟨fun _ => .rfl, rfl, fun _ => rfl⟩

theorem unchanged_formatted (s : BufferPool n) (f : Fin n) (r : LruReplacer (Fin n)) :
    Unchanged s { s with
      pages := Function.update s.pages f
        { s.pages f with buffer := RecordPage.formatted (s.pages f).buffer }
      replacer := r } := by
  refine ⟨fun _ => .rfl, rfl, fun rid => ?_⟩
  unfold storedRecord pageBytes
  dsimp only
  cases hd : s.dir.lookup rid.pageId with
  | none => rfl
  | some g =>
    dsimp only
    by_cases hg : g = f
    · rw [hg, Function.update_self, RecordPage.init_formatted]
    · rw [Function.update_of_ne hg]

theorem unchanged_refused {id : ℕ} {f : Fin n} (hf : s.fetch id = (some f, u))
    (hs : Stuck (refused u id f)) : Unchanged s (refused u id f) := by
  obtain ⟨_, g, hd, _⟩ := (victim_refused hf).1 hs.2
  rcases s.fetch_cases id with ⟨g', hd', hg⟩ | ⟨hno, _, _⟩ | ⟨_, _, _, hno, _, _⟩
  · obtain ⟨hfg, rfl⟩ := Prod.mk.inj (hf.symm.trans hg)
    obtain rfl := Option.some.inj hfg
    rw [refused_pinFrame hd']
    exact unchanged_formatted s f _
  · rw [hd] at hno
    cases hno
  · rw [hd] at hno
    cases hno

theorem unchanged_iff (h : insert s record = some (none, s')) :
    Unchanged s s' ↔ ReusesWithoutFrame s := by
  by_cases hc : NoCurrentPage s
  · obtain ⟨hg, ⟨hs, rfl⟩ | ⟨hs, ha⟩⟩ := insert_none_of_noCurrentPage hc h
    · exact iff_of_true (unchanged_refl _) ((stuck_iff_of_noCurrentPage hc).1 hs)
    · rw [← stuck_iff_of_noCurrentPage hc]
      exact iff_of_false (not_unchanged ha hg) hs
  · obtain ⟨f, u, hf, hg, ⟨hs, rfl⟩ | ⟨hs, ha⟩⟩ := insert_none_of_currentPage hc h
    · exact iff_of_true (unchanged_refused hf hs) ((stuck_refused_iff hc hf).1 hs)
    · rw [← stuck_refused_iff hc hf]
      exact iff_of_false (not_unchanged ha hg) hs

/-- If the current page is cached, it has been formatted and, being pinned, is not in the replacer. -/
def CurrentSettled (s : BufferPool n) : Prop :=
  ∀ f, s.dir.lookup s.currentPid = some f →
    loadSize (s.pages f).buffer 8 ≠ 0 ∧ s.replacer.dir.lookup f = none

theorem eq_of_reusesWithoutFrame (h : insert s record = some (none, s'))
    (hr : ReusesWithoutFrame s) (hset : CurrentSettled s) : s' = s := by
  by_cases hc : NoCurrentPage s
  · obtain ⟨_, ⟨_, hs⟩ | ⟨hno, _⟩⟩ := insert_none_of_noCurrentPage hc h
    · exact hs
    · exact absurd ((stuck_iff_of_noCurrentPage hc).2 hr) hno
  · obtain ⟨f, u, hf, _, ⟨hs, rfl⟩ | ⟨hno, _⟩⟩ := insert_none_of_currentPage hc h
    · obtain ⟨_, g, hd, hpin, _⟩ := (victim_refused hf).1 hs.2
      obtain ⟨rfl, rfl⟩ : f = g ∧ u = s.pinFrame g := by
        unfold fetch at hf
        rw [hd] at hf
        obtain ⟨hfg, rfl⟩ := Prod.mk.inj hf
        exact ⟨(Option.some.inj hfg).symm, rfl⟩
      obtain ⟨h8, hlru⟩ := hset f hd
      have hremove : s.replacer.remove f = s.replacer := by
        unfold LruReplacer.remove
        rw [hlru]
      have hsame : { s.pages f with buffer := RecordPage.formatted (s.pages f).buffer } = s.pages f := by
        rw [RecordPage.formatted, if_neg h8]
      rw [refused_pinFrame hd, if_neg hpin, hremove, hsame, Function.update_eq_self]
    · exact absurd ((stuck_refused_iff hc hf).2 hr) hno

/-- A rejected insert leaves the heap as it was exactly when it had the id of a deleted page to
reuse and no frame for it. On a formatted page it then changes nothing in the pool. -/
theorem rejected_insert_iff (h : insert s record = some (none, s')) :
    (Unchanged s s' ↔ ReusesWithoutFrame s) ∧
      (ReusesWithoutFrame s → CurrentSettled s → s' = s) :=
  ⟨unchanged_iff h, eq_of_reusesWithoutFrame h⟩

/-- A heap without pins and without deleted pages is changed by every rejected insert. -/
theorem HeapInv.not_unchanged {pages : List (List Slot)} (hs : HeapInv s pages)
    (h : TableHeap.insert s record = some (none, s')) : ¬ Unchanged s s' := by
  obtain ⟨v, hv, _⟩ := hs.stores
  rw [unchanged_iff h]
  exact fun hr => hr.reuses hv.dense.reusableId_eq

def largeRecord : Record := { data := List.replicate 1000 0 }

theorem insert_largeRecord :
    ∃ s', insert (freshPool 0) largeRecord = some (none, s') := by
  have hlen : largeRecord.data.length = 1000 := List.length_replicate
  have hsize : largeRecord.data.length < pageSize := by
    rw [hlen]
    decide
  have hfit : ¬ Fits [] largeRecord.data.length := by
    rw [hlen]
    decide
  obtain ⟨r, s', h, hlim, hres⟩ := (heapInv_freshPool 0).insert_nil hsize
  have hplace : placeLast [[]] [] largeRecord.data = (none, [[], []]) := by
    rw [placeLast, if_neg hfit, placeNew, if_neg hfit]
    rfl
  rw [hplace] at hlim hres
  obtain ⟨rfl, _⟩ := hres (hlim (by simp [bfpMaxPageNum, pageSize]))
  exact ⟨s', h⟩

theorem rejected_insert_large : ∃ s', insert (freshPool 0) largeRecord = some (none, s') ∧
    (Unchanged (freshPool 0) s' ↔ ReusesWithoutFrame (freshPool 0)) ∧
      (ReusesWithoutFrame (freshPool 0) → CurrentSettled (freshPool 0) → s' = freshPool 0) := by
  obtain ⟨s', h⟩ := insert_largeRecord
  exact ⟨s', h, rejected_insert_iff h⟩

/-- A record that fits no page leaves two pages behind in an empty heap. -/
theorem rejected_insert_allocates : ¬ ∀ s', insert (freshPool 0) largeRecord = some (none, s') →
    Unchanged (freshPool 0) s' := by
  intro hall
  obtain ⟨s', h⟩ := insert_largeRecord
  exact (heapInv_freshPool 0).not_unchanged h (hall s' h)

end Tadis.TableHeap
