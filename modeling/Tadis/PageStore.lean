import Tadis.Allocation
import Tadis.Transition

/-!
# The buffer pool as a flat page store

A client fetches allocated pages, allocates pages, writes into pages it has pinned, gives pins back
and flushes. To the client the pool is a plain map from page ids to bytes: every run of the pool
from a well-formed file is matched, event by event, by a run of the map.
-/

namespace Tadis

/-- What a step shows: the bytes of a fetched page, the id of a new page, the bytes written. -/
inductive StoreEvent
  | fetch (id : ℕ) (b : PageBlock)
  | newPage (id : ℕ)
  | write (id : ℕ) (b : PageBlock)
  | silent

inductive StoreStep : (ℕ → PageBlock) → StoreEvent → (ℕ → PageBlock) → Prop
  | fetch (m : ℕ → PageBlock) (id : ℕ) : StoreStep m (.fetch id (m id)) m
  | newPage (m : ℕ → PageBlock) (id : ℕ) :
      StoreStep m (.newPage id) (Function.update m id Block.zero)
  | write (m : ℕ → PageBlock) (id : ℕ) (b : PageBlock) :
      StoreStep m (.write id b) (Function.update m id b)
  | silent (m : ℕ → PageBlock) : StoreStep m .silent m

/-- An outstanding pin: the page, the frame it was given, and whether the page has been written
since. -/
structure Pin (n : ℕ) where
  pid : ℕ
  frame : Fin n
  written : Bool

def Pin.mark {n : ℕ} (id : ℕ) (p : Pin n) : Pin n :=
  { p with written := p.written || p.pid == id }

structure Client (n : ℕ) where
  pool : BufferPool n
  pins : List (Pin n)

variable {n : ℕ}

def pinsOf (pins : List (Pin n)) (id : ℕ) : ℕ := pins.countP (fun p => p.pid == id)

/-- One call of a client, or one write through a frame that it holds. A page has fewer than `2 ^ 64`
outstanding pins. -/
inductive ClientStep : Client n → StoreEvent → Client n → Prop
  | fetch {c : Client n} {id : ℕ} {f : Fin n} {s : BufferPool n}
      (hid : c.pool.contain id = .success) (hlt : pinsOf c.pins id + 1 < 2 ^ 64)
      (hf : c.pool.fetch id = (some f, s)) :
      ClientStep c (.fetch id (s.pages f).buffer) ⟨s, ⟨id, f, false⟩ :: c.pins⟩
  | fetchFail {c : Client n} {id : ℕ} {s : BufferPool n}
      (hid : c.pool.contain id = .success) (hf : c.pool.fetch id = (none, s)) :
      ClientStep c .silent ⟨s, c.pins⟩
  | newPage {c : Client n} {id : ℕ} {f : Fin n} {s : BufferPool n}
      (hf : c.pool.newPage = (some (id, f), s)) :
      ClientStep c (.newPage id) ⟨s, ⟨id, f, false⟩ :: c.pins⟩
  | newPageFail {c : Client n} {s : BufferPool n} (hf : c.pool.newPage = (none, s)) :
      ClientStep c .silent ⟨s, c.pins⟩
  | write {c : Client n} {p : Pin n} (hp : p ∈ c.pins) (b : PageBlock) :
      ClientStep c (.write p.pid b)
        ⟨c.pool.setPage p.frame { c.pool.pages p.frame with buffer := b }, c.pins.map (.mark p.pid)⟩
  | unpin {c : Client n} {p : Pin n} {front back : List (Pin n)} {isDirty : Bool}
      (hp : c.pins = front ++ p :: back) (hd : p.written = true → isDirty = true) :
      ClientStep c .silent ⟨c.pool.unpin p.pid isDirty, front ++ back⟩
  | flushPage (c : Client n) (id : ℕ) : ClientStep c .silent ⟨c.pool.flushPage id, c.pins⟩
  | flushAllPage (c : Client n) : ClientStep c .silent ⟨c.pool.flushAllPage, c.pins⟩

def unsavedOf (pins : List (Pin n)) : Set ℕ := {id | ∃ p ∈ pins, p.pid = id ∧ p.written = true}

def Client.view (c : Client n) (live : Set ℕ) (m : ℕ → PageBlock) : PageView where
  pins := pinsOf c.pins
  unsaved := unsavedOf c.pins
  live := live
  bytes := m

/-- The client's pool shows the store, and every outstanding pin still names the frame of its
page. -/
structure Client.Refines (c : Client n) (m : ℕ → PageBlock) : Prop where
  shows : ∃ live, c.pool.Shows (c.view live m) ∧ c.pool.Allocates live
  held : ∀ p ∈ c.pins, c.pool.dir.lookup p.pid = some p.frame

theorem pinsOf_ne_zero {pins : List (Pin n)} {p : Pin n} (hp : p ∈ pins) : pinsOf pins p.pid ≠ 0 :=
  (List.countP_pos_iff.2 ⟨p, hp, by simp⟩).ne'

theorem pinsOf_cons (pins : List (Pin n)) (id : ℕ) (f : Fin n) (w : Bool) :
    pinsOf (⟨id, f, w⟩ :: pins) = BufferPool.addPin (pinsOf pins) id := by
  funext j
  by_cases hj : id = j
  · subst hj
    simp [pinsOf, BufferPool.addPin]
  · simp [pinsOf, BufferPool.addPin, hj, Ne.symm hj]

theorem unsavedOf_cons (pins : List (Pin n)) (id : ℕ) (f : Fin n) :
    unsavedOf (⟨id, f, false⟩ :: pins) = unsavedOf pins := by
  simp [unsavedOf]

theorem pinsOf_mark (pins : List (Pin n)) (id : ℕ) : pinsOf (pins.map (.mark id)) = pinsOf pins := by
  funext j
  rw [pinsOf, List.countP_map]
  rfl

theorem unsavedOf_mark {pins : List (Pin n)} {p : Pin n} (hp : p ∈ pins) :
    unsavedOf (pins.map (.mark p.pid)) = insert p.pid (unsavedOf pins) := by
  ext j
  constructor
  · rintro ⟨q', hq', rfl, hw⟩
    obtain ⟨q, hq, rfl⟩ := List.mem_map.1 hq'
    simp only [Pin.mark, Bool.or_eq_true, beq_iff_eq] at hw ⊢
    rcases hw with hw | he
    · exact .inr ⟨q, hq, rfl, hw⟩
    · exact .inl he
  · rintro (rfl | ⟨q, hq, rfl, hw⟩)
    · exact ⟨_, List.mem_map_of_mem hp, rfl, by simp [Pin.mark]⟩
    · exact ⟨_, List.mem_map_of_mem hq, rfl, by simp [Pin.mark, hw]⟩

theorem pinsOf_remove (front back : List (Pin n)) (p : Pin n) :
    pinsOf (front ++ back) = BufferPool.dropPin (pinsOf (front ++ p :: back)) p.pid := by
  funext j
  by_cases hj : p.pid = j
  · subst hj
    simp only [pinsOf, BufferPool.dropPin, Function.update_self, List.countP_append, List.countP_cons]
    simp
  · simp [pinsOf, BufferPool.dropPin, hj, Ne.symm hj]

variable {c : Client n} {m : ℕ → PageBlock}

theorem Client.Refines.of_pool (h : c.Refines m) {s : BufferPool n}
    (hs : ∀ live, c.pool.Shows (c.view live m) → c.pool.Allocates live →
      s.Shows (c.view live m) ∧ s.Allocates live) (hdir : s.dir = c.pool.dir) :
    Client.Refines ⟨s, c.pins⟩ m := by
  obtain ⟨live, hv, ha⟩ := h.shows
  refine ⟨⟨live, hs live hv ha⟩, ?_⟩
  intro p hp
  exact (congrArg (AList.lookup p.pid) hdir).trans (h.held p hp)

theorem Client.Refines.fetch (h : c.Refines m) {id : ℕ} {f : Fin n} {s : BufferPool n}
    (hid : c.pool.contain id = .success) (hlt : pinsOf c.pins id + 1 < 2 ^ 64)
    (hf : c.pool.fetch id = (some f, s)) :
    Client.Refines ⟨s, ⟨id, f, false⟩ :: c.pins⟩ m ∧ (s.pages f).buffer = m id := by
  obtain ⟨live, hv, ha⟩ := h.shows
  have hlive : id ∈ live := (ha.get_iff id).1 ((BufferPool.contain_eq_success_iff id).1 hid)
  obtain ⟨hs, hl, hb⟩ := hv.fetch hlive hlt hf
  have hs2 : (c.pool.fetch id).2 = s := by rw [hf]
  refine ⟨⟨⟨live, ?_, hs2 ▸ ha.fetch id⟩, ?_⟩, hb⟩
  · simpa [Client.view, PageView.pin, pinsOf_cons, unsavedOf_cons] using hs
  · intro p hp
    rcases List.mem_cons.1 hp with rfl | hp
    · exact hl
    · exact hs2 ▸ hv.frames.fetch_lookup (h.held p hp) (pinsOf_ne_zero hp) id

theorem Client.Refines.newPage (h : c.Refines m) {id : ℕ} {f : Fin n} {s : BufferPool n}
    (hf : c.pool.newPage = (some (id, f), s)) :
    Client.Refines ⟨s, ⟨id, f, false⟩ :: c.pins⟩ (Function.update m id Block.zero) := by
  obtain ⟨live, hv, ha⟩ := h.shows
  have hk := hv.keepsTable ha
  obtain ⟨hs, hl, _⟩ := hv.newPage ha.bounded hk hf
  have hs2 : c.pool.newPage.2 = s := by rw [hf]
  refine ⟨⟨insert id live, ?_, (ha.newPage hf).1⟩, ?_⟩
  · simpa [Client.view, PageView.adopt, pinsOf_cons, unsavedOf_cons] using hs
  · intro p hp
    rcases List.mem_cons.1 hp with rfl | hp
    · exact hl
    · exact hs2 ▸ (hv.frames.newPage_keeps (h.held p hp) (pinsOf_ne_zero hp) hk).1.1

theorem Client.Refines.write (h : c.Refines m) {p : Pin n} (hp : p ∈ c.pins) (b : PageBlock) :
    Client.Refines ⟨c.pool.setPage p.frame { c.pool.pages p.frame with buffer := b },
      c.pins.map (.mark p.pid)⟩ (Function.update m p.pid b) := by
  obtain ⟨live, hv, ha⟩ := h.shows
  have hs := hv.write (h.held p hp) (pinsOf_ne_zero hp) b
  refine ⟨⟨live, ?_, ha.congr rfl rfl⟩, ?_⟩
  · simpa [Client.view, PageView.write, pinsOf_mark, unsavedOf_mark hp] using hs
  · intro q' hq'
    obtain ⟨q, hq, rfl⟩ := List.mem_map.1 hq'
    exact h.held q hq

theorem Client.Refines.unpin (h : c.Refines m) {p : Pin n} {front back : List (Pin n)}
    {isDirty : Bool} (hp : c.pins = front ++ p :: back) (hd : p.written = true → isDirty = true) :
    Client.Refines ⟨c.pool.unpin p.pid isDirty, front ++ back⟩ m := by
  obtain ⟨live, hv, ha⟩ := h.shows
  have hmem : p ∈ c.pins := by simp [hp]
  have hpins : pinsOf (front ++ back) = BufferPool.dropPin (pinsOf c.pins) p.pid := by
    rw [hp, pinsOf_remove]
  have hs : (c.pool.unpin p.pid isDirty).Shows ((c.view live m).unpin p.pid
      (unsavedOf (front ++ back))) := by
    refine hv.unpin (pinsOf_ne_zero hmem) ?_ ?_
    · rintro j ⟨q, hq, rfl, hw⟩
      rw [hp, List.mem_append, List.mem_cons] at hq
      rcases hq with hq | rfl | hq
      · exact .inl ⟨q, List.mem_append_left _ hq, rfl, hw⟩
      · exact .inr ⟨rfl, hd hw⟩
      · exact .inl ⟨q, List.mem_append_right _ hq, rfl, hw⟩
    · rintro j ⟨q, hq, rfl, _⟩
      have := pinsOf_ne_zero hq
      rwa [hpins] at this
  refine ⟨⟨live, ?_, ha.unpin _ _⟩, ?_⟩
  · simpa [Client.view, PageView.unpin, hpins] using hs
  · intro q hq
    have hq' : q ∈ c.pins := by
      rw [hp]
      rcases List.mem_append.1 hq with hq | hq <;> simp [hq]
    rw [BufferPool.unpin_dir]
    exact h.held q hq'

theorem clientStep_simulates :
    Transition.Simulates (ClientStep (n := n)) StoreStep Client.Refines := by
  intro c m e c' h hs
  cases hs with
  | @fetch id f s hid hlt hf =>
    obtain ⟨hr, hb⟩ := h.fetch hid hlt hf
    exact ⟨m, hb ▸ .fetch m id, hr⟩
  | fetchFail hid hf =>
    rw [BufferPool.fetch_none_eq hf]
    exact ⟨m, .silent m, h⟩
  | @newPage id f s hf => exact ⟨_, .newPage m id, h.newPage hf⟩
  | newPageFail hf =>
    refine ⟨m, .silent m, h.of_pool ?_ ?_⟩
    · intro live hv ha
      refine ⟨?_, ha.newPage_none hf⟩
      rw [BufferPool.newPage_none_eq hf]
      exact hv.withDisk (fun id _ => .inl (BufferPool.stored_chosenDisk _ id))
    · rw [BufferPool.newPage_none_eq hf]
  | @write p hp b => exact ⟨_, .write m p.pid b, h.write hp b⟩
  | unpin hp hd => exact ⟨m, .silent m, h.unpin hp hd⟩
  | flushPage id =>
    refine ⟨m, .silent m, h.of_pool (fun live hv ha => ⟨hv.flushPage id, ?_⟩) ?_⟩
    · exact ha.congr (BufferPool.flushPage_head _ id) (BufferPool.flushPage_nextPid _ id)
    · exact BufferPool.flushPage_dir _ id
  | flushAllPage =>
    refine ⟨m, .silent m, h.of_pool (fun live hv ha => ⟨hv.flushAllPage, ?_⟩) rfl⟩
    exact ha.congr rfl (BufferPool.flushEntries_nextPid _ _ _)

/-- The header page marks exactly the ids below `phy_num_` as allocated. -/
def HeaderMarksPrefix (file : File) : Prop :=
  let header := DiskManager.stored { file := file } 0
  loadSize header 0 = loadSize header 8 ∧
    ∀ id, BitMap.get (header.load 16 bfpBitmapMaxSize) id = true ↔ id < loadSize header 8

theorem headerMarksPrefix_absent : HeaderMarksPrefix File.absent := by
  have hz : DiskManager.stored { file := File.absent } 0 = Block.zero := rfl
  have hg : ∀ id, BitMap.get (List.replicate bfpBitmapMaxSize 0) id = false := fun id =>
    (BitMap.get_append_zeros [] bfpBitmapMaxSize id).trans (BitMap.get_of_length_le (Nat.zero_le _))
  simp [HeaderMarksPrefix, hz, Block.load_zero, hg]

theorem get_load (b : PageBlock) {off len len' i : ℕ} (hi : i / 8 < len) (hlen : len ≤ len') :
    BitMap.get (b.load off len) i = BitMap.get (b.load off len') i := by
  rw [BitMap.get, BitMap.get, Block.getD_load, Block.getD_load, if_pos hi, if_pos (by omega)]

theorem HeaderMarksPrefix.openFile {file : File} (h : HeaderMarksPrefix file) (k : ℕ) :
    ∃ (s₀ : BufferPool (k + 1)) (live : Set ℕ), BufferPool.openFile (k + 1) file = some s₀ ∧
      s₀.Shows (BufferPool.openedView file live) ∧ s₀.Allocates live := by
  obtain ⟨hnum, hbits⟩ := h
  by_cases h0 : loadSize (DiskManager.stored { file := file } 0) 8 = 0
  · obtain ⟨s₀, hs, hv, ha, _⟩ := BufferPool.openFile_of_no_header k (hnum.trans h0)
    exact ⟨s₀, _, hs, hv, ha⟩
  · generalize hheader : DiskManager.stored { file := file } 0 = header at hnum hbits h0
    obtain ⟨p, hp⟩ : ∃ p, loadSize header 8 = p + 1 := ⟨_, (Nat.succ_pred_eq_of_ne_zero h0).symm⟩
    have hsize : BFPHeaderPage.bitmapSize (p + 1) (p + 1) = p / 8 + 1 :=
      BFPHeaderPage.bitmapSize_self_eq p
    have hmax : p / 8 + 1 ≤ bfpBitmapMaxSize := by
      have hlast : p < bfpBitmapMaxSize * 8 := by
        simpa using BitMap.lt_of_get ((hbits p).2 (by omega))
      omega
    have hget : ∀ id, BitMap.get (header.load 16 (p / 8 + 1)) id = true ↔ id < p + 1 := by
      intro id
      by_cases hid : id / 8 < p / 8 + 1
      · rw [get_load header hid hmax, hbits, hp]
      · rw [BitMap.get_of_length_le (by rw [Block.length_load]; omega)]
        simp
        omega
    have hfit : Block.Fits pageSize 16 (BFPHeaderPage.bitmapSize (p + 1) (p + 1)) := by
      rw [hsize, Block.Fits]
      unfold bfpBitmapMaxSize at hmax
      omega
    have hload : (DiskManager.stored { file := file } 0).load 16
        (BFPHeaderPage.bitmapSize (p + 1) (p + 1)) = header.load 16 (p / 8 + 1) := by
      rw [hheader, hsize]
    have hnum' : loadSize (DiskManager.stored { file := file } 0) 0 = p + 1 := by
      rw [hheader, hnum, hp]
    have hphy : loadSize (DiskManager.stored { file := file } 0) 8 = p + 1 := by
      rw [hheader, hp]
    obtain ⟨s₀, hs, hv, ha, _⟩ := BufferPool.openFile_of_header k
      ⟨p + 1, p + 1, header.load 16 (p / 8 + 1)⟩ hnum' hphy hfit hload (Nat.succ_ne_zero p)
      ((hget 0).2 (Nat.succ_pos p)) (fun id hid => (hget id).1 hid)
    exact ⟨s₀, _, hs, hv, ha⟩

/-- Every run of a pool with at least one frame over an empty file, or one whose header marks
exactly the ids below `phy_num_`, is a run of the flat store that starts from the bytes of the
opened file. -/
theorem pool_refines_flat_store (k : ℕ) {file : File}
    (hfile : file = File.absent ∨ HeaderMarksPrefix file) :
    ∃ s₀ : BufferPool (k + 1), BufferPool.openFile (k + 1) file = some s₀ ∧
      ∀ es c, Transition.Run ClientStep ⟨s₀, []⟩ es c →
        ∃ m, Transition.Run StoreStep (BufferPool.openedBytes file) es m := by
  have hfile : HeaderMarksPrefix file := by
    rcases hfile with rfl | h
    · exact headerMarksPrefix_absent
    · exact h
  obtain ⟨s₀, live, hs, hv, ha⟩ := hfile.openFile k
  refine ⟨s₀, hs, fun es c hrun => ?_⟩
  have hr : Client.Refines ⟨s₀, []⟩ (BufferPool.openedBytes file) := by
    refine ⟨⟨live, ?_, ha⟩, fun p hp => absurd hp List.not_mem_nil⟩
    have hpins : pinsOf ([] : List (Pin (k + 1))) = fun _ => 0 := rfl
    simpa [Client.view, BufferPool.openedView, hpins, unsavedOf] using hv
  obtain ⟨m, hm, _⟩ := clientStep_simulates.run hrun hr
  exact ⟨m, hm⟩

/-- `pool_refines_flat_store` for one frame over an absent file. -/
theorem pool_refines_flat_store_one_frame :
    HeaderMarksPrefix File.absent ∧
      ∃ s₀ : BufferPool 1, BufferPool.openFile 1 File.absent = some s₀ ∧
        ∀ es c, Transition.Run ClientStep ⟨s₀, []⟩ es c →
          ∃ m, Transition.Run StoreStep (BufferPool.openedBytes File.absent) es m :=
  ⟨headerMarksPrefix_absent, pool_refines_flat_store 0 (.inr headerMarksPrefix_absent)⟩

end Tadis
