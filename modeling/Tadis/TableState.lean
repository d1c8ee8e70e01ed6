import Tadis.Closing
import Tadis.FreeGap
import Tadis.RejectedInsert

/-!
# The states of a table

Every page of a table but page 0 is blank or a record page, in the cache and on file. The page
operations keep that in whatever order they are called and however many pins are left over, and so
do the inserts and removals of a heap.
-/

namespace Tadis.TableHeap

open BufferPool

attribute [local irreducible] RecordPage.formatted

variable {n : ℕ} {s s' t u : BufferPool n} {f : Fin n} {record : Record} {slots : List Slot}

/-- The slots of a page, which is blank before the first `RecordPage` is built over it. -/
def HasSlots (b : PageBlock) (slots : List Slot) : Prop :=
  ∃ rp, RecordPage.Holds rp (RecordPage.formatted b) slots

def IsRecordPage (b : PageBlock) : Prop := ∃ slots, HasSlots b slots

def TableFile (d : DiskManager) : Prop := ∀ id, id ≠ 0 → Addressable id → IsRecordPage (d.stored id)

structure TableState (s : BufferPool n) : Prop where
  own : s.CachesOwn
  addressable : s.CachesAddressable
  bounded : s.BitmapBounded
  cached : ∀ id f, id ≠ 0 → s.dir.lookup id = some f → IsRecordPage (s.pages f).buffer
  stored : TableFile s.disk

theorem hasSlots_zero : HasSlots Block.zero [] := by
  have hz : loadSize (Block.zero : PageBlock) 8 = 0 := loadSize_zero 8
  refine ⟨{}, ?_⟩
  rw [RecordPage.formatted, if_pos hz]
  exact (RecordPage.init_zero (p := {}) rfl).2

theorem HasSlots.formatted {b : PageBlock} (h : HasSlots b slots) :
    HasSlots (RecordPage.formatted b) slots := by
  unfold HasSlots
  rwa [RecordPage.formatted_formatted]

theorem hasSlots_of_holds {rp : RecordPage} {b : PageBlock} (h : rp.Holds b slots) :
    HasSlots b slots := by
  have h8 : loadSize b 8 ≠ 0 := by
    rw [h.load_end]
    have := h.room
    omega
  refine ⟨rp, ?_⟩
  rwa [RecordPage.formatted, if_neg h8]

/-- Building a `RecordPage` over such a page finds its slots and formats it if it is blank. -/
theorem HasSlots.init {p : Page} (h : HasSlots p.buffer slots) : ∃ rp,
    RecordPage.init p = some (rp, { p with buffer := RecordPage.formatted p.buffer }) ∧
      rp.Holds (RecordPage.formatted p.buffer) slots := by
  obtain ⟨rp, hrp⟩ := h
  have hinit := RecordPage.Holds.init (p := { p with buffer := RecordPage.formatted p.buffer }) hrp
  rw [RecordPage.init_eq] at hinit
  dsimp only at hinit
  rw [RecordPage.loadSize_formatted _ (.inr le_rfl), RecordPage.decoded_formatted,
    RecordPage.formatted_formatted] at hinit
  exact ⟨rp, (RecordPage.init_eq p).trans hinit, hrp⟩

theorem insertInto_cases_of_slots (record : Record) (h : HasSlots (s.pages f).buffer slots) :
    (record.data.length < freeEnd slots ∧ Fits slots record.data.length ∧ ∃ rp b,
      insertInto s f record = some (some ⟨(s.pages f).pid, slots.length⟩,
        s.setPage f { s.pages f with buffer := b }) ∧
        RecordPage.Holds rp b (slots ++ [⟨record.data, true⟩])) ∨
    (record.data.length < freeEnd slots ∧ ¬ Fits slots record.data.length ∧
      insertInto s f record = some (none,
        s.setPage f { s.pages f with buffer := RecordPage.formatted (s.pages f).buffer })) ∨
    (freeEnd slots ≤ record.data.length ∧
      (record.data.length < 2 ^ 63 → insertInto s f record = none) ∧
      ∀ rid t, insertInto s f record ≠ some (some rid, t)) := by
  obtain ⟨rp, hi, hrp⟩ := h.init
  rcases lt_or_ge record.data.length (freeEnd slots) with hlen | hlen
  · rcases offer (p := { s.pages f with buffer := RecordPage.formatted (s.pages f).buffer }) hrp hlen
      with ⟨hfit, rp', b, hr, hb⟩ | ⟨hfit, hr⟩
    · exact .inl ⟨hlen, hfit, rp', b, insertInto_eq hi hr, hb⟩
    · exact .inr (.inl ⟨hlen, hfit, insertInto_eq hi hr⟩)
  · have hsmall : record.data.length < 2 ^ 63 → insertInto s f record = none := by
      intro hsize
      have hend : rp.freeAddrEnd ≤ record.data.length := by
        rwa [freeAddrEnd_eq_freeEnd hrp]
      obtain ⟨he, hstart⟩ := hrp.enough_of_le hend hsize
      have hfit : ¬ Block.Fits pageSize (rp.startIdx record.data.length) (1 + record.data.length) := by
        unfold Block.Fits
        omega
      rw [insertInto, hi, Option.bind_eq_bind, Option.bind_some]
      dsimp only
      rw [RecordPage.insert, if_pos he]
      dsimp only
      rw [if_neg hfit]
      rfl
    refine .inr (.inr ⟨hlen, hsmall, fun rid t ht => ?_⟩)
    -- a record that is written lies inside the page
    have hsize : record.data.length < 2 ^ 63 := by
      rw [insertInto, hi, Option.bind_eq_bind, Option.bind_some] at ht
      dsimp only at ht
      obtain ⟨⟨r, rp', p'⟩, hr, hx⟩ := Option.bind_eq_some_iff.1 ht
      obtain rfl := (Prod.mk.inj (Option.some.inj hx)).1
      rw [RecordPage.insert] at hr
      split_ifs at hr with he
      · dsimp only at hr
        split_ifs at hr with hfit
        unfold Block.Fits pageSize at hfit
        omega
      · cases (Prod.mk.inj (Option.some.inj hr)).1
    rw [hsmall hsize] at ht
    cases ht

theorem TableState.congr (h : TableState s) (hdir : s'.dir = s.dir)
    (hpages : ∀ f, (s'.pages f).pid = (s.pages f).pid ∧ (s'.pages f).buffer = (s.pages f).buffer)
    (hhead : s'.head = s.head) (hfile : s'.disk.file = s.disk.file) : TableState s' where
  own := h.own.congr hdir fun f => (hpages f).1
  addressable id f hf := h.addressable id f (hdir ▸ hf)
  bounded := by simpa only [BitmapBounded, hhead] using h.bounded
  cached id f h0 hf := by
    rw [(hpages f).2]
    exact h.cached id f h0 (hdir ▸ hf)
  stored id h0 hid := by
    have hs : s'.disk.stored id = s.disk.stored id := by
      rw [DiskManager.stored, DiskManager.readPage, hfile]
      rfl
    rw [hs]
    exact h.stored id h0 hid

/-- New contents of a frame, which have to be a record page if the frame caches a data page. -/
theorem TableState.setPage (h : TableState s) {p : Page} (hpid : p.pid = (s.pages f).pid)
    (hb : ∀ id, id ≠ 0 → s.dir.lookup id = some f → IsRecordPage p.buffer) :
    TableState (s.setPage f p) where
  own := by
    refine h.own.congr rfl fun g => ?_
    by_cases hg : g = f
    · rw [hg, setPage_pages, Function.update_self, hpid]
    · rw [setPage_pages, Function.update_of_ne hg]
  addressable := h.addressable
  bounded := h.bounded
  cached id g h0 hg := by
    by_cases hgf : g = f
    · rw [setPage_pages, hgf, Function.update_self]
      exact hb id h0 (hgf ▸ hg)
    · rw [setPage_pages, Function.update_of_ne hgf]
      exact h.cached id g h0 hg
  stored := h.stored

theorem TableState.writePage (h : TableState s) {id : ℕ} (hf : s.dir.lookup id = some f) :
    TableFile (s.disk.writePage id (s.pages f).buffer) := by
  intro j h0 hj
  by_cases hji : j = id
  · rw [hji, DiskManager.stored_writePage_same]
    exact h.cached id f (hji ▸ h0) hf
  · rw [DiskManager.stored_writePage_of_ne _ _ (pageOffset_ne hj (h.addressable id f hf) hji)]
    exact h.stored j h0 hj

theorem TableState.flushPage (h : TableState s) (id : ℕ) : TableState (s.flushPage id) := by
  unfold BufferPool.flushPage
  cases hd : s.dir.lookup id with
  | none => exact h
  | some f => exact ⟨h.own, h.addressable, h.bounded, h.cached, h.writePage hd⟩

theorem TableState.evicted (h : TableState s) (f : Fin n) : TableFile (s.evicted f) := by
  unfold BufferPool.evicted
  split
  · exact (h.flushPage _).stored
  · exact h.stored

theorem TableState.remapped (h : TableState s) {id : ℕ} (hr : s.Remapped s' f id)
    (ha : s'.CachesAddressable) (hbound : s'.BitmapBounded) (hfile : TableFile s'.disk)
    (hb : id ≠ 0 → IsRecordPage (s'.pages f).buffer) : TableState s' where
  own := h.own.remapped hr
  addressable := ha
  bounded := hbound
  cached j g h0 hg := by
    by_cases hji : j = id
    · rw [hji, hr.lookup_self] at hg
      rw [← Option.some.inj hg]
      exact hb (hji ▸ h0)
    · by_cases hold : j = (s.pages f).pid
      · rw [hold, hr.lookup_old (hold ▸ hji)] at hg
        cases hg
      · rw [hr.lookup_of_ne j hji hold] at hg
        have hgf : g ≠ f := by
          rintro rfl
          exact hold (h.own j g hg).symm
        rw [hr.pages_ne g hgf]
        exact h.cached j g h0 hg
  stored := hfile

theorem TableState.fetch (h : TableState s) {id : ℕ} (hid : Addressable id) :
    TableState (s.fetch id).2 := by
  have ha := h.addressable.fetch hid
  have hbound : (s.fetch id).2.BitmapBounded := by
    simpa only [BitmapBounded, fetch_head] using h.bounded
  rcases s.fetch_cases id with ⟨f, _, hf⟩ | ⟨_, _, hf⟩ | ⟨f, free, lru, _, _, hf⟩
  · rw [hf]
    refine h.congr rfl (fun g => ?_) rfl rfl
    by_cases hg : g = f <;> simp [pinFrame, hg]
  · rwa [hf]
  · rw [hf] at ha hbound ⊢
    have hev := evicted_congr (s := s) (t := { s with freeList := free, replacer := lru })
      rfl rfl rfl f
    refine h.remapped (s.remapped_loadFrame f id free lru) ha hbound ?_ fun h0 => ?_
    · rw [loadFrame_eq]
      dsimp only
      rw [hev]
      exact h.evicted f
    · rw [loadFrame_eq]
      dsimp only
      rw [Function.update_self, hev]
      exact h.evicted f id h0 hid

theorem TableState.newPage (h : TableState s) : TableState s.newPage.2 := by
  have ha := h.addressable.newPage h.bounded
  have hbound := h.bounded.newPage
  rcases s.newPage_cases with ⟨_, hf⟩ | ⟨id, f, free, lru, _, _, hf⟩
  · rw [hf]
    exact h.congr rfl (fun _ => ⟨rfl, rfl⟩) rfl s.chosenDisk_file
  · rw [hf] at ha hbound ⊢
    have ht : TableState { s with disk := s.chosenDisk, freeList := free, replacer := lru } :=
      h.congr rfl (fun _ => ⟨rfl, rfl⟩) rfl s.chosenDisk_file
    refine h.remapped (s.remapped_allocFrame f id _ free lru) ha hbound ?_ fun _ => ?_
    · rw [allocFrame_eq]
      exact ht.evicted f
    · rw [allocFrame_eq]
      dsimp only
      rw [Function.update_self]
      exact ⟨[], hasSlots_zero⟩

theorem TableState.unpin (h : TableState s) (id : ℕ) (d : Bool) : TableState (s.unpin id d) :=
  h.congr (unpin_dir s id d) (fun f => ⟨unpin_pid s id d f, (unpin_frame s id d f).1⟩)
    (unpin_head s id d) (by rw [unpin_disk])

theorem TableState.applyOp (h : TableState s) {op : PoolOp}
    (ha : FetchesAddressable (n := n) (.call op)) : TableState (s.applyOp op) := by
  cases op with
  | fetch id => exact h.fetch ha
  | newPage => exact h.newPage
  | flushPage id => exact h.flushPage id
  | unpin id d => exact h.unpin id d

theorem newPage_frame {id : ℕ} (hf : s.newPage = (some (id, f), t)) :
    t.dir.lookup id = some f ∧ (t.pages f).pid = id ∧ (t.pages f).buffer = Block.zero := by
  rcases s.newPage_cases with ⟨_, hg⟩ | ⟨j, g, free, lru, _, _, hg⟩
  · simp [hf] at hg
  · obtain ⟨⟨rfl, rfl⟩, rfl⟩ := by simpa [hf] using hg
    have hr := s.remapped_allocFrame f id s.chosenDisk free lru
    exact ⟨hr.lookup_self, hr.pid_self, by simp [allocFrame_eq]⟩

theorem TableState.insertInto (h : TableState s) (hs : HasSlots (s.pages f).buffer slots)
    {rid : Option RID} (hi : TableHeap.insertInto s f record = some (rid, t)) : TableState t := by
  rcases insertInto_cases_of_slots record hs with
    ⟨_, _, rp, b, hr, hb⟩ | ⟨_, _, hr⟩ | ⟨_, _, hno⟩
  · obtain rfl := (Prod.mk.inj (Option.some.inj (hi.symm.trans hr))).2
    exact h.setPage rfl fun _ _ _ => ⟨_, hasSlots_of_holds hb⟩
  · obtain rfl := (Prod.mk.inj (Option.some.inj (hi.symm.trans hr))).2
    exact h.setPage rfl fun _ _ _ => ⟨_, hs.formatted⟩
  · cases rid with
    | some rid => exact absurd hi (hno rid t)
    | none =>
      obtain ⟨p, rfl, hp⟩ := insertInto_cases hi
      rw [hp rfl]
      exact h.setPage rfl fun _ _ _ => ⟨_, hs.formatted⟩

theorem TableState.insertAt (h : TableState s) (hs : HasSlots (s.pages f).buffer slots) {pid : ℕ}
    {rid : Option RID} (hi : TableHeap.insertAt s pid f record = some (rid, s')) : TableState s' := by
  unfold TableHeap.insertAt at hi
  obtain ⟨⟨r, t⟩, ht, hi⟩ := Option.bind_eq_some_iff.1 hi
  have hst := h.insertInto hs ht
  cases r with
  | some r =>
    cases hi
    exact hst.unpin pid true
  | none =>
    have hnew := (hst.unpin pid false).newPage
    dsimp only at hi
    rcases hn : (t.unpin pid false).newPage with ⟨_ | ⟨id, g⟩, u⟩
    · rw [hn] at hi hnew
      cases hi
      exact hnew
    · rw [hn] at hi hnew
      obtain ⟨⟨r, w⟩, hw, hi⟩ := Option.bind_eq_some_iff.1 hi
      cases hi
      have hzero : HasSlots (u.pages g).buffer [] := by
        rw [(newPage_frame hn).2.2]
        exact hasSlots_zero
      exact (hnew.insertInto hzero hw).unpin id true

theorem TableState.insert (h : TableState s) (hcur : Addressable s.currentPid) {rid : Option RID}
    (hi : TableHeap.insert s record = some (rid, s')) : TableState s' := by
  unfold TableHeap.insert at hi
  dsimp only at hi
  split_ifs at hi with hc
  · have hnew := h.newPage
    rcases hn : s.newPage with ⟨_ | ⟨id, f⟩, t⟩
    · rw [hn] at hi hnew
      cases hi
      exact hnew
    · rw [hn] at hi hnew
      have hzero : HasSlots (t.pages f).buffer [] := by
        rw [(newPage_frame hn).2.2]
        exact hasSlots_zero
      exact hnew.insertAt hzero hi
  · have hfetch := h.fetch hcur
    rcases hf : s.fetch s.currentPid with ⟨_ | f, t⟩
    · rw [hf] at hi
      cases hi
    · rw [hf] at hi hfetch
      obtain ⟨slots, hslots⟩ := hfetch.cached _ f (fun h0 => hc (.inr h0)) (fetch_lookup_self hf)
      exact hfetch.insertAt hslots hi

theorem TableState.build (h : TableState s) {rp : RecordPage} {p : Page}
    (hp : RecordPage.init (s.pages f) = some (rp, p)) : TableState (s.setPage f p) := by
  rw [RecordPage.init_eq] at hp
  split_ifs at hp
  obtain rfl := (Prod.mk.inj (Option.some.inj hp)).2
  refine h.setPage rfl fun id h0 hf => ?_
  obtain ⟨slots, hslots⟩ := h.cached id f h0 hf
  exact ⟨slots, hslots.formatted⟩

theorem TableState.remove (h : TableState s) {rid : RID} (h0 : rid.pageId ≠ 0)
    (hid : Addressable rid.pageId) {ok : Bool} (hr : TableHeap.remove s rid = some (ok, s')) :
    TableState s' := by
  unfold TableHeap.remove at hr
  have hfetch := h.fetch hid
  rcases hf : s.fetch rid.pageId with ⟨_ | f, t⟩
  · rw [hf] at hr hfetch
    cases hr
    exact hfetch
  · rw [hf] at hr hfetch
    dsimp only at hfetch
    obtain ⟨slots, hslots⟩ := hfetch.cached _ f h0 (fetch_lookup_self hf)
    have hset : ∀ b, IsRecordPage b → TableState (t.setPage f { t.pages f with buffer := b }) :=
      fun b hb => hfetch.setPage rfl fun _ _ _ => hb
    obtain ⟨rp, hi, hrp⟩ := hslots.init
    have hkill := RecordPage.Holds.remove_eq
      (p := { t.pages f with buffer := RecordPage.formatted (t.pages f).buffer }) hrp rid
    dsimp only at hr
    rw [hi, Option.bind_eq_bind, Option.bind_some] at hr
    dsimp only at hr
    rw [hkill] at hr
    by_cases hlt : rid.slotId < slots.length
    · rw [if_pos hlt] at hr
      cases hr
      exact (hset _ ⟨_, hasSlots_of_holds (hrp.removed hlt)⟩).unpin _ _
    · rw [if_neg hlt] at hr
      cases hr
      exact (hset _ ⟨_, hslots.formatted⟩).unpin _ _

/-- A page operation, the construction of a `RecordPage` over a frame, or a call of the heap. -/
inductive TableOp (n : ℕ)
  | call (op : PoolOp)
  | build (f : Fin n)
  | insert (record : Record)
  | remove (rid : RID)

inductive TableStep : BufferPool n → TableOp n → BufferPool n → Prop
  | call (s : BufferPool n) (op : PoolOp) : TableStep s (.call op) (s.applyOp op)
  | build {s : BufferPool n} {f : Fin n} {rp : RecordPage} {p : Page}
      (h : RecordPage.init (s.pages f) = some (rp, p)) : TableStep s (.build f) (s.setPage f p)
  | insert {s s' : BufferPool n} {record : Record} {rid : Option RID}
      (h : TableHeap.insert s record = some (rid, s')) : TableStep s (.insert record) s'
  | remove {s s' : BufferPool n} {rid : RID} {ok : Bool}
      (h : TableHeap.remove s rid = some (ok, s')) : TableStep s (.remove rid) s'

/-- The page that is fetched lies at an offset of the file that does not wrap, and is a data page if
the heap fetches it. -/
def InFile (s : BufferPool n) : TableOp n → Prop
  | .call op => FetchesAddressable (n := n) (.call op)
  | .build _ => True
  | .insert _ => Addressable s.currentPid
  | .remove rid => rid.pageId ≠ 0 ∧ Addressable rid.pageId

theorem TableState.tableStep (h : TableState s) {op : TableOp n} (hs : TableStep s op s')
    (hop : InFile s op) : TableState s' := by
  cases hs with
  | call op => exact h.applyOp hop
  | build hp => exact h.build hp
  | insert hi => exact h.insert hop hi
  | remove hr => exact h.remove hop.1 hop.2 hr

theorem tableState_openFile {file : File} (hfile : TableFile { file := file }) {s₀ : BufferPool n}
    (h₀ : openFile n file = some s₀) : TableState s₀ := by
  have hc := closable_openFile h₀
  refine ⟨hc.own, hc.addressable, hc.bounded, fun id f h0 hf => ?_, fun id h0 hid => ?_⟩
  · cases n with
    | zero => exact f.elim0
    | succ m =>
      rw [openFile_succ] at h₀
      obtain ⟨r, _, rfl⟩ := Option.map_eq_some_iff.1 h₀
      simp only [openedPool, lookup_singleton] at hf
      split_ifs at hf with hz
      exact absurd hz h0
  · cases n with
    | zero =>
      rw [openFile_zero] at h₀
      obtain rfl := Option.some.inj h₀
      exact hfile id h0 hid
    | succ m =>
      rw [openFile_succ] at h₀
      obtain ⟨⟨b, head, p⟩, _, rfl⟩ := Option.map_eq_some_iff.1 h₀
      cases b with
      | false => exact hfile id h0 hid
      | true =>
        rw [stored_update_zero file _ p.buffer hid h0 rfl]
        exact hfile id h0 hid

/-- Every state that the operations of a table lead to is the state of a table. -/
theorem tableState_run {file : File} (hfile : TableFile { file := file }) {s₀ : BufferPool n}
    (h₀ : openFile n file = some s₀) {ops : List (TableOp n)}
    (hrun : Transition.Run TableStep s₀ ops s)
    (hops : ∀ u op, Transition.Taken TableStep s₀ ops s u op → InFile u op) : TableState s :=
  hrun.invariant_of_taken (I := TableState) (Q := InFile) (fun _ _ _ hs hst hop => hs.tableStep hst hop)
    (tableState_openFile hfile h₀) hops

theorem tableFile_absent : TableFile { file := File.absent } := fun _ _ _ => ⟨[], hasSlots_zero⟩

end Tadis.TableHeap
