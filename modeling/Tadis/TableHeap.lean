import Tadis.RecordPage
import Tadis.DensePool

/-!
# The table heap

`insert` tries the last page, then a new one. The `RID` that the record page hands out stays local
to `insert` in the source; the model returns it in place of `true`, and `none` in place of `false`.
Records only ever go to the last page, so the pages of a heap are a list of slot lists.
-/

namespace Tadis.TableHeap

variable {n : ℕ}

/-- Build a record page over frame `f` and offer it the record. -/
def insertInto (s : BufferPool n) (f : Fin n) (record : Record) :
    Option (Option RID × BufferPool n) := do
  let (rp, p) ← RecordPage.init (s.pages f)
  let (rid, _, p) ← rp.insert p record
  some (rid, s.setPage f p)

/-- `insert` once the page to try first is in frame `f`. -/
def insertAt (s : BufferPool n) (pid : ℕ) (f : Fin n) (record : Record) :
    Option (Option RID × BufferPool n) := do
  let (rid, s) ← insertInto s f record
  match rid with
  | some rid => some (some rid, s.unpin pid true)
  | none =>
    match (s.unpin pid false).newPage with
    | (none, s) => some (none, s)
    | (some (pid, f), s) => do
      let (rid, s) ← insertInto s f record
      some (rid, s.unpin pid true)

def insert (s : BufferPool n) (record : Record) : Option (Option RID × BufferPool n) :=
  let pid := s.currentPid
  if pid = invalidId ∨ pid = 0 then
    match s.newPage with
    | (none, s) => some (none, s)
    | (some (pid, f), s) => insertAt s pid f record
  else
    match s.fetch pid with
    | (none, _) => none
    | (some f, s) => insertAt s pid f record

def remove (s : BufferPool n) (rid : RID) : Option (Bool × BufferPool n) :=
  match s.fetch rid.pageId with
  | (none, s) => some (false, s)
  | (some f, s) => do
    let (rp, p) ← RecordPage.init (s.pages f)
    let (ok, p) ← rp.remove p rid
    some (ok, (s.setPage f p).unpin rid.pageId true)

/-- `free_addr_end_` of the page that `insert` tries first. -/
def firstFreeEnd (s : BufferPool n) : Option ℕ :=
  let tried :=
    if s.currentPid = invalidId ∨ s.currentPid = 0 then (s.newPage.1.map Prod.snd, s.newPage.2)
    else s.fetch s.currentPid
  match tried with
  | (none, _) => none
  | (some f, s) => (RecordPage.init (s.pages f)).map (fun x => x.1.freeAddrEnd)

def used (slots : List Slot) : ℕ := (slots.map (fun s => s.bytes.length + 1)).sum

/-- `free_addr_end_` of a page with the given slots. -/
def freeEnd (slots : List Slot) : ℕ := pageSize - used slots

/-- What `enough` decides. -/
def Fits (slots : List Slot) (len : ℕ) : Prop :=
  8 * (3 + slots.length) + 8 < freeEnd slots - len - 1

instance (slots : List Slot) (len : ℕ) : Decidable (Fits slots len) := Nat.decLt _ _

@[simp] theorem freeEnd_nil : freeEnd [] = pageSize := rfl

theorem slotEnd_add_used {rp : RecordPage} {b : PageBlock} {slots : List Slot}
    (h : rp.Holds b slots) {i : ℕ} (hi : i ≤ slots.length) :
    rp.slotEnd i + used (slots.take i) = pageSize := by
  induction i with
  | zero => rfl
  | succ i ih =>
    have hs := List.getElem?_eq_getElem (Nat.lt_of_succ_le hi)
    have hadd := h.start_add i _ hs
    have ih := ih (Nat.le_of_succ_le hi)
    rw [RecordPage.slotEnd_succ, List.take_add_one, hs]
    simp only [used, Option.toList_some, List.map_append, List.sum_append, List.map_cons,
      List.map_nil, List.sum_cons, List.sum_nil] at ih ⊢
    omega

theorem freeAddrEnd_eq_freeEnd {rp : RecordPage} {b : PageBlock} {slots : List Slot}
    (h : rp.Holds b slots) : rp.freeAddrEnd = freeEnd slots := by
  have hadd := slotEnd_add_used h le_rfl
  rw [List.take_length, ← h.freeAddrEnd_eq] at hadd
  unfold freeEnd
  omega

theorem enough_iff_fits {rp : RecordPage} {b : PageBlock} {slots : List Slot}
    (h : rp.Holds b slots) {len : ℕ} (hlen : len < freeEnd slots) :
    rp.enough len = true ↔ Fits slots len := by
  have hend := freeAddrEnd_eq_freeEnd h
  have hstart := RecordPage.startIdx_eq (hend ▸ hlen) h.freeAddrEnd_le
  rw [RecordPage.enough, hstart, h.length_eq, hend, Fits, decide_eq_true_iff]

theorem offer {rp : RecordPage} {p : Page} {slots : List Slot} (h : rp.Holds p.buffer slots)
    {record : Record} (hlen : record.data.length < freeEnd slots) :
    (Fits slots record.data.length ∧ ∃ rp' b,
      rp.insert p record = some (some ⟨p.pid, slots.length⟩, rp', { p with buffer := b }) ∧
        rp'.Holds b (slots ++ [⟨record.data, true⟩])) ∨
    (¬ Fits slots record.data.length ∧ rp.insert p record = some (none, rp, p)) := by
  have hlen' : record.data.length < rp.freeAddrEnd := by rwa [freeAddrEnd_eq_freeEnd h]
  rw [h.insert_eq hlen', ← enough_iff_fits h hlen]
  by_cases he : rp.enough record.data.length = true
  · exact .inl ⟨he, _, _, by rw [if_pos he], h.inserted hlen' he⟩
  · exact .inr ⟨he, by rw [if_neg he]⟩

variable {m : ℕ} {s s' : BufferPool n} {v : PageView} {pages : List (List Slot)}

/-- The pool shows pages `1, …, k` with the given slots, and has no other data pages. -/
structure Stores (s : BufferPool n) (v : PageView) (pages : List (List Slot)) : Prop where
  shows : s.Shows v
  live_eq : v.live = {i | i ≤ pages.length}
  dense : s.Dense pages.length
  formatted : ∀ i slots, pages[i]? = some slots → ∃ rp, RecordPage.Holds rp (v.bytes (i + 1)) slots

/-- Nothing is pinned and no client write is outstanding. -/
structure AtRest (v : PageView) : Prop where
  pins_eq : v.pins = fun _ => 0
  unsaved_eq : v.unsaved = ∅

theorem AtRest.pins_lt (h : AtRest v) (id : ℕ) : v.pins id + 1 < 2 ^ 64 := by
  simp [h.pins_eq]

/-- A heap between two operations. Page 1 of an empty heap is blank. -/
structure HeapInv (s : BufferPool n) (pages : List (List Slot)) : Prop where
  stores : ∃ v, Stores s v pages ∧ AtRest v
  blank : pages = [] → s.disk.stored 1 = Block.zero

theorem Stores.mem_live (h : Stores s v pages) {i : ℕ} (hi : i ≤ pages.length) : i ∈ v.live := by
  rw [h.live_eq]
  exact hi

theorem Stores.fetch (h : Stores s v pages) {id : ℕ} {f : Fin n} (hid : id ≤ pages.length)
    (hlt : v.pins id + 1 < 2 ^ 64) (hf : s.fetch id = (some f, s')) :
    Stores s' (v.pin id) pages ∧ s'.dir.lookup id = some f ∧ (s'.pages f).buffer = v.bytes id ∧
      (s'.pages f).pid = id := by
  obtain ⟨hs, hd, hb⟩ := h.shows.fetch (h.mem_live hid) hlt hf
  have hs2 : (s.fetch id).2 = s' := by rw [hf]
  exact ⟨⟨hs, h.live_eq, hs2 ▸ h.dense.fetch id, h.formatted⟩, hd, hb, (hs.frames.pid_of_lookup hd).1⟩

theorem Stores.set (h : Stores s v pages) {i : ℕ} {b : PageBlock} {slots : List Slot} {v' : PageView}
    (hs : s'.Shows v') (hlive : v'.live = v.live) (hbytes : v'.bytes = Function.update v.bytes (i + 1) b)
    (hd : s'.Dense pages.length) (hb : ∃ rp, RecordPage.Holds rp b slots) :
    Stores s' v' (pages.set i slots) where
  shows := hs
  live_eq := by rw [List.length_set, hlive, h.live_eq]
  dense := by rwa [List.length_set]
  formatted j slots' hj := by
    rw [hbytes]
    by_cases hij : i = j
    · subst hij
      have hlt : i < pages.length := by simpa using (List.getElem?_eq_some_iff.1 hj).1
      rw [List.getElem?_set_self hlt, Option.some.injEq] at hj
      rwa [Function.update_self, ← hj]
    · rw [List.getElem?_set_ne hij] at hj
      rw [Function.update_of_ne (by omega)]
      exact h.formatted j slots' hj

theorem Stores.write (h : Stores s v pages) {i : ℕ} {f : Fin n} (hd : s.dir.lookup (i + 1) = some f)
    (hpin : v.pins (i + 1) ≠ 0) {rp : RecordPage} {b : PageBlock} {slots : List Slot}
    (hb : rp.Holds b slots) :
    Stores (s.setPage f { s.pages f with buffer := b }) (v.write (i + 1) b) (pages.set i slots) :=
  h.set (h.shows.write hd hpin b) rfl rfl (h.dense.setPage f _) ⟨rp, hb⟩

theorem Stores.newPage (h : Stores s v pages) {id : ℕ} {f : Fin n} (hf : s.newPage = (some (id, f), s')) :
    id = pages.length + 1 ∧ (s'.pages f).buffer = Block.zero ∧ (s'.pages f).pid = id ∧
      ∀ rp b slots, RecordPage.Holds rp b slots →
        Stores (s'.setPage f { s'.pages f with buffer := b }) (v.adopt id b) (pages ++ [slots]) := by
  have ha : s.Allocates v.live := h.live_eq ▸ h.dense.allocates
  obtain ⟨hs, hd, hdirty⟩ := h.shows.newPage ha.bounded (h.shows.keepsTable ha) hf
  obtain ⟨rfl, hdense⟩ := h.dense.newPage hf
  have hbuf : (s'.pages f).buffer = Block.zero := by
    rw [hs.cached _ f hd]
    simp [PageView.adopt]
  refine ⟨rfl, hbuf, (hs.frames.pid_of_lookup hd).1, fun rp b slots hb => ?_⟩
  have hset := hs.setBuffer hd (fun _ => id) hs.unsaved_pinned (.inr hdirty) b
  refine ⟨?_, ?_, ?_, ?_⟩
  · simpa [PageView.adopt] using hset
  · ext i
    simp only [PageView.adopt, h.live_eq, Set.mem_insert_iff, Set.mem_ofPred_eq, List.length_append,
      List.length_singleton]
    omega
  · rw [List.length_append, List.length_singleton]
    exact hdense.setPage f _
  · intro i slots' hi
    rcases lt_trichotomy i pages.length with hlt | rfl | hgt
    · rw [List.getElem?_append_left hlt] at hi
      simp only [PageView.adopt, Function.update_of_ne (show i + 1 ≠ pages.length + 1 by omega)]
      exact h.formatted i slots' hi
    · obtain rfl : slots = slots' := by simpa using hi
      exact ⟨rp, by simpa [PageView.adopt] using hb⟩
    · rw [List.getElem?_eq_none (by simp; omega)] at hi
      cases hi

theorem Stores.unpin (h : Stores s v pages) {id : ℕ} {d : Bool} (hne : pages ≠ [])
    (hpin : v.pins = BufferPool.addPin (fun _ => 0) id)
    (hu : ∀ j ∈ v.unsaved, j = id ∧ d = true) : HeapInv (s.unpin id d) pages := by
  refine ⟨⟨v.unpin id ∅, ⟨?_, h.live_eq, h.dense.unpin id d, h.formatted⟩, ?_, rfl⟩,
    fun he => absurd he hne⟩
  · exact h.shows.unpin (by simp [hpin, BufferPool.addPin]) (fun j hj => .inr (hu j hj)) (by simp)
  · simp [PageView.unpin, hpin]

theorem heapInv_freshPool (m : ℕ) : HeapInv (BufferPool.freshPool m) [] := by
  have hz : loadSize (DiskManager.stored { file := File.absent } 0) 0 = 0 := loadSize_zero 0
  obtain ⟨s₀, hs, hv, ha, hhead, hnext⟩ := BufferPool.openFile_of_no_header m hz
  obtain rfl : s₀ = BufferPool.freshPool m :=
    Option.some.inj (hs.symm.trans (BufferPool.openFile_absent_succ m))
  have hlive : ({0} : Set ℕ) = {i | i ≤ 0} := by
    ext i
    simp
  refine ⟨⟨_, ⟨hv, hlive, ?_, ?_⟩, rfl, rfl⟩, fun _ => ?_⟩
  · exact ⟨by simpa using ha, hnext, by rw [hhead]; rfl, by rw [hhead]; rfl, by rw [hhead]; rfl, rfl⟩
  · intro i slots hi
    simp at hi
  · have haddr : Addressable 1 := addressable_of_le (by simp [bfpMaxPageNum, pageSize])
    exact BufferPool.stored_update_zero File.absent _ _ haddr one_ne_zero rfl

def placeNew (pages : List (List Slot)) (bytes : Bytes) : Option RID × List (List Slot) :=
  if Fits [] bytes.length then (some ⟨pages.length + 1, 0⟩, pages ++ [[⟨bytes, true⟩]])
  else (none, pages ++ [[]])

/-- Offer a record to page `pages.length`, whose slots are `last`, and then to a new page. -/
def placeLast (pages : List (List Slot)) (last : List Slot) (bytes : Bytes) :
    Option RID × List (List Slot) :=
  if Fits last bytes.length then
    (some ⟨pages.length, last.length⟩, pages.set (pages.length - 1) (last ++ [⟨bytes, true⟩]))
  else placeNew pages bytes

/-- The heap after `insert`. An empty heap gets its first page. -/
def insertPages (pages : List (List Slot)) (bytes : Bytes) : Option RID × List (List Slot) :=
  match pages.getLast? with
  | none => placeLast [[]] [] bytes
  | some last => placeLast pages last bytes

/-- `free_addr_end_` of the page that is tried first. -/
def lastFreeEnd (pages : List (List Slot)) : ℕ := freeEnd (pages.getLast?.getD [])

theorem insertInto_eq {f : Fin n} {record : Record} {rp rp' : RecordPage} {p p' : Page}
    {rid : Option RID} (hi : RecordPage.init (s.pages f) = some (rp, p))
    (hr : rp.insert p record = some (rid, rp', p')) :
    insertInto s f record = some (rid, s.setPage f p') := by
  rw [insertInto, hi, Option.bind_eq_bind, Option.bind_some]
  dsimp only
  rw [hr]
  rfl

theorem Stores.insertInto_new (h : Stores s v pages) {id : ℕ} {f : Fin n}
    (hf : s.newPage = (some (id, f), s')) {record : Record} (hsize : record.data.length < pageSize) :
    id = pages.length + 1 ∧ ∃ t b, insertInto s' f record = some ((placeNew pages record.data).1, t) ∧
      Stores t (v.adopt id b) (placeNew pages record.data).2 := by
  obtain ⟨rfl, hbuf, hpid, hstores⟩ := h.newPage hf
  obtain ⟨hi, hz⟩ := RecordPage.init_zero hbuf
  have hlen : record.data.length < freeEnd [] := by rwa [freeEnd_nil]
  have hz' : RecordPage.Holds {} { s'.pages f with buffer := storeSize Block.zero 8 pageSize }.buffer []
    := hz
  refine ⟨rfl, ?_⟩
  unfold placeNew
  rcases offer hz' hlen with ⟨hfit, rp', b, hr, hb⟩ | ⟨hfit, hr⟩
  · rw [if_pos hfit]
    refine ⟨s'.setPage f { s'.pages f with buffer := b }, b, ?_, hstores rp' b _ hb⟩
    refine (insertInto_eq hi hr).trans ?_
    dsimp only
    rw [hpid, List.length_nil]
  · rw [if_neg hfit]
    exact ⟨_, _, insertInto_eq hi hr, hstores _ _ _ hz⟩

theorem pins_adopt (hr : AtRest v) (id : ℕ) (b : PageBlock) :
    (v.adopt id b).pins = BufferPool.addPin (fun _ => 0) id := by
  rw [PageView.adopt, hr.pins_eq]

theorem insertAt_accepted {t : BufferPool n} {pid : ℕ} {f : Fin n} {record : Record} {rid : RID}
    (hi : insertInto s f record = some (some rid, t)) :
    insertAt s pid f record = some (some rid, t.unpin pid true) := by
  rw [insertAt, hi, Option.bind_eq_bind, Option.bind_some]

theorem insertAt_refused {t u : BufferPool n} {pid : ℕ} {f : Fin n} {record : Record}
    (hi : insertInto s f record = some (none, t)) (hn : (t.unpin pid false).newPage = (none, u)) :
    insertAt s pid f record = some (none, u) := by
  rw [insertAt, hi, Option.bind_eq_bind, Option.bind_some]
  dsimp only
  rw [hn]

theorem insertAt_moved {t u w : BufferPool n} {pid id : ℕ} {f g : Fin n} {record : Record}
    {rid : Option RID} (hi : insertInto s f record = some (none, t))
    (hn : (t.unpin pid false).newPage = (some (id, g), u))
    (hw : insertInto u g record = some (rid, w)) :
    insertAt s pid f record = some (rid, w.unpin id true) := by
  rw [insertAt, hi, Option.bind_eq_bind, Option.bind_some]
  dsimp only
  rw [hn]
  dsimp only
  rw [hw]
  rfl

theorem length_placeNew (pages : List (List Slot)) (bytes : Bytes) :
    (placeNew pages bytes).2.length = pages.length + 1 := by
  unfold placeNew
  split <;> simp

theorem placeNew_ne_nil (pages : List (List Slot)) (bytes : Bytes) : (placeNew pages bytes).2 ≠ [] :=
  List.length_pos_iff.1 (by rw [length_placeNew]; omega)

theorem HeapInv.insertAt_refused {s t : BufferPool (m + 1)} {pid : ℕ} {f : Fin (m + 1)}
    {record : Record} (hi : insertInto s f record = some (none, t))
    (h : HeapInv (t.unpin pid false) pages) (hsize : record.data.length < pageSize) :
    ∃ r s', insertAt s pid f record = some (r, s') ∧
      (pages.length + 1 ≤ bfpMaxPageNum → s'.currentPid ≤ bfpMaxPageNum) ∧
      (s'.currentPid ≤ bfpMaxPageNum →
        r = (placeNew pages record.data).1 ∧ HeapInv s' (placeNew pages record.data).2) := by
  obtain ⟨v, hv, hrest⟩ := h.stores
  have hvictim := hv.shows.victim_ne_none hrest.pins_eq
  rcases hn : (t.unpin pid false).newPage with ⟨_ | ⟨id, g⟩, u⟩
  · obtain ⟨hlimit, hcur⟩ := hv.dense.newPage_none hvictim hn
    refine ⟨none, u, TableHeap.insertAt_refused hi hn, by omega, by omega⟩
  · obtain ⟨rfl, w, b, hw, hst⟩ := hv.insertInto_new hn hsize
    have hinv : HeapInv (w.unpin (pages.length + 1) true) (placeNew pages record.data).2 := by
      refine hst.unpin (placeNew_ne_nil _ _) (pins_adopt hrest _ b) ?_
      have hu : (v.adopt (pages.length + 1) b).unsaved = ∅ := hrest.unsaved_eq
      simp [hu]
    have hcur : (w.unpin (pages.length + 1) true).currentPid = pages.length + 1 := by
      obtain ⟨v', hv', _⟩ := hinv.stores
      rw [hv'.dense.currentPid_eq, length_placeNew]
    refine ⟨_, _, insertAt_moved hi hn hw, ?_, fun _ => ⟨rfl, hinv⟩⟩
    rw [hcur]
    exact id

theorem setPage_self (s : BufferPool n) (f : Fin n) : s.setPage f (s.pages f) = s := by
  simp [BufferPool.setPage]

theorem HeapInv.fetch_last {s : BufferPool (m + 1)} {front : List (List Slot)} {last : List Slot}
    (h : HeapInv s (front ++ [last])) :
    ∃ v f s' rp, s.fetch (front.length + 1) = (some f, s') ∧ AtRest v ∧
      Stores s' (v.pin (front.length + 1)) (front ++ [last]) ∧
      s'.dir.lookup (front.length + 1) = some f ∧ (s'.pages f).pid = front.length + 1 ∧
      RecordPage.Holds rp (s'.pages f).buffer last := by
  obtain ⟨v, hv, hrest⟩ := h.stores
  obtain ⟨f, s', hf⟩ := hv.shows.fetch_ne_none hrest.pins_eq (front.length + 1)
  obtain ⟨hs, hd, hb, hp⟩ := hv.fetch (by simp) (hrest.pins_lt _) hf
  obtain ⟨rp, hrp⟩ := hv.formatted front.length last (by simp)
  exact ⟨v, f, s', rp, hf, hrest, hs, hd, hp, hb ▸ hrp⟩

theorem HeapInv.currentPid_eq (h : HeapInv s pages) : s.currentPid = pages.length := by
  obtain ⟨v, hv, _⟩ := h.stores
  exact hv.dense.currentPid_eq

theorem HeapInv.length_ne_invalid (h : HeapInv s pages) : pages.length ≠ invalidId := by
  obtain ⟨v, hv, _⟩ := h.stores
  exact (hv.shows.addressable _ (hv.mem_live le_rfl)).ne_invalid

theorem insert_of_pages {front : List (List Slot)} {last : List Slot} {f : Fin n} {record : Record}
    (h : HeapInv s (front ++ [last])) (hf : s.fetch (front.length + 1) = (some f, s')) :
    insert s record = insertAt s' (front.length + 1) f record := by
  have hcur : s.currentPid = front.length + 1 := by simpa using h.currentPid_eq
  have hinv : front.length + 1 ≠ invalidId := by simpa using h.length_ne_invalid
  rw [insert, hcur, if_neg (by omega), hf]

theorem HeapInv.insert_last {s : BufferPool (m + 1)} {front : List (List Slot)} {last : List Slot}
    (h : HeapInv s (front ++ [last])) {record : Record} (hlen : record.data.length < freeEnd last)
    (hsize : record.data.length < pageSize) :
    ∃ r s', insert s record = some (r, s') ∧
      ((placeLast (front ++ [last]) last record.data).2.length ≤ bfpMaxPageNum →
        s'.currentPid ≤ bfpMaxPageNum) ∧
      (s'.currentPid ≤ bfpMaxPageNum →
        r = (placeLast (front ++ [last]) last record.data).1 ∧
          HeapInv s' (placeLast (front ++ [last]) last record.data).2) := by
  obtain ⟨v, f, t, rp, hf, hrest, ht, hd, hp, hrp⟩ := h.fetch_last
  have hpins : (v.pin (front.length + 1)).pins = BufferPool.addPin (fun _ => 0) (front.length + 1) := by
    rw [PageView.pin, hrest.pins_eq]
  have hunsaved : (v.pin (front.length + 1)).unsaved = ∅ := hrest.unsaved_eq
  rw [insert_of_pages h hf]
  unfold placeLast
  rcases offer hrp hlen with ⟨hfit, rp', b, hr, hb⟩ | ⟨hfit, hr⟩
  · have hi := insertInto_eq hrp.init hr
    have hpin : (v.pin (front.length + 1)).pins (front.length + 1) ≠ 0 := by
      simp [hpins, BufferPool.addPin]
    have hw := ht.write hd hpin hb
    have hinv : HeapInv ((t.setPage f { t.pages f with buffer := b }).unpin (front.length + 1) true)
        ((front ++ [last]).set front.length (last ++ [⟨record.data, true⟩])) := by
      refine hw.unpin (by simp) hpins ?_
      simp [PageView.write, hunsaved]
    rw [if_pos hfit, insertAt_accepted hi]
    refine ⟨_, _, rfl, fun hle => hinv.currentPid_eq.le.trans (by simpa using hle), fun _ => ?_⟩
    exact ⟨by simp [hp], by simpa using hinv⟩
  · have hi := insertInto_eq hrp.init hr
    rw [setPage_self] at hi
    have hinv : HeapInv (t.unpin (front.length + 1) false) (front ++ [last]) :=
      ht.unpin (by simp) hpins (by simp [hunsaved])
    obtain ⟨r, s', hins, hlim, hres⟩ := HeapInv.insertAt_refused hi hinv hsize
    rw [if_neg hfit]
    refine ⟨r, s', hins, fun hle => hlim ?_, hres⟩
    rwa [length_placeNew] at hle

theorem HeapInv.insert_nil {s : BufferPool (m + 1)} (h : HeapInv s []) {record : Record}
    (hsize : record.data.length < pageSize) :
    ∃ r s', insert s record = some (r, s') ∧
      ((placeLast [[]] [] record.data).2.length ≤ bfpMaxPageNum → s'.currentPid ≤ bfpMaxPageNum) ∧
      (s'.currentPid ≤ bfpMaxPageNum →
        r = (placeLast [[]] [] record.data).1 ∧ HeapInv s' (placeLast [[]] [] record.data).2) := by
  have hcur : s.currentPid = 0 := h.currentPid_eq
  obtain ⟨v, hv, hrest⟩ := h.stores
  have hvictim := hv.shows.victim_ne_none hrest.pins_eq
  rcases hn : s.newPage with ⟨_ | ⟨id, f⟩, t⟩
  · obtain ⟨hlimit, _⟩ := hv.dense.newPage_none hvictim hn
    simp [bfpMaxPageNum, pageSize] at hlimit
  · obtain ⟨hid, w, b, hw, hst⟩ := hv.insertInto_new hn hsize
    obtain rfl : id = 1 := hid
    have hins : insert s record = insertAt t 1 f record := by
      rw [TableHeap.insert, hcur, if_pos (.inr rfl), hn]
    have hunsaved : (v.adopt 1 b).unsaved = ∅ := hrest.unsaved_eq
    rw [hins]
    unfold placeLast
    by_cases hfit : Fits [] record.data.length
    · have hplace : placeNew [] record.data = (some ⟨1, 0⟩, [[⟨record.data, true⟩]]) := if_pos hfit
      rw [hplace] at hw hst
      have hinv := hst.unpin (List.cons_ne_nil _ _) (pins_adopt hrest _ b) (d := true)
        (by simp [hunsaved])
      rw [if_pos hfit, insertAt_accepted hw]
      exact ⟨_, _, rfl, fun hle => hinv.currentPid_eq.le.trans hle, fun _ => ⟨rfl, hinv⟩⟩
    · have hplace : placeNew [] record.data = (none, [[]]) := if_neg hfit
      rw [hplace] at hw hst
      have hinv := hst.unpin (List.cons_ne_nil _ _) (pins_adopt hrest _ b) (d := false)
        (by simp [hunsaved])
      obtain ⟨r, s', hins, hlim, hres⟩ := HeapInv.insertAt_refused hw hinv hsize
      rw [if_neg hfit]
      refine ⟨r, s', hins, fun _ => hlim ?_, hres⟩
      simp [bfpMaxPageNum, pageSize]

/-- `insert` places the record as `insertPages` says, as long as the page limit is not passed. -/
theorem HeapInv.insert {s : BufferPool (m + 1)} (h : HeapInv s pages) {record : Record}
    (hlen : record.data.length < lastFreeEnd pages) (hsize : record.data.length < pageSize) :
    ∃ r s', TableHeap.insert s record = some (r, s') ∧
      ((insertPages pages record.data).2.length ≤ bfpMaxPageNum → s'.currentPid ≤ bfpMaxPageNum) ∧
      (s'.currentPid ≤ bfpMaxPageNum → r = (insertPages pages record.data).1 ∧
        HeapInv s' (insertPages pages record.data).2) := by
  cases hl : pages.getLast? with
  | none =>
    obtain rfl := List.getLast?_eq_none_iff.1 hl
    exact h.insert_nil hsize
  | some last =>
    obtain ⟨front, rfl⟩ := List.getLast?_eq_some_iff.1 hl
    rw [lastFreeEnd, hl] at hlen
    rw [insertPages, hl]
    exact h.insert_last hlen hsize

/-- `firstFreeEnd` reads `free_addr_end_` of the last page, or of the page to come. -/
theorem HeapInv.firstFreeEnd_eq {s : BufferPool (m + 1)} (h : HeapInv s pages) :
    firstFreeEnd s = some (lastFreeEnd pages) := by
  cases hl : pages.getLast? with
  | none =>
    obtain rfl := List.getLast?_eq_none_iff.1 hl
    have hcur : s.currentPid = 0 := h.currentPid_eq
    obtain ⟨v, hv, hrest⟩ := h.stores
    have hvictim := hv.shows.victim_ne_none hrest.pins_eq
    rcases hn : s.newPage with ⟨_ | ⟨id, f⟩, t⟩
    · obtain ⟨hlimit, _⟩ := hv.dense.newPage_none hvictim hn
      simp [bfpMaxPageNum, pageSize] at hlimit
    · obtain ⟨_, hbuf, _⟩ := hv.newPage hn
      rw [firstFreeEnd, hcur, if_pos (.inr rfl), hn]
      dsimp only [Option.map_some]
      rw [(RecordPage.init_zero hbuf).1]
      rfl
  | some last =>
    obtain ⟨front, rfl⟩ := List.getLast?_eq_some_iff.1 hl
    have hcur : s.currentPid = front.length + 1 := by simpa using h.currentPid_eq
    have hinv : front.length + 1 ≠ invalidId := by simpa using h.length_ne_invalid
    obtain ⟨v, f, t, rp, hf, _, _, _, _, hrp⟩ := h.fetch_last
    rw [firstFreeEnd, hcur, if_neg (by omega), hf]
    dsimp only
    rw [hrp.init, Option.map_some, freeAddrEnd_eq_freeEnd hrp, lastFreeEnd, hl, Option.getD_some]

theorem remove_eq {f : Fin n} {rid : RID} {rp : RecordPage} {p p' : Page} {ok : Bool}
    (hf : s.fetch rid.pageId = (some f, s')) (hi : RecordPage.init (s'.pages f) = some (rp, p))
    (hr : rp.remove p rid = some (ok, p')) :
    remove s rid = some (ok, (s'.setPage f p').unpin rid.pageId true) := by
  rw [remove, hf]
  dsimp only
  rw [hi, Option.bind_eq_bind, Option.bind_some]
  dsimp only
  rw [hr]
  rfl

theorem HeapInv.remove {s : BufferPool (m + 1)} (h : HeapInv s pages) {rid : RID} {i : ℕ}
    {slots : List Slot} (hi : pages[i]? = some slots) (hp : rid.pageId = i + 1) :
    ∃ s', TableHeap.remove s rid = some (decide (rid.slotId < slots.length), s') ∧
      HeapInv s' (pages.set i (slots.modify rid.slotId Slot.kill)) := by
  obtain ⟨v, hv, hrest⟩ := h.stores
  have hlt : i < pages.length := (List.getElem?_eq_some_iff.1 hi).1
  have hne : pages ≠ [] := List.length_pos_iff.1 (by omega)
  obtain ⟨f, t, hf⟩ := hv.shows.fetch_ne_none hrest.pins_eq rid.pageId
  obtain ⟨ht, hd, hb, _⟩ := hv.fetch (by omega) (hrest.pins_lt _) hf
  obtain ⟨rp, hrp⟩ := hv.formatted i slots hi
  rw [hp] at hd hb ht
  rw [← hb] at hrp
  have hpins : (v.pin (i + 1)).pins = BufferPool.addPin (fun _ => 0) (i + 1) := by
    rw [PageView.pin, hrest.pins_eq]
  have hunsaved : (v.pin (i + 1)).unsaved = ∅ := hrest.unsaved_eq
  by_cases hs : rid.slotId < slots.length
  · have hr := hrp.remove_eq (p := t.pages f) rid
    rw [if_pos hs] at hr
    refine ⟨_, (remove_eq hf hrp.init hr).trans (by rw [decide_eq_true hs]), ?_⟩
    have hw := ht.write hd (by simp [hpins, BufferPool.addPin]) (hrp.removed hs)
    rw [hp]
    refine hw.unpin (by simpa using hne) hpins ?_
    simp [PageView.write, hunsaved]
  · have hr := hrp.remove_eq (p := t.pages f) rid
    rw [if_neg hs] at hr
    refine ⟨_, (remove_eq hf hrp.init hr).trans (by rw [decide_eq_false hs]), ?_⟩
    have hsame : slots.modify rid.slotId Slot.kill = slots := List.modify_eq_self (not_lt.1 hs)
    have hset : pages.set i slots = pages := by
      rw [← (List.getElem?_eq_some_iff.1 hi).2, List.set_getElem_self]
    rw [hsame, hset, hp, setPage_self]
    exact ht.unpin hne hpins (by simp [hunsaved])

end Tadis.TableHeap
