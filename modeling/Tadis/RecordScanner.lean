import Tadis.TableHeap
import Tadis.Pull

/-!
# The record scanner

Two nested iterators: `pageNext` walks the slots of a page, and `RecordScanner` walks the allocated
pages after page 1. `hasNext` asks only whether the current slot exists, and after moving on only
whether the new page has a first slot, so the scan ends at an empty page, and at a page whose last
slot is removed. `scanFrom` says exactly which records are delivered.
-/

namespace Tadis

/-- `page` is the frame of the record page that the page scanner points to, `none` for `nullptr`. -/
structure RecordScanner (n : ℕ) where
  rp : RecordPage := {}
  page : Option (Fin n) := none
  nextRid : RID := {}

namespace RecordScanner

variable {n : ℕ}

/-- Build the record page over frame `f` and point the page scanner to it. -/
def load (sc : RecordScanner n) (s : BufferPool n) (f : Fin n) :
    Option (RecordScanner n × BufferPool n) :=
  (RecordPage.init (s.pages f)).map
    (fun x => ({ sc with rp := x.1, page := some f }, s.setPage f x.2))

/-- The inner option is `none` for `INTERNAL_ERROR`, which leaves the scanner unusable. -/
def init (s : BufferPool n) : Option (Option (RecordScanner n) × BufferPool n) :=
  let rc := s.contain 1
  match s.fetch 1 with
  | (none, s) => if rc = .success then some (none, s) else none
  | (some f, s) =>
    (load { nextRid := { pageId := (s.pages f).pid, slotId := 0 } } s f).map
      (fun x => (some x.1, x.2))

def pageHasNext (sc : RecordScanner n) (s : BufferPool n) : Option Bool :=
  match sc.page with
  | none => none
  | some f => (sc.rp.contain (s.pages f) sc.nextRid).map (fun rc => rc != .outOfRange)

def hasNext (sc : RecordScanner n) (s : BufferPool n) :
    Option (Bool × RecordScanner n × BufferPool n) :=
  match sc.pageHasNext s with
  | none => none
  | some true => some (true, sc, s)
  | some false =>
    let next := s.nextPidAfter sc.nextRid.pageId
    let s := s.unpin sc.nextRid.pageId false
    match next with
    | none => some (false, sc, s)
    | some nextId =>
      let sc := { sc with nextRid := { pageId := nextId, slotId := 0 }, page := none }
      match s.fetch nextId with
      | (none, s) => some (true, sc, s)
      | (some f, s) =>
        match sc.load s f with
        | none => none
        | some (sc, s) => (sc.pageHasNext s).map (fun more => (more, sc, s))

theorem lt_of_contain {rp : RecordPage} {p : Page} {rid : RID} {rc : RC}
    (h : rp.contain p rid = some rc) (hrc : rc ≠ .outOfRange) : rid.slotId < rp.recIdx.length := by
  by_contra hlt
  have hs : rp.slotStart rid = none := by simp [RecordPage.slotStart, not_lt.1 hlt]
  rw [RecordPage.contain, hs] at h
  exact hrc (Option.some.inj h).symm

/-- The loop of the page scanner: removed slots are skipped. -/
def pageNext (rp : RecordPage) (p : Page) (record : Record) (rid nextRid : RID) :
    Option (RC × Record × RID × RID) :=
  match _h : rp.contain p nextRid, rp.get p record nextRid with
  | some rc, some (_, record) =>
    if rc = .outOfRange then some (rc, record, rid, nextRid)
    else if rc = .success then
      some (rc, record, nextRid, { nextRid with slotId := nextRid.slotId + 1 })
    else pageNext rp p record rid { nextRid with slotId := nextRid.slotId + 1 }
  | _, _ => none
termination_by rp.recIdx.length - nextRid.slotId
decreasing_by
  have := lt_of_contain _h (by assumption)
  omega

/-- `next` once `hasNext` has answered true and the page is there. -/
def nextInPage (sc : RecordScanner n) (s : BufferPool n) (record : Record) (rid : RID) :
    Option (RC × Record × RID × RecordScanner n × BufferPool n) :=
  match sc.page with
  | none => none
  | some f =>
    (pageNext sc.rp (s.pages f) record rid sc.nextRid).map
      (fun x => (x.1, x.2.1, x.2.2.1, { sc with nextRid := x.2.2.2 }, s))

def next (sc : RecordScanner n) (s : BufferPool n) (record : Record) (rid : RID) :
    Option (RC × Record × RID × RecordScanner n × BufferPool n) :=
  match sc.hasNext s with
  | none => none
  | some (false, sc, s) => some (.outOfRange, record, rid, sc, s)
  | some (true, sc, s) =>
    match sc.page with
    | some _ => sc.nextInPage s record rid
    | none =>
      match s.fetch sc.nextRid.pageId with
      | (none, s) => some (.internalError, record, rid, sc, s)
      | (some f, s) =>
        match sc.load s f with
        | none => none
        | some (sc, s) => sc.nextInPage s record rid

/-- The `next` of the sequential scan: a fresh record and `RID` are offered to the scanner. -/
def seqScanNext (c : RecordScanner n × BufferPool n) :
    Option (Except RC (RID × Bytes) × (RecordScanner n × BufferPool n)) :=
  (c.1.next c.2 {} {}).map
    (fun x => (if rcSuccess x.1 then .ok (x.2.2.1, x.2.1.data) else .error x.1, x.2.2.2))

/-- The live records among the slots of page `pid` from slot `j` on. -/
def pageRows (pid : ℕ) : ℕ → List Slot → List (RID × Bytes)
  | _, [] => []
  | j, s :: slots =>
    if s.live then (⟨pid, j⟩, s.bytes) :: pageRows pid (j + 1) slots else pageRows pid (j + 1) slots

theorem pageRows_append (pid j : ℕ) (l l' : List Slot) :
    pageRows pid j (l ++ l') = pageRows pid j l ++ pageRows pid (j + l.length) l' := by
  induction l generalizing j with
  | nil => rfl
  | cons s l ih =>
    have hlen : j + (s :: l).length = j + 1 + l.length := by
      rw [List.length_cons]
      omega
    rw [List.cons_append, pageRows, pageRows, ih, hlen]
    split <;> rfl

theorem pageRows_dead {pid j : ℕ} {l : List Slot} (h : ∀ s ∈ l, s.live = false) :
    pageRows pid j l = [] := by
  induction l generalizing j with
  | nil => rfl
  | cons s l ih =>
    rw [pageRows, if_neg (by simp [h s List.mem_cons_self])]
    exact ih (fun t ht => h t (List.mem_cons_of_mem _ ht))

variable {rp : RecordPage} {p : Page} {slots : List Slot}

theorem pageNext_step (h : rp.Holds p.buffer slots) {record : Record} {rid : RID} {pid j : ℕ} :
    pageNext rp p record rid ⟨pid, j⟩ =
      match slots[j]? with
      | none => some (.outOfRange, record, rid, ⟨pid, j⟩)
      | some s =>
        if s.live then some (.success, ⟨false, ⟨pid, j⟩, s.bytes⟩, ⟨pid, j⟩, ⟨pid, j + 1⟩)
        else pageNext rp p { record with isDeleted := true } rid ⟨pid, j + 1⟩ := by
  rw [pageNext, h.contain_eq, h.get_eq]
  cases hs : slots[j]? with
  | none => simp [RecordPage.containOf, RecordPage.getOf]
  | some s => cases hl : s.live <;> simp [hl, RecordPage.containOf, RecordPage.getOf]

theorem pageNext_dead (h : rp.Holds p.buffer slots) (rid : RID) (pid : ℕ) {j : ℕ} {l : List Slot}
    (hl : slots.drop j = l) (hdead : ∀ s ∈ l, s.live = false) (record : Record) :
    ∃ record' next, pageNext rp p record rid ⟨pid, j⟩ = some (.outOfRange, record', rid, next) := by
  induction l generalizing j record with
  | nil =>
    have hj : slots[j]? = none := List.getElem?_eq_none (List.drop_eq_nil_iff.1 hl)
    exact ⟨record, _, by rw [pageNext_step h, hj]⟩
  | cons s l ih =>
    have hj : slots[j]? = some s := by
      have := congrArg List.head? hl
      simpa using this
    have hl' : slots.drop (j + 1) = l := by rw [← List.drop_drop, hl]; rfl
    obtain ⟨record', next, hn⟩ := ih hl' (fun t ht => hdead t (List.mem_cons_of_mem _ ht))
      { record with isDeleted := true }
    refine ⟨record', next, ?_⟩
    rw [pageNext_step h, hj]
    simpa [hdead s List.mem_cons_self] using hn

theorem pageNext_live (h : rp.Holds p.buffer slots) (rid : RID) (pid : ℕ) {j : ℕ}
    {dead rest : List Slot} {s : Slot} (hl : slots.drop j = dead ++ s :: rest)
    (hdead : ∀ t ∈ dead, t.live = false) (hs : s.live = true) (record : Record) :
    pageNext rp p record rid ⟨pid, j⟩ = some (.success,
      ⟨false, ⟨pid, j + dead.length⟩, s.bytes⟩, ⟨pid, j + dead.length⟩,
      ⟨pid, j + dead.length + 1⟩) := by
  induction dead generalizing j record with
  | nil =>
    have hj : slots[j]? = some s := by
      have := congrArg List.head? hl
      simpa using this
    rw [pageNext_step h, hj]
    simp [hs]
  | cons t dead ih =>
    have hj : slots[j]? = some t := by
      have := congrArg List.head? hl
      simpa using this
    have hl' : slots.drop (j + 1) = dead ++ s :: rest := by rw [← List.drop_drop, hl]; rfl
    have hn := ih hl' (fun t ht => hdead t (List.mem_cons_of_mem _ ht)) { record with isDeleted := true }
    rw [pageNext_step h, hj]
    simp only [hdead t List.mem_cons_self, Bool.false_eq_true, if_false, hn, List.length_cons]
    rw [Nat.add_assoc j 1, Nat.add_comm 1]

open TableHeap

variable {m : ℕ} {sc : RecordScanner n} {s s' : BufferPool n} {pages : List (List Slot)}

/-- The scanner stands on slot `j` of page `i + 1`, which it has pinned. -/
structure ScanAt (sc : RecordScanner n) (s : BufferPool n) (pages : List (List Slot)) (i j : ℕ)
    (slots : List Slot) : Prop where
  getElem : pages[i]? = some slots
  nextRid_eq : sc.nextRid = ⟨i + 1, j⟩
  page : ∃ v f, Stores s v pages ∧ v.pins = BufferPool.addPin (fun _ => 0) (i + 1) ∧
    v.unsaved = ∅ ∧ sc.page = some f ∧ sc.rp.Holds (s.pages f).buffer slots

theorem ScanAt.move {i j : ℕ} (h : ScanAt sc s pages i j slots) (k : ℕ) :
    ScanAt { sc with nextRid := ⟨i + 1, k⟩ } s pages i k slots := ⟨h.getElem, rfl, h.page⟩

theorem pageHasNext_eq_of_holds {f : Fin n} (hp : sc.page = some f)
    (h : sc.rp.Holds (s.pages f).buffer slots) :
    sc.pageHasNext s = some (decide (sc.nextRid.slotId < slots.length)) := by
  rw [pageHasNext, hp]
  dsimp only
  rw [h.contain_eq, Option.map_some]
  by_cases hj : sc.nextRid.slotId < slots.length
  · rw [List.getElem?_eq_getElem hj, decide_eq_true hj]
    cases hl : (slots[sc.nextRid.slotId]).live <;> simp [RecordPage.containOf, hl]
  · rw [List.getElem?_eq_none (not_lt.1 hj), decide_eq_false hj]
    rfl

theorem ScanAt.pageHasNext_eq {i j : ℕ} (h : ScanAt sc s pages i j slots) :
    sc.pageHasNext s = some (decide (j < slots.length)) := by
  obtain ⟨v, f, _, _, _, hp, hrp⟩ := h.page
  rw [pageHasNext_eq_of_holds hp hrp, h.nextRid_eq]

theorem ScanAt.next_eq_nextInPage {i j : ℕ} (h : ScanAt sc s pages i j slots)
    (hj : j < slots.length) (record : Record) (rid : RID) :
    sc.next s record rid = sc.nextInPage s record rid := by
  have hmore := h.pageHasNext_eq
  rw [decide_eq_true hj] at hmore
  obtain ⟨v, f, _, _, _, hp, _⟩ := h.page
  rw [next, hasNext, hmore]
  dsimp only
  rw [hp]

theorem ScanAt.seqScanNext_live {i j : ℕ} (h : ScanAt sc s pages i j slots) {dead rest : List Slot}
    {t : Slot} (hl : slots.drop j = dead ++ t :: rest) (hdead : ∀ u ∈ dead, u.live = false)
    (ht : t.live = true) :
    seqScanNext (sc, s) = some (.ok (⟨i + 1, j + dead.length⟩, t.bytes),
      ({ sc with nextRid := ⟨i + 1, j + dead.length + 1⟩ }, s)) := by
  have hj : j < slots.length := by
    have := congrArg List.length hl
    simp only [List.length_drop, List.length_append, List.length_cons] at this
    omega
  obtain ⟨v, f, _, _, _, hp, hrp⟩ := h.page
  have hn := pageNext_live hrp {} (i + 1) hl hdead ht {}
  rw [seqScanNext, h.next_eq_nextInPage hj, nextInPage, hp]
  dsimp only
  rw [h.nextRid_eq, hn]
  rfl

theorem ScanAt.seqScanNext_dead {i j : ℕ} (h : ScanAt sc s pages i j slots) (hj : j < slots.length)
    (hdead : ∀ u ∈ slots.drop j, u.live = false) :
    ∃ t, seqScanNext (sc, s) = some (.error .outOfRange, t) := by
  obtain ⟨v, f, _, _, _, hp, hrp⟩ := h.page
  obtain ⟨record, nextRid, hn⟩ := pageNext_dead hrp {} (i + 1) rfl hdead {}
  refine ⟨({ sc with nextRid := nextRid }, s), ?_⟩
  rw [seqScanNext, h.next_eq_nextInPage hj, nextInPage, hp]
  dsimp only
  rw [h.nextRid_eq, hn]
  rfl

def EndsDead (slots : List Slot) : Prop := ∃ s, slots.getLast? = some s ∧ s.live = false

instance (slots : List Slot) : Decidable (EndsDead slots) :=
  decidable_of_iff ((slots.getLast?.map Slot.live) = some false) (by
    simp [EndsDead, Option.map_eq_some_iff])

theorem exists_live_or (l : List Slot) :
    (∀ s ∈ l, s.live = false) ∨ ∃ dead s rest, l = dead ++ s :: rest ∧
      (∀ t ∈ dead, t.live = false) ∧ s.live = true := by
  cases hf : l.find? Slot.live with
  | none => exact .inl (fun s hs => by simpa using List.find?_eq_none.1 hf s hs)
  | some s =>
    obtain ⟨hs, dead, rest, rfl, hdead⟩ := List.find?_eq_some_iff_append.1 hf
    exact .inr ⟨dead, s, rest, rfl, fun t ht => by simpa using hdead t ht, hs⟩

theorem endsDead_append_live {dead rest : List Slot} {s : Slot} (hs : s.live = true) :
    EndsDead (dead ++ s :: rest) ↔ EndsDead rest := by
  cases rest using List.reverseRecOn with
  | nil => simp [EndsDead, hs]
  | append_singleton rest t =>
    have hl : dead ++ s :: (rest ++ [t]) = (dead ++ s :: rest) ++ [t] := by simp
    rw [EndsDead, EndsDead, hl, List.getLast?_concat, List.getLast?_concat]

theorem endsDead_of_dead {l : List Slot} (h : ∀ s ∈ l, s.live = false) (hne : l ≠ []) :
    EndsDead l :=
  ⟨l.getLast hne, List.getLast?_eq_some_getLast hne, h _ (List.getLast_mem hne)⟩

/-- Draining the rest of a page, and what comes after the page when its last slot is live. -/
theorem ScanAt.drains_page {i j : ℕ} (h : ScanAt sc s pages i j slots) (hj : j ≤ slots.length)
    (rows : List (RID × Bytes))
    (hcont : ¬ EndsDead (slots.drop j) → ∃ t,
      Pull.Drains seqScanNext ({ sc with nextRid := ⟨i + 1, slots.length⟩ }, s) rows .outOfRange t) :
    ∃ t, Pull.Drains seqScanNext (sc, s) (pageRows (i + 1) j (slots.drop j) ++
      if EndsDead (slots.drop j) then [] else rows) .outOfRange t := by
  generalize hn : slots.length - j = k
  induction k using Nat.strong_induction_on generalizing j sc with
  | _ k ih =>
  rcases exists_live_or (slots.drop j) with hdead | ⟨dead, u, rest, hl, hdead, hu⟩
  · rw [pageRows_dead hdead, List.nil_append]
    by_cases hlt : j < slots.length
    · have hne : slots.drop j ≠ [] := by
        rw [Ne, List.drop_eq_nil_iff]
        omega
      obtain ⟨t, ht⟩ := h.seqScanNext_dead hlt hdead
      rw [if_pos (endsDead_of_dead hdead hne)]
      exact ⟨t, .stop ht⟩
    · obtain rfl : j = slots.length := by omega
      have hend : ¬ EndsDead (slots.drop slots.length) := by simp [EndsDead]
      obtain ⟨t, ht⟩ := hcont hend
      have hsc : ({ sc with nextRid := ⟨i + 1, slots.length⟩ } : RecordScanner n) = sc := by
        rw [← h.nextRid_eq]
      rw [hsc] at ht
      rw [if_neg hend]
      exact ⟨t, ht⟩
  · have hlen := congrArg List.length hl
    simp only [List.length_drop, List.length_append, List.length_cons] at hlen
    have hdrop : slots.drop (j + dead.length + 1) = rest := by
      rw [Nat.add_assoc, ← List.drop_drop, hl]
      simp
    have hends : EndsDead (slots.drop j) ↔ EndsDead (slots.drop (j + dead.length + 1)) := by
      rw [hl, hdrop]
      exact endsDead_append_live hu
    obtain ⟨t, ht⟩ := ih (slots.length - (j + dead.length + 1)) (by omega)
      (h.move (j + dead.length + 1)) (by omega) (fun he => hcont (fun hd => he (hends.1 hd))) rfl
    refine ⟨t, ?_⟩
    have hrows : pageRows (i + 1) j (slots.drop j) = (⟨i + 1, j + dead.length⟩, u.bytes) ::
        pageRows (i + 1) (j + dead.length + 1) (slots.drop (j + dead.length + 1)) := by
      rw [hl, hdrop, pageRows_append, pageRows_dead hdead, List.nil_append, pageRows, if_pos hu]
    rw [hrows, List.cons_append]
    simp only [hends]
    exact .pull (h.seqScanNext_live hl hdead hu) ht

theorem nextPidAfter_eq {k : ℕ} (h : s.Dense k) {i : ℕ} (hi : i ≤ k) :
    s.nextPidAfter i = if i < k then some (i + 1) else none := by
  have hget := h.allocates.get_iff
  split_ifs with hlt
  · refine (BitMap.firstAfter_eq_some_iff _ _ _ _).2 ⟨Nat.lt_succ_self i, ?_, ?_, by omega⟩
    · exact BitMap.lt_of_get ((hget _).2 hlt)
    · exact (hget _).2 hlt
  · refine (BitMap.firstAfter_eq_none_iff _ _ _).2 ?_
    intro j hj _ hbit
    have : j ≤ k := (hget j).1 hbit
    omega

/-- `hasNext` at the end of a page that is not the last one moves to the next page. -/
theorem ScanAt.hasNext_move {sc : RecordScanner (m + 1)} {s : BufferPool (m + 1)} {i : ℕ}
    {slots' : List Slot} (h : ScanAt sc s pages i slots.length slots)
    (hnext : pages[i + 1]? = some slots') :
    ∃ sc' s', sc.hasNext s = some (decide (0 < slots'.length), sc', s') ∧
      ScanAt sc' s' pages (i + 1) 0 slots' := by
  have hlt : i + 1 < pages.length := (List.getElem?_eq_some_iff.1 hnext).1
  have hmore := h.pageHasNext_eq
  obtain ⟨v, f, hv, hpins, hunsaved, hp, hrp⟩ := h.page
  obtain ⟨w, hw, hrest⟩ := (hv.unpin (d := false) (List.length_pos_iff.1 (by omega)) hpins
    (by simp [hunsaved])).stores
  obtain ⟨g, t, hf⟩ := hw.shows.fetch_ne_none hrest.pins_eq (i + 2)
  obtain ⟨ht, _, hb, _⟩ := hw.fetch (by omega) (hrest.pins_lt _) hf
  obtain ⟨rp, hrp'⟩ := hw.formatted (i + 1) slots' hnext
  rw [← hb] at hrp'
  have hscan : ScanAt { rp := rp, page := some g, nextRid := ⟨i + 2, 0⟩ } t pages (i + 1) 0 slots' :=
    ⟨hnext, rfl, _, g, ht, by rw [PageView.pin, hrest.pins_eq], hrest.unsaved_eq, rfl, hrp'⟩
  refine ⟨_, t, ?_, hscan⟩
  have hload : load { sc with nextRid := ⟨i + 2, 0⟩, page := none } t g =
      some ({ rp := rp, page := some g, nextRid := ⟨i + 2, 0⟩ }, t) := by
    rw [load, hrp'.init, Option.map_some, setPage_self]
  rw [hasNext, hmore, decide_eq_false (lt_irrefl _)]
  dsimp only
  rw [h.nextRid_eq]
  dsimp only
  rw [nextPidAfter_eq hv.dense hlt.le, if_pos hlt]
  dsimp only
  rw [hf]
  dsimp only
  rw [hload]
  dsimp only
  rw [hscan.pageHasNext_eq, Option.map_some]

theorem ScanAt.seqScanNext_last {i : ℕ} (h : ScanAt sc s pages i slots.length slots)
    (hlast : pages.length = i + 1) : ∃ t, seqScanNext (sc, s) = some (.error .outOfRange, t) := by
  have hmore := h.pageHasNext_eq
  obtain ⟨v, f, hv, _, _, _, _⟩ := h.page
  have hn : sc.hasNext s = some (false, sc, s.unpin (i + 1) false) := by
    rw [hasNext, hmore, decide_eq_false (lt_irrefl _)]
    dsimp only
    rw [h.nextRid_eq]
    dsimp only
    rw [nextPidAfter_eq hv.dense hlast.ge, if_neg hlast.not_gt]
  exact ⟨(sc, s.unpin (i + 1) false), by rw [seqScanNext, next, hn]; rfl⟩

theorem ScanAt.seqScanNext_empty {sc : RecordScanner (m + 1)} {s : BufferPool (m + 1)} {i : ℕ}
    (h : ScanAt sc s pages i slots.length slots) (hnext : pages[i + 1]? = some []) :
    ∃ t, seqScanNext (sc, s) = some (.error .outOfRange, t) := by
  obtain ⟨sc', s', hn, _⟩ := h.hasNext_move hnext
  exact ⟨(sc', s'), by rw [seqScanNext, next, hn]; rfl⟩

theorem ScanAt.seqScanNext_move {sc : RecordScanner (m + 1)} {s : BufferPool (m + 1)} {i : ℕ}
    {slots' : List Slot} (h : ScanAt sc s pages i slots.length slots)
    (hnext : pages[i + 1]? = some slots') (hne : slots' ≠ []) :
    ∃ sc' s', seqScanNext (sc, s) = seqScanNext (sc', s') ∧ ScanAt sc' s' pages (i + 1) 0 slots' := by
  obtain ⟨sc', s', hn, hscan⟩ := h.hasNext_move hnext
  have hpos : 0 < slots'.length := List.length_pos_iff.2 hne
  refine ⟨sc', s', ?_, hscan⟩
  obtain ⟨_, f, _, _, _, hp, _⟩ := hscan.page
  rw [decide_eq_true hpos] at hn
  rw [seqScanNext, seqScanNext, hscan.next_eq_nextInPage hpos, next, hn]
  dsimp only
  rw [hp]

/-- What a scan delivers from the start of a page on, with the pages that follow it. -/
def scanFrom (pid : ℕ) (slots : List Slot) : List (List Slot) → List (RID × Bytes)
  | [] => pageRows pid 0 slots
  | next :: rest =>
    pageRows pid 0 slots ++
      if EndsDead slots ∨ next = [] then [] else scanFrom (pid + 1) next rest

theorem ScanAt.drains {sc : RecordScanner (m + 1)} {s : BufferPool (m + 1)}
    {front rest : List (List Slot)} (hpages : pages = front ++ slots :: rest)
    (h : ScanAt sc s pages front.length 0 slots) :
    ∃ t, Pull.Drains seqScanNext (sc, s) (scanFrom (front.length + 1) slots rest) .outOfRange t := by
  induction rest generalizing front slots sc s with
  | nil =>
    obtain ⟨t, ht⟩ := h.drains_page (Nat.zero_le _) [] (fun _ => by
      obtain ⟨t, ht⟩ := (h.move slots.length).seqScanNext_last (by simp [hpages])
      exact ⟨t, .stop ht⟩)
    exact ⟨t, by simpa [scanFrom] using ht⟩
  | cons next rest ih =>
    have hnext : pages[front.length + 1]? = some next := by
      rw [hpages, List.getElem?_append_right (Nat.le_succ _)]
      simp
    have hat := h.move slots.length
    obtain ⟨t, ht⟩ := h.drains_page (Nat.zero_le _) (if next = [] then [] else
        scanFrom (front.length + 2) next rest) (fun _ => by
      by_cases hne : next = []
      · subst hne
        obtain ⟨t, ht⟩ := hat.seqScanNext_empty hnext
        exact ⟨t, by rw [if_pos rfl]; exact .stop ht⟩
      · obtain ⟨sc', s', heq, hscan⟩ := hat.seqScanNext_move hnext hne
        have hpages' : pages = (front ++ [slots]) ++ next :: rest := by simp [hpages]
        obtain ⟨t, ht⟩ := ih hpages' (by simpa using hscan)
        rw [if_neg hne]
        exact ⟨t, Pull.Drains.congr heq (by simpa using ht)⟩)
    refine ⟨t, ?_⟩
    have hrows : scanFrom (front.length + 1) slots (next :: rest) =
        pageRows (front.length + 1) 0 slots ++ if EndsDead slots then [] else
          if next = [] then [] else scanFrom (front.length + 2) next rest := by
      rw [scanFrom]
      by_cases hd : EndsDead slots <;> simp [hd]
    rw [hrows]
    simpa using ht

def scanRows : List (List Slot) → List (RID × Bytes)
  | [] => []
  | slots :: rest => scanFrom 1 slots rest

theorem exists_scanAt {s : BufferPool (m + 1)} {rest : List (List Slot)}
    (h : HeapInv s (slots :: rest)) :
    ∃ sc s', init s = some (some sc, s') ∧ ScanAt sc s' (slots :: rest) 0 0 slots := by
  obtain ⟨v, hv, hrest⟩ := h.stores
  obtain ⟨f, t, hf⟩ := hv.shows.fetch_ne_none hrest.pins_eq 1
  obtain ⟨ht, _, hb, hp⟩ := hv.fetch (by simp) (hrest.pins_lt _) hf
  obtain ⟨rp, hrp⟩ := hv.formatted 0 slots rfl
  rw [← hb] at hrp
  refine ⟨{ rp := rp, page := some f, nextRid := ⟨1, 0⟩ }, t, ?_, rfl, rfl, _, f, ht, ?_,
    hrest.unsaved_eq, rfl, hrp⟩
  · rw [init, hf]
    dsimp only
    rw [load, hrp.init, hp, Option.map_some, Option.map_some, setPage_self]
  · rw [PageView.pin, hrest.pins_eq]

/-- A scanner over an empty heap loads page 1 although it is not allocated, and is done with it. -/
theorem exists_init_empty {s : BufferPool (m + 1)} (h : HeapInv s []) :
    ∃ sc s', init s = some (some sc, s') ∧ sc.pageHasNext s' = some false ∧
      s'.nextPidAfter sc.nextRid.pageId = none := by
  obtain ⟨v, hv, hrest⟩ := h.stores
  have hn : (1 : ℕ) ∉ v.live := by
    rw [hv.live_eq]
    simp
  obtain ⟨f, t, hf⟩ := hv.shows.fetch_ne_none hrest.pins_eq 1
  have hzero : (t.pages f).buffer = Block.zero := by
    rcases s.fetch_cases 1 with ⟨g, hd, _⟩ | ⟨_, _, hg⟩ | ⟨g, free, lru, _, _, hg⟩
    · exact absurd (hv.shows.cached_live 1 g hd) hn
    · simp [hf] at hg
    · obtain ⟨rfl, rfl⟩ := by simpa [hf] using hg
      have hev := BufferPool.evicted_congr (s := s) (t := { s with freeList := free, replacer := lru })
        rfl rfl rfl f
      have haddr : Addressable 1 := addressable_of_le (by simp [bfpMaxPageNum, pageSize])
      simp [BufferPool.loadFrame_eq, hev, hv.shows.stored_evicted_of_not_mem f haddr hn, h.blank rfl]
  have hdense : t.Dense 0 := by
    have := hv.dense.fetch 1
    rwa [hf] at this
  obtain ⟨hi, _⟩ := RecordPage.init_zero hzero
  let u : BufferPool (m + 1) :=
    t.setPage f { t.pages f with buffer := storeSize Block.zero 8 pageSize }
  let sc : RecordScanner (m + 1) := { page := some f, nextRid := ⟨(t.pages f).pid, 0⟩ }
  refine ⟨sc, u, ?_, rfl, ?_⟩
  · rw [init, hf]
    dsimp only
    rw [load, hi]
    rfl
  · refine (BitMap.firstAfter_eq_none_iff _ _ _).2 ?_
    intro j hj _ hbit
    have : j ≤ 0 := (hdense.allocates.get_iff j).1 hbit
    omega

theorem scan_empty {s : BufferPool (m + 1)} (h : HeapInv s []) :
    ∃ sc s' t, init s = some (some sc, s') ∧
      Pull.Drains seqScanNext (sc, s') [] .outOfRange t := by
  obtain ⟨sc, u, hinit, hmore, hnext⟩ := exists_init_empty h
  have hdone : sc.hasNext u = some (false, sc, u.unpin sc.nextRid.pageId false) := by
    rw [hasNext, hmore]
    dsimp only
    rw [hnext]
  refine ⟨sc, u, (sc, u.unpin sc.nextRid.pageId false), hinit, .stop ?_⟩
  rw [seqScanNext, next, hdone]
  rfl

/-- A freshly created scanner delivers `scanRows` and ends with `OUT_OF_RANGE`. -/
theorem scan_heap {s : BufferPool (m + 1)} (h : HeapInv s pages) :
    ∃ sc s' t, init s = some (some sc, s') ∧
      Pull.Drains seqScanNext (sc, s') (scanRows pages) .outOfRange t := by
  cases pages with
  | nil => exact scan_empty h
  | cons slots rest =>
    obtain ⟨sc, s', hinit, hscan⟩ := exists_scanAt h
    have hpages : slots :: rest = [] ++ slots :: rest := rfl
    obtain ⟨t, ht⟩ := hscan.drains hpages
    exact ⟨sc, s', t, hinit, ht⟩

end RecordScanner

end Tadis
