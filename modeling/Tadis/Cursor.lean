import Tadis.ResidentHeap
import Tadis.ScannerPins

/-!
# Scanners as cursors

In a pool in which nothing is evicted a scanner is a place in the list of pages. Its record page is
built when the page is loaded, so it never sees more slots than the page had then, but it does see
when one of them is removed. A page that is appended while the scanner stands on the last one is
still visited, also after the scanner has answered that it is done.
-/

namespace Tadis

namespace RecordPage

def Reads (rp : RecordPage) (p : Page) (slots : List Slot) : Prop :=
  ∀ rid, rp.contain p rid = some (containOf slots[rid.slotId]?) ∧
    ∀ record, rp.get p record rid = some (getOf record rid slots[rid.slotId]?)

theorem slotStart_of_lt {rp : RecordPage} {rid : RID} (h : rid.slotId < rp.recIdx.length) :
    rp.slotStart rid = some (rp.recIdx.getD rid.slotId 0) := by
  have hne : rp.recIdx ≠ [] := List.length_pos_iff.1 (by omega)
  simp [slotStart, hne, h]

theorem slotStart_of_le {rp : RecordPage} {rid : RID} (h : rp.recIdx.length ≤ rid.slotId) :
    rp.slotStart rid = none := by
  simp [slotStart, h]

theorem reads_of_le {rp : RecordPage} (p : Page) {rid : RID} (h : rp.recIdx.length ≤ rid.slotId) :
    rp.contain p rid = some (containOf none) ∧
      ∀ record, rp.get p record rid = some (getOf record rid none) := by
  refine ⟨?_, fun record => ?_⟩
  · rw [contain, slotStart_of_le h]
    rfl
  · rw [get, slotStart_of_le h]
    rfl

end RecordPage

namespace TableHeap

def starts (slots : List Slot) : List ℕ :=
  (List.range slots.length).map (fun i => pageSize - used (slots.take (i + 1)))

@[simp] theorem length_starts (slots : List Slot) : (starts slots).length = slots.length := by
  simp [starts]

theorem recIdx_eq_starts {rp : RecordPage} {b : PageBlock} {slots : List Slot}
    (h : rp.Holds b slots) : rp.recIdx = starts slots := by
  refine List.ext_getElem (by rw [length_starts, h.length_eq]) fun i hi _ => ?_
  have hle : i + 1 ≤ slots.length := h.length_eq ▸ hi
  have hadd := slotEnd_add_used h hle
  rw [RecordPage.slotEnd_succ, List.getD_eq_getElem _ _ hi] at hadd
  simp only [starts, List.getElem_map, List.getElem_range]
  omega

theorem starts_append (slots l : List Slot) : starts slots <+: starts (slots ++ l) := by
  refine List.prefix_iff_eq_take.2 (List.ext_getElem (by simp) fun i hi _ => ?_)
  rw [length_starts] at hi
  simp only [List.getElem_take, starts, List.getElem_map, List.getElem_range]
  rw [List.take_append_of_le_length (show i + 1 ≤ slots.length from hi)]

theorem used_kill (slots : List Slot) (i j : ℕ) :
    used ((slots.modify i Slot.kill).take j) = used (slots.take j) := by
  have hmap : (slots.modify i Slot.kill).map (fun s => s.bytes.length + 1) =
      slots.map (fun s => s.bytes.length + 1) := by
    refine List.ext_getElem (by simp) fun k hk _ => ?_
    simp only [List.getElem_map, List.getElem_modify]
    split <;> rfl
  unfold used
  rw [List.map_take, List.map_take, hmap]

theorem starts_kill (slots : List Slot) (i : ℕ) : starts (slots.modify i Slot.kill) = starts slots := by
  unfold starts
  rw [List.length_modify]
  exact List.map_congr_left fun j _ => by rw [used_kill]

/-- A record page that was built when the page had only some of its slots shows those. -/
theorem reads_take {rp rp' : RecordPage} {p : Page} {slots : List Slot} {k : ℕ}
    (h : rp'.Holds p.buffer slots) (hidx : rp.recIdx = (starts slots).take k) :
    rp.Reads p (slots.take k) := by
  rw [← recIdx_eq_starts h] at hidx
  have hlen : rp.recIdx.length = min k slots.length := by rw [hidx, List.length_take, h.length_eq]
  intro rid
  by_cases hlt : rid.slotId < min k slots.length
  · have hslot : (slots.take k)[rid.slotId]? = slots[rid.slotId]? := by
      rw [List.getElem?_take_of_lt (by omega)]
    have hgetD : ∀ i < min k slots.length, rp.recIdx.getD i 0 = rp'.recIdx.getD i 0 := by
      intro i hi
      have hi' : i < rp'.recIdx.length := by
        rw [h.length_eq]
        omega
      rw [hidx, List.getD_eq_getElem _ _ (by rw [List.length_take, h.length_eq]; exact hi),
        List.getElem_take, List.getD_eq_getElem _ _ hi']
    have hstart : rp.slotStart rid = rp'.slotStart rid := by
      rw [RecordPage.slotStart_of_lt (by omega), RecordPage.slotStart_of_lt (by rw [h.length_eq]; omega),
        hgetD _ hlt]
    have hend : rp.slotEnd rid.slotId = rp'.slotEnd rid.slotId := by
      unfold RecordPage.slotEnd
      split
      · rfl
      · exact hgetD _ (by omega)
    rw [hslot]
    refine ⟨?_, fun record => ?_⟩
    · rw [← h.contain_eq, RecordPage.contain, RecordPage.contain, hstart]
    · rw [← h.get_eq, RecordPage.get, RecordPage.get, hstart, hend]
  · have hslot : (slots.take k)[rid.slotId]? = none :=
      List.getElem?_eq_none (by rw [List.length_take]; omega)
    rw [hslot]
    exact RecordPage.reads_of_le p (by omega)

theorem reads_nil {rp : RecordPage} (p : Page) (h : rp.recIdx = []) : rp.Reads p [] :=
  fun _ => RecordPage.reads_of_le p (by simp [h])

variable {pages pages' : List (List Slot)}

def Extends (pages pages' : List (List Slot)) : Prop :=
  ∀ i, pages.getD i [] <+: pages'.getD i []

theorem Extends.trans {pages'' : List (List Slot)} (h : Extends pages pages')
    (h' : Extends pages' pages'') : Extends pages pages'' := fun i => (h i).trans (h' i)

theorem extends_append (pages : List (List Slot)) (slots : List Slot) :
    Extends pages (pages ++ [slots]) := by
  intro i
  by_cases hi : i < pages.length
  · rw [List.getD_append _ _ _ _ hi]
  · rw [List.getD_eq_default _ _ (not_lt.1 hi)]
    exact List.nil_prefix

theorem extends_set {i : ℕ} {slots : List Slot} (hi : pages[i]? = some slots) (l : List Slot) :
    Extends pages (pages.set i (slots ++ l)) := by
  intro j
  rw [List.getD_eq_getElem?_getD, List.getD_eq_getElem?_getD, List.getElem?_set]
  split_ifs with hij hlt
  · subst hij
    rw [hi]
    exact List.prefix_append _ _
  · exact absurd (List.getElem?_eq_some_iff.1 hi).1 (hij ▸ hlt)
  · exact List.prefix_rfl

theorem extends_insertPages (pages : List (List Slot)) (bytes : Bytes) :
    Extends pages (insertPages pages bytes).2 := by
  have hnew : Extends pages (placeNew pages bytes).2 := by
    unfold placeNew
    split
    · exact extends_append _ _
    · exact extends_append _ _
  unfold insertPages
  cases hl : pages.getLast? with
  | none =>
    obtain rfl := List.getLast?_eq_none_iff.1 hl
    exact fun _ => List.nil_prefix
  | some last =>
    dsimp only
    unfold placeLast
    split
    · refine extends_set ?_ _
      rwa [List.getLast?_eq_getElem?] at hl
    · exact hnew

def Grows (pages pages' : List (List Slot)) : Prop :=
  ∀ i, starts (pages.getD i []) <+: starts (pages'.getD i [])

theorem grows_refl (pages : List (List Slot)) : Grows pages pages := fun _ => List.prefix_rfl

theorem grows_set {i : ℕ} {old slots : List Slot} (hi : pages[i]? = some old)
    (h : starts old <+: starts slots) : Grows pages (pages.set i slots) := by
  intro j
  rw [List.getD_eq_getElem?_getD, List.getD_eq_getElem?_getD, List.getElem?_set]
  split_ifs with hij hlt
  · subst hij
    rwa [hi]
  · exact absurd (List.getElem?_eq_some_iff.1 hi).1 (hij ▸ hlt)
  · exact List.prefix_rfl

theorem Extends.grows (h : Extends pages pages') : Grows pages pages' := by
  intro i
  obtain ⟨l, hl⟩ := h i
  rw [← hl]
  exact starts_append _ _

end TableHeap

/-- Slot `slot` of page `page + 1`, of which the first `loaded` slots are shown. -/
structure Cursor where
  page : ℕ
  slot : ℕ
  loaded : ℕ
deriving DecidableEq

namespace Cursor

open RecordScanner

variable {pages : List (List Slot)} {c : Cursor}

/-- The cursor in front of a page that has just been loaded. -/
def front (pages : List (List Slot)) (i : ℕ) : Cursor := ⟨i, 0, (pages.getD i []).length⟩

def slots (c : Cursor) (pages : List (List Slot)) : List Slot := (pages.getD c.page []).take c.loaded

def hasNext (pages : List (List Slot)) (c : Cursor) : Bool × Cursor :=
  if c.slot < c.loaded then (true, c)
  else if c.page + 1 < pages.length then
    (decide (0 < (front pages (c.page + 1)).loaded), front pages (c.page + 1))
  else (false, c)

/-- The first live slot from slot `j` on, and the slot that comes after it. -/
def walk (pid : ℕ) : ℕ → List Slot → Except RC (RID × Bytes) × ℕ
  | j, [] => (.error .outOfRange, j)
  | j, s :: slots => if s.live then (.ok (⟨pid, j⟩, s.bytes), j + 1) else walk pid (j + 1) slots

/-- `next` in the current page. -/
def nextInPage (pages : List (List Slot)) (c : Cursor) : Except RC (RID × Bytes) × Cursor :=
  ((walk (c.page + 1) c.slot ((c.slots pages).drop c.slot)).1,
    { c with slot := (walk (c.page + 1) c.slot ((c.slots pages).drop c.slot)).2 })

def next (pages : List (List Slot)) (c : Cursor) : Except RC (RID × Bytes) × Cursor :=
  if (c.hasNext pages).1 then (c.hasNext pages).2.nextInPage pages
  else (.error .outOfRange, (c.hasNext pages).2)

theorem next_of_lt (h : c.slot < c.loaded) : c.next pages = c.nextInPage pages := by
  rw [next, hasNext, if_pos h]
  rfl

variable {slots : List Slot} {i : ℕ}

/-- The rest of a page, and what comes after the page when its last slot is live. -/
theorem drains_page (hi : pages[i]? = some slots) (rows : List (RID × Bytes)) {l : List Slot} {j : ℕ}
    (hj : j ≤ slots.length) (hl : slots.drop j = l)
    (hcont : ¬ EndsDead l → ∃ t,
      Pull.Drains (fun c => some (next pages c)) ⟨i, slots.length, slots.length⟩ rows .outOfRange t) :
    ∃ t, Pull.Drains (fun c => some (next pages c)) ⟨i, j, slots.length⟩
      (pageRows (i + 1) j l ++ if EndsDead l then [] else rows) .outOfRange t := by
  have hslots : ∀ j, (⟨i, j, slots.length⟩ : Cursor).slots pages = slots := fun j => by
    simp [Cursor.slots, List.getD_eq_getElem?_getD, hi]
  induction l generalizing j with
  | nil =>
    obtain rfl : j = slots.length := le_antisymm hj (List.drop_eq_nil_iff.1 hl)
    have hend : ¬ EndsDead [] := by simp [EndsDead]
    rw [if_neg hend]
    exact hcont hend
  | cons s l ih =>
    have hlt : j < slots.length := by
      have := congrArg List.length hl
      rw [List.length_drop, List.length_cons] at this
      omega
    have hl' : slots.drop (j + 1) = l := by rw [← List.drop_drop, hl]; rfl
    have hnext : next pages ⟨i, j, slots.length⟩ = nextInPage pages ⟨i, j, slots.length⟩ := next_of_lt hlt
    cases hs : s.live with
    | true =>
      have hends : EndsDead ([] ++ s :: l) ↔ EndsDead l := endsDead_append_live hs
      rw [List.nil_append] at hends
      obtain ⟨t, ht⟩ := ih hlt hl' fun hne => hcont fun he => hne (hends.1 he)
      simp only [hends]
      rw [pageRows, if_pos hs, List.cons_append]
      refine ⟨t, .pull ?_ ht⟩
      rw [hnext, nextInPage, hslots, hl, walk, if_pos hs]
    | false =>
      have hwalk : walk (i + 1) j (s :: l) = walk (i + 1) (j + 1) l := by rw [walk, hs]; rfl
      rw [pageRows, if_neg (by simp [hs])]
      rcases l with _ | ⟨u, l⟩
      · rw [if_pos ⟨s, rfl, hs⟩]
        refine ⟨⟨i, j + 1, slots.length⟩, .stop ?_⟩
        rw [hnext, nextInPage, hslots, hl, hwalk]
        rfl
      · have hends : EndsDead (s :: u :: l) ↔ EndsDead (u :: l) := by
          rw [EndsDead, EndsDead, List.getLast?_cons_cons]
        obtain ⟨t, ht⟩ := ih hlt hl' fun hne => hcont fun he => hne (hends.1 he)
        have hlt' : j + 1 < slots.length := by
          have := congrArg List.length hl'
          rw [List.length_drop, List.length_cons] at this
          omega
        simp only [hends]
        refine ⟨t, Pull.Drains.congr ?_ ht⟩
        rw [hnext, next_of_lt (c := ⟨i, j + 1, slots.length⟩) hlt', nextInPage, nextInPage, hslots,
          hslots, hl, hl', hwalk]

theorem front_eq (hi : pages[i]? = some slots) : front pages i = ⟨i, 0, slots.length⟩ := by
  rw [front, List.getD_eq_getElem?_getD, hi]
  rfl

theorem next_last (h : pages.length = i + 1) (k : ℕ) :
    next pages ⟨i, k, k⟩ = (.error .outOfRange, ⟨i, k, k⟩) := by
  have hstop : hasNext pages ⟨i, k, k⟩ = (false, ⟨i, k, k⟩) := by
    unfold hasNext
    rw [if_neg (lt_irrefl _), if_neg h.not_gt]
  rw [next, hstop]
  rfl

theorem next_move {u : List Slot} (hu : pages[i + 1]? = some u) (k : ℕ) : next pages ⟨i, k, k⟩ =
    if u = [] then (.error .outOfRange, ⟨i + 1, 0, 0⟩) else next pages ⟨i + 1, 0, u.length⟩ := by
  have hmove : hasNext pages ⟨i, k, k⟩ = (decide (0 < u.length), ⟨i + 1, 0, u.length⟩) := by
    unfold hasNext
    rw [if_neg (lt_irrefl _), if_pos (List.getElem?_eq_some_iff.1 hu).1, front_eq hu]
  rw [next, hmove]
  split_ifs with hpos hnil hnil
  · simp [hnil] at hpos
  · exact (next_of_lt (c := ⟨i + 1, 0, u.length⟩) (by simpa using hpos)).symm
  · rw [hnil]
    rfl
  · exact absurd (by simpa using hpos) hnil

theorem drains_scanFrom {before rest : List (List Slot)} (hpages : pages = before ++ slots :: rest) :
    ∃ t, Pull.Drains (fun c => some (next pages c)) ⟨before.length, 0, slots.length⟩
      (scanFrom (before.length + 1) slots rest) .outOfRange t := by
  induction rest generalizing before slots with
  | nil =>
    have hi : pages[before.length]? = some slots := by simp [hpages]
    obtain ⟨t, ht⟩ := drains_page hi [] (Nat.zero_le _) rfl fun _ =>
      ⟨_, .stop (congrArg some (next_last (by simp [hpages]) _))⟩
    exact ⟨t, by simpa [scanFrom] using ht⟩
  | cons u rest ih =>
    have hi : pages[before.length]? = some slots := by simp [hpages]
    have hu : pages[before.length + 1]? = some u := by simp [hpages]
    have hpages' : pages = (before ++ [slots]) ++ u :: rest := by simp [hpages]
    obtain ⟨t, ht⟩ := drains_page hi (if u = [] then [] else scanFrom (before.length + 2) u rest)
      (Nat.zero_le _) rfl fun _ => by
        by_cases hne : u = []
        · rw [if_pos hne]
          exact ⟨_, .stop (congrArg some ((next_move hu _).trans (if_pos hne)))⟩
        · obtain ⟨t, ht⟩ := ih hpages'
          rw [if_neg hne]
          refine ⟨t, Pull.Drains.congr (congrArg some ((next_move hu _).trans (if_neg hne))) ?_⟩
          simpa using ht
    refine ⟨t, ?_⟩
    have hrows : scanFrom (before.length + 1) slots (u :: rest) =
        pageRows (before.length + 1) 0 slots ++ if EndsDead slots then [] else
          if u = [] then [] else scanFrom (before.length + 2) u rest := by
      rw [scanFrom]
      by_cases hd : EndsDead slots <;> simp [hd]
    rw [hrows]
    simpa using ht

theorem drains_scanRows (pages : List (List Slot)) : ∃ t,
    Pull.Drains (fun c => some (next pages c)) (front pages 0) (scanRows pages) .outOfRange t := by
  cases pages with
  | nil => exact ⟨_, .stop rfl⟩
  | cons slots rest =>
    have hpages : slots :: rest = [] ++ slots :: rest := rfl
    rw [front_eq (show (slots :: rest)[0]? = some slots from rfl)]
    exact drains_scanFrom hpages

end Cursor

namespace RecordScanner

open TableHeap BufferPool

variable {n : ℕ} {sc : RecordScanner n} {s s' : BufferPool n} {pages pages' : List (List Slot)}
  {c : Cursor} {f : Fin n}

theorem pageNext_eq_walk {rp : RecordPage} {p : Page} {slots : List Slot} (h : rp.Reads p slots)
    (pid : ℕ) {l : List Slot} {j : ℕ} (hl : slots.drop j = l) (record : Record) (rid : RID) :
    ∃ rc record' rid', pageNext rp p record rid ⟨pid, j⟩ =
        some (rc, record', rid', ⟨pid, (Cursor.walk pid j l).2⟩) ∧
      (if rcSuccess rc then .ok (rid', record'.data) else .error rc) = (Cursor.walk pid j l).1 := by
  induction l generalizing j record with
  | nil =>
    have hj : slots[j]? = none := List.getElem?_eq_none (List.drop_eq_nil_iff.1 hl)
    refine ⟨.outOfRange, record, rid, ?_, rfl⟩
    rw [pageNext, (h ⟨pid, j⟩).1, (h ⟨pid, j⟩).2, hj]
    rfl
  | cons t l ih =>
    have hj : slots[j]? = some t := by
      have := congrArg List.head? hl
      simpa using this
    have hl' : slots.drop (j + 1) = l := by rw [← List.drop_drop, hl]; rfl
    cases hlive : t.live with
    | true =>
      refine ⟨.success, ⟨false, ⟨pid, j⟩, t.bytes⟩, ⟨pid, j⟩, ?_, ?_⟩
      · rw [pageNext, (h ⟨pid, j⟩).1, (h ⟨pid, j⟩).2, hj]
        simp [RecordPage.containOf, RecordPage.getOf, Cursor.walk, hlive]
      · simp [Cursor.walk, hlive, rcSuccess]
    | false =>
      obtain ⟨rc, record', rid', hn, hrow⟩ := ih hl' { record with isDeleted := true }
      refine ⟨rc, record', rid', ?_, ?_⟩
      · rw [pageNext, (h ⟨pid, j⟩).1, (h ⟨pid, j⟩).2, hj]
        simp [RecordPage.containOf, RecordPage.getOf, Cursor.walk, hlive, hn]
      · rw [hrow, Cursor.walk, hlive]
        rfl

/-- The scanner stands at the cursor. It has lost its frame at most when it shows no slots. -/
structure StandsAt (sc : RecordScanner n) (s : BufferPool n) (pages : List (List Slot))
    (c : Cursor) : Prop where
  nextRid_eq : sc.nextRid = ⟨c.page + 1, c.slot⟩
  loaded_le : c.loaded ≤ (pages.getD c.page []).length
  recIdx_eq : sc.rp.recIdx = (starts (pages.getD c.page [])).take c.loaded
  frame : ∃ f, sc.page = some f ∧ (0 < c.loaded → s.dir.lookup (c.page + 1) = some f)

theorem StandsAt.page_lt (h : StandsAt sc s pages c) (hpos : 0 < c.loaded) : c.page < pages.length := by
  by_contra hge
  have hle := h.loaded_le
  rw [List.getD_eq_default _ _ (not_lt.1 hge), List.length_nil] at hle
  omega

theorem StandsAt.length_slots (h : StandsAt sc s pages c) : (c.slots pages).length = c.loaded := by
  rw [Cursor.slots, List.length_take, min_eq_left h.loaded_le]

theorem StandsAt.reads (h : StandsAt sc s pages c) (hs : ResidentHeap s pages)
    (hp : sc.page = some f) : sc.rp.Reads (s.pages f) (c.slots pages) := by
  by_cases hpos : 0 < c.loaded
  · obtain ⟨g, hg, hd⟩ := h.frame
    obtain rfl := Option.some.inj (hp.symm.trans hg)
    have hlt := h.page_lt hpos
    obtain ⟨rp', hrp', _⟩ := hs.page (List.getElem?_eq_getElem hlt) (hd hpos)
    have hidx := h.recIdx_eq
    rw [List.getD_eq_getElem _ _ hlt] at hidx
    rw [Cursor.slots, List.getD_eq_getElem _ _ hlt]
    exact reads_take hrp' hidx
  · have hzero : c.loaded = 0 := by omega
    have hidx := h.recIdx_eq
    rw [hzero, List.take_zero] at hidx
    rw [Cursor.slots, hzero, List.take_zero]
    exact reads_nil _ hidx

theorem StandsAt.pageHasNext_eq (h : StandsAt sc s pages c) (hs : ResidentHeap s pages) :
    sc.pageHasNext s = some (decide (c.slot < c.loaded)) := by
  obtain ⟨f, hp, _⟩ := h.frame
  have hlen := h.length_slots
  rw [pageHasNext, hp]
  dsimp only
  rw [(h.reads hs hp _).1, h.nextRid_eq, Option.map_some]
  dsimp only
  by_cases hj : c.slot < c.loaded
  · have hlt : c.slot < (c.slots pages).length := by omega
    rw [List.getElem?_eq_getElem hlt, decide_eq_true hj]
    cases hl : (c.slots pages)[c.slot].live <;> simp [RecordPage.containOf, hl]
  · rw [List.getElem?_eq_none (by omega), decide_eq_false hj]
    rfl

theorem StandsAt.mono (h : StandsAt sc s pages c) (hkeep : s.Quiet s' pages.length)
    (hg : Grows pages pages') : StandsAt sc s' pages' c := by
  obtain ⟨l, hl⟩ := hg c.page
  have hlen : (pages.getD c.page []).length ≤ (pages'.getD c.page []).length := by
    have := congrArg List.length hl
    simp only [List.length_append, length_starts] at this
    omega
  refine ⟨h.nextRid_eq, h.loaded_le.trans hlen, ?_, ?_⟩
  · rw [h.recIdx_eq, ← hl, List.take_append_of_le_length (by simpa using h.loaded_le)]
  · obtain ⟨f, hp, hd⟩ := h.frame
    exact ⟨f, hp, fun hpos => hkeep.cached _ (h.page_lt hpos) f (hd hpos)⟩

theorem standsAt_front {i : ℕ} (hs : ResidentHeap s pages) (hi : i < pages.length)
    (hd : s.dir.lookup (i + 1) = some f) (hrid : sc.nextRid = ⟨i + 1, 0⟩) :
    ∃ sc', load sc s f = some (sc', s) ∧ StandsAt sc' s pages (Cursor.front pages i) := by
  obtain ⟨rp, hrp, _⟩ := hs.page (List.getElem?_eq_getElem hi) hd
  refine ⟨{ sc with rp := rp, page := some f }, ?_, hrid, le_rfl, ?_, f, rfl, fun _ => hd⟩
  · rw [load, hrp.init, Option.map_some, setPage_self]
  · dsimp only [Cursor.front]
    rw [recIdx_eq_starts hrp, List.getD_eq_getElem _ _ hi, ← length_starts, List.take_length]

theorem nextPidAfter_of_ge {k i : ℕ} (h : s.Dense k) (hi : k ≤ i) : s.nextPidAfter i = none := by
  refine (BitMap.firstAfter_eq_none_iff _ _ _).2 fun j hj _ hbit => ?_
  have : j ≤ k := (h.allocates.get_iff j).1 hbit
  omega

theorem StandsAt.hasNext (h : StandsAt sc s pages c) (hs : ResidentHeap s pages)
    (hn : pages.length + 2 ≤ n) : ∃ sc' s', sc.hasNext s = some ((c.hasNext pages).1, sc', s') ∧
      ResidentHeap s' pages ∧ StandsAt sc' s' pages (c.hasNext pages).2 ∧
      s.Quiet s' pages.length := by
  have hmore := h.pageHasNext_eq hs
  unfold RecordScanner.hasNext Cursor.hasNext
  rw [hmore]
  by_cases hlt : c.slot < c.loaded
  · rw [decide_eq_true hlt, if_pos hlt]
    exact ⟨sc, s, rfl, hs, h, quiet_of_dir rfl rfl _⟩
  · rw [decide_eq_false hlt, if_neg hlt]
    dsimp only
    have hu := hs.unpin_clean sc.nextRid.pageId
    have hkeep := s.quiet_unpin sc.nextRid.pageId false pages.length
    have hpid : sc.nextRid.pageId = c.page + 1 := by rw [h.nextRid_eq]
    by_cases hnext : c.page + 1 < pages.length
    · obtain ⟨f, t, hf, ht, hd, hkeep'⟩ := hu.fetch (i := c.page + 2) hn hnext
      obtain ⟨sc', hl, hat⟩ := standsAt_front ht hnext hd (show
        ({ sc with nextRid := ⟨c.page + 2, 0⟩, page := none } : RecordScanner n).nextRid = _ from rfl)
      have hid : s.nextPidAfter sc.nextRid.pageId = some (c.page + 2) := by
        rw [hpid, nextPidAfter_eq hs.dense hnext.le, if_pos hnext]
      have hfront := hat.pageHasNext_eq ht
      rw [if_pos hnext, hid]
      dsimp only
      rw [hf]
      dsimp only
      rw [hl]
      dsimp only
      rw [hfront]
      exact ⟨sc', t, rfl, ht, hat, hkeep.trans hkeep' le_rfl⟩
    · have hid : s.nextPidAfter sc.nextRid.pageId = none := by
        rw [hpid]
        exact nextPidAfter_of_ge hs.dense (not_lt.1 hnext)
      rw [if_neg hnext, hid]
      exact ⟨sc, _, rfl, hu, h.mono hkeep (grows_refl _), hkeep⟩

theorem StandsAt.seqScanNext (h : StandsAt sc s pages c) (hs : ResidentHeap s pages)
    (hn : pages.length + 2 ≤ n) : ∃ sc' s',
      RecordScanner.seqScanNext (sc, s) = some ((c.next pages).1, (sc', s')) ∧
      ResidentHeap s' pages ∧ StandsAt sc' s' pages (c.next pages).2 ∧
      s.Quiet s' pages.length := by
  obtain ⟨sc', s', hh, hs', hat, hkeep⟩ := h.hasNext hs hn
  unfold RecordScanner.seqScanNext RecordScanner.next Cursor.next
  dsimp only
  rw [hh]
  cases hm : (c.hasNext pages).1 with
  | false => exact ⟨sc', s', rfl, hs', hat, hkeep⟩
  | true =>
    obtain ⟨f, hp, hd⟩ := hat.frame
    obtain ⟨rc, record, rid, hw, hrow⟩ := pageNext_eq_walk (hat.reads hs' hp)
      ((c.hasNext pages).2.page + 1) rfl {} {}
    dsimp only
    rw [hp]
    dsimp only
    unfold nextInPage
    rw [hp]
    dsimp only
    rw [hat.nextRid_eq, hw]
    refine ⟨_, s', congrArg some (Prod.ext hrow rfl), hs', ?_, hkeep⟩
    exact ⟨rfl, hat.loaded_le, hat.recIdx_eq, f, rfl, hd⟩

/-- A scanner can be created in any such heap. Over an empty heap it formats page 1, which is not
allocated yet. -/
theorem exists_standsAt (hs : ResidentHeap s pages) (hn : pages.length + 2 ≤ n) :
    ∃ sc s', init s = some (some sc, s') ∧ ResidentHeap s' pages ∧
      StandsAt sc s' pages (Cursor.front pages 0) ∧ s.Quiet s' pages.length := by
  cases pages with
  | cons slots rest =>
    obtain ⟨f, t, hf, ht, hd, hkeep⟩ := hs.fetch (i := 1) hn (by simp)
    obtain ⟨_, _, hpid⟩ := ht.page (i := 0) rfl hd
    obtain ⟨sc, hl, hat⟩ := standsAt_front ht (by simp) hd
      (show ({ nextRid := ⟨1, 0⟩ } : RecordScanner n).nextRid = ⟨0 + 1, 0⟩ from rfl)
    refine ⟨sc, t, ?_, ht, hat, hkeep⟩
    rw [init, hf]
    dsimp only
    rw [hpid, hl, Option.map_some]
  | nil =>
    obtain ⟨bytes, hr, _, hblank⟩ := hs
    obtain ⟨f, t, b, hf, ht, hd, hkeep, hb⟩ := hr.fetch_one hn
    have hslots : HasSlots (t.pages f).buffer [] := by
      rw [ht.cached 1 f hd, Function.update_self]
      rcases hb with rfl | rfl
      · exact hblank rfl
      · exact hasSlots_zero
    have hfmt := hslots.formatted
    obtain ⟨rp, hi, hrp⟩ := hslots.init
    generalize hp : ({ t.pages f with buffer := RecordPage.formatted (t.pages f).buffer } : Page) = p
      at hi
    have hb : p.buffer = RecordPage.formatted (t.pages f).buffer := by rw [← hp]
    have hw := ht.rewritten hd (p := p) (by rw [← hp]) (fun h1 => absurd h1 (by omega))
      fun _ => by rw [← hp]
    have hres : ResidentHeap (t.setPage f p) [] := by
      refine ⟨_, hw, by simp, fun _ => ?_⟩
      rw [Function.update_self, hb]
      exact hfmt
    refine ⟨{ rp := rp, page := some f, nextRid := ⟨1, 0⟩ }, t.setPage f p, ?_, hres,
      ⟨rfl, le_rfl, ?_, f, rfl, fun hpos => absurd hpos (lt_irrefl 0)⟩, hkeep.cached, hkeep.file⟩
    · rw [init, hf]
      dsimp only
      rw [load, hi, ht.own 1 f hd]
      rfl
    · exact (recIdx_eq_starts hrp).trans (List.take_length).symm

/-- Destroying a scanner leaves the pages and the other scanners as they are. -/
theorem destroy_resident (hs : ResidentHeap s pages) (sc : RecordScanner n) :
    ResidentHeap (destroy (sc, s)) pages ∧ s.Quiet (destroy (sc, s)) pages.length :=
  ⟨hs.unpin_clean _, quiet_unpin _ _ _ _⟩

/-- What a scanner delivers until it answers `OUT_OF_RANGE`, wherever it stands. -/
theorem StandsAt.drains (h : StandsAt sc s pages c) (hs : ResidentHeap s pages)
    (hn : pages.length + 2 ≤ n) {rows : List (RID × Bytes)} {c' : Cursor}
    (hd : Pull.Drains (fun c => some (Cursor.next pages c)) c rows .outOfRange c') :
    ∃ t, Pull.Drains RecordScanner.seqScanNext (sc, s) rows .outOfRange t ∧
      ResidentHeap t.2 pages ∧ StandsAt t.1 t.2 pages c' ∧ s.Quiet t.2 pages.length := by
  refine hd.simulate (R := fun (x : RecordScanner n × BufferPool n) c => ResidentHeap x.2 pages ∧ StandsAt x.1 x.2 pages c ∧
    s.Quiet x.2 pages.length) ?_ ⟨hs, h, quiet_of_dir rfl rfl _⟩
  rintro ⟨sc, t⟩ c x c' ⟨hs, hat, hkeep⟩ hnext
  obtain ⟨sc', t', hn', hs', hat', hkeep'⟩ := hat.seqScanNext hs hn
  obtain ⟨rfl, rfl⟩ := Prod.mk.inj (Option.some.inj hnext)
  exact ⟨(sc', t'), hn', hs', hat', hkeep.trans hkeep' le_rfl⟩

theorem exists_drains (hs : ResidentHeap s pages) (hn : pages.length + 2 ≤ n) :
    ∃ sc s' t, init s = some (some sc, s') ∧
      Pull.Drains RecordScanner.seqScanNext (sc, s') (scanRows pages) .outOfRange t ∧
      ResidentHeap s' pages ∧ ResidentHeap t.2 pages ∧ s.Quiet s' pages.length ∧
      s.Quiet t.2 pages.length := by
  obtain ⟨sc, s', hi, hs', hat, hkeep⟩ := exists_standsAt hs hn
  obtain ⟨c, hc⟩ := Cursor.drains_scanRows pages
  obtain ⟨t, ht, hres, _, hkeep'⟩ := hat.drains hs' hn hc
  exact ⟨sc, s', t, hi, ht, hs', hres, hkeep, hkeep.trans hkeep' le_rfl⟩

end RecordScanner

end Tadis
