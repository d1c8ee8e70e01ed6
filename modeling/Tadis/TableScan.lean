import Tadis.ScannerPins
import Tadis.TableState

/-!
# Scanning a table in any state

No calls match here: pins may be left over and frames may be lost. A scanner over a table still stands
on a record page, and a call that moves it on leads to a later page or finds no frame. Every call
comes back, and a scan delivers no more rows than a file has slots.
-/

namespace Tadis.RecordScanner

open BufferPool TableHeap

attribute [local irreducible] RecordPage.formatted

variable {n : ℕ} {c c' : RecordScanner n × BufferPool n} {s s' : BufferPool n} {sc : RecordScanner n}
  {slots : List Slot} {f : Fin n} {id : ℕ} {calls : List ScanCall}

/-- What a scan does to its pool: it fetches pages, gives them back unchanged and builds record pages
over their frames. -/
inductive Touches : BufferPool n → BufferPool n → Prop
  | fetch (s : BufferPool n) (id : ℕ) : Touches s (s.fetch id).2
  | unpin (s : BufferPool n) (id : ℕ) : Touches s (s.unpin id false)
  | build {s : BufferPool n} {f : Fin n} {rp : RecordPage} {p : Page}
      (h : RecordPage.init (s.pages f) = some (rp, p)) : Touches s (s.setPage f p)

abbrev Scanned (s s' : BufferPool n) : Prop := Relation.ReflTransGen Touches s s'

theorem scanned_fetch {o : Option (Fin n)} (hf : s.fetch id = (o, s')) : Scanned s s' := by
  have h := Touches.fetch s id
  rw [hf] at h
  exact .single h

theorem scanned_load (h : load sc s f = some c) : Scanned s c.2 := by
  obtain ⟨x, hx, rfl⟩ := Option.map_eq_some_iff.1 h
  exact .single (.build hx)

theorem scanned_hasNext {more : Bool} (h : c.1.hasNext c.2 = some (more, c')) : Scanned c.2 c'.2 := by
  unfold RecordScanner.hasNext at h
  split at h
  · cases h
  · cases h
    exact .refl
  · have hunpin : Scanned c.2 (c.2.unpin c.1.nextRid.pageId false) := .single (.unpin _ _)
    dsimp only at h
    split at h
    · cases h
      exact hunpin
    · split at h
      · rename_i hf
        cases h
        exact hunpin.trans (scanned_fetch hf)
      · rename_i hf
        split at h
        · cases h
        · rename_i sc' t hl
          obtain ⟨_, _, heq⟩ := Option.map_eq_some_iff.1 h
          cases heq
          exact (hunpin.trans (scanned_fetch hf)).trans (scanned_load hl)

theorem scanned_nextInPage {record : Record} {rid : RID}
    {x : RC × Record × RID × RecordScanner n × BufferPool n}
    (h : sc.nextInPage s record rid = some x) : x.2.2.2.2 = s := by
  unfold nextInPage at h
  split at h
  · cases h
  · obtain ⟨_, _, rfl⟩ := Option.map_eq_some_iff.1 h
    rfl

theorem scanned_next {record : Record} {rid : RID}
    {x : RC × Record × RID × RecordScanner n × BufferPool n}
    (h : c.1.next c.2 record rid = some x) : Scanned c.2 x.2.2.2.2 := by
  unfold RecordScanner.next at h
  split at h
  · cases h
  · rename_i hn
    cases h
    exact scanned_hasNext hn
  · rename_i hn
    have hfirst := scanned_hasNext hn
    split at h
    · rwa [scanned_nextInPage h]
    · split at h
      · rename_i hf
        cases h
        exact hfirst.trans (scanned_fetch hf)
      · rename_i hf
        split at h
        · cases h
        · rename_i hl
          rw [scanned_nextInPage h]
          exact (hfirst.trans (scanned_fetch hf)).trans (scanned_load hl)

theorem scanned_seqScanNext {x : Except RC (RID × Bytes)} (h : seqScanNext c = some (x, c')) :
    Scanned c.2 c'.2 := by
  obtain ⟨y, hy, heq⟩ := Option.map_eq_some_iff.1 h
  cases heq
  exact scanned_next hy

theorem scanned_init {o : Option (RecordScanner n)} (h : init s = some (o, s')) : Scanned s s' := by
  unfold init at h
  dsimp only at h
  split at h
  · rename_i hf
    split_ifs at h
    cases h
    exact scanned_fetch hf
  · rename_i hf
    obtain ⟨c, hl, heq⟩ := Option.map_eq_some_iff.1 h
    cases heq
    exact (scanned_fetch hf).trans (scanned_load hl)

/-- The page scanner points to a record page of a table. -/
structure OnPage (c : RecordScanner n × BufferPool n) (slots : List Slot) : Prop where
  table : TableState c.2
  page : ∃ f, c.1.page = some f ∧ c.1.rp.Holds (c.2.pages f).buffer slots

/-- The slots that the scanner can still come to, 128 for each page that the bitmap can hold. -/
def slotsLeft (c : RecordScanner n × BufferPool n) (slots : List Slot) : ℕ :=
  (bfpMaxPageNum + 8 - c.1.nextRid.pageId) * 128 + (slots.length - c.1.nextRid.slotId)

theorem length_lt_of_holds {rp : RecordPage} {b : PageBlock} (h : rp.Holds b slots) :
    slots.length < 128 := by
  have hroom := h.room
  have hle := h.freeAddrEnd_le
  unfold pageSize at hle
  omega

theorem exists_onPage (h : TableState s) (hd : s.dir.lookup id = some f) (h0 : id ≠ 0)
    (sc : RecordScanner n) :
    ∃ c slots, load sc s f = some c ∧ OnPage c slots ∧ c.1.nextRid = sc.nextRid := by
  obtain ⟨slots, hslots⟩ := h.cached id f h0 hd
  obtain ⟨rp, hi, hrp⟩ := hslots.init
  have hl : load sc s f = some ({ sc with rp := rp, page := some f },
      s.setPage f { s.pages f with buffer := RecordPage.formatted (s.pages f).buffer }) := by
    rw [load, hi, Option.map_some]
  exact ⟨_, slots, hl, ⟨h.build hi, f, rfl, by simpa using hrp⟩, rfl⟩

theorem OnPage.unpin (h : OnPage c slots) (id : ℕ) (d : Bool) : OnPage (c.1, c.2.unpin id d) slots := by
  obtain ⟨f, hp, hrp⟩ := h.page
  refine ⟨h.table.unpin id d, f, hp, ?_⟩
  rwa [(unpin_frame c.2 id d f).1]

theorem OnPage.move (h : OnPage c slots) (rid : RID) :
    OnPage ({ c.1 with nextRid := rid }, c.2) slots := ⟨h.table, h.page⟩

/-- `hasNext` stays on a record page or finds no frame for the next one, twice. -/
theorem OnPage.hasNext (h : OnPage c slots) : ∃ more c', c.1.hasNext c.2 = some (more, c') ∧
    ((∃ slots', OnPage c' slots' ∧ (more = true → c'.1.nextRid.slotId < slots'.length ∧
        slotsLeft c' slots' ≤ slotsLeft c slots)) ∨
      (more = true ∧ c'.1.page = none ∧ TableState c'.2 ∧
        c'.2.fetch c'.1.nextRid.pageId = (none, c'.2) ∧ ¬ FindsFrame c)) := by
  obtain ⟨f, hp, hrp⟩ := h.page
  have hmore := pageHasNext_eq_of_holds hp hrp
  by_cases hj : c.1.nextRid.slotId < slots.length
  · rw [decide_eq_true hj] at hmore
    refine ⟨true, c, ?_, .inl ⟨slots, h, fun _ => ⟨hj, le_rfl⟩⟩⟩
    simp only [RecordScanner.hasNext, hmore]
  rw [decide_eq_false hj] at hmore
  cases hn : c.2.nextPidAfter c.1.nextRid.pageId with
  | none =>
    refine ⟨false, (c.1, c.2.unpin c.1.nextRid.pageId false), ?_, .inl ⟨slots, h.unpin _ _, ?_⟩⟩
    · simp only [RecordScanner.hasNext, hmore, hn]
    · exact fun hno => by cases hno
  | some id =>
    obtain ⟨hlt, hlen, _⟩ := (BitMap.firstAfter_eq_some_iff _ _ _ _).1 hn
    have hbound : id < bfpMaxPageNum + 8 := by
      have hb := h.table.bounded
      unfold BitmapBounded bfpMaxPageNum pageSize at hb
      unfold bfpMaxPageNum pageSize
      omega
    have haddr : Addressable id := by
      unfold bfpMaxPageNum pageSize at hbound
      unfold Addressable pageSize
      omega
    rcases hg : (c.2.unpin c.1.nextRid.pageId false).fetch id with ⟨_ | g, t⟩
    · obtain rfl := fetch_none_eq hg
      have hno : c.1.hasNext c.2 = some (true, { c.1 with nextRid := ⟨id, 0⟩, page := none },
          c.2.unpin c.1.nextRid.pageId false) := by
        simp only [RecordScanner.hasNext, hmore, hn, hg]
      refine ⟨true, _, hno, .inr ⟨rfl, rfl, h.table.unpin _ _, hg, fun hf => ?_⟩⟩
      exact hf hmore id hn (by rw [hg])
    · have ht : TableState t := by
        have hfetch := (h.table.unpin c.1.nextRid.pageId false).fetch haddr
        rwa [hg] at hfetch
      obtain ⟨c', slots', hl, hc', hrid⟩ := exists_onPage ht (fetch_lookup_self hg) (by omega)
        { c.1 with nextRid := ⟨id, 0⟩, page := none }
      obtain ⟨g', hp', hrp'⟩ := hc'.page
      have hmore' := pageHasNext_eq_of_holds hp' hrp'
      refine ⟨_, c', ?_, .inl ⟨slots', hc', fun hlt' => ⟨of_decide_eq_true hlt', ?_⟩⟩⟩
      · simp only [RecordScanner.hasNext, hmore, hn, hg, hl, hmore', Option.map_some]
      · have hsmall := length_lt_of_holds hrp'
        unfold slotsLeft
        rw [hrid]
        dsimp only
        omega

theorem exists_pageNext {rp : RecordPage} {p : Page} (h : rp.Holds p.buffer slots) (record : Record)
    (rid nextRid : RID) : ∃ x, pageNext rp p record rid nextRid = some x ∧
      (x.1 = .success → nextRid.slotId < x.2.2.2.slotId ∧ nextRid.slotId < slots.length) := by
  obtain ⟨pid, j⟩ := nextRid
  rcases exists_live_or (slots.drop j) with hdead | ⟨dead, u, rest, hl, hdead, hu⟩
  · obtain ⟨record', next, hn⟩ := pageNext_dead h rid pid rfl hdead record
    exact ⟨_, hn, fun hrc => by cases hrc⟩
  · have hlen := congrArg List.length hl
    simp only [List.length_drop, List.length_append, List.length_cons] at hlen
    refine ⟨_, pageNext_live h rid pid hl hdead hu record, fun _ => ?_⟩
    dsimp only
    omega

theorem OnPage.next (h : OnPage c slots) (record : Record) (rid : RID) :
    ∃ x, c.1.next c.2 record rid = some x ∧ TableState x.2.2.2.2 ∧
      ((x.1 = .internalError ∧ ¬ FindsFrame c) ∨ ∃ slots', OnPage x.2.2.2 slots' ∧
        (x.1 = .success → slotsLeft x.2.2.2 slots' < slotsLeft c slots)) := by
  obtain ⟨more, c₁, hn, ⟨slots', hc₁, hle⟩ | ⟨rfl, hpage, ht, hfetch, hno⟩⟩ := h.hasNext
  · cases more with
    | false =>
      refine ⟨(.outOfRange, record, rid, c₁), ?_, hc₁.table, .inr ⟨slots', hc₁, fun hrc => ?_⟩⟩
      · simp only [RecordScanner.next, hn]
      · cases hrc
    | true =>
      obtain ⟨hlt, hle⟩ := hle rfl
      obtain ⟨f, hp, hrp⟩ := hc₁.page
      obtain ⟨x, hx, hslot⟩ := exists_pageNext hrp record rid c₁.1.nextRid
      have hid := pageNext_pageId hx
      refine ⟨(x.1, x.2.1, x.2.2.1, { c₁.1 with nextRid := x.2.2.2 }, c₁.2), ?_, hc₁.table,
        .inr ⟨slots', hc₁.move _, fun hrc => lt_of_lt_of_le ?_ hle⟩⟩
      · simp only [RecordScanner.next, hn, hp, nextInPage, hx, Option.map_some]
      · have hslot := hslot hrc
        unfold slotsLeft
        dsimp only
        rw [hid]
        omega
  · refine ⟨(.internalError, record, rid, c₁), ?_, ht, .inl ⟨rfl, hno⟩⟩
    simp only [RecordScanner.next, hn, hpage, hfetch]

theorem OnPage.drains (h : OnPage c slots) : ∃ outs rc t,
    Pull.Drains seqScanNext c outs rc t ∧ outs.length ≤ slotsLeft c slots ∧ TableState t.2 := by
  generalize hk : slotsLeft c slots = k
  induction k using Nat.strong_induction_on generalizing c slots with
  | _ k ih =>
    obtain ⟨x, hx, ht, hcases⟩ := h.next {} {}
    have hnext : seqScanNext c =
        some (if rcSuccess x.1 then .ok (x.2.2.1, x.2.1.data) else .error x.1, x.2.2.2) := by
      rw [seqScanNext, hx, Option.map_some]
    by_cases hrc : rcSuccess x.1 = true
    · rw [if_pos hrc] at hnext
      have hsuccess : x.1 = .success := by simpa [rcSuccess] using hrc
      rcases hcases with ⟨hrc', _⟩ | ⟨slots', hc', hlt⟩
      · rw [hsuccess] at hrc'
        cases hrc'
      · have hlt := hlt hsuccess
        obtain ⟨outs, rc, t, hd, hle, ht'⟩ := ih _ (hk ▸ hlt) hc' rfl
        refine ⟨_ :: outs, rc, t, .pull hnext hd, ?_, ht'⟩
        rw [List.length_cons]
        omega
    · rw [if_neg hrc] at hnext
      exact ⟨[], x.1, x.2.2.2, .stop hnext, Nat.zero_le _, ht⟩

theorem exists_init (h : TableState s) (hf : (s.fetch 1).1 ≠ none) :
    ∃ c slots, init s = some (some c.1, c.2) ∧ OnPage c slots ∧ c.1.nextRid = ⟨1, 0⟩ := by
  rcases hg : s.fetch 1 with ⟨_ | f, t⟩
  · rw [hg] at hf
    exact absurd rfl hf
  · have ht : TableState t := by
      have hone : Addressable 1 := addressable_of_le (by decide)
      have hfetch := h.fetch hone
      rwa [hg] at hfetch
    have hd := fetch_lookup_self hg
    have hpid := ht.own 1 f hd
    obtain ⟨c, slots, hl, hc, hrid⟩ := exists_onPage ht hd one_ne_zero
      { nextRid := ⟨(t.pages f).pid, 0⟩ }
    refine ⟨c, slots, ?_, hc, by rw [hrid, hpid]⟩
    rw [init, hg]
    dsimp only
    rw [hl, Option.map_some]

theorem OnPage.call (h : OnPage c slots) (hf : FindsFrame c) (k : ScanCall) :
    ∃ c' slots', RecordScanner.call c k = some c' ∧ OnPage c' slots' := by
  cases k with
  | hasNext =>
    obtain ⟨more, c', hn, ⟨slots', hc', _⟩ | ⟨_, _, _, _, hno⟩⟩ := h.hasNext
    · exact ⟨c', slots', by rw [RecordScanner.call, hn, Option.map_some], hc'⟩
    · exact absurd hf hno
  | next record rid =>
    obtain ⟨x, hx, _, ⟨_, hno⟩ | ⟨slots', hc', _⟩⟩ := h.next record rid
    · exact absurd hf hno
    · exact ⟨x.2.2.2, slots', by rw [RecordScanner.call, hx, Option.map_some], hc'⟩

theorem OnPage.callAll_ne_none (h : OnPage c slots) (hframes : Throughout FindsFrame c calls) :
    callAll c calls ≠ none := by
  induction calls generalizing c slots with
  | nil => exact Option.some_ne_none c
  | cons k calls ih =>
    obtain ⟨c', slots', hk, hc'⟩ := h.call hframes.1 k
    rw [callAll, hk, Option.bind_some]
    exact ih hc' (hframes.2 c' hk)

/-- In every state of a table, a scanner whose calls find their frames never goes wrong. -/
theorem exists_init_callAll (h : TableState s) (hf : (s.fetch 1).1 ≠ none) : ∃ sc s',
    init s = some (some sc, s') ∧
      ∀ calls, Throughout FindsFrame (sc, s') calls → callAll (sc, s') calls ≠ none := by
  obtain ⟨c, slots, hi, hc, _⟩ := exists_init h hf
  exact ⟨c.1, c.2, hi, fun calls => hc.callAll_ne_none⟩

end Tadis.RecordScanner
