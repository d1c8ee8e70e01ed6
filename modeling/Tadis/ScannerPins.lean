import Tadis.Closing
import Tadis.RecordScanner

/-!
# The pins of a scanner

A scanner holds one pin, on the page it stands on. `has_next` hands it on when the scanner moves to
the next page, but at the end of the last page it gives the pin back and stays there, and the
destructor gives it back once more. After such a use a pin count of `2 ^ 64 - 1` stays behind and the
frame stays in the replacer; a later scan that fetches the page again, or needs its frame, is not
neutral either.
-/

namespace Tadis.RecordScanner

open BufferPool

variable {n : ℕ}

inductive ScanCall
  | hasNext
  | next (record : Record) (rid : RID)

def call (c : RecordScanner n × BufferPool n) : ScanCall → Option (RecordScanner n × BufferPool n)
  | .hasNext => (c.1.hasNext c.2).map Prod.snd
  | .next record rid => (c.1.next c.2 record rid).map (fun x => x.2.2.2)

def callAll (c : RecordScanner n × BufferPool n) :
    List ScanCall → Option (RecordScanner n × BufferPool n)
  | [] => some c
  | k :: calls => (call c k).bind (fun c => callAll c calls)

def destroy (c : RecordScanner n × BufferPool n) : BufferPool n :=
  c.2.unpin c.1.nextRid.pageId false

/-- `P` holds whenever one of the calls is made. -/
def Throughout (P : RecordScanner n × BufferPool n → Prop) (c : RecordScanner n × BufferPool n) :
    List ScanCall → Prop
  | [] => True
  | k :: calls => P c ∧ ∀ c', call c k = some c' → Throughout P c' calls

/-- `pin_count_` of a page. A page that is not cached has no pins. -/
def pinCountOf (s : BufferPool n) (id : ℕ) : ℕ :=
  match s.dir.lookup id with
  | some f => (s.pages f).pinCount
  | none => 0

/-- `unpin` does not wrap the pin count of the page. -/
def UnpinSafe (s : BufferPool n) (id : ℕ) : Prop :=
  ∀ f, s.dir.lookup id = some f → (s.pages f).pinCount ≠ 0

/-- A call that leaves the current page does not wrap its pin count. -/
def CallSafe (c : RecordScanner n × BufferPool n) : Prop :=
  c.1.pageHasNext c.2 = some false → UnpinSafe c.2 c.1.nextRid.pageId

/-- A call that moves on finds a frame for the next page. -/
def FindsFrame (c : RecordScanner n × BufferPool n) : Prop :=
  c.1.pageHasNext c.2 = some false → ∀ id, c.2.nextPidAfter c.1.nextRid.pageId = some id →
    ((c.2.unpin c.1.nextRid.pageId false).fetch id).1 ≠ none

def AtEnd (c : RecordScanner n × BufferPool n) : Prop :=
  c.1.pageHasNext c.2 = some false ∧ c.2.nextPidAfter c.1.nextRid.pageId = none

/-- `fetch` of a page does not wrap its pin count, and takes the frame of no page that has pins. -/
def FetchClean (s : BufferPool n) (id : ℕ) : Prop :=
  match s.dir.lookup id with
  | some f => (s.pages f).pinCount ≠ 2 ^ 64 - 1
  | none => ∀ f, s.chosenFrame = some f → pinCountOf s (s.pages f).pid = 0

/-- The scanner is not at the end, and a call that moves on fetches the next page cleanly. -/
def MovesCleanly (c : RecordScanner n × BufferPool n) : Prop :=
  ¬ AtEnd c ∧ (c.1.pageHasNext c.2 = some false → ∀ id,
    c.2.nextPidAfter c.1.nextRid.pageId = some id →
      FetchClean (c.2.unpin c.1.nextRid.pageId false) id)

/-- The calls leave the scanner and the pool in a state `c'` whose pin counts, once the scanner is
destroyed, are those of `s`, and no `unpin` on the way wraps one. -/
def PinNeutral (s : BufferPool n) (c : RecordScanner n × BufferPool n) (calls : List ScanCall) :
    Prop :=
  ∃ c', callAll c calls = some c' ∧ Throughout CallSafe c calls ∧
    UnpinSafe c'.2 c'.1.nextRid.pageId ∧ ∀ id, pinCountOf (destroy c') id = pinCountOf s id

/-- A call on a pool, whether its pins match or not, or a client's access to a frame. -/
inductive PoolStep : BufferPool n → BufferPool n → Prop
  | client (s : BufferPool n) (op : ClientOp n) : PoolStep s (s.applyClientOp op)
  | deletePage {s s' : BufferPool n} {id : ℕ} (h : s.deletePage id = some s') : PoolStep s s'

variable {c c' c₁ : RecordScanner n × BufferPool n} {s s' s₀ : BufferPool n}
  {sc sc' : RecordScanner n} {calls : List ScanCall} {k : ScanCall} {id j : ℕ} {f : Fin n}

theorem load_eq {f : Fin n} (h : load sc s f = some c) :
    c.1.nextRid = sc.nextRid ∧ c.1.page = some f ∧
      ∃ b, c.2 = s.setPage f { s.pages f with buffer := b } := by
  unfold load at h
  rw [RecordPage.init_eq] at h
  split at h
  · obtain rfl := Option.some.inj h
    exact ⟨rfl, rfl, _, rfl⟩
  · cases h

theorem hasNext_cases {more : Bool} (h : c.1.hasNext c.2 = some (more, c')) :
    (c.1.pageHasNext c.2 = some true ∧ more = true ∧ c' = c) ∨
    (AtEnd c ∧ more = false ∧ c' = (c.1, destroy c)) ∨
    (c.1.pageHasNext c.2 = some false ∧ ∃ id, c.2.nextPidAfter c.1.nextRid.pageId = some id ∧
      (((destroy c).fetch id).1 = none ∨ ∃ f t, (destroy c).fetch id = (some f, t) ∧
        load { c.1 with nextRid := ⟨id, 0⟩, page := none } t f = some c')) := by
  unfold hasNext at h
  rcases hp : c.1.pageHasNext c.2 with _ | _ | _
  · simp [hp] at h
  · simp only [hp] at h
    cases hn : c.2.nextPidAfter c.1.nextRid.pageId with
    | none =>
      simp only [hn, Option.some.injEq, Prod.mk.injEq] at h
      exact .inr (.inl ⟨⟨hp, hn⟩, h.1.symm, h.2.symm⟩)
    | some id =>
      simp only [hn] at h
      refine .inr (.inr ⟨rfl, id, rfl, ?_⟩)
      rcases hf : (destroy c).fetch id with ⟨_ | f, t⟩
      · exact .inl rfl
      · refine .inr ⟨f, t, rfl, ?_⟩
        unfold destroy at hf
        simp only [hf] at h
        cases hl : load { c.1 with nextRid := ⟨id, 0⟩, page := none } t f with
        | none => simp [hl] at h
        | some x =>
          simp only [hl] at h
          obtain ⟨b, _, hb⟩ := Option.map_eq_some_iff.1 h
          exact congrArg some (Prod.mk.inj hb).2
  · simp only [hp, Option.some.injEq, Prod.mk.injEq] at h
    exact .inl ⟨rfl, h.1.symm, h.2.symm⟩

theorem pageNext_pageId {rp : RecordPage} {p : Page} {record : Record} {rid nextRid : RID}
    {x : RC × Record × RID × RID} (h : pageNext rp p record rid nextRid = some x) :
    x.2.2.2.pageId = nextRid.pageId := by
  fun_induction pageNext rp p record rid nextRid with
  | case1 =>
    cases h
    rfl
  | case2 =>
    cases h
    rfl
  | case3 _ _ _ _ _ _ _ _ _ ih => exact ih h
  | case4 => cases h

/-- `next` leaves the scanner where `hasNext` does, up to the slot, if it does not fetch again. -/
theorem next_cases {record : Record} {rid : RID} (h : call c (.next record rid) = some c') :
    ∃ more c₁, c.1.hasNext c.2 = some (more, c₁) ∧
      (more = false ∧ c' = c₁ ∨ c₁.1.page = none ∨
        more = true ∧ c'.2 = c₁.2 ∧ c'.1.nextRid.pageId = c₁.1.nextRid.pageId) := by
  obtain ⟨x, hx, rfl⟩ := Option.map_eq_some_iff.1 h
  unfold next at hx
  rcases hn : c.1.hasNext c.2 with _ | ⟨_ | _, c₁⟩
  · simp [hn] at hx
  · simp only [hn, Option.some.injEq] at hx
    refine ⟨false, c₁, rfl, .inl ⟨rfl, ?_⟩⟩
    rw [← hx]
  · refine ⟨true, c₁, rfl, .inr ?_⟩
    cases hp : c₁.1.page with
    | none => exact .inl rfl
    | some f =>
      simp only [hn, hp, nextInPage] at hx
      obtain ⟨y, hy, rfl⟩ := Option.map_eq_some_iff.1 hx
      exact .inr ⟨rfl, rfl, pageNext_pageId hy⟩

/-- A call stays on the page, is made at the end, or moves on to the next page. -/
theorem call_cases (hf : FindsFrame c) (hk : call c k = some c') :
    (c.1.pageHasNext c.2 = some true ∧ c'.2 = c.2 ∧ c'.1.nextRid.pageId = c.1.nextRid.pageId) ∨
    (AtEnd c ∧ c' = (c.1, destroy c)) ∨
    (c.1.pageHasNext c.2 = some false ∧ ∃ id f t b, c.2.nextPidAfter c.1.nextRid.pageId = some id ∧
      (destroy c).fetch id = (some f, t) ∧ c'.2 = t.setPage f { t.pages f with buffer := b } ∧
      c'.1.nextRid.pageId = id) := by
  have hnext : ∀ {more c₁}, c.1.hasNext c.2 = some (more, c₁) → c₁.1.page ≠ none ∧
      ((c.1.pageHasNext c.2 = some true ∧ c₁ = c) ∨
        (AtEnd c ∧ more = false ∧ c₁ = (c.1, destroy c)) ∨
        (c.1.pageHasNext c.2 = some false ∧ ∃ id f t b,
          c.2.nextPidAfter c.1.nextRid.pageId = some id ∧ (destroy c).fetch id = (some f, t) ∧
          c₁.2 = t.setPage f { t.pages f with buffer := b } ∧ c₁.1.nextRid.pageId = id)) := by
    intro more c₁ hn
    rcases hasNext_cases hn with ⟨hp, _, rfl⟩ | ⟨he, hm, rfl⟩ | ⟨hp, id, hid, hfetch⟩
    · refine ⟨fun hno => ?_, .inl ⟨hp, rfl⟩⟩
      rw [pageHasNext, hno] at hp
      cases hp
    · refine ⟨fun hno => ?_, .inr (.inl ⟨he, hm, rfl⟩)⟩
      have hp := he.1
      rw [pageHasNext, hno] at hp
      cases hp
    · rcases hfetch with hno | ⟨f, t, hft, hl⟩
      · exact absurd hno (hf hp id hid)
      · obtain ⟨hrid, hpage, b, hb⟩ := load_eq hl
        refine ⟨by rw [hpage]; exact Option.some_ne_none f, .inr (.inr ?_)⟩
        exact ⟨hp, id, f, t, b, hid, hft, hb, by rw [hrid]⟩
  cases k with
  | hasNext =>
    obtain ⟨⟨more, c₁⟩, hn, rfl⟩ := Option.map_eq_some_iff.1 hk
    rcases (hnext hn).2 with ⟨hp, rfl⟩ | ⟨he, _, rfl⟩ | hmove
    · exact .inl ⟨hp, rfl, rfl⟩
    · exact .inr (.inl ⟨he, rfl⟩)
    · exact .inr (.inr hmove)
  | next record rid =>
    obtain ⟨more, c₁, hn, hcases⟩ := next_cases hk
    obtain ⟨hpage, hwhere⟩ := hnext hn
    have hsame : c' = c₁ ∨ more = true ∧ c'.2 = c₁.2 ∧
        c'.1.nextRid.pageId = c₁.1.nextRid.pageId := by
      rcases hcases with ⟨_, rfl⟩ | hno | hmore
      · exact .inl rfl
      · exact absurd hno hpage
      · exact .inr hmore
    have hsame' : c'.2 = c₁.2 ∧ c'.1.nextRid.pageId = c₁.1.nextRid.pageId := by
      rcases hsame with rfl | ⟨_, hs, hid⟩
      · exact ⟨rfl, rfl⟩
      · exact ⟨hs, hid⟩
    rcases hwhere with ⟨hp, rfl⟩ | ⟨he, hm, rfl⟩ | ⟨hp, id, f, t, b, hid, hft, hb, hrid⟩
    · exact .inl ⟨hp, hsame'⟩
    · rcases hsame with rfl | ⟨hno, _⟩
      · exact .inr (.inl ⟨he, rfl⟩)
      · rw [hm] at hno
        cases hno
    · exact .inr (.inr ⟨hp, id, f, t, b, hid, hft, hsame'.1.trans hb, hsame'.2.trans hrid⟩)

theorem pinCountOf_of_lookup (hd : s.dir.lookup id = some f) :
    pinCountOf s id = (s.pages f).pinCount := by
  unfold pinCountOf
  rw [hd]

theorem pinCountOf_of_not_cached (hd : s.dir.lookup id = none) : pinCountOf s id = 0 := by
  unfold pinCountOf
  rw [hd]

theorem exists_lookup (h : pinCountOf s id ≠ 0) : ∃ f, s.dir.lookup id = some f :=
  Option.ne_none_iff_exists'.1 fun hn => h (pinCountOf_of_not_cached hn)

theorem unpinSafe_iff (hd : s.dir.lookup id = some f) : UnpinSafe s id ↔ pinCountOf s id ≠ 0 := by
  rw [pinCountOf_of_lookup hd]
  constructor
  · exact fun h => h f hd
  · rintro h g hg
    rw [hd] at hg
    obtain rfl := Option.some.inj hg
    exact h

theorem pinCountOf_congr (hdir : s'.dir = s.dir)
    (hpin : ∀ f, (s'.pages f).pinCount = (s.pages f).pinCount) (id : ℕ) :
    pinCountOf s' id = pinCountOf s id := by
  unfold pinCountOf
  rw [hdir]
  cases s.dir.lookup id with
  | none => rfl
  | some f => exact hpin f

theorem pinCountOf_setBuffer (s : BufferPool n) (f : Fin n) (b : PageBlock) (id : ℕ) :
    pinCountOf (s.setPage f { s.pages f with buffer := b }) id = pinCountOf s id := by
  have hdir : (s.setPage f { s.pages f with buffer := b }).dir = s.dir := rfl
  refine pinCountOf_congr hdir (fun g => ?_) id
  by_cases hg : g = f
  · simp [hg]
  · simp [hg]

theorem pinCountOf_unpin (hd : s.dir.lookup id = some f) (d : Bool) :
    pinCountOf (s.unpin id d) id = sizeDec (pinCountOf s id) := by
  have hd' : (s.unpin id d).dir.lookup id = some f := by rw [unpin_dir, hd]
  rw [pinCountOf_of_lookup hd', pinCountOf_of_lookup hd, unpin_eq s d hd]
  simp

theorem pinCountOf_unpin_of_ne (h : s.CachesOwn) (hj : j ≠ id) (d : Bool) :
    pinCountOf (s.unpin id d) j = pinCountOf s j := by
  cases hd : s.dir.lookup id with
  | none => rw [s.unpin_of_not_cached d hd]
  | some f =>
    cases hg : s.dir.lookup j with
    | none => rw [pinCountOf_of_not_cached hg, pinCountOf_of_not_cached (by rw [unpin_dir, hg])]
    | some g =>
      have hgf : g ≠ f := by
        rintro rfl
        exact hj ((h j g hg).symm.trans (h id g hd))
      rw [pinCountOf_of_lookup hg, pinCountOf_of_lookup (f := g) (by rw [unpin_dir, hg]),
        unpin_eq s d hd]
      simp [hgf]

theorem pinCountOf_pinFrame (h : s.CachesOwn) (hd : s.dir.lookup id = some f) (j : ℕ) :
    pinCountOf (s.pinFrame f) j =
      if j = id then sizeInc (pinCountOf s id) else pinCountOf s j := by
  have hdir : (s.pinFrame f).dir = s.dir := rfl
  split_ifs with hj
  · rw [hj, pinCountOf_of_lookup hd, pinCountOf_of_lookup (f := f) (by rw [hdir, hd])]
    simp [pinFrame]
  · cases hg : s.dir.lookup j with
    | none => rw [pinCountOf_of_not_cached hg, pinCountOf_of_not_cached (by rw [hdir, hg])]
    | some g =>
      have hgf : g ≠ f := by
        rintro rfl
        exact hj ((h j g hg).symm.trans (h id g hd))
      rw [pinCountOf_of_lookup hg, pinCountOf_of_lookup (f := g) (by rw [hdir, hg])]
      simp [pinFrame, hgf]

/-- The page that is loaded has one pin, and the page that had the frame before is not cached. -/
theorem pinCountOf_remapped (h : s.CachesOwn) (hr : s.Remapped s' f id)
    (hpin : (s'.pages f).pinCount = 1) (j : ℕ) :
    pinCountOf s' j = if j = id then 1 else if j = (s.pages f).pid then 0 else pinCountOf s j := by
  split_ifs with hj hold
  · rw [hj, pinCountOf_of_lookup hr.lookup_self, hpin]
  · exact pinCountOf_of_not_cached (hold ▸ hr.lookup_old (hold ▸ hj))
  · have hl := hr.lookup_of_ne j hj hold
    cases hg : s.dir.lookup j with
    | none => rw [pinCountOf_of_not_cached hg, pinCountOf_of_not_cached (hl.trans hg)]
    | some g =>
      have hgf : g ≠ f := by
        rintro rfl
        exact hold (h j g hg).symm
      rw [pinCountOf_of_lookup hg, pinCountOf_of_lookup (hl.trans hg), hr.pages_ne g hgf]

/-- The pins of page `j` that are left when the scanner has fetched page `id` do not come from before
the scan. -/
def Lost (s : BufferPool n) (id j : ℕ) : Prop := pinCountOf s j ≤ if j = id then 1 else 0

theorem pinCountOf_fetch (h : s.CachesOwn) (hf : s.fetch id = (some f, s')) :
    (FetchClean s id ∧ ∀ j, pinCountOf s' j = addPin (pinCountOf s) id j) ∨
    (¬ FetchClean s id ∧ ∃ j, pinCountOf s j ≠ 0 ∧ Lost s' id j) := by
  rcases s.fetch_cases id with ⟨g, hd, hg⟩ | ⟨_, _, hg⟩ | ⟨g, free, lru, hd, ht, hg⟩
  · obtain ⟨rfl, rfl⟩ := by simpa [hf] using hg
    have hcount := pinCountOf_of_lookup hd
    by_cases hmax : pinCountOf s id = 2 ^ 64 - 1
    · refine .inr ⟨?_, id, by omega, ?_⟩
      · simpa [FetchClean, hd, ← hcount] using hmax
      · rw [Lost, pinCountOf_pinFrame h hd, if_pos rfl, if_pos rfl, hmax]
        decide
    · refine .inl ⟨by simpa [FetchClean, hd, ← hcount] using hmax, fun j => ?_⟩
      rw [pinCountOf_pinFrame h hd, addPin]
      by_cases hj : j = id
      · rw [hj, if_pos rfl, Function.update_self, sizeInc, if_neg (by omega)]
      · rw [if_neg hj, Function.update_of_ne hj]
  · simp [hf] at hg
  · obtain ⟨rfl, rfl⟩ := by simpa [hf] using hg
    have hr := s.remapped_loadFrame f id free lru
    have hpins := pinCountOf_remapped h hr (by simp [loadFrame_eq])
    have hid := pinCountOf_of_not_cached hd
    have hclean : FetchClean s id ↔ pinCountOf s (s.pages f).pid = 0 := by
      simp [FetchClean, hd, ht.chosenFrame_eq]
    by_cases hz : pinCountOf s (s.pages f).pid = 0
    · refine .inl ⟨hclean.2 hz, fun j => ?_⟩
      rw [hpins, addPin]
      by_cases hj : j = id
      · rw [hj, if_pos rfl, Function.update_self, hid]
      · rw [if_neg hj, Function.update_of_ne hj]
        split_ifs with hold
        · rw [hold, hz]
        · rfl
    · refine .inr ⟨fun hno => hz (hclean.1 hno), _, hz, ?_⟩
      have hold : (s.pages f).pid ≠ id := fun he => hz (by rw [he, hid])
      rw [Lost, hpins, if_neg hold, if_pos rfl]
      exact Nat.zero_le _

theorem lost_fetch (h : s.CachesOwn) (hz : pinCountOf s j = 0) (hf : s.fetch id = (some f, s')) :
    Lost s' id j := by
  unfold Lost
  rcases s.fetch_cases id with ⟨g, hd, hg⟩ | ⟨_, _, hg⟩ | ⟨g, free, lru, _, _, hg⟩
  · obtain ⟨rfl, rfl⟩ := by simpa [hf] using hg
    rw [pinCountOf_pinFrame h hd]
    split_ifs with hj
    · rw [← hj, hz]
      decide
    · exact hz.le
  · simp [hf] at hg
  · obtain ⟨rfl, rfl⟩ := by simpa [hf] using hg
    rw [pinCountOf_remapped h (s.remapped_loadFrame f id free lru) (by simp [loadFrame_eq])]
    split_ifs
    · exact le_rfl
    · exact le_rfl
    · exact hz.le

theorem cachesOwn_unpin (h : s.CachesOwn) (id : ℕ) (d : Bool) : (s.unpin id d).CachesOwn :=
  h.congr (unpin_dir s id d) (s.unpin_pid id d)

theorem cachesOwn_setPage (h : s.CachesOwn) {p : Page} (hp : p.pid = (s.pages f).pid) :
    (s.setPage f p).CachesOwn := by
  refine h.congr rfl fun g => ?_
  by_cases hg : g = f
  · rw [hg, setPage_pages, Function.update_self, hp]
  · rw [setPage_pages, Function.update_of_ne hg]

theorem cachesOwn_writeHeadPage (h : s.CachesOwn) {b : Bool}
    (hw : s.writeHeadPage = some (b, s')) : s'.CachesOwn := by
  rcases writeHeadPage_cases hw with ⟨_, _, rfl⟩ | ⟨_, f, t, p, hf, _, hp, rfl⟩
  · exact h
  · have ht := h.fetch 0
    rw [hf] at ht
    exact cachesOwn_unpin (cachesOwn_setPage ht (write2page_pid hp).1) _ _

theorem cachesOwn_deletePage (h : s.CachesOwn) (hd : s.deletePage id = some s') :
    s'.CachesOwn := by
  rcases deletePage_cases hd with ⟨_, rfl⟩ | ⟨_, _, b, ⟨f, hf, hw⟩ | ⟨_, hw⟩⟩
  · exact h
  · refine cachesOwn_writeHeadPage (fun j g hg => ?_) hw
    have hj : j ≠ id := by
      rintro rfl
      rw [freed, AList.lookup_erase] at hg
      cases hg
    rw [freed, AList.lookup_erase_ne hj] at hg
    have hgf : g ≠ f := by
      rintro rfl
      exact hj ((h j g hg).symm.trans (h id g hf))
    simpa [freed, hgf] using h j g hg
  · exact cachesOwn_writeHeadPage (s := { s with head := s.releasedHead id })
      (h.congr rfl fun _ => rfl) hw

theorem cachesOwn_of_steps {file : File} (h₀ : openFile n file = some s₀)
    (h : Relation.ReflTransGen PoolStep s₀ s) : s.CachesOwn := by
  induction h with
  | refl => exact (closable_openFile h₀).own
  | @tail u _ _ hs ih =>
    cases hs with
    | client op =>
      cases op with
      | call op =>
        cases op with
        | fetch id => exact ih.fetch id
        | newPage =>
          rcases u.newPage_cases with ⟨_, hf⟩ | ⟨id, f, free, lru, _, _, hf⟩
          · rw [applyClientOp, applyOp, hf]
            exact ih.congr rfl fun _ => rfl
          · rw [applyClientOp, applyOp, hf]
            exact ih.remapped (u.remapped_allocFrame f id _ free lru)
        | flushPage id =>
          exact ih.congr (flushPage_dir u id) fun f => by simp [applyClientOp, applyOp]
        | unpin id d => exact cachesOwn_unpin ih id d
      | flushAllPage => exact ih.congr rfl fun _ => rfl
      | write f b d => exact cachesOwn_setPage ih rfl
    | deletePage hd => exact cachesOwn_deletePage ih hd

/-- The scanner holds one pin on its page. All other pins are those of `s`, the pool before it was
created. -/
structure Scanning (s : BufferPool n) (c : RecordScanner n × BufferPool n) : Prop where
  own : c.2.CachesOwn
  pinCountOf_eq : ∀ id, pinCountOf c.2 id = addPin (pinCountOf s) c.1.nextRid.pageId id

theorem Scanning.pinCountOf_self (h : Scanning s c) :
    pinCountOf c.2 c.1.nextRid.pageId = pinCountOf s c.1.nextRid.pageId + 1 := by
  rw [h.pinCountOf_eq, addPin, Function.update_self]

theorem Scanning.exists_lookup (h : Scanning s c) :
    ∃ f, c.2.dir.lookup c.1.nextRid.pageId = some f := by
  refine RecordScanner.exists_lookup ?_
  rw [h.pinCountOf_self]
  exact Nat.succ_ne_zero _

theorem Scanning.unpinSafe (h : Scanning s c) : UnpinSafe c.2 c.1.nextRid.pageId := by
  obtain ⟨f, hd⟩ := h.exists_lookup
  rw [unpinSafe_iff hd, h.pinCountOf_self]
  exact Nat.succ_ne_zero _

theorem Scanning.pinCountOf_destroy (h : Scanning s c) (id : ℕ) :
    pinCountOf (destroy c) id = pinCountOf s id := by
  obtain ⟨f, hd⟩ := h.exists_lookup
  unfold destroy
  by_cases hid : id = c.1.nextRid.pageId
  · rw [hid, pinCountOf_unpin hd, h.pinCountOf_self, sizeDec_succ]
  · rw [pinCountOf_unpin_of_ne h.own hid, h.pinCountOf_eq, addPin, Function.update_of_ne hid]

theorem Scanning.cachesOwn_destroy (h : Scanning s c) : (destroy c).CachesOwn :=
  cachesOwn_unpin h.own _ _

theorem Scanning.congr (h : Scanning s c) (hs : c'.2 = c.2)
    (hid : c'.1.nextRid.pageId = c.1.nextRid.pageId) : Scanning s c' where
  own := by rw [hs]; exact h.own
  pinCountOf_eq id := by rw [hs, hid]; exact h.pinCountOf_eq id

/-- The pins of page `j` from before the scan are gone. -/
structure Spoiled (j : ℕ) (c : RecordScanner n × BufferPool n) : Prop where
  own : c.2.CachesOwn
  lost : Lost c.2 c.1.nextRid.pageId j

theorem scanning_or_spoiled (h : s'.CachesOwn) (hpins : ∀ id, pinCountOf s' id = pinCountOf s id)
    {t : BufferPool n} {b : PageBlock} (hf : s'.fetch id = (some f, t))
    (hs : c.2 = t.setPage f { t.pages f with buffer := b }) (hid : c.1.nextRid.pageId = id) :
    (FetchClean s' id ∧ Scanning s c) ∨
      (¬ FetchClean s' id ∧ ∃ j, pinCountOf s j ≠ 0 ∧ Spoiled j c) := by
  have hown : c.2.CachesOwn := by
    have ht := h.fetch id
    rw [hf] at ht
    rw [hs]
    exact cachesOwn_setPage ht rfl
  have hcount : ∀ j, pinCountOf c.2 j = pinCountOf t j := fun j => by
    rw [hs, pinCountOf_setBuffer]
  rcases pinCountOf_fetch h hf with ⟨hc, hadd⟩ | ⟨hc, j, hj, hlost⟩
  · refine .inl ⟨hc, hown, fun j => ?_⟩
    rw [hcount, hadd, hid, funext hpins]
  · refine .inr ⟨hc, j, by rwa [← hpins], hown, ?_⟩
    rw [Lost, hcount, hid]
    exact hlost

/-- A call before the end keeps exactly one pin, unless it fetches the next page uncleanly. -/
theorem Scanning.call_cases (h : Scanning s c) (hf : FindsFrame c) (he : ¬ AtEnd c)
    (hk : call c k = some c') :
    (MovesCleanly c ∧ Scanning s c') ∨
      (¬ MovesCleanly c ∧ ∃ j, pinCountOf s j ≠ 0 ∧ Spoiled j c') := by
  rcases RecordScanner.call_cases hf hk with ⟨hp, hs, hid⟩ | ⟨hend, _⟩ |
    ⟨hp, id, f, t, b, hnext, hft, hs, hid⟩
  · refine .inl ⟨⟨he, fun hno => ?_⟩, h.congr hs hid⟩
    rw [hp] at hno
    cases hno
  · exact absurd hend he
  · have hclean : MovesCleanly c ↔ FetchClean (destroy c) id := by
      refine ⟨fun hm => hm.2 hp id hnext, fun hc => ⟨he, fun _ i hi => ?_⟩⟩
      obtain rfl := Option.some.inj (hnext.symm.trans hi)
      exact hc
    rw [hclean]
    exact scanning_or_spoiled h.cachesOwn_destroy h.pinCountOf_destroy hft hs hid

theorem Spoiled.pinCountOf_destroy (h : Spoiled j c) (hs : UnpinSafe c.2 c.1.nextRid.pageId) :
    pinCountOf (destroy c) j = 0 := by
  have hlost := h.lost
  unfold Lost at hlost
  unfold destroy
  by_cases hj : j = c.1.nextRid.pageId
  · rw [if_pos hj] at hlost
    cases hd : c.2.dir.lookup c.1.nextRid.pageId with
    | none => rw [c.2.unpin_of_not_cached false hd, hj, pinCountOf_of_not_cached hd]
    | some f =>
      have hne := (unpinSafe_iff hd).1 hs
      rw [hj] at hlost ⊢
      have hone : pinCountOf c.2 c.1.nextRid.pageId = 1 := by omega
      rw [pinCountOf_unpin hd, hone, sizeDec_succ]
  · rw [if_neg hj] at hlost
    rw [pinCountOf_unpin_of_ne h.own hj]
    exact Nat.le_zero.1 hlost

theorem Spoiled.call (h : Spoiled j c) (hf : FindsFrame c) (hsafe : CallSafe c)
    (hk : call c k = some c') : Spoiled j c' := by
  rcases call_cases hf hk with ⟨_, hs, hid⟩ | ⟨he, rfl⟩ | ⟨hp, id, f, t, b, _, hft, hs, hid⟩
  · refine ⟨by rw [hs]; exact h.own, ?_⟩
    rw [hs, hid]
    exact h.lost
  · refine ⟨cachesOwn_unpin h.own _ _, ?_⟩
    rw [Lost, h.pinCountOf_destroy (hsafe he.1)]
    exact Nat.zero_le _
  · have hown := cachesOwn_unpin h.own c.1.nextRid.pageId false
    have ht := hown.fetch id
    rw [← destroy, hft] at ht
    refine ⟨by rw [hs]; exact cachesOwn_setPage ht rfl, ?_⟩
    rw [Lost, hs, pinCountOf_setBuffer, hid]
    exact lost_fetch hown (h.pinCountOf_destroy (hsafe hp)) hft

theorem throughout_cons {P : RecordScanner n × BufferPool n → Prop} (hk : call c k = some c₁) :
    Throughout P c (k :: calls) ↔ P c ∧ Throughout P c₁ calls := by
  refine and_congr_right fun _ => ⟨fun h => h c₁ hk, fun h c₂ hk' => ?_⟩
  obtain rfl := Option.some.inj (hk.symm.trans hk')
  exact h

theorem pinNeutral_cons (hk : call c k = some c₁) :
    PinNeutral s c (k :: calls) ↔ CallSafe c ∧ PinNeutral s c₁ calls := by
  unfold PinNeutral
  rw [throughout_cons hk, callAll, hk, Option.bind_some]
  constructor
  · rintro ⟨c', hrun, ⟨hs, hsafe⟩, hrest⟩
    exact ⟨hs, c', hrun, hsafe, hrest⟩
  · rintro ⟨hs, c', hrun, hsafe, hrest⟩
    exact ⟨c', hrun, ⟨hs, hsafe⟩, hrest⟩

theorem Spoiled.not_pinNeutral (h : Spoiled j c) (hj : pinCountOf s j ≠ 0)
    (hframes : Throughout FindsFrame c calls) : ¬ PinNeutral s c calls := by
  induction calls generalizing c with
  | nil =>
    rintro ⟨c', hrun, _, hlast, hpins⟩
    obtain rfl := Option.some.inj hrun
    rw [← hpins, h.pinCountOf_destroy hlast] at hj
    exact hj rfl
  | cons k calls ih =>
    intro hn
    obtain ⟨c₁, hk, _⟩ := Option.bind_eq_some_iff.1 hn.choose_spec.1
    obtain ⟨hsafe, hn⟩ := (pinNeutral_cons hk).1 hn
    exact ih (h.call hframes.1 hsafe hk) (hframes.2 c₁ hk) hn

theorem contain_eq_outOfRange_iff {rp : RecordPage} {p : Page} {rid : RID} :
    rp.contain p rid = some .outOfRange ↔ rp.slotStart rid = none := by
  unfold RecordPage.contain
  cases rp.slotStart rid with
  | none => simp
  | some start =>
    dsimp only
    split_ifs <;> simp

theorem pageHasNext_eq_false_iff :
    sc.pageHasNext s = some false ↔ ∃ f, sc.page = some f ∧ sc.rp.slotStart sc.nextRid = none := by
  unfold pageHasNext
  cases sc.page with
  | none => simp
  | some f =>
    rw [Option.map_eq_some_iff]
    simp [← contain_eq_outOfRange_iff (p := s.pages f)]

theorem AtEnd.destroy (h : AtEnd c) : AtEnd (c.1, destroy c) := by
  refine ⟨pageHasNext_eq_false_iff.2 (pageHasNext_eq_false_iff.1 h.1), ?_⟩
  have hn := h.2
  unfold nextPidAfter RecordScanner.destroy at *
  rw [unpin_head]
  exact hn

theorem AtEnd.hasNext_eq (h : AtEnd c) :
    c.1.hasNext c.2 = some (false, c.1, RecordScanner.destroy c) := by
  unfold hasNext
  simp only [h.1, h.2]
  rfl

theorem AtEnd.call_eq (h : AtEnd c) (k : ScanCall) :
    call c k = some (c.1, RecordScanner.destroy c) := by
  cases k with
  | hasNext => rw [call, h.hasNext_eq, Option.map_some]
  | next record rid =>
    rw [call, next, h.hasNext_eq]
    rfl

/-- Calls that are made at the end take one pin each, and so does the destructor. -/
theorem AtEnd.pinCountOf_callAll (h : AtEnd c) {f : Fin n}
    (hd : c.2.dir.lookup c.1.nextRid.pageId = some f) (hrun : callAll c calls = some c')
    (hsafe : Throughout CallSafe c calls) (hlast : UnpinSafe c'.2 c'.1.nextRid.pageId) :
    pinCountOf (RecordScanner.destroy c') c.1.nextRid.pageId + (calls.length + 1) =
      pinCountOf c.2 c.1.nextRid.pageId := by
  induction calls generalizing c with
  | nil =>
    obtain rfl := Option.some.inj hrun
    have hne := (unpinSafe_iff hd).1 hlast
    rw [RecordScanner.destroy, pinCountOf_unpin hd, List.length_nil,
      sizeDec_of_pos (Nat.pos_of_ne_zero hne)]
    omega
  | cons k calls ih =>
    rw [callAll, h.call_eq k, Option.bind_some] at hrun
    obtain ⟨hs, hrest⟩ := hsafe
    have hd' : (RecordScanner.destroy c).dir.lookup c.1.nextRid.pageId = some f := by
      rw [RecordScanner.destroy, unpin_dir, hd]
    have hne := (unpinSafe_iff hd).1 (hs h.1)
    have hcount := ih h.destroy hd' hrun (hrest _ (h.call_eq k))
    rw [RecordScanner.destroy.eq_1 c] at hcount
    rw [pinCountOf_unpin hd, sizeDec_of_pos (Nat.pos_of_ne_zero hne)] at hcount
    rw [List.length_cons]
    dsimp only at hcount
    omega

theorem Scanning.pinNeutral_iff (h : Scanning s c) (hframes : Throughout FindsFrame c calls)
    (hrun : callAll c calls = some c') :
    PinNeutral s c calls ↔ Throughout MovesCleanly c calls := by
  induction calls generalizing c with
  | nil => exact iff_of_true ⟨c, rfl, trivial, h.unpinSafe, h.pinCountOf_destroy⟩ trivial
  | cons k calls ih =>
    obtain ⟨hf, hrest⟩ := hframes
    by_cases he : AtEnd c
    · refine iff_of_false ?_ fun hno => hno.1.1 he
      rintro ⟨c'', hrun', hsafe, hlast, hpins⟩
      obtain ⟨f, hd⟩ := h.exists_lookup
      have hcount := he.pinCountOf_callAll hd hrun' hsafe hlast
      rw [hpins, h.pinCountOf_self, List.length_cons] at hcount
      omega
    · rw [callAll] at hrun
      obtain ⟨c₁, hk, hrun⟩ := Option.bind_eq_some_iff.1 hrun
      rw [pinNeutral_cons hk, throughout_cons hk]
      rcases h.call_cases hf he hk with ⟨hm, hs⟩ | ⟨hm, j, hj, hs⟩
      · rw [ih hs (hrest c₁ hk) hrun, and_iff_right hm]
        exact and_iff_right fun _ => h.unpinSafe
      · exact iff_of_false (fun hn => hs.not_pinNeutral hj (hrest c₁ hk) hn.2) fun hn => hm hn.1

theorem init_cases (h : s.CachesOwn) (hi : init s = some (some sc, s')) :
    ∃ f t b, s.fetch 1 = (some f, t) ∧ s' = t.setPage f { t.pages f with buffer := b } ∧
      sc.nextRid.pageId = 1 := by
  unfold init at hi
  rcases hf : s.fetch 1 with ⟨_ | f, t⟩
  · simp only [hf] at hi
    split_ifs at hi
    simp at hi
  · simp only [hf] at hi
    obtain ⟨x, hx, he⟩ := Option.map_eq_some_iff.1 hi
    simp only [Prod.mk.injEq, Option.some.injEq] at he
    obtain ⟨rfl, rfl⟩ := he
    obtain ⟨hrid, _, b, hb⟩ := load_eq hx
    have ht := h.fetch 1
    rw [hf] at ht
    refine ⟨f, t, b, rfl, hb, ?_⟩
    rw [hrid]
    exact ht 1 f (fetch_lookup_self hf)

/-- A use of a scanner in any state of a pool is pin-neutral exactly when no call is made once the
scanner is done with the last page, and every page is fetched cleanly. -/
theorem scan_pin_neutral_iff {file : File} (h₀ : openFile n file = some s₀)
    (hs : Relation.ReflTransGen PoolStep s₀ s) (hi : init s = some (some sc, s'))
    (hframes : Throughout FindsFrame (sc, s') calls) (hrun : callAll (sc, s') calls = some c') :
    PinNeutral s (sc, s') calls ↔ FetchClean s 1 ∧ Throughout MovesCleanly (sc, s') calls := by
  have hown := cachesOwn_of_steps h₀ hs
  obtain ⟨f, t, b, hf, hb, hid⟩ := init_cases hown hi
  rcases scanning_or_spoiled (c := (sc, s')) hown (fun _ => rfl) hf hb hid with
    ⟨hc, hscan⟩ | ⟨hc, j, hj, hspoiled⟩
  · rw [hscan.pinNeutral_iff hframes hrun, and_iff_right hc]
  · exact iff_of_false (hspoiled.not_pinNeutral hj hframes) fun hno => hc hno.1

/-- A scan of an empty heap that is destroyed before the first call. -/
theorem scan_pin_neutral_empty : ∃ (sc : RecordScanner 1) (s' : BufferPool 1),
    init (freshPool 0) = some (some sc, s') ∧ (PinNeutral (freshPool 0) (sc, s') [] ↔
      FetchClean (freshPool 0) 1 ∧ Throughout MovesCleanly (sc, s') []) := by
  obtain ⟨sc, s', hi, _⟩ := exists_init_empty (TableHeap.heapInv_freshPool 0)
  exact ⟨sc, s', hi, scan_pin_neutral_iff (openFile_absent_succ 0) .refl hi trivial rfl⟩

/-- A scan of an empty heap wraps the pin count of page 1 when it is destroyed after the end was
reported once. -/
theorem scan_unpins_twice : ¬ ∀ (sc : RecordScanner 1) (s' : BufferPool 1),
    init (freshPool 0) = some (some sc, s') → PinNeutral (freshPool 0) (sc, s') [.hasNext] := by
  intro hall
  obtain ⟨sc, s', hi, he⟩ := exists_init_empty (TableHeap.heapInv_freshPool 0)
  have hend : AtEnd (sc, s') := he
  have hfinds : Throughout FindsFrame (sc, s') [.hasNext] := by
    refine ⟨fun _ id hid => ?_, fun _ _ => trivial⟩
    rw [hend.2] at hid
    cases hid
  have hrun : callAll (sc, s') [.hasNext] = some (sc, destroy (sc, s')) := by
    rw [callAll, hend.call_eq, Option.bind_some, callAll]
  have hown := (closable_openFile (openFile_absent_succ 0)).own
  obtain ⟨f, t, b, hf, hb, hid⟩ := init_cases hown hi
  rcases scanning_or_spoiled (c := (sc, s')) hown (fun _ => rfl) hf hb hid with
    ⟨_, hscan⟩ | ⟨_, j, hj, hspoiled⟩
  · exact ((hscan.pinNeutral_iff hfinds hrun).1 (hall sc s' hi)).1.1 hend
  · exact hspoiled.not_pinNeutral hj hfinds (hall sc s' hi)

end Tadis.RecordScanner
