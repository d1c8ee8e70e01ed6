import Tadis.Restart
import Mathlib.Data.Finset.Card

/-!
# The counters of the header

`page_num_` counts the allocated pages and `phy_num_` the pages of the file, deleted ones included.
`new_page` adds one to both, also when the page is an old one, and `delete_page` takes one off
`page_num_` without looking at the bit it clears. The largest id that was ever issued is not part of
the pool and runs along with it.
-/

namespace Tadis

namespace BitMap

def bits (data : Bytes) : Finset ℕ :=
  (Finset.range (data.length * 8)).filter (fun i => get data i = true)

def setBits (data : Bytes) : ℕ := (bits data).card

theorem mem_bits (data : Bytes) (i : ℕ) : i ∈ bits data ↔ get data i = true := by
  rw [bits, Finset.mem_filter, Finset.mem_range]
  exact ⟨And.right, fun h => ⟨lt_of_get h, h⟩⟩

theorem bits_set_true (data : Bytes) {i : ℕ} (hi : i < data.length * 8) :
    bits (set data i true) = insert i (bits data) := by
  ext j
  rw [mem_bits, get_set data j true hi, Finset.mem_insert, mem_bits]
  by_cases hij : i = j
  · simp [hij]
  · simp [hij, Ne.symm hij]

theorem bits_set_false (data : Bytes) {i : ℕ} (hi : i < data.length * 8) :
    bits (set data i false) = (bits data).erase i := by
  ext j
  rw [mem_bits, get_set data j false hi, Finset.mem_erase, mem_bits]
  by_cases hij : i = j
  · simp [hij]
  · simp [hij, Ne.symm hij]

theorem setBits_set_true (data : Bytes) {i : ℕ} (hi : i < data.length * 8)
    (hg : get data i = false) : setBits (set data i true) = setBits data + 1 := by
  rw [setBits, bits_set_true data hi, Finset.card_insert_of_notMem, setBits]
  rw [mem_bits, hg]
  exact Bool.false_ne_true

theorem setBits_set_false (data : Bytes) {i : ℕ} (hi : i < data.length * 8) :
    setBits (set data i false) = if get data i = true then setBits data - 1 else setBits data := by
  rw [setBits, bits_set_false data hi, Finset.card_erase_eq_ite]
  simp only [mem_bits]
  rfl

end BitMap

namespace BufferPool

variable {n : ℕ} {s s' : BufferPool n} {k : ℕ}

theorem bits_growBitmap (bitmap : Bytes) (idx : ℕ) :
    BitMap.bits (growBitmap bitmap idx) = BitMap.bits bitmap := by
  ext i
  rw [BitMap.mem_bits, BitMap.mem_bits, get_growBitmap]

theorem setBits_growBitmap (bitmap : Bytes) (idx : ℕ) :
    BitMap.setBits (growBitmap bitmap idx) = BitMap.setBits bitmap := by
  rw [BitMap.setBits, bits_growBitmap, BitMap.setBits]

/-- A call that runs through, on the pool and the largest id that was issued so far. -/
inductive CounterStep : BufferPool n × ℕ → PinOp → BufferPool n × ℕ → Prop
  | newPage {s s' : BufferPool n} {k id : ℕ} {f : Fin n} (h : s.newPage = (some (id, f), s')) :
      CounterStep (s, k) .newPage (s', max k id)
  | deletePage {s s' : BufferPool n} {k id : ℕ} (h : s.deletePage id = some s') :
      CounterStep (s, k) (.deletePage id) (s', k)
  | fetch (s : BufferPool n) (k id : ℕ) : CounterStep (s, k) (.fetch id) ((s.fetch id).2, k)
  | unpin (s : BufferPool n) (k id : ℕ) (isDirty : Bool) :
      CounterStep (s, k) (.unpin id isDirty) (s.unpin id isDirty, k)

/-- The counters mean what their comments say, where `k` is the largest id that was issued. -/
structure Meaningful (s : BufferPool n) (k : ℕ) : Prop where
  pageNum_eq : s.head.pageNum = BitMap.setBits s.head.bitmap
  phyNum_eq : s.head.phyNum = k + 1
  pageNum_ne : s.head.pageNum ≠ 0

/-- The step neither allocates an old page nor deletes one that is not allocated or the only one. -/
def CountsRight (s : BufferPool n) : PinOp → Prop
  | .newPage => s.reusableId = none
  | .deletePage id => id < s.head.phyNum →
      BitMap.get s.head.bitmap id = true ∧ s.head.pageNum ≠ 1
  | _ => True

structure Counted (s : BufferPool n) (k : ℕ) : Prop where
  meaningful : s.Meaningful k
  nextPid_eq : s.disk.nextPid = k + 1
  le_of_get : ∀ id, BitMap.get s.head.bitmap id = true → id ≤ k

theorem Counted.congr (h : s.Counted k) (hhead : s'.head = s.head)
    (hnext : s'.disk.nextPid = s.disk.nextPid) : s'.Counted k where
  meaningful := ⟨by rw [hhead, h.meaningful.pageNum_eq], by rw [hhead, h.meaningful.phyNum_eq],
    by rw [hhead]; exact h.meaningful.pageNum_ne⟩
  nextPid_eq := hnext.trans h.nextPid_eq
  le_of_get := by simpa only [hhead] using h.le_of_get

theorem Counted.newPage (h : s.Counted k) {id : ℕ} {f : Fin n} (hr : s.reusableId = none)
    (hf : s.newPage = (some (id, f), s')) : s'.Counted (max k id) := by
  rcases s.newPage_cases with ⟨_, hg⟩ | ⟨j, g, free, lru, hc, _, hg⟩
  · simp [hf] at hg
  · obtain ⟨⟨rfl, rfl⟩, rfl⟩ := by simpa [hf] using hg
    obtain rfl : id = k + 1 := by
      rcases chosenId_cases hc with ⟨hr', _⟩ | ⟨_, hid, _, _⟩
      · rw [hr] at hr'
        cases hr'
      · exact hid.trans h.nextPid_eq
    have hclear : BitMap.get s.head.bitmap (k + 1) = false := by
      cases hg : BitMap.get s.head.bitmap (k + 1) with
      | false => rfl
      | true => exact absurd (h.le_of_get _ hg) (by omega)
    have hbits : BitMap.setBits (BitMap.set (growBitmap s.head.bitmap (k + 1)) (k + 1) true) =
        BitMap.setBits s.head.bitmap + 1 := by
      rw [BitMap.setBits_set_true _ (lt_length_growBitmap _ _), setBits_growBitmap]
      rw [get_growBitmap, hclear]
    rw [max_eq_right (Nat.le_succ k)]
    refine ⟨⟨?_, ?_, ?_⟩, ?_, fun i => ?_⟩
    · simp only [allocFrame_eq, hbits, h.meaningful.pageNum_eq]
    · simp only [allocFrame_eq, h.meaningful.phyNum_eq]
    · simp only [allocFrame_eq]
      exact Nat.succ_ne_zero _
    · simp [allocFrame_eq, chosenDisk, hr, h.nextPid_eq]
    · simp only [allocFrame_eq]
      rw [BitMap.get_set _ _ _ (lt_length_growBitmap _ _), get_growBitmap]
      by_cases hi : k + 1 = i
      · exact fun _ => hi.ge
      · rw [if_neg hi]
        exact fun hg => (h.le_of_get i hg).trans (Nat.le_succ k)

theorem Counted.newPage_iff (h : s.Counted k) {id : ℕ} {f : Fin n}
    (hf : s.newPage = (some (id, f), s')) : s'.Meaningful (max k id) ↔ s.reusableId = none := by
  refine ⟨fun hm => ?_, fun hr => (h.newPage hr hf).meaningful⟩
  rcases s.newPage_cases with ⟨_, hg⟩ | ⟨j, g, free, lru, hc, _, hg⟩
  · simp [hf] at hg
  · obtain ⟨⟨rfl, rfl⟩, rfl⟩ := by simpa [hf] using hg
    rcases chosenId_cases hc with ⟨hr, _⟩ | ⟨hr, _⟩
    · have hlt : id < k := by
        have hcur := (reusableId_eq_some hr).2.2
        rwa [DiskManager.currentPid, h.nextPid_eq, sizeDec_succ] at hcur
      have hphy := hm.phyNum_eq
      simp only [allocFrame_eq, h.meaningful.phyNum_eq] at hphy
      omega
    · exact hr

theorem Counted.deletePage_iff (h : s.Counted k) {id : ℕ} (hd : s.deletePage id = some s') :
    (s'.Meaningful k ↔ s.CountsRight (.deletePage id)) ∧
      (s.CountsRight (.deletePage id) → s'.Counted k) := by
  by_cases hlt : id < s.head.phyNum
  · obtain ⟨hhead, hnext, _⟩ := deletePage_keeps hlt hd
    have hbit : id < s.head.bitmap.length * 8 := by
      rcases deletePage_cases hd with ⟨hle, _⟩ | ⟨_, hbit, _⟩
      · omega
      · exact hbit
    have hpos := Nat.pos_of_ne_zero h.meaningful.pageNum_ne
    have hpage : s'.head.pageNum = s.head.pageNum - 1 := by
      rw [hhead, releasedHead, sizeDec_of_pos hpos]
    have hphy : s'.head.phyNum = k + 1 := by
      rw [hhead, releasedHead, h.meaningful.phyNum_eq]
    have hbits : BitMap.setBits s'.head.bitmap =
        if BitMap.get s.head.bitmap id = true then s.head.pageNum - 1 else s.head.pageNum := by
      rw [hhead, releasedHead, BitMap.setBits_set_false _ hbit, h.meaningful.pageNum_eq]
    have hiff : s'.Meaningful k ↔ s.CountsRight (.deletePage id) := by
      constructor
      · rintro ⟨heq, _, hne⟩ _
        rw [hpage, hbits] at heq
        rw [hpage] at hne
        split_ifs at heq with hg
        · exact ⟨hg, by omega⟩
        · omega
      · intro hc
        obtain ⟨hg, hne⟩ := hc hlt
        exact ⟨by rw [hpage, hbits, if_pos hg], hphy, by omega⟩
    refine ⟨hiff, fun hc => ⟨hiff.2 hc, hnext.trans h.nextPid_eq, fun i hi => ?_⟩⟩
    rw [hhead, releasedHead, BitMap.get_set _ _ _ hbit] at hi
    split_ifs at hi
    exact h.le_of_get i hi
  · obtain rfl : s' = s := by
      rcases deletePage_cases hd with ⟨_, hs⟩ | ⟨hid, _⟩
      · exact hs
      · exact absurd hid hlt
    exact ⟨iff_of_true h.meaningful fun hid => absurd hid hlt, fun _ => h⟩

theorem Counted.counterStep (h : s.Counted k) {op : PinOp} {t : BufferPool n × ℕ}
    (hs : CounterStep (s, k) op t) :
    (t.1.Meaningful t.2 ↔ s.CountsRight op) ∧ (s.CountsRight op → t.1.Counted t.2) := by
  cases hs with
  | newPage hf => exact ⟨h.newPage_iff hf, fun hr => h.newPage hr hf⟩
  | deletePage hd => exact h.deletePage_iff hd
  | fetch _ _ id =>
    have hc := h.congr (fetch_head s id) (fetch_nextPid id)
    exact ⟨iff_of_true hc.meaningful trivial, fun _ => hc⟩
  | unpin _ _ id d =>
    have hc := h.congr (unpin_head s id d) (unpin_nextPid id d)
    exact ⟨iff_of_true hc.meaningful trivial, fun _ => hc⟩

theorem head_freshPool (m : ℕ) : (freshPool m).head = BFPHeaderPage.fresh := rfl

theorem counted_freshPool (m : ℕ) : (freshPool m).Counted 0 where
  meaningful := by
    have hbits : BitMap.setBits BFPHeaderPage.fresh.bitmap = 1 := by decide
    refine ⟨?_, ?_, ?_⟩ <;> rw [head_freshPool]
    · exact hbits.symm
    · rfl
    · exact Nat.one_ne_zero
  nextPid_eq := rfl
  le_of_get id hid := by
    rw [head_freshPool] at hid
    have hset : BitMap.get (BitMap.set [0] 0 true) id = true := hid
    rw [BitMap.get_set _ _ _ (by decide)] at hset
    by_cases h0 : 0 = id
    · exact h0.ge
    · rw [if_neg h0, ← List.replicate_one, ← List.nil_append (List.replicate 1 0),
        BitMap.get_append_zeros, BitMap.get_of_length_le (Nat.zero_le _)] at hset
      cases hset

/-- In a run over a new file the counters mean what their comments say in every state exactly when
the pool has a frame, no page is allocated a second time, and every deleted page was allocated and
not the only one. -/
theorem counters_meaningful_iff (n : ℕ) :
    ∃ s₀ : BufferPool n, openFile n File.absent = some s₀ ∧
      ∀ ops t, Transition.Run CounterStep (s₀, 0) ops t →
        ((∀ u, Transition.Visited CounterStep (s₀, 0) ops t u → u.1.Meaningful u.2) ↔
          0 < n ∧ ∀ u op, Transition.Taken CounterStep (s₀, 0) ops t u op → u.1.CountsRight op) := by
  cases n with
  | zero =>
    refine ⟨_, openFile_zero _, fun ops t hr => iff_of_false (fun h => ?_) (by simp)⟩
    have hm := h _ ⟨[], ops, rfl, .nil _, hr⟩
    exact absurd hm.pageNum_eq Nat.one_ne_zero
  | succ m =>
    refine ⟨_, openFile_absent_succ m, fun ops t _ => ?_⟩
    rw [and_iff_right (Nat.succ_pos m)]
    refine Transition.forall_visited_iff (I := fun u : BufferPool (m + 1) × ℕ => u.1.Counted u.2)
      (fun u hu => hu.meaningful) ?_ (counted_freshPool m)
    rintro ⟨s, k⟩ op t hs hst
    exact hs.counterStep hst

/-- Deleting page 1 twice in a pool of two frames: `page_num_` is then 0 although page 0 is still
allocated. -/
theorem counters_after_double_delete :
    ¬ ∀ s₀ : BufferPool 2, openFile 2 File.absent = some s₀ → ∀ ops s k,
      Transition.Run CounterStep (s₀, 0) ops (s, k) → s.Meaningful k := by
  intro h
  let s₁ : BufferPool 2 := (freshPool 1).newPage.2.unpin 1 true
  let s₂ : BufferPool 2 := (s₁.deletePage 1).get (by decide)
  let s₃ : BufferPool 2 := (s₂.deletePage 1).get (by decide)
  have hnew : (freshPool 1).newPage = (some (1, 0), (freshPool 1).newPage.2) :=
    Prod.ext (by decide) rfl
  have hrun : Transition.Run CounterStep (freshPool 1, 0)
      [.newPage, .unpin 1 true, .deletePage 1, .deletePage 1] (s₃, 1) :=
    .cons (.newPage hnew) <| .cons (.unpin _ _ _ _) <|
      .cons (.deletePage (Option.some_get _).symm) <|
        .cons (.deletePage (Option.some_get _).symm) <| .nil _
  have hzero : s₃.head.pageNum = 0 := by decide
  have hm := h _ (openFile_absent_succ 1) _ s₃ 1 hrun
  exact hm.pageNum_ne hzero

end BufferPool

end Tadis
