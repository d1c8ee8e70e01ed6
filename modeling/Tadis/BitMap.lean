import Tadis.Basic

/-!
# Bitmap over a byte vector

`BitMap` views the header's `std::vector<char>` as bits, least significant bit of byte 0 first.
`get` and `set` assert `idx / 8 < data.size()`; `set` is used only where its callers establish
that, and `get` of a missing byte is a clear bit.
-/

namespace Tadis.BitMap

def mask (offset : ℕ) : UInt8 := 1 <<< UInt8.ofNat offset

def get (data : Bytes) (idx : ℕ) : Bool := data.getD (idx / 8) 0 &&& mask (idx % 8) != 0

def set (data : Bytes) (idx : ℕ) (bit : Bool) : Bytes :=
  data.modify (idx / 8) (fun ch => if bit then ch ||| mask (idx % 8) else ch &&& ~~~ mask (idx % 8))

def first (data : Bytes) (bit : Bool) : Option ℕ :=
  (List.range (data.length * 8)).find? (fun i => get data i == bit)

def firstAfter (data : Bytes) (bit : Bool) (curIdx : ℕ) : Option ℕ :=
  if data.length * 8 ≤ curIdx then none
  else (List.range' (curIdx + 1) (data.length * 8 - (curIdx + 1))).find? (fun i => get data i == bit)

theorem toBitVec_mask {k : ℕ} (hk : k < 8) : (mask k).toBitVec = BitVec.twoPow 8 k := by
  interval_cases k <;> decide

theorem and_mask_eq_zero_iff (b : UInt8) {k : ℕ} (hk : k < 8) :
    b &&& mask k = 0 ↔ b.toBitVec.getLsbD k = false := by
  have hne : BitVec.twoPow 8 k ≠ 0#8 := by
    interval_cases k <;> decide
  rw [← UInt8.toBitVec_inj, UInt8.toBitVec_and, toBitVec_mask hk, BitVec.and_twoPow]
  cases b.toBitVec.getLsbD k <;> simp [hne]

theorem and_mask_ne_zero (b : UInt8) {k : ℕ} (hk : k < 8) :
    (b &&& mask k != 0) = b.toBitVec.getLsbD k := by
  cases h : b.toBitVec.getLsbD k
  · simp [(and_mask_eq_zero_iff b hk).2 h]
  · have hz : b &&& mask k ≠ 0 := fun hz => by simp [(and_mask_eq_zero_iff b hk).1 hz] at h
    simp [hz]

theorem get_eq_getLsbD (data : Bytes) (i : ℕ) :
    get data i = (data.getD (i / 8) 0).toBitVec.getLsbD (i % 8) :=
  and_mask_ne_zero _ (Nat.mod_lt _ (by omega))

theorem getLsbD_or_mask (b : UInt8) {k : ℕ} (j : ℕ) (hk : k < 8) :
    (b ||| mask k).toBitVec.getLsbD j = (b.toBitVec.getLsbD j || decide (k = j)) := by
  rw [UInt8.toBitVec_or, toBitVec_mask hk, BitVec.getLsbD_or, BitVec.getLsbD_twoPow]
  simp [hk]

theorem getLsbD_and_not_mask (b : UInt8) {k j : ℕ} (hk : k < 8) (hj : j < 8) :
    (b &&& ~~~ mask k).toBitVec.getLsbD j = (b.toBitVec.getLsbD j && !decide (k = j)) := by
  rw [UInt8.toBitVec_and, UInt8.toBitVec_not, toBitVec_mask hk, BitVec.getLsbD_and,
    BitVec.getLsbD_not, BitVec.getLsbD_twoPow]
  simp [hk, hj]

@[simp] theorem length_set (data : Bytes) (i : ℕ) (bit : Bool) :
    (set data i bit).length = data.length := List.length_modify _ _ _

theorem getD_set (data : Bytes) {i : ℕ} (k : ℕ) (bit : Bool) (hi : i < data.length * 8) :
    (set data i bit).getD k 0 = if i / 8 = k then
      (if bit then data.getD k 0 ||| mask (i % 8) else data.getD k 0 &&& ~~~ mask (i % 8))
      else data.getD k 0 := by
  have hd : i / 8 < data.length := by omega
  simp only [set, List.getD_eq_getElem?_getD, List.getElem?_modify]
  by_cases hk : i / 8 = k
  · subst hk
    simp [hd]
  · simp [hk]

theorem get_set (data : Bytes) {i : ℕ} (j : ℕ) (bit : Bool) (hi : i < data.length * 8) :
    get (set data i bit) j = if i = j then bit else get data j := by
  rw [get_eq_getLsbD, get_eq_getLsbD, getD_set data _ bit hi]
  have hi8 : i % 8 < 8 := Nat.mod_lt _ (by omega)
  have hj8 : j % 8 < 8 := Nat.mod_lt _ (by omega)
  by_cases hd : i / 8 = j / 8
  · have hij : i = j ↔ i % 8 = j % 8 := by omega
    rw [if_pos hd]
    cases bit
    · rw [if_neg (by simp), getLsbD_and_not_mask _ hi8 hj8]
      by_cases h : i % 8 = j % 8 <;> simp [h, hij]
    · rw [if_pos rfl, getLsbD_or_mask _ _ hi8]
      by_cases h : i % 8 = j % 8 <;> simp [h, hij]
  · have hij : i ≠ j := fun h => hd (by rw [h])
    rw [if_neg hd, if_neg hij]

theorem get_set_self (data : Bytes) {i : ℕ} (bit : Bool) (hi : i < data.length * 8) :
    get (set data i bit) i = bit := by
  rw [get_set data i bit hi, if_pos rfl]

theorem get_of_length_le {data : Bytes} {i : ℕ} (h : data.length * 8 ≤ i) : get data i = false := by
  have hd : data.length ≤ i / 8 := by omega
  rw [get_eq_getLsbD, List.getD_eq_default _ _ hd]
  simp

theorem lt_of_get {data : Bytes} {i : ℕ} (h : get data i = true) : i < data.length * 8 := by
  by_contra hn
  rw [get_of_length_le (by omega)] at h
  cases h

/-- Appending zero bytes adds only clear bits. -/
theorem get_append_zeros (data : Bytes) (k i : ℕ) :
    get (data ++ List.replicate k 0) i = get data i := by
  rw [get_eq_getLsbD, get_eq_getLsbD]
  congr 2
  simp only [List.getD_eq_getElem?_getD]
  by_cases h : i / 8 < data.length
  · rw [List.getElem?_append_left h]
  · rw [List.getElem?_append_right (by omega), List.getElem?_eq_none (l := data) (by omega)]
    by_cases hk : i / 8 - data.length < k <;> simp [hk]

theorem first_eq_some_iff (data : Bytes) (bit : Bool) (i : ℕ) :
    first data bit = some i ↔
      i < data.length * 8 ∧ get data i = bit ∧ ∀ j < i, get data j ≠ bit := by
  simp only [first, List.find?_range_eq_some, beq_iff_eq, List.mem_range, Bool.not_eq_true',
    beq_eq_false_iff_ne]
  tauto

theorem firstAfter_eq_some_iff (data : Bytes) (bit : Bool) (c i : ℕ) :
    firstAfter data bit c = some i ↔
      c < i ∧ i < data.length * 8 ∧ get data i = bit ∧ ∀ j, c < j → j < i → get data j ≠ bit := by
  unfold firstAfter
  split
  · simp only [reduceCtorEq, false_iff]
    omega
  · simp only [List.find?_range'_eq_some, beq_iff_eq, List.mem_range'_1, Bool.not_eq_true',
      beq_eq_false_iff_ne]
    constructor
    · rintro ⟨hb, hr, hj⟩
      exact ⟨by omega, by omega, hb, fun j h1 h2 => hj j (by omega) h2⟩
    · rintro ⟨h1, h2, hb, hj⟩
      exact ⟨hb, by omega, fun j h3 h4 => hj j (by omega) h4⟩

theorem firstAfter_eq_none_iff (data : Bytes) (bit : Bool) (c : ℕ) :
    firstAfter data bit c = none ↔ ∀ i, c < i → i < data.length * 8 → get data i ≠ bit := by
  unfold firstAfter
  split
  · simp only [true_iff]
    omega
  · simp only [List.find?_eq_none, List.mem_range'_1, beq_iff_eq]
    constructor
    · exact fun h i h1 h2 => h i (by omega)
    · exact fun h i hi => h i (by omega) (by omega)

/-- In the source a byte is a `char`, which is promoted to an `int` with its sign before `&` and `|`, and
the result of `|=` and `&=` is cut down to a `char` again. The sign reaches only bits that are cut off
or masked out. -/
def promote (ch : UInt8) : BitVec 32 := ch.toBitVec.signExtend 32

/-- `get` on promoted operands. -/
def getPromoted (data : Bytes) (idx : ℕ) : Bool :=
  promote (data.getD (idx / 8) 0) &&& 1#32 <<< (idx % 8) != 0

/-- `set` on promoted operands. -/
def setPromoted (data : Bytes) (idx : ℕ) (bit : Bool) : Bytes :=
  data.modify (idx / 8) (fun ch => .ofBitVec (BitVec.truncate 8
    (if bit then promote ch ||| 1#32 <<< (idx % 8) else promote ch &&& ~~~ (1#32 <<< (idx % 8)))))

theorem getLsbD_promote (ch : UInt8) {k : ℕ} (hk : k < 8) :
    (promote ch).getLsbD k = ch.toBitVec.getLsbD k := by
  rw [promote, BitVec.getLsbD_signExtend, if_pos hk, decide_eq_true (by omega), Bool.true_and]

theorem getPromoted_eq (data : Bytes) (idx : ℕ) : getPromoted data idx = get data idx := by
  have hk : idx % 8 < 8 := Nat.mod_lt _ (by omega)
  have hne : BitVec.twoPow 32 (idx % 8) ≠ 0#32 := by
    interval_cases idx % 8 <;> decide
  rw [getPromoted, get_eq_getLsbD, ← BitVec.twoPow_eq, BitVec.and_twoPow, getLsbD_promote _ hk]
  cases (data.getD (idx / 8) 0).toBitVec.getLsbD (idx % 8) <;> simp [hne]

theorem or_mask_eq_promote (ch : UInt8) {k : ℕ} (hk : k < 8) :
    (promote ch ||| BitVec.twoPow 32 k).truncate 8 = (ch ||| mask k).toBitVec := by
  refine BitVec.eq_of_getLsbD_eq fun j hj => ?_
  rw [getLsbD_or_mask ch j hk, BitVec.getLsbD_setWidth, BitVec.getLsbD_or, getLsbD_promote ch hj,
    BitVec.getLsbD_twoPow]
  have hk32 : k < 32 := by omega
  simp [hj, hk32]

theorem and_not_mask_eq_promote (ch : UInt8) {k : ℕ} (hk : k < 8) :
    (promote ch &&& ~~~ BitVec.twoPow 32 k).truncate 8 = (ch &&& ~~~ mask k).toBitVec := by
  refine BitVec.eq_of_getLsbD_eq fun j hj => ?_
  rw [getLsbD_and_not_mask ch hk hj, BitVec.getLsbD_setWidth, BitVec.getLsbD_and,
    BitVec.getLsbD_not, getLsbD_promote ch hj, BitVec.getLsbD_twoPow]
  have hk32 : k < 32 := by omega
  have hj32 : j < 32 := by omega
  simp [hj, hk32, hj32]

theorem setPromoted_eq (data : Bytes) (idx : ℕ) (bit : Bool) :
    setPromoted data idx bit = set data idx bit := by
  have hk : idx % 8 < 8 := Nat.mod_lt _ (by omega)
  rw [setPromoted, set]
  congr 1
  funext ch
  rw [← BitVec.twoPow_eq]
  cases bit
  · rw [if_neg (by simp), if_neg (by simp), and_not_mask_eq_promote ch hk]
  · rw [if_pos rfl, if_pos rfl, or_mask_eq_promote ch hk]

end Tadis.BitMap
