import Mathlib.Order.Bounds.Defs
import Tadis.Allocation

/-!
# Running through the allocated pages

The bitmap is a finite map from indices to bits, and the two searches find the least index that holds a
bit. A client that asks for the next allocated page until there is none gets every allocated page above
the one it started from, in increasing order and once.
-/

namespace Tadis

namespace BitMap

/-- `get`, `set` and the searches agree on one map from the indices below `8 * size` to bits. -/
structure IsFiniteMap (data : Bytes) : Prop where
  get_promoted : ∀ i, getPromoted data i = get data i
  set_promoted : ∀ i bit, setPromoted data i bit = set data i bit
  get_set_self : ∀ i bit, i < data.length * 8 → get (set data i bit) i = bit
  get_set_other : ∀ i bit j, i < data.length * 8 → j ≠ i → get (set data i bit) j = get data j
  first : ∀ bit i, first data bit = some i ↔ IsLeast {j | j < data.length * 8 ∧ get data j = bit} i
  first_none : ∀ bit, BitMap.first data bit = none ↔ ¬ ∃ j, j < data.length * 8 ∧ get data j = bit
  firstAfter : ∀ bit c i, firstAfter data bit c = some i ↔
    c < data.length * 8 ∧ IsLeast {j | c < j ∧ j < data.length * 8 ∧ get data j = bit} i
  firstAfter_none : ∀ bit c, BitMap.firstAfter data bit c = none ↔
    ¬ (c < data.length * 8 ∧ ∃ j, c < j ∧ j < data.length * 8 ∧ get data j = bit)

theorem first_isLeast (data : Bytes) (bit : Bool) (i : ℕ) :
    first data bit = some i ↔ IsLeast {j | j < data.length * 8 ∧ get data j = bit} i := by
  rw [first_eq_some_iff]
  constructor
  · rintro ⟨hi, hb, hmin⟩
    exact ⟨⟨hi, hb⟩, fun j hj => not_lt.1 fun hlt => hmin j hlt hj.2⟩
  · rintro ⟨⟨hi, hb⟩, hmin⟩
    exact ⟨hi, hb, fun j hlt hj => absurd (hmin ⟨hlt.trans hi, hj⟩) (not_le.2 hlt)⟩

theorem firstAfter_isLeast (data : Bytes) (bit : Bool) (c i : ℕ) :
    firstAfter data bit c = some i ↔
      c < data.length * 8 ∧ IsLeast {j | c < j ∧ j < data.length * 8 ∧ get data j = bit} i := by
  rw [firstAfter_eq_some_iff]
  constructor
  · rintro ⟨hc, hi, hb, hmin⟩
    exact ⟨hc.trans hi, ⟨hc, hi, hb⟩, fun j hj => not_lt.1 fun hlt => hmin j hj.1 hlt hj.2.2⟩
  · rintro ⟨_, ⟨hc, hi, hb⟩, hmin⟩
    exact ⟨hc, hi, hb, fun j hj hlt hbj => absurd (hmin ⟨hj, hlt.trans hi, hbj⟩) (not_le.2 hlt)⟩

theorem isFiniteMap (data : Bytes) : IsFiniteMap data where
  get_promoted := getPromoted_eq data
  set_promoted := setPromoted_eq data
  get_set_self i bit hi := BitMap.get_set_self data bit hi
  get_set_other i bit j hi hj := by rw [get_set data j bit hi, if_neg hj.symm]
  first := first_isLeast data
  first_none bit := by simp [BitMap.first]
  firstAfter := firstAfter_isLeast data
  firstAfter_none bit c := by
    rw [firstAfter_eq_none_iff]
    constructor
    · rintro h ⟨_, j, hc, hj, hb⟩
      exact h j hc hj hb
    · exact fun h j hc hj hb => h ⟨hc.trans hj, j, hc, hj, hb⟩

end BitMap

namespace BufferPool

variable {n : ℕ}

/-- The ids that a client gets that asks for the next page until there is none. -/
def pidsAfter (s : BufferPool n) : ℕ → ℕ → List ℕ
  | 0, _ => []
  | fuel + 1, id =>
    match s.nextPidAfter id with
    | none => []
    | some next => next :: pidsAfter s fuel next

/-- Every allocated id above `id`, in increasing order. -/
structure Enumerates (s : BufferPool n) (id : ℕ) (ids : List ℕ) : Prop where
  sorted : ids.Pairwise (· < ·)
  mem_iff : ∀ i, i ∈ ids ↔ id < i ∧ s.contain i = .success

theorem enumerates_nil {s : BufferPool n} {id : ℕ} (h : s.nextPidAfter id = none) :
    s.Enumerates id [] where
  sorted := .nil
  mem_iff i := by
    simp only [List.not_mem_nil, false_iff]
    rintro ⟨hid, hi⟩
    have hget := (contain_eq_success_iff i).1 hi
    exact (BitMap.firstAfter_eq_none_iff _ _ _).1 h i hid (BitMap.lt_of_get hget) hget

theorem Enumerates.cons {s : BufferPool n} {id next : ℕ} {ids : List ℕ}
    (h : s.nextPidAfter id = some next) (hids : s.Enumerates next ids) :
    s.Enumerates id (next :: ids) := by
  obtain ⟨hlt, _, hget, hmin⟩ := (BitMap.firstAfter_eq_some_iff _ _ _ _).1 h
  constructor
  · exact List.pairwise_cons.2 ⟨fun i hi => ((hids.mem_iff i).1 hi).1, hids.sorted⟩
  · intro i
    rw [List.mem_cons, hids.mem_iff]
    constructor
    · rintro (rfl | ⟨hi, hc⟩)
      · exact ⟨hlt, (contain_eq_success_iff _).2 hget⟩
      · exact ⟨hlt.trans hi, hc⟩
    · rintro ⟨hi, hc⟩
      -- an allocated id below `next` would have been found before it
      rcases lt_trichotomy i next with hlow | rfl | hhigh
      · exact absurd ((contain_eq_success_iff i).1 hc) (hmin i hi hlow)
      · exact .inl rfl
      · exact .inr ⟨hhigh, hc⟩

theorem enumerates_pidsAfter (s : BufferPool n) {fuel id : ℕ}
    (h : s.head.bitmap.length * 8 ≤ fuel + id) : s.Enumerates id (s.pidsAfter fuel id) := by
  induction fuel generalizing id with
  | zero =>
    refine enumerates_nil ?_
    rw [nextPidAfter, BitMap.firstAfter, if_pos (by omega)]
  | succ fuel ih =>
    rw [pidsAfter]
    cases hnext : s.nextPidAfter id with
    | none => exact enumerates_nil hnext
    | some next =>
      obtain ⟨hlt, _⟩ := (BitMap.firstAfter_eq_some_iff _ _ _ _).1 hnext
      exact .cons hnext (ih (by omega))

end BufferPool

/-- The bitmap is a finite map, and asking for the next page from page 0 on runs through the allocated
pages above it. -/
theorem bitmap_is_finite_map : (∀ data, BitMap.IsFiniteMap data) ∧
    ∀ (n : ℕ) (s : BufferPool n) (k : ℕ),
      s.Enumerates 0 (s.pidsAfter (s.head.bitmap.length * 8 + k) 0) :=
  ⟨BitMap.isFiniteMap, fun _ s _ => s.enumerates_pidsAfter (Nat.le_add_right _ _)⟩

end Tadis
