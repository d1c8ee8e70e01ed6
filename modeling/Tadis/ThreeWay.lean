import Mathlib.Tactic

/-!
# Comparison by subtraction

A three-way comparison answers with an integer whose sign is the order of its arguments. The
difference of the arguments is such an answer. What becomes of its sign is determined here when the
difference is wrapped to a signed word, and when it is truncated to an integer.
-/

namespace ThreeWay

structure SignOf {α : Type*} [LT α] (c : ℤ) (x y : α) : Prop where
  neg : c < 0 ↔ x < y
  zero : c = 0 ↔ x = y
  pos : 0 < c ↔ y < x

section

variable {α : Type*} [LinearOrder α] {c d e : ℤ} {x y z : α}

theorem SignOf.nonpos (h : SignOf c x y) : c ≤ 0 ↔ x ≤ y := by
  rw [← not_lt, h.pos, not_lt]

theorem SignOf.swap (h : SignOf c x y) (h' : SignOf d y x) : (c < 0 ↔ 0 < d) ∧ (c = 0 ↔ d = 0) :=
  ⟨h.neg.trans h'.pos.symm, h.zero.trans (eq_comm.trans h'.zero.symm)⟩

theorem SignOf.trans (h : SignOf c x y) (h' : SignOf d y z) (h'' : SignOf e x z) :
    (c ≤ 0 → d ≤ 0 → e ≤ 0) ∧ (c < 0 → d ≤ 0 → e < 0) ∧ (c ≤ 0 → d < 0 → e < 0) := by
  rw [h.nonpos, h'.nonpos, h''.nonpos, h.neg, h'.neg, h''.neg]
  exact ⟨le_trans, lt_of_lt_of_le, lt_of_le_of_lt⟩

theorem signOf_of_neg_pos (hneg : c < 0 ↔ x < y) (hpos : 0 < c ↔ y < x) : SignOf c x y := by
  refine ⟨hneg, ?_, hpos⟩
  rw [eq_iff_le_not_lt, ← not_lt, hneg, hpos, not_lt, not_lt, le_antisymm_iff]

end

/-- A difference keeps its sign when it is wrapped to a word of `2 * h` values. -/
def KeepsSign (h : ℕ) (d : ℤ) : Prop :=
  d = 0 ∨ (0 < d ∧ 0 < d % (2 * h : ℕ) ∧ d % (2 * h : ℕ) < h) ∨ d < 0 ∧ h ≤ d % (2 * h : ℕ)

theorem signOf_bmod_iff {h : ℕ} (hh : 0 < h) {x y : ℤ} :
    SignOf ((x - y).bmod (2 * h)) x y ↔ KeepsSign h (x - y) := by
  have hlt : (x - y) % (2 * h : ℕ) < (2 * h : ℕ) := Int.emod_lt_of_pos _ (by omega)
  have hnonneg : 0 ≤ (x - y) % (2 * h : ℕ) := Int.emod_nonneg _ (by omega)
  have hzero : x = y → (x - y) % (2 * h : ℕ) = 0 := by
    intro hxy
    rw [hxy, sub_self, Int.zero_emod]
  have hhalf : (((2 * h : ℕ) : ℤ) + 1) / 2 = h := by omega
  rw [KeepsSign, Int.bmod_def, hhalf]
  generalize (x - y) % (2 * h : ℕ) = r at *
  constructor
  · rintro ⟨hneg, _, hpos⟩
    split_ifs at hneg hpos <;> omega
  · intro hkeep
    apply signOf_of_neg_pos <;> split_ifs <;> omega

section

variable {K : Type*} [Field K] [LinearOrder K] [IsStrictOrderedRing K] [FloorRing K] {q x y : K}

def truncate (q : K) : ℤ := if 0 ≤ q then ⌊q⌋ else ⌈q⌉

theorem truncate_pos_iff : 0 < truncate q ↔ 1 ≤ q := by
  rw [truncate]
  split_ifs with hq
  · rw [Int.lt_floor_iff, Int.cast_zero, zero_add]
  · apply iff_of_false
    · exact not_lt.2 (Int.ceil_le.2 (by simpa using (not_le.1 hq).le))
    · exact fun hone => hq (by linarith)

theorem truncate_neg_iff : truncate q < 0 ↔ q ≤ -1 := by
  rw [truncate]
  split_ifs with hq
  · apply iff_of_false
    · exact not_lt.2 (Int.floor_nonneg.2 hq)
    · intro hneg
      exact absurd (hq.trans hneg) (by norm_num)
  · rw [Int.ceil_lt_iff, Int.cast_zero, zero_sub]

theorem signOf_truncate_iff : SignOf (truncate (x - y)) x y ↔ x = y ∨ 1 ≤ |x - y| := by
  rw [le_abs']
  constructor
  · intro h
    rcases lt_trichotomy x y with hlt | heq | hgt
    · exact .inr (.inl (truncate_neg_iff.1 (h.neg.2 hlt)))
    · exact .inl heq
    · exact .inr (.inr (truncate_pos_iff.1 (h.pos.2 hgt)))
  · intro h
    apply signOf_of_neg_pos
    · rw [truncate_neg_iff]
      constructor
      · intro hneg
        linarith
      · intro hlt
        rcases h with rfl | hneg | hpos
        · exact absurd hlt (lt_irrefl x)
        · exact hneg
        · linarith
    · rw [truncate_pos_iff]
      constructor
      · intro hpos
        linarith
      · intro hgt
        rcases h with rfl | hneg | hpos
        · exact absurd hgt (lt_irrefl x)
        · linarith
        · exact hpos

/-- The numbers that truncate into an interval around zero. -/
theorem truncate_mem_iff {a b : ℤ} (ha : a ≤ 0) (hb : 0 ≤ b) :
    a ≤ truncate q ∧ truncate q ≤ b ↔ (a : K) - 1 < q ∧ q < b + 1 := by
  have ha' : (a : K) ≤ 0 := by exact_mod_cast ha
  have hb' : (0 : K) ≤ b := by exact_mod_cast hb
  rw [truncate]
  split_ifs with hq
  · rw [Int.floor_le_iff]
    apply and_congr_left
    intro _
    exact iff_of_true (ha.trans (Int.floor_nonneg.2 hq)) (by linarith)
  · rw [Int.le_ceil_iff]
    apply and_congr_right
    intro _
    exact iff_of_true ((Int.ceil_le.2 (by simpa using (not_le.1 hq).le)).trans hb) (by linarith)

end

end ThreeWay
