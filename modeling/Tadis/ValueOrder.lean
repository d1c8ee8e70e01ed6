import Tadis.ThreeWay
import Tadis.Executer

/-!
# The order of values

`Value::compare` answers with an `int`: the difference of two integers without its upper half, the
difference of two floats without its fraction, or the sign of a lexicographic comparison. Floats are
read as exact rationals. The sign is that of the values as long as it survives the conversion.
-/

namespace Tadis

open ThreeWay

/-- The rational that a single-precision bit pattern denotes, `none` for infinities and NaNs. -/
def floatValue (f : UInt32) : Option ℚ :=
  let mantissa : ℕ := f.toNat % 2 ^ 23
  let exponent : ℕ := f.toNat / 2 ^ 23 % 2 ^ 8
  let sign : ℚ := if f.toNat < 2 ^ 31 then 1 else -1
  if exponent = 255 then none
  else if exponent = 0 then some (sign * mantissa / 2 ^ 149)
  else some (sign * (2 ^ 23 + mantissa) * 2 ^ exponent / 2 ^ 150)

example : floatValue 0xBFC00000 = some (-3 / 2) := by decide +kernel

/-- A string compares as the list of its unsigned bytes. -/
def byteValues (s : Bytes) : List ℕ := s.map UInt8.toNat

/-- The order in which two values of one type stand. -/
inductive Stands (o : Ordering) : Value → Value → Prop
  | ints {a b : Int64} (h : o.Compares a.toInt b.toInt) : Stands o (.ints a) (.ints b)
  | floats {f g : UInt32} {x y : ℚ} (hx : floatValue f = some x) (hy : floatValue g = some y)
      (h : o.Compares x y) : Stands o (.floats f) (.floats g)
  | string {s t : Bytes} (h : o.Compares (byteValues s) (byteValues t)) :
      Stands o (.string s) (.string t)

def Ordered (v w : Value) : Prop := ∃ o, Stands o v w

def ComparsionType.Relates (v w : Value) : ComparsionType → Prop
  | .equal => Stands .eq v w
  | .notEqual => ¬ Stands .eq v w
  | .lessThan => Stands .lt v w
  | .greaterThan => Stands .gt v w

/-- The exact difference of two floats is truncated, if the result is an `int`. -/
def Truncates (floatSub : UInt32 → UInt32 → ℤ) : Prop :=
  ∀ f g x y, floatValue f = some x → floatValue g = some y →
    -2 ^ 31 ≤ truncate (x - y) → truncate (x - y) ≤ 2 ^ 31 - 1 → floatSub f g = truncate (x - y)

structure SignStands (c : ℤ) (v w : Value) : Prop where
  neg : c < 0 ↔ Stands .lt v w
  zero : c = 0 ↔ Stands .eq v w
  pos : 0 < c ↔ Stands .gt v w

structure ComparesRight (floatSub : UInt32 → UInt32 → ℤ) (v w : Value) : Prop where
  sign : ∃ c, v.compare floatSub w = some c ∧ SignStands c v w
  answers : ∀ tuple schema left right type, left.evaluate floatSub tuple schema = some v →
    right.evaluate floatSub tuple schema = some w →
      (type.Relates v w →
        (Expression.comparsion left right type).evaluate floatSub tuple schema = some (.ints 1)) ∧
      (¬ type.Relates v w →
        (Expression.comparsion left right type).evaluate floatSub tuple schema = some (.ints (-1)))

/-- `compare` is the order of the values of `S`, hence antisymmetric and transitive. -/
structure OrdersOn (floatSub : UInt32 → UInt32 → ℤ) (S : Set Value) : Prop where
  right : ∀ v ∈ S, ∀ w ∈ S, Ordered v w → ComparesRight floatSub v w
  antisymm : ∀ v ∈ S, ∀ w ∈ S, Ordered v w → ∃ c d,
    v.compare floatSub w = some c ∧ w.compare floatSub v = some d ∧
      (c < 0 ↔ 0 < d) ∧ (c = 0 ↔ d = 0)
  trans : ∀ u ∈ S, ∀ v ∈ S, ∀ w ∈ S, Ordered u v → Ordered v w → ∃ c d e,
    u.compare floatSub v = some c ∧ v.compare floatSub w = some d ∧
      u.compare floatSub w = some e ∧
        (c ≤ 0 → d ≤ 0 → e ≤ 0) ∧ (c < 0 → d ≤ 0 → e < 0) ∧ (c ≤ 0 → d < 0 → e < 0)

/-- The sign of the difference survives its conversion to `int`. -/
inductive SignSurvives : Value → Value → Prop
  | ints {a b : Int64} (h : KeepsSign (2 ^ 31) (a.toInt - b.toInt)) :
      SignSurvives (.ints a) (.ints b)
  | floats {f g : UInt32} {x y : ℚ} (hx : floatValue f = some x) (hy : floatValue g = some y)
      (h : x = y ∨ 1 ≤ |x - y| ∧ -2 ^ 31 - 1 < x - y ∧ x - y < 2 ^ 31) :
      SignSurvives (.floats f) (.floats g)
  | string (s t : Bytes) : SignSurvives (.string s) (.string t)

variable {floatSub : UInt32 → UInt32 → ℤ} {c : ℤ} {o : Ordering} {u v w : Value}

theorem stands_ints {a b : Int64} :
    Stands o (.ints a) (.ints b) ↔ o.Compares a.toInt b.toInt := by
  constructor
  · intro h
    cases h with
    | ints h => exact h
  · exact .ints

theorem stands_floats {f g : UInt32} {x y : ℚ} (hx : floatValue f = some x)
    (hy : floatValue g = some y) : Stands o (.floats f) (.floats g) ↔ o.Compares x y := by
  constructor
  · intro h
    cases h with
    | floats hx' hy' h =>
      rw [hx, Option.some.injEq] at hx'
      rw [hy, Option.some.injEq] at hy'
      rwa [hx', hy']
  · exact .floats hx hy

theorem stands_string {s t : Bytes} :
    Stands o (.string s) (.string t) ↔ o.Compares (byteValues s) (byteValues t) := by
  constructor
  · intro h
    cases h with
    | string h => exact h
  · exact .string

theorem signStands_iff {α : Type} [LT α] {x y : α}
    (h : ∀ o, Stands o v w ↔ o.Compares x y) : SignStands c v w ↔ SignOf c x y := by
  constructor
  · rintro ⟨hneg, hzero, hpos⟩
    exact ⟨hneg.trans (h .lt), hzero.trans (h .eq), hpos.trans (h .gt)⟩
  · rintro ⟨hneg, hzero, hpos⟩
    exact ⟨hneg.trans (h .lt).symm, hzero.trans (h .eq).symm, hpos.trans (h .gt).symm⟩

theorem compareBytes_signOf (s t : Bytes) :
    SignOf (Value.compareBytes s t) (byteValues s) (byteValues t) := by
  fun_induction Value.compareBytes s t with
  | case1 => apply signOf_of_neg_pos <;> simp [byteValues]
  | case2 b t => apply signOf_of_neg_pos <;> simp [byteValues]
  | case3 a s => apply signOf_of_neg_pos <;> simp [byteValues]
  | case4 a s b t hlt =>
    rw [UInt8.lt_iff_toNat_lt] at hlt
    apply signOf_of_neg_pos <;> simp [byteValues, List.cons_lt_cons_iff] <;> omega
  | case5 a s b t _ hgt =>
    rw [UInt8.lt_iff_toNat_lt] at hgt
    apply signOf_of_neg_pos <;> simp [byteValues, List.cons_lt_cons_iff] <;> omega
  | case6 a s b t hlt hgt ih =>
    rw [UInt8.lt_iff_toNat_lt] at hlt hgt
    have heq : a.toNat = b.toNat := by omega
    apply signOf_of_neg_pos
    · simpa [byteValues, List.cons_lt_cons_iff, heq] using ih.neg
    · simpa [byteValues, List.cons_lt_cons_iff, heq] using ih.pos

theorem sub_toInt32 (a b : Int64) :
    (a - b).toInt32.toInt = (a.toInt - b.toInt).bmod (2 * 2 ^ 31) := by
  rw [Int64.toInt_toInt32, Int64.toInt_sub]
  exact Int.bmod_bmod_of_dvd (by decide)

/-- The comparison of a `ComparsionExpression` answers by the sign that it is given. -/
theorem holds_iff (h : SignStands c v w) (type : ComparsionType) :
    type.holds c = true ↔ type.Relates v w := by
  cases type with
  | equal =>
    rw [ComparsionType.holds, decide_eq_true_eq]
    exact h.zero
  | notEqual =>
    rw [ComparsionType.holds, decide_eq_true_eq]
    exact not_congr h.zero
  | lessThan =>
    rw [ComparsionType.holds, decide_eq_true_eq]
    exact h.neg
  | greaterThan =>
    rw [ComparsionType.holds, decide_eq_true_eq]
    exact h.pos

theorem comparesRight_iff (hc : v.compare floatSub w = some c) :
    ComparesRight floatSub v w ↔ SignStands c v w := by
  constructor
  · rintro ⟨⟨c', hc', hsign⟩, _⟩
    obtain rfl : c = c' := Option.some.inj (hc.symm.trans hc')
    exact hsign
  · intro hsign
    refine ⟨⟨c, hc, hsign⟩, fun tuple schema left right type hl hr => ?_⟩
    rw [Expression.evaluate, hl, hr]
    dsimp only
    rw [hc, Option.map_some, ← holds_iff hsign]
    constructor
    · intro hholds
      rw [if_pos hholds]
    · intro hholds
      rw [if_neg hholds]

theorem comparesRight_ints_iff {a b : Int64} :
    ComparesRight floatSub (.ints a) (.ints b) ↔ KeepsSign (2 ^ 31) (a.toInt - b.toInt) := by
  have hc : (Value.ints a).compare floatSub (.ints b) =
      some ((a.toInt - b.toInt).bmod (2 * 2 ^ 31)) := by
    rw [Value.compare, sub_toInt32]
  rw [comparesRight_iff hc, signStands_iff (fun o => stands_ints)]
  exact signOf_bmod_iff (by decide)

theorem comparesRight_floats_iff {f g : UInt32} {x y : ℚ} (hx : floatValue f = some x)
    (hy : floatValue g = some y) :
    ComparesRight floatSub (.floats f) (.floats g) ↔ SignOf (floatSub f g) x y := by
  have hc : (Value.floats f).compare floatSub (.floats g) = some (floatSub f g) := rfl
  rw [comparesRight_iff hc]
  exact signStands_iff (fun o => stands_floats hx hy)

theorem comparesRight_string (s t : Bytes) :
    ComparesRight floatSub (.string s) (.string t) := by
  have hc : (Value.string s).compare floatSub (.string t) = some (Value.compareBytes s t) := rfl
  rw [comparesRight_iff hc, signStands_iff (fun o => stands_string)]
  exact compareBytes_signOf s t

theorem truncate_int_iff {q : ℚ} :
    -2 ^ 31 ≤ truncate q ∧ truncate q ≤ 2 ^ 31 - 1 ↔ -2 ^ 31 - 1 < q ∧ q < 2 ^ 31 := by
  have h := truncate_mem_iff (q := q) (a := -2 ^ 31) (b := 2 ^ 31 - 1) (by norm_num) (by norm_num)
  norm_num at h ⊢
  exact h

/-- The conversion that answers 0 for everything that is no `int`. -/
def truncSub (f g : UInt32) : ℤ :=
  match floatValue f, floatValue g with
  | some x, some y =>
    if -2 ^ 31 ≤ truncate (x - y) ∧ truncate (x - y) ≤ 2 ^ 31 - 1 then truncate (x - y) else 0
  | _, _ => 0

theorem truncSub_eq {f g : UInt32} {x y : ℚ} (hx : floatValue f = some x)
    (hy : floatValue g = some y) : truncSub f g =
      if -2 ^ 31 ≤ truncate (x - y) ∧ truncate (x - y) ≤ 2 ^ 31 - 1 then truncate (x - y) else 0 := by
  rw [truncSub, hx, hy]

theorem truncates_truncSub : Truncates truncSub := by
  intro f g x y hx hy hlo hhi
  rw [truncSub_eq hx hy, if_pos ⟨hlo, hhi⟩]

theorem comparesRight_floats_all_iff {f g : UInt32} {x y : ℚ} (hx : floatValue f = some x)
    (hy : floatValue g = some y) :
    (∀ floatSub, Truncates floatSub → ComparesRight floatSub (.floats f) (.floats g)) ↔
      (x = y ∨ 1 ≤ |x - y| ∧ -2 ^ 31 - 1 < x - y ∧ x - y < 2 ^ 31) := by
  constructor
  · intro h
    have hsign := (comparesRight_floats_iff hx hy).1 (h truncSub truncates_truncSub)
    rw [truncSub_eq hx hy] at hsign
    split_ifs at hsign with hrange
    · exact (signOf_truncate_iff.1 hsign).imp_right (fun hone => ⟨hone, truncate_int_iff.1 hrange⟩)
    · exact .inl (hsign.zero.1 rfl)
  · intro h floatSub hsub
    have hrange : -2 ^ 31 - 1 < x - y ∧ x - y < 2 ^ 31 := by
      rcases h with rfl | ⟨_, hrange⟩
      · rw [sub_self]
        norm_num
      · exact hrange
    have hint := truncate_int_iff.2 hrange
    rw [comparesRight_floats_iff hx hy, hsub f g x y hx hy hint.1 hint.2, signOf_truncate_iff]
    exact h.imp_right And.left

theorem comparesRight_all_iff (h : Ordered v w) :
    (∀ floatSub, Truncates floatSub → ComparesRight floatSub v w) ↔ SignSurvives v w := by
  obtain ⟨o, h⟩ := h
  cases h with
  | @ints a b =>
    constructor
    · intro hright
      exact .ints (comparesRight_ints_iff.1 (hright truncSub truncates_truncSub))
    · rintro ⟨hkeeps⟩ floatSub _
      exact comparesRight_ints_iff.2 hkeeps
  | @floats f g x y hx hy =>
    rw [comparesRight_floats_all_iff hx hy]
    constructor
    · exact .floats hx hy
    · intro hsurvives
      cases hsurvives with
      | floats hx' hy' h =>
        rw [hx, Option.some.injEq] at hx'
        rw [hy, Option.some.injEq] at hy'
        rwa [hx', hy']
  | @string s t => exact iff_of_true (fun floatSub _ => comparesRight_string s t) (.string s t)

theorem antisymm_of_comparesRight (h : Ordered v w) (hvw : ComparesRight floatSub v w)
    (hwv : ComparesRight floatSub w v) : ∃ c d, v.compare floatSub w = some c ∧
      w.compare floatSub v = some d ∧ (c < 0 ↔ 0 < d) ∧ (c = 0 ↔ d = 0) := by
  obtain ⟨c, hc, hsc⟩ := hvw.sign
  obtain ⟨d, hd, hsd⟩ := hwv.sign
  refine ⟨c, d, hc, hd, ?_⟩
  obtain ⟨o, h⟩ := h
  cases h with
  | ints =>
    rw [signStands_iff (fun o => stands_ints)] at hsc hsd
    exact hsc.swap hsd
  | floats hx hy =>
    rw [signStands_iff (fun o => stands_floats hx hy)] at hsc
    rw [signStands_iff (fun o => stands_floats hy hx)] at hsd
    exact hsc.swap hsd
  | string =>
    rw [signStands_iff (fun o => stands_string)] at hsc hsd
    exact hsc.swap hsd

theorem Ordered.trans (h : Ordered u v) (h' : Ordered v w) : Ordered u w := by
  obtain ⟨_, h⟩ := h
  obtain ⟨_, h'⟩ := h'
  cases h with
  | ints => cases h' with
    | ints => exact ⟨_, .ints (cmp_compares _ _)⟩
  | floats hx => cases h' with
    | floats _ hz => exact ⟨_, .floats hx hz (cmp_compares _ _)⟩
  | string => cases h' with
    | string => exact ⟨_, .string (cmp_compares _ _)⟩

theorem trans_of_comparesRight (h : Ordered u v) (h' : Ordered v w)
    (huv : ComparesRight floatSub u v) (hvw : ComparesRight floatSub v w)
    (huw : ComparesRight floatSub u w) : ∃ c d e, u.compare floatSub v = some c ∧
      v.compare floatSub w = some d ∧ u.compare floatSub w = some e ∧
        (c ≤ 0 → d ≤ 0 → e ≤ 0) ∧ (c < 0 → d ≤ 0 → e < 0) ∧ (c ≤ 0 → d < 0 → e < 0) := by
  obtain ⟨c, hc, hsc⟩ := huv.sign
  obtain ⟨d, hd, hsd⟩ := hvw.sign
  obtain ⟨e, he, hse⟩ := huw.sign
  refine ⟨c, d, e, hc, hd, he, ?_⟩
  obtain ⟨_, h⟩ := h
  obtain ⟨_, h'⟩ := h'
  cases h with
  | ints => cases h' with
    | ints =>
      rw [signStands_iff (fun o => stands_ints)] at hsc hsd hse
      exact hsc.trans hsd hse
  | floats hx hy => cases h' with
    | floats hy' hz =>
      rw [signStands_iff (fun o => stands_floats hx hy)] at hsc
      rw [signStands_iff (fun o => stands_floats hy hz)] at hsd
      rw [signStands_iff (fun o => stands_floats hx hz)] at hse
      exact hsc.trans hsd hse
  | string => cases h' with
    | string =>
      rw [signStands_iff (fun o => stands_string)] at hsc hsd hse
      exact hsc.trans hsd hse

theorem Ordered.swap (h : Ordered v w) : Ordered w v := by
  obtain ⟨_, h⟩ := h
  cases h with
  | ints => exact ⟨_, .ints (cmp_compares _ _)⟩
  | floats hx hy => exact ⟨_, .floats hy hx (cmp_compares _ _)⟩
  | string => exact ⟨_, .string (cmp_compares _ _)⟩

theorem ordersOn_iff {S : Set Value} : OrdersOn floatSub S ↔
    ∀ v ∈ S, ∀ w ∈ S, Ordered v w → ComparesRight floatSub v w := by
  constructor
  · exact OrdersOn.right
  · intro hright
    refine ⟨hright, fun v hv w hw h => ?_, fun u hu v hv w hw h h' => ?_⟩
    · exact antisymm_of_comparesRight h (hright v hv w hw h) (hright w hw v hv h.swap)
    · exact trans_of_comparesRight h h' (hright u hu v hv h) (hright v hv w hw h')
        (hright u hu w hw (h.trans h'))

/-- `compare` is the order of the values of a set exactly when the sign of every difference survives
the conversion to `int`. -/
theorem compare_order_iff (S : Set Value) :
    (∀ floatSub, Truncates floatSub → OrdersOn floatSub S) ↔
      ∀ v ∈ S, ∀ w ∈ S, Ordered v w → SignSurvives v w := by
  simp only [ordersOn_iff]
  constructor
  · intro h v hv w hw hvw
    exact (comparesRight_all_iff hvw).1 (fun floatSub hsub => h floatSub hsub v hv w hw hvw)
  · intro h floatSub hsub v hv w hw hvw
    exact (comparesRight_all_iff hvw).2 (h v hv w hw hvw) floatSub hsub

/-- 4294967297 compares as equal to 1. -/
theorem compare_wraps : ¬ ∀ floatSub, Truncates floatSub → OrdersOn floatSub Set.univ := by
  intro h
  have hright := (h truncSub truncates_truncSub).right (.ints 4294967297) trivial (.ints 1) trivial
    ⟨.gt, stands_ints.2 (show (1 : Int64).toInt < (4294967297 : Int64).toInt by decide)⟩
  obtain ⟨c, hc, hsign⟩ := hright.sign
  obtain rfl : 0 = c := Option.some.inj (Eq.trans (by decide) hc)
  have heq : (4294967297 : Int64).toInt = (1 : Int64).toInt := stands_ints.1 (hsign.zero.1 rfl)
  exact absurd heq (by decide)

end Tadis
