import Mathlib.Data.Nat.Digits.Lemmas
import Tadis.JsonNumbers

/-!
# Doubles that are integers

`std::to_string` of a double that is an integer writes its decimal digits and six zeros behind the
point. `DoubleText` is what the metadata files rely on: below `2 ^ 53` the text is read back as the
same double.
-/

namespace Tadis.Pson

open JsonGrammar

variable {ν : Type} {q : Bytes}

def digits (n : ℕ) : Bytes :=
  if n = 0 then [0x30] else (Nat.digits 10 n).reverse.map (fun d => 0x30 + .ofNat d)

def decimal (n : ℤ) : Bytes := (if n < 0 then [0x2D] else []) ++ digits n.natAbs

def zeros : Bytes := str ".000000"

/-- The text of the doubles `ofInt n` and their value. -/
structure DoubleText (ofInt : ℤ → ν) (toString : ν → Bytes) (strtod : Bytes → Option ν) : Prop where
  shows : ∀ n : ℤ, n.natAbs < 2 ^ 53 → toString (ofInt n) = decimal n ++ zeros
  reads : ∀ (n : ℤ) (q : Bytes), n.natAbs < 2 ^ 53 → EndsNumber q →
    strtod (decimal n ++ zeros ++ q) = some (ofInt n)

theorem isDigit_ofNat {d : ℕ} (hd : d < 10) : IsDigit (0x30 + .ofNat d) := by
  interval_cases d <;> decide

theorem isDigit_digits (n : ℕ) : ∀ c ∈ digits n, IsDigit c := by
  intro c hc
  rw [digits] at hc
  split_ifs at hc
  · rw [List.mem_singleton] at hc
    subst hc
    decide
  · obtain ⟨d, hd, rfl⟩ := List.mem_map.1 hc
    exact isDigit_ofNat (Nat.digits_lt_base (by decide) (List.mem_reverse.1 hd))

theorem isInt_digits (n : ℕ) : IsInt (digits n) := by
  by_cases hn : n = 0
  · rw [digits, if_pos hn]
    exact .zero
  · have hne : Nat.digits 10 n ≠ [] := Nat.digits_ne_nil_iff_ne_zero.2 hn
    have hmem := isDigit_digits n
    have hlast := Nat.getLast_digit_ne_zero 10 hn
    have hlt := Nat.digits_lt_base (b := 10) (by decide) (List.getLast_mem hne)
    rw [digits, if_neg hn, ← List.dropLast_append_getLast hne, List.reverse_concat,
      List.map_cons] at hmem ⊢
    refine .digits ?_ fun d hd => hmem d (List.mem_cons_of_mem _ hd)
    generalize (Nat.digits 10 n).getLast hne = d at hlast hlt
    interval_cases d <;> first | exact absurd rfl hlast | decide

theorem isNumber_decimal (n : ℤ) : IsNumber (decimal n ++ zeros) := by
  have hdigits : ∀ c ∈ List.replicate 6 (0x30 : UInt8), IsDigit c := fun c hc => by
    rw [List.eq_of_mem_replicate hc]
    exact ⟨by decide, by decide⟩
  have hzeros : IsFrac zeros := by
    rw [show zeros = 0x2E :: List.replicate 6 0x30 from rfl]
    exact .digits ⟨hdigits, List.cons_ne_nil _ _⟩
  have hsign : (if n < 0 then [0x2D] else [] : Bytes) = [] ∨
      (if n < 0 then [0x2D] else [] : Bytes) = [0x2D] := by
    split_ifs
    · exact .inr rfl
    · exact .inl rfl
  have h := IsNumber.mk hsign (isInt_digits n.natAbs) hzeros .none
  rwa [List.append_nil] at h

def readDigits (p : Bytes) : ℕ :=
  Nat.ofDigits 10 ((p.takeWhile isDigit).reverse.map (fun c => c.toNat - 0x30))

def readDouble (p : Bytes) : Option ℤ :=
  if p.head? = some 0x2D then some (-(readDigits p.tail)) else some (readDigits p)

theorem readDigits_digits (n : ℕ) : readDigits (digits n ++ zeros ++ q) = n := by
  have htake : (digits n ++ zeros ++ q).takeWhile isDigit = digits n := by
    have hmem : ∀ c ∈ digits n, isDigit c = true := fun c hc => isDigit_iff.2 (isDigit_digits n c hc)
    rw [List.append_assoc, List.takeWhile_append_of_pos hmem]
    exact List.append_nil _
  rw [readDigits, htake, digits]
  split_ifs with hn
  · rw [hn]
    rfl
  · have hmap : ((Nat.digits 10 n).map (fun d => (0x30 + UInt8.ofNat d).toNat - 0x30)) =
        Nat.digits 10 n := by
      refine (List.map_congr_left fun d hd => ?_).trans (List.map_id _)
      have hlt := Nat.digits_lt_base (by decide) hd
      interval_cases d <;> rfl
    rw [← List.map_reverse, List.reverse_reverse, List.map_map]
    exact (congrArg _ hmap).trans (Nat.ofDigits_digits 10 n)

theorem doubleText_readDouble : DoubleText id (fun n => decimal n ++ zeros) readDouble where
  shows _ _ := rfl
  reads n q _ _ := by
    rw [decimal]
    by_cases hn : n < 0
    · rw [if_pos hn, List.append_assoc, List.append_assoc, readDouble]
      refine (if_pos rfl).trans ?_
      rw [List.singleton_append, List.tail_cons, ← List.append_assoc, readDigits_digits]
      exact congrArg some (by rw [id]; omega)
    · have hhead : ((digits n.natAbs ++ zeros ++ q).head? ≠ some 0x2D) := by
        obtain ⟨c, u, hcu, hc⟩ : ∃ c u, digits n.natAbs = c :: u ∧ IsDigit c := by
          have hmem := isDigit_digits n.natAbs
          cases hd : digits n.natAbs with
          | nil =>
            have hint := isInt_digits n.natAbs
            rw [hd] at hint
            cases hint
          | cons c u => exact ⟨c, u, rfl, hmem c (by simp [hd])⟩
        rw [hcu]
        intro h
        obtain rfl : c = 0x2D := Option.some.inj h
        exact absurd hc (by decide)
      rw [if_neg hn, List.nil_append, readDouble, if_neg hhead, readDigits_digits]
      exact congrArg some (by rw [id]; omega)

end Tadis.Pson
