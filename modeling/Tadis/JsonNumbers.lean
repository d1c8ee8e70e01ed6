import Tadis.JsonGrammar
import Tadis.JsonParser

/-!
# Scanning JSON numbers

The parser scans a number of the grammar, as long as it can.
-/

namespace Tadis.Pson

open JsonGrammar

variable {p q s t : Bytes}

theorem isDigit_iff {c : UInt8} : isDigit c = true ↔ IsDigit c := by
  simp [isDigit, IsDigit]
  rfl

theorem skipDigits_sound (h : skipDigits p = some q) :
    ∃ t, p = t ++ q ∧ (∀ c ∈ t, IsDigit c) ∧ q ≠ [] := by
  induction p with
  | nil => cases h
  | cons c p ih =>
    rw [skipDigits] at h
    split_ifs at h with hc
    · obtain ⟨t, rfl, ht, hq⟩ := ih h
      exact ⟨c :: t, rfl, List.forall_mem_cons.2 ⟨isDigit_iff.1 hc, ht⟩, hq⟩
    · cases h
      exact ⟨[], rfl, by simp, by simp⟩

theorem scanDigits_sound (h : scanDigits p = some (some q)) :
    ∃ t, p = t ++ q ∧ IsDigits t ∧ q ≠ [] := by
  cases p with
  | nil => cases h
  | cons c p =>
    rw [scanDigits] at h
    split_ifs at h with hc
    · obtain ⟨_, hskip, he⟩ := Option.map_eq_some_iff.1 h
      cases he
      obtain ⟨t, rfl, ht, hq⟩ := skipDigits_sound hskip
      exact ⟨c :: t, rfl, ⟨List.forall_mem_cons.2 ⟨isDigit_iff.1 hc, ht⟩, by simp⟩, hq⟩
    · cases h

theorem scanSign_sound (h : scanSign p = some q) :
    ∃ t, p = t ++ q ∧ (t = [] ∨ t = [0x2B] ∨ t = [0x2D]) := by
  cases p with
  | nil => cases h
  | cons c p =>
    rw [scanSign] at h
    split_ifs at h with hc
    · cases h
      rcases hc with rfl | rfl
      · exact ⟨[0x2B], rfl, by simp⟩
      · exact ⟨[0x2D], rfl, by simp⟩
    · cases h
      exact ⟨[], rfl, by simp⟩

theorem scanExp_sound (h : scanExp p = some (some q)) : ∃ t, p = t ++ q ∧ IsExp t ∧ q ≠ [] := by
  cases p with
  | nil => cases h
  | cons c p =>
    rw [scanExp] at h
    split_ifs at h with hc
    · obtain ⟨r, hsign, hdigits⟩ := Option.bind_eq_some_iff.1 h
      obtain ⟨s, rfl, hs⟩ := scanSign_sound hsign
      obtain ⟨t, rfl, ht, hq⟩ := scanDigits_sound hdigits
      exact ⟨c :: s ++ t, by simp, .digits hc hs ht, hq⟩
    · cases h
      exact ⟨[], rfl, .none, by simp⟩

theorem scanFrac_sound (h : scanFrac p = some (some q)) :
    ∃ f e, p = f ++ e ++ q ∧ IsFrac f ∧ IsExp e ∧ q ≠ [] := by
  cases p with
  | nil => cases h
  | cons c p =>
    rw [scanFrac] at h
    split_ifs at h with hc
    · subst hc
      rcases hr : scanDigits p with _ | _ | r <;> rw [hr] at h <;> dsimp only at h
      · cases h
      · cases h
      · obtain ⟨t, rfl, ht, _⟩ := scanDigits_sound hr
        obtain ⟨e, rfl, he, hq⟩ := scanExp_sound h
        exact ⟨0x2E :: t, e, by simp; rfl, .digits ht, he, hq⟩
    · obtain ⟨e, he, hexp, hq⟩ := scanExp_sound h
      exact ⟨[], e, by rw [he, List.nil_append], .none, hexp, hq⟩

theorem scanInt_sound (h : scanInt p = some (some q)) : ∃ t, p = t ++ q ∧ IsInt t := by
  cases p with
  | nil => cases h
  | cons c p =>
    rw [scanInt] at h
    split_ifs at h with hz hc
    · cases h
      exact ⟨[0x30], by rw [hz]; rfl, .zero⟩
    · obtain ⟨_, hskip, he⟩ := Option.map_eq_some_iff.1 h
      cases he
      obtain ⟨t, rfl, ht, _⟩ := skipDigits_sound hskip
      exact ⟨c :: t, rfl, .digits (of_decide_eq_true hc) ht⟩
    · cases h

/-- What is scanned as a number is one, and a byte is left behind it. -/
theorem scanNumber_cons_iff {c : UInt8} : scanNumber (c :: p) = some (some q) ↔
    ∃ r, scanInt (if c = '-'.toUInt8 then p else c :: p) = some (some r) ∧
      scanFrac r = some (some q) := by
  rw [scanNumber]
  rcases scanInt _ with _ | _ | r <;> simp

theorem scanNumber_sound (h : scanNumber p = some (some q)) :
    ∃ t, p = t ++ q ∧ IsNumber t ∧ q ≠ [] := by
  cases p with
  | nil => cases h
  | cons c p =>
    obtain ⟨r, hi, hscan⟩ := scanNumber_cons_iff.1 h
    obtain ⟨f, e, rfl, hf, he, hq⟩ := scanFrac_sound hscan
    split_ifs at hi with hc
    · obtain ⟨i, rfl, hint⟩ := scanInt_sound hi
      refine ⟨[0x2D] ++ i ++ f ++ e, ?_, .mk (.inr rfl) hint hf he, hq⟩
      rw [hc]
      simp
      rfl
    · obtain ⟨i, hp, hint⟩ := scanInt_sound hi
      exact ⟨[] ++ i ++ f ++ e, by rw [hp]; simp, .mk (.inl rfl) hint hf he, hq⟩

/-- The next byte does not continue a number. -/
def EndsNumber (q : Bytes) : Prop :=
  ∃ c r, q = c :: r ∧ ¬ IsDigit c ∧ c ≠ 0x2E ∧ c ≠ 0x65 ∧ c ≠ 0x45

theorem skipDigits_complete {c : UInt8} (ht : ∀ d ∈ t, IsDigit d) (hc : ¬ IsDigit c) :
    skipDigits (t ++ c :: q) = some (c :: q) := by
  induction t with
  | nil => rw [List.nil_append, skipDigits, if_neg (by rwa [isDigit_iff])]
  | cons d t ih =>
    obtain ⟨hd, ht⟩ := List.forall_mem_cons.1 ht
    rw [List.cons_append, skipDigits, if_pos (isDigit_iff.2 hd), ih ht]

theorem scanDigits_complete {c : UInt8} (ht : IsDigits t) (hc : ¬ IsDigit c) :
    scanDigits (t ++ c :: q) = some (some (c :: q)) := by
  obtain ⟨hd, hne⟩ := ht
  cases t with
  | nil => exact absurd rfl hne
  | cons d t =>
    obtain ⟨hd, ht⟩ := List.forall_mem_cons.1 hd
    rw [List.cons_append, scanDigits, if_pos (isDigit_iff.2 hd), skipDigits_complete ht hc,
      Option.map_some]

theorem scanSign_complete (hs : s = [] ∨ s = [0x2B] ∨ s = [0x2D]) (ht : IsDigits t) :
    scanSign (s ++ t ++ q) = some (t ++ q) := by
  rcases hs with rfl | rfl | rfl
  · cases t with
    | nil => exact absurd rfl ht.nonempty
    | cons d t =>
      have hd := ht.digits d List.mem_cons_self
      have hplus : d ≠ '+'.toUInt8 := by
        rintro rfl
        exact absurd hd (by decide)
      have hminus : d ≠ '-'.toUInt8 := by
        rintro rfl
        exact absurd hd (by decide)
      rw [List.nil_append, List.cons_append, scanSign, if_neg (by simp [hplus, hminus])]
  · rfl
  · rfl

theorem scanExp_complete (ht : IsExp t) (hq : EndsNumber q) :
    scanExp (t ++ q) = some (some q) := by
  obtain ⟨c, r, rfl, hc, _, he, hE⟩ := hq
  cases ht with
  | none =>
    have hno : ¬ (c = 'e'.toUInt8 ∨ c = 'E'.toUInt8) := not_or.2 ⟨he, hE⟩
    rw [List.nil_append, scanExp, if_neg hno]
  | @digits e s t he hs ht =>
    have hexp : e = 'e'.toUInt8 ∨ e = 'E'.toUInt8 := he
    rw [List.append_assoc, List.cons_append, scanExp, if_pos hexp, ← List.append_assoc,
      scanSign_complete hs ht, Option.bind_some, scanDigits_complete ht hc]

/-- What follows the digits of a fraction is no digit. -/
theorem exp_head {e : Bytes} (he : IsExp e) (hq : EndsNumber q) :
    ∃ c r, e ++ q = c :: r ∧ ¬ IsDigit c ∧ c ≠ 0x2E := by
  cases he with
  | none =>
    obtain ⟨c, r, rfl, hc, hdot, _⟩ := hq
    exact ⟨c, r, rfl, hc, hdot⟩
  | digits he hs ht =>
    refine ⟨_, _, by rw [List.append_assoc, List.cons_append], ?_⟩
    rcases he with rfl | rfl <;> decide

theorem scanFrac_complete {f e : Bytes} (hf : IsFrac f) (he : IsExp e) (hq : EndsNumber q) :
    scanFrac (f ++ e ++ q) = some (some q) := by
  obtain ⟨c, r, hcr, hc, hdot⟩ := exp_head he hq
  rw [List.append_assoc]
  cases hf with
  | none =>
    have hno : ¬ c = '.'.toUInt8 := hdot
    rw [List.nil_append, hcr, scanFrac, if_neg hno, ← hcr, scanExp_complete he hq]
  | @digits t ht =>
    have hpoint : (0x2E : UInt8) = '.'.toUInt8 := rfl
    rw [hcr, List.cons_append, scanFrac, if_pos hpoint, scanDigits_complete ht hc]
    dsimp only
    rw [← hcr, scanExp_complete he hq]

theorem frac_head {f e : Bytes} (hf : IsFrac f) (he : IsExp e) (hq : EndsNumber q) :
    ∃ c r, f ++ e ++ q = c :: r ∧ ¬ IsDigit c := by
  cases hf with
  | none =>
    obtain ⟨c, r, hcr, hc, _⟩ := exp_head he hq
    exact ⟨c, r, by rw [List.nil_append, hcr], hc⟩
  | digits ht => exact ⟨0x2E, _, rfl, by decide⟩

theorem scanInt_complete (ht : IsInt t) {c : UInt8} (hc : ¬ IsDigit c) :
    scanInt (t ++ c :: q) = some (some (c :: q)) := by
  cases ht with
  | zero => rfl
  | @digits d t hd ht =>
    have hzero : ¬ d = '0'.toUInt8 := by
      rintro rfl
      exact absurd hd (by decide)
    have hone : isOneToNine d = true := decide_eq_true hd
    rw [List.cons_append, scanInt, if_neg hzero, if_pos hone, skipDigits_complete ht hc,
      Option.map_some]

theorem scanNumber_complete (ht : IsNumber t) (hq : EndsNumber q) :
    scanNumber (t ++ q) = some (some q) := by
  obtain ⟨hs, hi, hf, he⟩ := ht
  rename_i s i f e
  obtain ⟨c, r, hcr, hc⟩ := frac_head hf he hq
  have hint : scanInt (i ++ (f ++ e ++ q)) = some (some (f ++ e ++ q)) := by
    rw [hcr, scanInt_complete hi hc]
  have hfrac := scanFrac_complete hf he hq
  have hsplit : s ++ i ++ f ++ e ++ q = s ++ (i ++ (f ++ e ++ q)) := by simp
  rw [hsplit]
  rcases hs with rfl | rfl
  · have hne : ∃ d u, i ++ (f ++ e ++ q) = d :: u ∧ d ≠ '-'.toUInt8 := by
      cases hi with
      | zero => exact ⟨0x30, _, rfl, by decide⟩
      | @digits d u hd hu =>
        refine ⟨d, _, rfl, ?_⟩
        rintro rfl
        exact absurd hd (by decide)
    obtain ⟨d, u, hdu, hd⟩ := hne
    rw [hdu] at hint
    rw [List.nil_append, hdu, scanNumber_cons_iff, if_neg hd]
    exact ⟨_, hint, hfrac⟩
  · have hminus : (0x2D : UInt8) = '-'.toUInt8 := rfl
    rw [List.singleton_append, scanNumber_cons_iff, if_pos hminus]
    exact ⟨_, hint, hfrac⟩

end Tadis.Pson
