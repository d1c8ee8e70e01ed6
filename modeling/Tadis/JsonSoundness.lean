import Tadis.JsonReading

/-!
# What the JSON parser accepts

What the parser reads without taking anything that JSON does not have is a JSON value, and of a JSON
value it takes nothing else. So it accepts only JSON, unless it misreads the text.
-/

namespace Tadis.Pson

open JsonGrammar

variable {ν : Type} {strtod : Bytes → Option ν} {p q r s t w : Bytes} {f : Bool} {v : Json ν}

theorem isBlank_iff {c : UInt8} : isBlank c = true ↔ c = 0x20 ∨ c = 0x09 ∨ c = 0x0A ∨ c = 0x0D :=
  decide_eq_true_iff

theorem exists_ws (p : Bytes) : ∃ w, p = w ++ skipWriteBlank p ∧ IsWs w := by
  refine ⟨p.takeWhile isBlank, List.takeWhile_append_dropWhile.symm, fun c hc => ?_⟩
  exact isBlank_iff.1 (List.mem_takeWhile_imp hc)

theorem skipWriteBlank_append (hw : IsWs w) : skipWriteBlank (w ++ p) = skipWriteBlank p := by
  induction w with
  | nil => rfl
  | cons c w ih =>
    obtain ⟨hc, hw⟩ := List.forall_mem_cons.1 hw
    rw [List.cons_append, skipWriteBlank, List.dropWhile_cons_of_pos (isBlank_iff.2 hc)]
    exact ih hw

theorem skipWriteBlank_ws {c : UInt8} (hw : IsWs w) (hc : isBlank c = false) :
    skipWriteBlank (w ++ c :: p) = c :: p := by
  rw [skipWriteBlank_append hw, skipWriteBlank, List.dropWhile_cons_of_neg (by simp [hc])]

theorem isEscape_cases {c : UInt8} (h : isEscape c p = true) :
    c ∈ escapes ∨ (c = 0x75 ∧ (p.take 4).length = 4 ∧ ∀ d ∈ p.take 4, (hexDigit d).isSome) := by
  rw [isEscape, decide_eq_true_iff, List.all_eq_true] at h
  exact h

theorem hexDigit_isSome {c : UInt8} : (hexDigit c).isSome ↔ IsHex c := by
  have hiff : IsHex c ↔ ('0'.toUInt8 ≤ c ∧ c ≤ '9'.toUInt8) ∨ ('A'.toUInt8 ≤ c ∧ c ≤ 'F'.toUInt8) ∨
      ('a'.toUInt8 ≤ c ∧ c ≤ 'f'.toUInt8) := Iff.rfl
  rw [hiff, hexDigit]
  split_ifs <;> simp_all

theorem isHex_plain {c : UInt8} (h : IsHex c) : 0x20 ≤ c ∧ c ≠ 0x22 ∧ c ≠ 0x5C ∧ c ≠ 0 := by
  rcases h with ⟨hl, hu⟩ | ⟨hl, hu⟩ | ⟨hl, hu⟩ <;>
  · refine ⟨UInt8.le_trans (by decide) hl, ?_, ?_, ?_⟩ <;> rintro rfl <;> revert hl hu <;> decide

theorem ReadsString.drop_hex {n : ℕ} (h : ReadsString p s f q)
    (hlen : (p.take n).length = n) (hhex : ∀ d ∈ p.take n, IsHex d) :
    ∃ s', ReadsString (p.drop n) s' f q := by
  induction n generalizing p s f with
  | zero => exact ⟨s, h⟩
  | succ n ih =>
    cases h with
    | close => exact absurd rfl (isHex_plain (hhex '"'.toUInt8 (by simp))).2.1
    | @char c p s f q _ _ _ h =>
      have hc := isHex_plain (hhex c (by simp))
      have hctl : decide (c < 0x20) = false := by simpa using hc.1
      obtain ⟨s', hs⟩ := ih h (by simpa using hlen) fun d hd => hhex d (by simp [hd])
      exact ⟨s', by rwa [hctl, Bool.false_or]⟩
    | escape => exact absurd rfl (isHex_plain (hhex '\\'.toUInt8 (by simp))).2.2.1

theorem ReadsString.chars (h : ReadsString p s f q) (hf : f = false) :
    ∃ t, p = t ++ 0x22 :: q ∧ IsChars t := by
  induction hn : p.length using Nat.strong_induction_on generalizing p s f with
  | _ n ih =>
    subst hn
    cases h with
    | close => exact ⟨[], rfl, .nil⟩
    | @char c p s f q hq hb h0 h =>
      obtain ⟨hc, hf'⟩ := Bool.or_eq_false_iff.1 hf
      obtain ⟨t, rfl, ht⟩ := ih p.length (by simp) h hf' rfl
      exact ⟨c :: t, rfl, .unescaped (by simpa using hc) hq hb ht⟩
    | @escape c p s f q h =>
      obtain ⟨hesc, hf'⟩ := Bool.or_eq_false_iff.1 hf
      rcases isEscape_cases (by simpa using hesc) with hc | ⟨rfl, hlen, hhex⟩
      · obtain ⟨t, rfl, ht⟩ := ih p.length (by simp) h hf' rfl
        exact ⟨_, rfl, .escape hc ht⟩
      · have hhex' : ∀ d ∈ p.take 4, IsHex d := fun d hd => hexDigit_isSome.1 (hhex d hd)
        obtain ⟨s', hs⟩ := h.drop_hex hlen hhex'
        obtain ⟨t, hdrop, ht⟩ := ih (p.drop 4).length (by simp; omega) hs hf' rfl
        refine ⟨_, ?_, .unicode hhex' hlen ht⟩
        rw [List.cons_append, List.cons_append, List.append_assoc, ← hdrop, List.take_append_drop]
        rfl

theorem readsString_plain {c : UInt8} (h : ReadsString (c :: p) s f q) (hq : c ≠ 0x22)
    (hb : c ≠ 0x5C) : ∃ s' f', f = (decide (c < 0x20) || f') ∧ ReadsString p s' f' q := by
  cases h with
  | close => exact absurd rfl hq
  | char _ _ _ h => exact ⟨_, _, rfl, h⟩
  | escape => exact absurd rfl hb

theorem readsString_backslash {c : UInt8} (h : ReadsString (0x5C :: c :: p) s f q) :
    ∃ s' f', f = (!isEscape c p || f') ∧ ReadsString p s' f' q := by
  cases h with
  | char _ hb _ _ => exact absurd rfl hb
  | escape h => exact ⟨_, _, rfl, h⟩

theorem readsString_hex {u : Bytes} (hu : ∀ c ∈ u, IsHex c) (h : ReadsString (u ++ p) s f q) :
    ∃ s', ReadsString p s' f q := by
  have htake : (u ++ p).take u.length = u := List.take_left
  have h := h.drop_hex (n := u.length) (by rw [htake]) (by rwa [htake])
  rwa [List.drop_left] at h

theorem readsString_chars (ht : IsChars t) (h : ReadsString (t ++ 0x22 :: q) s f r) :
    f = false ∧ r = q := by
  induction ht generalizing s f with
  | nil =>
    cases h with
    | close => exact ⟨rfl, rfl⟩
    | char hq _ _ _ => exact absurd rfl hq
  | @unescaped c t hc hq hb _ ih =>
    obtain ⟨s', f', rfl, hs⟩ := readsString_plain h hq hb
    obtain ⟨rfl, rfl⟩ := ih hs
    exact ⟨by simpa using hc, rfl⟩
  | @escape c t hc _ ih =>
    rw [List.cons_append, List.cons_append] at h
    obtain ⟨s', f', rfl, hs⟩ := readsString_backslash h
    obtain ⟨rfl, rfl⟩ := ih hs
    have hesc : isEscape c (t ++ 0x22 :: r) = true := by
      rw [isEscape, decide_eq_true_iff]
      exact .inl hc
    exact ⟨by rw [hesc]; rfl, rfl⟩
  | @unicode u t hu hlen _ ih =>
    rw [List.cons_append, List.cons_append, List.append_assoc] at h
    obtain ⟨s', f', rfl, hs⟩ := readsString_backslash h
    obtain ⟨s', hs⟩ := readsString_hex hu hs
    obtain ⟨rfl, rfl⟩ := ih hs
    have htake : (u ++ (t ++ 0x22 :: r)).take 4 = u := by rw [← hlen, List.take_left]
    have hesc : isEscape 0x75 (u ++ (t ++ 0x22 :: r)) = true := by
      rw [isEscape, decide_eq_true_iff, htake, List.all_eq_true]
      exact .inr ⟨rfl, hlen, fun c hc => hexDigit_isSome.2 (hu c hc)⟩
    exact ⟨by rw [hesc]; rfl, rfl⟩

/-- What is read between two cursors belongs to the grammar. -/
def Fits : Goal ν → Bytes → Bytes → Prop
  | .value _, p, q => ∃ t, p = t ++ q ∧ Derives .value t
  | .values _, p, q => ∃ t, p = t ++ 0x5D :: q ∧ Derives .values t
  | .member _ _, p, q =>
    ∃ t, p = t ++ q ∧ ∀ w w', IsWs w → IsWs w' → Derives .member (w ++ t ++ w')
  | .members _, p, q => ∃ t, p = t ++ 0x7D :: q ∧ ∀ w, IsWs w → Derives .members (w ++ t)

theorem exists_ws_of_eq (h : skipWriteBlank p = q) : ∃ w, p = w ++ q ∧ IsWs w :=
  h ▸ exists_ws p

theorem Reads.fits {g : Goal ν} (h : Reads strtod g p f q) (hf : f = false) : Fits g p q := by
  induction h with
  | nullLit hp => exact ⟨_, hp, .null⟩
  | trueLit hp => exact ⟨_, hp, .true⟩
  | falseLit hp => exact ⟨_, hp, .false⟩
  | number h _ =>
    obtain ⟨t, rfl, ht, _⟩ := scanNumber_sound h
    exact ⟨t, rfl, .number ht⟩
  | string h =>
    obtain ⟨t, rfl, ht⟩ := h.chars hf
    exact ⟨0x22 :: t ++ [0x22], by simp; rfl, .string ht⟩
  | emptyArray hp =>
    obtain ⟨w, rfl, hw⟩ := exists_ws_of_eq hp
    exact ⟨0x5B :: w ++ [0x5D], by simp; decide, .emptyArray hw⟩
  | array _ ih =>
    obtain ⟨t, rfl, ht⟩ := ih hf
    exact ⟨0x5B :: t ++ [0x5D], by simp; rfl, .array ht⟩
  | emptyObject hp =>
    obtain ⟨w, rfl, hw⟩ := exists_ws_of_eq hp
    exact ⟨0x7B :: w ++ [0x7D], by simp; decide, .emptyObject hw⟩
  | @object p ms f q hp _ ih =>
    obtain ⟨t, ht, hd⟩ := ih hf
    obtain ⟨w, hp, hw⟩ := exists_ws_of_eq ht
    exact ⟨0x7B :: (w ++ t) ++ [0x7D], by simp [hp]; rfl, .object (hd w hw)⟩
  | @oneValue p v f q r _ hq ih =>
    obtain ⟨t, ht, hd⟩ := ih hf
    obtain ⟨w, hp, hw⟩ := exists_ws_of_eq ht
    obtain ⟨w', rfl, hw'⟩ := exists_ws_of_eq hq
    exact ⟨w ++ t ++ w', by simp [hp]; rfl, .oneValue hw hd hw'⟩
  | @moreValues p v f q r vs f' u _ hq _ ih ihs =>
    obtain ⟨hf, hf'⟩ := Bool.or_eq_false_iff.1 hf
    obtain ⟨t, ht, hd⟩ := ih hf
    obtain ⟨ts, rfl, hds⟩ := ihs hf'
    obtain ⟨w, hp, hw⟩ := exists_ws_of_eq ht
    obtain ⟨w', rfl, hw'⟩ := exists_ws_of_eq hq
    exact ⟨w ++ t ++ w' ++ 0x2C :: ts, by simp [hp]; rfl, .moreValues hw hd hw' hds⟩
  | @member c p name f q r v f' u hname hq _ ih =>
    obtain ⟨hf, hf'⟩ := Bool.or_eq_false_iff.1 hf
    obtain ⟨hc, hf⟩ := Bool.or_eq_false_iff.1 hf
    obtain rfl : c = '"'.toUInt8 := by simpa using hc
    obtain ⟨k, rfl, hk⟩ := hname.chars hf
    obtain ⟨t, ht, hd⟩ := ih hf'
    obtain ⟨w₁, rfl, hw₁⟩ := exists_ws_of_eq hq
    obtain ⟨w₂, hr, hw₂⟩ := exists_ws_of_eq ht
    refine ⟨0x22 :: k ++ 0x22 :: w₁ ++ 0x3A :: w₂ ++ t, by simp [hr]; exact ⟨rfl, rfl⟩,
      fun w w₃ hw hw₃ => ?_⟩
    simpa using Derives.member hw hk hw₁ hw₂ hd hw₃
  | oneMember _ hq ih =>
    obtain ⟨t, rfl, hd⟩ := ih hf
    obtain ⟨w', rfl, hw'⟩ := exists_ws_of_eq hq
    exact ⟨t ++ w', by simp; rfl, fun w hw => by simpa using Derives.oneMember (hd w w' hw hw')⟩
  | @comma p name v f q r ms f' u _ hq _ ih ihs =>
    obtain ⟨hf, hf'⟩ := Bool.or_eq_false_iff.1 hf
    obtain ⟨t, rfl, hd⟩ := ih hf
    obtain ⟨ts, hts, hds⟩ := ihs hf'
    obtain ⟨w₁, rfl, hw₁⟩ := exists_ws_of_eq hq
    obtain ⟨w₂, rfl, hw₂⟩ := exists_ws_of_eq hts
    refine ⟨t ++ w₁ ++ 0x2C :: (w₂ ++ ts), by simp; rfl, fun w hw => ?_⟩
    simpa using Derives.moreMembers (hd w w₁ hw hw₁) (hds w₂ hw₂)
  | noComma => cases hf

theorem isBlank_false {c : UInt8} (h : c = 0x2D ∨ IsDigit c) : isBlank c = false ∧ c ≠ 0x5D := by
  rcases h with rfl | ⟨hl, hu⟩
  · decide
  · constructor
    · rw [Bool.eq_false_iff, Ne, isBlank_iff]
      rintro (rfl | rfl | rfl | rfl) <;> revert hl hu <;> decide
    · rintro rfl
      revert hl hu
      decide

theorem derives_value_head (h : Derives .value t) :
    ∃ c u, t = c :: u ∧ isBlank c = false ∧ c ≠ 0x5D := by
  cases h with
  | number h =>
    obtain ⟨c, u, rfl, hc⟩ := h.head
    exact ⟨c, u, rfl, isBlank_false hc⟩
  | null | true | false | string | emptyArray | array | emptyObject | object =>
    exact ⟨_, _, rfl, by decide, by decide⟩

theorem skipWriteBlank_value (h : Derives .value t) (hw : IsWs w) :
    skipWriteBlank (w ++ (t ++ p)) = t ++ p := by
  obtain ⟨c, u, rfl, hc, _⟩ := derives_value_head h
  exact skipWriteBlank_ws hw hc

theorem derives_values_head (h : Derives .values t) :
    ∃ c u, skipWriteBlank (t ++ p) = c :: u ∧ c ≠ 0x5D := by
  cases h with
  | @oneValue w t w' hw h hw' =>
    obtain ⟨c, u, rfl, _, hc⟩ := derives_value_head h
    refine ⟨c, u ++ (w' ++ p), ?_, hc⟩
    simpa using skipWriteBlank_value (p := w' ++ p) h hw
  | @moreValues w t w' ts hw h hw' _ =>
    obtain ⟨c, u, rfl, _, hc⟩ := derives_value_head h
    refine ⟨c, u ++ (w' ++ 0x2C :: ts ++ p), ?_, hc⟩
    simpa using skipWriteBlank_value (p := w' ++ 0x2C :: ts ++ p) h hw

theorem derives_member_head (h : Derives .member t) :
    ∃ u, skipWriteBlank (t ++ p) = 0x22 :: u := by
  cases h with
  | @member w k w₁ w₂ t w₃ hw _ _ _ _ _ =>
    refine ⟨k ++ 0x22 :: w₁ ++ 0x3A :: w₂ ++ t ++ w₃ ++ p, ?_⟩
    simpa using skipWriteBlank_ws (c := 0x22)
      (p := k ++ 0x22 :: w₁ ++ 0x3A :: w₂ ++ t ++ w₃ ++ p) hw (by decide)

theorem derives_members_head (h : Derives .members t) :
    ∃ u, skipWriteBlank (t ++ p) = 0x22 :: u := by
  cases h with
  | oneMember h => exact derives_member_head h
  | moreMembers h _ =>
    rw [List.append_assoc]
    exact derives_member_head h

def IsSeparator (c : UInt8) : Prop := c = 0x2C ∨ c = 0x5D ∨ c = 0x7D

theorem isBlank_separator {c : UInt8} (hc : IsSeparator c) : isBlank c = false := by
  rcases hc with rfl | rfl | rfl <;> rfl

theorem endsNumber_ws {c : UInt8} (hw : IsWs w) (hc : IsSeparator c) :
    EndsNumber (w ++ c :: p) := by
  cases w with
  | nil =>
    refine ⟨c, p, rfl, ?_⟩
    rcases hc with rfl | rfl | rfl <;> decide
  | cons d w =>
    refine ⟨d, w ++ c :: p, rfl, ?_⟩
    rcases hw d List.mem_cons_self with rfl | rfl | rfl | rfl <;> decide

/-- What the parser takes of a text of the grammar. -/
def Takes (strtod : Bytes → Option ν) : Symbol → Bytes → Prop
  | .value, t => ∀ {v q f r}, Reads strtod (.value v) (t ++ q) f r →
      f = false ∧ (EndsNumber q → r = q)
  | .values, t => ∀ {vs q f r}, Reads strtod (.values vs) (t ++ 0x5D :: q) f r →
      f = false ∧ r = q
  | .member, t => ∀ {name v c q f r}, IsSeparator c →
      Reads strtod (.member name v) (skipWriteBlank (t ++ c :: q)) f r →
      f = false ∧ skipWriteBlank r = c :: q
  | .members, t => ∀ {ms q f r}, Reads strtod (.members ms) (skipWriteBlank (t ++ 0x7D :: q)) f r →
      f = false ∧ r = q

theorem Reads.of_quote (h : Reads strtod (.value v) (0x22 :: p) f q) :
    ∃ s, ReadsString p s f q := by
  cases h with
  | string h => exact ⟨_, h⟩
  | number h _ => exact absurd (scanNumber_head h) (by decide)
  | nullLit hp => cases hp
  | trueLit hp => cases hp
  | falseLit hp => cases hp

theorem Reads.of_bracket (h : Reads strtod (.value v) (0x5B :: p) f q) :
    (f = false ∧ skipWriteBlank p = 0x5D :: q) ∨ ∃ vs, Reads strtod (.values vs) p f q := by
  cases h with
  | emptyArray hp => exact .inl ⟨rfl, hp⟩
  | array h => exact .inr ⟨_, h⟩
  | number h _ => exact absurd (scanNumber_head h) (by decide)
  | nullLit hp => cases hp
  | trueLit hp => cases hp
  | falseLit hp => cases hp

theorem Reads.of_brace (h : Reads strtod (.value v) (0x7B :: p) f q) :
    (f = false ∧ skipWriteBlank p = 0x7D :: q) ∨
      ((skipWriteBlank p).head? ≠ some 0x7D ∧
        ∃ ms, Reads strtod (.members ms) (skipWriteBlank p) f q) := by
  cases h with
  | emptyObject hp => exact .inl ⟨rfl, hp⟩
  | object hp h => exact .inr ⟨hp, _, h⟩
  | number h _ => exact absurd (scanNumber_head h) (by decide)
  | nullLit hp => cases hp
  | trueLit hp => cases hp
  | falseLit hp => cases hp

theorem Reads.of_number {c : UInt8} (h : Reads strtod (.value v) (c :: p) f q)
    (hc : c = 0x2D ∨ IsDigit c) : f = false ∧ scanNumber (c :: p) = some (some q) := by
  cases h with
  | number h _ => exact ⟨rfl, h⟩
  | nullLit hp =>
    obtain ⟨rfl, _⟩ := List.cons_eq_cons.1 hp
    exact absurd hc (by decide)
  | trueLit hp =>
    obtain ⟨rfl, _⟩ := List.cons_eq_cons.1 hp
    exact absurd hc (by decide)
  | falseLit hp =>
    obtain ⟨rfl, _⟩ := List.cons_eq_cons.1 hp
    exact absurd hc (by decide)
  | string | emptyArray | array | emptyObject | object => exact absurd hc (by decide)

theorem derives_takes {g : Symbol} (h : Derives g t) : Takes strtod g t := by
  induction h with
  | null =>
    intro v q f r h
    cases h with
    | nullLit hp => exact ⟨rfl, fun _ => (List.append_cancel_left hp).symm⟩
    | number h _ => exact absurd (scanNumber_head h) (by decide)
    | trueLit hp => cases hp
    | falseLit hp => cases hp
  | true =>
    intro v q f r h
    cases h with
    | trueLit hp => exact ⟨rfl, fun _ => (List.append_cancel_left hp).symm⟩
    | number h _ => exact absurd (scanNumber_head h) (by decide)
    | nullLit hp => cases hp
    | falseLit hp => cases hp
  | false =>
    intro v q f r h
    cases h with
    | falseLit hp => exact ⟨rfl, fun _ => (List.append_cancel_left hp).symm⟩
    | number h _ => exact absurd (scanNumber_head h) (by decide)
    | nullLit hp => cases hp
    | trueLit hp => cases hp
  | @number t ht =>
    intro v q f r h
    obtain ⟨c, u, rfl, hc⟩ := ht.head
    rw [List.cons_append] at h
    obtain ⟨rfl, hscan⟩ := h.of_number hc
    refine ⟨rfl, fun hq => ?_⟩
    have hend := scanNumber_complete ht hq
    rw [List.cons_append, hscan] at hend
    exact Option.some.inj (Option.some.inj hend)
  | @string t ht =>
    intro v q f r h
    rw [List.cons_append, List.cons_append, List.append_assoc] at h
    obtain ⟨s, hs⟩ := h.of_quote
    obtain ⟨rfl, rfl⟩ := readsString_chars ht hs
    exact ⟨rfl, fun _ => rfl⟩
  | @emptyArray w hw =>
    intro v q f r h
    rw [List.cons_append, List.cons_append, List.append_assoc] at h
    have hskip : skipWriteBlank (w ++ ([0x5D] ++ q)) = 0x5D :: q := skipWriteBlank_ws hw (by decide)
    rcases h.of_bracket with ⟨rfl, hp⟩ | ⟨vs, hvs⟩
    · rw [hskip] at hp
      exact ⟨rfl, fun _ => (List.cons_eq_cons.1 hp).2.symm⟩
    · have hhead := hvs.values_head
      rw [hskip] at hhead
      exact absurd rfl hhead
  | @array t ht ih =>
    intro v q f r h
    rw [List.cons_append, List.cons_append, List.append_assoc] at h
    rcases h.of_bracket with ⟨rfl, hp⟩ | ⟨vs, hvs⟩
    · obtain ⟨c, u, hcu, hc⟩ := derives_values_head (p := [0x5D] ++ q) ht
      rw [hcu] at hp
      exact absurd (List.cons_eq_cons.1 hp).1 hc
    · obtain ⟨rfl, rfl⟩ := ih hvs
      exact ⟨rfl, fun _ => rfl⟩
  | @emptyObject w hw =>
    intro v q f r h
    rw [List.cons_append, List.cons_append, List.append_assoc] at h
    have hskip : skipWriteBlank (w ++ ([0x7D] ++ q)) = 0x7D :: q := skipWriteBlank_ws hw (by decide)
    rcases h.of_brace with ⟨rfl, hp⟩ | ⟨hhead, _⟩
    · rw [hskip] at hp
      exact ⟨rfl, fun _ => (List.cons_eq_cons.1 hp).2.symm⟩
    · rw [hskip] at hhead
      exact absurd rfl hhead
  | @object t ht ih =>
    intro v q f r h
    rw [List.cons_append, List.cons_append, List.append_assoc] at h
    rcases h.of_brace with ⟨rfl, hp⟩ | ⟨_, ms, hms⟩
    · obtain ⟨u, hu⟩ := derives_members_head (p := [0x7D] ++ q) ht
      rw [hu] at hp
      cases hp
    · obtain ⟨rfl, rfl⟩ := ih hms
      exact ⟨rfl, fun _ => rfl⟩
  | @oneValue w t w' hw ht hw' ih =>
    intro vs q f r h
    have hskip : skipWriteBlank (w ++ t ++ w' ++ 0x5D :: q) = t ++ (w' ++ 0x5D :: q) := by
      simpa using skipWriteBlank_value (p := w' ++ 0x5D :: q) ht hw
    have hend := endsNumber_ws (p := q) hw' (.inr (.inl rfl))
    have hskip' : skipWriteBlank (w' ++ 0x5D :: q) = 0x5D :: q := skipWriteBlank_ws hw' (by decide)
    cases h with
    | oneValue h hr =>
      rw [hskip] at h
      obtain ⟨rfl, hq⟩ := ih h
      rw [hq hend, hskip'] at hr
      exact ⟨rfl, (List.cons_eq_cons.1 hr).2.symm⟩
    | moreValues h hr _ =>
      rw [hskip] at h
      rw [(ih h).2 hend, hskip'] at hr
      cases hr
  | @moreValues w t w' ts hw ht hw' hts ih ihs =>
    intro vs q f r h
    have hskip : skipWriteBlank (w ++ t ++ w' ++ 0x2C :: ts ++ 0x5D :: q) =
        t ++ (w' ++ 0x2C :: (ts ++ 0x5D :: q)) := by
      simpa using skipWriteBlank_value (p := w' ++ 0x2C :: (ts ++ 0x5D :: q)) ht hw
    have hend := endsNumber_ws (p := ts ++ 0x5D :: q) hw' (.inl rfl)
    have hskip' : skipWriteBlank (w' ++ 0x2C :: (ts ++ 0x5D :: q)) = 0x2C :: (ts ++ 0x5D :: q) :=
      skipWriteBlank_ws hw' (by decide)
    cases h with
    | oneValue h hr =>
      rw [hskip] at h
      rw [(ih h).2 hend, hskip'] at hr
      cases hr
    | moreValues h hr hvs =>
      rw [hskip] at h
      obtain ⟨rfl, hq⟩ := ih h
      rw [hq hend, hskip'] at hr
      obtain ⟨_, rfl⟩ := List.cons_eq_cons.1 hr
      obtain ⟨rfl, rfl⟩ := ihs hvs
      exact ⟨rfl, rfl⟩
  | @member w k w₁ w₂ t w₃ hw hk hw₁ hw₂ ht hw₃ ih =>
    intro name v c q f r hc h
    have hskip : skipWriteBlank (w ++ 0x22 :: k ++ 0x22 :: w₁ ++ 0x3A :: w₂ ++ t ++ w₃ ++ c :: q) =
        0x22 :: (k ++ 0x22 :: (w₁ ++ 0x3A :: (w₂ ++ (t ++ (w₃ ++ c :: q))))) := by
      simpa using skipWriteBlank_ws (c := 0x22)
        (p := k ++ 0x22 :: (w₁ ++ 0x3A :: (w₂ ++ (t ++ (w₃ ++ c :: q))))) hw (by decide)
    rw [hskip] at h
    cases h with
    | member hname hr hval =>
      obtain ⟨rfl, rfl⟩ := readsString_chars hk hname
      rw [skipWriteBlank_ws hw₁ (by decide)] at hr
      obtain ⟨_, rfl⟩ := List.cons_eq_cons.1 hr
      rw [skipWriteBlank_value ht hw₂] at hval
      obtain ⟨rfl, hq⟩ := ih hval
      rw [hq (endsNumber_ws hw₃ hc), skipWriteBlank_ws hw₃ (isBlank_separator hc)]
      exact ⟨rfl, rfl⟩
  | @oneMember t ht ih =>
    intro ms q f r h
    cases h with
    | oneMember h hr =>
      obtain ⟨rfl, hq⟩ := ih (.inr (.inr rfl)) h
      rw [hq] at hr
      exact ⟨rfl, (List.cons_eq_cons.1 hr).2.symm⟩
    | comma h hr _ =>
      rw [(ih (.inr (.inr rfl)) h).2] at hr
      cases hr
    | noComma h hr _ hc =>
      rw [(ih (.inr (.inr rfl)) h).2] at hr
      exact absurd (List.cons_eq_cons.1 hr).1.symm hc
  | @moreMembers t ts ht hts ih ihs =>
    intro ms q f r h
    rw [List.append_assoc, List.cons_append] at h
    cases h with
    | oneMember h hr =>
      rw [(ih (.inl rfl) h).2] at hr
      cases hr
    | comma h hr hms =>
      obtain ⟨rfl, hq⟩ := ih (.inl rfl) h
      rw [hq] at hr
      obtain ⟨_, rfl⟩ := List.cons_eq_cons.1 hr
      obtain ⟨rfl, rfl⟩ := ihs hms
      exact ⟨rfl, rfl⟩
    | noComma h hr hc _ =>
      rw [(ih (.inl rfl) h).2] at hr
      exact absurd (List.cons_eq_cons.1 hr).1.symm hc

/-- The parser gets through the text, but takes something on the way that JSON does not have. -/
def Misread (strtod : Bytes → Option ν) (text : Bytes) : Prop :=
  ∃ v q, Reads strtod (.value v) (skipWriteBlank (text ++ [0])) true q

/-- From the start of the text to `q` there is one JSON value, behind white space. -/
def ConsumesJson (text q : Bytes) : Prop :=
  ∃ w t, text ++ [0] = w ++ t ++ q ∧ IsWs w ∧ Derives .value t

theorem Reads.consumesJson {text : Bytes}
    (h : Reads strtod (.value v) (skipWriteBlank (text ++ [0])) false q) : ConsumesJson text q := by
  obtain ⟨t, ht, hd⟩ := h.fits rfl
  obtain ⟨w, hw, hws⟩ := exists_ws_of_eq ht
  exact ⟨w, t, by rw [hw, List.append_assoc], hws, hd⟩

theorem Reads.not_consumesJson {text : Bytes}
    (h : Reads strtod (.value v) (skipWriteBlank (text ++ [0])) true q) : ¬ ConsumesJson text q := by
  rintro ⟨w, t, ht, hw, hd⟩
  rw [ht, List.append_assoc, skipWriteBlank_value hd hw] at h
  exact Bool.noConfusion (derives_takes hd h).1

/-- What is accepted is JSON exactly when the text is not misread. -/
theorem parse_only_json_iff {text : Bytes} (v₀ : Json ν) (ht : text ≠ []) :
    (∀ v q, parse strtod v₀ text = some (true, v, q) → ConsumesJson text q) ↔
      ¬ Misread strtod text := by
  constructor
  · rintro honly ⟨v, q, h⟩
    exact h.not_consumesJson (honly v q ((parse_iff ht).2 ⟨true, h⟩))
  · intro hno v q hparse
    obtain ⟨f, h⟩ := (parse_iff ht).1 hparse
    cases f with
    | false => exact h.consumesJson
    | true => exact absurd ⟨v, q, h⟩ hno

/-- An empty array is not misread. -/
theorem parse_only_json_brackets : ¬ Misread (fun _ => some 0) (str "[]") := by
  refine (parse_only_json_iff .null (by decide)).1 fun v q h => ?_
  obtain ⟨rfl, rfl⟩ : Json.array [] = v ∧ [0] = q := by
    have hp : parse (fun _ => some 0) .null (str "[]") = some (true, .array [], [0]) := rfl
    rw [hp] at h
    simpa using h
  exact ⟨[], str "[]", rfl, by simp [IsWs], .emptyArray (w := []) (by simp [IsWs])⟩

/-- Between two members the comma may be missing. -/
theorem parse_missing_comma : ¬ ∀ text ≠ [], ∀ v q,
    parse (fun _ => some 0) .null text = some (true, v, q) → ConsumesJson text q := by
  intro h
  have ha : Reads (fun _ => some 0) (.member (str "a") (.number 0))
      (str "\"a\":1 \"b\":2\x7d" ++ [0]) false (str " \"b\":2\x7d" ++ [0]) :=
    .member (.char (by decide) (by decide) (by decide) .close) rfl (.number rfl rfl)
  have hb : Reads (fun _ => some 0) (.member (str "b") (.number 0))
      (str "\"b\":2\x7d" ++ [0]) false (str "\x7d" ++ [0]) :=
    .member (.char (by decide) (by decide) (by decide) .close) rfl (.number rfl rfl)
  have hread : Reads (fun _ => some 0)
      (.value (.object (build [(str "a", .number 0), (str "b", .number 0)])))
      (skipWriteBlank (str "\x7b\"a\":1 \"b\":2\x7d" ++ [0])) true [0] :=
    .object (by decide) (.noComma ha rfl (by decide) (by decide) (.oneMember hb rfl))
  have htext : str "\x7b\"a\":1 \"b\":2\x7d" ≠ [] := by decide
  exact hread.not_consumesJson (h _ htext _ _ ((parse_iff htext).2 ⟨true, hread⟩))

end Tadis.Pson
