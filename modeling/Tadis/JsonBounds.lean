import Tadis.JsonDoubles
import Tadis.JsonReading

/-!
# Parsing stays in bounds

On every buffer the parser comes to an end and reads nothing behind the terminating NUL. What the
proofs use is that the cursor always has the NUL at its end: a run of digits stops at it at the latest,
a string ends where the offset has reached the size, and every round of a loop consumes a byte.
-/

namespace Tadis.Pson

variable {ν : Type} {strtod : Bytes → Option ν} {p q : Bytes} {fuel : ℕ}

theorem Terminated.skipDigits (h : Terminated p) :
    ∃ q, skipDigits p = some q ∧ Terminated q := by
  induction p with
  | nil => exact absurd rfl h.ne_nil
  | cons c p ih =>
    by_cases hc : isDigit c = true
    · rw [Pson.skipDigits, if_pos hc]
      refine ih (h.tail ?_)
      rintro rfl
      exact absurd hc (by decide)
    · rw [Pson.skipDigits, if_neg hc]
      exact ⟨c :: p, rfl, h⟩

/-- The scan ends, before the NUL where it finds something. -/
def Stops (r : Option (Option Bytes)) : Prop := ∃ x, r = some x ∧ ∀ q, x = some q → Terminated q

theorem stops_none : Stops (some none) := ⟨none, rfl, fun _ h => by cases h⟩

theorem stops_some (h : Terminated q) : Stops (some (some q)) :=
  ⟨some q, rfl, fun _ hq => Option.some.inj hq ▸ h⟩

theorem Terminated.scanDigits (h : Terminated p) : Stops (scanDigits p) := by
  cases p with
  | nil => exact absurd rfl h.ne_nil
  | cons c p =>
    rw [Pson.scanDigits]
    split_ifs with hc
    · have hp : Terminated p := h.tail (by rintro rfl; exact absurd hc (by decide))
      obtain ⟨q, hq, hterm⟩ := hp.skipDigits
      rw [hq]
      exact stops_some hterm
    · exact stops_none

theorem Terminated.scanSign (h : Terminated p) : ∃ q, scanSign p = some q ∧ Terminated q := by
  cases p with
  | nil => exact absurd rfl h.ne_nil
  | cons c p =>
    rw [Pson.scanSign]
    split_ifs with hc
    · exact ⟨p, rfl, h.tail (by rintro rfl; exact absurd hc (by decide))⟩
    · exact ⟨c :: p, rfl, h⟩

theorem Terminated.scanExp (h : Terminated p) : Stops (scanExp p) := by
  cases p with
  | nil => exact absurd rfl h.ne_nil
  | cons c p =>
    rw [Pson.scanExp]
    split_ifs with hc
    · have hp : Terminated p := h.tail (by rintro rfl; exact absurd hc (by decide))
      obtain ⟨q, hq, hterm⟩ := hp.scanSign
      rw [hq]
      exact hterm.scanDigits
    · exact stops_some h

theorem Terminated.scanFrac (h : Terminated p) : Stops (scanFrac p) := by
  cases p with
  | nil => exact absurd rfl h.ne_nil
  | cons c p =>
    rw [Pson.scanFrac]
    split_ifs with hc
    · have hp : Terminated p := h.tail (by rintro rfl; exact absurd hc (by decide))
      obtain ⟨_ | q, hq, hterm⟩ := hp.scanDigits
      · rw [hq]
        exact stops_none
      · rw [hq]
        exact (hterm q rfl).scanExp
    · exact h.scanExp

theorem Terminated.scanInt (h : Terminated p) : Stops (scanInt p) := by
  cases p with
  | nil => exact absurd rfl h.ne_nil
  | cons c p =>
    rw [Pson.scanInt]
    split_ifs with hz hc
    · exact stops_some (h.tail (by rintro rfl; exact absurd hz (by decide)))
    · have hp : Terminated p := h.tail (by rintro rfl; exact absurd hc (by decide))
      obtain ⟨q, hq, hterm⟩ := hp.skipDigits
      rw [hq]
      exact stops_some hterm
    · exact stops_none

theorem Terminated.scanNumber (h : Terminated p) : Stops (scanNumber p) := by
  cases p with
  | nil => exact absurd rfl h.ne_nil
  | cons c p =>
    have hsign : Terminated (if c = '-'.toUInt8 then p else c :: p) := by
      split_ifs with hc
      · exact h.tail (by rintro rfl; exact absurd hc (by decide))
      · exact h
    rw [Pson.scanNumber]
    obtain ⟨_ | q, hq, hterm⟩ := hsign.scanInt
    · rw [hq]
      exact stops_none
    · rw [hq]
      exact (hterm q rfl).scanFrac

theorem Terminated.parseNumber (h : Terminated p) (v : Json ν) :
    ∃ r, parseNumber strtod v p = some r := by
  obtain ⟨x, hx, _⟩ := h.scanNumber
  rw [Pson.parseNumber, hx]
  exact ⟨_, rfl⟩

/-- Every round of the loop consumes a byte, also where the cursor leaves the buffer. -/
theorem exists_stringRow (acc : Bytes) (h : p.length < fuel) :
    ∃ r, stringRow fuel acc p = some r := by
  induction fuel generalizing acc p with
  | zero => omega
  | succ fuel ih =>
    cases p with
    | nil => exact ⟨_, rfl⟩
    | cons c p =>
      rw [List.length_cons] at h
      rw [stringRow]
      split_ifs with hend hq h0 hb
      · exact ⟨_, rfl⟩
      · exact ⟨_, rfl⟩
      · exact ⟨_, rfl⟩
      · subst hb
        rw [parseEscape_backslash]
        have hle := List.length_tail (l := p)
        exact ih _ (by omega)
      · exact ih _ (by omega)

theorem exists_parseStringRow_result (c : UInt8) (p : Bytes) :
    ∃ r, parseStringRow (c :: p) = some r := exists_stringRow [] (Nat.lt_succ_self _)

/-- The parse functions return on what has the NUL at its end, with fuel for every byte. -/
structure Returns (strtod : Bytes → Option ν) (fuel : ℕ) : Prop where
  value : ∀ v p, Terminated p → 2 * p.length ≤ fuel → ∃ r, parseValue strtod fuel v p = some r
  values : ∀ acc p, Terminated p → 2 * p.length < fuel →
    ∃ r, parseArrayFrom strtod fuel acc p = some r
  members : ∀ acc p, Terminated p → 2 * p.length < fuel →
    ∃ r, parseObjectFrom strtod fuel acc p = some r

theorem Returns.value_succ (hr : Returns strtod fuel) (v : Json ν) (h : Terminated p)
    (hfuel : 2 * p.length ≤ fuel + 1) : ∃ r, parseValue strtod (fuel + 1) v p = some r := by
  cases p with
  | nil => exact absurd rfl h.ne_nil
  | cons c p =>
    rw [List.length_cons] at hfuel
    have hle := length_skipWriteBlank p
    refine parseValue_cases (P := fun r => ∃ x, r = some x) fuel v c p (fun _ => ⟨_, rfl⟩)
      (fun _ => ⟨_, rfl⟩) (fun _ => ⟨_, rfl⟩) ?_ ⟨_, rfl⟩ (fun _ _ => ⟨_, rfl⟩) ?_
      (fun _ _ => ⟨_, rfl⟩) ?_ (h.parseNumber v)
    · intro _
      obtain ⟨s, hs⟩ := exists_parseStringRow_result c p
      rw [parseString, hs]
      exact ⟨_, rfl⟩
    · rintro rfl
      exact hr.values [] _ (h.tail (by decide)).skip (by omega)
    · rintro rfl _
      exact hr.members [] _ (h.tail (by decide)).skip (by omega)

/-- A value that has been read leaves a shorter buffer with the NUL at its end. -/
theorem moves_of_parseValue {v₀ v : Json ν} (h : parseValue strtod fuel v₀ p = some (true, v, q))
    (hp : Terminated p) : Terminated q ∧ q.length < p.length := by
  obtain ⟨f, hread⟩ := (sound strtod fuel).value h
  exact hread.moves hp

theorem Returns.values_succ (hr : Returns strtod fuel) (acc : List (Json ν)) (h : Terminated p)
    (hfuel : 2 * p.length < fuel + 1) : ∃ r, parseArrayFrom strtod (fuel + 1) acc p = some r := by
  have hle := length_skipWriteBlank p
  obtain ⟨⟨ok, v, q⟩, hval⟩ := hr.value .null _ h.skip (by omega)
  rw [parseArrayFrom, hval]
  cases ok with
  | false => exact ⟨_, rfl⟩
  | true =>
    obtain ⟨hq, hlt⟩ := moves_of_parseValue hval h.skip
    obtain ⟨c, q', hcq⟩ := List.exists_cons_of_ne_nil hq.skip.ne_nil
    have hshort := length_behind hcq
    dsimp only
    rw [hcq]
    dsimp only
    split_ifs with hcomma hclose
    · exact hr.values _ q' (hq.behind hcq (by rw [hcomma]; decide)) (by omega)
    · exact ⟨_, rfl⟩
    · exact ⟨_, rfl⟩

theorem Returns.members_succ (hr : Returns strtod fuel) (acc : List (Bytes × Json ν))
    (h : Terminated p) (hfuel : 2 * p.length < fuel + 1) :
    ∃ r, parseObjectFrom strtod (fuel + 1) acc p = some r := by
  cases p with
  | nil => exact absurd rfl h.ne_nil
  | cons c p =>
    rw [List.length_cons] at hfuel
    obtain ⟨⟨ok, name, q⟩, hname⟩ := exists_parseStringRow_result c p
    rw [parseObjectFrom, hname]
    cases ok with
    | false => exact ⟨_, rfl⟩
    | true =>
      obtain ⟨f, hread⟩ := parseStringRow_sound hname
      have hq := hread.terminated (h.suffix ⟨[c], rfl⟩ hread.ne_nil)
      obtain ⟨t, ht⟩ := hread.consumes
      have hshort : q.length < p.length := by simp [ht]; omega
      obtain ⟨d, q', hdq⟩ := List.exists_cons_of_ne_nil hq.skip.ne_nil
      have hlt := length_behind hdq
      dsimp only
      rw [hdq]
      dsimp only
      split_ifs with hcolon
      · exact ⟨_, rfl⟩
      · have hq' := hq.behind hdq (by rw [not_not.1 hcolon]; decide)
        have hle := length_skipWriteBlank q'
        obtain ⟨⟨ok, v, r⟩, hval⟩ := hr.value .null _ hq'.skip (by omega)
        rw [hval]
        cases ok with
        | false => exact ⟨_, rfl⟩
        | true =>
          obtain ⟨hterm, hmoved⟩ := moves_of_parseValue hval hq'.skip
          have hskip := hterm.skip
          obtain ⟨e, r', her⟩ := List.exists_cons_of_ne_nil hskip.ne_nil
          have hbehind := length_behind her
          dsimp only
          rw [her]
          dsimp only
          rw [her] at hskip
          split_ifs with hcomma hclose hend
          · have hr' := hskip.tail (by rw [hcomma]; decide)
            have hle' := length_skipWriteBlank r'
            exact hr.members _ _ hr'.skip (by omega)
          · exact ⟨_, rfl⟩
          · exact ⟨_, rfl⟩
          · exact hr.members _ _ hskip (by rw [List.length_cons]; omega)

theorem returns (strtod : Bytes → Option ν) (fuel : ℕ) : Returns strtod fuel := by
  induction fuel with
  | zero =>
    refine ⟨fun v p h hfuel => ?_, fun _ _ _ h => absurd h (Nat.not_lt_zero _),
      fun _ _ _ h => absurd h (Nat.not_lt_zero _)⟩
    exact absurd (List.length_eq_zero_iff.1 (by omega)) h.ne_nil
  | succ fuel ih => exact ⟨fun v _ => ih.value_succ v, fun acc _ => ih.values_succ acc,
      fun acc _ => ih.members_succ acc⟩

theorem skip_suffix {c : UInt8} (h : skipWriteBlank p = c :: q) : q <:+ p :=
  (List.suffix_cons c q).trans (h ▸ List.dropWhile_suffix _)

theorem ReadsString.suffix {s : Bytes} {f : Bool} (h : ReadsString p s f q) : q <:+ p := by
  obtain ⟨t, rfl⟩ := h.consumes
  exact (List.suffix_cons _ q).trans (List.suffix_append t _)

theorem Reads.suffix {g : Goal ν} {f : Bool} (h : Reads strtod g p f q) : q <:+ p := by
  induction h with
  | nullLit hp | trueLit hp | falseLit hp => exact ⟨_, hp.symm⟩
  | number h _ =>
    obtain ⟨t, rfl, _⟩ := scanNumber_sound h
    exact List.suffix_append t _
  | string h => exact h.suffix.trans (List.suffix_cons _ _)
  | emptyArray hp | emptyObject hp => exact (skip_suffix hp).trans (List.suffix_cons _ _)
  | array _ ih => exact ih.trans (List.suffix_cons _ _)
  | object _ _ ih =>
    exact (ih.trans (List.dropWhile_suffix _)).trans (List.suffix_cons _ _)
  | oneValue _ hq ih => exact ((skip_suffix hq).trans ih).trans (List.dropWhile_suffix _)
  | moreValues _ hq _ ih ihs =>
    exact ((ihs.trans (skip_suffix hq)).trans ih).trans (List.dropWhile_suffix _)
  | member hname hq _ ih =>
    have hrest := (ih.trans (List.dropWhile_suffix _)).trans (skip_suffix hq)
    exact (hrest.trans hname.suffix).trans (List.suffix_cons _ _)
  | oneMember _ hq ih => exact (skip_suffix hq).trans ih
  | comma _ hq _ ih ihs =>
    exact ((ihs.trans (List.dropWhile_suffix _)).trans (skip_suffix hq)).trans ih
  | noComma _ hq _ _ _ ih ihs => exact (ihs.trans (hq ▸ List.dropWhile_suffix _)).trans ih

/-- `Parser::Parse` of the text into the value `v`, from `offset` on. -/
def parseFrom (strtod : Bytes → Option ν) (text : Bytes) (offset : ℕ) (v : Json ν) :
    Option (Outcome (Json ν)) :=
  if text = [] then some (true, .null, [0].drop offset)
  else parseValue strtod (2 * text.length + 2) v (skipWriteBlank ((text ++ [0]).drop offset))

theorem parseFrom_zero (text : Bytes) (v : Json ν) : parseFrom strtod text 0 v = parse strtod v text :=
  rfl

theorem terminated_drop {text : Bytes} {offset : ℕ} (h : offset ≤ text.length) :
    Terminated ((text ++ [0]).drop offset) := by
  have hterm : Terminated (text ++ [0]) := by simp [Terminated]
  refine hterm.suffix ⟨_, (List.take_append_drop offset _).symm⟩ ?_
  rw [Ne, List.drop_eq_nil_iff, List.length_append, List.length_singleton]
  omega

/-- Parsing from any offset of any text returns, without a read behind the NUL. Where something has
been parsed, the offset has moved on and is at most the size. -/
theorem parse_in_bounds (strtod : Bytes → Option ν) (text : Bytes) {offset : ℕ}
    (h : offset ≤ text.length) (v₀ : Json ν) :
    ∃ ok v q, parseFrom strtod text offset v₀ = some (ok, v, q) ∧
      (ok = true → text ≠ [] →
        ∃ offset', offset < offset' ∧ offset' ≤ text.length ∧ q = (text ++ [0]).drop offset') := by
  by_cases ht : text = []
  · rw [parseFrom, if_pos ht]
    exact ⟨_, _, _, rfl, fun _ hne => absurd ht hne⟩
  · have hterm := terminated_drop h
    have hle := length_skipWriteBlank ((text ++ [0]).drop offset)
    have hlen : ((text ++ [0]).drop offset).length = text.length + 1 - offset := by simp
    obtain ⟨⟨ok, v, q⟩, hr⟩ := (returns strtod (2 * text.length + 2)).value v₀ _ hterm.skip (by omega)
    rw [parseFrom, if_neg ht]
    refine ⟨ok, v, q, hr, ?_⟩
    rintro rfl _
    obtain ⟨f, hread⟩ := (sound strtod _).value hr
    obtain ⟨hq, hlt⟩ := hread.moves hterm.skip
    have hsuffix : q <:+ text ++ [0] :=
      (hread.suffix.trans (List.dropWhile_suffix _)).trans (List.drop_suffix _ _)
    have hpos := List.length_pos_of_ne_nil hq.ne_nil
    have hrest := List.suffix_iff_eq_drop.1 hsuffix
    rw [List.length_append, List.length_singleton] at hrest
    exact ⟨text.length + 1 - q.length, by omega, by omega, hrest⟩

theorem parse_in_bounds_open :
    ∃ ok v q, parseFrom readDouble (str "[1") 0 .null = some (ok, v, q) ∧
      (ok = true → str "[1" ≠ [] → ∃ offset', 0 < offset' ∧ offset' ≤ (str "[1").length ∧
        q = (str "[1" ++ [0]).drop offset') :=
  parse_in_bounds readDouble (str "[1") (Nat.zero_le _) .null

end Tadis.Pson
