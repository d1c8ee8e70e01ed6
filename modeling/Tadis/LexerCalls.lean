import Tadis.Lexemes
import Tadis.Transition

/-!
# Sequences of lexer calls

A client of the lexer calls `next`, `peek` and `next_if` in any order. The cursor stays inside the
input, and only closed literals are returned as strings, exactly as long as no call starts at a literal
that is never closed: for such a literal the scan runs to the end of the input, takes the end for the
closing quote and puts the cursor behind it.
-/

namespace Tadis.Lexer

variable (stof : Bytes → Option UInt32) (input : Bytes)

inductive Call
  | next
  | peek
  | nextIf (t : Token)
  deriving DecidableEq, Repr

def Call.parse : Call → Parse (RC × Token)
  | next => Parser.next stof input
  | peek => Parser.peek stof input
  | nextIf t => Parser.nextIf stof input t

/-- Where `internal_next` leaves the cursor when the conversion of a float throws. -/
def thrownAt (p : ℕ) : ℕ :=
  if charAt input (skipBlank input p) = '-'.toUInt8 then skipBlank input p + 1
  else skipBlank input p

/-- What the call returns, `none` when the conversion of a float throws, and the lexer after it. -/
def Call.exec (c : Call) (l : Lexer) : Option (RC × Token) × Lexer :=
  match c.parse stof input l with
  | some (.ok (r, l')) => (some r, l')
  | _ => (none, ⟨thrownAt input l.p, l.curVal⟩)

def after (l : Lexer) (calls : List Call) : Lexer :=
  calls.foldl (fun l c => (c.exec stof input l).2) l

/-- The next token is a literal with characters behind its quote, but none of them closes it. -/
def Unclosed (p : ℕ) : Prop :=
  charAt input (skipBlank input p) = '\''.toUInt8 ∧ skipBlank input p + 1 < input.length ∧
    '\''.toUInt8 ∉ input.drop (skipBlank input p + 1)

/-- The next token is a literal whose closing quote is present. -/
def Closed (p : ℕ) : Prop :=
  charAt input (skipBlank input p) = '\''.toUInt8 ∧
    '\''.toUInt8 ∈ input.drop (skipBlank input p + 1)

variable {stof : Bytes → Option UInt32} {input : Bytes} {p q : ℕ}

section

variable {c : UInt8} {w s : Bytes}

theorem charAt_of_drop (h : input.drop p = c :: s) : charAt input p = c := by
  have hget : input[p]? = some c := by
    rw [← List.head?_drop, h, List.head?_cons]
  rw [charAt, List.getD_eq_getElem?_getD, hget, Option.getD_some]

theorem charAt_of_drop_nil (h : input.drop p = []) : charAt input p = 0 :=
  List.getD_eq_default _ _ (List.drop_eq_nil_iff.1 h)

theorem drop_add (h : input.drop p = w ++ s) : input.drop (p + w.length) = s := by
  rw [← List.drop_drop, h, List.drop_left]

theorem drop_succ (h : input.drop p = c :: s) : input.drop (p + 1) = s := drop_add (w := [c]) h

theorem slice_append (h : input.drop p = w ++ s) : slice input p w.length = w := by
  rw [slice, h, List.take_left]

theorem add_le_length (h : input.drop p = w ++ s) (hp : p ≤ input.length) :
    p + w.length ≤ input.length := by
  have hlen := congrArg List.length h
  rw [List.length_drop, List.length_append] at hlen
  omega

theorem skipWhile_append {f : UInt8 → Bool} (h : input.drop p = w ++ s) (hw : ∀ c ∈ w, f c = true)
    (hs : ∀ c ∈ s.head?, f c = false) : skipWhile input f p = p + w.length := by
  have hrest : s.takeWhile f = [] := by
    cases s with
    | nil => rfl
    | cons c s => exact List.takeWhile_cons_of_neg (by simp [hs c rfl])
  rw [skipWhile, h, List.takeWhile_append_of_pos hw, hrest, List.append_nil]

theorem skipBlank_append (h : input.drop p = w ++ s) (hw : ∀ c ∈ w, c = ' '.toUInt8)
    (hs : ∀ c ∈ s.head?, c ≠ ' '.toUInt8) : skipBlank input p = p + w.length :=
  skipWhile_append h (fun c hc => decide_eq_true (hw c hc)) fun c hc => decide_eq_false (hs c hc)

end

theorem skipWhile_le (f : UInt8 → Bool) (hp : p ≤ input.length) :
    skipWhile input f p ≤ input.length := by
  have hle := (List.takeWhile_sublist f (l := input.drop p)).length_le
  rw [List.length_drop] at hle
  rw [skipWhile]
  omega

theorem skipBlank_le (hp : p ≤ input.length) : skipBlank input p ≤ input.length := skipWhile_le _ hp

theorem lt_length_of_charAt (h : charAt input p ≠ 0) : p < input.length := by
  by_contra hp
  exact h (List.getD_eq_default _ _ (not_lt.1 hp))

theorem parseNum_le {tk : Token} {v : Option Value} (hp : p ≤ input.length)
    (h : parseNum stof input p = some (tk, v, q)) : tk ≠ .stringT ∧ q ≤ input.length := by
  have hstop := skipWhile_le isDigit hp
  unfold parseNum at h
  dsimp only at h
  split_ifs at h with hdot hbad
  · obtain ⟨rfl, -, rfl⟩ := by simpa using h
    exact ⟨by decide, skipWhile_le _ (lt_length_of_charAt (by rw [hdot]; decide))⟩
  · obtain ⟨f, -, h⟩ := Option.map_eq_some_iff.1 h
    obtain ⟨rfl, -, rfl⟩ := by simpa using h
    exact ⟨by decide, skipWhile_le _ (lt_length_of_charAt (by rw [hdot]; decide))⟩
  · obtain ⟨rfl, -, rfl⟩ := by simpa using h
    exact ⟨by decide, hstop⟩

theorem ne_stringT_of_lookup {κ : Type} [BEq κ] [LawfulBEq κ] {table : List (κ × Token)} {k : κ}
    {tk : Token} (ht : ∀ x ∈ table, x.2.hasValue = false) (h : table.lookup k = some tk) :
    tk ≠ .stringT := by
  rintro rfl
  exact Bool.noConfusion (hasValue_of_lookup ht h)

theorem scanId_le (hp : p ≤ input.length) :
    (scanId input p).2.1 ≠ .stringT ∧ (scanId input p).2.2.2 ≤ input.length := by
  have hle := skipWhile_le isIdPart hp
  unfold scanId
  dsimp only
  split
  · exact ⟨ne_stringT_of_lookup (by decide) ‹List.lookup _ specToken = some _›, hle⟩
  · exact ⟨by simp, hle⟩

/-- Only the scan of a literal returns a string, and only there the cursor may leave the input. -/
theorem scan_string_or_le {r : RC × Token × Option Value × ℕ} (hp : p ≤ input.length)
    (h : scan stof input p = some r) :
    (charAt input (skipBlank input p) = '\''.toUInt8 ∧ r = scanString input (skipBlank input p)) ∨
      (r.2.1 ≠ .stringT ∧ r.2.2.2 ≤ input.length) := by
  have hle := skipBlank_le hp
  by_cases hend : input.length ≤ skipBlank input p
  · rw [scan, if_pos hend] at h
    cases h
    exact .inr ⟨by simp, hle⟩
  · have hlt : skipBlank input p + 1 ≤ input.length := by omega
    rw [scan, if_neg hend] at h
    split_ifs at h with hid hzero hdigit hminus hnum hsmaller hne hquote
    · cases h
      exact .inr (scanId_le hle)
    · cases h
      exact .inr ⟨by simp, hle⟩
    · obtain ⟨⟨tk, v, q⟩, hnum, rfl⟩ := Option.map_eq_some_iff.1 h
      exact .inr (parseNum_le hle hnum)
    · obtain ⟨⟨tk, v, q⟩, hnum, rfl⟩ := Option.map_eq_some_iff.1 h
      exact .inr (parseNum_le hlt hnum)
    · cases h
      exact .inr ⟨by simp, hlt⟩
    · cases h
      exact .inr ⟨by simp, lt_length_of_charAt (by rw [hne]; decide)⟩
    · cases h
      exact .inr ⟨by simp, hlt⟩
    · cases h
      exact .inl ⟨hquote, rfl⟩
    · split at h
      · cases h
        exact .inr ⟨ne_stringT_of_lookup (by decide) ‹List.lookup _ symbols = some _›, hlt⟩
      · cases h
        exact .inr ⟨by simp, hle⟩

theorem scanString_closed {w s : Bytes} (h : input.drop (p + 1) = w ++ '\''.toUInt8 :: s)
    (hw : '\''.toUInt8 ∉ w) (hne : w ≠ []) :
    scanString input p = (.success, .stringT, some (.string w), p + 1 + w.length + 1) := by
  have hstop : skipWhile input (· ≠ '\''.toUInt8) (p + 1) = p + 1 + w.length := by
    refine skipWhile_append h (fun c hc => decide_eq_true ?_) fun c hc => ?_
    · rintro rfl
      exact hw hc
    · obtain rfl : '\''.toUInt8 = c := Option.some.inj hc
      exact decide_eq_false (fun hno => hno rfl)
  have hpos := List.length_pos_of_ne_nil hne
  have hslice := slice_append h
  rw [scanString, hstop]
  rw [if_neg (by omega), show p + 1 + w.length - p - 1 = w.length by omega, hslice]

/-- A literal that is not closed is scanned up to the end of the input, and the end is skipped. -/
theorem scanString_unclosed (hp : p + 1 < input.length) (h : '\''.toUInt8 ∉ input.drop (p + 1)) :
    scanString input p =
      (.success, .stringT, some (.string (input.drop (p + 1))), input.length + 1) := by
  have hstop : skipWhile input (· ≠ '\''.toUInt8) (p + 1) = p + 1 + (input.drop (p + 1)).length := by
    refine skipWhile_append (List.append_nil _).symm (fun c hc => decide_eq_true ?_) (by simp)
    rintro rfl
    exact h hc
  have hlen : p + 1 + (input.drop (p + 1)).length = input.length := by
    rw [List.length_drop]
    omega
  rw [hlen] at hstop
  rw [scanString, hstop]
  rw [if_neg (by omega), slice, List.take_of_length_le (by rw [List.length_drop]; omega)]

/-- At a quote the scan returns a string that is closed, or nothing, or it leaves the input. -/
theorem scanString_cases (hp : p < input.length) :
    (scanString input p).2.1 = .badExpr ∧ (scanString input p).2.2.2 ≤ input.length ∨
      '\''.toUInt8 ∈ input.drop (p + 1) ∧ (scanString input p).2.2.2 ≤ input.length ∨
      p + 1 < input.length ∧ '\''.toUInt8 ∉ input.drop (p + 1) := by
  by_cases hmem : '\''.toUInt8 ∈ input.drop (p + 1)
  · obtain ⟨w, s, hdrop, hw⟩ := List.eq_append_cons_of_mem hmem
    by_cases hne : w = []
    · subst hne
      have hstop : skipWhile input (· ≠ '\''.toUInt8) (p + 1) = p + 1 := by
        refine skipWhile_append (w := []) hdrop (by simp) fun c hc => ?_
        obtain rfl : '\''.toUInt8 = c := Option.some.inj hc
        exact decide_eq_false (fun hno => hno rfl)
      rw [scanString, hstop, if_pos rfl]
      exact .inl ⟨rfl, hp.le⟩
    · have hlen := add_le_length (w := w ++ ['\''.toUInt8]) (by simpa using hdrop) hp
      rw [List.length_append, List.length_singleton] at hlen
      rw [scanString_closed hdrop hw hne]
      exact .inr (.inl ⟨hmem, hlen⟩)
  · by_cases hlast : p + 1 < input.length
    · exact .inr (.inr ⟨hlast, hmem⟩)
    · have hnil : input.drop (p + 1) = [] := List.drop_eq_nil_iff.2 (by omega)
      have hstop : skipWhile input (· ≠ '\''.toUInt8) (p + 1) = p + 1 :=
        skipWhile_append (w := []) (s := []) hnil (by simp) (by simp)
      rw [scanString, hstop, if_pos rfl]
      exact .inl ⟨rfl, hp.le⟩

variable {c : Call} {l : Lexer}

theorem exec_of_scan_none (h : scan stof input l.p = none) :
    c.exec stof input l = (none, ⟨thrownAt input l.p, l.curVal⟩) := by
  have hparse : c.parse stof input l = none := by
    cases c <;> simp [Call.parse, Parser.next, Parser.peek, Parser.nextIf, internalNext, h]
  rw [Call.exec, hparse]

/-- Every call returns the token that is scanned, and moves on behind it or stays. -/
theorem exec_of_scan {rc : RC} {tk : Token} {v : Option Value}
    (h : scan stof input l.p = some (rc, tk, v, q)) :
    ∃ rc', (c.exec stof input l).1 = some (rc', tk) ∧
      ((c.exec stof input l).2.p = q ∨ (c.exec stof input l).2.p = l.p) := by
  have hnext : l.internalNext stof input = some ((rc, tk), ⟨q, v.getD l.curVal⟩) := by
    rw [internalNext, h, Option.map_some]
  cases c with
  | next => exact ⟨rc, by simp [Call.exec, Call.parse, Parser.next, hnext]⟩
  | peek => exact ⟨rc, by simp [Call.exec, Call.parse, Parser.peek, hnext]⟩
  | nextIf t =>
    by_cases ht : tk = t
    · exact ⟨.success, by simp [Call.exec, Call.parse, Parser.nextIf, hnext, ht]⟩
    · exact ⟨.syntaxError, by simp [Call.exec, Call.parse, Parser.nextIf, hnext, ht]⟩

theorem thrownAt_le (hp : p ≤ input.length) : thrownAt input p ≤ input.length := by
  unfold thrownAt
  split_ifs with hminus
  · exact lt_length_of_charAt (by rw [hminus]; decide)
  · exact skipBlank_le hp

/-- A call that does not start at an unclosed literal keeps the cursor inside the input. -/
theorem exec_le (hp : l.p ≤ input.length) (hu : ¬ Unclosed input l.p) :
    (c.exec stof input l).2.p ≤ input.length := by
  cases hs : scan stof input l.p with
  | none =>
    rw [exec_of_scan_none hs]
    exact thrownAt_le hp
  | some r =>
    obtain ⟨rc, tk, v, q⟩ := r
    obtain ⟨_, _, hq | hq⟩ := exec_of_scan (c := c) hs
    · rw [hq]
      rcases scan_string_or_le hp hs with ⟨hquote, hr⟩ | ⟨_, hle⟩
      · have hlt := lt_length_of_charAt (by rw [hquote]; decide)
        rcases scanString_cases hlt with ⟨_, hle⟩ | ⟨_, hle⟩ | hopen
        · rwa [← hr] at hle
        · rwa [← hr] at hle
        · exact absurd ⟨hquote, hopen⟩ hu
      · exact hle
    · rw [hq]
      exact hp

theorem closed_of_exec {rc : RC} (hp : l.p ≤ input.length) (hu : ¬ Unclosed input l.p)
    (h : (c.exec stof input l).1 = some (rc, .stringT)) : Closed input l.p := by
  cases hs : scan stof input l.p with
  | none =>
    rw [exec_of_scan_none hs] at h
    cases h
  | some r =>
    obtain ⟨rc', tk, v, q⟩ := r
    obtain ⟨_, htk, _⟩ := exec_of_scan (c := c) hs
    obtain rfl : tk = .stringT := by
      rw [h] at htk
      exact (congrArg Prod.snd (Option.some.inj htk)).symm
    rcases scan_string_or_le hp hs with ⟨hquote, hr⟩ | ⟨hne, _⟩
    · have hlt := lt_length_of_charAt (by rw [hquote]; decide)
      rcases scanString_cases hlt with ⟨hbad, _⟩ | ⟨hmem, _⟩ | hopen
      · rw [← hr] at hbad
        cases hbad
      · exact ⟨hquote, hmem⟩
      · exact absurd ⟨hquote, hopen⟩ hu
    · exact absurd rfl hne

variable (stof) in
theorem scan_quote (hquote : charAt input (skipBlank input p) = '\''.toUInt8) :
    scan stof input p = some (scanString input (skipBlank input p)) := by
  have hlt := lt_length_of_charAt (p := skipBlank input p) (by rw [hquote]; decide)
  rw [scan, if_neg (by omega), hquote, if_neg (by decide), if_neg (fun h => absurd h.1 (by decide)),
    if_neg (by decide), if_neg (by decide), if_neg (by decide), if_pos rfl]

variable (stof) in
theorem exec_unclosed (c : Call) (hu : Unclosed input l.p) :
    ∃ rc, (c.exec stof input l).1 = some (rc, .stringT) := by
  obtain ⟨hquote, hlast, hmem⟩ := hu
  have hs := scan_quote stof hquote
  rw [scanString_unclosed hlast hmem] at hs
  obtain ⟨rc, hrc, _⟩ := exec_of_scan (c := c) hs
  exact ⟨rc, hrc⟩

/-- The cursor is inside the input after every call, and every string is a closed literal. -/
structure StaysInside (stof : Bytes → Option UInt32) (input : Bytes) (l : Lexer)
    (calls : List Call) : Prop where
  le : ∀ pre, pre <+: calls → (after stof input l pre).p ≤ input.length
  closed : ∀ pre c rc, pre ++ [c] <+: calls →
    (c.exec stof input (after stof input l pre)).1 = some (rc, .stringT) →
      Closed input (after stof input l pre).p

/-- A client stays inside the input exactly when none of its calls starts at an unclosed literal. -/
theorem staysInside_iff (stof : Bytes → Option UInt32) (input : Bytes) (v : Value)
    (calls : List Call) :
    StaysInside stof input ⟨0, v⟩ calls ↔
      ∀ pre c, pre ++ [c] <+: calls → ¬ Unclosed input (after stof input ⟨0, v⟩ pre).p := by
  constructor
  · rintro h pre c hpre hu
    obtain ⟨rc, hrc⟩ := exec_unclosed stof c hu
    exact hu.2.2 (h.closed pre c rc hpre hrc).2
  · intro hu
    have hle : ∀ pre, pre <+: calls → (after stof input ⟨0, v⟩ pre).p ≤ input.length :=
      Transition.invariant_foldl (I := fun l : Lexer => l.p ≤ input.length)
        (Q := fun l (_ : Call) => ¬ Unclosed input l.p) (fun _ _ => exec_le) (Nat.zero_le _) hu
    refine ⟨hle, fun pre c rc hpre hrc => ?_⟩
    exact closed_of_exec (hle pre ((List.prefix_append pre [c]).trans hpre)) (hu pre c hpre) hrc

/-- The literal `'a` is never closed, and the cursor ends up behind the two bytes of the input. -/
theorem unclosed_leaves_input : ¬ ∀ (stof : Bytes → Option UInt32) (input : Bytes) (v : Value)
    (calls : List Call), StaysInside stof input ⟨0, v⟩ calls := by
  intro h
  have hle := (h (fun _ => none) (str "'a") .undefined [.next]).le [.next] List.prefix_rfl
  exact absurd hle (by decide)

end Tadis.Lexer
