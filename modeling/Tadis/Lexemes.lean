import Mathlib.Data.List.TakeWhile
import Tadis.Parser

/-!
# Lexemes

A token together with its value. `lexeme` reads the tokens that `next` delivers with `SUCCESS`; the
primitives of the parser are described by it.
-/

namespace Tadis

inductive Lexeme
  | id (name : Bytes)
  | integer (n : Int64)
  | float (f : UInt32)
  | string (s : Bytes)
  | sym (t : Token)
  deriving DecidableEq, Repr

namespace Lexeme

def token : Lexeme → Token
  | id _ => .idT
  | integer _ => .integerT
  | float _ => .floatT
  | string _ => .stringT
  | sym t => t

/-- What is stored in `cur_val_`. -/
def val : Lexeme → Option Value
  | id name => some (.string name)
  | integer n => some (.ints n)
  | float f => some (.floats f)
  | string s => some (.string s)
  | sym _ => none

def ofScan : Token → Option Value → Lexeme
  | .idT, some (.string s) => id s
  | .integerT, some (.ints n) => integer n
  | .floatT, some (.floats f) => float f
  | .stringT, some (.string s) => string s
  | t, _ => sym t

end Lexeme

def Token.hasValue (t : Token) : Bool := t = .idT ∨ t = .integerT ∨ t = .floatT ∨ t = .stringT

namespace Lexer

variable (stof : Bytes → Option UInt32) (input : Bytes)

/-- The next lexeme and the position behind it, or the code of a failure. -/
def lexeme (p : ℕ) : Option (Except RC (Lexeme × ℕ)) :=
  (scan stof input p).map
    (fun r => if r.1 = .success then .ok (Lexeme.ofScan r.2.1 r.2.2.1, r.2.2.2) else .error r.1)

variable {stof : Bytes → Option UInt32} {input : Bytes} {p q : ℕ}

theorem le_skipWhile (input : Bytes) (f : UInt8 → Bool) (p : ℕ) : p ≤ skipWhile input f p :=
  Nat.le_add_right _ _

theorem lt_skipWhile {f : UInt8 → Bool} (hp : p < input.length) (hf : f (charAt input p) = true) :
    p < skipWhile input f p := by
  rw [skipWhile, List.drop_eq_getElem_cons hp, List.takeWhile_cons_of_pos]
  · simp
  · rwa [charAt, List.getD_eq_getElem _ _ hp] at hf

/-- A token comes with a value of its kind. -/
def Matching (tk : Token) (v : Option Value) : Prop :=
  (Lexeme.ofScan tk v).token = tk ∧ (Lexeme.ofScan tk v).val = v ∧ v.isSome = tk.hasValue

theorem matching_none {tk : Token} (h : tk.hasValue = false) : Matching tk none := by
  cases tk <;> exact ⟨rfl, rfl, h.symm⟩

theorem parseNum_cases {tk : Token} {v : Option Value} (h : parseNum stof input p = some (tk, v, q)) :
    skipWhile input isDigit p ≤ q ∧ Matching tk v ∧ Matching tk (v.map negate) := by
  unfold parseNum at h
  dsimp only at h
  have hle := le_skipWhile input isDigit (skipWhile input isDigit p + 1)
  split_ifs at h
  · obtain ⟨rfl, rfl, rfl⟩ := by simpa using h
    exact ⟨by omega, matching_none rfl, matching_none rfl⟩
  · obtain ⟨f, _, h⟩ := Option.map_eq_some_iff.1 h
    obtain ⟨rfl, rfl, rfl⟩ := by simpa using h
    exact ⟨by omega, ⟨rfl, rfl, rfl⟩, rfl, rfl, rfl⟩
  · obtain ⟨rfl, rfl, rfl⟩ := by simpa using h
    exact ⟨le_rfl, ⟨rfl, rfl, rfl⟩, rfl, rfl, rfl⟩

theorem hasValue_of_lookup {κ : Type} [BEq κ] [LawfulBEq κ] {table : List (κ × Token)} {k : κ}
    {tk : Token} (ht : ∀ x ∈ table, x.2.hasValue = false) (h : table.lookup k = some tk) :
    tk.hasValue = false := by
  obtain ⟨before, after, rfl, _⟩ := List.lookup_eq_some_iff.1 h
  exact ht (k, tk) (by simp)

/-- A scan fails with `BAD_EXPR` or moves on behind a lexeme. -/
def Delivers (p : ℕ) (r : RC × Token × Option Value × ℕ) : Prop :=
  (r.1 = .syntaxError ∧ r.2.1 = .badExpr) ∨
    (r.1 = .success ∧ Matching r.2.1 r.2.2.1 ∧ p < r.2.2.2)

theorem delivers_scanNum {r : RC × Token × Option Value × ℕ} (hp : p < input.length)
    (hd : isDigit (charAt input p) = true) (h : scanNum stof input p = some r) : Delivers p r := by
  obtain ⟨⟨tk, v, q⟩, hnum, rfl⟩ := Option.map_eq_some_iff.1 h
  obtain ⟨hle, hm, _⟩ := parseNum_cases hnum
  have hlt := lt_skipWhile hp hd
  by_cases hbad : tk = .badExpr
  · exact .inl ⟨by simp [hbad], hbad⟩
  · exact .inr ⟨by simp [hbad], hm, hlt.trans_le hle⟩

theorem delivers_scanId (hp : p < input.length) (hd : isIdStart (charAt input p) = true) :
    Delivers p (scanId input p) := by
  have hlt : p < skipWhile input isIdPart p := lt_skipWhile hp (by simp [isIdPart, hd])
  unfold scanId
  dsimp only
  split
  · have hkey := hasValue_of_lookup (by decide) ‹List.lookup _ specToken = some _›
    exact .inr ⟨rfl, matching_none hkey, hlt⟩
  · exact .inr ⟨rfl, ⟨rfl, rfl, rfl⟩, hlt⟩

theorem delivers_scanString : Delivers p (scanString input p) := by
  have hle := le_skipWhile input (· ≠ '\''.toUInt8) (p + 1)
  unfold scanString
  dsimp only
  split_ifs
  · exact .inl ⟨rfl, rfl⟩
  · exact .inr ⟨rfl, ⟨rfl, rfl, rfl⟩, by dsimp only; omega⟩

theorem delivers_negative {r : RC × Token × Option Value × ℕ}
    (h : (parseNum stof input (p + 1)).map
      (fun r => (RC.success, r.1, r.2.1.map negate, r.2.2)) = some r) : Delivers p r := by
  obtain ⟨⟨tk, v, q⟩, hnum, rfl⟩ := Option.map_eq_some_iff.1 h
  obtain ⟨hle, _, hm⟩ := parseNum_cases hnum
  have hge := le_skipWhile input isDigit (p + 1)
  exact .inr ⟨rfl, hm, by dsimp only; omega⟩

theorem delivers_sym {tk : Token} (htk : tk.hasValue = false) {q : ℕ} (h : p < q) :
    Delivers p (.success, tk, none, q) := .inr ⟨rfl, matching_none htk, h⟩

theorem delivers_scan {r : RC × Token × Option Value × ℕ} (h : scan stof input p = some r) :
    Delivers p r ∧ (r.1 = .success → p < input.length) := by
  have hle : p ≤ skipBlank input p := le_skipWhile _ _ p
  by_cases hend : input.length ≤ skipBlank input p
  · rw [scan, if_pos hend] at h
    cases h
    exact ⟨.inl ⟨rfl, rfl⟩, fun h => by cases h⟩
  · refine ⟨?_, fun _ => by omega⟩
    have hmono : ∀ {r}, Delivers (skipBlank input p) r → Delivers p r := by
      rintro r (hr | ⟨hr, hm, hlt⟩)
      · exact .inl hr
      · exact .inr ⟨hr, hm, hle.trans_lt hlt⟩
    apply hmono
    rw [scan, if_neg hend] at h
    split_ifs at h with hid hzero hdigit
    · cases h
      exact delivers_scanId (not_le.1 hend) hid
    · cases h
      exact .inl ⟨rfl, rfl⟩
    · exact delivers_scanNum (not_le.1 hend) hdigit h
    · exact delivers_negative h
    · cases h
      exact delivers_sym rfl (by omega)
    · cases h
      exact delivers_sym rfl (by omega)
    · cases h
      exact delivers_sym rfl (by omega)
    · cases h
      exact delivers_scanString
    · split at h
      · cases h
        exact delivers_sym (hasValue_of_lookup (by decide) ‹List.lookup _ symbols = some _›) (by omega)
      · cases h
        exact .inl ⟨rfl, rfl⟩

theorem scan_of_lexeme {u : Lexeme} (h : lexeme stof input p = some (.ok (u, q))) :
    scan stof input p = some (.success, u.token, u.val, q) := by
  obtain ⟨⟨rc, tk, v, q'⟩, hr, h⟩ := Option.map_eq_some_iff.1 h
  rcases (delivers_scan hr).1 with ⟨hrc, _⟩ | ⟨hrc, ⟨htk, hv, _⟩, _⟩
  · simp [show rc = .syntaxError from hrc] at h
  · obtain rfl : rc = .success := hrc
    obtain ⟨rfl, rfl⟩ : Lexeme.ofScan tk v = u ∧ q' = q := by simpa using h
    rw [hr, htk, hv]

theorem scan_of_lexeme_error {e : RC} (h : lexeme stof input p = some (.error e)) :
    ∃ v q, scan stof input p = some (.syntaxError, .badExpr, v, q) := by
  obtain ⟨⟨rc, tk, v, q⟩, hr, h⟩ := Option.map_eq_some_iff.1 h
  rcases (delivers_scan hr).1 with ⟨hrc, htk⟩ | ⟨hrc, _⟩
  · obtain rfl : rc = .syntaxError := hrc
    obtain rfl : tk = .badExpr := htk
    exact ⟨v, q, hr⟩
  · simp [show rc = .success from hrc] at h

theorem scan_of_lexeme_none (h : lexeme stof input p = none) : scan stof input p = none :=
  Option.map_eq_none_iff.1 h

/-- A token that comes with a value is not delivered without it. -/
theorem lexeme_sym {t : Token} (h : lexeme stof input p = some (.ok (.sym t, q))) :
    t.hasValue = false := by
  obtain ⟨⟨rc, tk, v, q'⟩, hr, h⟩ := Option.map_eq_some_iff.1 h
  rcases (delivers_scan hr).1 with ⟨hrc, _⟩ | ⟨hrc, ⟨htk, hv, hval⟩, _⟩
  · simp [show rc = .syntaxError from hrc] at h
  · obtain rfl : rc = .success := hrc
    obtain ⟨hof, rfl⟩ : Lexeme.ofScan tk v = .sym t ∧ q' = q := by simpa using h
    dsimp only at htk hv hval
    rw [hof] at htk hv
    obtain rfl : t = tk := htk
    rw [← hval, ← hv]
    rfl

theorem slice_skipWhile (input : Bytes) (f : UInt8 → Bool) (p : ℕ) :
    slice input p (skipWhile input f p - p) = (input.drop p).takeWhile f := by
  rw [slice, skipWhile, Nat.add_sub_cancel_left]
  exact List.prefix_iff_eq_take.1 (List.takeWhile_prefix f) |>.symm

theorem parseNum_ne_id {r : Token × Option Value × ℕ} (h : parseNum stof input p = some r) :
    r.1 ≠ .idT := by
  unfold parseNum at h
  dsimp only at h
  split_ifs at h
  · cases h
    simp
  · obtain ⟨f, _, rfl⟩ := Option.map_eq_some_iff.1 h
    simp
  · cases h
    simp

theorem name_of_scanId {name : Bytes} (hp : p < input.length)
    (hstart : isIdStart (charAt input p) = true)
    (h : scanId input p = (.success, .idT, some (.string name), q)) :
    (∃ c ∈ name.head?, isIdStart c = true) ∧ (∀ c ∈ name, isIdPart c = true) ∧
      specToken.lookup (toUpper name) = none := by
  unfold scanId at h
  dsimp only at h
  split at h
  · cases h
  · rename_i hkey
    obtain ⟨rfl, _⟩ := by simpa using h
    refine ⟨?_, fun c hc => ?_, hkey⟩
    · rw [slice_skipWhile, List.drop_eq_getElem_cons hp]
      rw [charAt, List.getD_eq_getElem _ _ hp] at hstart
      rw [List.takeWhile_cons_of_pos (by simp [isIdPart, hstart])]
      exact ⟨_, rfl, hstart⟩
    · rw [slice_skipWhile] at hc
      exact List.mem_takeWhile_imp hc

/-- An identifier starts like one, has letters, digits and underscores only, and is no keyword. -/
theorem lexeme_id {name : Bytes} (h : lexeme stof input p = some (.ok (.id name, q))) :
    (∃ c ∈ name.head?, isIdStart c = true) ∧ (∀ c ∈ name, isIdPart c = true) ∧
      specToken.lookup (toUpper name) = none := by
  have hs : scan stof input p = some (.success, .idT, some (.string name), q) := scan_of_lexeme h
  unfold scan at hs
  dsimp only at hs
  split_ifs at hs with hlen hstart
  · cases hs
  · exact name_of_scanId (not_le.1 hlen) hstart (Option.some.inj hs)
  · cases hs
  · obtain ⟨r, hr, hs⟩ := Option.map_eq_some_iff.1 hs
    have hid : r.1 = .idT := by simpa using congrArg (fun x => x.2.1) hs
    exact absurd hid (parseNum_ne_id hr)
  · obtain ⟨r, hr, hs⟩ := Option.map_eq_some_iff.1 hs
    have hid : r.1 = .idT := by simpa using congrArg (fun x => x.2.1) hs
    exact absurd hid (parseNum_ne_id hr)
  · cases hs
  · cases hs
  · cases hs
  · have hid := Option.some.inj hs
    unfold scanString at hid
    dsimp only at hid
    split_ifs at hid <;> cases hid
  · split at hs <;> cases hs

theorem lexeme_lt {u : Lexeme} (h : lexeme stof input p = some (.ok (u, q))) :
    p < q ∧ p < input.length := by
  obtain ⟨hd, hlt⟩ := delivers_scan (scan_of_lexeme h)
  rcases hd with ⟨hrc, _⟩ | ⟨_, _, hpq⟩
  · cases hrc
  · exact ⟨hpq, hlt rfl⟩

end Lexer

namespace Parser

open Lexer

variable {stof : Bytes → Option UInt32} {input : Bytes} {l : Lexer} {u : Lexeme} {q : ℕ} {e : RC}
  {t : Token}

/-- The lexer behind the lexeme `u`. -/
def behind (u : Lexeme) (q : ℕ) (l : Lexer) : Lexer := ⟨q, u.val.getD l.curVal⟩

theorem next_ok (h : lexeme stof input l.p = some (.ok (u, q))) :
    next stof input l = some (.ok ((.success, u.token), behind u q l)) := by
  rw [next, Lexer.internalNext, scan_of_lexeme h]
  rfl

theorem next_error (h : lexeme stof input l.p = some (.error e)) :
    ∃ l', next stof input l = some (.ok ((.syntaxError, .badExpr), l')) := by
  obtain ⟨v, q, hs⟩ := scan_of_lexeme_error h
  rw [next, Lexer.internalNext, hs]
  exact ⟨_, rfl⟩

theorem next_none (h : lexeme stof input l.p = none) : next stof input l = none := by
  rw [next, Lexer.internalNext, scan_of_lexeme_none h]
  rfl

theorem nextIf_ok (h : lexeme stof input l.p = some (.ok (u, q))) (ht : u.token = t) :
    nextIf stof input t l = some (.ok ((.success, t), behind u q l)) := by
  subst ht
  rw [nextIf, Lexer.internalNext, scan_of_lexeme h]
  simp [behind]

theorem nextIf_other (h : lexeme stof input l.p = some (.ok (u, q))) (ht : u.token ≠ t) :
    nextIf stof input t l = some (.ok ((.syntaxError, u.token), behind u l.p l)) := by
  rw [nextIf, Lexer.internalNext, scan_of_lexeme h]
  simp [behind, ht]

theorem nextIf_error (h : lexeme stof input l.p = some (.error e)) (ht : t ≠ .badExpr) :
    ∃ l', l'.p = l.p ∧ nextIf stof input t l = some (.ok ((.syntaxError, .badExpr), l')) := by
  obtain ⟨v, q, hs⟩ := scan_of_lexeme_error h
  refine ⟨⟨l.p, v.getD l.curVal⟩, rfl, ?_⟩
  rw [nextIf, Lexer.internalNext, hs]
  simp [ht.symm]

theorem nextIf_none (h : lexeme stof input l.p = none) : nextIf stof input t l = none := by
  rw [nextIf, Lexer.internalNext, scan_of_lexeme_none h]
  rfl

theorem peek_ok (h : lexeme stof input l.p = some (.ok (u, q))) :
    peek stof input l = some (.ok ((.success, u.token), behind u l.p l)) := by
  rw [peek, Lexer.internalNext, scan_of_lexeme h]
  rfl

theorem peek_error (h : lexeme stof input l.p = some (.error e)) :
    ∃ l', l'.p = l.p ∧ peek stof input l = some (.ok ((.syntaxError, .badExpr), l')) := by
  obtain ⟨v, q, hs⟩ := scan_of_lexeme_error h
  refine ⟨⟨l.p, v.getD l.curVal⟩, rfl, ?_⟩
  rw [peek, Lexer.internalNext, hs]
  rfl

theorem peek_none (h : lexeme stof input l.p = none) : peek stof input l = none := by
  rw [peek, Lexer.internalNext, scan_of_lexeme_none h]
  rfl

end Parser

end Tadis
