import Tadis.LexerCalls

/-!
# Written tokens are read back

`Spells u w` says that `w` is a way to write the lexeme `u`, and `Rendered us t` that `t` is a text of
the lexemes `us` with blanks between them. The lexer reads a text back one lexeme at a time: behind
each of them the rest of the input is a text of the lexemes that are left, and calls that do not
consume a token leave it as it is.
-/

namespace Tadis.Lexer

def number (t : Bytes) : ℕ := t.foldl (fun n b => n * 10 + (b.toNat - '0'.toNat)) 0

/-- A nonempty run of digits without a superfluous zero in front. -/
structure IsDecimal (t : Bytes) : Prop where
  digits : ∀ c ∈ t, isDigit c = true
  nonempty : t ≠ []
  canonical : t.head? = some '0'.toUInt8 → t = ['0'.toUInt8]

inductive Spells : Lexeme → Bytes → Prop
  | keyword {w t} (h : specToken.lookup (toUpper w) = some t) : Spells (.sym t) w
  | id {c s} (hc : isIdStart c = true) (hs : ∀ d ∈ s, isIdPart d = true)
      (h : specToken.lookup (toUpper (c :: s)) = none) : Spells (.id (c :: s)) (c :: s)
  | integer {t} (h : IsDecimal t) (hn : number t < 2 ^ 63) :
    Spells (.integer (.ofNat (number t))) t
  | negative {t} (h : IsDecimal t) (hn : number t < 2 ^ 63) :
    Spells (.integer (-.ofNat (number t))) ('-'.toUInt8 :: t)
  | string {s} (hne : s ≠ []) (h : '\''.toUInt8 ∉ s) :
    Spells (.string s) ('\''.toUInt8 :: (s ++ ['\''.toUInt8]))
  | symbol {c t} (h : (c, t) ∈ symbols) : Spells (.sym t) [c]
  | minus : Spells (.sym .minusT) ['-'.toUInt8]
  | smaller : Spells (.sym .smallerT) ['<'.toUInt8]
  | notEq : Spells (.sym .notEqT) ['<'.toUInt8, '>'.toUInt8]

def AtGap (s : Bytes) : Prop := ∀ c ∈ s.head?, c = ' '.toUInt8

/-- The text has the lexemes with at least one blank between them. -/
inductive Rendered : List Lexeme → Bytes → Prop
  | nil {b} (hb : ∀ c ∈ b, c = ' '.toUInt8) : Rendered [] b
  | cons {b u w us s} (hb : ∀ c ∈ b, c = ' '.toUInt8) (hw : Spells u w) (hgap : AtGap s)
      (hs : Rendered us s) : Rendered (u :: us) (b ++ (w ++ s))

variable {stof : Bytes → Option UInt32} {input : Bytes} {p q : ℕ} {c : UInt8} {w s : Bytes}

theorem AtGap.notMem (h : AtGap s) {f : UInt8 → Bool} (hf : f ' '.toUInt8 = false) :
    ∀ c ∈ s.head?, f c = false := by
  intro c hc
  rw [h c hc]
  exact hf

theorem AtGap.charAt (h : AtGap s) (hs : input.drop p = s) :
    charAt input p = ' '.toUInt8 ∨ charAt input p = 0 := by
  cases s with
  | nil => exact .inr (charAt_of_drop_nil hs)
  | cons c s => exact .inl ((charAt_of_drop hs).trans (h c rfl))

theorem skipBlank_of_drop (h : input.drop p = c :: s) (hc : c ≠ ' '.toUInt8) :
    skipBlank input p = p :=
  skipBlank_append (w := []) h (by simp) fun d hd => by
    obtain rfl : c = d := Option.some.inj hd
    exact hc

theorem scan_skip (h : skipBlank input p = q) (hq : skipBlank input q = q) :
    scan stof input p = scan stof input q := by
  rw [scan, scan, h, hq]

theorem lt_length_of_drop (h : input.drop p = c :: s) : p < input.length := by
  by_contra hp
  rw [List.drop_eq_nil_iff.2 (not_lt.1 hp)] at h
  cases h

theorem scan_id (h : input.drop p = c :: s) (hc : isIdStart c = true) :
    scan stof input p = some (scanId input p) := by
  have hblank : c ≠ ' '.toUInt8 := by
    rintro rfl
    exact absurd hc (by decide)
  have hlt := lt_length_of_drop h
  rw [scan, skipBlank_of_drop h hblank, if_neg (by omega), charAt_of_drop h, if_pos hc]

theorem scanId_append (h : input.drop p = w ++ s) (hw : ∀ d ∈ w, isIdPart d = true)
    (hs : AtGap s) : scanId input p =
      match specToken.lookup (toUpper w) with
      | some token => (.success, token, none, p + w.length)
      | none => (.success, .idT, some (.string w), p + w.length) := by
  have hstop : skipWhile input isIdPart p = p + w.length :=
    skipWhile_append h hw (hs.notMem (by decide))
  rewrite [scanId, hstop, Nat.add_sub_cancel_left, slice_append h]
  rfl

theorem digitsValue_eq (t : Bytes) : digitsValue t = .ofNat (number t) := by
  have hfold : ∀ (t : Bytes) (n : ℕ),
      t.foldl (fun num b => Int64.ofNat (b.toNat - '0'.toNat) + num * 10) (.ofNat n) =
        Int64.ofNat (t.foldl (fun n b => n * 10 + (b.toNat - '0'.toNat)) n) := by
    intro t
    induction t with
    | nil => exact fun _ => rfl
    | cons b t ih =>
      intro n
      rw [List.foldl_cons, List.foldl_cons, ← ih, Int64.ofNat_add, Int64.ofNat_mul, Int64.add_comm]
      rfl
  exact hfold t 0

theorem parseNum_integer (h : input.drop p = w ++ s) (hw : ∀ c ∈ w, isDigit c = true)
    (hs : AtGap s) :
    parseNum stof input p = some (.integerT, some (.ints (.ofNat (number w))), p + w.length) := by
  have hstop : skipWhile input isDigit p = p + w.length :=
    skipWhile_append h hw (hs.notMem (by decide))
  have hdot : charAt input (p + w.length) ≠ '.'.toUInt8 := by
    rcases hs.charAt (drop_add h) with hc | hc <;> rw [hc] <;> decide
  rw [parseNum, hstop]
  dsimp only
  rw [if_neg hdot, Nat.add_sub_cancel_left, slice_append h, digitsValue_eq]

theorem ne_of_isDigit {d : UInt8} (hc : isDigit c = true) (hd : isDigit d = false) : c ≠ d := by
  rintro rfl
  rw [hc] at hd
  cases hd

theorem not_isIdStart (hc : isDigit c = true) : isIdStart c = false := by
  obtain ⟨hlo, hhi⟩ := of_decide_eq_true hc
  have hle : c.toNat ≤ 0x39 := hhi
  rw [isIdStart, decide_eq_false_iff_not]
  rintro (⟨ha, _⟩ | ⟨ha, _⟩ | rfl)
  · have hge : 0x61 ≤ c.toNat := ha
    omega
  · have hge : 0x41 ≤ c.toNat := ha
    omega
  · exact absurd hhi (by decide)

theorem scan_digit (h : input.drop p = c :: s) (hc : isDigit c = true)
    (hz : ¬ (c = '0'.toUInt8 ∧ isDigit (charAt input (p + 1)) = true)) :
    scan stof input p = scanNum stof input p := by
  have hblank := ne_of_isDigit hc (d := ' '.toUInt8) (by decide)
  have hlt := lt_length_of_drop h
  rw [scan, skipBlank_of_drop h hblank, if_neg (by omega), charAt_of_drop h,
    if_neg (by rw [not_isIdStart hc]; decide), if_neg hz, if_pos hc]

variable (stof) in
theorem scan_minus (h : input.drop p = '-'.toUInt8 :: s) : scan stof input p =
    if isDigit (charAt input (p + 1)) then
      (parseNum stof input (p + 1)).map (fun r => (.success, r.1, r.2.1.map negate, r.2.2))
    else some (.success, .minusT, none, p + 1) := by
  have hlt := lt_length_of_drop h
  rw [scan, skipBlank_of_drop h (by decide), if_neg (by omega), charAt_of_drop h]
  rfl

variable (stof) in
theorem scan_less (h : input.drop p = '<'.toUInt8 :: s) : scan stof input p =
    if charAt input (p + 1) = '>'.toUInt8 then some (.success, .notEqT, none, p + 2)
    else some (.success, .smallerT, none, p + 1) := by
  have hlt := lt_length_of_drop h
  rw [scan, skipBlank_of_drop h (by decide), if_neg (by omega), charAt_of_drop h]
  rfl

theorem scan_symbol {t : Token} (h : input.drop p = c :: s) (hc : (c, t) ∈ symbols) :
    scan stof input p = some (.success, t, none, p + 1) := by
  have hlt := lt_length_of_drop h
  have hplain : ∀ x ∈ symbols, x.1 ≠ ' '.toUInt8 ∧ isIdStart x.1 = false ∧
      isDigit x.1 = false ∧ x.1 ≠ '0'.toUInt8 ∧ x.1 ≠ '-'.toUInt8 ∧ x.1 ≠ '<'.toUInt8 ∧
      x.1 ≠ '\''.toUInt8 ∧ symbols.lookup x.1 = some x.2 := by decide
  obtain ⟨hblank, hid, hdigit, hzero, hminus, hless, hquote, hlookup⟩ := hplain _ hc
  rw [scan, skipBlank_of_drop h hblank, if_neg (by omega), charAt_of_drop h]
  dsimp only at hid hdigit hlookup
  rw [hid, hdigit, hlookup, if_neg (by decide), if_neg (fun hz => hzero hz.1), if_neg (by decide),
    if_neg hminus, if_neg hless, if_neg hquote]

theorem lexeme_of_scan {tk : Token} {v : Option Value}
    (h : scan stof input p = some (.success, tk, v, q)) :
    lexeme stof input p = some (.ok (Lexeme.ofScan tk v, q)) := by
  rw [lexeme, h, Option.map_some, if_pos rfl]

theorem lexeme_of_scan_sym {t : Token} (h : scan stof input p = some (.success, t, none, q)) :
    lexeme stof input p = some (.ok (.sym t, q)) := by
  have hsym : Lexeme.ofScan t none = .sym t := by cases t <;> rfl
  rw [lexeme_of_scan h, hsym]

theorem isIdStart_of_keyword {t : Token} (h : specToken.lookup (toUpper w) = some t) :
    w ≠ [] ∧ ∀ c ∈ w, isIdStart c = true := by
  have hkeys : ∀ x ∈ specToken, x.1 ≠ [] ∧
      x.1.all (fun c => 'A'.toUInt8 ≤ c ∧ c ≤ 'Z'.toUInt8) = true := by decide
  obtain ⟨before, rest, htable, _⟩ := List.lookup_eq_some_iff.1 h
  obtain ⟨hne, hupper⟩ := hkeys (toUpper w, t) (by rw [htable]; simp)
  refine ⟨fun hw => hne (by rw [hw]; rfl), fun c hc => ?_⟩
  have hmem := of_decide_eq_true (List.all_eq_true.1 hupper _ (List.mem_map_of_mem hc))
  rw [isIdStart, decide_eq_true_iff]
  by_cases hlower : 'a'.toUInt8 ≤ c ∧ c ≤ 'z'.toUInt8
  · exact .inl hlower
  · rw [if_neg hlower] at hmem
    exact .inr (.inl hmem)

theorem isIdPart_of_start (hc : isIdStart c = true) : isIdPart c = true := by
  rw [isIdPart, hc]
  simp

variable {u : Lexeme} {us : List Lexeme} {b : Bytes}

theorem Spells.head (h : Spells u w) : ∃ c s, w = c :: s ∧ c ≠ ' '.toUInt8 := by
  cases h with
  | keyword h =>
    obtain ⟨hne, hstart⟩ := isIdStart_of_keyword h
    obtain ⟨c, s, rfl⟩ := List.exists_cons_of_ne_nil hne
    refine ⟨c, s, rfl, ?_⟩
    rintro rfl
    exact absurd (hstart _ List.mem_cons_self) (by decide)
  | id hc _ _ =>
    refine ⟨_, _, rfl, ?_⟩
    rintro rfl
    exact absurd hc (by decide)
  | integer h _ =>
    obtain ⟨c, s, rfl⟩ := List.exists_cons_of_ne_nil h.nonempty
    exact ⟨c, s, rfl, ne_of_isDigit (h.digits c List.mem_cons_self) (by decide)⟩
  | negative | string | minus | smaller | notEq => exact ⟨_, _, rfl, by decide⟩
  | symbol h =>
    have hplain : ∀ x ∈ symbols, x.1 ≠ ' '.toUInt8 := by decide
    exact ⟨_, [], rfl, hplain _ h⟩

theorem scan_decimal (ht : IsDecimal w) (h : input.drop p = w ++ s) (hs : AtGap s) :
    scan stof input p =
      some (.success, .integerT, some (.ints (.ofNat (number w))), p + w.length) := by
  obtain ⟨c, t, rfl⟩ := List.exists_cons_of_ne_nil ht.nonempty
  have hz : ¬ (c = '0'.toUInt8 ∧ isDigit (charAt input (p + 1)) = true) := by
    rintro ⟨rfl, hnext⟩
    obtain rfl : t = [] := (List.cons_eq_cons.1 (ht.canonical rfl)).2
    rcases hs.charAt (drop_succ h) with hc | hc <;> rw [hc] at hnext <;> exact absurd hnext (by decide)
  rw [scan_digit h (ht.digits c List.mem_cons_self) hz, scanNum, parseNum_integer h ht.digits hs]
  rfl

theorem isDigit_charAt (ht : IsDecimal w) (h : input.drop p = w ++ s) :
    isDigit (charAt input p) = true := by
  obtain ⟨c, t, rfl⟩ := List.exists_cons_of_ne_nil ht.nonempty
  rw [charAt_of_drop h]
  exact ht.digits c List.mem_cons_self

variable (stof) in
/-- A written token is read, whatever comes behind the blank that follows it. -/
theorem lexeme_spelled (hu : Spells u w) (h : input.drop p = w ++ s) (hs : AtGap s) :
    lexeme stof input p = some (.ok (u, p + w.length)) := by
  cases hu with
  | @keyword w t hkey =>
    obtain ⟨hne, hstart⟩ := isIdStart_of_keyword hkey
    have hid := scanId_append h (fun d hd => isIdPart_of_start (hstart d hd)) hs
    rw [hkey] at hid
    obtain ⟨c, r, rfl⟩ := List.exists_cons_of_ne_nil hne
    exact lexeme_of_scan_sym ((scan_id h (hstart c List.mem_cons_self)).trans (congrArg some hid))
  | @id c r hc hr hkey =>
    have hid := scanId_append h (List.forall_mem_cons.2 ⟨isIdPart_of_start hc, hr⟩) hs
    rw [hkey] at hid
    exact lexeme_of_scan ((scan_id h hc).trans (congrArg some hid))
  | integer ht _ => exact lexeme_of_scan (scan_decimal ht h hs)
  | @negative t ht _ =>
    have hrest := drop_succ h
    have hscan := scan_minus stof h
    rw [isDigit_charAt ht hrest, if_pos rfl, parseNum_integer hrest ht.digits hs] at hscan
    have hneg : (Int64.ofNat (number t)) * -1 = -.ofNat (number t) := by
      rw [Int64.mul_neg, Int64.mul_one]
    have hlex := lexeme_of_scan hscan
    rw [hlex, List.length_cons, ← hneg, show p + 1 + t.length = p + (t.length + 1) by omega]
    rfl
  | @string t hne hquote =>
    have hrest : input.drop (p + 1) = t ++ '\''.toUInt8 :: s := by simpa using drop_succ h
    have hskip : skipBlank input p = p := skipBlank_of_drop h (by decide)
    have hscan := scan_quote stof (p := p) (by rw [hskip, charAt_of_drop h])
    rw [hskip, scanString_closed hrest hquote hne] at hscan
    have hlen : p + ('\''.toUInt8 :: (t ++ ['\''.toUInt8])).length = p + 1 + t.length + 1 := by
      rw [List.length_cons, List.length_append, List.length_singleton]
      omega
    rw [hlen]
    exact lexeme_of_scan hscan
  | symbol hc => exact lexeme_of_scan_sym (scan_symbol h hc)
  | minus =>
    have hscan := scan_minus stof h
    rcases hs.charAt (drop_succ h) with hc | hc <;> rw [hc] at hscan <;>
      exact lexeme_of_scan_sym hscan
  | smaller =>
    have hscan := scan_less stof h
    rcases hs.charAt (drop_succ h) with hc | hc <;> rw [hc] at hscan <;>
      exact lexeme_of_scan_sym hscan
  | notEq =>
    have hscan := scan_less stof h
    rw [charAt_of_drop (drop_succ h), if_pos rfl] at hscan
    exact lexeme_of_scan_sym hscan

variable (stof) in
/-- The first lexeme of a text is read, and behind it there is a text of the others. -/
theorem lexeme_rendered (h : Rendered (u :: us) (input.drop p)) :
    ∃ q, lexeme stof input p = some (.ok (u, q)) ∧ Rendered us (input.drop q) := by
  generalize ht : input.drop p = t at h
  cases h with
  | @cons b _ w _ s hb hw hgap hs =>
    obtain ⟨c, r, rfl, hc⟩ := hw.head
    have hskip : skipBlank input p = p + b.length :=
      skipBlank_append ht hb fun d hd => by
        obtain rfl : c = d := Option.some.inj hd
        exact hc
    have hdrop := drop_add ht
    have hread := lexeme_spelled stof hw hdrop hgap
    refine ⟨_, ?_, by rwa [drop_add hdrop]⟩
    rwa [lexeme, scan_skip hskip (skipBlank_of_drop hdrop hc)]

variable (stof) in
theorem scan_rendered_nil (h : Rendered [] (input.drop p)) :
    ∃ q, scan stof input p = some (.syntaxError, .badExpr, none, q) ∧ Rendered [] (input.drop q) := by
  generalize ht : input.drop p = t at h
  cases h with
  | nil hb =>
    have hskip : skipBlank input p = p + t.length :=
      skipBlank_append (s := []) (by rw [List.append_nil, ht]) hb (by simp)
    have hend : input.length ≤ p + t.length := by
      have hlen := congrArg List.length ht
      rw [List.length_drop] at hlen
      omega
    refine ⟨p + t.length, ?_, ?_⟩
    · rw [scan, hskip, if_pos hend]
    · rw [List.drop_eq_nil_iff.2 hend]
      exact .nil (by simp)

/-- What the calls of `next` return, with the value slot behind them. -/
def nexts (stof : Bytes → Option UInt32) (input : Bytes) :
    Lexer → List Call → List (Option (RC × Token) × Value)
  | _, [] => []
  | l, .next :: calls =>
    let r := Call.exec stof input .next l
    (r.1, r.2.curVal) :: nexts stof input r.2 calls
  | l, .peek :: calls => nexts stof input (Call.exec stof input .peek l).2 calls
  | l, .nextIf t :: calls => nexts stof input (Call.exec stof input (.nextIf t) l).2 calls

/-- Every call of `next_if` fails. -/
def NextIfFails (stof : Bytes → Option UInt32) (input : Bytes) (l : Lexer) (calls : List Call) :
    Prop :=
  ∀ pre t, pre ++ [.nextIf t] <+: calls →
    ∃ tk, (Call.exec stof input (.nextIf t) (after stof input l pre)).1 = some (.syntaxError, tk)

/-- The lexeme is returned with its value, and behind the last one a syntax error. -/
def Answers : Option Lexeme → Option (RC × Token) × Value → Prop
  | some u, r => r.1 = some (.success, u.token) ∧ ∀ v, u.val = some v → r.2 = v
  | none, r => r.1 = some (.syntaxError, .badExpr)

variable {c : Call} {calls : List Call} {l : Lexer}

theorem NextIfFails.tail (h : NextIfFails stof input l (c :: calls)) :
    NextIfFails stof input (c.exec stof input l).2 calls := fun pre t hpre =>
  h (c :: pre) t (List.cons_prefix_cons.2 ⟨rfl, hpre⟩)

theorem NextIfFails.head {t : Token} (h : NextIfFails stof input l (.nextIf t :: calls)) :
    ∃ tk, (Call.exec stof input (.nextIf t) l).1 = some (.syntaxError, tk) :=
  h [] t (List.cons_prefix_cons.2 ⟨rfl, List.nil_prefix⟩)

theorem exec_next_rendered (h : Rendered (u :: us) (input.drop l.p)) :
    Answers (some u) ((Call.exec stof input .next l).1, (Call.exec stof input .next l).2.curVal) ∧
      Rendered us (input.drop (Call.exec stof input .next l).2.p) := by
  obtain ⟨q, hq, hrest⟩ := lexeme_rendered stof h
  have hexec : Call.exec stof input .next l = (some (.success, u.token), Parser.behind u q l) := by
    rw [Call.exec, Call.parse, Parser.next_ok hq]
  rw [hexec]
  refine ⟨⟨rfl, fun v hv => ?_⟩, hrest⟩
  simp [Parser.behind, hv]

theorem exec_next_rendered_nil (h : Rendered [] (input.drop l.p)) :
    Answers none ((Call.exec stof input .next l).1, (Call.exec stof input .next l).2.curVal) ∧
      Rendered [] (input.drop (Call.exec stof input .next l).2.p) := by
  obtain ⟨q, hq, hrest⟩ := scan_rendered_nil stof h
  have hexec : Call.exec stof input .next l = (some (.syntaxError, .badExpr), ⟨q, l.curVal⟩) := by
    rw [Call.exec, Call.parse, Parser.next, internalNext, hq]
    rfl
  rw [hexec]
  exact ⟨rfl, hrest⟩

theorem exec_peek_p (h : Rendered us (input.drop l.p)) :
    (Call.exec stof input .peek l).2.p = l.p := by
  cases us with
  | nil =>
    obtain ⟨q, hq, _⟩ := scan_rendered_nil stof h
    rw [Call.exec, Call.parse, Parser.peek, internalNext, hq]
    rfl
  | cons u us =>
    obtain ⟨q, hq, _⟩ := lexeme_rendered stof h
    rw [Call.exec, Call.parse, Parser.peek_ok hq]
    rfl

theorem exec_nextIf_p {t tk : Token}
    (h : (Call.exec stof input (.nextIf t) l).1 = some (.syntaxError, tk)) :
    (Call.exec stof input (.nextIf t) l).2.p = l.p := by
  cases hnext : l.internalNext stof input with
  | none => simp [Call.exec, Call.parse, Parser.nextIf, hnext] at h
  | some r =>
    by_cases ht : r.1.2 = t
    · simp [Call.exec, Call.parse, Parser.nextIf, hnext, ht] at h
    · simp [Call.exec, Call.parse, Parser.nextIf, hnext, ht]

theorem answers_nexts (h : Rendered us (input.drop l.p)) (hfail : NextIfFails stof input l calls)
    (i : ℕ) {r : Option (RC × Token) × Value} (hr : (nexts stof input l calls)[i]? = some r) :
    Answers us[i]? r := by
  induction calls generalizing l us i with
  | nil => cases hr
  | cons c calls ih =>
    cases c with
    | next =>
      rw [nexts] at hr
      cases us with
      | nil =>
        obtain ⟨hanswer, hrest⟩ := exec_next_rendered_nil (l := l) h
        cases i with
        | zero => exact Option.some.inj hr ▸ hanswer
        | succ i => exact ih hrest hfail.tail i hr
      | cons u us =>
        obtain ⟨hanswer, hrest⟩ := exec_next_rendered (l := l) h
        cases i with
        | zero => exact Option.some.inj hr ▸ hanswer
        | succ i => exact ih hrest hfail.tail i hr
    | peek =>
      rw [nexts] at hr
      exact ih (by rwa [exec_peek_p h]) hfail.tail i hr
    | nextIf t =>
      rw [nexts] at hr
      obtain ⟨tk, htk⟩ := hfail.head
      exact ih (by rwa [exec_nextIf_p htk]) hfail.tail i hr

/-- A text of tokens is read back, whatever calls that consume nothing come in between. -/
theorem next_reads_rendered (stof : Bytes → Option UInt32) (h : Rendered us input) (v : Value)
    (calls : List Call) (hfail : NextIfFails stof input ⟨0, v⟩ calls) (i : ℕ)
    {r : Option (RC × Token) × Value} (hr : (nexts stof input ⟨0, v⟩ calls)[i]? = some r) :
    Answers us[i]? r :=
  answers_nexts h hfail i hr

theorem next_reads_rendered_two :
    Answers (some (.id (str "t"))) (some (.success, .idT), .string (str "t")) := by
  have hgap : AtGap (str " t") := fun c hc => (Option.some.inj hc).symm
  have htext : Rendered [.sym .dropT, .id (str "t")] (str "Drop t") :=
    .cons (b := []) (by simp) (.keyword (w := str "Drop") (by decide)) hgap
      (.cons (b := str " ") (List.forall_mem_singleton.2 rfl)
        (.id (c := 't'.toUInt8) (s := []) (by decide) (by simp) (by decide)) (by simp [AtGap])
        (.nil (b := []) (by simp)))
  have hfail : NextIfFails (fun _ => none) (str "Drop t") ⟨0, .undefined⟩
      [.nextIf .fromT, .next, .peek, .next] := by
    rintro (_ | ⟨c, _ | ⟨d, _ | ⟨e, _ | ⟨g, pre⟩⟩⟩⟩) t ⟨rest, hrest⟩
    · obtain rfl : t = .fromT := by simpa using congrArg List.head? hrest
      exact ⟨.dropT, by decide⟩
    all_goals simp at hrest
  exact next_reads_rendered _ htext .undefined [.nextIf .fromT, .next, .peek, .next] hfail 1 (by decide)

end Tadis.Lexer
