import Tadis.JsonBounds
import Tadis.Metadata

/-!
# White space between the tokens

A text that is read from a file has lost its white space and has one byte more. `Spaced` follows the
parser through a text: white space is met only where `skip_write_blank` drops it as well, and the
parser succeeds or fails before it needs a byte behind the text. On such a text it does the same in
memory and behind a file, whatever the texts of the strings are.
-/

namespace Tadis.Pson

open JsonGrammar JsonFileRWer

variable {ν : Type}

inductive Next : Bytes → UInt8 → Bytes → Prop
  | mk {w c q} (hw : IsWs w) (hc : isSpace c = false) : Next (w ++ c :: q) c q

/-- What stands between the quotes and what is stored of it. -/
inductive Row : Bytes → Bytes → Prop
  | nil : Row [] []
  | char {c p s} (hq : c ≠ '"'.toUInt8) (hb : c ≠ '\\'.toUInt8) (h0 : c ≠ 0) (h : Row p s) :
    Row (c :: p) (c :: s)
  | escape {c p s} (h : Row p s) :
    Row ('\\'.toUInt8 :: c :: p) ('\\'.toUInt8 :: '\\'.toUInt8 :: s)

/-- A string without white space, up to its closing quote or up to a NUL. -/
inductive Quoted : Bytes → Option Bytes → Prop
  | closed {u s q} (hu : Solid u) (h : Row u s) : Quoted (u ++ '"'.toUInt8 :: q) (some q)
  | cut {u s q} (hu : Solid u) (h : Row u s) : Quoted (u ++ 0 :: q) none

/-- Digits, letters, signs and the point: the rest of a text cannot belong to a number. -/
def isNumberChar (c : UInt8) : Bool :=
  (0x30 ≤ c ∧ c ≤ 0x39) ∨ (0x41 ≤ c ∧ c ≤ 0x5A) ∨ (0x61 ≤ c ∧ c ≤ 0x7A) ∨
    c = 0x2B ∨ c = 0x2D ∨ c = 0x2E

def Foreign (q : Bytes) : Prop := ∃ c r, q = c :: r ∧ isNumberChar c = false

/-- A number is read from the text up to `u`, whatever comes behind. -/
def Converts (strtod : Bytes → Option ν) (t : Bytes) (x : ν) (u : Bytes) : Prop :=
  ∀ q, Foreign q → scanNumber (t ++ q) = some (some (u ++ q)) ∧ strtod (t ++ q) = some x

/-- No number is read from the text, whatever comes behind. -/
def NoNumber (strtod : Bytes → Option ν) (t : Bytes) : Prop :=
  ∀ q, Foreign q → scanNumber (t ++ q) = some none ∨ strtod (t ++ q) = none

def words : List Bytes := [str "null", str "true", str "false"]

/-- From a text the parser comes to what is left, or to a failure where that is `none`. No token on the
way has white space in it, and the parser never needs a byte behind the text. -/
inductive Spaced (strtod : Bytes → Option ν) : Symbol → Bytes → Option Bytes → Prop
  | word {w q} (hw : w ∈ words) : Spaced strtod .value (w ++ q) (some q)
  | noWord {u c d x q} (hw : u ++ d :: x ∈ words) (hu : u ≠ []) (hcd : c ≠ d)
      (hc : isSpace c = false) : Spaced strtod .value (u ++ c :: q) none
  | number {c t x u q d r} (hc : c ∉ str "tfn") (ht : ∀ b ∈ c :: t, isNumberChar b = true)
      (h : Converts strtod (c :: t) x u) (hq : Next q d r) (hd : isNumberChar d = false) :
    Spaced strtod .value (c :: t ++ q) (some (u ++ q))
  | noNumber {c t q d r} (hc : c ∉ str "tfn") (ht : ∀ b ∈ c :: t, isNumberChar b = true)
      (h : NoNumber strtod (c :: t)) (hq : Next q d r) (hd : isNumberChar d = false) :
    Spaced strtod .value (c :: t ++ q) none
  -- the scan of a number fails at once
  | noValue {c q} (hs : isSpace c = false) (hn : isNumberChar c = false) (hc : c ∉ str "\"[\x7b") :
    Spaced strtod .value (c :: q) none
  | string {p r} (h : Quoted p r) : Spaced strtod .value ('"'.toUInt8 :: p) r
  | emptyArray {p q} (hp : Next p ']'.toUInt8 q) : Spaced strtod .value ('['.toUInt8 :: p) (some q)
  | array {p c q r} (hp : Next p c q) (hc : c ≠ ']'.toUInt8) (h : Spaced strtod .values p r) :
    Spaced strtod .value ('['.toUInt8 :: p) r
  | emptyObject {p q} (hp : Next p '}'.toUInt8 q) : Spaced strtod .value ('{'.toUInt8 :: p) (some q)
  | object {p c q r} (hp : Next p c q) (hc : c ≠ '}'.toUInt8)
      (h : Spaced strtod .members (c :: q) r) : Spaced strtod .value ('{'.toUInt8 :: p) r
  | badValue {p c q} (hp : Next p c q) (h : Spaced strtod .value (c :: q) none) :
    Spaced strtod .values p none
  | lastValue {p c q r s} (hp : Next p c q) (h : Spaced strtod .value (c :: q) (some r))
      (hr : Next r ']'.toUInt8 s) : Spaced strtod .values p (some s)
  | moreValues {p c q r s x} (hp : Next p c q) (h : Spaced strtod .value (c :: q) (some r))
      (hr : Next r ','.toUInt8 s) (hs : Spaced strtod .values s x) : Spaced strtod .values p x
  | noBracket {p c q r d s} (hp : Next p c q) (h : Spaced strtod .value (c :: q) (some r))
      (hr : Next r d s) (hd : d ≠ ','.toUInt8) (hd' : d ≠ ']'.toUInt8) :
    Spaced strtod .values p none
  | badName {c p} (hc : isSpace c = false) (h : Quoted p none) : Spaced strtod .member (c :: p) none
  | noColon {c p q d r} (hc : isSpace c = false) (h : Quoted p (some q)) (hq : Next q d r)
      (hd : d ≠ ':'.toUInt8) : Spaced strtod .member (c :: p) none
  | member {c p q r d s x} (hc : isSpace c = false) (h : Quoted p (some q))
      (hq : Next q ':'.toUInt8 r) (hr : Next r d s) (hs : Spaced strtod .value (d :: s) x) :
    Spaced strtod .member (c :: p) x
  | badMember {p} (h : Spaced strtod .member p none) : Spaced strtod .members p none
  | lastMember {p q r} (h : Spaced strtod .member p (some q)) (hq : Next q '}'.toUInt8 r) :
    Spaced strtod .members p (some r)
  | comma {p q r c s x} (h : Spaced strtod .member p (some q)) (hq : Next q ','.toUInt8 r)
      (hr : Next r c s) (hs : Spaced strtod .members (c :: s) x) : Spaced strtod .members p x
  -- the loop goes on, and the byte is taken for the opening quote of a name
  | noComma {p q c r x} (h : Spaced strtod .member p (some q)) (hq : Next q c r)
      (hc : c ≠ ','.toUInt8) (hc' : c ≠ '}'.toUInt8) (hr : Spaced strtod .members (c :: r) x) :
    Spaced strtod .members p x

variable {strtod : Bytes → Option ν} {ρ : Bytes → Bytes} {p q r s t u w : Bytes} {c d : UInt8}

/-- The buffer of a text that has been kept in memory. -/
def inMemory (t : Bytes) : Bytes := t ++ [0]

/-- The buffer of a text that has been read from a file. -/
def fromFile (ch : UInt8) (t : Bytes) : Bytes := strip t ++ [ch, 0]

/-- What both buffers are for the parser: they keep what is no white space, and in front of it they
have blanks at most. -/
structure Medium (ρ : Bytes → Bytes) : Prop where
  cons : ∀ {c p}, isSpace c = false → ρ (c :: p) = c :: ρ p
  blanks : ∀ {w p}, IsWs w → skipWriteBlank (ρ (w ++ p)) = skipWriteBlank (ρ p)
  terminated : ∀ p, Terminated (ρ p)

theorem medium_inMemory : Medium inMemory where
  cons _ := rfl
  blanks hw := by
    rw [inMemory, List.append_assoc, skipWriteBlank_append hw]
    rfl
  terminated _ := List.getLast?_concat

theorem medium_fromFile (ch : UInt8) : Medium (fromFile ch) where
  cons hc := by
    rw [fromFile, strip_cons hc]
    rfl
  blanks hw := by
    rw [fromFile, strip_append, strip_ws hw]
    rfl
  terminated p := by
    rw [fromFile, Terminated, List.getLast?_append]
    rfl

theorem Medium.append (hρ : Medium ρ) (hu : Solid u) : ρ (u ++ p) = u ++ ρ p := by
  induction u with
  | nil => rfl
  | cons c u ih =>
    obtain ⟨hc, hu⟩ := List.forall_mem_cons.1 hu
    rw [List.cons_append, hρ.cons hc, ih hu, List.cons_append]

theorem isSpace_of_isBlank (h : isBlank c = true) : isSpace c = true := by
  rcases isBlank_iff.1 h with rfl | rfl | rfl | rfl <;> decide

theorem Next.notSpace (h : Next p c q) : isSpace c = false := by
  cases h with
  | mk _ hc => exact hc

theorem isBlank_of_notSpace (h : isSpace c = false) : isBlank c = false := by
  rw [← Bool.not_eq_true]
  intro hblank
  rw [isSpace_of_isBlank hblank] at h
  cases h

theorem Medium.skip (hρ : Medium ρ) (h : Next p c q) : skipWriteBlank (ρ p) = ρ (c :: q) := by
  cases h with
  | mk hw hc =>
    rw [hρ.blanks hw, hρ.cons hc, skipWriteBlank,
      List.dropWhile_cons_of_neg (by simp [isBlank_of_notSpace hc])]

theorem Medium.skip_cons (hρ : Medium ρ) (h : Next p c q) : skipWriteBlank (ρ p) = c :: ρ q := by
  rw [hρ.skip h, hρ.cons h.notSpace]

/-- Behind a number both buffers have a byte that does not belong to it. -/
theorem Medium.foreign (hρ : Medium ρ) (h : Next p c q) (hc : isNumberChar c = false) :
    Foreign (ρ p) := by
  obtain ⟨d, r, hd⟩ := List.exists_cons_of_ne_nil (hρ.terminated p).ne_nil
  have hskip := hρ.skip_cons h
  rw [hd, skipWriteBlank] at hskip
  refine ⟨d, r, hd, ?_⟩
  by_cases hblank : isBlank d = true
  · rcases isBlank_iff.1 hblank with rfl | rfl | rfl | rfl <;> decide
  · rw [List.dropWhile_cons_of_neg hblank] at hskip
    rwa [(List.cons_eq_cons.1 hskip).1]

theorem Row.reads (h : Row u s) (q : Bytes) : ∃ f, ReadsString (u ++ 0x22 :: q) s f q := by
  induction h with
  | nil => exact ⟨false, .close⟩
  | char hq hb h0 _ ih =>
    obtain ⟨f, h⟩ := ih
    exact ⟨_, .char hq hb h0 h⟩
  | escape _ ih =>
    obtain ⟨f, h⟩ := ih
    exact ⟨_, .escape h⟩

theorem Row.cut (h : Row u s) {fuel : ℕ} {acc : Bytes} (q : Bytes) {o : Outcome Bytes}
    (ho : stringRow fuel acc (u ++ 0 :: q) = some o) : o.1 = false := by
  induction h generalizing fuel acc with
  | nil =>
    cases fuel with
    | zero => cases ho
    | succ fuel =>
      rw [List.nil_append, stringRow, if_neg (c := (0 : UInt8) = _) (by decide), if_pos rfl] at ho
      split_ifs at ho <;> cases ho <;> rfl
  | @char c p s hq hb h0 _ ih =>
    cases fuel with
    | zero => cases ho
    | succ fuel =>
      rw [List.cons_append, stringRow, atEnd_cons (by simp), if_neg (by simp), if_neg hq, if_neg h0,
        if_neg hb] at ho
      exact ih ho
  | @escape c p s _ ih =>
    cases fuel with
    | zero => cases ho
    | succ fuel =>
      rw [List.cons_append, List.cons_append, stringRow, atEnd_cons (by simp), if_neg (by simp),
        if_neg (by decide), if_neg (by decide), if_pos rfl, parseEscape_backslash] at ho
      exact ih ho

theorem Medium.closed (h : Quoted p (some q)) :
    ∃ s, ∀ ρ c, Medium ρ → isSpace c = false →
      parseStringRow (ρ (c :: p)) = some (true, s, ρ q) := by
  cases h with
  | @closed u s q hu hrow =>
    refine ⟨s, fun ρ c hρ hc => ?_⟩
    obtain ⟨f, hread⟩ := hrow.reads (ρ q)
    have hterm := hρ.terminated (c :: (u ++ 0x22 :: q))
    rw [hρ.cons hc, hρ.append hu, hρ.cons (by decide)] at hterm ⊢
    exact parseStringRow_complete hread hterm

theorem Medium.cut (hρ : Medium ρ) (h : Quoted p none) (hc : isSpace c = false) {o : Outcome Bytes}
    (ho : parseStringRow (ρ (c :: p)) = some o) : o.1 = false := by
  cases h with
  | @cut u s q hu hrow =>
    rw [hρ.cons hc, hρ.append hu, hρ.cons (by decide)] at ho
    exact hrow.cut _ ho

theorem solid_of_mem_words (hw : w ∈ words) : Solid w := by
  simp only [words, List.mem_cons, List.not_mem_nil, or_false] at hw
  rcases hw with rfl | rfl | rfl <;> decide

theorem ne_nil_of_mem_words (hw : w ∈ words) : w ≠ [] := by
  simp only [words, List.mem_cons, List.not_mem_nil, or_false] at hw
  rcases hw with rfl | rfl | rfl <;> decide

theorem parseWord_broken (hcd : c ≠ d) (hu : u ≠ []) (val v : Json ν) (s q : Bytes) :
    parseWord (u ++ d :: s) val v (u ++ c :: q) = (false, v, u ++ c :: q) := by
  rw [parseWord, if_neg]
  rintro ⟨_, htail⟩
  obtain ⟨a, u, rfl⟩ := List.exists_cons_of_ne_nil hu
  -- `parseWord` leaves the first byte out of the comparison
  rw [List.length_append, List.take_length_add_append] at htail
  have hrest : u ++ c :: q.take s.length = u ++ d :: s := by simpa using htail
  exact hcd (List.cons_eq_cons.1 (List.append_cancel_left hrest)).1

variable (strtod) in
theorem parseValue_word (hw : c :: w ∈ words) : ∃ val, ∀ fuel v p,
    parseValue strtod (fuel + 1) v (c :: p) = some (parseWord (c :: w) val v (c :: p)) := by
  simp only [words, List.mem_cons, List.not_mem_nil, or_false] at hw
  rcases hw with h | h | h <;> cases h
  · exact ⟨.null, fun _ _ _ => rfl⟩
  · exact ⟨.bool true, fun _ _ _ => rfl⟩
  · exact ⟨.bool false, fun _ _ _ => rfl⟩

theorem isSpace_of_numberChar (h : isNumberChar c = true) : isSpace c = false := by
  rw [isNumberChar, decide_eq_true_iff] at h
  rw [isSpace, decide_eq_false_iff_not]
  rintro (rfl | ⟨_, hc⟩)
  · exact absurd h (by decide)
  · rcases h with ⟨hl, _⟩ | ⟨hl, _⟩ | ⟨hl, _⟩ | rfl | rfl | rfl
    · exact absurd (UInt8.le_trans hl hc) (by decide)
    · exact absurd (UInt8.le_trans hl hc) (by decide)
    · exact absurd (UInt8.le_trans hl hc) (by decide)
    · exact absurd hc (by decide)
    · exact absurd hc (by decide)
    · exact absurd hc (by decide)

theorem solid_of_numberChars (ht : ∀ c ∈ t, isNumberChar c = true) : Solid t := fun c hc =>
  isSpace_of_numberChar (ht c hc)

theorem mem_heads (h : c ∈ str "tfn\"[\x7b") : c ∈ str "tfn" ∨ c ∈ str "\"[\x7b" :=
  List.mem_append.1 (by rwa [show str "tfn" ++ str "\"[\x7b" = str "tfn\"[\x7b" from rfl])

theorem notMem_of_numberChar (hc : c ∉ str "tfn") (hn : isNumberChar c = true) :
    c ∉ str "tfn\"[\x7b" := by
  intro h
  have hall : (str "\"[\x7b").all (fun b => !isNumberChar b) = true := by decide
  have hno := List.all_eq_true.1 hall c ((mem_heads h).resolve_left hc)
  rw [hn] at hno
  cases hno

theorem notMem_of_foreign (hn : isNumberChar c = false) (hc : c ∉ str "\"[\x7b") :
    c ∉ str "tfn\"[\x7b" := by
  intro h
  have hall : (str "tfn").all isNumberChar = true := by decide
  have hyes := List.all_eq_true.1 hall c ((mem_heads h).resolve_right hc)
  rw [hn] at hyes
  cases hyes

theorem isNumberChar_digit (h : IsDigit c) : isNumberChar c = true := decide_eq_true (.inl h)

theorem scanNumber_foreign (hn : isNumberChar c = false) : scanNumber (c :: p) = some none := by
  have hne : ∀ b, isNumberChar b = true → ¬ c = b := by
    rintro b hb rfl
    rw [hn] at hb
    cases hb
  have hdigit : ¬ isOneToNine c = true := by
    intro h
    obtain ⟨hl, hu⟩ := of_decide_eq_true h
    exact hne c (isNumberChar_digit ⟨UInt8.le_trans (by decide) hl, hu⟩) rfl
  rw [scanNumber, if_neg (hne _ (by decide)), scanInt, if_neg (hne _ (by decide)), if_neg hdigit]

theorem Converts.suffix {x : ν} (h : Converts strtod t x u) : u <:+ t := by
  obtain ⟨hscan, _⟩ := h [0] ⟨0, [], rfl, by decide⟩
  obtain ⟨w, hw, _, _⟩ := scanNumber_sound hscan
  rw [← List.append_assoc] at hw
  exact ⟨w, (List.append_cancel_right hw).symm⟩

theorem parseNumber_fails {v : Json ν} {o : Outcome (Json ν)}
    (h : scanNumber p = some none ∨ strtod p = none) (ho : parseNumber strtod v p = some o) :
    o = (false, v, p) := by
  obtain ⟨x, hx, rfl⟩ := Option.map_eq_some_iff.1 ho
  rcases h with h | h
  · rw [h] at hx
    cases hx
    rfl
  · rw [h]
    cases x <;> rfl

/-- What the parse function returns: it has come to `r`, or it has failed. -/
def Arrives (ρ : Bytes → Bytes) (r : Option Bytes) (v : Json ν) (o : Outcome (Json ν)) : Prop :=
  match r with
  | some q => o = (true, v, ρ q)
  | none => ∃ s, o = (false, v, s)

def Alike (strtod : Bytes → Option ν) : Symbol → Bytes → Option Bytes → Prop
  | .value, p, r => ∃ g : Json ν → Json ν, ∀ ρ, Medium ρ → ∀ fuel v o,
      parseValue strtod fuel v (ρ p) = some o → Arrives ρ r (g v) o
  | .values, p, r => ∃ g : List (Json ν) → Json ν, ∀ ρ, Medium ρ → ∀ fuel acc o,
      parseArrayFrom strtod fuel acc (ρ p) = some o → Arrives ρ r (g acc) o
  | .member, p, none => ∀ ρ, Medium ρ → ∀ fuel acc o,
      parseObjectFrom strtod fuel acc (ρ p) = some o → Arrives ρ none (.object acc) o
  | .member, p, some q => ∃ name v, ∀ ρ, Medium ρ → ∀ fuel acc o,
      parseObjectFrom strtod (fuel + 1) acc (ρ p) = some o → ∀ c r, Next q c r →
        (if c = ','.toUInt8 then
          parseObjectFrom strtod fuel (emplace name v acc) (skipWriteBlank (ρ r))
        else if c = '}'.toUInt8 then some (true, .object (emplace name v acc), ρ r)
        else parseObjectFrom strtod fuel (emplace name v acc) (ρ (c :: r))) = some o
  | .members, p, r => ∃ g : List (Bytes × Json ν) → Json ν, ∀ ρ, Medium ρ → ∀ fuel acc o,
      parseObjectFrom strtod fuel acc (ρ p) = some o → Arrives ρ r (g acc) o

theorem alike_value {x : Option Bytes} (g : Json ν → Json ν) (h : ∀ ρ, Medium ρ → ∀ fuel v o,
    parseValue strtod (fuel + 1) v (ρ p) = some o → Arrives ρ x (g v) o) :
    Alike strtod .value p x := by
  refine ⟨g, fun ρ hρ fuel v o ho => ?_⟩
  cases fuel with
  | zero => cases ho
  | succ fuel => exact h ρ hρ fuel v o ho

theorem alike_values {x : Option Bytes} (g : List (Json ν) → Json ν) (h : ∀ ρ, Medium ρ →
    ∀ fuel acc o, parseArrayFrom strtod (fuel + 1) acc (ρ p) = some o → Arrives ρ x (g acc) o) :
    Alike strtod .values p x := by
  refine ⟨g, fun ρ hρ fuel acc o ho => ?_⟩
  cases fuel with
  | zero => cases ho
  | succ fuel => exact h ρ hρ fuel acc o ho

theorem alike_badMember (h : ∀ ρ, Medium ρ → ∀ fuel acc o,
    parseObjectFrom strtod (fuel + 1) acc (ρ p) = some o → Arrives ρ none (.object acc) o) :
    Alike strtod .member p none := by
  intro ρ hρ fuel acc o ho
  cases fuel with
  | zero => cases ho
  | succ fuel => exact h ρ hρ fuel acc o ho

theorem alike_members {x : Option Bytes} (g : List (Bytes × Json ν) → Json ν) (h : ∀ ρ, Medium ρ →
    ∀ fuel acc o, parseObjectFrom strtod (fuel + 1) acc (ρ p) = some o → Arrives ρ x (g acc) o) :
    Alike strtod .members p x := by
  refine ⟨g, fun ρ hρ fuel acc o ho => ?_⟩
  cases fuel with
  | zero => cases ho
  | succ fuel => exact h ρ hρ fuel acc o ho

theorem alike_word (hw : w ∈ words) : Alike strtod .value (w ++ q) (some q) := by
  obtain ⟨c, w, rfl⟩ := List.exists_cons_of_ne_nil (ne_nil_of_mem_words hw)
  obtain ⟨val, hval⟩ := parseValue_word strtod hw
  refine alike_value (fun _ => val) fun ρ hρ fuel v o ho => ?_
  rw [hρ.append (solid_of_mem_words hw), List.cons_append, hval, ← List.cons_append,
    parseWord_complete _ _ (hρ.terminated q).ne_nil] at ho
  exact (Option.some.inj ho).symm

theorem alike_noWord (hw : u ++ d :: s ∈ words) (hu : u ≠ []) (hcd : c ≠ d)
    (hc : isSpace c = false) : Alike strtod .value (u ++ c :: q) none := by
  have hsolid : Solid u := fun b hb => solid_of_mem_words hw b (List.mem_append_left _ hb)
  obtain ⟨a, u, rfl⟩ := List.exists_cons_of_ne_nil hu
  obtain ⟨val, hval⟩ := parseValue_word strtod hw
  refine alike_value id fun ρ hρ fuel v o ho => ?_
  have hbroken := parseWord_broken hcd hu val v s (ρ q)
  rw [hρ.append hsolid, hρ.cons hc, List.cons_append, hval] at ho
  exact ⟨_, Option.some.inj (ho.symm.trans (congrArg some hbroken))⟩

theorem alike_number {x : ν} (hc : c ∉ str "tfn") (ht : ∀ b ∈ c :: t, isNumberChar b = true)
    (h : Converts strtod (c :: t) x u) (hq : Next q d r) (hd : isNumberChar d = false) :
    Alike strtod .value (c :: t ++ q) (some (u ++ q)) := by
  have hsolid := solid_of_numberChars ht
  refine alike_value (fun _ => .number x) fun ρ hρ fuel v o ho => ?_
  obtain ⟨hscan, hx⟩ := h _ (hρ.foreign hq hd)
  rw [hρ.append hsolid, List.cons_append,
    parseValue_number (notMem_of_numberChar hc (ht c List.mem_cons_self)), ← List.cons_append,
    parseNumber_complete v hscan hx, ← hρ.append fun b hb => hsolid b (h.suffix.subset hb)] at ho
  exact (Option.some.inj ho).symm

theorem alike_noNumber (hc : c ∉ str "tfn") (ht : ∀ b ∈ c :: t, isNumberChar b = true)
    (h : NoNumber strtod (c :: t)) (hq : Next q d r) (hd : isNumberChar d = false) :
    Alike strtod .value (c :: t ++ q) none := by
  refine alike_value id fun ρ hρ fuel v o ho => ?_
  rw [hρ.append (solid_of_numberChars ht), List.cons_append,
    parseValue_number (notMem_of_numberChar hc (ht c List.mem_cons_self))] at ho
  exact ⟨_, parseNumber_fails (h _ (hρ.foreign hq hd)) ho⟩

theorem alike_noValue (hs : isSpace c = false) (hn : isNumberChar c = false)
    (hc : c ∉ str "\"[\x7b") : Alike strtod .value (c :: q) none := by
  refine alike_value id fun ρ hρ fuel v o ho => ?_
  rw [hρ.cons hs, parseValue_number (notMem_of_foreign hn hc)] at ho
  exact ⟨_, parseNumber_fails (.inl (scanNumber_foreign hn)) ho⟩

theorem alike_string (h : Quoted p (some q)) :
    Alike strtod .value ('"'.toUInt8 :: p) (some q) := by
  obtain ⟨s, hs⟩ := Medium.closed h
  refine alike_value (fun _ => .string s) fun ρ hρ fuel v o ho => ?_
  have hread := hs ρ '"'.toUInt8 hρ (by decide)
  rw [hρ.cons (by decide)] at ho hread
  change parseString v _ = some o at ho
  rw [parseString, hread] at ho
  exact (Option.some.inj ho).symm

theorem alike_cutString (h : Quoted p none) : Alike strtod .value ('"'.toUInt8 :: p) none := by
  refine alike_value id fun ρ hρ fuel v o ho => ?_
  rw [hρ.cons (by decide)] at ho
  obtain ⟨⟨ok, s, q⟩, hs, rfl⟩ := Option.map_eq_some_iff.1 (ho : parseString v _ = some o)
  rw [← hρ.cons (by decide)] at hs
  obtain rfl := hρ.cut h (by decide) hs
  exact ⟨q, rfl⟩

theorem alike_emptyArray (hp : Next p ']'.toUInt8 q) :
    Alike strtod .value ('['.toUInt8 :: p) (some q) := by
  refine alike_value (fun _ => .array []) fun ρ hρ fuel v o ho => ?_
  rw [hρ.cons (by decide), parseValue_array (hρ.skip_cons hp) (hρ.terminated q).ne_nil,
    if_pos rfl] at ho
  exact (Option.some.inj ho).symm

theorem alike_array {x : Option Bytes} (hp : Next p c q) (hc : c ≠ ']'.toUInt8)
    (h : Alike strtod .values p x) : Alike strtod .value ('['.toUInt8 :: p) x := by
  obtain ⟨g, hg⟩ := h
  refine alike_value (fun _ => g []) fun ρ hρ fuel v o ho => ?_
  have hskip := hρ.skip_cons hp
  rw [hρ.cons (by decide), parseValue_array hskip (hρ.terminated q).ne_nil, if_neg hc, ← hskip,
    parseArrayFrom_skip] at ho
  exact hg ρ hρ _ _ _ ho

theorem alike_emptyObject (hp : Next p '}'.toUInt8 q) :
    Alike strtod .value ('{'.toUInt8 :: p) (some q) := by
  refine alike_value (fun _ => .object []) fun ρ hρ fuel v o ho => ?_
  rw [hρ.cons (by decide), parseValue_object (hρ.skip_cons hp) (hρ.terminated q).ne_nil,
    if_pos rfl] at ho
  exact (Option.some.inj ho).symm

theorem alike_object {x : Option Bytes} (hp : Next p c q) (hc : c ≠ '}'.toUInt8)
    (h : Alike strtod .members (c :: q) x) : Alike strtod .value ('{'.toUInt8 :: p) x := by
  obtain ⟨g, hg⟩ := h
  refine alike_value (fun _ => g []) fun ρ hρ fuel v o ho => ?_
  rw [hρ.cons (by decide), parseValue_object (hρ.skip_cons hp) (hρ.terminated q).ne_nil, if_neg hc,
    ← hρ.cons hp.notSpace] at ho
  exact hg ρ hρ _ _ _ ho

theorem parseArrayFrom_alike {g : Json ν → Json ν} (hρ : Medium ρ) {fuel : ℕ} {acc : List (Json ν)}
    {o : Outcome (Json ν)} (hp : Next p c q)
    (hg : ∀ fuel v o, parseValue strtod fuel v (ρ (c :: q)) = some o → Arrives ρ (some r) (g v) o)
    (hr : Next r d s) (ho : parseArrayFrom strtod (fuel + 1) acc (ρ p) = some o) :
    (if d = ','.toUInt8 then parseArrayFrom strtod fuel (acc ++ [g .null]) (ρ s)
      else if d = ']'.toUInt8 then some (true, .array (acc ++ [g .null]), ρ s)
      else some (false, .array (acc ++ [g .null]), d :: ρ s)) = some o := by
  rw [parseArrayFrom, hρ.skip hp] at ho
  cases hval : parseValue strtod fuel .null (ρ (c :: q)) with
  | none =>
    rw [hval] at ho
    cases ho
  | some x =>
    obtain rfl := hg _ _ _ hval
    rw [hval] at ho
    dsimp only at ho
    rwa [hρ.skip_cons hr] at ho

theorem parseObjectFrom_member_alike {name : Bytes} {g : Json ν → Json ν} (hρ : Medium ρ) {fuel : ℕ}
    {acc : List (Bytes × Json ν)} {o : Outcome (Json ν)}
    (hname : parseStringRow (ρ p) = some (true, name, ρ q)) (hq : Next q ':'.toUInt8 r)
    (hr : Next r d s)
    (hg : ∀ fuel v o, parseValue strtod fuel v (ρ (d :: s)) = some o → Arrives ρ (some t) (g v) o)
    (hu : Next t c u) (ho : parseObjectFrom strtod (fuel + 1) acc (ρ p) = some o) :
    (if c = ','.toUInt8 then
      parseObjectFrom strtod fuel (emplace name (g .null) acc) (skipWriteBlank (ρ u))
    else if c = '}'.toUInt8 then some (true, .object (emplace name (g .null) acc), ρ u)
    else parseObjectFrom strtod fuel (emplace name (g .null) acc) (ρ (c :: u))) = some o := by
  rw [parseObjectFrom, hname] at ho
  dsimp only at ho
  rw [hρ.skip_cons hq] at ho
  dsimp only at ho
  rw [if_neg (by simp), hρ.skip hr] at ho
  cases hval : parseValue strtod fuel .null (ρ (d :: s)) with
  | none =>
    rw [hval] at ho
    cases ho
  | some x =>
    obtain rfl := hg _ _ _ hval
    rw [hval] at ho
    dsimp only at ho
    rw [hρ.skip_cons hu] at ho
    dsimp only at ho
    rwa [atEnd_cons (hρ.terminated u).ne_nil, if_neg (c := false = true) (by simp),
      ← hρ.cons hu.notSpace] at ho

theorem alike_badValue (hp : Next p c q) (h : Alike strtod .value (c :: q) none) :
    Alike strtod .values p none := by
  obtain ⟨g, hg⟩ := h
  refine alike_values .array fun ρ hρ fuel acc o ho => ?_
  rw [parseArrayFrom, hρ.skip hp] at ho
  cases hval : parseValue strtod fuel .null (ρ (c :: q)) with
  | none =>
    rw [hval] at ho
    cases ho
  | some x =>
    obtain ⟨s, rfl⟩ := hg ρ hρ _ _ _ hval
    rw [hval] at ho
    exact ⟨s, (Option.some.inj ho).symm⟩

theorem alike_badName (hc : isSpace c = false) (h : Quoted p none) :
    Alike strtod .member (c :: p) none := by
  refine alike_badMember fun ρ hρ fuel acc o ho => ?_
  rw [parseObjectFrom] at ho
  rcases hname : parseStringRow (ρ (c :: p)) with _ | ⟨ok, s, q⟩
  · rw [hname] at ho
    cases ho
  · obtain rfl := hρ.cut h hc hname
    rw [hname] at ho
    exact ⟨q, (Option.some.inj ho).symm⟩

theorem alike_noColon (hc : isSpace c = false) (h : Quoted p (some q)) (hq : Next q d r)
    (hd : d ≠ ':'.toUInt8) : Alike strtod .member (c :: p) none := by
  obtain ⟨name, hname⟩ := Medium.closed h
  refine alike_badMember fun ρ hρ fuel acc o ho => ?_
  rw [parseObjectFrom, hname ρ c hρ hc] at ho
  dsimp only at ho
  rw [hρ.skip_cons hq] at ho
  dsimp only at ho
  rw [if_pos hd] at ho
  exact ⟨_, (Option.some.inj ho).symm⟩

theorem alike_memberFails (hc : isSpace c = false) (h : Quoted p (some q))
    (hq : Next q ':'.toUInt8 r) (hr : Next r d s) (hs : Alike strtod .value (d :: s) none) :
    Alike strtod .member (c :: p) none := by
  obtain ⟨name, hname⟩ := Medium.closed h
  obtain ⟨g, hg⟩ := hs
  refine alike_badMember fun ρ hρ fuel acc o ho => ?_
  rw [parseObjectFrom, hname ρ c hρ hc] at ho
  dsimp only at ho
  rw [hρ.skip_cons hq] at ho
  dsimp only at ho
  rw [if_neg (by simp), hρ.skip hr] at ho
  cases hval : parseValue strtod fuel .null (ρ (d :: s)) with
  | none =>
    rw [hval] at ho
    cases ho
  | some y =>
    obtain ⟨u, rfl⟩ := hg ρ hρ _ _ _ hval
    rw [hval] at ho
    exact ⟨u, (Option.some.inj ho).symm⟩

/-- On a spaced text the parser does the same in memory and behind a file. -/
theorem Spaced.alike {g : Symbol} {x : Option Bytes} (h : Spaced strtod g p x) :
    Alike strtod g p x := by
  induction h with
  | word hw => exact alike_word hw
  | noWord hw hu hcd hc => exact alike_noWord hw hu hcd hc
  | number hc ht h hq hd => exact alike_number hc ht h hq hd
  | noNumber hc ht h hq hd => exact alike_noNumber hc ht h hq hd
  | noValue hs hn hc => exact alike_noValue hs hn hc
  | @string p r h =>
    cases r with
    | none => exact alike_cutString h
    | some q => exact alike_string h
  | emptyArray hp => exact alike_emptyArray hp
  | array hp hc _ ih => exact alike_array hp hc ih
  | emptyObject hp => exact alike_emptyObject hp
  | object hp hc _ ih => exact alike_object hp hc ih
  | badValue hp _ ih => exact alike_badValue hp ih
  | lastValue hp _ hr ih =>
    obtain ⟨g, hg⟩ := ih
    refine alike_values (fun acc => .array (acc ++ [g .null])) fun ρ hρ fuel acc o ho => ?_
    exact (Option.some.inj (parseArrayFrom_alike hρ hp (hg ρ hρ) hr ho)).symm
  | moreValues hp _ hr _ ih ihs =>
    obtain ⟨g, hg⟩ := ih
    obtain ⟨k, hk⟩ := ihs
    refine alike_values (fun acc => k (acc ++ [g .null])) fun ρ hρ fuel acc o ho => ?_
    exact hk ρ hρ _ _ _ (parseArrayFrom_alike hρ hp (hg ρ hρ) hr ho)
  | noBracket hp _ hr hd hd' ih =>
    obtain ⟨g, hg⟩ := ih
    refine alike_values (fun acc => .array (acc ++ [g .null])) fun ρ hρ fuel acc o ho => ?_
    have hstep := parseArrayFrom_alike hρ hp (hg ρ hρ) hr ho
    rw [if_neg hd, if_neg hd'] at hstep
    exact ⟨_, (Option.some.inj hstep).symm⟩
  | badName hc h => exact alike_badName hc h
  | noColon hc h hq hd => exact alike_noColon hc h hq hd
  | @member c p q r d s x hc h hq hr _ ih =>
    cases x with
    | none => exact alike_memberFails hc h hq hr ih
    | some t =>
      obtain ⟨name, hname⟩ := Medium.closed h
      obtain ⟨g, hg⟩ := ih
      refine ⟨name, g .null, fun ρ hρ fuel acc o ho e u hu => ?_⟩
      exact parseObjectFrom_member_alike hρ (hname ρ c hρ hc) hq hr (hg ρ hρ) hu ho
  | badMember _ ih => exact ⟨.object, fun ρ hρ fuel acc o ho => ih ρ hρ fuel acc o ho⟩
  | lastMember _ hq ih =>
    obtain ⟨name, v, hstep⟩ := ih
    refine alike_members (fun acc => .object (emplace name v acc)) fun ρ hρ fuel acc o ho => ?_
    exact (Option.some.inj (hstep ρ hρ fuel acc o ho _ _ hq)).symm
  | comma _ hq hr _ ih ihs =>
    obtain ⟨name, v, hstep⟩ := ih
    obtain ⟨k, hk⟩ := ihs
    refine alike_members (fun acc => k (emplace name v acc)) fun ρ hρ fuel acc o ho => ?_
    have hnext := hstep ρ hρ fuel acc o ho _ _ hq
    rw [if_pos rfl, hρ.skip hr] at hnext
    exact hk ρ hρ _ _ _ hnext
  | noComma _ hq hc hc' _ ih ihs =>
    obtain ⟨name, v, hstep⟩ := ih
    obtain ⟨k, hk⟩ := ihs
    refine alike_members (fun acc => k (emplace name v acc)) fun ρ hρ fuel acc o ho => ?_
    have hnext := hstep ρ hρ fuel acc o ho _ _ hq
    rw [if_neg hc, if_neg hc'] at hnext
    exact hk ρ hρ _ _ _ hnext

end Tadis.Pson
