import Mathlib.Data.List.DropRight
import Tadis.JsonNumbers

/-!
# What the JSON parser reads

`Reads g p f q`: from the cursor `p` the parser reads what `g` says and stops at `q`. The flag `f` says
that on the way it took something that JSON does not have: another byte for the opening quote of a
name, a member without a comma before it, a control character in a string, or an escape that does not
exist.
-/

namespace Tadis.Pson

/-- `c`, read after a backslash and before `p`, belongs to an escape. -/
def isEscape (c : UInt8) (p : Bytes) : Bool :=
  c ∈ str "\"\\/bfnrt" ∨
    (c = 'u'.toUInt8 ∧ (p.take 4).length = 4 ∧ (p.take 4).all (fun c => (hexDigit c).isSome))

/-- The rest of a string from `p` to the closing quote. A backslash is stored twice, and the byte behind
it is dropped. -/
inductive ReadsString : Bytes → Bytes → Bool → Bytes → Prop
  | close {q} : ReadsString ('"'.toUInt8 :: q) [] false q
  | char {c p s f q} (hq : c ≠ '"'.toUInt8) (hb : c ≠ '\\'.toUInt8) (h0 : c ≠ 0)
      (h : ReadsString p s f q) : ReadsString (c :: p) (c :: s) (c < 0x20 || f) q
  | escape {c p s f q} (h : ReadsString p s f q) :
      ReadsString ('\\'.toUInt8 :: c :: p) ('\\'.toUInt8 :: '\\'.toUInt8 :: s)
        (!isEscape c p || f) q

inductive Goal (ν : Type)
  | value (v : Json ν)
  | values (vs : List (Json ν))
  | member (name : Bytes) (v : Json ν)
  | members (ms : List (Bytes × Json ν))

inductive Reads (strtod : Bytes → Option ν) : Goal ν → Bytes → Bool → Bytes → Prop
  | nullLit {p q} (hp : p = str "null" ++ q) : Reads strtod (.value .null) p false q
  | trueLit {p q} (hp : p = str "true" ++ q) : Reads strtod (.value (.bool true)) p false q
  | falseLit {p q} (hp : p = str "false" ++ q) : Reads strtod (.value (.bool false)) p false q
  | number {p q x} (h : scanNumber p = some (some q)) (hx : strtod p = some x) :
    Reads strtod (.value (.number x)) p false q
  | string {p s f q} (h : ReadsString p s f q) :
    Reads strtod (.value (.string s)) ('"'.toUInt8 :: p) f q
  | emptyArray {p q} (hp : skipWriteBlank p = ']'.toUInt8 :: q) :
    Reads strtod (.value (.array [])) ('['.toUInt8 :: p) false q
  | array {p vs f q} (h : Reads strtod (.values vs) p f q) :
    Reads strtod (.value (.array vs)) ('['.toUInt8 :: p) f q
  | emptyObject {p q} (hp : skipWriteBlank p = '}'.toUInt8 :: q) :
    Reads strtod (.value (.object [])) ('{'.toUInt8 :: p) false q
  | object {p ms f q} (hp : (skipWriteBlank p).head? ≠ some '}'.toUInt8)
      (h : Reads strtod (.members ms) (skipWriteBlank p) f q) :
    Reads strtod (.value (.object (build ms))) ('{'.toUInt8 :: p) f q
  | oneValue {p v f q r} (h : Reads strtod (.value v) (skipWriteBlank p) f q)
      (hq : skipWriteBlank q = ']'.toUInt8 :: r) : Reads strtod (.values [v]) p f r
  | moreValues {p v f q r vs f' t} (h : Reads strtod (.value v) (skipWriteBlank p) f q)
      (hq : skipWriteBlank q = ','.toUInt8 :: r) (hvs : Reads strtod (.values vs) r f' t) :
    Reads strtod (.values (v :: vs)) p (f || f') t
  | member {c p name f q r v f' t} (hname : ReadsString p name f q)
      (hq : skipWriteBlank q = ':'.toUInt8 :: r)
      (h : Reads strtod (.value v) (skipWriteBlank r) f' t) :
    Reads strtod (.member name v) (c :: p) (c ≠ '"'.toUInt8 || f || f') t
  | oneMember {p name v f q r} (h : Reads strtod (.member name v) p f q)
      (hq : skipWriteBlank q = '}'.toUInt8 :: r) : Reads strtod (.members [(name, v)]) p f r
  | comma {p name v f q r ms f' t} (h : Reads strtod (.member name v) p f q)
      (hq : skipWriteBlank q = ','.toUInt8 :: r)
      (hms : Reads strtod (.members ms) (skipWriteBlank r) f' t) :
    Reads strtod (.members ((name, v) :: ms)) p (f || f') t
  | noComma {p name v f q c r ms f' t} (h : Reads strtod (.member name v) p f q)
      (hq : skipWriteBlank q = c :: r) (hc : c ≠ ','.toUInt8) (hc' : c ≠ '}'.toUInt8)
      (hms : Reads strtod (.members ms) (c :: r) f' t) :
    Reads strtod (.members ((name, v) :: ms)) p true t

variable {ν : Type} {strtod : Bytes → Option ν} {p q r s t : Bytes} {f f' : Bool} {fuel : ℕ}
  {v : Json ν}

theorem parseEscape_backslash (s p : Bytes) :
    parseEscape '\\'.toUInt8 s p = some (some (s ++ ['\\'.toUInt8]), p) := by
  rw [parseEscape, if_neg (by decide), if_pos rfl]

theorem stringRow_sound {acc : Bytes} (h : stringRow fuel acc p = some (true, s, q)) :
    ∃ t f, s = acc ++ t ∧ ReadsString p t f q := by
  induction fuel generalizing acc p with
  | zero => cases h
  | succ fuel ih =>
    cases p with
    | nil => cases h
    | cons c p =>
      rw [stringRow] at h
      split_ifs at h with hend hq h0 hb
      · cases h
      · obtain ⟨rfl, rfl⟩ := by simpa using h
        subst hq
        exact ⟨[], false, by simp, .close⟩
      · cases h
      · subst hb
        rw [parseEscape_backslash] at h
        dsimp only at h
        obtain ⟨t, f, rfl, ht⟩ := ih h
        cases p with
        | nil =>
          rw [List.tail_nil] at ht
          cases ht
        | cons c p => exact ⟨_, _, by simp, .escape ht⟩
      · obtain ⟨t, f, rfl, ht⟩ := ih h
        exact ⟨c :: t, _, by simp, .char hq hb h0 ht⟩

def Terminated (p : Bytes) : Prop := p.getLast? = some 0

theorem Terminated.suffix (h : Terminated p) (hpq : ∃ t, p = t ++ q) (hq : q ≠ []) : Terminated q := by
  obtain ⟨t, rfl⟩ := hpq
  rwa [Terminated, List.getLast?_append_of_ne_nil t hq] at h

theorem Terminated.ne_nil (h : Terminated p) : p ≠ [] := by
  rintro rfl
  cases h

theorem Terminated.tail {c : UInt8} (h : Terminated (c :: p)) (hc : c ≠ 0) : Terminated p := by
  apply h.suffix ⟨[c], rfl⟩
  rintro rfl
  exact hc (by simpa [Terminated] using h)

theorem ReadsString.ne_nil (h : ReadsString p s f q) : p ≠ [] := by
  cases h <;> simp

theorem ReadsString.consumes (h : ReadsString p s f q) : ∃ t, p = t ++ '"'.toUInt8 :: q := by
  induction h with
  | close => exact ⟨[], rfl⟩
  | @char c p s f q _ _ _ _ ih =>
    obtain ⟨t, rfl⟩ := ih
    exact ⟨c :: t, rfl⟩
  | @escape c p s f q _ ih =>
    obtain ⟨t, rfl⟩ := ih
    exact ⟨'\\'.toUInt8 :: c :: t, rfl⟩

theorem ReadsString.terminated (h : ReadsString p s f q) (hp : Terminated p) : Terminated q := by
  obtain ⟨t, rfl⟩ := h.consumes
  exact (hp.suffix ⟨t, rfl⟩ (by simp)).tail (by decide)

theorem atEnd_cons {c : UInt8} (hp : p ≠ []) : atEnd (c :: p) = false := by
  cases p with
  | nil => exact absurd rfl hp
  | cons => simp [atEnd]

theorem stringRow_complete {acc : Bytes} (h : ReadsString p t f q) (hp : Terminated p)
    (hfuel : p.length ≤ fuel) : stringRow fuel acc p = some (true, acc ++ t, q) := by
  induction h generalizing fuel acc with
  | close =>
    obtain ⟨fuel, rfl⟩ := Nat.exists_eq_succ_of_ne_zero (Nat.ne_zero_of_lt hfuel)
    rw [stringRow, atEnd_cons (hp.tail (by decide)).ne_nil]
    simp
  | @char c p s f q hq hb h0 hs ih =>
    obtain ⟨fuel, rfl⟩ := Nat.exists_eq_succ_of_ne_zero (Nat.ne_zero_of_lt hfuel)
    have hlen : p.length ≤ fuel := by simpa using hfuel
    rw [stringRow, atEnd_cons hs.ne_nil, if_neg (by simp), if_neg hq, if_neg h0, if_neg hb,
      ih (hp.suffix ⟨[c], rfl⟩ hs.ne_nil) hlen]
    simp
  | @escape c p s f q hs ih =>
    obtain ⟨fuel, rfl⟩ := Nat.exists_eq_succ_of_ne_zero (Nat.ne_zero_of_lt hfuel)
    have hlen : p.length ≤ fuel := by
      rw [List.length_cons, List.length_cons] at hfuel
      omega
    rw [stringRow, atEnd_cons (by simp), if_neg (by simp), if_neg (by decide), if_neg (by decide),
      if_pos rfl, parseEscape_backslash]
    dsimp only
    rw [List.tail_cons, ih (hp.suffix ⟨[_, c], rfl⟩ hs.ne_nil) hlen]
    simp

theorem parseStringRow_sound {c : UInt8} (h : parseStringRow (c :: p) = some (true, s, q)) :
    ∃ f, ReadsString p s f q := by
  obtain ⟨t, f, rfl, ht⟩ := stringRow_sound h
  exact ⟨f, ht⟩

theorem parseStringRow_complete {c : UInt8} (h : ReadsString p s f q) (hp : Terminated (c :: p)) :
    parseStringRow (c :: p) = some (true, s, q) :=
  stringRow_complete h (hp.suffix ⟨[c], rfl⟩ h.ne_nil) (Nat.le_succ _)

theorem parseWord_sound {c : UInt8} {w : Bytes} {val v x : Json ν}
    (h : parseWord (c :: w) val v (c :: p) = (true, x, q)) : x = val ∧ c :: p = c :: w ++ q := by
  rw [parseWord] at h
  split_ifs at h with hword
  · obtain ⟨rfl, rfl⟩ := by simpa using h
    have htake : p.take w.length = w := by simpa using hword.2
    refine ⟨rfl, ?_⟩
    calc c :: p = c :: (p.take w.length ++ p.drop w.length) := by rw [List.take_append_drop]
      _ = c :: w ++ p.drop w.length := by rw [htake, List.cons_append]
  · cases h

theorem parseNumber_sound {v₀ : Json ν} (h : parseNumber strtod v₀ p = some (true, v, q)) :
    Reads strtod (.value v) p false q := by
  obtain ⟨r, hr, h⟩ := Option.map_eq_some_iff.1 h
  rcases r with _ | r
  · cases h
  · cases hx : strtod p with
    | none =>
      rw [hx] at h
      cases h
    | some x =>
      rw [hx] at h
      cases h
      exact .number hr hx

theorem parseString_sound {v₀ : Json ν} {c : UInt8}
    (h : parseString v₀ (c :: p) = some (true, v, q)) :
    ∃ s f, v = .string s ∧ ReadsString p s f q := by
  obtain ⟨⟨ok, s, r⟩, hr, h⟩ := Option.map_eq_some_iff.1 h
  cases ok
  · cases h
  · cases h
    obtain ⟨f, hs⟩ := parseStringRow_sound hr
    exact ⟨s, f, rfl, hs⟩

/-- The parse functions read when they succeed with `fuel`. -/
structure Sound (strtod : Bytes → Option ν) (fuel : ℕ) : Prop where
  value : ∀ {v₀ v p q}, parseValue strtod fuel v₀ p = some (true, v, q) →
    ∃ f, Reads strtod (.value v) p f q
  values : ∀ {acc v p q}, parseArrayFrom strtod fuel acc p = some (true, v, q) →
    ∃ vs f, v = .array (acc ++ vs) ∧ Reads strtod (.values vs) p f q
  members : ∀ {acc v p q}, parseObjectFrom strtod fuel acc p = some (true, v, q) →
    ∃ ms f, v = .object (ms.foldl (fun acc m => emplace m.1 m.2 acc) acc) ∧
      Reads strtod (.members ms) p f q

theorem skipWriteBlank_idem (p : Bytes) : skipWriteBlank (skipWriteBlank p) = skipWriteBlank p :=
  List.dropWhile_idempotent isBlank p

theorem Reads.values_skip {vs : List (Json ν)} (h : Reads strtod (.values vs) (skipWriteBlank p) f q) :
    Reads strtod (.values vs) p f q := by
  cases h with
  | oneValue h hq =>
    rw [skipWriteBlank_idem] at h
    exact .oneValue h hq
  | moreValues h hq hvs =>
    rw [skipWriteBlank_idem] at h
    exact .moreValues h hq hvs

theorem parseValue_cases {P : Option (Outcome (Json ν)) → Prop} (fuel : ℕ) (v : Json ν) (c : UInt8)
    (p : Bytes) (ht : c = 't'.toUInt8 → P (some (parseTrue v (c :: p))))
    (hf : c = 'f'.toUInt8 → P (some (parseFalse v (c :: p))))
    (hn : c = 'n'.toUInt8 → P (some (parseNull v (c :: p))))
    (hs : c = '"'.toUInt8 → P (parseString v (c :: p)))
    (hend : P (some (false, v, skipWriteBlank p)))
    (ha₀ : c = '['.toUInt8 → (skipWriteBlank p).head? = some ']'.toUInt8 →
      P (some (true, .array [], (skipWriteBlank p).tail)))
    (ha : c = '['.toUInt8 → P (parseArrayFrom strtod fuel [] (skipWriteBlank p)))
    (ho₀ : c = '{'.toUInt8 → (skipWriteBlank p).head? = some '}'.toUInt8 →
      P (some (true, .object [], (skipWriteBlank p).tail)))
    (ho : c = '{'.toUInt8 → (skipWriteBlank p).head? ≠ some '}'.toUInt8 →
      P (parseObjectFrom strtod fuel [] (skipWriteBlank p)))
    (hx : P (parseNumber strtod v (c :: p))) : P (parseValue strtod (fuel + 1) v (c :: p)) := by
  rw [parseValue]
  by_cases h₁ : c = 't'.toUInt8
  · rw [if_pos h₁]
    exact ht h₁
  rw [if_neg h₁]
  by_cases h₂ : c = 'f'.toUInt8
  · rw [if_pos h₂]
    exact hf h₂
  rw [if_neg h₂]
  by_cases h₃ : c = 'n'.toUInt8
  · rw [if_pos h₃]
    exact hn h₃
  rw [if_neg h₃]
  by_cases h₄ : c = '"'.toUInt8
  · rw [if_pos h₄]
    exact hs h₄
  rw [if_neg h₄]
  by_cases h₅ : c = '['.toUInt8
  · rw [if_pos h₅]
    dsimp only
    split_ifs with he hb
    · exact hend
    · exact ha₀ h₅ hb
    · exact ha h₅
  rw [if_neg h₅]
  by_cases h₆ : c = '{'.toUInt8
  · rw [if_pos h₆]
    dsimp only
    split_ifs with he hb
    · exact hend
    · exact ho₀ h₆ hb
    · exact ho h₆ hb
  rw [if_neg h₆]
  exact hx

theorem parseValue_number {c : UInt8} (hc : c ∉ str "tfn\"[\x7b") (fuel : ℕ) (v : Json ν) :
    parseValue strtod (fuel + 1) v (c :: p) = parseNumber strtod v (c :: p) := by
  have hne : ∀ d ∈ str "tfn\"[\x7b", ¬ c = d := by
    rintro d hd rfl
    exact hc hd
  rw [parseValue, if_neg (hne _ (by decide)), if_neg (hne _ (by decide)), if_neg (hne _ (by decide)),
    if_neg (hne _ (by decide)), if_neg (hne _ (by decide)), if_neg (hne _ (by decide))]

theorem parseValue_array {c : UInt8} (hp : skipWriteBlank p = c :: q) (hq : q ≠ []) (fuel : ℕ)
    (v : Json ν) : parseValue strtod (fuel + 1) v ('['.toUInt8 :: p) =
      if c = ']'.toUInt8 then some (true, .array [], q)
      else parseArrayFrom strtod fuel [] (c :: q) := by
  change (if atEnd (skipWriteBlank p) then _ else if _ then _ else _) = _
  rw [hp, atEnd_cons hq]
  simp

theorem parseValue_object {c : UInt8} (hp : skipWriteBlank p = c :: q) (hq : q ≠ []) (fuel : ℕ)
    (v : Json ν) : parseValue strtod (fuel + 1) v ('{'.toUInt8 :: p) =
      if c = '}'.toUInt8 then some (true, .object [], q)
      else parseObjectFrom strtod fuel [] (c :: q) := by
  change (if atEnd (skipWriteBlank p) then _ else if _ then _ else _) = _
  rw [hp, atEnd_cons hq]
  simp

theorem Sound.value_succ (hs : Sound strtod fuel) {v₀ : Json ν}
    (h : parseValue strtod (fuel + 1) v₀ p = some (true, v, q)) :
    ∃ f, Reads strtod (.value v) p f q := by
  cases p with
  | nil => cases h
  | cons c p =>
    revert h
    refine parseValue_cases (P := fun r => r = some (true, v, q) → _) fuel v₀ c p ?_ ?_ ?_ ?_ ?_ ?_ ?_
      ?_ ?_ ?_
    · rintro rfl h
      obtain ⟨rfl, hp⟩ := parseWord_sound (w := str "rue") (Option.some.inj h)
      exact ⟨false, .trueLit hp⟩
    · rintro rfl h
      obtain ⟨rfl, hp⟩ := parseWord_sound (w := str "alse") (Option.some.inj h)
      exact ⟨false, .falseLit hp⟩
    · rintro rfl h
      obtain ⟨rfl, hp⟩ := parseWord_sound (w := str "ull") (Option.some.inj h)
      exact ⟨false, .nullLit hp⟩
    · rintro rfl h
      obtain ⟨s, f, rfl, hs⟩ := parseString_sound h
      exact ⟨f, .string hs⟩
    · intro h
      cases h
    · rintro rfl hb h
      obtain ⟨rfl, rfl⟩ := by simpa using h
      obtain ⟨q, hq⟩ := List.head?_eq_some_iff.1 hb
      exact ⟨false, .emptyArray (by rw [hq, List.tail_cons])⟩
    · rintro rfl h
      obtain ⟨vs, f, rfl, hvs⟩ := hs.values h
      exact ⟨f, by simpa using Reads.array hvs.values_skip⟩
    · rintro rfl hb h
      obtain ⟨rfl, rfl⟩ := by simpa using h
      obtain ⟨q, hq⟩ := List.head?_eq_some_iff.1 hb
      exact ⟨false, .emptyObject (by rw [hq, List.tail_cons])⟩
    · rintro rfl hb h
      obtain ⟨ms, f, rfl, hms⟩ := hs.members h
      exact ⟨f, .object hb hms⟩
    · exact fun h => ⟨false, parseNumber_sound h⟩

theorem Sound.values_succ (hs : Sound strtod fuel) {acc : List (Json ν)}
    (h : parseArrayFrom strtod (fuel + 1) acc p = some (true, v, q)) :
    ∃ vs f, v = .array (acc ++ vs) ∧ Reads strtod (.values vs) p f q := by
  rw [parseArrayFrom] at h
  rcases hval : parseValue strtod fuel .null (skipWriteBlank p) with _ | ⟨_ | _, w, r⟩ <;>
    rw [hval] at h <;> dsimp only at h
  · cases h
  · cases h
  · obtain ⟨f, hw⟩ := hs.value hval
    cases hr : skipWriteBlank r with
    | nil =>
      rw [hr] at h
      cases h
    | cons c r' =>
      rw [hr] at h
      dsimp only at h
      split_ifs at h with hcomma hclose
      · subst hcomma
        obtain ⟨vs, f', rfl, hvs⟩ := hs.values h
        exact ⟨w :: vs, f || f', by simp, .moreValues hw hr hvs⟩
      · subst hclose
        obtain ⟨rfl, rfl⟩ := by simpa using h
        exact ⟨[w], f, rfl, .oneValue hw hr⟩
      · cases h

theorem Sound.members_succ (hs : Sound strtod fuel) {acc : List (Bytes × Json ν)}
    (h : parseObjectFrom strtod (fuel + 1) acc p = some (true, v, q)) :
    ∃ ms f, v = .object (ms.foldl (fun acc m => emplace m.1 m.2 acc) acc) ∧
      Reads strtod (.members ms) p f q := by
  cases p with
  | nil => cases h
  | cons c p =>
    rw [parseObjectFrom] at h
    rcases hname : parseStringRow (c :: p) with _ | ⟨_ | _, name, r⟩ <;> rw [hname] at h <;>
      dsimp only at h
    · cases h
    · cases h
    · obtain ⟨fn, hread⟩ := parseStringRow_sound hname
      cases hr : skipWriteBlank r with
      | nil =>
        rw [hr] at h
        cases h
      | cons c₁ r₁ =>
        rw [hr] at h
        dsimp only at h
        split_ifs at h with hcolon
        · cases h
        · obtain rfl := not_not.1 hcolon
          rcases hval : parseValue strtod fuel .null (skipWriteBlank r₁) with _ | ⟨_ | _, w, r₂⟩ <;>
            rw [hval] at h <;> dsimp only at h
          · cases h
          · cases h
          · obtain ⟨f, hw⟩ := hs.value hval
            have hmember := Reads.member (c := c) hread hr hw
            cases hr₂ : skipWriteBlank r₂ with
            | nil =>
              rw [hr₂] at h
              cases h
            | cons c₃ r₃ =>
              rw [hr₂] at h
              dsimp only at h
              split_ifs at h with hcomma hclose hend
              · subst hcomma
                obtain ⟨ms, f', rfl, hms⟩ := hs.members h
                exact ⟨(name, w) :: ms, _, rfl, .comma hmember hr₂ hms⟩
              · subst hclose
                obtain ⟨rfl, rfl⟩ := by simpa using h
                exact ⟨[(name, w)], _, rfl, .oneMember hmember hr₂⟩
              · cases h
              · obtain ⟨ms, f', rfl, hms⟩ := hs.members h
                exact ⟨(name, w) :: ms, true, rfl, .noComma hmember hr₂ hcomma hclose hms⟩

theorem sound (strtod : Bytes → Option ν) (fuel : ℕ) : Sound strtod fuel := by
  induction fuel with
  | zero =>
    constructor
    · intro _ _ _ _ h
      cases h
    · intro _ _ _ _ h
      cases h
    · intro _ _ _ _ h
      cases h
  | succ fuel ih => exact ⟨ih.value_succ, ih.values_succ, ih.members_succ⟩

theorem skipWriteBlank_suffix (p : Bytes) : ∃ w, p = w ++ skipWriteBlank p :=
  ⟨p.takeWhile isBlank, List.takeWhile_append_dropWhile.symm⟩

theorem length_skipWriteBlank (p : Bytes) : (skipWriteBlank p).length ≤ p.length := by
  obtain ⟨w, hw⟩ := skipWriteBlank_suffix p
  have hlen := congrArg List.length hw
  rw [List.length_append] at hlen
  omega

theorem Terminated.skip (h : Terminated p) : Terminated (skipWriteBlank p) := by
  apply h.suffix (skipWriteBlank_suffix p)
  intro hnil
  have hzero : (0 : UInt8) ∈ p := List.mem_of_getLast? h
  have hblank := List.dropWhile_eq_nil_iff.1 hnil 0 hzero
  exact absurd hblank (by decide)

theorem Terminated.behind {c : UInt8} (h : Terminated p) (hq : skipWriteBlank p = c :: q)
    (hc : c ≠ 0) : Terminated q := by
  have hskip := h.skip
  rw [hq] at hskip
  exact hskip.tail hc

theorem Terminated.append {w : Bytes} (h : Terminated (w ++ q)) (hw : w.getLast? ≠ some 0) :
    Terminated q := by
  apply h.suffix ⟨w, rfl⟩
  rintro rfl
  rw [List.append_nil] at h
  exact hw h

theorem length_behind {c : UInt8} (hq : skipWriteBlank p = c :: q) : q.length < p.length := by
  have hle := length_skipWriteBlank p
  rw [hq, List.length_cons] at hle
  omega

/-- Reading moves on and stays before the terminating NUL. -/
theorem Reads.moves {g : Goal ν} (h : Reads strtod g p f q) (hp : Terminated p) :
    Terminated q ∧ q.length < p.length := by
  induction h with
  | nullLit hq =>
    subst hq
    exact ⟨hp.append (by decide), by simp [str]; omega⟩
  | trueLit hq =>
    subst hq
    exact ⟨hp.append (by decide), by simp [str]; omega⟩
  | falseLit hq =>
    subst hq
    exact ⟨hp.append (by decide), by simp [str]; omega⟩
  | number h _ =>
    obtain ⟨t, rfl, ht, hq⟩ := scanNumber_sound h
    refine ⟨hp.suffix ⟨t, rfl⟩ hq, ?_⟩
    have hne := ht.ne_nil
    rw [List.length_append]
    have := List.length_pos_of_ne_nil hne
    omega
  | string h =>
    obtain ⟨t, rfl⟩ := h.consumes
    refine ⟨h.terminated (hp.tail (by decide)), ?_⟩
    simp
    omega
  | emptyArray hq =>
    have hlt := length_behind hq
    exact ⟨(hp.tail (by decide)).behind hq (by decide), by simp; omega⟩
  | array _ ih =>
    obtain ⟨hq, hlt⟩ := ih (hp.tail (by decide))
    exact ⟨hq, by simp; omega⟩
  | emptyObject hq =>
    have hlt := length_behind hq
    exact ⟨(hp.tail (by decide)).behind hq (by decide), by simp; omega⟩
  | @object p ms f q _ _ ih =>
    obtain ⟨hq, hlt⟩ := ih (hp.tail (by decide)).skip
    have hle := length_skipWriteBlank p
    exact ⟨hq, by simp; omega⟩
  | @oneValue p v f q r _ hq ih =>
    obtain ⟨hq', hlt⟩ := ih hp.skip
    have hle := length_skipWriteBlank p
    have hr := length_behind hq
    exact ⟨hq'.behind hq (by decide), by omega⟩
  | @moreValues p v f q r vs f' t _ hq _ ih ihs =>
    obtain ⟨hq', hlt⟩ := ih hp.skip
    obtain ⟨ht, hlt'⟩ := ihs (hq'.behind hq (by decide))
    have hle := length_skipWriteBlank p
    have hr := length_behind hq
    exact ⟨ht, by omega⟩
  | @member c p name f q r v f' t hname hq _ ih =>
    have hp' := hp.suffix ⟨[c], rfl⟩ hname.ne_nil
    have hq' := hname.terminated hp'
    obtain ⟨ht, hlt⟩ := ih (hq'.behind hq (by decide)).skip
    obtain ⟨u, rfl⟩ := hname.consumes
    have hle := length_skipWriteBlank r
    have hr := length_behind hq
    refine ⟨ht, ?_⟩
    simp
    omega
  | oneMember _ hq ih =>
    obtain ⟨hq', hlt⟩ := ih hp
    have hr := length_behind hq
    exact ⟨hq'.behind hq (by decide), by omega⟩
  | @comma p name v f q r ms f' t _ hq _ ih ihs =>
    obtain ⟨hq', hlt⟩ := ih hp
    obtain ⟨ht, hlt'⟩ := ihs (hq'.behind hq (by decide)).skip
    have hle := length_skipWriteBlank r
    have hr := length_behind hq
    exact ⟨ht, by omega⟩
  | @noComma p name v f q c r ms f' t _ hq _ _ _ ih ihs =>
    obtain ⟨hq', hlt⟩ := ih hp
    have hskip := hq'.skip
    rw [hq] at hskip
    obtain ⟨ht, hlt'⟩ := ihs hskip
    have hr := length_behind hq
    rw [List.length_cons] at hlt'
    exact ⟨ht, by omega⟩

/-- The parse functions succeed on what is read, with enough fuel. -/
def Parses (strtod : Bytes → Option ν) : Goal ν → Bytes → Bytes → Prop
  | .value v, p, q => ∀ fuel v₀, 2 * p.length ≤ fuel →
      parseValue strtod fuel v₀ p = some (true, v, q)
  | .values vs, p, q => ∀ fuel acc, 2 * p.length < fuel →
      parseArrayFrom strtod fuel acc p = some (true, .array (acc ++ vs), q)
  | .member name v, p, q => ∃ r r', parseStringRow p = some (true, name, r) ∧
      skipWriteBlank r = ':'.toUInt8 :: r' ∧ ∀ fuel v₀, 2 * p.length ≤ fuel →
        parseValue strtod fuel v₀ (skipWriteBlank r') = some (true, v, q)
  | .members ms, p, q => ∀ fuel acc, 2 * p.length < fuel →
      parseObjectFrom strtod fuel acc p =
        some (true, .object (ms.foldl (fun acc m => emplace m.1 m.2 acc) acc), q)

theorem parseWord_complete {w : Bytes} (val v₀ : Json ν) (hq : q ≠ []) :
    parseWord w val v₀ (w ++ q) = (true, val, q) := by
  have hlen : w.length < (w ++ q).length ∧ ((w ++ q).take w.length).tail = w.tail := by
    have := List.length_pos_of_ne_nil hq
    simp
    omega
  rw [parseWord, if_pos hlen, List.drop_left]

theorem fuel_succ {c : UInt8} (h : 2 * (c :: p).length ≤ fuel) :
    ∃ k, fuel = k + 1 ∧ 2 * p.length < k := by
  obtain ⟨k, rfl⟩ := Nat.exists_eq_succ_of_ne_zero (Nat.ne_zero_of_lt (Nat.lt_of_lt_of_le
    (by simp : 0 < 2 * (c :: p).length) h))
  rw [List.length_cons] at h
  exact ⟨k, rfl, by omega⟩

theorem scanNumber_head {c : UInt8} (h : scanNumber (c :: p) = some (some q)) :
    c = 0x2D ∨ JsonGrammar.IsDigit c := by
  obtain ⟨t, hp, ht, _⟩ := scanNumber_sound h
  obtain ⟨d, u, rfl, hd⟩ := ht.head
  obtain rfl : c = d := by
    rw [List.cons_append] at hp
    exact (List.cons_eq_cons.1 hp).1
  exact hd

/-- What a number starts with starts nothing else. -/
theorem notMem_heads {c : UInt8} (h : c = 0x2D ∨ JsonGrammar.IsDigit c) :
    c ∉ str "tfn\"[\x7b" := by
  intro hmem
  have hall : (str "tfn\"[\x7b").all
      (fun b => !decide (b = 0x2D ∨ JsonGrammar.IsDigit b)) = true := by decide
  simpa [h] using List.all_eq_true.1 hall c hmem

theorem parseNumber_complete {x : ν} (v₀ : Json ν) (h : scanNumber p = some (some q))
    (hx : strtod p = some x) : parseNumber strtod v₀ p = some (true, .number x, q) := by
  rw [parseNumber, h, Option.map_some, hx]

theorem Reads.head_ne {c : UInt8} (h : Reads strtod (.value v) (c :: p) f q) : c ≠ ']'.toUInt8 := by
  rintro rfl
  cases h with
  | nullLit hp => cases hp
  | trueLit hp => cases hp
  | falseLit hp => cases hp
  | number h _ => exact absurd (scanNumber_head h) (by decide)

theorem Reads.values_head {vs : List (Json ν)} (h : Reads strtod (.values vs) p f q) :
    (skipWriteBlank p).head? ≠ some ']'.toUInt8 := by
  intro hhead
  obtain ⟨p', hp'⟩ := List.head?_eq_some_iff.1 hhead
  cases h with
  | oneValue h _ =>
    rw [hp'] at h
    exact h.head_ne rfl
  | moreValues h _ _ =>
    rw [hp'] at h
    exact h.head_ne rfl

theorem parseArrayFrom_skip (fuel : ℕ) (acc : List (Json ν)) (p : Bytes) :
    parseArrayFrom strtod fuel acc (skipWriteBlank p) = parseArrayFrom strtod fuel acc p := by
  cases fuel with
  | zero => rfl
  | succ fuel => rw [parseArrayFrom, parseArrayFrom, skipWriteBlank_idem]

/-- Where something is read, the end has not been reached. -/
theorem Reads.not_atEnd {g : Goal ν} (h : Reads strtod g p f q) (hp : Terminated p) :
    atEnd p = false := by
  obtain ⟨hq, hlt⟩ := h.moves hp
  have hpos := List.length_pos_of_ne_nil hq.ne_nil
  simp [atEnd]
  omega

theorem Reads.values_not_atEnd {vs : List (Json ν)} (h : Reads strtod (.values vs) p f q)
    (hp : Terminated p) : atEnd (skipWriteBlank p) = false := by
  cases h with
  | oneValue h _ => exact h.not_atEnd hp.skip
  | moreValues h _ _ => exact h.not_atEnd hp.skip

/-- A literal name that `parse_value` goes to by its first byte. -/
theorem parses_word {c : UInt8} {w : Bytes} {val : Json ν}
    (hvalue : ∀ k v₀, parseValue strtod (k + 1) v₀ (c :: w ++ q) =
      some (parseWord (c :: w) val v₀ (c :: w ++ q)))
    (hlast : (c :: w).getLast? ≠ some 0) (hp : Terminated (c :: w ++ q)) :
    Parses strtod (.value val) (c :: w ++ q) q := by
  intro fuel v₀ hfuel
  obtain ⟨k, rfl, _⟩ := fuel_succ hfuel
  rw [hvalue, parseWord_complete val v₀ (hp.append hlast).ne_nil]

/-- One round of the loop over the elements of an array. -/
theorem parseArrayFrom_value {c : UInt8} (h : Parses strtod (.value v) (skipWriteBlank p) q)
    (hq : skipWriteBlank q = c :: r) (hfuel : 2 * p.length ≤ fuel) (acc : List (Json ν)) :
    parseArrayFrom strtod (fuel + 1) acc p =
      if c = ','.toUInt8 then parseArrayFrom strtod fuel (acc ++ [v]) r
      else if c = ']'.toUInt8 then some (true, .array (acc ++ [v]), r)
      else some (false, .array (acc ++ [v]), c :: r) := by
  have hle := length_skipWriteBlank p
  rw [parseArrayFrom, h fuel .null (by omega)]
  dsimp only
  rw [hq]

/-- One round of the loop over the members of an object. -/
theorem parseObjectFrom_member {name : Bytes} {c : UInt8} (h : Parses strtod (.member name v) p q)
    (hq : skipWriteBlank q = c :: r) (hfuel : 2 * p.length ≤ fuel) (acc : List (Bytes × Json ν)) :
    parseObjectFrom strtod (fuel + 1) acc p =
      if c = ','.toUInt8 then
        parseObjectFrom strtod fuel (emplace name v acc) (skipWriteBlank r)
      else if c = '}'.toUInt8 then some (true, .object (emplace name v acc), r)
      else if atEnd (c :: r) then some (false, .object (emplace name v acc), c :: r)
      else parseObjectFrom strtod fuel (emplace name v acc) (c :: r) := by
  obtain ⟨r₁, r₂, hname, hcolon, hval⟩ := h
  rw [parseObjectFrom, hname]
  dsimp only
  rw [hcolon]
  dsimp only
  rw [if_neg (by simp), hval fuel .null hfuel]
  dsimp only
  rw [hq]

theorem Reads.parses {g : Goal ν} (h : Reads strtod g p f q) (hp : Terminated p) :
    Parses strtod g p q := by
  induction h with
  | nullLit hq =>
    subst hq
    exact parses_word (fun _ _ => rfl) (by decide) hp
  | trueLit hq =>
    subst hq
    exact parses_word (fun _ _ => rfl) (by decide) hp
  | falseLit hq =>
    subst hq
    exact parses_word (fun _ _ => rfl) (by decide) hp
  | @number p q x h hx =>
    intro fuel v₀ hfuel
    cases p with
    | nil => cases h
    | cons c p =>
      obtain ⟨k, rfl, _⟩ := fuel_succ hfuel
      rw [parseValue_number (notMem_heads (scanNumber_head h)), parseNumber_complete v₀ h hx]
  | string h =>
    intro fuel v₀ hfuel
    obtain ⟨k, rfl, _⟩ := fuel_succ hfuel
    change parseString v₀ _ = _
    rw [parseString, parseStringRow_complete h hp]
    rfl
  | @emptyArray p q hq =>
    intro fuel v₀ hfuel
    obtain ⟨k, rfl, _⟩ := fuel_succ hfuel
    have hne := ((hp.tail (by decide)).behind hq (by decide)).ne_nil
    rw [parseValue_array hq hne, if_pos rfl]
  | @array p vs f q h ih =>
    intro fuel v₀ hfuel
    obtain ⟨k, rfl, hk⟩ := fuel_succ hfuel
    have hp' := hp.tail (by decide)
    change (if atEnd (skipWriteBlank p) then _ else if _ then _ else _) = _
    rw [h.values_not_atEnd hp', if_neg (by simp), if_neg h.values_head, parseArrayFrom_skip]
    exact ih hp' k [] hk
  | @emptyObject p q hq =>
    intro fuel v₀ hfuel
    obtain ⟨k, rfl, _⟩ := fuel_succ hfuel
    have hne := ((hp.tail (by decide)).behind hq (by decide)).ne_nil
    rw [parseValue_object hq hne, if_pos rfl]
  | @object p ms f q hhead h ih =>
    intro fuel v₀ hfuel
    obtain ⟨k, rfl, hk⟩ := fuel_succ hfuel
    have hp' := (hp.tail (by decide)).skip
    have hle := length_skipWriteBlank p
    change (if atEnd (skipWriteBlank p) then _ else if _ then _ else _) = _
    rw [h.not_atEnd hp', if_neg (by simp), if_neg hhead]
    exact ih hp' k [] (by omega)
  | @oneValue p v f q r h hq ih =>
    intro fuel acc hfuel
    obtain ⟨k, rfl⟩ := Nat.exists_eq_succ_of_ne_zero (Nat.ne_zero_of_lt hfuel)
    rw [parseArrayFrom_value (ih hp.skip) hq (by omega)]
    rfl
  | @moreValues p v f q r vs f' t h hq hvs ih ihs =>
    intro fuel acc hfuel
    obtain ⟨k, rfl⟩ := Nat.exists_eq_succ_of_ne_zero (Nat.ne_zero_of_lt hfuel)
    have hle := length_skipWriteBlank p
    obtain ⟨hq', hlt⟩ := h.moves hp.skip
    have hr := length_behind hq
    rw [parseArrayFrom_value (ih hp.skip) hq (by omega), if_pos rfl,
      ihs (hq'.behind hq (by decide)) k (acc ++ [v]) (by omega), List.append_assoc]
    rfl
  | @member c p name f q r v f' t hname hq h ih =>
    have hp' := hp.suffix ⟨[c], rfl⟩ hname.ne_nil
    refine ⟨q, r, parseStringRow_complete hname hp, hq, fun fuel v₀ hfuel => ?_⟩
    have hle := length_skipWriteBlank r
    have hr := length_behind hq
    obtain ⟨u, rfl⟩ := hname.consumes
    refine ih ((hname.terminated hp').behind hq (by decide)).skip fuel v₀ ?_
    simp at hfuel
    omega
  | @oneMember p name v f q r h hq ih =>
    intro fuel acc hfuel
    obtain ⟨k, rfl⟩ := Nat.exists_eq_succ_of_ne_zero (Nat.ne_zero_of_lt hfuel)
    rw [parseObjectFrom_member (ih hp) hq (by omega)]
    rfl
  | @comma p name v f q r ms f' t h hq hms ih ihs =>
    intro fuel acc hfuel
    obtain ⟨k, rfl⟩ := Nat.exists_eq_succ_of_ne_zero (Nat.ne_zero_of_lt hfuel)
    obtain ⟨hq', hlt⟩ := h.moves hp
    have hle := length_skipWriteBlank r
    have hr := length_behind hq
    rw [parseObjectFrom_member (ih hp) hq (by omega), if_pos rfl,
      ihs (hq'.behind hq (by decide)).skip k _ (by omega)]
    rfl
  | @noComma p name v f q c r ms f' t h hq hc hc' hms ih ihs =>
    intro fuel acc hfuel
    obtain ⟨k, rfl⟩ := Nat.exists_eq_succ_of_ne_zero (Nat.ne_zero_of_lt hfuel)
    obtain ⟨hq', hlt⟩ := h.moves hp
    have hskip := hq'.skip
    have hr := length_behind hq
    rw [hq] at hskip
    have hlen : 2 * (c :: r).length < k := by
      rw [List.length_cons]
      omega
    rw [parseObjectFrom_member (ih hp) hq (by omega), if_neg hc, if_neg hc', hms.not_atEnd hskip,
      if_neg (by simp), ihs hskip k _ hlen]
    rfl

theorem parse_iff {text : Bytes} {v₀ : Json ν} (ht : text ≠ []) :
    parse strtod v₀ text = some (true, v, q) ↔
      ∃ f, Reads strtod (.value v) (skipWriteBlank (text ++ [0])) f q := by
  rw [parse, if_neg ht]
  constructor
  · exact fun h => (sound strtod _).value h
  · rintro ⟨f, h⟩
    have hterm : Terminated (text ++ [0]) := by simp [Terminated]
    have hle := length_skipWriteBlank (text ++ [0])
    rw [List.length_append, List.length_singleton] at hle
    exact h.parses hterm.skip _ v₀ (by omega)

end Tadis.Pson
