import Tadis.JsonSoundness

/-!
# What a string literal denotes

A literal denotes the text in which every escape is replaced by its character, encoded in UTF-8. The
branches of the inner switch of `parse_string_row` do exactly that, but they are entered with the
backslash instead of the letter behind it. Success and the position behind the literal are right; the
text is right for the literals without a backslash.
-/

namespace JsonGrammar

def hexValue (c : UInt8) : ℕ :=
  if c ≤ 0x39 then c.toNat - 0x30 else if c ≤ 0x46 then c.toNat - 0x37 else c.toNat - 0x57

def hexNumber (n : ℕ) (u : List UInt8) : ℕ := u.foldl (fun n c => n * 16 + hexValue c) n

structure Hex4 (u : List UInt8) (n : ℕ) : Prop where
  hex : ∀ c ∈ u, IsHex c
  length : u.length = 4
  value : hexNumber 0 u = n

/-- The letters of the escapes of two characters, and what they stand for. -/
def letters : List (UInt8 × UInt8) :=
  [(0x22, 0x22), (0x5C, 0x5C), (0x2F, 0x2F), (0x62, 0x08), (0x66, 0x0C), (0x6E, 0x0A), (0x72, 0x0D),
    (0x74, 0x09)]

/-- What stands behind a backslash, and the character that it means. A character above `FFFF` is a
surrogate pair. -/
inductive Escape : List UInt8 → List UInt8 → Prop
  | letter {e c} (h : (e, c) ∈ letters) : Escape [e] [c]
  | unicode {u} {c : Char} (hu : Hex4 u c.toNat) : Escape (0x75 :: u) (String.utf8EncodeChar c)
  | surrogates {u u' hi lo} {c : Char} (hu : Hex4 u hi) (hhi : 0xD800 ≤ hi ∧ hi ≤ 0xDBFF)
      (hu' : Hex4 u' lo) (hlo : 0xDC00 ≤ lo ∧ lo ≤ 0xDFFF)
      (hc : c.toNat = (hi - 0xD800) * 2 ^ 10 + (lo - 0xDC00) + 0x10000) :
    Escape (0x75 :: (u ++ 0x5C :: 0x75 :: u')) (String.utf8EncodeChar c)

/-- `t` stands between quotes for the text `s`. -/
inductive Denotes : List UInt8 → List UInt8 → Prop
  | nil : Denotes [] []
  | unescaped {c t s} (hc : 0x20 ≤ c) (hq : c ≠ 0x22) (hb : c ≠ 0x5C) (h : Denotes t s) :
    Denotes (c :: t) (c :: s)
  | escape {x v t s} (hx : Escape x v) (h : Denotes t s) : Denotes (0x5C :: (x ++ t)) (v ++ s)

theorem Denotes.isChars {t s : List UInt8} (h : Denotes t s) : IsChars t := by
  induction h with
  | nil => exact .nil
  | unescaped hc hq hb _ ih => exact .unescaped hc hq hb ih
  | escape hx _ ih =>
    cases hx with
    | letter h => exact .escape (List.mem_map_of_mem (f := Prod.fst) h) ih
    | unicode hu => exact .unicode hu.hex hu.length ih
    | surrogates hu _ hu' _ _ =>
      rw [List.cons_append, List.append_assoc]
      exact .unicode hu.hex hu.length (.unicode hu'.hex hu'.length ih)

end JsonGrammar

namespace Tadis.Pson

open JsonGrammar

/-- `parse_string_row` succeeds on the literal with the text `s`, right behind the closing quote. -/
def DecodesTo (t s : Bytes) : Prop :=
  ∀ rest, parseStringRow (0x22 :: (t ++ 0x22 :: (rest ++ [0]))) = some (true, s, rest ++ [0])

variable {p q s t u x v : Bytes} {f : Bool}

theorem hexDigit_eq {c : UInt8} (h : IsHex c) : hexDigit c = some (hexValue c) := by
  have hsub : ∀ d : UInt8, d ≤ c → (c - d).toNat = c.toNat - d.toNat :=
    fun d hd => UInt8.toNat_sub_of_le c d hd
  have hlt : ∀ {d e : UInt8}, d ≤ c → e < d → ¬ c ≤ e :=
    fun hd he => UInt8.not_le.2 (UInt8.lt_of_lt_of_le he hd)
  rw [hexDigit, hexValue]
  rcases h with ⟨hlo, hhi⟩ | ⟨hlo, hhi⟩ | ⟨hlo, hhi⟩
  · rw [if_pos ⟨hlo, hhi⟩, if_pos hhi]
    exact congrArg some (hsub 0x30 hlo)
  · rw [if_neg (fun h => hlt hlo (by decide) h.2), if_pos ⟨hlo, hhi⟩,
      if_neg (hlt hlo (by decide)), if_pos hhi]
    have hval : (c - 'A'.toUInt8).toNat = c.toNat - 0x41 := hsub 0x41 hlo
    have hcode : 0x41 ≤ c.toNat ∧ c.toNat ≤ 0x46 := ⟨hlo, hhi⟩
    rw [UInt8.toNat_add, hval]
    congr 1
    change (c.toNat - 0x41 + 10) % 2 ^ 8 = _
    omega
  · rw [if_neg (fun h => hlt hlo (by decide) h.2), if_neg (fun h => hlt hlo (by decide) h.2),
      if_pos ⟨hlo, hhi⟩, if_neg (hlt hlo (by decide)), if_neg (hlt hlo (by decide))]
    have hval : (c - 'a'.toUInt8).toNat = c.toNat - 0x61 := hsub 0x61 hlo
    have hcode : 0x61 ≤ c.toNat ∧ c.toNat ≤ 0x66 := ⟨hlo, hhi⟩
    rw [UInt8.toNat_add, hval]
    congr 1
    change (c.toNat - 0x61 + 10) % 2 ^ 8 = _
    omega

theorem parseHex_append (hu : ∀ c ∈ u, IsHex c) (n : ℕ) (p : Bytes) :
    parseHex u.length n (u ++ p) = some (some (hexNumber n u), p) := by
  induction u generalizing n with
  | nil => rfl
  | cons c u ih =>
    rw [List.length_cons, List.cons_append, parseHex, hexDigit_eq (hu c (by simp))]
    exact ih (fun d hd => hu d (List.mem_cons_of_mem c hd)) _

theorem parseHex4_append {n : ℕ} (h : Hex4 u n) (p : Bytes) :
    parseHex4 (u ++ p) = some (some n, p) := by
  rw [parseHex4, ← h.length, parseHex_append h.hex, h.value]

theorem parseUtf8_eq (s : Bytes) (c : Char) :
    parseUtf8 s c.toNat = s ++ String.utf8EncodeChar c := by
  have hn : c.toNat = c.val.toNat := rfl
  have hvalid : c.val.toNat < 0xD800 ∨ 0xDFFF < c.val.toNat ∧ c.val.toNat < 0x110000 := c.valid
  rw [parseUtf8, String.utf8EncodeChar, hn]
  generalize c.val.toNat = n at hvalid
  split_ifs with h1 h2 h3
  · rfl
  · rw [show 0xC0 + n / 2 ^ 6 = n / 64 % 32 + 192 by omega,
      show 0x80 + n % 2 ^ 6 = n % 64 + 128 by omega]
  · rw [show 0xE0 + n / 2 ^ 12 = n / 4096 % 16 + 224 by omega,
      show 0x80 + n / 2 ^ 6 % 2 ^ 6 = n / 64 % 64 + 128 by omega,
      show 0x80 + n % 2 ^ 6 = n % 64 + 128 by omega]
  · rw [show 0xF0 + n / 2 ^ 18 = n / 262144 % 8 + 240 by omega,
      show 0x80 + n / 2 ^ 12 % 2 ^ 6 = n / 4096 % 64 + 128 by omega,
      show 0x80 + n / 2 ^ 6 % 2 ^ 6 = n / 64 % 64 + 128 by omega,
      show 0x80 + n % 2 ^ 6 = n % 64 + 128 by omega]

theorem parseUnicode_of_hex4 {n : ℕ} (h : Hex4 u n) (hn : ¬ (0xD800 ≤ n ∧ n ≤ 0xDBFF)) (s p : Bytes) :
    parseUnicode s (u ++ p) = some (some (parseUtf8 s n), p) := by
  rw [parseUnicode, parseHex4_append h]
  dsimp only
  rw [if_neg hn]

theorem parseUnicode_of_surrogates {u' : Bytes} {hi lo : ℕ} (hu : Hex4 u hi)
    (hhi : 0xD800 ≤ hi ∧ hi ≤ 0xDBFF) (hu' : Hex4 u' lo) (hlo : 0xDC00 ≤ lo ∧ lo ≤ 0xDFFF)
    (s p : Bytes) : parseUnicode s (u ++ 0x5C :: 0x75 :: (u' ++ p)) =
      some (some (parseUtf8 s ((hi - 0xD800) * 2 ^ 10 + (lo - 0xDC00) + 0x10000)), p) := by
  rw [parseUnicode, parseHex4_append hu]
  dsimp only
  rw [if_pos hhi, if_neg (by decide), if_neg (by decide), parseHex4_append hu']
  dsimp only
  rw [if_neg (by omega)]

theorem not_surrogate (c : Char) : ¬ (0xD800 ≤ c.toNat ∧ c.toNat ≤ 0xDFFF) := by
  have hvalid : c.toNat < 0xD800 ∨ 0xDFFF < c.toNat ∧ c.toNat < 0x110000 := c.valid
  omega

/-- Entered with the byte behind the backslash, the inner switch would decode every escape. -/
theorem parseEscape_decodes {e : UInt8} (h : Escape (e :: x) v) (s p : Bytes) :
    parseEscape e s (x ++ p) = some (some (s ++ v), p) := by
  cases h with
  | @letter _ c h =>
    simp only [letters, List.mem_cons, Prod.mk.injEq, List.not_mem_nil, or_false] at h
    rcases h with ⟨rfl, rfl⟩ | ⟨rfl, rfl⟩ | ⟨rfl, rfl⟩ | ⟨rfl, rfl⟩ | ⟨rfl, rfl⟩ | ⟨rfl, rfl⟩ |
      ⟨rfl, rfl⟩ | ⟨rfl, rfl⟩ <;> rfl
  | @unicode u c hu =>
    have hno := not_surrogate c
    have hswitch : parseEscape 0x75 s (x ++ p) = parseUnicode s (x ++ p) := rfl
    rw [hswitch, parseUnicode_of_hex4 hu (by omega), parseUtf8_eq]
  | @surrogates u u' hi lo c hu hhi hu' hlo hc =>
    have hswitch : parseEscape 0x75 s (u ++ 0x5C :: 0x75 :: u' ++ p) =
        parseUnicode s (u ++ 0x5C :: 0x75 :: u' ++ p) := rfl
    rw [hswitch, List.append_assoc, List.cons_append, List.cons_append,
      parseUnicode_of_surrogates hu hhi hu' hlo, ← hc, parseUtf8_eq]

theorem ReadsString.append_hex (hu : ∀ c ∈ u, IsHex c) (h : ReadsString p s f q) :
    ∃ f', ReadsString (u ++ p) (u ++ s) f' q := by
  induction u with
  | nil => exact ⟨f, h⟩
  | cons c u ih =>
    obtain ⟨f', hf⟩ := ih (fun d hd => hu d (List.mem_cons_of_mem c hd))
    have hc := isHex_plain (hu c (by simp))
    exact ⟨_, .char hc.2.1 hc.2.2.1 hc.2.2.2 hf⟩

theorem length_utf8EncodeChar_le (c : Char) : (String.utf8EncodeChar c).length ≤ 4 := by
  rw [String.length_utf8EncodeChar]
  exact c.utf8Size_le_four

theorem ReadsString.append_escape (hx : Escape x v) (h : ReadsString p s f q) :
    ∃ y f', ReadsString (0x5C :: (x ++ p)) (y ++ s) f' q ∧ v.length < y.length := by
  cases hx with
  | letter _ => exact ⟨[0x5C, 0x5C], _, .escape h, by simp⟩
  | @unicode u c hu =>
    obtain ⟨f', h'⟩ := h.append_hex hu.hex
    refine ⟨0x5C :: 0x5C :: u, _, .escape h', ?_⟩
    have hchar := length_utf8EncodeChar_le c
    rw [List.length_cons, List.length_cons, hu.length]
    omega
  | @surrogates u u' hi lo c hu _ hu' _ _ =>
    obtain ⟨f', h'⟩ := h.append_hex hu'.hex
    obtain ⟨f'', h''⟩ := (ReadsString.escape (c := 0x75) h').append_hex hu.hex
    obtain ⟨g, hg⟩ : ∃ g, ReadsString (0x5C :: 0x75 :: (u ++ 0x5C :: 0x75 :: (u' ++ p)))
        (0x5C :: 0x5C :: (u ++ 0x5C :: 0x5C :: (u' ++ s))) g q := ⟨_, .escape h''⟩
    refine ⟨0x5C :: 0x5C :: (u ++ 0x5C :: 0x5C :: u'), g, by simpa using hg, ?_⟩
    have hchar := length_utf8EncodeChar_le c
    simp only [List.length_cons, List.length_append, hu.length]
    omega

/-- What is stored is the text of a literal without a backslash, and longer than the text of another
literal. -/
structure Stores (t s s' : Bytes) : Prop where
  same : 0x5C ∉ t → s' = s
  longer : 0x5C ∈ t → s.length < s'.length

theorem Stores.le {s' : Bytes} (h : Stores t s s') : s.length ≤ s'.length := by
  by_cases hb : 0x5C ∈ t
  · exact (h.longer hb).le
  · rw [h.same hb]

theorem exists_stored (h : Denotes t s) (q : Bytes) :
    ∃ s' f, ReadsString (t ++ 0x22 :: q) s' f q ∧ Stores t s s' := by
  induction h with
  | nil => exact ⟨[], false, .close, fun _ => rfl, fun hb => absurd hb (by simp)⟩
  | @unescaped c t s hc hq hb _ ih =>
    obtain ⟨s', f, hread, hstores⟩ := ih
    have h0 : c ≠ 0 := by
      rintro rfl
      exact absurd hc (by decide)
    have hmem : 0x5C ∈ c :: t ↔ 0x5C ∈ t := by simp [hb.symm]
    refine ⟨c :: s', _, .char hq hb h0 hread, ?_, ?_⟩
    · intro hno
      rw [hstores.same (mt hmem.2 hno)]
    · intro hin
      simpa using hstores.longer (hmem.1 hin)
  | @escape x v t s hx _ ih =>
    obtain ⟨s', f, hread, hstores⟩ := ih
    obtain ⟨y, f', hread', hlt⟩ := hread.append_escape hx
    rw [List.cons_append, List.append_assoc]
    refine ⟨y ++ s', f', hread', fun hno => absurd List.mem_cons_self hno, fun _ => ?_⟩
    have hle := hstores.le
    simp only [List.length_append]
    omega

theorem exists_parseStringRow (h : Denotes t s) (rest : Bytes) : ∃ s', Stores t s s' ∧
    parseStringRow (0x22 :: (t ++ 0x22 :: (rest ++ [0]))) = some (true, s', rest ++ [0]) := by
  obtain ⟨s', f, hread, hstores⟩ := exists_stored h (rest ++ [0])
  have hbuf : 0x22 :: (t ++ 0x22 :: (rest ++ [0])) = (0x22 :: (t ++ 0x22 :: rest)) ++ [0] := by simp
  refine ⟨s', hstores, parseStringRow_complete hread ?_⟩
  rw [Terminated, hbuf, List.getLast?_concat]

/-- A literal is decoded exactly when it has no escapes. -/
theorem decodes_iff (h : Denotes t s) : DecodesTo t s ↔ 0x5C ∉ t := by
  constructor
  · intro hdec hb
    obtain ⟨s', hstores, hparse⟩ := exists_parseStringRow h []
    have heq := (hdec []).symm.trans hparse
    simp only [Option.some.injEq, Prod.mk.injEq, true_and, and_true] at heq
    exact absurd (hstores.longer hb) (by rw [heq]; exact lt_irrefl _)
  · intro hno rest
    obtain ⟨s', hstores, hparse⟩ := exists_parseStringRow h rest
    rw [hparse, hstores.same hno]

theorem decodes_plain : DecodesTo (str "id") (str "id") := by
  have h : Denotes (str "id") (str "id") :=
    .unescaped (by decide) (by decide) (by decide) (.unescaped (by decide) (by decide) (by decide) .nil)
  exact (decodes_iff h).2 (by decide)

/-- A line feed is not decoded. -/
theorem line_feed_not_decoded : ¬ ∀ t s, Denotes t s → DecodesTo t s := by
  intro h
  have hdec := h ([0x5C, 0x6E] ++ []) ([0x0A] ++ []) (.escape (.letter (by decide)) .nil) []
  exact absurd hdec (by decide)

end Tadis.Pson
