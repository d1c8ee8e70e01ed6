import Tadis.Rendering

/-!
# Float literals

A literal of digits, a point and digits is a float to the lexer, and the cursor ends up behind its last
digit. The text that is converted is cut out between three cursors and comes out one byte short: it
never has the last digit.
-/

namespace Tadis.Lexer

def sign (neg : Bool) : Bytes := if neg then ['-'.toUInt8] else []

/-- From `p` on, behind blanks, the input has the literal `t` up to `q`. -/
inductive FloatAt (input : Bytes) : ℕ → Bool → Bytes → ℕ → Prop
  | mk {p b neg ds es s} (hb : ∀ c ∈ b, c = ' '.toUInt8) (hds : IsDecimal ds) (hne : es ≠ [])
      (hes : ∀ c ∈ es, isDigit c = true) (hs : ∀ c ∈ s.head?, isDigit c = false)
      (h : input.drop p = b ++ (sign neg ++ (ds ++ '.'.toUInt8 :: es ++ s))) :
    FloatAt input p neg (ds ++ '.'.toUInt8 :: es)
      (p + b.length + (sign neg).length + (ds ++ '.'.toUInt8 :: es).length)

/-- At `p` the lexer returns a float, moves on to `q` and converts exactly the text `t`. -/
def Converts (input : Bytes) (p : ℕ) (neg : Bool) (t : Bytes) (q : ℕ) : Prop :=
  ∀ stof f, stof t = some f → scan stof input p =
    some (.success, .floatT, some (if neg then negate (.floats f) else .floats f), q)

variable {stof : Bytes → Option UInt32} {input : Bytes} {p q : ℕ} {t ds es s : Bytes} {neg : Bool}

theorem parseNum_float (hds : ∀ c ∈ ds, isDigit c = true) (hne : es ≠ [])
    (hes : ∀ c ∈ es, isDigit c = true) (hs : ∀ c ∈ s.head?, isDigit c = false)
    (h : input.drop p = ds ++ '.'.toUInt8 :: es ++ s) :
    parseNum stof input p = (stof (ds ++ '.'.toUInt8 :: es).dropLast).map
      (fun f => (.floatT, some (.floats f), p + (ds ++ '.'.toUInt8 :: es).length)) := by
  have hpoint : input.drop p = ds ++ '.'.toUInt8 :: (es ++ s) := by simpa using h
  have hstop : skipWhile input isDigit p = p + ds.length := by
    refine skipWhile_append hpoint hds fun c hc => ?_
    obtain rfl : '.'.toUInt8 = c := Option.some.inj hc
    decide
  have hdot := drop_add hpoint
  have hlast : skipWhile input isDigit (p + ds.length + 1) = p + ds.length + 1 + es.length :=
    skipWhile_append (drop_succ hdot) hes hs
  have hpos := List.length_pos_of_ne_nil hne
  have hlen : (ds ++ '.'.toUInt8 :: es).length = ds.length + 1 + es.length := by
    rw [List.length_append, List.length_cons]
    omega
  have hcut : slice input p (p + ds.length + 1 + es.length - p - 1) =
      (ds ++ '.'.toUInt8 :: es).dropLast := by
    rw [List.dropLast_eq_take, hlen, slice, h, List.take_append_of_le_length (by rw [hlen]; omega)]
    congr 1
    omega
  rw [parseNum, hstop]
  dsimp only
  rw [charAt_of_drop hdot, if_pos rfl, hlast, if_neg (by omega), hcut, hlen, ← Nat.add_assoc,
    ← Nat.add_assoc]

theorem converts_dropLast (h : FloatAt input p neg t q) : Converts input p neg t.dropLast q := by
  cases h with
  | @mk b _ ds es s hb hds hne hes hs h =>
    intro stof f hf
    obtain ⟨c, r, rfl⟩ := List.exists_cons_of_ne_nil hds.nonempty
    have hc := hds.digits c List.mem_cons_self
    cases neg with
    | false =>
      have hblank : c ≠ ' '.toUInt8 := ne_of_isDigit hc (by decide)
      have hskip : skipBlank input p = p + b.length :=
        skipBlank_append h hb fun d hd => by
          obtain rfl : c = d := Option.some.inj hd
          exact hblank
      have hdrop : input.drop (p + b.length) = c :: r ++ '.'.toUInt8 :: es ++ s := drop_add h
      have hz : ¬ (c = '0'.toUInt8 ∧ isDigit (charAt input (p + b.length + 1)) = true) := by
        rintro ⟨rfl, hnext⟩
        obtain rfl : r = [] := (List.cons_eq_cons.1 (hds.canonical rfl)).2
        rw [charAt_of_drop (drop_succ hdrop)] at hnext
        exact absurd hnext (by decide)
      rw [scan_skip hskip (skipBlank_of_drop hdrop hblank), scan_digit hdrop hc hz, scanNum,
        parseNum_float hds.digits hne hes hs hdrop, hf]
      rfl
    | true =>
      have hskip : skipBlank input p = p + b.length :=
        skipBlank_append h hb fun d hd => by
          obtain rfl : '-'.toUInt8 = d := Option.some.inj hd
          decide
      have hdrop : input.drop (p + b.length) = '-'.toUInt8 :: (c :: r ++ '.'.toUInt8 :: es ++ s) :=
        drop_add h
      have hrest := drop_succ hdrop
      have hnext : isDigit (charAt input (p + b.length + 1)) = true := by
        rwa [charAt_of_drop hrest]
      rw [scan_skip hskip (skipBlank_of_drop hdrop (by decide)), scan_minus stof hdrop, if_pos hnext,
        parseNum_float hds.digits hne hes hs hrest, hf]
      rfl

/-- No literal is converted with all its digits. -/
theorem not_converts (h : FloatAt input p neg t q) : ¬ Converts input p neg t q := by
  have hne : t.dropLast ≠ t := by
    cases h
    intro heq
    have hlen := congrArg List.length heq
    simp at hlen
  intro hconv
  -- a conversion that tells the literal from its cut text
  let stof : Bytes → Option UInt32 := fun s => if s = t then some 0 else some 1
  have hwhole := hconv stof 0 (if_pos rfl)
  have hcut := converts_dropLast h stof 1 (if_neg hne)
  rw [hwhole, Option.some.injEq, Prod.mk.injEq, Prod.mk.injEq, Prod.mk.injEq] at hcut
  have hvalue := hcut.2.2.1
  cases neg <;> exact absurd hvalue (by decide)

theorem floatAt_plain : FloatAt (str "1.5") 0 false (str "1.5") 3 :=
  @FloatAt.mk (str "1.5") 0 [] false (str "1") (str "5") [] (by simp)
    ⟨List.forall_mem_singleton.2 (by decide), by decide, by decide⟩ (by decide)
    (List.forall_mem_singleton.2 (by decide)) (by simp) rfl

theorem not_converts_plain : ¬ Converts (str "1.5") 0 false (str "1.5") 3 :=
  not_converts floatAt_plain

/-- The text `1.` is converted for the literal `1.5`. -/
theorem float_cut_short : ¬ ∀ input p neg t q, FloatAt input p neg t q →
    Converts input p neg t q := by
  intro h
  have hscan := h _ _ _ _ _ floatAt_plain (fun s => if s = str "1.5" then some 0 else some 1) 0
    (if_pos rfl)
  exact absurd hscan (by decide)

end Tadis.Lexer
