import Tadis.Recognition
import Tadis.ParserRules

/-!
# The codes of a parse

A parse function throws the codes that the lexer returns and `SYNTAX_ERROR`, and the lexer returns no
other code.
-/

namespace Tadis.Parser

variable {stof : Bytes → Option UInt32} {input : Bytes} {α β : Type} {rc : RC}

/-- The only code that `x` throws is `SYNTAX_ERROR`. -/
def Raises (x : Parse α) : Prop := ∀ l rc, x l = some (.error rc) → rc = .syntaxError

theorem Raises.bind {x : Parse α} {f : α → Parse β} (hx : Raises x) (hf : ∀ a, Raises (f a)) :
    Raises (x >>= f) := by
  intro l rc h
  rw [Recognition.bind_apply] at h
  rcases hl : x l with _ | rc' | ⟨a, l'⟩ <;> rw [hl] at h <;> dsimp only at h
  · cases h
  · cases h
    exact hx l _ hl
  · exact hf a l' rc h

theorem raises_pure (a : α) : Raises (pure a : Parse α) := fun _ _ h => by cases h

theorem raises_throw (h : rc = .syntaxError) : Raises (throw rc : Parse α) := by
  intro l rc' h'
  cases h'
  exact h

theorem raises_abort : Raises (abort : Parse α) := fun _ _ h => by cases h

/-- The lexer succeeds or returns `SYNTAX_ERROR`. -/
def Scans (x : Parse (RC × Token)) : Prop :=
  ∀ l r, x l = some r → ∃ rc t l', r = .ok ((rc, t), l') ∧ (rc = .success ∨ rc = .syntaxError)

theorem Scans.bind {x : Parse (RC × Token)} {f : RC × Token → Parse β} (hx : Scans x)
    (hf : ∀ r, r.1 = .success ∨ r.1 = .syntaxError → Raises (f r)) : Raises (x >>= f) := by
  intro l rc h
  rw [Recognition.bind_apply] at h
  cases hl : x l with
  | none =>
    rw [hl] at h
    cases h
  | some r =>
    obtain ⟨rc', t, l', rfl, hrc⟩ := hx l r hl
    rw [hl] at h
    exact hf (rc', t) hrc l' rc h

theorem internalNext_code {l : Lexer} {r : (RC × Token) × Lexer}
    (h : l.internalNext stof input = some r) : r.1.1 = .success ∨ r.1.1 = .syntaxError := by
  obtain ⟨x, hx, rfl⟩ := Option.map_eq_some_iff.1 h
  exact (Lexer.delivers_scan hx).1.elim (fun h => .inr h.1) (fun h => .inl h.1)

theorem scans_next : Scans (next stof input) := by
  intro l r h
  obtain ⟨⟨⟨rc, t⟩, l'⟩, hx, rfl⟩ := Option.map_eq_some_iff.1 h
  exact ⟨rc, t, l', rfl, internalNext_code hx⟩

theorem scans_peek : Scans (peek stof input) := by
  intro l r h
  obtain ⟨⟨⟨rc, t⟩, l'⟩, hx, rfl⟩ := Option.map_eq_some_iff.1 h
  exact ⟨rc, t, _, rfl, internalNext_code hx⟩

theorem scans_nextIf (t : Token) : Scans (nextIf stof input t) := by
  intro l r h
  obtain ⟨⟨⟨rc, t'⟩, l'⟩, _, rfl⟩ := Option.map_eq_some_iff.1 h
  split_ifs
  · exact ⟨.success, t', l', rfl, .inl rfl⟩
  · exact ⟨.syntaxError, t', _, rfl, .inr rfl⟩

theorem raises_curString : Raises curString := by
  intro l rc h
  rw [curString] at h
  split at h <;> cases h

theorem raises_curLong : Raises curLong := by
  intro l rc h
  rw [curLong] at h
  split at h <;> cases h

theorem raises_curFloat : Raises curFloat := by
  intro l rc h
  rw [curFloat] at h
  split at h <;> cases h

theorem raises_expect (t : Token) : Raises (expect stof input t) := by
  refine (scans_nextIf t).bind fun r hr => ?_
  split_ifs with hs
  · exact raises_pure _
  · exact raises_throw (hr.resolve_left hs)

theorem raises_expectId : Raises (expectId stof input) :=
  (raises_expect _).bind fun _ => raises_curString

theorem raises_parseList {item : Parse α} (h : Raises item) (fuel : ℕ) :
    Raises (parseList stof input item fuel) := by
  induction fuel with
  | zero => exact raises_abort
  | succ fuel ih =>
    refine h.bind fun a => (scans_nextIf _).bind fun r _ => ?_
    split_ifs
    · exact ih.bind fun as => raises_pure _
    · exact raises_pure _

theorem raises_parseRelAttr (name : Bytes) : Raises (parseRelAttr stof input name) := by
  refine scans_peek.bind fun r _ => ?_
  split_ifs
  · exact scans_next.bind fun _ _ => raises_expectId.bind fun _ => raises_pure _
  · exact raises_pure _

theorem raises_parseAttrsFrom (first : Bool) (fuel : ℕ) :
    Raises (parseAttrsFrom stof input first fuel) := by
  induction fuel generalizing first with
  | zero => exact raises_abort
  | succ fuel ih =>
    refine scans_next.bind fun r hr => ?_
    split_ifs with hs
    · exact raises_throw (hr.resolve_left hs)
    · exact raises_pure _
    · exact raises_throw rfl
    · exact raises_throw rfl
    · refine raises_curString.bind fun name => (raises_parseRelAttr name).bind fun attr =>
        (scans_nextIf _).bind fun r _ => ?_
      split_ifs
      · exact (ih false).bind fun attrs => raises_pure _
      · exact raises_pure _

theorem raises_parseFrom (fuel : ℕ) : Raises (parseFrom stof input fuel) := by
  refine scans_next.bind fun r _ => ?_
  split_ifs
  · exact raises_throw rfl
  · exact raises_parseList raises_expectId fuel

theorem raises_parseValue : Raises (parseValue stof input) := by
  refine scans_next.bind fun r hr => ?_
  split_ifs with hs
  · exact raises_throw (hr.resolve_left hs)
  · split
    · refine raises_curString.bind fun name => (scans_nextIf _).bind fun r _ => ?_
      split_ifs
      · exact raises_expectId.bind fun _ => raises_pure _
      · exact raises_pure _
    · exact raises_curFloat.bind fun _ => raises_pure _
    · exact raises_curLong.bind fun _ => raises_pure _
    · exact raises_curString.bind fun _ => raises_pure _
    · exact raises_pure _
    · exact raises_abort

theorem raises_parseLiteral : Raises (parseLiteral stof input) := by
  refine raises_parseValue.bind fun v => ?_
  split_ifs
  · exact raises_throw rfl
  · exact raises_pure _

theorem raises_parseOp : Raises (parseOp stof input) := by
  refine scans_next.bind fun r hr => ?_
  split_ifs with hs
  · exact raises_throw (hr.resolve_left hs)
  · exact raises_throw rfl
  · exact raises_pure _

theorem raises_parseCond : Raises (parseCond stof input) :=
  raises_parseValue.bind fun _ => raises_parseOp.bind fun _ => raises_parseValue.bind fun _ =>
    raises_pure _

theorem raises_parseConds (fuel : ℕ) : Raises (parseConds stof input fuel) := by
  refine scans_next.bind fun r hr => ?_
  split_ifs with hs
  · exact raises_throw (hr.resolve_left hs)
  · exact raises_parseList raises_parseCond fuel
  · exact raises_pure _
  · exact raises_throw rfl

theorem raises_parseSelect (fuel : ℕ) : Raises (parseSelect stof input fuel) := by
  refine scans_next.bind fun r _ => ?_
  split_ifs
  · exact (raises_parseAttrsFrom true fuel).bind fun _ => (raises_parseFrom fuel).bind fun _ =>
      (raises_parseConds fuel).bind fun _ => raises_pure _
  · exact raises_abort

theorem raises_parseStar : Raises (parseStar stof input) := by
  refine (scans_nextIf _).bind fun r _ => ?_
  split_ifs <;> exact raises_pure _

theorem raises_parseDelete (fuel : ℕ) : Raises (parseDelete stof input fuel) := by
  refine (raises_expect _).bind fun _ => raises_parseStar.bind fun star =>
    (raises_parseFrom fuel).bind fun tables => scans_peek.bind fun r _ => ?_
  split_ifs
  · exact raises_throw rfl
  · exact (raises_parseConds fuel).bind fun _ => (raises_expect _).bind fun _ => raises_pure _

theorem raises_parseInsertCols (fuel : ℕ) : Raises (parseInsertCols stof input fuel) := by
  refine scans_next.bind fun r hr => ?_
  split_ifs with hs
  · exact raises_throw (hr.resolve_left hs)
  · exact (raises_parseList raises_expectId fuel).bind fun _ => (raises_expect _).bind fun _ =>
      (raises_expect _).bind fun _ => raises_pure _
  · exact raises_pure _
  · exact raises_throw rfl

theorem raises_parseInsert (fuel : ℕ) : Raises (parseInsert stof input fuel) :=
  (raises_expect _).bind fun _ => (raises_expect _).bind fun _ => raises_expectId.bind fun _ =>
    (raises_parseInsertCols fuel).bind fun _ => (raises_expect _).bind fun _ =>
      (raises_parseList raises_parseLiteral fuel).bind fun _ => (raises_expect _).bind fun _ =>
        (raises_expect _).bind fun _ => raises_pure _

theorem raises_parseSize : Raises (parseSize stof input) :=
  (raises_expect _).bind fun _ => (raises_expect _).bind fun _ => raises_curLong.bind fun _ =>
    (raises_expect _).bind fun _ => raises_pure _

theorem raises_parseColDataType : Raises (parseColDataType stof input) := by
  refine scans_next.bind fun r _ => ?_
  split_ifs
  · exact raises_throw rfl
  · split
    · exact raises_pure _
    · exact raises_pure _
    · exact raises_parseSize.bind fun _ => raises_pure _
    · exact raises_parseSize.bind fun _ => raises_pure _
    · exact raises_throw rfl

theorem raises_parseColAttr : Raises (parseColAttr stof input) :=
  raises_expectId.bind fun _ => raises_parseColDataType.bind fun _ => raises_pure _

theorem raises_parseCreate (fuel : ℕ) : Raises (parseCreate stof input fuel) := by
  refine (raises_expect _).bind fun _ => scans_peek.bind fun r _ => ?_
  split_ifs
  · exact (raises_expect _).bind fun _ => raises_expectId.bind fun _ => (raises_expect _).bind fun _ =>
      (raises_parseList raises_parseColAttr fuel).bind fun _ => (raises_expect _).bind fun _ =>
        (raises_expect _).bind fun _ => raises_pure _
  · exact raises_throw rfl

/-- With `SUCCESS` nothing is thrown. -/
theorem raises_returnUnset (h : rc = .success ∨ rc = .syntaxError) : Raises (returnUnset rc) := by
  unfold returnUnset
  split_ifs with hs
  · exact raises_pure _
  · exact raises_throw (h.resolve_left hs)

theorem raises_parseDrop : Raises (parseDrop stof input) := by
  refine scans_next.bind fun r hr => ?_
  split_ifs
  · exact raises_returnUnset hr
  · refine scans_next.bind fun r hr => ?_
    split_ifs
    · exact raises_returnUnset hr
    · refine scans_next.bind fun r hr => ?_
      split_ifs
      · exact raises_returnUnset hr
      · refine raises_curString.bind fun table => scans_next.bind fun r _ => ?_
        split_ifs
        · exact raises_pure _
        · exact raises_throw rfl

/-- A line is refused with `SYNTAX_ERROR`. -/
theorem doParse_error (h : doParse stof input = some (.error rc)) : rc = .syntaxError := by
  refine (scans_peek.bind fun r _ => ?_ : Raises (parseStatement stof input _)) {} rc h
  split
  · exact raises_parseSelect _
  · exact raises_parseCreate _
  · exact raises_parseDelete _
  · exact raises_parseInsert _
  · exact raises_parseDrop
  · exact raises_throw rfl

end Tadis.Parser
