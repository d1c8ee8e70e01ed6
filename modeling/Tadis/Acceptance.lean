import Tadis.Sentences

/-!
# What the parser accepts

Every complete `SELECT`, `INSERT`, `CREATE TABLE` and `DROP TABLE` is accepted with its statement. The
inputs that are accepted although no sentence has been read are exactly those that `Misread` lists.
-/

namespace Tadis.Sql

open Tadis.Parser Recognition Lexer

variable {stof : Bytes → Option UInt32} {input : Bytes} {ts us : List Lexeme} {stop : Set Lexeme}
  {stmt : QueryStmt} {q : ℕ}

theorem statement_sound (h : statementRule.word ts stop stmt) :
    (stop = ∅ ∧ Sentence ts stmt) ∨
      (LeftOpen ts ∧ stop = continuing ts ∧ stmt.type = .select) ∨
      (stop = ∅ ∧ (TwoColons ts ∧ stmt.type = .delete ∨ BreaksOff ts ∧ stmt.type = .select)) := by
  obtain ⟨u, us, rfl, h⟩ := h
  dsimp only at h
  cases hu : u.token <;> rw [hu] at h <;> dsimp only at h
  case selectT =>
    rcases select_sound h with h | h
    · exact .inl h
    · exact .inr (.inl h)
  case createT =>
    obtain ⟨rfl, table, cs, cols, hc, rfl, hts⟩ := word_createRule.1 h
    rw [hts]
    exact .inl ⟨rfl, .createTable table hc⟩
  case deleteT =>
    obtain ⟨rfl, h | h⟩ := delete_sound h
    · exact .inr (.inr ⟨rfl, .inl h⟩)
    · exact .inl ⟨rfl, h⟩
  case insertT =>
    obtain ⟨rfl, table, cs, cols, vs, values, hc, hv, rfl, hts⟩ := word_insertRule.1 h
    rw [hts]
    exact .inl ⟨rfl, .insert table hc hv⟩
  case dropT =>
    obtain rfl := (token_eq_iff rfl).1 hu
    obtain ⟨rfl, ⟨hb, rfl⟩ | ⟨table, rfl, rfl⟩⟩ := word_dropRule.1 h
    · exact .inr (.inr ⟨rfl, .inr ⟨hb, rfl⟩⟩)
    · exact .inl ⟨rfl, .drop table⟩
  all_goals exact h.elim

theorem accepts_word (h : statementRule.word ts stop stmt) (hr : Reads (lexeme stof input) 0 ts q)
    (he : Ends (lexeme stof input) stop q) :
    ∃ l, doParse stof input = some (.ok (stmt, l)) ∧ l.p = q :=
  doParse_ok_iff.2 ⟨ts, stop, h, hr, he⟩

/-- Every complete sentence other than a `DELETE` is accepted and gives its statement. -/
theorem accepts_sentence (hall : AllLexemes stof input ts) (hs : Sentence ts stmt)
    (hd : stmt.type ≠ .delete) : ∃ l, doParse stof input = some (.ok (stmt, l)) := by
  obtain ⟨q, hr, _⟩ := hall
  have hclosed : statementRule.word ts ∅ stmt →
      ∃ l, doParse stof input = some (.ok (stmt, l)) := by
    intro hw
    obtain ⟨l, hl, _⟩ := accepts_word hw hr (.empty q)
    exact ⟨l, hl⟩
  cases hs with
  | select hs hf => exact hclosed ⟨.sym .selectT, _, rfl, select_complete hs hf⟩
  | @selectWhere ss sel fs tables cs conds hs hf hc =>
    obtain ⟨r, hpre, hcolon⟩ := reads_append.1 hr
    have hw := selectWhere_complete hs hf hc
    have hend : Ends (lexeme stof input)
        (continuing (.sym .selectT :: ss ++ .sym .fromT :: fs ++ .sym .whereT :: cs)) r := by
      apply hcolon.ends
      rw [admits_cons]
      rintro (⟨h, _⟩ | h) <;> cases h
    obtain ⟨l, hl, _⟩ := accepts_word ⟨.sym .selectT, _, rfl, hw⟩ hpre hend
    exact ⟨l, hl⟩
  | delete hf => exact absurd rfl hd
  | deleteStar hf => exact absurd rfl hd
  | deleteWhere hf hc => exact absurd rfl hd
  | insert table hc hv =>
    exact hclosed ⟨.sym .insertT, _, rfl,
      word_insertRule.2 ⟨rfl, table, _, _, _, _, hc, hv, rfl, rfl⟩⟩
  | createTable table hc =>
    exact hclosed ⟨.sym .createT, _, rfl, word_createRule.2 ⟨rfl, table, _, _, hc, rfl, rfl⟩⟩
  | drop table =>
    exact hclosed ⟨.sym .dropT, _, rfl, word_dropRule.2 ⟨rfl, .inr ⟨table, rfl, rfl⟩⟩⟩

theorem accepts_sentence_select : ∃ l, doParse (fun _ => some 0) (str "SELECT a FROM t WHERE a = 1;") =
    some (.ok (.select ⟨[⟨[], str "a"⟩], [str "t"], [⟨.relAttr ⟨[], str "a"⟩, .ints 1, .eq⟩]⟩, l)) := by
  have hcond : IsCond [.id (str "a"), .sym .assignT, .integer 1]
      ⟨.relAttr ⟨[], str "a"⟩, .ints 1, .eq⟩ :=
    .mk (.attr (.plain (str "a"))) .eq (.literal (.integer 1))
  have hs := Sentence.selectWhere (.attrs (.one (.plain (str "a")))) (.one (.mk (str "t"))) (.one hcond)
  have hall : AllLexemes (fun _ => some 0) (str "SELECT a FROM t WHERE a = 1;") [.sym .selectT,
      .id (str "a"), .sym .fromT, .id (str "t"), .sym .whereT, .id (str "a"), .sym .assignT,
      .integer 1, .sym .colonT] :=
    ⟨28, ⟨6, by decide, 8, by decide, 13, by decide, 15, by decide, 21, by decide, 23, by decide,
      25, by decide, 27, by decide, 28, by decide, rfl⟩, by decide, by decide⟩
  exact accepts_sentence hall hs (by decide)

/-- The `;` in a list of lexemes. -/
def colons (ts : List Lexeme) : ℕ := ts.count (.sym .colonT)

@[simp] theorem colons_nil : colons [] = 0 := rfl

@[simp] theorem colons_append (ts us : List Lexeme) : colons (ts ++ us) = colons ts + colons us :=
  List.count_append

@[simp] theorem colons_cons_colon (ts : List Lexeme) :
    colons (.sym .colonT :: ts) = colons ts + 1 := List.count_cons_self

@[simp] theorem colons_cons {u : Lexeme} {ts : List Lexeme} (h : u ≠ .sym .colonT) :
    colons (u :: ts) = colons ts := List.count_cons_of_ne h

theorem CommaList.colons {α : Type} {P : List Lexeme → α → Prop} {as : List α}
    (hP : ∀ ts a, P ts a → Sql.colons ts = 0) (h : CommaList P ts as) : Sql.colons ts = 0 := by
  induction h with
  | one h => exact hP _ _ h
  | more h _ ih => simp [hP _ _ h, ih]

theorem IsId.colons {name : Bytes} (h : IsId ts name) : Sql.colons ts = 0 := by
  cases h
  simp

theorem IsAttr.colons {a : RelAttr} (h : IsAttr ts a) : Sql.colons ts = 0 := by
  cases h <;> simp

theorem IsSelist.colons {as : List RelAttr} (h : IsSelist ts as) : Sql.colons ts = 0 := by
  cases h with
  | star => simp
  | attrs h => exact h.colons fun _ _ => IsAttr.colons

theorem IsLiteral.colons {v : Value} (h : IsLiteral ts v) : Sql.colons ts = 0 := by
  cases h <;> simp

theorem IsOperand.colons {v : Value} (h : IsOperand ts v) : Sql.colons ts = 0 := by
  cases h with
  | attr h => exact h.colons
  | literal h => exact h.colons

theorem IsCond.colons {c : Condition} (h : IsCond ts c) : Sql.colons ts = 0 := by
  obtain ⟨hl, ho, hr⟩ := h
  have hop := hr.colons
  cases ho <;> simp [hl.colons, hop]

theorem IsColAttr.colons {c : ColAttr} (h : IsColAttr ts c) : Sql.colons ts = 0 := by
  obtain ⟨name, h⟩ := h
  cases h <;> simp

theorem IsCols.colons {cols : List Bytes} (h : IsCols ts cols) : Sql.colons ts = 0 := by
  cases h with
  | none => rfl
  | some h => simp [h.colons fun _ _ => IsId.colons]

theorem Sentence.colons (h : Sentence ts stmt) : Sql.colons ts = 1 := by
  have hids : ∀ {fs tables}, CommaList IsId fs tables → Sql.colons fs = 0 :=
    fun hf => hf.colons fun _ _ => IsId.colons
  have hconds : ∀ {cs conds}, CommaList IsCond cs conds → Sql.colons cs = 0 :=
    fun hc => hc.colons fun _ _ => IsCond.colons
  cases h with
  | select hs hf => simp [hs.colons, hids hf]
  | selectWhere hs hf hc => simp [hs.colons, hids hf, hconds hc]
  | delete hf => simp [hids hf]
  | deleteStar hf => simp [hids hf]
  | deleteWhere hf hc => simp [hids hf, hconds hc]
  | insert table hc hv => simp [hc.colons, hv.colons fun _ _ => IsLiteral.colons]
  | createTable table hc => simp [hc.colons fun _ _ => IsColAttr.colons]
  | drop table => simp

theorem LeftOpen.not_sentence (h : LeftOpen ts) : ¬ Sentence ts stmt := by
  intro hs
  obtain ⟨ss, sel, fs, tables, cs, conds, hsel, hf, hc, rfl⟩ := h
  have hone := hs.colons
  simp [hsel.colons, hf.colons fun _ _ => IsId.colons, hc.colons fun _ _ => IsCond.colons] at hone

theorem TwoColons.not_sentence (h : TwoColons ts) : ¬ Sentence ts stmt := by
  intro hs
  obtain ⟨star, fs, tables, rfl | rfl, hf, rfl⟩ := h
  · have hone := hs.colons
    simp [hf.colons fun _ _ => IsId.colons] at hone
  · have hone := hs.colons
    simp [hf.colons fun _ _ => IsId.colons] at hone

theorem BreaksOff.not_sentence (h : BreaksOff ts) : ¬ Sentence ts stmt := by
  intro hs
  cases h <;> cases hs

/-- The lexer delivers tokens that the parser takes for a statement although they are none: a `SELECT`
with conditions, whose `;` is left, a `DELETE` without conditions but with two `;`, or a `DROP` that
breaks off. -/
def Misread (stof : Bytes → Option UInt32) (input : Bytes) : Prop :=
  ∃ ts q, Reads (lexeme stof input) 0 ts q ∧
    (LeftOpen ts ∧ Ends (lexeme stof input) (continuing ts) q ∨ TwoColons ts ∨ BreaksOff ts)

theorem reads_unique {p : ℕ} (h : Reads (lexeme stof input) p ts q)
    (h' : Reads (lexeme stof input) p us q) : ts = us := by
  have hless : ∀ p u r, lexeme stof input p = some (.ok (u, r)) →
      input.length - r < input.length - p := by
    intro p u r hu
    have hlt := lexeme_lt hu
    omega
  exact h.unique hless h'

theorem leftOpen_word (h : LeftOpen ts) :
    ∃ stmt, statementRule.word ts (continuing ts) stmt := by
  obtain ⟨ss, sel, fs, tables, cs, conds, hsel, hf, hc, rfl⟩ := h
  exact ⟨_, .sym .selectT, _, rfl, selectWhere_complete hsel hf hc⟩

theorem Misread.accepts (h : Misread stof input) : ∃ stmt l ts,
    doParse stof input = some (.ok (stmt, l)) ∧ Reads (lexeme stof input) 0 ts l.p ∧
      ∀ stmt, ¬ Sentence ts stmt := by
  obtain ⟨ts, q, hr, ⟨hopen, he⟩ | htwo | hbreak⟩ := h
  · obtain ⟨stmt, hw⟩ := leftOpen_word hopen
    obtain ⟨l, hl, rfl⟩ := accepts_word hw hr he
    exact ⟨stmt, l, ts, hl, hr, fun _ => hopen.not_sentence⟩
  · obtain ⟨tables, hw⟩ := twoColons_complete htwo
    have hhead : ∃ us, ts = .sym .deleteT :: us := by
      obtain ⟨star, fs, _, _, _, rfl⟩ := htwo
      exact ⟨_, rfl⟩
    obtain ⟨us, hus⟩ := hhead
    obtain ⟨l, hl, rfl⟩ := accepts_word ⟨.sym .deleteT, us, hus, hw⟩ hr (.empty q)
    exact ⟨_, l, ts, hl, hr, fun _ => htwo.not_sentence⟩
  · have hhead : ∃ us, ts = .sym .dropT :: us := by
      cases hbreak with
      | table v h => exact ⟨_, rfl⟩
      | name v h => exact ⟨_, rfl⟩
    obtain ⟨us, rfl⟩ := hhead
    have hw : dropRule.word (.sym .dropT :: us) ∅ (.select {}) :=
      word_dropRule.2 ⟨rfl, .inl ⟨hbreak, rfl⟩⟩
    obtain ⟨l, hl, rfl⟩ := accepts_word ⟨.sym .dropT, us, rfl, hw⟩ hr (.empty q)
    exact ⟨_, l, _, hl, hr, fun _ => hbreak.not_sentence⟩

theorem Misread.not_only_sentences (h : Misread stof input) :
    ¬ ∀ stmt l, doParse stof input = some (.ok (stmt, l)) →
      ∃ ts stmt', Reads (lexeme stof input) 0 ts l.p ∧ Sentence ts stmt' ∧
        stmt'.type = stmt.type := by
  intro hall
  obtain ⟨stmt, l, ts, hl, hr, hno⟩ := h.accepts
  obtain ⟨us, stmt', hr', hs, _⟩ := hall stmt l hl
  obtain rfl := reads_unique hr hr'
  exact hno stmt' hs

/-- The parser accepts only sentences, unless it misreads the input. -/
theorem accepts_only_sentences_iff :
    (∀ stmt l, doParse stof input = some (.ok (stmt, l)) →
      ∃ ts stmt', Reads (lexeme stof input) 0 ts l.p ∧ Sentence ts stmt' ∧
        stmt'.type = stmt.type) ↔ ¬ Misread stof input := by
  constructor
  · exact fun hall hmis => hmis.not_only_sentences hall
  · intro hmis stmt l hl
    obtain ⟨ts, stop, hw, hr, he⟩ := doParse_ok_iff.1 ⟨l, hl, rfl⟩
    rcases statement_sound hw with ⟨_, hs⟩ | ⟨hopen, rfl, _⟩ | ⟨_, ⟨htwo, _⟩ | ⟨hbreak, _⟩⟩
    · exact ⟨ts, stmt, hr, hs, rfl⟩
    · exact absurd ⟨ts, l.p, hr, .inl ⟨hopen, he⟩⟩ hmis
    · exact absurd ⟨ts, l.p, hr, .inr (.inl htwo)⟩ hmis
    · exact absurd ⟨ts, l.p, hr, .inr (.inr hbreak)⟩ hmis

/-- `DROP x` is accepted. -/
theorem drop_breaks_off : ¬ ∀ stmt l, doParse (fun _ => some 0) (str "DROP x") = some (.ok (stmt, l)) →
    ∃ ts stmt', Reads (lexeme (fun _ => some 0) (str "DROP x")) 0 ts l.p ∧ Sentence ts stmt' ∧
      stmt'.type = stmt.type := by
  apply Misread.not_only_sentences
  exact ⟨[.sym .dropT, .id (str "x")], 6, ⟨4, by decide, 6, by decide, rfl⟩,
    .inr (.inr (.table _ (by decide)))⟩

end Tadis.Sql
