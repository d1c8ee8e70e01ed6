import Tadis.Metadata
import Tadis.StatementText

/-!
# Statements that have been parsed

What the parser has accepted can be written out again, in the one spelling of `toSql`, and is read back
from it. Left out are `DELETE`, what a `DROP` leaves that breaks off, floats, the smallest integer and
columns whose width has been negative.
-/

namespace Tadis.Sql

open Lexer Recognition

variable {stof : Bytes → Option UInt32} {input : Bytes} {p q : ℕ} {ts : List Lexeme}

/-- Names are no keywords, and strings have no quote. -/
def Legible : Lexeme → Prop
  | .id name => IsName name
  | .string s => s ≠ [] ∧ '\''.toUInt8 ∉ s
  | _ => True

theorem string_of_lexeme {s : Bytes} (h : lexeme stof input p = some (.ok (.string s, q))) :
    s ≠ [] ∧ '\''.toUInt8 ∉ s := by
  have hs : scan stof input p = some (.success, .stringT, some (.string s), q) := scan_of_lexeme h
  have hp : p ≤ input.length := by
    by_contra hlt
    have hle : input.length ≤ skipBlank input p := (not_le.1 hlt).le.trans (le_skipWhile input _ p)
    rw [scan, if_pos hle] at hs
    cases hs
  rcases scan_string_or_le hp hs with ⟨_, hstring⟩ | ⟨hne, _⟩
  · generalize skipBlank input p = p' at hstring
    unfold scanString at hstring
    dsimp only at hstring
    split_ifs at hstring with hempty
    · cases hstring
    · have hslice := slice_skipWhile input (· ≠ '\''.toUInt8) (p' + 1)
      have hval := congrArg (fun x => x.2.2.1) hstring
      dsimp only at hval
      rw [Nat.sub_sub, hslice, Option.some.injEq, Value.string.injEq] at hval
      subst hval
      refine ⟨fun hnil => hempty ?_, fun hmem => by simpa using List.mem_takeWhile_imp hmem⟩
      rw [skipWhile, hnil]
      rfl
  · exact absurd rfl hne

theorem legible_of_reads (h : Reads (lexeme stof input) p ts q) : ∀ u ∈ ts, Legible u := by
  intro u hu
  obtain ⟨_, _, hlex⟩ := mem_reads h hu
  cases u with
  | id name => exact lexeme_id hlex
  | string s => exact string_of_lexeme hlex
  | _ => trivial

/-- Values that have one spelling. -/
def Plain : Value → Prop
  | .ints n => -2 ^ 63 < n.toInt
  | .floats _ => False
  | _ => True

instance : DecidablePred Plain
  | .ints n => inferInstanceAs (Decidable (-2 ^ 63 < n.toInt))
  | .floats _ => .isFalse id
  | .relAttr _ | .string _ | .nullA | .undefined => .isTrue trivial

def PlainStmt : QueryStmt → Prop
  | .select s => s.selist ≠ [] ∧ ∀ c ∈ s.condList, Plain c.left ∧ Plain c.right
  | .insert s => ∀ v ∈ s.values, Plain v
  | .createTable s => ∀ c ∈ s.colAttrs, c.size < 2 ^ 63
  | .drop _ => True
  | .delete _ => False

instance : DecidablePred PlainStmt
  | .select s => inferInstanceAs (Decidable (s.selist ≠ [] ∧ ∀ c ∈ s.condList, _ ∧ _))
  | .insert s => inferInstanceAs (Decidable (∀ v ∈ s.values, Plain v))
  | .createTable s => inferInstanceAs (Decidable (∀ c ∈ s.colAttrs, c.size < 2 ^ 63))
  | .drop _ => .isTrue trivial
  | .delete _ => .isFalse id

theorem CommaList.forall_of_legible {α : Type} {P : List Lexeme → α → Prop} {Q : α → Prop}
    {as : List α} (h : CommaList P ts as) (hts : ∀ u ∈ ts, Legible u)
    (hP : ∀ us a, P us a → (∀ u ∈ us, Legible u) → a ∈ as → Q a) : as ≠ [] ∧ ∀ a ∈ as, Q a := by
  induction h with
  | one h => exact ⟨by simp, List.forall_mem_singleton.2 (hP _ _ h hts (by simp))⟩
  | more h _ ih =>
    rw [List.forall_mem_append, List.forall_mem_cons] at hts
    obtain ⟨hhead, _, htail⟩ := hts
    obtain ⟨_, hall⟩ := ih htail fun us a ha hus hmem => hP us a ha hus (List.mem_cons_of_mem _ hmem)
    exact ⟨by simp, List.forall_mem_cons.2 ⟨hP _ _ h hhead (by simp), hall⟩⟩

theorem IsId.isName {name : Bytes} (h : IsId ts name) (hts : ∀ u ∈ ts, Legible u) : IsName name := by
  cases h
  exact hts _ (List.mem_singleton_self _)

theorem names_of_legible {names : List Bytes} (h : CommaList IsId ts names)
    (hts : ∀ u ∈ ts, Legible u) : names ≠ [] ∧ ∀ name ∈ names, IsName name :=
  h.forall_of_legible hts fun _ _ hid hus _ => hid.isName hus

theorem IsAttr.attrOk {a : RelAttr} (h : IsAttr ts a) (hts : ∀ u ∈ ts, Legible u) : AttrOk a := by
  cases h with
  | plain name => exact ⟨.inl rfl, hts (.id name) (by simp)⟩
  | qualified table name => exact ⟨.inr (hts (.id table) (by simp)), hts (.id name) (by simp)⟩

theorem IsLiteral.literalOk {v : Value} (h : IsLiteral ts v) (hts : ∀ u ∈ ts, Legible u)
    (hv : Plain v) : LiteralOk v := by
  cases h with
  | string s => exact hts (.string s) (by simp)
  | integer n => exact hv
  | float f => exact hv
  | null => trivial

theorem IsOperand.operandOk {v : Value} (h : IsOperand ts v) (hts : ∀ u ∈ ts, Legible u)
    (hv : Plain v) : OperandOk v := by
  cases h with
  | attr h => exact h.attrOk hts
  | literal h =>
    have hok := h.literalOk hts hv
    cases v with
    | relAttr a => exact hok.elim
    | _ => exact hok

theorem IsCond.condOk {c : Condition} (h : IsCond ts c) (hts : ∀ u ∈ ts, Legible u)
    (hc : Plain c.left ∧ Plain c.right) : CondOk c := by
  obtain ⟨hl, hop, hr⟩ := h
  rw [List.forall_mem_append, List.forall_mem_cons] at hts
  refine ⟨hl.operandOk hts.1 hc.1, hr.operandOk hts.2.2 hc.2, ?_⟩
  cases hop <;> simp [opToken]

theorem IsColAttr.colOk {c : ColAttr} (h : IsColAttr ts c) (hts : ∀ u ∈ ts, Legible u)
    (hc : c.size < 2 ^ 63) : ColOk c := by
  obtain ⟨name, htype⟩ := h
  refine ⟨hts (.id name) (by simp), ?_⟩
  cases htype with
  | int => exact .inl ⟨by simp, rfl⟩
  | float => exact .inl ⟨by simp, rfl⟩
  | char n => exact .inr ⟨by simp, hc⟩
  | varchar n => exact .inr ⟨by simp, hc⟩

theorem IsCols.names {cols : List Bytes} (h : IsCols ts cols) (hts : ∀ u ∈ ts, Legible u) :
    ∀ name ∈ cols, IsName name := by
  cases h with
  | none => simp
  | some h =>
    rw [List.cons_append, List.forall_mem_cons, List.forall_mem_append] at hts
    exact (names_of_legible h hts.2.1).2

theorem IsSelist.selistOk {sel : List RelAttr} (h : IsSelist ts sel) (hts : ∀ u ∈ ts, Legible u) :
    sel = [⟨[], str "*"⟩] ∨ sel ≠ [] ∧ ∀ a ∈ sel, AttrOk a := by
  cases h with
  | star => exact .inl rfl
  | attrs h => exact .inr (h.forall_of_legible hts fun _ _ ha hus _ => ha.attrOk hus)

theorem writable_select {ss fs cs : List Lexeme} {sel : List RelAttr} {tables : List Bytes}
    {conds : List Condition} (hs : IsSelist ss sel) (hf : CommaList IsId fs tables)
    (hc : CommaList IsCond cs conds) (hss : ∀ u ∈ ss, Legible u) (hfs : ∀ u ∈ fs, Legible u)
    (hcs : ∀ u ∈ cs, Legible u) (hplain : PlainStmt (.select ⟨sel, tables, conds⟩)) :
    Writable (.select ⟨sel, tables, conds⟩) :=
  ⟨hs.selistOk hss, names_of_legible hf hfs,
    (hc.forall_of_legible hcs fun _ c h hus hmem => h.condOk hus (hplain.2 c hmem)).2⟩

theorem Sentence.writable {stmt : QueryStmt} (h : Sentence ts stmt) (hts : ∀ u ∈ ts, Legible u)
    (hplain : PlainStmt stmt) : Writable stmt := by
  cases h with
  | select hs hf =>
    simp only [List.cons_append, List.forall_mem_cons, List.forall_mem_append] at hts
    exact ⟨hs.selistOk hts.2.1.1, names_of_legible hf hts.2.1.2.2, by simp⟩
  | selectWhere hs hf hc =>
    simp only [List.cons_append, List.append_assoc, List.forall_mem_cons, List.forall_mem_append]
      at hts
    obtain ⟨_, hss, _, hfs, _, hcs, _⟩ := hts
    exact writable_select hs hf hc hss hfs hcs hplain
  | delete hf => exact hplain.elim
  | deleteStar hf => exact hplain.elim
  | deleteWhere hf hc => exact hplain.elim
  | insert table hc hv =>
    simp only [List.cons_append, List.append_assoc, List.forall_mem_cons, List.forall_mem_append]
      at hts
    obtain ⟨_, _, htable, hcs, _, _, hvs, _⟩ := hts
    exact ⟨htable, hc.names hcs,
      hv.forall_of_legible hvs fun _ v h hus hmem => h.literalOk hus (hplain v hmem)⟩
  | createTable table hc =>
    simp only [List.cons_append, List.forall_mem_cons, List.forall_mem_append] at hts
    obtain ⟨_, _, htable, _, hcs, _⟩ := hts
    exact ⟨htable, hc.forall_of_legible hcs fun _ c h hus hmem => h.colOk hus (hplain c hmem)⟩
  | drop table =>
    simp only [List.forall_mem_cons] at hts
    exact hts.2.2.1

theorem writable_of_parsed {stmt : QueryStmt} {l : Lexer}
    (h : Parser.doParse stof input = some (.ok (stmt, l))) (hplain : PlainStmt stmt) :
    Writable stmt := by
  obtain ⟨ts, stop, hw, hr, he⟩ := Parser.doParse_ok_iff.1 ⟨l, h, rfl⟩
  have hts := legible_of_reads hr
  rcases statement_sound hw with ⟨_, hs⟩ | ⟨hopen, rfl, _⟩ | ⟨_, ⟨_, htype⟩ | ⟨hbreak, _⟩⟩
  · exact hs.writable hts hplain
  · -- the statement is the one of the word that has been left open
    obtain ⟨ss, sel, fs, tables, cs, conds, hs, hf, hc, rfl⟩ := hopen
    obtain ⟨l', hl', _⟩ := accepts_word ⟨.sym .selectT, _, rfl, selectWhere_complete hs hf hc⟩ hr he
    rw [h] at hl'
    obtain ⟨rfl, _⟩ := by simpa using hl'
    simp only [List.cons_append, List.append_assoc, List.forall_mem_cons, List.forall_mem_append]
      at hts
    obtain ⟨_, hss, _, hfs, _, hcs⟩ := hts
    exact writable_select hs hf hc hss hfs hcs hplain
  · cases stmt with
    | delete s => exact hplain.elim
    | _ => cases htype
  · obtain ⟨us, rfl⟩ : ∃ us, ts = .sym .dropT :: us := by
      cases hbreak with
      | table v h => exact ⟨_, rfl⟩
      | name v h => exact ⟨_, rfl⟩
    have hdrop : Parser.dropRule.word (.sym .dropT :: us) ∅ (.select {}) :=
      word_dropRule.2 ⟨rfl, .inl ⟨hbreak, rfl⟩⟩
    obtain ⟨l', hl', _⟩ := accepts_word ⟨.sym .dropT, us, rfl, hdrop⟩ hr (.empty _)
    rw [h] at hl'
    obtain ⟨rfl, _⟩ := by simpa using hl'
    exact absurd rfl hplain.1

/-- Whatever text a statement has been parsed from, it is parsed from `toSql` as well. -/
theorem parsed_statements_are_written_back {stof' : Bytes → Option UInt32} {stmt : QueryStmt}
    {l : Lexer} (h : Parser.doParse stof input = some (.ok (stmt, l))) (hplain : PlainStmt stmt) :
    ∃ l', Parser.doParse stof' (toSql stmt) = some (.ok (stmt, l')) := by
  have hw := writable_of_parsed h hplain
  have htext : Rendered (stmtLexemes stmt) (toSql stmt) := rendered_text (spellable_stmtLexemes hw)
  obtain ⟨q, hr⟩ : ∃ q, Reads (lexeme stof' (toSql stmt)) 0 (stmtLexemes stmt) q :=
    reads_rendered htext
  exact parses_stmt hw hr

/-- The string is not closed, and there is no `;`. -/
theorem parsed_select_is_written_back : ∃ l, Parser.doParse (fun _ => none)
    (str " SELECT A FROM t WHERE b = 'x' ;") =
      some (.ok (.select ⟨[⟨[], str "A"⟩], [str "t"],
        [⟨.relAttr ⟨[], str "b"⟩, .string (str "x"), .eq⟩]⟩, l)) := by
  have h : Parser.doParse (fun _ => none) (str "select A  from t where b='x") =
      some (.ok (.select ⟨[⟨[], str "A"⟩], [str "t"],
        [⟨.relAttr ⟨[], str "b"⟩, .string (str "x"), .eq⟩]⟩, ⟨28, .string (str "x")⟩)) := rfl
  exact parsed_statements_are_written_back h (by decide)

end Tadis.Sql
