import Tadis.Acceptance

/-!
# `DELETE` sentences

A `DELETE` names its tables, with a `*` before them or not, and may have conditions. `parse_conds`
takes the `;` that stands in the place of a `WHERE`, and `parse_delete` then asks for another one: the
sentences with a `WHERE` are answered as intended, and the others are refused.
-/

namespace Tadis.Sql

open Tadis.Parser Recognition Lexer

/-- A sentence of one of the forms, with its statement if it should be accepted. -/
inductive DeleteForm : List Lexeme → Option DeleteStmt → Prop
  | all {fs tables} (hf : CommaList IsId fs tables) :
    DeleteForm (.sym .deleteT :: .sym .fromT :: fs ++ [.sym .colonT]) (some ⟨tables, []⟩)
  | star {fs tables} (hf : CommaList IsId fs tables) :
    DeleteForm (.sym .deleteT :: .sym .starT :: .sym .fromT :: fs ++ [.sym .colonT])
      (some ⟨tables, []⟩)
  | conds {fs tables cs conds} (hf : CommaList IsId fs tables) (hc : CommaList IsCond cs conds) :
    DeleteForm (.sym .deleteT :: .sym .fromT :: fs ++ .sym .whereT :: cs ++ [.sym .colonT])
      (some ⟨tables, conds⟩)
  | starConds {fs tables cs conds} (hf : CommaList IsId fs tables)
    (hc : CommaList IsCond cs conds) :
    DeleteForm (.sym .deleteT :: .sym .starT :: .sym .fromT :: fs ++ .sym .whereT :: cs ++
      [.sym .colonT]) none

/-- `do_parse` succeeds with the statement, or fails where there is none. -/
def Answers (stof : Bytes → Option UInt32) (input : Bytes) : Option DeleteStmt → Prop
  | some d => ∃ l, doParse stof input = some (.ok (.delete d, l))
  | none => ∃ rc, doParse stof input = some (.error rc) ∧ rcSuccess rc = false

variable {stof : Bytes → Option UInt32} {input : Bytes} {ts ss fs us : List Lexeme}
  {tables : List Bytes} {star : Bool} {n p q : ℕ} {l : Lexer} {t : Token}

/-- What `parse_delete` does up to the tables. -/
def deleteHead (stof : Bytes → Option UInt32) (input : Bytes) (n : ℕ) : Parse (Bool × List Bytes) := do
  expect stof input .deleteT
  let star ← parseStar stof input
  let tables ← parseFrom stof input n
  pure (star, tables)

def deleteTail (stof : Bytes → Option UInt32) (input : Bytes) (n : ℕ) (star : Bool)
    (tables : List Bytes) : Parse QueryStmt := do
  let r ← peek stof input
  if r.2 = .whereT ∧ star then throw .syntaxError
  else do
    let conds ← parseConds stof input n
    expect stof input .colonT
    pure (.delete ⟨tables, conds⟩)

theorem parseDelete_eq (stof : Bytes → Option UInt32) (input : Bytes) (n : ℕ) :
    parseDelete stof input n =
      deleteHead stof input n >>= fun r => deleteTail stof input n r.1 r.2 := by
  rw [deleteHead]
  simp only [bind_assoc, pure_bind]
  rfl

def deleteHeadRule : Rule Lexeme (Bool × List Bytes) :=
  (symRule .deleteT).bind (fun _ => starRule.bind (fun star => fromRule.bind (fun tables =>
    .ret (star, tables))))

theorem meets_deleteHead :
    Parser.Meets stof input (Within input n) (deleteHead stof input n) deleteHeadRule := by
  apply Meets.bind (persistent_within n) (meets_expect (by decide) (persistent_within n))
  intro _
  apply Meets.bind (persistent_within n) (meets_parseStar (persistent_within n))
  intro star
  exact .bind (persistent_within n) meets_parseFrom (fun tables => .ret _)

theorem word_deleteHead {s : Set Lexeme} (hstar : starRule.word ss s star)
    (hf : CommaList IsId fs tables) : ∃ stop, stop ⊆ dotsAndCommas ∧
      deleteHeadRule.word (.sym .deleteT :: (ss ++ .sym .fromT :: fs)) stop (star, tables) := by
  obtain ⟨stop, hstop, hl⟩ := describes_id.list.complete hf
  refine ⟨stop, hstop,
    (word_sym_bind rfl).2 ⟨_, rfl, word_bind hstar ?_ (from_notMem_star hstar)⟩⟩
  exact Rule.word_bind_ret.2 ⟨tables, word_fromRule.2 ⟨fs, rfl, hl⟩, rfl⟩

theorem parseDelete_tail {s : Set Lexeme} (hstar : starRule.word ss s star)
    (hf : CommaList IsId fs tables) (hn : Within input n l.p)
    (hr : Reads (lexeme stof input) l.p (.sym .deleteT :: (ss ++ .sym .fromT :: fs)) p)
    (hq : lexeme stof input p = some (.ok (.sym t, q))) (hdot : t ≠ .dotT) (hcomma : t ≠ .commasT) :
    ∃ l', l'.p = p ∧ parseDelete stof input n l = deleteTail stof input n star tables l' := by
  obtain ⟨stop, hstop, hw⟩ := word_deleteHead hstar hf
  have hnext : Reads (lexeme stof input) p [.sym t] q := ⟨q, hq, rfl⟩
  have hends : Ends (lexeme stof input) stop p :=
    hnext.ends (admits_cons.2 (sym_notMem hdot hcomma hstop))
  obtain ⟨l', hl', hp⟩ := (meets_deleteHead.ok l (star, tables) p hn).2 ⟨_, stop, hw, hr, hends⟩
  refine ⟨l', hp, ?_⟩
  rw [parseDelete_eq, bind_apply, hl']

theorem deleteTail_starConds (hq : lexeme stof input l.p = some (.ok (.sym .whereT, q))) :
    deleteTail stof input n true tables l = some (.error .syntaxError) := by
  rw [deleteTail, bind_apply, peek_ok hq]
  rfl

theorem deleteTail_colon (hq : lexeme stof input l.p = some (.ok (.sym .colonT, q)))
    (hend : ∃ e, lexeme stof input q = some (.error e)) :
    deleteTail stof input n star tables l = some (.error .syntaxError) := by
  obtain ⟨e, he⟩ := hend
  have hconds : parseConds stof input n (behind (.sym .colonT) l.p l) =
      some (.ok ([], behind (.sym .colonT) q (behind (.sym .colonT) l.p l))) := by
    rw [parseConds, bind_apply, next_ok (l := behind (.sym .colonT) l.p l) hq]
    rfl
  obtain ⟨l', _, hl'⟩ := nextIf_error (l := behind (.sym .colonT) q (behind (.sym .colonT) l.p l))
    (t := .colonT) he (by decide)
  rw [deleteTail, bind_apply, peek_ok hq]
  dsimp only
  rw [if_neg (by simp [Lexeme.token]), bind_apply, hconds]
  dsimp only
  rw [bind_apply, expect, bind_apply, hl']
  rfl

theorem lexeme_end (h : input.length ≤ skipBlank input q) :
    lexeme stof input q = some (.error .syntaxError) := by
  rw [lexeme, scan, if_pos h]
  rfl

theorem doParse_delete (hq : lexeme stof input 0 = some (.ok (.sym .deleteT, q))) :
    doParse stof input =
      parseDelete stof input (input.length + 1) (behind (.sym .deleteT) 0 {}) := by
  rw [doParse, parseStatement, bind_apply, peek_ok (l := {}) hq]
  rfl

theorem answers_conds {cs : List Lexeme} {conds : List Condition}
    (hr : Reads (lexeme stof input) 0
      (.sym .deleteT :: .sym .fromT :: fs ++ .sym .whereT :: cs ++ [.sym .colonT]) p)
    (hf : CommaList IsId fs tables) (hc : CommaList IsCond cs conds) :
    Answers stof input (some ⟨tables, conds⟩) := by
  obtain ⟨l, hl, _⟩ := accepts_word ⟨.sym .deleteT, _, rfl, deleteWhere_complete hf hc⟩ hr (.empty p)
  exact ⟨l, hl⟩

theorem doParse_tail {s : Set Lexeme} (hstar : starRule.word ss s star)
    (hf : CommaList IsId fs tables)
    (hr : Reads (lexeme stof input) 0
      (.sym .deleteT :: (ss ++ .sym .fromT :: fs) ++ .sym t :: us) q)
    (hdot : t ≠ .dotT) (hcomma : t ≠ .commasT) :
    ∃ l p, lexeme stof input l.p = some (.ok (.sym t, p)) ∧ Reads (lexeme stof input) p us q ∧
      doParse stof input = deleteTail stof input (input.length + 1) star tables l := by
  obtain ⟨r, hhead, p, ht, hus⟩ := reads_append.1 hr
  obtain ⟨_, hdelete, _⟩ := id hhead
  obtain ⟨l, hl, htail⟩ := parseDelete_tail (n := input.length + 1)
    (l := behind (.sym .deleteT) 0 {}) hstar hf (by simp [Within, behind]) hhead ht hdot hcomma
  refine ⟨l, p, ?_, hus, (doParse_delete hdelete).trans htail⟩
  rwa [hl]

theorem doParse_without_where {s : Set Lexeme} (hstar : starRule.word ss s star)
    (hf : CommaList IsId fs tables)
    (hall : AllLexemes stof input (.sym .deleteT :: (ss ++ .sym .fromT :: fs) ++ [.sym .colonT])) :
    doParse stof input = some (.error .syntaxError) := by
  obtain ⟨q, hr, _, hend⟩ := hall
  obtain ⟨l, p, hcolon, hus, hparse⟩ := doParse_tail hstar hf hr (by decide) (by decide)
  obtain rfl : p = q := hus
  rw [hparse]
  exact deleteTail_colon hcolon ⟨_, lexeme_end hend⟩

theorem not_answers_of_refused {d : DeleteStmt}
    (h : doParse stof input = some (.error .syntaxError)) : ¬ Answers stof input (some d) := by
  rintro ⟨l, hl⟩
  rw [h] at hl
  cases hl

theorem isId_where (h : CommaList IsId fs tables) : Lexeme.sym .whereT ∉ fs := by
  induction h with
  | one h =>
    cases h
    simp
  | more h _ ih =>
    cases h
    simpa using ih

/-- A `DELETE` sentence is answered as intended exactly when it has a `WHERE`. -/
theorem delete_answers_iff {r : Option DeleteStmt} (hall : AllLexemes stof input ts)
    (h : DeleteForm ts r) : Answers stof input r ↔ Lexeme.sym .whereT ∈ ts := by
  cases h with
  | all hf =>
    apply iff_of_false
    · exact not_answers_of_refused (doParse_without_where (word_starRule.2 (.inr ⟨rfl, rfl, rfl⟩)) hf
        (by simpa using hall))
    · simpa using isId_where hf
  | star hf =>
    apply iff_of_false
    · exact not_answers_of_refused (doParse_without_where (word_starRule.2 (.inl ⟨rfl, rfl, rfl⟩)) hf
        (by simpa using hall))
    · simpa using isId_where hf
  | conds hf hc =>
    obtain ⟨q, hr, _⟩ := hall
    exact iff_of_true (answers_conds hr hf hc) (by simp)
  | @starConds fs tables cs conds hf hc =>
    obtain ⟨q, hr, _⟩ := hall
    have hr' : Reads (lexeme stof input) 0 (.sym .deleteT :: ([.sym .starT] ++ .sym .fromT :: fs) ++
        .sym .whereT :: (cs ++ [.sym .colonT])) q := by simpa using hr
    obtain ⟨l, p, hwhere, _, hparse⟩ := doParse_tail (word_starRule.2 (.inl ⟨rfl, rfl, rfl⟩)) hf hr'
      (by decide) (by decide)
    exact iff_of_true ⟨.syntaxError, hparse.trans (deleteTail_starConds hwhere), rfl⟩ (by simp)

/-- `DELETE FROM t WHERE a = 1;` is accepted. -/
theorem delete_answers_conds : Answers (fun _ => some 0) (str "DELETE FROM t WHERE a = 1;")
    (some ⟨[str "t"], [⟨.relAttr ⟨[], str "a"⟩, .ints 1, .eq⟩]⟩) := by
  have hcond : IsCond [.id (str "a"), .sym .assignT, .integer 1]
      ⟨.relAttr ⟨[], str "a"⟩, .ints 1, .eq⟩ :=
    .mk (.attr (.plain (str "a"))) .eq (.literal (.integer 1))
  have hform := DeleteForm.conds (.one (.mk (str "t"))) (.one hcond)
  have hall : AllLexemes (fun _ => some 0) (str "DELETE FROM t WHERE a = 1;") [.sym .deleteT,
      .sym .fromT, .id (str "t"), .sym .whereT, .id (str "a"), .sym .assignT, .integer 1,
      .sym .colonT] :=
    ⟨26, ⟨6, by decide, 11, by decide, 13, by decide, 19, by decide, 21, by decide, 23, by decide,
      25, by decide, 26, by decide, rfl⟩, by decide, by decide⟩
  exact (delete_answers_iff hall hform).2 (by decide)

/-- `DELETE FROM t;` is refused. -/
theorem delete_all_refused : ¬ ∀ stof input ts r, AllLexemes stof input ts → DeleteForm ts r →
    Answers stof input r := by
  intro h
  have hall : AllLexemes (fun _ => some 0) (str "DELETE FROM t;") [.sym .deleteT, .sym .fromT,
      .id (str "t"), .sym .colonT] :=
    ⟨14, ⟨6, by decide, 11, by decide, 13, by decide, 14, by decide, rfl⟩, by decide, by decide⟩
  obtain ⟨l, hl⟩ := h _ _ _ _ hall (.all (.one (.mk (str "t"))))
  have herror : (doParse (fun _ => some 0) (str "DELETE FROM t;")).any Except.isOk = false := by
    decide
  rw [hl] at herror
  cases herror

end Tadis.Sql
