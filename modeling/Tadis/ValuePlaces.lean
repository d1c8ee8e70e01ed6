import Tadis.Acceptance

/-!
# Inputs on which the parser aborts

`parse_value` asserts that it finds an identifier, a literal or `NULL`. The places where a statement
reads a value are listed in `ValuePlace`. A number that the standard conversion refuses aborts the
parser wherever it is read.
-/

namespace Tadis.Sql

open Tadis.Parser Recognition Recognition.Rule Lexer

variable {stof : Bytes → Option UInt32} {input : Bytes} {α β : Type} {ts us : List Lexeme}
  {stop : Set Lexeme} {t : Token} {u v : Lexeme}

theorem calm_ite {p : Prop} [Decidable p] {A B : Rule Lexeme α} (hA : A.Calm) (hB : B.Calm) :
    (if p then A else B).Calm := by
  split_ifs
  · exact hA
  · exact hB

theorem calm_symRule (t : Token) : (symRule t).Calm :=
  calm_token fun _ => calm_ite (calm_ret ()) calm_fail

theorem calm_idRule : idRule.Calm := by
  apply calm_token
  intro u
  cases u with
  | id name => exact calm_ret name
  | _ => exact calm_fail

theorem calm_qualified (f : Bytes → α) (a : α) : (Rule.choose (isToken .dotT)
    (fun _ => idRule.bind (fun attr => .ret (f attr))) (.ret a)).Calm :=
  calm_choose (fun _ => calm_idRule.bind fun _ => calm_ret _) (calm_ret a)

theorem calm_attrRule : attrRule.Calm := by
  apply calm_token
  intro u
  cases u with
  | id name => exact calm_qualified (RelAttr.mk name) ⟨[], name⟩
  | _ => exact calm_fail

theorem calm_attrsRule : (attrsRule true).Calm := by
  apply calm_token
  intro u
  cases u with
  | id name =>
    apply (calm_qualified (RelAttr.mk name) ⟨[], name⟩).bind
    intro attr
    apply calm_choose
    · intro _
      exact calm_attrRule.sepBy.bind fun _ => calm_ret _
    · exact calm_ret _
  | sym t =>
    cases t <;> first | exact calm_fail | exact calm_ret _
  | _ => exact calm_fail

theorem calm_fromRule : fromRule.Calm :=
  calm_token fun _ => calm_ite calm_idRule.sepBy calm_fail

theorem calm_opRule : opRule.Calm :=
  calm_token fun _ => calm_ite calm_fail (calm_ret _)

theorem calm_starRule : starRule.Calm := calm_choose (fun _ => calm_ret _) (calm_ret _)

theorem calm_close {t t' : Token} (b : β) :
    ((symRule t).bind (fun _ => (symRule t').bind (fun _ => .ret b))).Calm :=
  (calm_symRule t).bind fun _ => (calm_symRule t').bind fun _ => calm_ret b

theorem calm_insertColsRule : insertColsRule.Calm :=
  calm_token fun _ => calm_ite (calm_idRule.sepBy.bind fun cols => calm_close cols)
    (calm_ite (calm_ret _) calm_fail)

theorem calm_sizeRule : sizeRule.Calm := by
  apply (calm_symRule _).bind
  intro _
  apply calm_token
  intro u
  cases u with
  | integer n => exact (calm_symRule _).bind fun _ => calm_ret _
  | _ => exact calm_fail

theorem calm_colDataTypeRule : colDataTypeRule.Calm := by
  apply calm_token
  intro u
  cases u with
  | sym t =>
    cases t <;> first | exact calm_fail | exact calm_ret _ | exact calm_sizeRule.bind fun _ => calm_ret _
  | _ => exact calm_fail

theorem calm_createRule : createRule.Calm := by
  apply (calm_symRule _).bind
  intro _
  apply calm_dispatch
  intro u
  apply calm_ite _ calm_fail
  apply (calm_symRule _).bind
  intro _
  apply calm_idRule.bind
  intro tableName
  apply (calm_symRule _).bind
  intro _
  apply (calm_idRule.bind fun name => calm_colDataTypeRule.bind fun _ => calm_ret _).sepBy.bind
  intro colAttrs
  exact calm_close _

theorem calm_dropRule : dropRule.Calm := by
  apply calm_token
  intro _
  apply calm_ite (calm_ret _)
  apply calm_token
  intro _
  apply calm_ite (calm_ret _)
  apply calm_token
  intro u
  cases u with
  | id table => exact calm_token fun _ => calm_ite (calm_ret _) calm_fail
  | _ => exact calm_ret _

inductive OperandPlace : List Lexeme → Prop
  | left : OperandPlace []
  | right {ls l o op} (hl : IsOperand ls l) (ho : IsOp o op) : OperandPlace (ls ++ [.sym o])

inductive ItemPlace {α : Type} (P : List Lexeme → α → Prop) : List Lexeme → Prop
  | first : ItemPlace P []
  | next {ts as} (h : CommaList P ts as) : ItemPlace P (ts ++ [.sym .commasT])

inductive ValuePlace : List Lexeme → Prop
  | select {ss sel fs tables cs os} (hs : IsSelist ss sel) (hf : CommaList IsId fs tables)
    (hc : ItemPlace IsCond cs) (ho : OperandPlace os) :
    ValuePlace (.sym .selectT :: ss ++ .sym .fromT :: fs ++ .sym .whereT :: cs ++ os)
  | delete {fs tables cs os} (hf : CommaList IsId fs tables) (hc : ItemPlace IsCond cs)
    (ho : OperandPlace os) :
    ValuePlace (.sym .deleteT :: .sym .fromT :: fs ++ .sym .whereT :: cs ++ os)
  | insert {cs cols vs} (table : Bytes) (hc : IsCols cs cols) (hv : ItemPlace IsLiteral vs) :
    ValuePlace (.sym .insertT :: .sym .intoT :: .id table :: cs ++ .sym .valuesT ::
      .sym .lbraceT :: vs)

theorem balks_head_iff (ht : t.hasValue = false) {A : Rule Lexeme α} :
    (Rule.token ∅ (fun u => if u.token = t then A else .fail)).Balks ts v ↔
      ∃ us, ts = .sym t :: us ∧ A.Balks us v := by
  rw [balks_token]
  constructor
  · rintro (⟨_, h⟩ | ⟨u, us, rfl, _, h⟩)
    · exact h.elim
    · split_ifs at h with hu
      · exact ⟨us, by rw [(token_eq_iff ht).1 hu], h⟩
      · exact absurd h (calm_fail us v)
  · rintro ⟨us, rfl, h⟩
    exact .inr ⟨.sym t, us, rfl, id, by simpa [Lexeme.token] using h⟩

theorem balks_sym_bind (ht : t.hasValue = false) {B : Unit → Rule Lexeme β} :
    ((symRule t).bind B).Balks ts v ↔ ∃ us, ts = .sym t :: us ∧ (B ()).Balks us v := by
  rw [symRule_bind, balks_head_iff ht]

theorem balks_calm_bind {A : Rule Lexeme α} {B : α → Rule Lexeme β} (hA : A.Calm) :
    (A.bind B).Balks ts v ↔ ∃ ls us s a, ts = ls ++ us ∧ A.word ls s a ∧ (B a).Balks us v ∧
      Admits s us ∧ (us = [] → v ∉ s) := by
  rw [balks_bind]
  exact or_iff_right (hA ts v)

theorem balks_of_word {A : Rule Lexeme α} {B : α → Rule Lexeme β} {a : α} {s : Set Lexeme}
    (ha : A.word ts s a) (hb : (B a).Balks (u :: us) v) (hu : u ∉ s) :
    (A.bind B).Balks (ts ++ u :: us) v :=
  balks_bind.2 (.inr ⟨ts, u :: us, s, a, rfl, ha, hb, admits_cons.2 hu, by simp⟩)

theorem balks_bind_calm {A : Rule Lexeme α} {B : α → Rule Lexeme β} (hB : ∀ a, (B a).Calm) :
    (A.bind B).Balks ts v ↔ A.Balks ts v := by
  rw [balks_bind]
  constructor
  · rintro (h | ⟨_, us, _, a, _, _, h, _⟩)
    · exact h
    · exact absurd h (hB a us v)
  · exact .inl

theorem balks_valueRule : valueRule.Balks ts v ↔ ts = [] ∧ v ∈ notValue := by
  rw [valueRule, balks_token]
  constructor
  · rintro (h | ⟨u, us, _, _, h⟩)
    · exact h
    · cases u with
      | id name => exact absurd h (calm_qualified (fun attr => Value.relAttr ⟨name, attr⟩) _ us v)
      | sym t =>
        cases t <;> first | exact absurd h (calm_fail us v) | exact absurd h (calm_ret _ us v)
      | _ => exact absurd h (calm_ret _ us v)
  · exact .inl

theorem balks_literalRule : literalRule.Balks ts v ↔ ts = [] ∧ v ∈ notValue := by
  rw [literalRule, balks_bind_calm (fun _ => calm_ite calm_fail (calm_ret _)), balks_valueRule]

theorem balks_condRule : condRule.Balks ts v ↔ OperandPlace ts ∧ v ∈ notValue := by
  rw [condRule, balks_bind, balks_valueRule]
  constructor
  · rintro (⟨rfl, hv⟩ | ⟨ls, us, s, l, rfl, hl, h, _⟩)
    · exact ⟨.left, hv⟩
    · obtain ⟨os, rs, s', op, rfl, ho, hr, _⟩ := (balks_calm_bind calm_opRule).1 h
      rw [balks_bind_calm (fun _ => calm_ret _), balks_valueRule] at hr
      obtain ⟨rfl, hv⟩ := hr
      obtain ⟨_, o, rfl, hop⟩ := word_opRule.1 ho
      exact ⟨by simpa using OperandPlace.right (operand_of_word hl) hop, hv⟩
  · rintro ⟨h, hv⟩
    cases h with
    | left => exact .inl ⟨rfl, hv⟩
    | @right ls l o op hl ho =>
      obtain ⟨s, hs, hw⟩ := word_of_operand hl
      have hdot : Lexeme.sym o ∉ s := by
        intro hin
        obtain rfl : o = .dotT := hs hin
        cases ho
      refine .inr ⟨ls, [.sym o], s, l, rfl, hw, ?_, admits_cons.2 hdot, by simp⟩
      refine balks_bind.2 (.inr ⟨[.sym o], [], ∅, op, rfl, word_opRule.2 ⟨rfl, o, rfl, ho⟩, ?_,
        .nil _, fun _ => id⟩)
      rw [balks_bind_calm (fun _ => calm_ret _), balks_valueRule]
      exact ⟨rfl, hv⟩

theorem items_iff {P : List Lexeme → α → Prop} {A : Rule Lexeme α} (h : Describes P A dots) :
    Items (isToken .commasT) A ts ↔ ItemPlace P ts := by
  constructor
  · intro hts
    induction hts with
    | nil => exact .first
    | @cons ts s a c us ha hc _ _ ih =>
      obtain rfl := (token_eq_iff rfl).1 hc
      cases ih with
      | first => exact .next (.one (h.sound ha))
      | next has => simpa using ItemPlace.next (.more (h.sound ha) has)
  · intro hts
    cases hts with
    | first => exact .nil
    | next has =>
      have hitem : ∀ {us a pre}, P us a → Items (isToken .commasT) A pre →
          Items (isToken .commasT) A (us ++ .sym .commasT :: pre) := by
        intro us a pre ha hpre
        obtain ⟨s, hs, hw⟩ := h.complete ha
        exact .cons hw rfl (fun hin => comma_notMem_dots (hs hin)) hpre
      induction has with
      | one ha => exact hitem ha .nil
      | more ha _ ih => simpa using hitem ha ih

theorem balks_condList : (listRule condRule).Balks ts v ↔
    ∃ cs os, ts = cs ++ os ∧ ItemPlace IsCond cs ∧ OperandPlace os ∧ v ∈ notValue := by
  simp only [listRule, balks_sepBy, items_iff describes_cond, balks_condRule]

theorem balks_literals : (listRule literalRule).Balks ts v ↔
    ItemPlace IsLiteral ts ∧ v ∈ notValue := by
  simp only [listRule, balks_sepBy, items_iff describes_literal, balks_literalRule]
  constructor
  · rintro ⟨vs, _, rfl, hvs, rfl, hv⟩
    exact ⟨by simpa using hvs, hv⟩
  · rintro ⟨hts, hv⟩
    exact ⟨ts, [], by simp, hts, rfl, hv⟩

theorem balks_condsRule : condsRule.Balks ts v ↔ ∃ cs os, ts = .sym .whereT :: cs ++ os ∧
    ItemPlace IsCond cs ∧ OperandPlace os ∧ v ∈ notValue := by
  have hhead : condsRule.Balks ts v ↔
      ∃ us, ts = .sym .whereT :: us ∧ (listRule condRule).Balks us v := by
    rw [condsRule, balks_token]
    constructor
    · rintro (⟨_, h⟩ | ⟨u, us, rfl, _, h⟩)
      · exact h.elim
      · split_ifs at h with hw hc
        · exact ⟨us, by rw [(token_eq_iff rfl).1 hw], h⟩
        · exact absurd h (calm_ret _ us v)
        · exact absurd h (calm_fail us v)
    · rintro ⟨us, rfl, h⟩
      exact .inr ⟨.sym .whereT, us, rfl, id, h⟩
  rw [hhead]
  constructor
  · rintro ⟨us, rfl, h⟩
    obtain ⟨cs, os, rfl, hrest⟩ := balks_condList.1 h
    exact ⟨cs, os, rfl, hrest⟩
  · rintro ⟨cs, os, rfl, hrest⟩
    exact ⟨cs ++ os, rfl, balks_condList.2 ⟨cs, os, rfl, hrest⟩⟩

/-- The tables and the conditions up to an operand. -/
theorem balks_from {B : List Bytes → Rule Lexeme β}
    (hB : ∀ tables us v, (B tables).Balks us v ↔ condsRule.Balks us v) :
    (fromRule.bind B).Balks ts v ↔ ∃ fs tables cs os, ts = .sym .fromT :: fs ++ .sym .whereT :: cs ++ os ∧
      CommaList IsId fs tables ∧ ItemPlace IsCond cs ∧ OperandPlace os ∧ v ∈ notValue := by
  rw [balks_calm_bind calm_fromRule]
  constructor
  · rintro ⟨_, us, s, tables, rfl, hf, h, _⟩
    obtain ⟨fs, rfl, hl⟩ := word_fromRule.1 hf
    obtain ⟨cs, os, rfl, hrest⟩ := balks_condsRule.1 ((hB tables us v).1 h)
    exact ⟨fs, tables, cs, os, by simp, describes_id.list.sound hl, hrest⟩
  · rintro ⟨fs, tables, cs, os, rfl, hl, hrest⟩
    obtain ⟨s, hs, hw⟩ := describes_id.list.complete hl
    refine ⟨.sym .fromT :: fs, .sym .whereT :: cs ++ os, s, tables, by simp,
      word_fromRule.2 ⟨fs, rfl, hw⟩, (hB _ _ _).2 (balks_condsRule.2 ⟨cs, os, rfl, hrest⟩), ?_,
      by simp⟩
    exact admits_cons.2 (sym_notMem (by decide) (by decide) hs)

theorem balks_selectRule : selectRule.Balks ts v ↔ ∃ ss sel fs tables cs os,
    ts = .sym .selectT :: ss ++ .sym .fromT :: fs ++ .sym .whereT :: cs ++ os ∧ IsSelist ss sel ∧
      CommaList IsId fs tables ∧ ItemPlace IsCond cs ∧ OperandPlace os ∧ v ∈ notValue := by
  rw [selectRule, balks_head_iff rfl]
  constructor
  · rintro ⟨_, rfl, h⟩
    obtain ⟨ss, us, s, sel, rfl, hs, hb, _⟩ := (balks_calm_bind calm_attrsRule).1 h
    obtain ⟨fs, tables, cs, os, rfl, hrest⟩ :=
      (balks_from fun _ _ _ => balks_bind_calm fun _ => calm_ret _).1 hb
    exact ⟨ss, sel, fs, tables, cs, os, by simp, describes_selist.sound hs, hrest⟩
  · rintro ⟨ss, sel, fs, tables, cs, os, rfl, hs, hrest⟩
    obtain ⟨s, hss, hw⟩ := describes_selist.complete hs
    refine ⟨ss ++ .sym .fromT :: (fs ++ .sym .whereT :: cs ++ os), by simp, ?_⟩
    refine balks_of_word hw ?_ (sym_notMem (by decide) (by decide) hss)
    exact (balks_from fun _ _ _ => balks_bind_calm fun _ => calm_ret _).2
      ⟨fs, tables, cs, os, by simp, hrest⟩

theorem balks_deleteTailRule (tables : List Bytes) :
    (deleteTailRule tables).Balks ts v ↔ condsRule.Balks ts v :=
  balks_bind_calm fun _ => (calm_symRule _).bind fun _ => calm_ret _

/-- The conditions of a `DELETE *` are not read. -/
theorem balks_deleteTail {star : Bool} (tables : List Bytes) : (Rule.dispatch (fun u =>
      if u.token = .whereT ∧ star = true then Rule.fail else deleteTailRule tables)).Balks ts v ↔
    star = false ∧ condsRule.Balks ts v := by
  rw [balks_dispatch]
  constructor
  · rintro ⟨u, us, rfl, h⟩
    split_ifs at h with hw
    · exact absurd h (calm_fail _ v)
    · have hc := (balks_deleteTailRule tables).1 h
      obtain ⟨cs, os, hts, _⟩ := balks_condsRule.1 hc
      cases hts
      refine ⟨?_, hc⟩
      cases star with
      | false => rfl
      | true => exact absurd ⟨rfl, rfl⟩ hw
  · rintro ⟨rfl, h⟩
    obtain ⟨cs, os, rfl, _⟩ := balks_condsRule.1 h
    refine ⟨.sym .whereT, cs ++ os, rfl, ?_⟩
    rw [if_neg (by simp)]
    exact (balks_deleteTailRule tables).2 h

theorem balks_deleteRule : deleteRule.Balks ts v ↔ ∃ fs tables cs os,
    ts = .sym .deleteT :: .sym .fromT :: fs ++ .sym .whereT :: cs ++ os ∧ CommaList IsId fs tables ∧
      ItemPlace IsCond cs ∧ OperandPlace os ∧ v ∈ notValue := by
  rw [deleteRule, balks_sym_bind rfl]
  constructor
  · rintro ⟨_, rfl, h⟩
    obtain ⟨ss, us, s, star, rfl, hstar, hb, _⟩ := (balks_calm_bind calm_starRule).1 h
    cases star with
    | true =>
      obtain ⟨fs', us', _, tables, _, _, hd, _⟩ := (balks_calm_bind calm_fromRule).1 hb
      exact absurd ((balks_deleteTail tables).1 hd).1 (by decide)
    | false =>
      rcases word_starRule.1 hstar with ⟨_, _, h⟩ | ⟨rfl, _, _⟩
      · cases h
      · obtain ⟨fs, tables, cs, os, rfl, hrest⟩ := (balks_from fun tables us v => by
          rw [balks_deleteTail]
          exact and_iff_right rfl).1 hb
        exact ⟨fs, tables, cs, os, by simp, hrest⟩
  · rintro ⟨fs, tables, cs, os, rfl, hrest⟩
    refine ⟨.sym .fromT :: (fs ++ .sym .whereT :: cs ++ os), by simp, ?_⟩
    refine balks_of_word (word_starRule.2 (.inr ⟨rfl, rfl, rfl⟩)) ?_ (by rintro ⟨⟩)
    refine (balks_from fun tables us v => ?_).2 ⟨fs, tables, cs, os, by simp, hrest⟩
    rw [balks_deleteTail]
    exact and_iff_right rfl

theorem balks_insertRule : insertRule.Balks ts v ↔ ∃ table cs cols vs,
    ts = .sym .insertT :: .sym .intoT :: .id table :: cs ++ .sym .valuesT :: .sym .lbraceT :: vs ∧
      IsCols cs cols ∧ ItemPlace IsLiteral vs ∧ v ∈ notValue := by
  rw [insertRule, balks_sym_bind rfl]
  constructor
  · rintro ⟨_, rfl, h1⟩
    obtain ⟨_, rfl, h2⟩ := (balks_sym_bind rfl).1 h1
    obtain ⟨_, us, s, table, rfl, hid, h3, _⟩ := (balks_calm_bind calm_idRule).1 h2
    obtain ⟨rfl, rfl⟩ := word_idRule.1 hid
    obtain ⟨_, us', s', cols, rfl, hcols, h4, _⟩ := (balks_calm_bind calm_insertColsRule).1 h3
    obtain ⟨_, cs, rfl, hcs⟩ := word_insertColsRule.1 hcols
    obtain ⟨vs, rfl, h5⟩ := (balks_sym_bind rfl).1 h4
    rw [balks_bind_calm (fun _ => calm_close _), balks_literals] at h5
    exact ⟨table, cs, cols, vs, by simp, hcs, h5⟩
  · rintro ⟨table, cs, cols, vs, rfl, hcs, hrest⟩
    refine ⟨_, rfl, (balks_sym_bind rfl).2 ⟨_, rfl, ?_⟩⟩
    have hid : idRule.word [.id table] ∅ table := word_idRule.2 ⟨rfl, rfl⟩
    have hcols : insertColsRule.word (cs ++ [.sym .valuesT]) ∅ cols :=
      word_insertColsRule.2 ⟨rfl, cs, rfl, hcs⟩
    have hvalues : ((listRule literalRule).bind (fun values => (symRule .rbraceT).bind (fun _ =>
        (symRule .colonT).bind (fun _ =>
          Rule.ret (QueryStmt.insert ⟨table, cols, values⟩))))).Balks vs v := by
      rw [balks_bind_calm (fun _ => calm_close _), balks_literals]
      exact hrest
    refine balks_bind.2 (.inr ⟨[.id table], cs ++ [.sym .valuesT] ++ .sym .lbraceT :: vs, ∅, table,
      by simp, hid, ?_, fun _ _ _ => id, fun _ => id⟩)
    apply balks_of_word hcols _ id
    exact (balks_sym_bind rfl).2 ⟨vs, rfl, hvalues⟩

/-- The parser goes wrong on a token where it stands for a value and is none. -/
theorem balks_statementRule : statementRule.Balks ts v ↔ ValuePlace ts ∧ v ∈ notValue := by
  rw [statementRule, balks_dispatch]
  constructor
  · rintro ⟨u, us, rfl, h⟩
    cases hu : u.token <;> rw [hu] at h <;> dsimp only at h
    case selectT =>
      obtain ⟨ss, sel, fs, tables, cs, os, hts, hs, hf, hc, ho, hv⟩ := balks_selectRule.1 h
      rw [hts]
      exact ⟨.select hs hf hc ho, hv⟩
    case createT => exact absurd h (calm_createRule _ v)
    case deleteT =>
      obtain ⟨fs, tables, cs, os, hts, hf, hc, ho, hv⟩ := balks_deleteRule.1 h
      rw [hts]
      exact ⟨.delete hf hc ho, hv⟩
    case insertT =>
      obtain ⟨table, cs, cols, vs, hts, hc, hvs, hv⟩ := balks_insertRule.1 h
      rw [hts]
      exact ⟨.insert table hc hvs, hv⟩
    case dropT => exact absurd h (calm_dropRule _ v)
    all_goals exact absurd h (calm_fail _ v)
  · rintro ⟨h, hv⟩
    cases h with
    | select hs hf hc ho =>
      exact ⟨.sym .selectT, _, rfl, balks_selectRule.2 ⟨_, _, _, _, _, _, rfl, hs, hf, hc, ho, hv⟩⟩
    | delete hf hc ho =>
      exact ⟨.sym .deleteT, _, rfl, balks_deleteRule.2 ⟨_, _, _, _, rfl, hf, hc, ho, hv⟩⟩
    | insert table hc hvs =>
      exact ⟨.sym .insertT, _, rfl, balks_insertRule.2 ⟨table, _, _, _, rfl, hc, hvs, hv⟩⟩

/-- Behind `ts` the parser reads another token. -/
def ReadsOn (ts : List Lexeme) : Prop := ∃ bad, statementRule.opens ts bad

/-- The parser gets to a number that the standard conversion refuses. -/
def BadNumber (stof : Bytes → Option UInt32) (input : Bytes) : Prop :=
  ∃ ts q, ReadsOn ts ∧ Reads (lexeme stof input) 0 ts q ∧ lexeme stof input q = none

/-- The parser gets to a keyword or a sign in the place of a value. -/
def BadValue (stof : Bytes → Option UInt32) (input : Bytes) : Prop :=
  ∃ ts t q r, ValuePlace ts ∧ Reads (lexeme stof input) 0 ts q ∧
    lexeme stof input q = some (.ok (.sym t, r)) ∧ t ≠ .nullT

/-- The parser returns, unless it gets to a number that cannot be converted or to a token in the
place of a value that is none. -/
theorem doParse_returns_iff : (∃ r, doParse stof input = some r) ↔
    ¬ BadNumber stof input ∧ ¬ BadValue stof input := by
  have hsplit : doParse stof input = none ↔ BadNumber stof input ∨ BadValue stof input := by
    rw [doParse_none_iff]
    constructor
    · rintro ⟨ts, bad, q, ho, hr, hnone | ⟨u, r, hu, hbad⟩⟩
      · exact .inl ⟨ts, q, ⟨bad, ho⟩, hr, hnone⟩
      · obtain ⟨hp, t, rfl, ht⟩ := balks_statementRule.1 ⟨bad, ho, hbad⟩
        exact .inr ⟨ts, t, q, r, hp, hr, hu, ht⟩
    · rintro (⟨ts, q, ⟨bad, ho⟩, hr, hnone⟩ | ⟨ts, t, q, r, hp, hr, hu, ht⟩)
      · exact ⟨ts, bad, q, ho, hr, .inl hnone⟩
      · obtain ⟨bad, ho, hbad⟩ := balks_statementRule.2 ⟨hp, t, rfl, ht⟩
        exact ⟨ts, bad, q, ho, hr, .inr ⟨_, r, hu, hbad⟩⟩
  rw [← not_or, ← hsplit, ← ne_eq, Option.ne_none_iff_exists']

/-- A `*` in the place of an operand. -/
theorem star_operand_aborts :
    ¬ ∃ r, doParse (fun _ => some 0) (str "SELECT a FROM t WHERE * = 1;") = some r := by
  have hnone : (doParse (fun _ => some 0) (str "SELECT a FROM t WHERE * = 1;")).isNone := by decide
  rw [Option.isNone_iff_eq_none.1 hnone]
  simp

end Tadis.Sql
