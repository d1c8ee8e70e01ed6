import Tadis.Grammar
import Tadis.ParserRules

/-!
# Sentences and the parser

The words of the rules of the parser, in terms of the grammar. The parser accepts every sentence of
`SELECT`, `INSERT`, `CREATE TABLE` and `DROP TABLE`. What else it accepts are the `SELECT`s whose
conditions it leaves without looking at the `;`, the `DELETE`s with two `;`, and a `DROP` that breaks
off.
-/

namespace Tadis.Sql

open Tadis.Parser Recognition

variable {α β : Type} {ts us : List Lexeme} {stop bad : Set Lexeme} {t : Token} {u : Lexeme}

theorem token_eq_iff (ht : t.hasValue = false) : u.token = t ↔ u = .sym t := by
  constructor
  · rintro rfl
    cases u <;> first | rfl | cases ht
  · rintro rfl
    rfl

theorem word_head_iff (ht : t.hasValue = false) {A : Rule Lexeme α} {a : α} :
    (Rule.token ∅ (fun u => if u.token = t then A else .fail)).word ts stop a ↔
      ∃ us, ts = .sym t :: us ∧ A.word us stop a := by
  constructor
  · rintro ⟨u, us, rfl, _, ha⟩
    dsimp only at ha
    split_ifs at ha with hu
    · exact ⟨us, by rw [(token_eq_iff ht).1 hu], ha⟩
    · exact ha.elim
  · rintro ⟨us, rfl, ha⟩
    exact ⟨.sym t, us, rfl, id, by simpa [Lexeme.token] using ha⟩

theorem ret_bind (a : α) (B : α → Rule Lexeme β) : (Rule.ret a).bind B = B a := by
  ext ws stop b
  · constructor
    · rintro ⟨_, us, _, s', _, rfl, ⟨rfl, rfl, rfl⟩, hb, _, rfl⟩
      simpa using hb
    · intro hb
      exact ⟨[], ws, ∅, stop, a, rfl, ⟨rfl, rfl, rfl⟩, hb, fun t _ _ => id, by simp⟩
  · constructor
    · rintro (h | ⟨_, us, _, _, b, rfl, ⟨rfl, rfl, rfl⟩, hb, _, rfl⟩)
      · exact h.elim
      · simpa using hb
    · intro hb
      exact .inr ⟨[], ws, ∅, a, stop, rfl, ⟨rfl, rfl, rfl⟩, hb, fun t _ _ => id, by simp⟩

theorem symRule_bind (t : Token) (B : Unit → Rule Lexeme β) : (symRule t).bind B =
    .token ∅ (fun u => if u.token = t then B () else .fail) := by
  rw [symRule, Rule.token_bind]
  congr 1
  funext u
  split_ifs
  · exact ret_bind () B
  · exact Rule.fail_bind

theorem word_sym_bind (ht : t.hasValue = false) {B : Unit → Rule Lexeme β} {b : β} :
    ((symRule t).bind B).word ts stop b ↔ ∃ us, ts = .sym t :: us ∧ (B ()).word us stop b := by
  rw [symRule_bind, word_head_iff ht]

theorem word_idRule {name : Bytes} :
    idRule.word ts stop name ↔ ts = [.id name] ∧ stop = ∅ := by
  constructor
  · rintro ⟨u, us, rfl, _, h⟩
    cases u with
    | id n =>
      obtain ⟨rfl, rfl, rfl⟩ := h
      exact ⟨rfl, rfl⟩
    | _ => exact h.elim
  · rintro ⟨rfl, rfl⟩
    exact ⟨.id name, [], rfl, id, rfl, rfl, rfl⟩

theorem word_id_bind {B : Bytes → Rule Lexeme β} {b : β} : (idRule.bind B).word ts stop b ↔
    ∃ name us, ts = .id name :: us ∧ (B name).word us stop b := by
  constructor
  · rintro ⟨_, us, s, s', name, rfl, ha, hb, _, rfl⟩
    obtain ⟨rfl, rfl⟩ := word_idRule.1 ha
    exact ⟨name, us, rfl, by simpa using hb⟩
  · rintro ⟨name, us, rfl, hb⟩
    exact ⟨[.id name], us, ∅, stop, name, rfl, word_idRule.2 ⟨rfl, rfl⟩, hb, fun _ _ _ => id,
      by simp⟩

/-- A word of `A`, then a word of `B` that starts with a token that does not continue the first. -/
theorem word_bind {A : Rule Lexeme α} {B : α → Rule Lexeme β} {a : α} {b : β} {s : Set Lexeme}
    (ha : A.word ts s a) (hb : (B a).word (u :: us) stop b) (hu : u ∉ s) :
    (A.bind B).word (ts ++ u :: us) stop b :=
  ⟨ts, u :: us, s, stop, a, rfl, ha, hb, admits_cons.2 hu, by simp⟩

/-- The rule `A` reads exactly the `P`, and only tokens in `S` continue them. -/
structure Describes (P : List Lexeme → α → Prop) (A : Rule Lexeme α) (S : Set Lexeme) : Prop where
  sound : ∀ {ts stop a}, A.word ts stop a → P ts a
  complete : ∀ {ts a}, P ts a → ∃ stop, stop ⊆ S ∧ A.word ts stop a

def dots : Set Lexeme := isToken .dotT

def dotsAndCommas : Set Lexeme := isToken .dotT ∪ isToken .commasT

theorem comma_notMem_dots : Lexeme.sym .commasT ∉ dots := by
  intro h
  cases h

theorem Describes.list {P : List Lexeme → α → Prop} {A : Rule Lexeme α} (h : Describes P A dots) :
    Describes (CommaList P) (listRule A) dotsAndCommas where
  sound hw := by
    induction hw with
    | one ha => exact .one (h.sound ha)
    | more ha hc _ _ ih =>
      obtain rfl := (token_eq_iff rfl).1 hc
      exact .more (h.sound ha) ih
  complete hp := by
    induction hp with
    | one ha =>
      obtain ⟨s, hs, hw⟩ := h.complete ha
      refine ⟨_, ?_, .one hw⟩
      rintro u (hu | hu)
      · exact .inl (hs hu)
      · exact .inr hu
    | more ha _ ih =>
      obtain ⟨s, hs, hw⟩ := h.complete ha
      obtain ⟨stop, hstop, hws⟩ := ih
      exact ⟨stop, hstop, .more hw rfl (fun hu => comma_notMem_dots (hs hu)) hws⟩

theorem describes_id : Describes IsId idRule dots where
  sound := by
    intro ts stop name h
    obtain ⟨rfl, rfl⟩ := word_idRule.1 h
    exact ⟨name⟩
  complete := by
    rintro ts name ⟨⟩
    exact ⟨∅, Set.empty_subset _, word_idRule.2 ⟨rfl, rfl⟩⟩

/-- The words behind an identifier that may be a qualifier. -/
theorem word_qualified {f : Bytes → α} {a b : α} :
    (Rule.choose (isToken .dotT) (fun _ => idRule.bind (fun attr => .ret (f attr))) (.ret a)).word
        ts stop b ↔
      (ts = [] ∧ stop = dots ∧ b = a) ∨
        ∃ attr, ts = [.sym .dotT, .id attr] ∧ stop = ∅ ∧ b = f attr := by
  constructor
  · rintro (⟨u, us, rfl, hu, h⟩ | ⟨s, ⟨rfl, rfl, rfl⟩, _, rfl⟩)
    · obtain ⟨attr, hid, rfl⟩ := Rule.word_bind_ret.1 h
      obtain ⟨rfl, rfl⟩ := word_idRule.1 hid
      obtain rfl := (token_eq_iff rfl).1 hu
      exact .inr ⟨attr, rfl, rfl, rfl⟩
    · refine .inl ⟨rfl, ?_, rfl⟩
      ext u
      simp [dots]
  · rintro (⟨rfl, rfl, rfl⟩ | ⟨attr, rfl, rfl, rfl⟩)
    · exact .inr ⟨∅, ⟨rfl, rfl, rfl⟩, .nil _, by simp [dots]⟩
    · exact .inl ⟨.sym .dotT, [.id attr], rfl, rfl,
        Rule.word_bind_ret.2 ⟨attr, word_idRule.2 ⟨rfl, rfl⟩, rfl⟩⟩

/-- What continues the words that start with an identifier or are a literal. -/
theorem word_attrRule {a : RelAttr} : attrRule.word ts stop a ↔
    (∃ name, ts = [.id name] ∧ stop = dots ∧ a = ⟨[], name⟩) ∨
      ∃ table name, ts = [.id table, .sym .dotT, .id name] ∧ stop = ∅ ∧ a = ⟨table, name⟩ := by
  constructor
  · rintro ⟨u, us, rfl, _, h⟩
    cases u with
    | id name =>
      rcases word_qualified.1 h with ⟨rfl, rfl, rfl⟩ | ⟨attr, rfl, rfl, rfl⟩
      · exact .inl ⟨name, rfl, rfl, rfl⟩
      · exact .inr ⟨name, attr, rfl, rfl, rfl⟩
    | _ => exact h.elim
  · rintro (⟨name, rfl, rfl, rfl⟩ | ⟨table, name, rfl, rfl, rfl⟩)
    · exact ⟨.id name, [], rfl, id, word_qualified.2 (.inl ⟨rfl, rfl, rfl⟩)⟩
    · exact ⟨.id table, _, rfl, id, word_qualified.2 (.inr ⟨name, rfl, rfl, rfl⟩)⟩

theorem describes_attr : Describes IsAttr attrRule dots where
  sound := by
    intro ts stop a h
    rcases word_attrRule.1 h with ⟨name, rfl, rfl, rfl⟩ | ⟨table, name, rfl, rfl, rfl⟩
    · exact .plain name
    · exact .qualified table name
  complete := by
    intro ts a h
    cases h with
    | plain name => exact ⟨dots, subset_rfl, word_attrRule.2 (.inl ⟨name, rfl, rfl, rfl⟩)⟩
    | qualified table name =>
      exact ⟨∅, Set.empty_subset _, word_attrRule.2 (.inr ⟨table, name, rfl, rfl, rfl⟩)⟩

theorem describes_selist : Describes IsSelist (attrsRule true) dotsAndCommas where
  sound := by
    intro ts stop as h
    by_cases hstar : ∃ us, ts = .sym .starT :: us
    · obtain ⟨us, rfl⟩ := hstar
      obtain ⟨u, us', hts, _, h⟩ := h
      cases hts
      obtain ⟨rfl, rfl, rfl⟩ := h
      exact .star
    · have hlist : (attrsRule false).word ts stop as := by
        obtain ⟨u, us, rfl, hu, h⟩ := h
        refine ⟨u, us, rfl, hu, ?_⟩
        cases u with
        | sym t => cases t <;> first | exact h | exact absurd ⟨us, rfl⟩ hstar
        | _ => exact h
      rw [attrsRule_false] at hlist
      exact .attrs (describes_attr.list.sound hlist)
  complete := by
    intro ts as h
    cases h with
    | star => exact ⟨∅, Set.empty_subset _, .sym .starT, [], rfl, id, rfl, rfl, rfl⟩
    | attrs h =>
      obtain ⟨stop, hstop, hw⟩ := describes_attr.list.complete h
      refine ⟨stop, hstop, ?_⟩
      rw [← attrsRule_false] at hw
      obtain ⟨u, us, rfl, hu, hw⟩ := hw
      refine ⟨u, us, rfl, hu, ?_⟩
      cases u with
      | sym t => cases t <;> first | exact hw | exact hw.elim
      | _ => exact hw

theorem word_valueRule {v : Value} : valueRule.word ts stop v ↔
    (∃ name, ts = [.id name] ∧ stop = dots ∧ v = .relAttr ⟨[], name⟩) ∨
      (∃ table name, ts = [.id table, .sym .dotT, .id name] ∧ stop = ∅ ∧
        v = .relAttr ⟨table, name⟩) ∨ (stop = ∅ ∧ IsLiteral ts v) := by
  constructor
  · rintro ⟨u, us, rfl, hu, h⟩
    cases u with
    | id name =>
      rcases word_qualified.1 h with ⟨rfl, rfl, rfl⟩ | ⟨attr, rfl, rfl, rfl⟩
      · exact .inl ⟨name, rfl, rfl, rfl⟩
      · exact .inr (.inl ⟨name, attr, rfl, rfl, rfl⟩)
    | sym t =>
      obtain rfl : t = .nullT := by_contra fun ht => hu ⟨t, rfl, ht⟩
      obtain ⟨rfl, rfl, rfl⟩ := h
      exact .inr (.inr ⟨rfl, .null⟩)
    | _ =>
      obtain ⟨rfl, rfl, rfl⟩ := h
      exact .inr (.inr ⟨rfl, by constructor⟩)
  · have hnot : ∀ u, (∀ t, u ≠ .sym t) → u ∉ notValue := by
      rintro u hu ⟨t, rfl, _⟩
      exact hu t rfl
    rintro (⟨name, rfl, rfl, rfl⟩ | ⟨table, name, rfl, rfl, rfl⟩ | ⟨rfl, h⟩)
    · exact ⟨.id name, [], rfl, hnot _ (by simp), word_qualified.2 (.inl ⟨rfl, rfl, rfl⟩)⟩
    · exact ⟨.id table, _, rfl, hnot _ (by simp), word_qualified.2 (.inr ⟨name, rfl, rfl, rfl⟩)⟩
    · cases h with
      | null =>
        refine ⟨.sym .nullT, [], rfl, ?_, rfl, rfl, rfl⟩
        rintro ⟨t, ht, hne⟩
        cases ht
        exact hne rfl
      | _ => exact ⟨_, [], rfl, hnot _ (by simp), rfl, rfl, rfl⟩

theorem isOp_iff {o : Token} {op : CondOp} : IsOp o op ↔ token2op o ≠ .undefined ∧ op = token2op o := by
  constructor
  · rintro (_ | _) <;> exact ⟨by decide, rfl⟩
  · rintro ⟨h, rfl⟩
    cases o <;> first | exact absurd rfl h | constructor

theorem word_opRule {op : CondOp} :
    opRule.word ts stop op ↔ stop = ∅ ∧ ∃ o, ts = [.sym o] ∧ IsOp o op := by
  constructor
  · rintro ⟨u, us, rfl, _, h⟩
    dsimp only at h
    split_ifs at h with hop
    · exact h.elim
    · obtain ⟨rfl, rfl, rfl⟩ := h
      cases u with
      | sym o => exact ⟨rfl, o, rfl, isOp_iff.2 ⟨hop, rfl⟩⟩
      | _ => exact absurd rfl hop
  · rintro ⟨rfl, o, rfl, h⟩
    obtain ⟨hop, rfl⟩ := isOp_iff.1 h
    refine ⟨.sym o, [], rfl, id, ?_⟩
    change (if token2op o = .undefined then Rule.fail else .ret (token2op o)).word [] ∅ _
    rw [if_neg hop]
    exact ⟨rfl, rfl, rfl⟩

theorem word_condRule {c : Condition} : condRule.word ts stop c ↔
    ∃ ls s l o op rs r, ts = ls ++ .sym o :: rs ∧ valueRule.word ls s l ∧ IsOp o op ∧
      valueRule.word rs stop r ∧ c = ⟨l, r, op⟩ := by
  constructor
  · rintro ⟨ls, _, s, _, l, rfl, hl, ⟨os, rs, _, s', op, rfl, ho, hr, _, rfl⟩, _, rfl⟩
    obtain ⟨r, hright, rfl⟩ := Rule.word_bind_ret.1 hr
    obtain ⟨rfl, o, rfl, hop⟩ := word_opRule.1 ho
    exact ⟨ls, s, l, o, op, rs, r, rfl, hl, hop, by simpa using hright, rfl⟩
  · rintro ⟨ls, s, l, o, op, rs, r, rfl, hl, ho, hr, rfl⟩
    have hs : Lexeme.sym o ∉ s := by
      rcases word_valueRule.1 hl with ⟨_, _, rfl, _⟩ | ⟨_, _, _, rfl, _⟩ | ⟨rfl, _⟩
      · intro hdot
        obtain rfl : o = .dotT := hdot
        cases ho
      · exact id
      · exact id
    refine word_bind hl ⟨[.sym o], rs, ∅, stop, op, rfl, word_opRule.2 ⟨rfl, o, rfl, ho⟩,
      Rule.word_bind_ret.2 ⟨r, hr, rfl⟩, fun _ _ _ => id, by simp⟩ hs

theorem operand_of_word {v : Value} (h : valueRule.word ts stop v) : IsOperand ts v := by
  rcases word_valueRule.1 h with ⟨name, rfl, _, rfl⟩ | ⟨table, name, rfl, _, rfl⟩ | ⟨_, h⟩
  · exact .attr (.plain name)
  · exact .attr (.qualified table name)
  · exact .literal h

theorem word_of_operand {v : Value} (h : IsOperand ts v) :
    ∃ stop, stop ⊆ dots ∧ valueRule.word ts stop v := by
  cases h with
  | attr h =>
    cases h with
    | plain name => exact ⟨dots, subset_rfl, word_valueRule.2 (.inl ⟨name, rfl, rfl, rfl⟩)⟩
    | qualified table name =>
      exact ⟨∅, Set.empty_subset _, word_valueRule.2 (.inr (.inl ⟨table, name, rfl, rfl, rfl⟩))⟩
  | literal h => exact ⟨∅, Set.empty_subset _, word_valueRule.2 (.inr (.inr ⟨rfl, h⟩))⟩

theorem describes_cond : Describes IsCond condRule dots where
  sound := by
    intro ts stop c h
    obtain ⟨ls, s, l, o, op, rs, r, rfl, hl, ho, hr, rfl⟩ := word_condRule.1 h
    exact ⟨operand_of_word hl, ho, operand_of_word hr⟩
  complete := by
    rintro _ _ ⟨hl, ho, hr⟩
    obtain ⟨s, _, hl⟩ := word_of_operand hl
    obtain ⟨stop, hstop, hr⟩ := word_of_operand hr
    exact ⟨stop, hstop, word_condRule.2 ⟨_, s, _, _, _, _, _, rfl, hl, ho, hr, rfl⟩⟩

/-- The last lexeme is an attribute without a qualifier. -/
def EndsPlain (ts : List Lexeme) : Prop :=
  ∃ name u rest, ts.reverse = .id name :: u :: rest ∧ u ≠ .sym .dotT

theorem endsPlain_append {pre : List Lexeme} (h : 2 ≤ ts.length) :
    EndsPlain (pre ++ ts) ↔ EndsPlain ts := by
  unfold EndsPlain
  rw [List.reverse_append]
  rw [← List.length_reverse] at h
  obtain ⟨a, b, rest, hr⟩ : ∃ a b rest, ts.reverse = a :: b :: rest := by
    match ts.reverse, h with
    | a :: b :: rest, _ => exact ⟨a, b, rest, rfl⟩
  rw [hr]
  simp

/-- The tokens that continue a list of conditions. -/
def continuing (ts : List Lexeme) : Set Lexeme :=
  {u | (u = .sym .dotT ∧ EndsPlain ts) ∨ u = .sym .commasT}

theorem length_valueRule {v : Value} (h : valueRule.word ts stop v) : 1 ≤ ts.length := by
  obtain ⟨u, us, rfl, _⟩ := h
  simp

theorem stop_condRule {c : Condition} (h : condRule.word ts stop c) :
    stop = {u | u = .sym .dotT ∧ EndsPlain ts} ∧ 2 ≤ ts.length := by
  obtain ⟨ls, s, l, o, op, rs, r, rfl, hl, ho, hr, rfl⟩ := word_condRule.1 h
  have hodot : o ≠ .dotT := by
    rintro rfl
    cases ho
  have hdots : dots = {u | u = .sym .dotT} := Set.ext fun u => token_eq_iff rfl
  have hlen : 2 ≤ (ls ++ .sym o :: rs).length := by
    have := length_valueRule hl
    simp
    omega
  refine ⟨?_, hlen⟩
  rcases word_valueRule.1 hr with ⟨name, rfl, rfl, rfl⟩ | ⟨table, name, rfl, rfl, rfl⟩ | ⟨rfl, hlit⟩
  · simp [EndsPlain, hdots, hodot]
  · simp [EndsPlain]
  · cases hlit <;> simp [EndsPlain]

theorem stop_condList {conds : List Condition} (h : (listRule condRule).word ts stop conds) :
    stop = continuing ts ∧ 2 ≤ ts.length := by
  induction h with
  | one h =>
    obtain ⟨rfl, hlen⟩ := stop_condRule h
    refine ⟨?_, hlen⟩
    ext u
    rw [continuing, Set.mem_ofPred_eq, Set.mem_ofPred_eq, isToken, Set.mem_ofPred_eq,
      token_eq_iff (t := .commasT) rfl, Set.mem_ofPred_eq]
  | @more ts s c sep us stop conds h hc hs _ ih =>
    obtain ⟨rfl, hlen⟩ := ih
    have hsplit : ts ++ sep :: us = (ts ++ [sep]) ++ us := by simp
    refine ⟨?_, by simp; omega⟩
    rw [hsplit, continuing, continuing]
    simp only [endsPlain_append hlen]

theorem word_fromRule {tables : List Bytes} : fromRule.word ts stop tables ↔
    ∃ us, ts = .sym .fromT :: us ∧ (listRule idRule).word us stop tables := word_head_iff rfl

theorem word_condsRule {conds : List Condition} : condsRule.word ts stop conds ↔
    (∃ us, ts = .sym .whereT :: us ∧ (listRule condRule).word us stop conds) ∨
      (ts = [.sym .colonT] ∧ stop = ∅ ∧ conds = []) := by
  constructor
  · rintro ⟨u, us, rfl, _, h⟩
    dsimp only at h
    split_ifs at h with hw hc
    · exact .inl ⟨us, by rw [(token_eq_iff rfl).1 hw], h⟩
    · obtain ⟨rfl, rfl, rfl⟩ := h
      exact .inr ⟨by rw [(token_eq_iff rfl).1 hc], rfl, rfl⟩
    · exact h.elim
  · rintro (⟨us, rfl, h⟩ | ⟨rfl, rfl, rfl⟩)
    · exact ⟨.sym .whereT, us, rfl, id, h⟩
    · exact ⟨.sym .colonT, [], rfl, id, rfl, rfl, rfl⟩

theorem sym_notMem (hdot : t ≠ .dotT) (hcomma : t ≠ .commasT)
    {s : Set Lexeme} (hs : s ⊆ dotsAndCommas) : Lexeme.sym t ∉ s := by
  intro h
  rcases hs h with h | h
  · exact hdot h
  · exact hcomma h

/-- `SELECT` conditions that are not followed by a token that would continue them. The `;` is not
read. -/
def LeftOpen (ts : List Lexeme) : Prop :=
  ∃ ss sel fs tables cs conds, IsSelist ss sel ∧ CommaList IsId fs tables ∧ CommaList IsCond cs conds ∧
    ts = .sym .selectT :: ss ++ .sym .fromT :: fs ++ .sym .whereT :: cs

theorem word_select {ss fs cs : List Lexeme} {s s' : Set Lexeme} {sel : List RelAttr}
    {tables : List Bytes} {conds : List Condition} (hdot : t ≠ .dotT) (hcomma : t ≠ .commasT)
    (hs : (attrsRule true).word ss s sel) (hss : s ⊆ dotsAndCommas)
    (hf : (listRule idRule).word fs s' tables) (hfs : s' ⊆ dotsAndCommas)
    (hc : condsRule.word (.sym t :: cs) stop conds) :
    selectRule.word (.sym .selectT :: ss ++ .sym .fromT :: fs ++ .sym t :: cs) stop
      (.select ⟨sel, tables, conds⟩) := by
  rw [List.append_assoc, List.cons_append]
  refine (word_head_iff rfl).2 ⟨_, rfl, ?_⟩
  refine word_bind hs ?_ (sym_notMem (by decide) (by decide) hss)
  exact word_bind (word_fromRule.2 ⟨fs, rfl, hf⟩) (Rule.word_bind_ret.2 ⟨conds, hc, rfl⟩)
    (sym_notMem hdot hcomma hfs)

theorem select_sound {stmt : QueryStmt} (h : selectRule.word ts stop stmt) :
    (stop = ∅ ∧ Sentence ts stmt) ∨ (LeftOpen ts ∧ stop = continuing ts ∧ stmt.type = .select) := by
  obtain ⟨_, rfl, hw⟩ := (word_head_iff rfl).1 h
  obtain ⟨ss, _, _, _, sel, rfl, hsel, ⟨_, us, _, _, tables, rfl, hfrom, hrest, _, rfl⟩, _, rfl⟩ := hw
  obtain ⟨fs, rfl, htables⟩ := word_fromRule.1 hfrom
  obtain ⟨conds, hconds, rfl⟩ := Rule.word_bind_ret.1 hrest
  have hs := describes_selist.sound hsel
  have hf := describes_id.list.sound htables
  rcases word_condsRule.1 hconds with ⟨cs, rfl, hc⟩ | ⟨rfl, rfl, rfl⟩
  · obtain ⟨rfl, hlen⟩ := stop_condList hc
    refine .inr ⟨⟨ss, sel, fs, tables, cs, conds, hs, hf, describes_cond.list.sound hc, by simp⟩,
      ?_, rfl⟩
    have hsplit : Lexeme.sym .selectT :: (ss ++ (.sym .fromT :: fs ++ .sym .whereT :: cs)) =
        (.sym .selectT :: ss ++ .sym .fromT :: fs ++ [.sym .whereT]) ++ cs := by simp
    rw [hsplit, continuing, continuing]
    simp only [endsPlain_append hlen]
    simp
  · refine .inl ⟨by simp, ?_⟩
    simpa using Sentence.select hs hf

theorem select_complete {ss fs : List Lexeme} {sel : List RelAttr} {tables : List Bytes}
    (hs : IsSelist ss sel) (hf : CommaList IsId fs tables) :
    selectRule.word (.sym .selectT :: ss ++ .sym .fromT :: fs ++ [.sym .colonT]) ∅
      (.select ⟨sel, tables, []⟩) := by
  obtain ⟨s, hss, hs⟩ := describes_selist.complete hs
  obtain ⟨s', hfs, hf⟩ := describes_id.list.complete hf
  exact word_select (by decide) (by decide) hs hss hf hfs (word_condsRule.2 (.inr ⟨rfl, rfl, rfl⟩))

theorem selectWhere_complete {ss fs cs : List Lexeme} {sel : List RelAttr} {tables : List Bytes}
    {conds : List Condition} (hs : IsSelist ss sel) (hf : CommaList IsId fs tables)
    (hc : CommaList IsCond cs conds) :
    selectRule.word (.sym .selectT :: ss ++ .sym .fromT :: fs ++ .sym .whereT :: cs)
      (continuing (.sym .selectT :: ss ++ .sym .fromT :: fs ++ .sym .whereT :: cs))
      (.select ⟨sel, tables, conds⟩) := by
  obtain ⟨s, hss, hs⟩ := describes_selist.complete hs
  obtain ⟨s', hfs, hf⟩ := describes_id.list.complete hf
  obtain ⟨stop, _, hc⟩ := describes_cond.list.complete hc
  have hw := word_select (by decide) (by decide) hs hss hf hfs
    (word_condsRule.2 (.inl ⟨cs, rfl, hc⟩))
  have hcomma : Lexeme.sym .commasT ∈ stop := by
    rw [(stop_condList hc).1]
    exact .inr rfl
  rcases select_sound hw with ⟨rfl, _⟩ | ⟨_, rfl, _⟩
  · exact hcomma.elim
  · exact hw

theorem word_literalRule {v : Value} : literalRule.word ts stop v ↔ stop = ∅ ∧ IsLiteral ts v := by
  constructor
  · rintro ⟨vs, us, s, s', w, rfl, hw, hret, _, rfl⟩
    dsimp only at hret
    split_ifs at hret with hattr
    · exact hret.elim
    · obtain ⟨rfl, rfl, rfl⟩ := hret
      rcases word_valueRule.1 hw with ⟨name, rfl, _, rfl⟩ | ⟨table, name, rfl, _, rfl⟩ | ⟨rfl, h⟩
      · exact absurd (.inl rfl) hattr
      · exact absurd (.inl rfl) hattr
      · exact ⟨by simp, by simpa using h⟩
  · rintro ⟨rfl, h⟩
    refine ⟨ts, [], ∅, ∅, v, by simp, word_valueRule.2 (.inr (.inr ⟨rfl, h⟩)), ?_, .nil _, by simp⟩
    have hattr : ¬ (v.attrType = .relAttr ∨ v.attrType = .undefined) := by
      cases h <;> simp [Value.attrType]
    dsimp only
    rw [if_neg hattr]
    exact ⟨rfl, rfl, rfl⟩

theorem describes_literal : Describes IsLiteral literalRule dots where
  sound h := (word_literalRule.1 h).2
  complete h := ⟨∅, Set.empty_subset _, word_literalRule.2 ⟨rfl, h⟩⟩

/-- A list in brackets, as far as the closing bracket. -/
theorem word_list_bind {P : List Lexeme → α → Prop} {A : Rule Lexeme α} (h : Describes P A dots)
    {B : List α → Rule Lexeme β} {b : β} (hdot : t ≠ .dotT) (hcomma : t ≠ .commasT)
    (hB : ∀ as us s b, (B as).word us s b → ∃ us', us = .sym t :: us') :
    ((listRule A).bind B).word ts stop b ↔
      ∃ ls as us, ts = ls ++ us ∧ CommaList P ls as ∧ (B as).word us stop b := by
  constructor
  · rintro ⟨ls, us, _, _, as, rfl, hl, hb, _, rfl⟩
    obtain ⟨us', rfl⟩ := hB _ _ _ _ hb
    exact ⟨ls, as, _, rfl, h.list.sound hl, by simpa using hb⟩
  · rintro ⟨ls, as, us, rfl, hl, hb⟩
    obtain ⟨us', rfl⟩ := hB _ _ _ _ hb
    obtain ⟨s, hs, hw⟩ := h.list.complete hl
    exact word_bind hw hb (sym_notMem hdot hcomma hs)

theorem word_two_syms {t' : Token} (ht : t.hasValue = false) (ht' : t'.hasValue = false) {a b : α} :
    ((symRule t).bind (fun _ => (symRule t').bind (fun _ => .ret a))).word ts stop b ↔
      ts = [.sym t, .sym t'] ∧ stop = ∅ ∧ b = a := by
  rw [word_sym_bind ht]
  constructor
  · rintro ⟨us, rfl, h⟩
    obtain ⟨us', rfl, rfl, rfl, rfl⟩ := (word_sym_bind ht').1 h
    exact ⟨rfl, rfl, rfl⟩
  · rintro ⟨rfl, rfl, rfl⟩
    exact ⟨_, rfl, (word_sym_bind ht').2 ⟨[], rfl, rfl, rfl, rfl⟩⟩

/-- A list in brackets, with the closing bracket and the token behind it. -/
theorem word_bracketed {t' : Token} {P : List Lexeme → α → Prop} {A : Rule Lexeme α}
    (h : Describes P A dots) (ht : t.hasValue = false) (ht' : t'.hasValue = false)
    (hdot : t ≠ .dotT) (hcomma : t ≠ .commasT) {f : List α → β} {b : β} :
    ((listRule A).bind (fun as => (symRule t).bind (fun _ => (symRule t').bind
        (fun _ => .ret (f as))))).word ts stop b ↔
      stop = ∅ ∧ ∃ ls as, ts = ls ++ [.sym t, .sym t'] ∧ CommaList P ls as ∧ b = f as := by
  rw [word_list_bind h hdot hcomma]
  · constructor
    · rintro ⟨ls, as, us, rfl, hl, hb⟩
      obtain ⟨rfl, rfl, rfl⟩ := (word_two_syms ht ht').1 hb
      exact ⟨rfl, ls, as, rfl, hl, rfl⟩
    · rintro ⟨rfl, ls, as, rfl, hl, rfl⟩
      exact ⟨ls, as, _, rfl, hl, (word_two_syms ht ht').2 ⟨rfl, rfl, rfl⟩⟩
  · intro as us s b hb
    obtain ⟨rfl, _, _⟩ := (word_two_syms ht ht').1 hb
    exact ⟨_, rfl⟩

theorem word_insertColsRule {cols : List Bytes} : insertColsRule.word ts stop cols ↔
    stop = ∅ ∧ ∃ cs, ts = cs ++ [.sym .valuesT] ∧ IsCols cs cols := by
  constructor
  · rintro ⟨u, us, rfl, _, h⟩
    dsimp only at h
    split_ifs at h with hl hv
    · obtain ⟨rfl, ls, as, rfl, has, rfl⟩ :=
        (word_bracketed describes_id (f := id) rfl rfl (by decide) (by decide)).1 h
      refine ⟨rfl, .sym .lbraceT :: ls ++ [.sym .rbraceT], ?_, .some has⟩
      rw [(token_eq_iff rfl).1 hl]
      simp
    · obtain ⟨rfl, rfl, rfl⟩ := h
      exact ⟨rfl, [], by rw [(token_eq_iff rfl).1 hv]; rfl, .none⟩
    · exact h.elim
  · rintro ⟨rfl, cs, rfl, h⟩
    cases h with
    | none => exact ⟨.sym .valuesT, [], rfl, id, rfl, rfl, rfl⟩
    | @some ls cols h =>
      refine ⟨.sym .lbraceT, ls ++ [.sym .rbraceT, .sym .valuesT], by simp, id, ?_⟩
      exact (word_bracketed describes_id (f := id) rfl rfl (by decide) (by decide)).2
        ⟨rfl, ls, cols, rfl, h, rfl⟩

theorem word_insertRule {stmt : QueryStmt} : insertRule.word ts stop stmt ↔
    stop = ∅ ∧ ∃ table cs cols vs values, IsCols cs cols ∧ CommaList IsLiteral vs values ∧
      stmt = .insert ⟨table, cols, values⟩ ∧
      ts = .sym .insertT :: .sym .intoT :: .id table :: cs ++ .sym .valuesT :: .sym .lbraceT ::
        vs ++ [.sym .rbraceT, .sym .colonT] := by
  have hvalues : ∀ table cols, ∀ {us s st}, ((listRule literalRule).bind (fun values =>
      (symRule .rbraceT).bind (fun _ => (symRule .colonT).bind (fun _ =>
        .ret (QueryStmt.insert ⟨table, cols, values⟩))))).word us s st ↔ _ :=
    fun table cols {_ _ _} => word_bracketed describes_literal
      (f := fun values => QueryStmt.insert ⟨table, cols, values⟩) rfl rfl (by decide) (by decide)
  constructor
  · intro h
    obtain ⟨_, rfl, h1⟩ := (word_sym_bind rfl).1 h
    obtain ⟨_, rfl, h2⟩ := (word_sym_bind rfl).1 h1
    obtain ⟨table, _, rfl, h3⟩ := word_id_bind.1 h2
    obtain ⟨_, _, _, _, cols, rfl, hcols, h4, _, rfl⟩ := h3
    obtain ⟨rfl, cs, rfl, hcs⟩ := word_insertColsRule.1 hcols
    obtain ⟨_, rfl, h5⟩ := (word_sym_bind rfl).1 h4
    obtain ⟨rfl, vs, values, rfl, hvs, rfl⟩ := (hvalues table cols).1 h5
    exact ⟨by simp, table, cs, cols, vs, values, hcs, hvs, rfl, by simp⟩
  · rintro ⟨rfl, table, cs, cols, vs, values, hcs, hvs, rfl, rfl⟩
    simp only [List.cons_append, List.append_assoc]
    rw [List.append_cons cs]
    refine (word_sym_bind rfl).2 ⟨_, rfl, ?_⟩
    refine (word_sym_bind rfl).2 ⟨_, rfl, ?_⟩
    refine word_id_bind.2 ⟨table, _, rfl, ?_⟩
    refine word_bind (word_insertColsRule.2 ⟨rfl, cs, rfl, hcs⟩) ?_ id
    exact (word_sym_bind rfl).2 ⟨_, rfl, (hvalues table cols).2 ⟨rfl, vs, values, rfl, hvs, rfl⟩⟩

theorem word_sizeRule {k : ℕ} : sizeRule.word ts stop k ↔ stop = ∅ ∧
    ∃ n, ts = [.sym .lbraceT, .integer n, .sym .rbraceT] ∧ k = longToSize n := by
  constructor
  · intro h
    obtain ⟨_, rfl, u, us, rfl, _, hu⟩ := (word_sym_bind rfl).1 h
    cases u with
    | integer n =>
      obtain ⟨_, rfl, rfl, rfl, rfl⟩ := (word_sym_bind rfl).1 hu
      exact ⟨rfl, n, rfl, rfl⟩
    | _ => exact hu.elim
  · rintro ⟨rfl, n, rfl, rfl⟩
    exact (word_sym_bind rfl).2 ⟨_, rfl, .integer n, _, rfl, id,
      (word_sym_bind rfl).2 ⟨[], rfl, rfl, rfl, rfl⟩⟩

theorem word_colDataTypeRule {type : Bytes × ℕ} :
    colDataTypeRule.word ts stop type ↔ stop = ∅ ∧ IsType ts type := by
  constructor
  · rintro ⟨u, us, rfl, _, h⟩
    cases u with
    | sym t =>
      cases t
      case sIntT =>
        obtain ⟨rfl, rfl, rfl⟩ := h
        exact ⟨rfl, .int⟩
      case sFloatT =>
        obtain ⟨rfl, rfl, rfl⟩ := h
        exact ⟨rfl, .float⟩
      case sCharT =>
        obtain ⟨k, hk, rfl⟩ := Rule.word_bind_ret.1 h
        obtain ⟨rfl, n, rfl, rfl⟩ := word_sizeRule.1 hk
        exact ⟨rfl, .char n⟩
      case sVarcharT =>
        obtain ⟨k, hk, rfl⟩ := Rule.word_bind_ret.1 h
        obtain ⟨rfl, n, rfl, rfl⟩ := word_sizeRule.1 hk
        exact ⟨rfl, .varchar n⟩
      all_goals exact h.elim
    | _ => exact h.elim
  · rintro ⟨rfl, h⟩
    cases h with
    | int => exact ⟨.sym .sIntT, [], rfl, id, rfl, rfl, rfl⟩
    | float => exact ⟨.sym .sFloatT, [], rfl, id, rfl, rfl, rfl⟩
    | char n =>
      exact ⟨.sym .sCharT, _, rfl, id, Rule.word_bind_ret.2 ⟨_, word_sizeRule.2 ⟨rfl, n, rfl, rfl⟩, rfl⟩⟩
    | varchar n =>
      exact ⟨.sym .sVarcharT, _, rfl, id,
        Rule.word_bind_ret.2 ⟨_, word_sizeRule.2 ⟨rfl, n, rfl, rfl⟩, rfl⟩⟩

theorem describes_colAttr : Describes IsColAttr colAttrRule dots where
  sound h := by
    obtain ⟨name, us, rfl, hb⟩ := word_id_bind.1 h
    obtain ⟨type, htype, rfl⟩ := Rule.word_bind_ret.1 hb
    exact .mk name (word_colDataTypeRule.1 htype).2
  complete := by
    rintro _ _ ⟨name, h⟩
    exact ⟨∅, Set.empty_subset _, word_id_bind.2 ⟨name, _, rfl, Rule.word_bind_ret.2
      ⟨_, word_colDataTypeRule.2 ⟨rfl, h⟩, rfl⟩⟩⟩

theorem word_createRule {stmt : QueryStmt} : createRule.word ts stop stmt ↔
    stop = ∅ ∧ ∃ table cs cols, CommaList IsColAttr cs cols ∧ stmt = .createTable ⟨cols, table⟩ ∧
      ts = .sym .createT :: .sym .tableT :: .id table :: .sym .lbraceT :: cs ++
        [.sym .rbraceT, .sym .colonT] := by
  have hcols : ∀ table, ∀ {us s st}, ((listRule colAttrRule).bind (fun cols =>
      (symRule .rbraceT).bind (fun _ => (symRule .colonT).bind (fun _ =>
        .ret (QueryStmt.createTable ⟨cols, table⟩))))).word us s st ↔ _ :=
    fun table {_ _ _} => word_bracketed describes_colAttr
      (f := fun cols => QueryStmt.createTable ⟨cols, table⟩) rfl rfl (by decide) (by decide)
  constructor
  · intro h
    obtain ⟨_, rfl, u, us, rfl, hu⟩ := (word_sym_bind rfl).1 h
    dsimp only at hu
    split_ifs at hu with htable
    · obtain ⟨_, he, h1⟩ := (word_sym_bind rfl).1 hu
      cases he
      obtain ⟨table, _, rfl, h2⟩ := word_id_bind.1 h1
      obtain ⟨_, rfl, h3⟩ := (word_sym_bind rfl).1 h2
      obtain ⟨rfl, cs, cols, rfl, hcs, rfl⟩ := (hcols table).1 h3
      exact ⟨rfl, table, cs, cols, hcs, rfl, by simp⟩
    · exact hu.elim
  · rintro ⟨rfl, table, cs, cols, hcs, rfl, rfl⟩
    refine (word_sym_bind rfl).2 ⟨_, rfl, .sym .tableT, _, rfl, ?_⟩
    change createTableRule.word _ _ _
    exact (word_sym_bind rfl).2 ⟨_, rfl, word_id_bind.2 ⟨table, _, rfl,
      (word_sym_bind rfl).2 ⟨_, rfl, (hcols table).2 ⟨rfl, cs, cols, rfl, hcs, rfl⟩⟩⟩⟩

/-- A `DROP` that breaks off with `SUCCESS` at a token it does not expect. -/
inductive BreaksOff : List Lexeme → Prop
  | table (v : Lexeme) (h : v ≠ .sym .tableT) : BreaksOff [.sym .dropT, v]
  | name (v : Lexeme) (h : ∀ name, v ≠ .id name) : BreaksOff [.sym .dropT, .sym .tableT, v]

theorem dropRule_head : dropRule.word (.sym .dropT :: ts) stop = (Rule.token ∅ (fun u =>
    if u.token ≠ .tableT then .ret (.select {}) else
      .token ∅ (fun
        | .id table => .token ∅ (fun u =>
          if u.token = .colonT then .ret (.drop ⟨table⟩) else .fail)
        | _ => .ret (.select {})))).word ts stop := by
  ext stmt
  constructor
  · rintro ⟨_, _, he, _, h⟩
    cases he
    exact h
  · exact fun h => ⟨.sym .dropT, ts, rfl, id, h⟩

theorem word_dropRule {stmt : QueryStmt} : dropRule.word (.sym .dropT :: ts) stop stmt ↔
    stop = ∅ ∧ ((BreaksOff (.sym .dropT :: ts) ∧ stmt = .select {}) ∨
      ∃ table, ts = [.sym .tableT, .id table, .sym .colonT] ∧ stmt = .drop ⟨table⟩) := by
  rw [dropRule_head]
  constructor
  · rintro ⟨u, us, rfl, _, h⟩
    by_cases hu : u = .sym .tableT
    · subst hu
      obtain ⟨v, vs, rfl, _, h⟩ := h
      cases v with
      | id table =>
        obtain ⟨_, rfl, rfl, rfl, rfl⟩ := (word_head_iff rfl).1 h
        exact ⟨rfl, .inr ⟨table, rfl, rfl⟩⟩
      | _ =>
        obtain ⟨rfl, rfl, rfl⟩ := h
        exact ⟨rfl, .inl ⟨.name _ (by simp), rfl⟩⟩
    · dsimp only at h
      rw [if_pos (fun ht => hu ((token_eq_iff rfl).1 ht))] at h
      obtain ⟨rfl, rfl, rfl⟩ := h
      exact ⟨rfl, .inl ⟨.table u hu, rfl⟩⟩
  · rintro ⟨rfl, ⟨h, rfl⟩ | ⟨table, rfl, rfl⟩⟩
    · cases h with
      | table v hv =>
        refine ⟨v, [], rfl, id, ?_⟩
        dsimp only
        rw [if_pos (fun ht => hv ((token_eq_iff rfl).1 ht))]
        exact ⟨rfl, rfl, rfl⟩
      | name v hv =>
        refine ⟨.sym .tableT, [v], rfl, id, v, [], rfl, id, ?_⟩
        cases v with
        | id name => exact absurd rfl (hv name)
        | _ => exact ⟨rfl, rfl, rfl⟩
    · exact ⟨.sym .tableT, _, rfl, id, .id table, _, rfl, id, (word_head_iff rfl).2
        ⟨[], rfl, rfl, rfl, rfl⟩⟩

/-- A `DELETE` without conditions takes two `;`. -/
def TwoColons (ts : List Lexeme) : Prop :=
  ∃ star fs tables, (star = [] ∨ star = [.sym .starT]) ∧ CommaList IsId fs tables ∧
    ts = .sym .deleteT :: star ++ .sym .fromT :: fs ++ [.sym .colonT, .sym .colonT]

theorem word_deleteTailRule (tables : List Bytes) {stmt : QueryStmt} :
    (deleteTailRule tables).word ts stop stmt ↔ stop = ∅ ∧
      ((ts = [.sym .colonT, .sym .colonT] ∧ stmt = .delete ⟨tables, []⟩) ∨
        ∃ cs conds, CommaList IsCond cs conds ∧ ts = .sym .whereT :: cs ++ [.sym .colonT] ∧
          stmt = .delete ⟨tables, conds⟩) := by
  constructor
  · rintro ⟨_, _, _, _, conds, rfl, hc, hb, _, rfl⟩
    obtain ⟨_, rfl, rfl, rfl, rfl⟩ := (word_sym_bind rfl).1 hb
    rcases word_condsRule.1 hc with ⟨cs, rfl, hl⟩ | ⟨rfl, rfl, rfl⟩
    · exact ⟨by simp, .inr ⟨cs, conds, describes_cond.list.sound hl, rfl, rfl⟩⟩
    · exact ⟨by simp, .inl ⟨rfl, rfl⟩⟩
  · rintro ⟨rfl, ⟨rfl, rfl⟩ | ⟨cs, conds, hl, rfl, rfl⟩⟩
    · exact word_bind (word_condsRule.2 (.inr ⟨rfl, rfl, rfl⟩))
        ((word_sym_bind rfl).2 ⟨[], rfl, rfl, rfl, rfl⟩) id
    · obtain ⟨s, hs, hw⟩ := describes_cond.list.complete hl
      exact word_bind (word_condsRule.2 (.inl ⟨cs, rfl, hw⟩))
        ((word_sym_bind rfl).2 ⟨[], rfl, rfl, rfl, rfl⟩) (sym_notMem (by decide) (by decide) hs)

theorem word_starRule {star : Bool} : starRule.word ts stop star ↔
    (ts = [.sym .starT] ∧ stop = ∅ ∧ star = true) ∨
      (ts = [] ∧ stop = isToken .starT ∧ star = false) := by
  constructor
  · rintro (⟨u, us, rfl, hu, rfl, rfl, rfl⟩ | ⟨s, ⟨rfl, rfl, rfl⟩, _, rfl⟩)
    · exact .inl ⟨by rw [(token_eq_iff rfl).1 hu], rfl, rfl⟩
    · exact .inr ⟨rfl, by ext u; simp, rfl⟩
  · rintro (⟨rfl, rfl, rfl⟩ | ⟨rfl, rfl, rfl⟩)
    · exact .inl ⟨.sym .starT, [], rfl, rfl, rfl, rfl, rfl⟩
    · exact .inr ⟨∅, ⟨rfl, rfl, rfl⟩, .nil _, by simp⟩

theorem from_notMem_star {star : Bool} (h : starRule.word ts stop star) :
    Lexeme.sym .fromT ∉ stop := by
  rcases word_starRule.1 h with ⟨_, rfl, _⟩ | ⟨_, rfl, _⟩
  · exact id
  · intro hin
    cases hin

theorem head_deleteTailRule {tables : List Bytes} {stmt : QueryStmt}
    (h : (deleteTailRule tables).word ts stop stmt) :
    ∃ t us, ts = .sym t :: us ∧ t ≠ .dotT ∧ t ≠ .commasT := by
  rcases ((word_deleteTailRule tables).1 h).2 with ⟨rfl, _⟩ | ⟨cs, conds, _, rfl, _⟩
  · exact ⟨_, _, rfl, by decide, by decide⟩
  · exact ⟨_, _, rfl, by decide, by decide⟩

theorem delete_sound {stmt : QueryStmt} (h : deleteRule.word ts stop stmt) :
    stop = ∅ ∧ (TwoColons ts ∧ stmt.type = .delete ∨ Sentence ts stmt) := by
  obtain ⟨_, rfl, h1⟩ := (word_sym_bind rfl).1 h
  obtain ⟨ss, _, _, _, star, rfl, hstar, ⟨_, _, _, _, tables, rfl, hf, hd, _, rfl⟩, _, rfl⟩ := h1
  obtain ⟨fs, rfl, hl⟩ := word_fromRule.1 hf
  have hl := describes_id.list.sound hl
  obtain ⟨u, us, rfl, hd⟩ := hd
  dsimp only at hd
  split_ifs at hd with hwhere
  · exact hd.elim
  · obtain ⟨rfl, htail⟩ := (word_deleteTailRule tables).1 hd
    refine ⟨by simp, ?_⟩
    rcases htail with ⟨he, rfl⟩ | ⟨cs, conds, hc, he, rfl⟩
    · rw [he]
      refine .inl ⟨⟨ss, fs, tables, ?_, hl, by simp⟩, rfl⟩
      rcases word_starRule.1 hstar with ⟨rfl, _⟩ | ⟨rfl, _⟩
      · exact .inr rfl
      · exact .inl rfl
    · rw [he]
      rcases word_starRule.1 hstar with ⟨rfl, _, rfl⟩ | ⟨rfl, _, rfl⟩
      · cases he
        exact absurd ⟨rfl, rfl⟩ hwhere
      · right
        simpa using Sentence.deleteWhere hl hc

/-- Reading a `DELETE` up to its tables leaves its conditions. -/
theorem word_delete {ss fs : List Lexeme} {s : Set Lexeme} {star : Bool} {tables : List Bytes}
    {stmt : QueryStmt} (hstar : starRule.word ss s star) (hf : CommaList IsId fs tables)
    (htail : (deleteTailRule tables).word (.sym t :: us) stop stmt)
    (ht : ¬ (t = .whereT ∧ star = true)) :
    deleteRule.word (.sym .deleteT :: (ss ++ .sym .fromT :: (fs ++ .sym t :: us))) stop stmt := by
  obtain ⟨s', hs', hl⟩ := describes_id.list.complete hf
  obtain ⟨t', us', he, hdot, hcomma⟩ := head_deleteTailRule htail
  cases he
  refine (word_sym_bind rfl).2 ⟨_, rfl, word_bind hstar ?_ (from_notMem_star hstar)⟩
  refine word_bind (word_fromRule.2 ⟨fs, rfl, hl⟩) ?_ (sym_notMem hdot hcomma hs')
  refine ⟨.sym t, us, rfl, ?_⟩
  change (if t = .whereT ∧ star = true then Rule.fail else deleteTailRule tables).word _ _ _
  rwa [if_neg ht]

theorem deleteWhere_complete {fs cs : List Lexeme} {tables : List Bytes} {conds : List Condition}
    (hf : CommaList IsId fs tables) (hc : CommaList IsCond cs conds) :
    deleteRule.word (.sym .deleteT :: .sym .fromT :: fs ++ .sym .whereT :: cs ++ [.sym .colonT]) ∅
      (.delete ⟨tables, conds⟩) := by
  have htail := (word_deleteTailRule tables).2 ⟨rfl, .inr ⟨cs, conds, hc, rfl, rfl⟩⟩
  simpa using word_delete (word_starRule.2 (.inr ⟨rfl, rfl, rfl⟩)) hf htail (by simp)

theorem twoColons_complete (h : TwoColons ts) :
    ∃ tables, deleteRule.word ts ∅ (.delete ⟨tables, []⟩) := by
  obtain ⟨ss, fs, tables, hss, hf, rfl⟩ := h
  have htail := (word_deleteTailRule tables).2 ⟨rfl, .inl ⟨rfl, rfl⟩⟩
  refine ⟨tables, ?_⟩
  rcases hss with rfl | rfl
  · simpa using word_delete (word_starRule.2 (.inr ⟨rfl, rfl, rfl⟩)) hf htail (by simp)
  · simpa using word_delete (word_starRule.2 (.inl ⟨rfl, rfl, rfl⟩)) hf htail (by simp)

end Tadis.Sql
