import Tadis.Lexemes
import Tadis.Recognition

/-!
# What the parse functions read

Each parse function has a rule over lexemes, and reads exactly the words of its rule. The rules are
those of the code: they show where a statement ends early and where it ends late.
-/

namespace Tadis.Parser

open Lexer Recognition

def isToken (t : Token) : Set Lexeme := {u | u.token = t}

def symRule (t : Token) : Rule Lexeme Unit :=
  .token ∅ (fun u => if u.token = t then .ret () else .fail)

def idRule : Rule Lexeme Bytes :=
  .token ∅ (fun
    | .id name => .ret name
    | _ => .fail)

/-- A list with commas. -/
def listRule {α : Type} (A : Rule Lexeme α) : Rule Lexeme (List α) := .sepBy (isToken .commasT) A

def relAttrRule (name : Bytes) : Rule Lexeme RelAttr :=
  .choose (isToken .dotT) (fun _ => idRule.bind (fun attr => .ret ⟨name, attr⟩)) (.ret ⟨[], name⟩)

def attrRule : Rule Lexeme RelAttr :=
  .token ∅ (fun
    | .id name => relAttrRule name
    | _ => .fail)

def attrsRule (first : Bool) : Rule Lexeme (List RelAttr) :=
  .token ∅ (fun
    | .id name => (relAttrRule name).bind (fun attr =>
      .choose (isToken .commasT) (fun _ => (listRule attrRule).bind (fun attrs => .ret (attr :: attrs)))
        (.ret [attr]))
    | .sym .starT => if first then .ret [⟨[], str "*"⟩] else .fail
    | _ => .fail)

def fromRule : Rule Lexeme (List Bytes) :=
  .token ∅ (fun u => if u.token = .fromT then listRule idRule else .fail)

/-- The tokens that `parse_value` asserts not to find. -/
def notValue : Set Lexeme := {u | ∃ t, u = .sym t ∧ t ≠ .nullT}

def valueRule : Rule Lexeme Value :=
  .token notValue (fun
    | .id name => .choose (isToken .dotT)
        (fun _ => idRule.bind (fun attr => .ret (.relAttr ⟨name, attr⟩))) (.ret (.relAttr ⟨[], name⟩))
    | .float f => .ret (.floats f)
    | .integer n => .ret (.ints n)
    | .string s => .ret (.string s)
    | .sym .nullT => .ret .nullA
    | .sym _ => .fail)

def literalRule : Rule Lexeme Value :=
  valueRule.bind (fun v =>
    if v.attrType = .relAttr ∨ v.attrType = .undefined then .fail else .ret v)

def opRule : Rule Lexeme CondOp :=
  .token ∅ (fun u => if token2op u.token = .undefined then .fail else .ret (token2op u.token))

def condRule : Rule Lexeme Condition :=
  valueRule.bind (fun left => opRule.bind (fun op => valueRule.bind (fun right =>
    .ret ⟨left, right, op⟩)))

def condsRule : Rule Lexeme (List Condition) :=
  .token ∅ (fun u =>
    if u.token = .whereT then listRule condRule
    else if u.token = .colonT then .ret []
    else .fail)

def selectRule : Rule Lexeme QueryStmt :=
  .token ∅ (fun u =>
    if u.token = .selectT then
      (attrsRule true).bind (fun selist => fromRule.bind (fun fromList =>
        condsRule.bind (fun condList => .ret (.select ⟨selist, fromList, condList⟩))))
    else .fail)

def starRule : Rule Lexeme Bool := .choose (isToken .starT) (fun _ => .ret true) (.ret false)

def deleteTailRule (tables : List Bytes) : Rule Lexeme QueryStmt :=
  condsRule.bind (fun conds => (symRule .colonT).bind (fun _ => .ret (.delete ⟨tables, conds⟩)))

def deleteRule : Rule Lexeme QueryStmt :=
  (symRule .deleteT).bind (fun _ => starRule.bind (fun star => fromRule.bind (fun tables =>
    .dispatch (fun u => if u.token = .whereT ∧ star then .fail else deleteTailRule tables))))

def insertColsRule : Rule Lexeme (List Bytes) :=
  .token ∅ (fun u =>
    if u.token = .lbraceT then
      (listRule idRule).bind (fun cols => (symRule .rbraceT).bind (fun _ =>
        (symRule .valuesT).bind (fun _ => .ret cols)))
    else if u.token = .valuesT then .ret []
    else .fail)

def insertRule : Rule Lexeme QueryStmt :=
  (symRule .insertT).bind (fun _ => (symRule .intoT).bind (fun _ => idRule.bind (fun tableName =>
    insertColsRule.bind (fun cols => (symRule .lbraceT).bind (fun _ =>
      (listRule literalRule).bind (fun values => (symRule .rbraceT).bind (fun _ =>
        (symRule .colonT).bind (fun _ => .ret (.insert ⟨tableName, cols, values⟩)))))))))

def sizeRule : Rule Lexeme ℕ :=
  (symRule .lbraceT).bind (fun _ => .token ∅ (fun
    | .integer n => (symRule .rbraceT).bind (fun _ => .ret (longToSize n))
    | _ => .fail))

def colDataTypeRule : Rule Lexeme (Bytes × ℕ) :=
  .token ∅ (fun
    | .sym .sIntT => .ret (str "INT", 0)
    | .sym .sFloatT => .ret (str "FLOAT", 0)
    | .sym .sCharT => sizeRule.bind (fun size => .ret (str "CHAR", size))
    | .sym .sVarcharT => sizeRule.bind (fun size => .ret (str "VARCHAR", size))
    | _ => .fail)

def colAttrRule : Rule Lexeme ColAttr :=
  idRule.bind (fun name => colDataTypeRule.bind (fun type => .ret ⟨name, type.1, type.2⟩))

def createTableRule : Rule Lexeme QueryStmt :=
  (symRule .tableT).bind (fun _ => idRule.bind (fun tableName => (symRule .lbraceT).bind (fun _ =>
    (listRule colAttrRule).bind (fun colAttrs => (symRule .rbraceT).bind (fun _ =>
      (symRule .colonT).bind (fun _ => .ret (.createTable ⟨colAttrs, tableName⟩)))))))

def createRule : Rule Lexeme QueryStmt :=
  (symRule .createT).bind (fun _ =>
    .dispatch (fun u => if u.token = .tableT then createTableRule else .fail))

def dropRule : Rule Lexeme QueryStmt :=
  .token ∅ (fun u => if u.token ≠ .dropT then .ret (.select {}) else
    .token ∅ (fun u => if u.token ≠ .tableT then .ret (.select {}) else
      .token ∅ (fun
        | .id table => .token ∅ (fun u =>
          if u.token = .colonT then .ret (.drop ⟨table⟩) else .fail)
        | _ => .ret (.select {}))))

def statementRule : Rule Lexeme QueryStmt :=
  .dispatch (fun u =>
    match u.token with
    | .selectT => selectRule
    | .createT => createRule
    | .deleteT => deleteRule
    | .insertT => insertRule
    | .dropT => dropRule
    | _ => .fail)

variable {stof : Bytes → Option UInt32} {input : Bytes} {D : ℕ → Prop} {α β : Type}

/-- A lexeme and the state behind it. -/
def Slot (u : Lexeme) (l : Lexer) : Prop := ∀ v, u.val = some v → l.curVal = v

abbrev Meets (stof : Bytes → Option UInt32) (input : Bytes) (D : ℕ → Prop) (x : Parse α)
    (R : Rule Lexeme α) : Prop := Recognition.Meets (lexeme stof input) Lexer.p D x R

def Persistent (stof : Bytes → Option UInt32) (input : Bytes) (D : ℕ → Prop) : Prop :=
  ∀ p u q, D p → lexeme stof input p = some (.ok (u, q)) → D q

theorem slot_behind (u : Lexeme) (q : ℕ) (l : Lexer) : Slot u (behind u q l) := by
  intro v hv
  rw [behind, hv]
  rfl

/-- Reading a token and continuing by what it is. -/
theorem meets_next {k : RC × Token → Parse α} {bad : Set Lexeme} {y : Lexeme → Parse α}
    {Y : Lexeme → Rule Lexeme α} (hD : Persistent stof input D)
    (herror : ∀ l, ∃ e, k (.syntaxError, .badExpr) l = some (.error e))
    (hbad : ∀ u ∈ bad, (∀ t, u = .sym t → t.hasValue = false) → ∀ l,
      k (.success, u.token) l = none)
    (hok : ∀ u ∉ bad, (∀ t, u = .sym t → t.hasValue = false) → ∀ l, Slot u l →
      k (.success, u.token) l = y u l)
    (hy : ∀ u ∉ bad, Meets stof input D (y u) (Y u)) :
    Meets stof input D (next stof input >>= k) (.token bad Y) := by
  apply Meets.token (y := y)
  · intro l h
    rw [bind_apply, next_none h]
  · intro l e _ h
    obtain ⟨l', hl'⟩ := next_error h
    obtain ⟨e', he'⟩ := herror l'
    rw [bind_apply, hl']
    exact ⟨e', he'⟩
  · intro l u q _ h hu
    rw [bind_apply, next_ok h]
    exact hbad u hu (fun t ht => lexeme_sym (ht ▸ h)) _
  · intro l u q _ h hu
    refine ⟨behind u q l, rfl, ?_⟩
    rw [bind_apply, next_ok h]
    exact hok u hu (fun t ht => lexeme_sym (ht ▸ h)) _ (slot_behind u q l)
  · exact hD
  · exact hy

/-- Continuing by whether the next token is `t`. -/
theorem meets_nextIf {t : Token} (ht : t ≠ .badExpr) {x z : Parse α} {X Z : Rule Lexeme α}
    {D' : ℕ → Prop} (hD' : ∀ p u q, D p → lexeme stof input p = some (.ok (u, q)) → D' q)
    (hx : Meets stof input D' x X) (hz : Meets stof input D z Z) :
    Meets stof input D (nextIf stof input t >>= fun r => if r.1 = .success then x else z)
      (.choose (isToken t) (fun _ => X) Z) := by
  apply Meets.choose (y := fun _ => x) (z := z)
  · exact ⟨.sym t, rfl⟩
  · intro l h
    rw [bind_apply, nextIf_none h]
  · intro l e h
    obtain ⟨l', hp, hl'⟩ := nextIf_error h ht
    refine ⟨l', hp, ?_⟩
    rw [bind_apply, hl']
    rfl
  · intro l u q h hu
    refine ⟨behind u q l, rfl, ?_⟩
    rw [bind_apply, nextIf_ok h hu]
    rfl
  · intro l u q h hu
    refine ⟨behind u l.p l, rfl, ?_⟩
    rw [bind_apply, nextIf_other h hu]
    rfl
  · exact hD'
  · exact fun _ _ => hx
  · exact hz

theorem meets_expect {t : Token} (ht : t ≠ .badExpr) (hD : Persistent stof input D) :
    Meets stof input D (expect stof input t) (symRule t) := by
  apply Meets.token (y := fun u => if u.token = t then pure () else throw .syntaxError)
  · intro l h
    rw [expect, bind_apply, nextIf_none h]
  · intro l e _ h
    obtain ⟨l', _, hl'⟩ := nextIf_error h ht
    refine ⟨.syntaxError, ?_⟩
    rw [expect, bind_apply, hl']
    rfl
  · intro l u q _ _ hu
    exact hu.elim
  · intro l u q _ h _
    by_cases hu : u.token = t
    · refine ⟨behind u q l, rfl, ?_⟩
      rw [expect, bind_apply, nextIf_ok h hu, if_pos hu]
      rfl
    · refine ⟨behind u q l, rfl, ?_⟩
      rw [expect, bind_apply, nextIf_other h hu, if_neg hu]
      rfl
  · exact hD
  · intro u _
    split_ifs
    · exact .ret ()
    · exact .fail (fun l => ⟨_, rfl⟩)

/-- Expecting a token and continuing with its value. -/
theorem meets_expect_bind {t : Token} (ht : t ≠ .badExpr) {k : Parse α} {y : Lexeme → Parse α}
    {Y : Lexeme → Rule Lexeme α} (hD : Persistent stof input D)
    (hok : ∀ u, u.token = t → (∀ t, u = .sym t → t.hasValue = false) → ∀ l, Slot u l → k l = y u l)
    (hother : ∀ u, u.token ≠ t → y u = throw .syntaxError)
    (hy : ∀ u, Meets stof input D (y u) (Y u)) :
    Meets stof input D (expect stof input t >>= fun _ => k) (.token ∅ Y) := by
  apply Meets.token (y := y)
  · intro l h
    rw [bind_apply, expect, bind_apply, nextIf_none h]
  · intro l e _ h
    obtain ⟨l', _, hl'⟩ := nextIf_error h ht
    refine ⟨.syntaxError, ?_⟩
    rw [bind_apply, expect, bind_apply, hl']
    rfl
  · intro l u q _ _ hu
    exact hu.elim
  · intro l u q _ h _
    refine ⟨behind u q l, rfl, ?_⟩
    by_cases hu : u.token = t
    · rw [← hok u hu (fun t ht => lexeme_sym (ht ▸ h)) _ (slot_behind u q l), bind_apply, expect,
        bind_apply, nextIf_ok h hu]
      rfl
    · rw [hother u hu, bind_apply, expect, bind_apply, nextIf_other h hu]
      rfl
  · exact hD
  · exact fun u _ => hy u

theorem curString_apply {l : Lexer} {s : Bytes} (h : l.curVal = .string s) :
    curString l = some (.ok (s, l)) := by
  rw [curString, h]

theorem bind_curString {f : Bytes → Parse α} {l : Lexer} {s : Bytes} (h : l.curVal = .string s) :
    (curString >>= f) l = f s l := by
  rw [bind_apply, curString_apply h]

theorem bind_curLong {f : Int64 → Parse α} {l : Lexer} {n : Int64} (h : l.curVal = .ints n) :
    (curLong >>= f) l = f n l := by
  rw [bind_apply, curLong, h]

theorem bind_curFloat {g : UInt32 → Parse α} {l : Lexer} {f : UInt32} (h : l.curVal = .floats f) :
    (curFloat >>= g) l = g f l := by
  rw [bind_apply, curFloat, h]

theorem meets_throw (rc : RC) : Meets stof input D (throw rc : Parse α) .fail :=
  .fail (fun _ => ⟨rc, rfl⟩)

theorem meets_expectId (hD : Persistent stof input D) :
    Meets stof input D (expectId stof input) idRule := by
  apply meets_expect_bind (by decide) (y := fun
    | .id name => pure name
    | _ => throw .syntaxError) hD
  · intro u hu hval l hl
    cases u with
    | id name => exact curString_apply (hl _ rfl)
    | sym t => simp [show t = .idT from hu, Token.hasValue] at hval
    | _ => cases hu
  · intro u hu
    cases u with
    | id name => exact absurd rfl hu
    | _ => rfl
  · intro u
    cases u with
    | id name => exact .ret name
    | _ => exact meets_throw _

/-- Fewer than `n` bytes are left, so that `n` rounds of a loop are enough. -/
def Within (input : Bytes) (n p : ℕ) : Prop := input.length - p < n

theorem within_next {n p q : ℕ} {u : Lexeme} (hp : Within input (n + 1) p)
    (h : lexeme stof input p = some (.ok (u, q))) : Within input n q := by
  obtain ⟨hpq, hlt⟩ := lexeme_lt h
  unfold Within at *
  omega

theorem persistent_within (n : ℕ) : Persistent stof input (Within input n) := by
  intro p u q hp h
  obtain ⟨hpq, hlt⟩ := lexeme_lt h
  unfold Within at *
  omega

theorem meets_parseList {item : Parse α} {A : Rule Lexeme α}
    (hitem : ∀ n, Meets stof input (Within input n) item A) (n : ℕ) :
    Meets stof input (Within input n) (parseList stof input item n) (listRule A) := by
  induction n with
  | zero => exact .of_not (fun p => Nat.not_lt_zero _)
  | succ n ih =>
    rw [listRule, Rule.sepBy_eq, parseList]
    apply Meets.bind (persistent_within _) (hitem _)
    intro a
    apply meets_nextIf (by decide) (fun _ _ _ => within_next)
    · exact .bind (persistent_within n) ih (fun as => .ret (a :: as))
    · exact .ret [a]

theorem meets_parseRelAttr (hD : Persistent stof input D) (name : Bytes) :
    Meets stof input D (parseRelAttr stof input name) (relAttrRule name) := by
  apply Meets.choose (y := fun _ => do
    let attr ← expectId stof input
    pure ⟨name, attr⟩) (z := pure ⟨[], name⟩)
  · exact ⟨.sym .dotT, rfl⟩
  · intro l h
    rw [parseRelAttr, bind_apply, peek_none h]
  · intro l e h
    obtain ⟨l', hp, hl'⟩ := peek_error h
    refine ⟨l', hp, ?_⟩
    rw [parseRelAttr, bind_apply, hl']
    rfl
  · intro l u q h hu
    have hu : u.token = .dotT := hu
    refine ⟨behind u q (behind u l.p l), rfl, ?_⟩
    rw [parseRelAttr, bind_apply, peek_ok h]
    dsimp only
    rw [if_pos hu, bind_apply, next_ok (show lexeme stof input (behind u l.p l).p = _ from h)]
  · intro l u q h hu
    refine ⟨behind u l.p l, rfl, ?_⟩
    rw [parseRelAttr, bind_apply, peek_ok h]
    dsimp only
    rw [if_neg (show ¬ u.token = .dotT from hu)]
  · exact hD
  · intro _ _
    exact .bind hD (meets_expectId hD) (fun attr => .ret _)
  · exact .ret _

theorem meets_parseValue (hD : Persistent stof input D) :
    Meets stof input D (parseValue stof input) valueRule := by
  apply meets_next (y := fun
    | .id name => nextIf stof input .dotT >>= fun r => if r.1 = .success then do
        let attr ← expectId stof input
        pure (.relAttr ⟨name, attr⟩)
      else pure (.relAttr ⟨[], name⟩)
    | .float f => pure (.floats f)
    | .integer n => pure (.ints n)
    | .string s => pure (.string s)
    | .sym .nullT => pure .nullA
    | .sym _ => throw .syntaxError) hD
  · exact fun l => ⟨_, rfl⟩
  · rintro u ⟨t, rfl, ht⟩ hval l
    have hval := hval t rfl
    cases t <;> first | rfl | exact absurd rfl ht | cases hval
  · intro u hu hval l hl
    cases u with
    | id name => exact bind_curString (hl _ rfl)
    | integer n => exact bind_curLong (hl _ rfl)
    | float f => exact bind_curFloat (hl _ rfl)
    | string s => exact bind_curString (hl _ rfl)
    | sym t =>
      obtain rfl : t = .nullT := by_contra fun ht => hu ⟨t, rfl, ht⟩
      rfl
  · intro u _
    cases u with
    | id name =>
      apply meets_nextIf (by decide) hD
      · exact .bind hD (meets_expectId hD) (fun attr => .ret _)
      · exact .ret _
    | sym t => cases t <;> first | exact .ret _ | exact meets_throw _
    | _ => exact .ret _

theorem meets_parseLiteral (hD : Persistent stof input D) :
    Meets stof input D (parseLiteral stof input) literalRule := by
  apply Meets.bind hD (meets_parseValue hD)
  intro v
  split_ifs
  · exact meets_throw _
  · exact .ret v

theorem meets_parseOp (hD : Persistent stof input D) :
    Meets stof input D (parseOp stof input) opRule := by
  apply meets_next (y := fun u => if token2op u.token = .undefined then throw .syntaxError
    else pure (token2op u.token)) hD
  · exact fun l => ⟨_, rfl⟩
  · exact fun u hu => hu.elim
  · exact fun u _ _ l _ => rfl
  · intro u _
    split_ifs
    · exact meets_throw _
    · exact .ret _

theorem meets_parseCond (hD : Persistent stof input D) :
    Meets stof input D (parseCond stof input) condRule := by
  apply Meets.bind hD (meets_parseValue hD)
  intro left
  apply Meets.bind hD (meets_parseOp hD)
  intro op
  exact .bind hD (meets_parseValue hD) (fun right => .ret _)

section

variable {n : ℕ}

theorem meets_idList : Meets stof input (Within input n)
    (parseList stof input (expectId stof input) n) (listRule idRule) :=
  meets_parseList (fun _ => meets_expectId (persistent_within _)) n

theorem meets_parseFrom :
    Meets stof input (Within input n) (parseFrom stof input n) fromRule := by
  apply meets_next (y := fun u => if u.token = .fromT then
    parseList stof input (expectId stof input) n else throw .syntaxError) (persistent_within n)
  · exact fun l => ⟨_, rfl⟩
  · exact fun u hu => hu.elim
  · intro u _ _ l _
    by_cases hu : u.token = .fromT <;> simp [hu]
  · intro u _
    split_ifs
    · exact meets_idList
    · exact meets_throw _

theorem meets_parseConds :
    Meets stof input (Within input n) (parseConds stof input n) condsRule := by
  apply meets_next (y := fun u => if u.token = .whereT then
    parseList stof input (parseCond stof input) n
    else if u.token = .colonT then pure [] else throw .syntaxError) (persistent_within n)
  · exact fun l => ⟨_, rfl⟩
  · exact fun u hu => hu.elim
  · exact fun u _ _ l _ => rfl
  · intro u _
    split_ifs
    · exact meets_parseList (fun _ => meets_parseCond (persistent_within _)) n
    · exact .ret _
    · exact meets_throw _

/-- Behind the first attribute, a list of attributes has no `*`. -/
theorem attrsRule_false : attrsRule false = listRule attrRule := by
  rw [listRule, Rule.sepBy_eq, attrsRule, attrRule, Rule.token_bind]
  congr 1
  funext u
  cases u with
  | sym t => cases t <;> exact Rule.fail_bind.symm
  | id name => rfl
  | _ => exact Rule.fail_bind.symm

theorem meets_parseAttrsFrom (first : Bool) :
    Meets stof input (Within input n) (parseAttrsFrom stof input first n) (attrsRule first) := by
  induction n generalizing first with
  | zero => exact .of_not (fun p => Nat.not_lt_zero _)
  | succ n ih =>
    apply meets_next (y := fun
      | .id name => do
        let attr ← parseRelAttr stof input name
        let r ← nextIf stof input .commasT
        if r.1 = .success then do
          let attrs ← parseAttrsFrom stof input false n
          pure (attr :: attrs)
        else pure [attr]
      | .sym .starT => if first then pure [⟨[], str "*"⟩] else throw .syntaxError
      | _ => throw .syntaxError) (persistent_within _)
    · exact fun l => ⟨_, rfl⟩
    · exact fun u hu => hu.elim
    · intro u _ hval l hl
      cases u with
      | id name => exact bind_curString (hl _ rfl)
      | sym t =>
        have hval := hval t rfl
        cases t <;> first | rfl | cases hval
      | _ => rfl
    · intro u _
      cases u with
      | id name =>
        apply Meets.bind (persistent_within _) (meets_parseRelAttr (persistent_within _) name)
        intro attr
        apply meets_nextIf (by decide) (fun _ _ _ => within_next)
        · exact .bind (persistent_within n) (attrsRule_false ▸ ih false) (fun attrs => .ret _)
        · exact .ret [attr]
      | sym t =>
        cases t <;> first | exact meets_throw _ | skip
        cases first
        · exact meets_throw _
        · exact .ret _
      | _ => exact meets_throw _

/-- The parser has looked at the next token and found `u`. -/
def Next (stof : Bytes → Option UInt32) (input : Bytes) (D : ℕ → Prop) (u : Lexeme) (p : ℕ) : Prop :=
  D p ∧ ∃ q, lexeme stof input p = some (.ok (u, q))

theorem Meets.next {x : Parse α} {R : Rule Lexeme α} {u : Lexeme} (h : Meets stof input D x R) :
    Meets stof input (Next stof input D u) x R :=
  h.mono (fun _ hp => hp.1)

/-- The assertion on the first token holds because the parser has looked at it. -/
theorem meets_parseSelect {u : Lexeme} (hu : u.token = .selectT) :
    Meets stof input (Next stof input (Within input n) u) (parseSelect stof input n) selectRule := by
  apply Meets.token (y := fun u => if u.token = .selectT then do
      let selist ← parseAttrs stof input n
      let fromList ← parseFrom stof input n
      let condList ← parseConds stof input n
      pure (.select ⟨selist, fromList, condList⟩)
    else throw .syntaxError) (W := Within input n)
  · intro l h
    rw [parseSelect, bind_apply, next_none h]
  · rintro l e ⟨_, q, hq⟩ h
    rw [hq] at h
    cases h
  · exact fun l u q _ _ hbad => hbad.elim
  · rintro l u' q ⟨_, q', hq⟩ h _
    rw [hq] at h
    obtain ⟨rfl, rfl⟩ : u = u' ∧ q' = q := by simpa using h
    refine ⟨behind u q' l, rfl, ?_⟩
    rw [parseSelect, bind_apply, next_ok hq, if_pos hu]
    dsimp only
    rw [if_pos ⟨hu, rfl⟩]
  · exact fun p u q hp h => persistent_within n p u q hp.1 h
  · intro u' _
    split_ifs
    · apply Meets.bind (persistent_within n) (meets_parseAttrsFrom true)
      intro selist
      apply Meets.bind (persistent_within n) meets_parseFrom
      intro fromList
      exact .bind (persistent_within n) meets_parseConds (fun condList => .ret _)
    · exact meets_throw _

theorem meets_parseStar (hD : Persistent stof input D) :
    Meets stof input D (parseStar stof input) starRule :=
  meets_nextIf (by decide) hD (.ret true) (.ret false)

theorem meets_deleteTail (tables : List Bytes) :
    Meets stof input (Within input n) (do
      let conds ← parseConds stof input n
      expect stof input .colonT
      pure (.delete ⟨tables, conds⟩)) (deleteTailRule tables) := by
  apply Meets.bind (persistent_within n) meets_parseConds
  intro conds
  exact .bind (persistent_within n) (meets_expect (by decide) (persistent_within n)) (fun _ => .ret _)

theorem meets_parseDelete :
    Meets stof input (Within input n) (parseDelete stof input n) deleteRule := by
  apply Meets.bind (persistent_within n) (meets_expect (by decide) (persistent_within n))
  intro _
  apply Meets.bind (persistent_within n) (meets_parseStar (persistent_within n))
  intro star
  apply Meets.bind (persistent_within n) meets_parseFrom
  intro tables
  apply Meets.dispatch (k := fun u => if u.token = .whereT ∧ star then throw .syntaxError else do
      let conds ← parseConds stof input n
      expect stof input .colonT
      pure (.delete ⟨tables, conds⟩))
  · intro l h
    rw [bind_apply, peek_none h]
  · intro l e h
    obtain ⟨l', hp, hl'⟩ := peek_error h
    obtain ⟨l'', hl''⟩ := next_error (show lexeme stof input l'.p = some (.error e) from hp ▸ h)
    refine ⟨.syntaxError, ?_⟩
    rw [bind_apply, hl']
    dsimp only
    rw [if_neg (by simp), bind_apply, parseConds, bind_apply, hl'']
    rfl
  · intro l u q h
    refine ⟨behind u l.p l, rfl, ?_⟩
    rw [bind_apply, peek_ok h]
  · intro u
    apply Meets.next
    split_ifs
    · exact meets_throw _
    · exact meets_deleteTail tables
  · intro u
    split_ifs
    · exact Rule.starts_fail
    · exact Rule.starts_token.bind

theorem meets_parseInsertCols :
    Meets stof input (Within input n) (parseInsertCols stof input n) insertColsRule := by
  have hexp : ∀ t, t ≠ .badExpr → Meets stof input (Within input n) (expect stof input t)
      (symRule t) := fun t ht => meets_expect ht (persistent_within n)
  apply meets_next (y := fun u => if u.token = .lbraceT then do
      let cols ← parseCols stof input n
      expect stof input .rbraceT
      expect stof input .valuesT
      pure cols
    else if u.token = .valuesT then pure [] else throw .syntaxError) (persistent_within n)
  · exact fun l => ⟨_, rfl⟩
  · exact fun u hu => hu.elim
  · exact fun u _ _ l _ => rfl
  · intro u _
    split_ifs
    · apply Meets.bind (persistent_within n) meets_idList
      intro cols
      apply Meets.bind (persistent_within n) (hexp _ (by decide))
      intro _
      exact .bind (persistent_within n) (hexp _ (by decide)) (fun _ => .ret _)
    · exact .ret _
    · exact meets_throw _

theorem meets_parseInsert :
    Meets stof input (Within input n) (parseInsert stof input n) insertRule := by
  have hD : Persistent stof input (Within input n) := persistent_within n
  apply Meets.bind hD (meets_expect (by decide) hD)
  intro _
  apply Meets.bind hD (meets_expect (by decide) hD)
  intro _
  apply Meets.bind hD (meets_expectId hD)
  intro tableName
  apply Meets.bind hD meets_parseInsertCols
  intro cols
  apply Meets.bind hD (meets_expect (by decide) hD)
  intro _
  apply Meets.bind hD (meets_parseList (fun _ => meets_parseLiteral (persistent_within _)) n)
  intro values
  apply Meets.bind hD (meets_expect (by decide) hD)
  intro _
  exact .bind hD (meets_expect (by decide) hD) (fun _ => .ret _)

theorem meets_parseSize (hD : Persistent stof input D) :
    Meets stof input D (parseSize stof input) sizeRule := by
  apply Meets.bind hD (meets_expect (by decide) hD)
  intro _
  apply meets_expect_bind (by decide) (y := fun
    | .integer n => do
      expect stof input .rbraceT
      pure (longToSize n)
    | _ => throw .syntaxError) hD
  · intro u hu hval l hl
    cases u with
    | integer n => exact bind_curLong (hl _ rfl)
    | sym t => simp [show t = .integerT from hu, Token.hasValue] at hval
    | _ => cases hu
  · intro u hu
    cases u with
    | integer n => exact absurd rfl hu
    | _ => rfl
  · intro u
    cases u with
    | integer n => exact .bind hD (meets_expect (by decide) hD) (fun _ => .ret _)
    | _ => exact meets_throw _

theorem meets_parseColDataType (hD : Persistent stof input D) :
    Meets stof input D (parseColDataType stof input) colDataTypeRule := by
  apply meets_next (y := fun
    | .sym .sIntT => pure (str "INT", 0)
    | .sym .sFloatT => pure (str "FLOAT", 0)
    | .sym .sCharT => do
      let size ← parseSize stof input
      pure (str "CHAR", size)
    | .sym .sVarcharT => do
      let size ← parseSize stof input
      pure (str "VARCHAR", size)
    | _ => throw .syntaxError) hD
  · exact fun l => ⟨_, rfl⟩
  · exact fun u hu => hu.elim
  · intro u _ _ l _
    cases u with
    | sym t => cases t <;> rfl
    | _ => rfl
  · intro u _
    cases u with
    | sym t =>
      cases t <;> first
        | exact meets_throw _
        | exact .ret _
        | exact .bind hD (meets_parseSize hD) (fun size => .ret _)
    | _ => exact meets_throw _

theorem meets_parseColAttr (hD : Persistent stof input D) :
    Meets stof input D (parseColAttr stof input) colAttrRule := by
  apply Meets.bind hD (meets_expectId hD)
  intro name
  exact .bind hD (meets_parseColDataType hD) (fun type => .ret _)

theorem meets_parseCreateTable :
    Meets stof input (Within input n) (parseCreateTable stof input n) createTableRule := by
  have hD : Persistent stof input (Within input n) := persistent_within n
  apply Meets.bind hD (meets_expect (by decide) hD)
  intro _
  apply Meets.bind hD (meets_expectId hD)
  intro tableName
  apply Meets.bind hD (meets_expect (by decide) hD)
  intro _
  apply Meets.bind hD (meets_parseList (fun _ => meets_parseColAttr (persistent_within _)) n)
  intro colAttrs
  apply Meets.bind hD (meets_expect (by decide) hD)
  intro _
  exact .bind hD (meets_expect (by decide) hD) (fun _ => .ret _)

theorem meets_parseCreate :
    Meets stof input (Within input n) (parseCreate stof input n) createRule := by
  apply Meets.bind (persistent_within n) (meets_expect (by decide) (persistent_within n))
  intro _
  apply Meets.dispatch (k := fun u => if u.token = .tableT then parseCreateTable stof input n
    else throw .syntaxError)
  · intro l h
    rw [bind_apply, peek_none h]
  · intro l e h
    obtain ⟨l', _, hl'⟩ := peek_error h
    refine ⟨.syntaxError, ?_⟩
    rw [bind_apply, hl']
    rfl
  · intro l u q h
    refine ⟨behind u l.p l, rfl, ?_⟩
    rw [bind_apply, peek_ok h]
  · intro u
    apply Meets.next
    split_ifs
    · exact meets_parseCreateTable
    · exact meets_throw _
  · intro u
    split_ifs
    · exact Rule.starts_token.bind
    · exact Rule.starts_fail

/-- Behind `DROP TABLE`. -/
theorem meets_dropTable (hD : Persistent stof input D) :
    Meets stof input D (do
      let r ← next stof input
      if r.1 ≠ .success ∨ r.2 ≠ .idT then returnUnset r.1
      else do
        let table ← curString
        let r ← next stof input
        if r.1 = .success ∧ r.2 = .colonT then pure (.drop ⟨table⟩) else throw .syntaxError)
      (.token ∅ (fun
        | .id table => .token ∅ (fun u =>
          if u.token = .colonT then .ret (.drop ⟨table⟩) else .fail)
        | _ => .ret (.select {}))) := by
  apply meets_next (y := fun
    | .id table => next stof input >>= fun r =>
      if r.1 = .success ∧ r.2 = .colonT then pure (.drop ⟨table⟩) else throw .syntaxError
    | _ => pure (.select {})) hD
  · exact fun l => ⟨_, rfl⟩
  · exact fun u hu => hu.elim
  · intro u _ hval l hl
    cases u with
    | id name => exact bind_curString (hl _ rfl)
    | sym t =>
      have hval := hval t rfl
      cases t <;> first | rfl | cases hval
    | _ => rfl
  · intro u _
    cases u with
    | id table =>
      apply meets_next (y := fun u => if u.token = .colonT then pure (.drop ⟨table⟩)
        else throw .syntaxError) hD
      · exact fun l => ⟨_, rfl⟩
      · exact fun u hu => hu.elim
      · intro u _ _ l _
        simp
      · intro u _
        split_ifs
        · exact .ret _
        · exact meets_throw _
    | _ => exact .ret _

theorem meets_parseDrop (hD : Persistent stof input D) :
    Meets stof input D (parseDrop stof input) dropRule := by
  have hother : ∀ (t t' : Token) (x : Parse QueryStmt) (l : Lexer),
      (if RC.success ≠ .success ∨ t ≠ t' then returnUnset .success else x) l =
        (if t ≠ t' then pure (.select {}) else x) l := by
    intro t t' x l
    by_cases h : t = t'
    · simp [h]
    · simp only [h, ne_eq, not_true_eq_false, not_false_eq_true, or_true, if_true]
      rfl
  apply meets_next (y := fun u => if u.token ≠ .dropT then pure (.select {}) else _) hD
  · exact fun l => ⟨_, rfl⟩
  · exact fun u hu => hu.elim
  · exact fun u _ _ l _ => hother _ _ _ l
  · intro u _
    by_cases hu : u.token = .dropT
    · rw [if_neg (not_not.2 hu), if_neg (not_not.2 hu)]
      apply meets_next (y := fun u => if u.token ≠ .tableT then pure (.select {}) else _) hD
      · exact fun l => ⟨_, rfl⟩
      · exact fun u hu => hu.elim
      · exact fun u _ _ l _ => hother _ _ _ l
      · intro u _
        by_cases hu : u.token = .tableT
        · rw [if_neg (not_not.2 hu), if_neg (not_not.2 hu)]
          exact meets_dropTable hD
        · rw [if_pos hu, if_pos hu]
          exact .ret _
    · rw [if_pos hu, if_pos hu]
      exact .ret _

theorem meets_parseStatement :
    Meets stof input (Within input n) (parseStatement stof input n) statementRule := by
  apply Meets.dispatch (k := fun u =>
    match u.token with
    | .selectT => parseSelect stof input n
    | .createT => parseCreate stof input n
    | .deleteT => parseDelete stof input n
    | .insertT => parseInsert stof input n
    | .dropT => parseDrop stof input
    | _ => throw .syntaxError)
  · intro l h
    rw [parseStatement, bind_apply, peek_none h]
  · intro l e h
    obtain ⟨l', _, hl'⟩ := peek_error h
    refine ⟨.syntaxError, ?_⟩
    rw [parseStatement, bind_apply, hl']
    rfl
  · intro l u q h
    refine ⟨behind u l.p l, rfl, ?_⟩
    rewrite [parseStatement, bind_apply, peek_ok h]
    cases u.token <;> rfl
  · intro u
    cases hu : u.token <;> dsimp only
    case selectT => exact meets_parseSelect hu
    case createT => exact meets_parseCreate.next
    case deleteT => exact meets_parseDelete.next
    case insertT => exact meets_parseInsert.next
    case dropT => exact (meets_parseDrop (persistent_within n)).next
    all_goals exact (meets_throw _)
  · intro u
    cases u.token <;> dsimp only
    case selectT => exact Rule.starts_token
    case createT => exact Rule.starts_token.bind
    case deleteT => exact Rule.starts_token.bind
    case insertT => exact Rule.starts_token.bind
    case dropT => exact Rule.starts_token
    all_goals exact Rule.starts_fail

end

/-- The parser accepts exactly the words of its rule, and aborts exactly where the rule says. -/
theorem doParse_ok_iff {stmt : QueryStmt} {q : ℕ} :
    (∃ l, doParse stof input = some (.ok (stmt, l)) ∧ l.p = q) ↔
      ∃ ts stop, statementRule.word ts stop stmt ∧ Reads (lexeme stof input) 0 ts q ∧
        Ends (lexeme stof input) stop q :=
  meets_parseStatement.ok {} stmt q (by simp [Within])

theorem doParse_none_iff : doParse stof input = none ↔
    ∃ ts bad q, statementRule.opens ts bad ∧ Reads (lexeme stof input) 0 ts q ∧
      GoesWrong (lexeme stof input) bad q :=
  meets_parseStatement.wrong {} (by simp [Within])

end Tadis.Parser
