import Tadis.Acceptance
import Tadis.JsonDoubles
import Tadis.Rendering

/-!
# Statements as text

`stmtLexemes` spells a statement out. The parser reads every text of these lexemes back to the
statement, and `toSql` is one of them. Left out is what no text stands for: names that are keywords,
empty strings and strings with a quote, the smallest integer, and floats, which lose a digit.
-/

namespace Tadis.Sql

open Lexer Pson Recognition

theorem number_reverse {l : List ℕ} (h : ∀ d ∈ l, d < 10) :
    number (l.reverse.map (fun d => 0x30 + .ofNat d)) = Nat.ofDigits 10 l := by
  induction l with
  | nil => rfl
  | cons d l ih =>
    obtain ⟨hd, hl⟩ := List.forall_mem_cons.1 h
    have hdigit : (0x30 + UInt8.ofNat d).toNat - '0'.toNat = d := by interval_cases d <;> rfl
    rw [List.reverse_cons, List.map_append, number, List.foldl_append, List.map_singleton,
      List.foldl_cons, List.foldl_nil, hdigit, Nat.ofDigits_cons, ← ih hl, number]
    ring

theorem number_digits (n : ℕ) : number (digits n) = n := by
  rw [digits]
  split_ifs with hn
  · rw [hn]
    rfl
  · exact (number_reverse fun d hd => Nat.digits_lt_base (by decide) hd).trans (Nat.ofDigits_digits 10 n)

theorem isDecimal_digits (n : ℕ) : IsDecimal (digits n) where
  digits c hc := decide_eq_true (isDigit_digits n c hc)
  nonempty := by
    rw [digits]
    split_ifs with hn
    · simp
    · simpa using Nat.digits_ne_nil_iff_ne_zero.2 hn
  canonical hz := by
    have hint := isInt_digits n
    generalize digits n = t at hint hz ⊢
    cases hint with
    | zero => rfl
    | digits hc =>
      obtain rfl := Option.some.inj hz
      exact absurd hc.1 (by decide)

/-- An integer whose negation is one too. -/
theorem spells_integer {n : Int64} (h : -2 ^ 63 < n.toInt) :
    Spells (.integer n) (decimal n.toInt) := by
  have hlt := n.toInt_lt
  have hdec := isDecimal_digits n.toInt.natAbs
  have hnum := number_digits n.toInt.natAbs
  rw [decimal]
  split_ifs with hneg
  · have hn : -Int64.ofNat n.toInt.natAbs = n := by
      rw [← Int64.ofInt_eq_ofNat, Int64.neg_ofInt, show -(n.toInt.natAbs : ℤ) = n.toInt by omega,
        Int64.ofInt_toInt]
    have hs := Spells.negative hdec (by rw [hnum]; omega)
    rwa [hnum, hn] at hs
  · have hn : Int64.ofNat n.toInt.natAbs = n := by
      rw [← Int64.ofInt_eq_ofNat, show (n.toInt.natAbs : ℤ) = n.toInt by omega, Int64.ofInt_toInt]
    have hs := Spells.integer hdec (by rw [hnum]; omega)
    rwa [hnum, hn] at hs

/-- The keywords and symbols of the statements. -/
def symText : Token → Bytes
  | .selectT => str "SELECT"
  | .insertT => str "INSERT"
  | .createT => str "CREATE"
  | .dropT => str "DROP"
  | .intoT => str "INTO"
  | .fromT => str "FROM"
  | .whereT => str "WHERE"
  | .tableT => str "TABLE"
  | .valuesT => str "VALUES"
  | .inT => str "IN"
  | .isT => str "IS"
  | .nullT => str "NULL"
  | .sCharT => str "CHAR"
  | .sVarcharT => str "VARCHAR"
  | .sIntT => str "INT"
  | .sFloatT => str "FLOAT"
  | .assignT => str "="
  | .greaterT => str ">"
  | .smallerT => str "<"
  | .notEqT => str "<>"
  | .commasT => str ","
  | .starT => str "*"
  | .dotT => str "."
  | .colonT => str ";"
  | .lbraceT => str "("
  | .rbraceT => str ")"
  | _ => []

theorem spells_sym {t : Token} (h : symText t ≠ []) : Spells (.sym t) (symText t) := by
  cases t
  case smallerT => exact .smaller
  case notEqT => exact .notEq
  all_goals first
    | exact absurd rfl h
    | exact .keyword (by decide)
    | exact .symbol (by decide)

def spell : Lexeme → Bytes
  | .id name => name
  | .integer n => decimal n.toInt
  | .string s => '\''.toUInt8 :: (s ++ ['\''.toUInt8])
  | .sym t => symText t
  | .float _ => []

/-- A name that the lexer does not take for a keyword. -/
def IsName (name : Bytes) : Prop :=
  (∃ c ∈ name.head?, isIdStart c = true) ∧ (∀ d ∈ name, isIdPart d = true) ∧
    specToken.lookup (toUpper name) = none

instance (name : Bytes) : Decidable (IsName name) :=
  inferInstanceAs (Decidable ((∃ c ∈ name.head?, isIdStart c = true) ∧ _ ∧ _))

/-- The lexeme has a text. -/
def Spellable : Lexeme → Prop
  | .id name => IsName name
  | .integer n => -2 ^ 63 < n.toInt
  | .string s => s ≠ [] ∧ '\''.toUInt8 ∉ s
  | .sym t => symText t ≠ []
  | .float _ => False

instance : DecidablePred Spellable
  | .id name => inferInstanceAs (Decidable (IsName name))
  | .integer n => inferInstanceAs (Decidable (-2 ^ 63 < n.toInt))
  | .string s => inferInstanceAs (Decidable (s ≠ [] ∧ '\''.toUInt8 ∉ s))
  | .sym t => inferInstanceAs (Decidable (symText t ≠ []))
  | .float _ => .isFalse id

theorem spells_spell {u : Lexeme} (h : Spellable u) : Spells u (spell u) := by
  cases u with
  | id name =>
    obtain ⟨⟨c, hc, hstart⟩, hpart, hkey⟩ := h
    obtain ⟨s, rfl⟩ := List.head?_eq_some_iff.1 hc
    exact .id hstart (fun d hd => hpart d (List.mem_cons_of_mem _ hd)) hkey
  | integer n => exact spells_integer h
  | float f => exact h.elim
  | string s => exact .string h.1 h.2
  | sym t => exact spells_sym h

/-- Every lexeme with a blank before it. -/
def text (us : List Lexeme) : Bytes := us.flatMap (fun u => ' '.toUInt8 :: spell u)

theorem atGap_text (us : List Lexeme) : AtGap (text us) := by
  cases us with
  | nil => exact fun c hc => by cases hc
  | cons u us => exact fun c hc => (Option.some.inj hc).symm

theorem rendered_text {us : List Lexeme} (h : ∀ u ∈ us, Spellable u) : Rendered us (text us) := by
  induction us with
  | nil => exact .nil fun c hc => by cases hc
  | cons u us ih =>
    obtain ⟨hu, hus⟩ := List.forall_mem_cons.1 h
    have hblank : ∀ c ∈ [' '.toUInt8], c = ' '.toUInt8 := fun c hc => List.mem_singleton.1 hc
    exact .cons hblank (spells_spell hu) (atGap_text us) (ih hus)

/-- The parts with commas between them. -/
def commas {α : Type} (f : α → List Lexeme) : List α → List Lexeme
  | [] => []
  | [a] => f a
  | a :: b :: as => f a ++ .sym .commasT :: commas f (b :: as)

def attrLexemes (a : RelAttr) : List Lexeme :=
  if a.table = [] then [.id a.attr] else [.id a.table, .sym .dotT, .id a.attr]

def selistLexemes (sel : List RelAttr) : List Lexeme :=
  if sel = [⟨[], str "*"⟩] then [.sym .starT] else commas attrLexemes sel

def valueLexemes : Value → List Lexeme
  | .relAttr a => attrLexemes a
  | .string s => [.string s]
  | .ints n => [.integer n]
  | .floats f => [.float f]
  | .nullA => [.sym .nullT]
  | .undefined => []

def opToken : CondOp → Token
  | .notEq => .notEqT
  | .eq => .assignT
  | .greater => .greaterT
  | .smaller => .smallerT
  | .inOp => .inT
  | .is => .isT
  | _ => .badExpr

def condLexemes (c : Condition) : List Lexeme :=
  valueLexemes c.left ++ .sym (opToken c.op) :: valueLexemes c.right

def typeLexemes (c : ColAttr) : List Lexeme :=
  if c.type = str "INT" then [.sym .sIntT]
  else if c.type = str "FLOAT" then [.sym .sFloatT]
  else [.sym (if c.type = str "CHAR" then .sCharT else .sVarcharT), .sym .lbraceT,
    .integer (.ofNat c.size), .sym .rbraceT]

def colLexemes (c : ColAttr) : List Lexeme := .id c.name :: typeLexemes c

def whereLexemes : List Condition → List Lexeme
  | [] => []
  | c :: cs => .sym .whereT :: commas condLexemes (c :: cs)

def colsLexemes : List Bytes → List Lexeme
  | [] => []
  | c :: cs => .sym .lbraceT :: commas (fun name => [.id name]) (c :: cs) ++ [.sym .rbraceT]

/-- A `DELETE` has no lexemes here. -/
def stmtLexemes : QueryStmt → List Lexeme
  | .select s =>
    .sym .selectT :: selistLexemes s.selist ++ .sym .fromT ::
      commas (fun name => [.id name]) s.fromList ++ whereLexemes s.condList ++ [.sym .colonT]
  | .insert s =>
    .sym .insertT :: .sym .intoT :: .id s.tableName :: colsLexemes s.cols ++ .sym .valuesT ::
      .sym .lbraceT :: commas valueLexemes s.values ++ [.sym .rbraceT, .sym .colonT]
  | .createTable s =>
    .sym .createT :: .sym .tableT :: .id s.tableName :: .sym .lbraceT ::
      commas colLexemes s.colAttrs ++ [.sym .rbraceT, .sym .colonT]
  | .drop s => [.sym .dropT, .sym .tableT, .id s.table, .sym .colonT]
  | .delete _ => []

def toSql (stmt : QueryStmt) : Bytes := text (stmtLexemes stmt)

def AttrOk (a : RelAttr) : Prop := (a.table = [] ∨ IsName a.table) ∧ IsName a.attr

def LiteralOk : Value → Prop
  | .string s => s ≠ [] ∧ '\''.toUInt8 ∉ s
  | .ints n => -2 ^ 63 < n.toInt
  | .nullA => True
  | _ => False

def OperandOk : Value → Prop
  | .relAttr a => AttrOk a
  | v => LiteralOk v

def CondOk (c : Condition) : Prop :=
  OperandOk c.left ∧ OperandOk c.right ∧ opToken c.op ≠ .badExpr

/-- Only `CHAR` and `VARCHAR` have a size. -/
def ColOk (c : ColAttr) : Prop :=
  IsName c.name ∧ ((c.type ∈ [str "INT", str "FLOAT"] ∧ c.size = 0) ∨
    (c.type ∈ [str "CHAR", str "VARCHAR"] ∧ c.size < 2 ^ 63))

def Writable : QueryStmt → Prop
  | .select s => (s.selist = [⟨[], str "*"⟩] ∨ s.selist ≠ [] ∧ ∀ a ∈ s.selist, AttrOk a) ∧
      (s.fromList ≠ [] ∧ ∀ name ∈ s.fromList, IsName name) ∧ ∀ c ∈ s.condList, CondOk c
  | .insert s => IsName s.tableName ∧ (∀ name ∈ s.cols, IsName name) ∧
      s.values ≠ [] ∧ ∀ v ∈ s.values, LiteralOk v
  | .createTable s => IsName s.tableName ∧ s.colAttrs ≠ [] ∧ ∀ c ∈ s.colAttrs, ColOk c
  | .drop s => IsName s.table
  | .delete _ => False

instance : DecidablePred AttrOk := fun a =>
  inferInstanceAs (Decidable ((a.table = [] ∨ IsName a.table) ∧ IsName a.attr))

instance : DecidablePred LiteralOk
  | .string s => inferInstanceAs (Decidable (s ≠ [] ∧ '\''.toUInt8 ∉ s))
  | .ints n => inferInstanceAs (Decidable (-2 ^ 63 < n.toInt))
  | .nullA => .isTrue trivial
  | .undefined => .isFalse id
  | .relAttr _ => .isFalse id
  | .floats _ => .isFalse id

instance : DecidablePred OperandOk
  | .relAttr a => inferInstanceAs (Decidable (AttrOk a))
  | .string s => inferInstanceAs (Decidable (LiteralOk (.string s)))
  | .ints n => inferInstanceAs (Decidable (LiteralOk (.ints n)))
  | .nullA => .isTrue trivial
  | .undefined => .isFalse id
  | .floats _ => .isFalse id

instance : DecidablePred CondOk := fun c =>
  inferInstanceAs (Decidable (OperandOk c.left ∧ OperandOk c.right ∧ opToken c.op ≠ .badExpr))

instance : DecidablePred ColOk := fun c =>
  inferInstanceAs (Decidable (IsName c.name ∧ ((c.type ∈ [str "INT", str "FLOAT"] ∧ c.size = 0) ∨
    (c.type ∈ [str "CHAR", str "VARCHAR"] ∧ c.size < 2 ^ 63))))

instance : DecidablePred Writable
  | .select s => inferInstanceAs (Decidable ((s.selist = [⟨[], str "*"⟩] ∨ s.selist ≠ [] ∧ _) ∧
      (s.fromList ≠ [] ∧ _) ∧ _))
  | .insert s => inferInstanceAs (Decidable (IsName s.tableName ∧ _ ∧ s.values ≠ [] ∧ _))
  | .createTable s => inferInstanceAs (Decidable (IsName s.tableName ∧ s.colAttrs ≠ [] ∧ _))
  | .drop s => inferInstanceAs (Decidable (IsName s.table))
  | .delete _ => .isFalse id

/-- The lexemes are those of `a`, and they have texts. -/
def Written {α : Type} (P : List Lexeme → α → Prop) (f : α → List Lexeme) (a : α) : Prop :=
  P (f a) a ∧ ∀ u ∈ f a, Spellable u

theorem Written.commas {α : Type} {P : List Lexeme → α → Prop} {f : α → List Lexeme} {as : List α}
    (hne : as ≠ []) (h : ∀ a ∈ as, Written P f a) : Written (CommaList P) (commas f) as := by
  induction as with
  | nil => exact absurd rfl hne
  | cons a as ih =>
    obtain ⟨ha, has⟩ := List.forall_mem_cons.1 h
    cases as with
    | nil => exact ⟨.one ha.1, ha.2⟩
    | cons b as =>
      obtain ⟨hlist, hspell⟩ := ih (by simp) has
      refine ⟨.more ha.1 hlist, fun u hu => ?_⟩
      rcases List.mem_append.1 hu with hu | hu
      · exact ha.2 u hu
      · rcases List.mem_cons.1 hu with rfl | hu
        · decide
        · exact hspell u hu

theorem written_id {name : Bytes} (h : IsName name) : Written IsId (fun name => [.id name]) name :=
  ⟨.mk name, List.forall_mem_singleton.2 h⟩

theorem written_attr {a : RelAttr} (h : AttrOk a) : Written IsAttr attrLexemes a := by
  obtain ⟨table, attr⟩ := a
  obtain ⟨htable, hattr⟩ := h
  unfold Written attrLexemes
  dsimp only at htable hattr ⊢
  split_ifs with hnil
  · subst hnil
    exact ⟨.plain attr, List.forall_mem_singleton.2 hattr⟩
  · refine ⟨.qualified table attr, ?_⟩
    simp only [List.forall_mem_cons]
    exact ⟨htable.resolve_left hnil, by decide, hattr, by simp⟩

theorem written_literal {v : Value} (h : LiteralOk v) : Written IsLiteral valueLexemes v := by
  cases v with
  | undefined => exact h.elim
  | relAttr a => exact h.elim
  | string s => exact ⟨.string s, List.forall_mem_singleton.2 h⟩
  | ints n => exact ⟨.integer n, List.forall_mem_singleton.2 h⟩
  | floats f => exact h.elim
  | nullA => exact ⟨.null, List.forall_mem_singleton.2 (by decide)⟩

theorem OperandOk.cases {v : Value} (h : OperandOk v) :
    (∃ a, v = .relAttr a ∧ AttrOk a) ∨ LiteralOk v := by
  cases v with
  | relAttr a => exact .inl ⟨a, rfl, h⟩
  | _ => exact .inr h

theorem written_operand {v : Value} (h : OperandOk v) : Written IsOperand valueLexemes v := by
  rcases h.cases with ⟨a, rfl, ha⟩ | hv
  · exact ⟨.attr (written_attr ha).1, (written_attr ha).2⟩
  · exact ⟨.literal (written_literal hv).1, (written_literal hv).2⟩

theorem isOp_opToken {op : CondOp} (h : opToken op ≠ .badExpr) :
    IsOp (opToken op) op ∧ symText (opToken op) ≠ [] := by
  cases op
  case notEq => exact ⟨.notEq, by decide⟩
  case eq => exact ⟨.eq, by decide⟩
  case greater => exact ⟨.greater, by decide⟩
  case smaller => exact ⟨.smaller, by decide⟩
  case inOp => exact ⟨.inOp, by decide⟩
  case is => exact ⟨.is, by decide⟩
  all_goals exact absurd rfl h

theorem written_cond {c : Condition} (h : CondOk c) : Written IsCond condLexemes c := by
  obtain ⟨hl, hr, hop⟩ := h
  obtain ⟨hop, hsym⟩ := isOp_opToken hop
  refine ⟨.mk (written_operand hl).1 hop (written_operand hr).1, ?_⟩
  rw [condLexemes, List.forall_mem_append, List.forall_mem_cons]
  exact ⟨(written_operand hl).2, hsym, (written_operand hr).2⟩

theorem longToSize_ofNat {k : ℕ} (h : k < 2 ^ 63) : Parser.longToSize (.ofNat k) = k := by
  rw [Parser.longToSize, Int64.toInt_ofNat_of_lt h]
  omega

theorem spellable_brackets {u : Lexeme} (h : Spellable u) :
    ∀ v ∈ [.sym .lbraceT, u, .sym .rbraceT], Spellable v := by
  simp only [List.forall_mem_cons]
  exact ⟨by decide, h, by decide, by simp⟩

theorem written_type {c : ColAttr} (h : ColOk c) :
    IsType (typeLexemes c) (c.type, c.size) ∧ ∀ u ∈ typeLexemes c, Spellable u := by
  obtain ⟨name, type, size⟩ := c
  obtain ⟨_, ⟨htype, hsize⟩ | ⟨htype, hsize⟩⟩ := h
  · dsimp only at htype hsize
    subst hsize
    rcases List.mem_pair.1 htype with rfl | rfl
    · exact ⟨.int, List.forall_mem_singleton.2 (by decide)⟩
    · exact ⟨.float, List.forall_mem_singleton.2 (by decide)⟩
  · have hn : Spellable (.integer (.ofNat size)) := by
      rw [Spellable, Int64.toInt_ofNat_of_lt hsize]
      omega
    have hsize := longToSize_ofNat hsize
    rcases List.mem_pair.1 htype with rfl | rfl
    · have hsym : Spellable (.sym .sCharT) := by decide
      have htype := IsType.char (.ofNat size)
      rw [hsize] at htype
      refine ⟨htype, List.forall_mem_cons.2 ⟨hsym, ?_⟩⟩
      exact spellable_brackets hn
    · have hsym : Spellable (.sym .sVarcharT) := by decide
      have htype := IsType.varchar (.ofNat size)
      rw [hsize] at htype
      refine ⟨htype, List.forall_mem_cons.2 ⟨hsym, ?_⟩⟩
      exact spellable_brackets hn

theorem written_col {c : ColAttr} (h : ColOk c) : Written IsColAttr colLexemes c :=
  ⟨.mk c.name (written_type h).1, List.forall_mem_cons.2 ⟨h.1, (written_type h).2⟩⟩

theorem written_selist {sel : List RelAttr}
    (h : sel = [⟨[], str "*"⟩] ∨ sel ≠ [] ∧ ∀ a ∈ sel, AttrOk a) :
    Written IsSelist selistLexemes sel := by
  unfold Written selistLexemes
  split_ifs with hstar
  · subst hstar
    exact ⟨.star, List.forall_mem_singleton.2 (by decide)⟩
  · obtain ⟨hne, hall⟩ := h.resolve_left hstar
    obtain ⟨hlist, hspell⟩ := Written.commas hne fun a ha => written_attr (hall a ha)
    exact ⟨.attrs hlist, hspell⟩

theorem written_names {names : List Bytes} (hne : names ≠ []) (h : ∀ name ∈ names, IsName name) :
    Written (CommaList IsId) (commas fun name => [.id name]) names :=
  Written.commas hne fun name hname => written_id (h name hname)

theorem written_cols {cols : List Bytes} (h : ∀ name ∈ cols, IsName name) :
    Written IsCols colsLexemes cols := by
  cases cols with
  | nil => exact ⟨.none, by simp [colsLexemes]⟩
  | cons c cs =>
    obtain ⟨hlist, hspell⟩ := written_names (by simp) h
    refine ⟨.some hlist, ?_⟩
    simp only [colsLexemes, List.cons_append, List.forall_mem_cons, List.forall_mem_append]
    exact ⟨by decide, hspell, by decide,
      by simp⟩

variable {stmt : QueryStmt} {stof : Bytes → Option UInt32} {input : Bytes} {p : ℕ}

/-- Every lexeme of a statement that can be written has a text. -/
theorem spellable_stmtLexemes (h : Writable stmt) : ∀ u ∈ stmtLexemes stmt, Spellable u := by
  cases stmt with
  | select s =>
    obtain ⟨hsel, ⟨hne, hfrom⟩, hconds⟩ := h
    have hw : ∀ u ∈ whereLexemes s.condList, Spellable u := by
      cases hc : s.condList with
      | nil => simp [whereLexemes]
      | cons c cs =>
        rw [hc] at hconds
        have hlist := (Written.commas (by simp) fun c hc => written_cond (hconds c hc)).2
        exact List.forall_mem_cons.2 ⟨by decide, hlist⟩
    simp only [stmtLexemes, List.cons_append, List.forall_mem_cons, List.forall_mem_append]
    exact ⟨by decide, ⟨⟨(written_selist hsel).2, by decide, (written_names hne hfrom).2⟩, hw⟩,
      by decide, by simp⟩
  | insert s =>
    obtain ⟨hname, hcols, hne, hvalues⟩ := h
    have hv := (Written.commas hne fun v hv => written_literal (hvalues v hv)).2
    simp only [stmtLexemes, List.cons_append, List.forall_mem_cons, List.forall_mem_append]
    exact ⟨by decide, by decide, hname, ⟨(written_cols hcols).2, by decide, by decide, hv⟩,
      by decide, by decide, by simp⟩
  | createTable s =>
    obtain ⟨hname, hne, hcols⟩ := h
    have hc := (Written.commas hne fun c hc => written_col (hcols c hc)).2
    simp only [stmtLexemes, List.cons_append, List.forall_mem_cons, List.forall_mem_append]
    exact ⟨by decide, by decide, hname, by decide, hc, by decide, by decide, by simp⟩
  | drop s =>
    simp only [stmtLexemes, List.forall_mem_cons]
    exact ⟨by decide, by decide, h, by decide, by simp⟩
  | delete s => simp [stmtLexemes]

theorem reads_rendered {us : List Lexeme} (h : Rendered us (input.drop p)) :
    ∃ q, Reads (lexeme stof input) p us q := by
  induction us generalizing p with
  | nil => exact ⟨p, rfl⟩
  | cons u us ih =>
    obtain ⟨q, hq, hrest⟩ := lexeme_rendered stof h
    obtain ⟨r, hr⟩ := ih hrest
    exact ⟨r, q, hq, hr⟩

theorem parses_select {s : SelectStmt} (h : Writable (.select s)) {q : ℕ}
    (hr : Reads (lexeme stof input) 0 (stmtLexemes (.select s)) q) :
    ∃ l, Parser.doParse stof input = some (.ok (.select s, l)) := by
  obtain ⟨selist, fromList, conds⟩ := s
  obtain ⟨hsel, ⟨hne, hfrom⟩, hconds⟩ := h
  have hs := (written_selist hsel).1
  have hf := (written_names hne hfrom).1
  cases conds with
  | nil =>
    rw [stmtLexemes, whereLexemes, List.append_nil] at hr
    obtain ⟨l, hl, _⟩ := accepts_word ⟨.sym .selectT, _, rfl, select_complete hs hf⟩ hr (.empty q)
    exact ⟨l, hl⟩
  | cons c cs =>
    obtain ⟨hc, _⟩ := Written.commas (by simp) fun c hc => written_cond (hconds c hc)
    have hw := selectWhere_complete hs hf hc
    -- the `;` is not read when there are conditions, only looked at
    obtain ⟨r, hpre, hcolon⟩ := reads_append.1 hr
    have hcontinue : ∀ ts, Lexeme.sym .colonT ∉ continuing ts := by
      rintro ts (⟨h, _⟩ | h) <;> cases h
    obtain ⟨l, hl, _⟩ := accepts_word ⟨.sym .selectT, _, rfl, hw⟩ hpre
      (hcolon.ends (admits_cons.2 (hcontinue _)))
    exact ⟨l, hl⟩

theorem parses_stmt (h : Writable stmt) {q : ℕ}
    (hr : Reads (lexeme stof input) 0 (stmtLexemes stmt) q) :
    ∃ l, Parser.doParse stof input = some (.ok (stmt, l)) := by
  have hclosed : Parser.statementRule.word (stmtLexemes stmt) ∅ stmt →
      ∃ l, Parser.doParse stof input = some (.ok (stmt, l)) := by
    intro hw
    obtain ⟨l, hl, _⟩ := accepts_word hw hr (.empty q)
    exact ⟨l, hl⟩
  cases stmt with
  | select s => exact parses_select h hr
  | insert s =>
    obtain ⟨_, hcols, hne, hvalues⟩ := h
    have hc := (written_cols hcols).1
    have hv := (Written.commas hne fun v hv => written_literal (hvalues v hv)).1
    exact hclosed ⟨.sym .insertT, _, rfl,
      word_insertRule.2 ⟨rfl, s.tableName, _, _, _, _, hc, hv, rfl, rfl⟩⟩
  | createTable s =>
    obtain ⟨_, hne, hcols⟩ := h
    have hc := (Written.commas hne fun c hc => written_col (hcols c hc)).1
    exact hclosed ⟨.sym .createT, _, rfl,
      word_createRule.2 ⟨rfl, s.tableName, _, _, hc, rfl, rfl⟩⟩
  | drop s =>
    exact hclosed ⟨.sym .dropT, _, rfl, word_dropRule.2 ⟨rfl, .inr ⟨s.table, rfl, rfl⟩⟩⟩
  | delete s => exact h.elim

/-- A statement that can be written is read from every text of its lexemes, in any letter case of the
keywords and with any blanks; `toSql` is one. -/
theorem written_statements_are_parsed (stof : Bytes → Option UInt32) (h : Writable stmt) :
    Rendered (stmtLexemes stmt) (toSql stmt) ∧ ∀ input, Rendered (stmtLexemes stmt) input →
      ∃ l, Parser.doParse stof input = some (.ok (stmt, l)) := by
  refine ⟨rendered_text (spellable_stmtLexemes h), fun input hinput => ?_⟩
  obtain ⟨q, hr⟩ : ∃ q, Reads (lexeme stof input) 0 (stmtLexemes stmt) q := reads_rendered hinput
  exact parses_stmt h hr

theorem written_select_is_parsed : ∃ l, Parser.doParse (fun _ => none)
    (str " SELECT a , t . b FROM t WHERE a > -5 , t . b = 'x y' ;") =
      some (.ok (.select ⟨[⟨[], str "a"⟩, ⟨str "t", str "b"⟩], [str "t"],
        [⟨.relAttr ⟨[], str "a"⟩, .ints (-5), .greater⟩,
          ⟨.relAttr ⟨str "t", str "b"⟩, .string (str "x y"), .eq⟩]⟩, l)) := by
  have h : Writable (.select ⟨[⟨[], str "a"⟩, ⟨str "t", str "b"⟩], [str "t"],
      [⟨.relAttr ⟨[], str "a"⟩, .ints (-5), .greater⟩,
        ⟨.relAttr ⟨str "t", str "b"⟩, .string (str "x y"), .eq⟩]⟩) := by decide +kernel
  have hparsed := written_statements_are_parsed (fun _ => none) h
  exact hparsed.2 _ hparsed.1

end Tadis.Sql
