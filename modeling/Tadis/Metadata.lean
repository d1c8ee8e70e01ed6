import Tadis.JsonRoundTrip
import Tadis.Acceptance
import Tadis.SelectProject

/-!
# Table metadata

The schema of a table is kept in a JSON file. The writer puts blanks between the tokens; the reader
drops every white space, also inside strings, and takes one character more than the file has.
-/

namespace Tadis

open Pson

variable {ν : Type}

def ColumnType.toInt : ColumnType → ℤ
  | .int => 0
  | .float => 1
  | .varchar => 2
  | .char => 3
  | .unknown => 4
  | .other n _ => n.toInt

def ColumnType.ofInt32 (n : Int32) : ColumnType :=
  if h : n.toInt < 0 ∨ 4 < n.toInt then .other n h
  else if n.toInt = 0 then .int
  else if n.toInt = 1 then .float
  else if n.toInt = 2 then .varchar
  else if n.toInt = 3 then .char
  else .unknown

/-- `none` for a number that no `int` can hold. -/
def ColumnType.ofInt (n : ℤ) : Option ColumnType :=
  if (Int32.ofInt n).toInt = n then some (ofInt32 (Int32.ofInt n)) else none

theorem ColumnType.ofInt_toInt (t : ColumnType) : ofInt t.toInt = some t := by
  cases t with
  | other n h => rw [toInt, ofInt, Int32.ofInt_toInt, if_pos rfl, ofInt32, dif_pos h]
  | _ => decide

section

variable (ofInt : ℤ → ν) (trunc : ν → ℤ)

def Column.toJson (c : Column) : Json ν :=
  .object (build [(str "name", .string c.name), (str "type", .number (ofInt c.type.toInt)),
    (str "size", .number (ofInt c.size))])

/-- `none` where an assertion fails. -/
def Column.fromJson : Json ν → Option Column
  | .object obj =>
    match lookup (str "name") obj, lookup (str "type") obj, lookup (str "size") obj with
    | some (.string name), some (.number type), some (.number size) =>
      (ColumnType.ofInt (trunc type)).map
        (fun t => { type := t, name := name, size := (trunc size).toNat })
    | _, _, _ => none
  | _ => none

def Schema.toJson (s : Schema) : Json ν :=
  .object (build [(str "columns", .array (s.columns.map (Column.toJson ofInt)))])

/-- The columns are added to those that `s` has. -/
def Schema.fromJson (s : Schema) : Json ν → Option Schema
  | .object obj =>
    match lookup (str "columns") obj with
    | some (.array values) =>
      (values.mapM (Column.fromJson trunc)).map (fun cols => { columns := s.columns ++ cols })
    | _ => none
  | _ => none

end

namespace JsonFileRWer

def isSpace (c : UInt8) : Bool := c = 0x20 ∨ (0x09 ≤ c ∧ c ≤ 0x0D)

/-- The loop of `read`. It does not notice the end of the file before it has tried to read behind it,
and then it takes `ch`, which has no value. -/
def readChars (ch : UInt8) : Bytes → Bytes
  | [] => [ch]
  | c :: data => if isSpace c then readChars ch data else c :: readChars ch data

/-- `none` for a value that is no object. -/
def write (toString : ν → Bytes) : Json ν → Option Bytes
  | .object ms => some (print toString ms)
  | _ => none

def read (strtod : Bytes → Option ν) (ch : UInt8) (file : Bytes) (val : Json ν) :
    Option (Bool × Json ν) :=
  (parse strtod val (readChars ch file)).map (fun r => (r.1, r.2.1))

end JsonFileRWer

open JsonFileRWer

theorem readChars_eq (ch : UInt8) (file : Bytes) :
    readChars ch file = file.filter (fun c => !isSpace c) ++ [ch] := by
  induction file with
  | nil => rfl
  | cons c file ih =>
    rw [readChars, ih]
    by_cases h : isSpace c = true
    · rw [if_pos h, List.filter_cons_of_neg (by simp [h])]
    · rw [if_neg h, List.filter_cons_of_pos (by simp [h]), List.cons_append]

variable {ofInt : ℤ → ν} {trunc : ν → ℤ}

theorem Column.toJson_eq (ofInt : ℤ → ν) (c : Column) : c.toJson ofInt =
    .object [(str "name", .string c.name), (str "size", .number (ofInt c.size)),
      (str "type", .number (ofInt c.type.toInt))] := rfl

theorem ColumnType.natAbs_toInt_lt (t : ColumnType) : t.toInt.natAbs < 2 ^ 53 := by
  cases t with
  | other n _ =>
    have hge := n.le_toInt
    have hlt := n.toInt_lt
    rw [toInt]
    omega
  | _ => decide

/-- Doubles hold integers below `2 ^ 53`. -/
def ExactDoubles (ofInt : ℤ → ν) (trunc : ν → ℤ) : Prop :=
  ∀ n : ℤ, n.natAbs < 2 ^ 53 → trunc (ofInt n) = n

theorem Column.fromJson_toJson (he : ExactDoubles ofInt trunc) {c : Column} (hs : c.size < 2 ^ 53) :
    Column.fromJson trunc (c.toJson ofInt) = some c := by
  have htype := he _ c.type.natAbs_toInt_lt
  have hsize := he c.size hs
  rw [Column.toJson_eq]
  change (ColumnType.ofInt (trunc (ofInt c.type.toInt))).map _ = _
  rw [htype, hsize, ColumnType.ofInt_toInt]
  rfl

theorem Schema.fromJson_toJson (he : ExactDoubles ofInt trunc) {s : Schema}
    (hs : ∀ c ∈ s.columns, c.size < 2 ^ 53) :
    Schema.fromJson trunc ⟨[]⟩ (s.toJson ofInt) = some s := by
  have hcols : (s.columns.map (Column.toJson ofInt)).mapM (Column.fromJson trunc) =
      some s.columns := by
    rw [List.mapM_map]
    refine (mapM_eq_map (g := id) fun c hc => ?_).trans (congrArg some (List.map_id _))
    exact Column.fromJson_toJson he (hs c hc)
  change Option.map _ (List.mapM (Column.fromJson trunc) _) = _
  rw [hcols]
  rfl

variable {strtod : Bytes → Option ν} {s t w : Bytes}

def Solid (s : Bytes) : Prop := ∀ c ∈ s, isSpace c = false

instance (s : Bytes) : Decidable (Solid s) := List.decidableBAll _ s

def strip (s : Bytes) : Bytes := s.filter (fun c => !isSpace c)

theorem strip_append (s t : Bytes) : strip (s ++ t) = strip s ++ strip t := List.filter_append ..

theorem strip_cons {c : UInt8} (hc : isSpace c = false) (s : Bytes) : strip (c :: s) = c :: strip s :=
  List.filter_cons_of_pos (by simp [hc])

theorem Solid.strip (h : Solid s) : strip s = s :=
  List.filter_eq_self.2 fun c hc => by simp [h c hc]

theorem strip_ws (hw : JsonGrammar.IsWs w) : strip w = [] := by
  refine List.filter_eq_nil_iff.2 fun c hc => ?_
  rcases hw c hc with rfl | rfl | rfl | rfl <;> decide

theorem isSpace_digit {c : UInt8} (h : JsonGrammar.IsDigit c) : isSpace c = false := by
  rw [isSpace, decide_eq_false_iff_not]
  rintro (rfl | ⟨_, hc⟩)
  · exact absurd h (by decide)
  · exact absurd (UInt8.le_trans h.1 hc) (by decide)

theorem Solid.append (hs : Solid s) (ht : Solid t) : Solid (s ++ t) := by
  intro c hc
  exact (List.mem_append.1 hc).elim (hs c) (ht c)

theorem Solid.cons {c : UInt8} (hc : isSpace c = false) (ht : Solid t) : Solid (c :: t) :=
  List.forall_mem_cons.2 ⟨hc, ht⟩

theorem Solid.of_suffix (h : Solid s) (ht : t <:+ s) : Solid t := fun c hc => h c (ht.subset hc)

theorem solid_strip (t : Bytes) : Solid (strip t) := fun c hc => by
  simpa using (List.mem_filter.1 hc).2

theorem solid_nil : Solid [] := fun _ h => (List.not_mem_nil h).elim

theorem solid_isNumber (h : JsonGrammar.IsNumber t) : Solid t := by
  intro c hc
  rcases h.mem hc with hdigit | hmark
  · exact isSpace_digit hdigit
  · have hall : [(0x2B : UInt8), 0x2D, 0x2E, 0x65, 0x45].all (fun b => !isSpace b) = true := by decide
    simpa using List.all_eq_true.1 hall c hmark

/-- What is spelled is still spelled when the white space between the tokens is gone. -/
theorem Pson.Spells.strip {g : Goal ν} (h : Spells strtod g t) (hg : TextsGoal Solid g) :
    Spells strtod g (strip t) := by
  induction h with
  | null => exact .null
  | trueLit => exact .trueLit
  | falseLit => exact .falseLit
  | number ht hx =>
    rw [(solid_isNumber ht).strip]
    exact .number ht hx
  | string hs =>
    cases hg with
    | string h =>
      rw [List.cons_append, strip_cons rfl, strip_append, h.strip]
      exact .string hs
  | emptyArray => exact .emptyArray
  | array _ ih =>
    cases hg with
    | array h =>
      rw [List.cons_append, strip_cons rfl, strip_append]
      exact .array (ih h)
  | emptyObject => exact .emptyObject
  | object ho hw _ ih =>
    cases hg with
    | object hn h =>
      have hspells := Spells.object ho isWs_nil (ih fun m hm => ⟨hn m hm, h m hm⟩)
      rw [List.cons_append, List.cons_append, strip_cons rfl, strip_append, strip_append, strip_ws hw]
      exact hspells
  | oneValue _ ih => exact .oneValue (ih (hg _ (by simp)))
  | moreValues _ hw hw' _ ih ihs =>
    obtain ⟨hv, hvs⟩ := List.forall_mem_cons.1 hg
    have hspells := Spells.moreValues (ih hv) isWs_nil isWs_nil (ihs hvs)
    rw [strip_append, strip_append, strip_append, strip_ws hw, strip_cons rfl, strip_ws hw']
    exact hspells
  | @member name w w' v t hn hw hw' _ ih =>
    have hspells := Spells.member hn isWs_nil isWs_nil (ih hg.2)
    rw [strip_append, strip_append, strip_append, strip_cons rfl, strip_cons rfl, strip_cons rfl,
      hg.1.strip, strip_ws hw, strip_ws hw']
    exact hspells
  | oneMember _ hw ih =>
    have hspells := Spells.oneMember (ih (hg _ List.mem_cons_self)) isWs_nil
    rw [strip_append, strip_ws hw]
    exact hspells
  | moreMembers _ hw hw' _ ih ihs =>
    obtain ⟨hm, hms⟩ := List.forall_mem_cons.1 hg
    have hspells := Spells.moreMembers (ih hm) isWs_nil isWs_nil (ihs hms)
    rw [strip_append, strip_append, strip_append, strip_ws hw, strip_cons rfl, strip_ws hw']
    exact hspells

def Identifier (name : Bytes) : Prop := ∀ c ∈ name, Lexer.isIdPart c = true

instance (name : Bytes) : Decidable (Identifier name) := List.decidableBAll _ name

theorem isIdPart_plain {c : UInt8} (h : Lexer.isIdPart c = true) :
    isSpace c = false ∧ c ≠ 0x22 ∧ c ≠ 0x5C ∧ c ≠ 0 := by
  have hlow : 0x30 ≤ c ∧ c ≠ 0x5C := by
    rw [Lexer.isIdPart, decide_eq_true_iff, Lexer.isIdStart, Lexer.isDigit, decide_eq_true_iff,
      decide_eq_true_iff] at h
    rcases h with (⟨hl, hu⟩ | ⟨hl, hu⟩ | rfl) | ⟨hl, hu⟩
    · exact ⟨UInt8.le_trans (by decide) hl, by rintro rfl; revert hl; decide⟩
    · exact ⟨UInt8.le_trans (by decide) hl, by rintro rfl; revert hu; decide⟩
    · decide
    · exact ⟨hl, by rintro rfl; revert hu; decide⟩
  refine ⟨?_, ?_, hlow.2, ?_⟩
  · rw [isSpace, decide_eq_false_iff_not]
    rintro (rfl | ⟨_, hc⟩)
    · exact absurd hlow.1 (by decide)
    · exact absurd (UInt8.le_trans hlow.1 hc) (by decide)
  · rintro rfl
    exact absurd hlow.1 (by decide)
  · rintro rfl
    exact absurd hlow.1 (by decide)

theorem Identifier.solid (h : Identifier s) : Solid s := fun c hc => (isIdPart_plain (h c hc)).1

theorem Identifier.paired (h : Identifier s) : Paired s := by
  induction s with
  | nil => exact .nil
  | cons c s ih =>
    obtain ⟨hc, hs⟩ := List.forall_mem_cons.1 h
    obtain ⟨_, hq, hb, h0⟩ := isIdPart_plain hc
    exact .char hq hb h0 (ih hs)

theorem Pson.Texts.mono {P Q : Bytes → Prop} {v : Json ν} (h : Texts P v) (hPQ : ∀ s, P s → Q s) :
    Texts Q v := by
  induction h with
  | null => exact .null
  | bool => exact .bool
  | number => exact .number
  | string h => exact .string (hPQ _ h)
  | array _ ih => exact .array ih
  | object hn _ ih => exact .object (fun m hm => hPQ _ (hn m hm)) ih

theorem Column.texts {c : Column} (h : Identifier c.name) : Texts Identifier (c.toJson ofInt) := by
  rw [Column.toJson_eq]
  refine .object ?_ ?_
  · simp only [List.forall_mem_cons]
    exact ⟨by decide, by decide, by decide, by simp⟩
  · simp only [List.forall_mem_cons]
    exact ⟨.string h, .number, .number, by simp⟩

theorem Column.integral {c : Column} (h : c.size < 2 ^ 53) : Integral ofInt (c.toJson ofInt) := by
  rw [Column.toJson_eq]
  refine .object ?_ ?_
  · simp only [Ordered, List.pairwise_cons, List.forall_mem_cons]
    refine ⟨⟨by decide, by decide, by simp⟩, ⟨by decide, by simp⟩, by simp⟩
  · simp only [List.forall_mem_cons]
    exact ⟨.string, .number h, .number c.type.natAbs_toInt_lt, by simp⟩

theorem Schema.texts {s : Schema} (h : ∀ c ∈ s.columns, Identifier c.name) :
    Texts Identifier (s.toJson ofInt) := by
  have hcols : Texts Identifier (.array (s.columns.map (Column.toJson ofInt))) :=
    .array (List.forall_mem_map.2 fun c hc => Column.texts (h c hc))
  have hname : Identifier (str "columns") := by decide
  exact .object (List.forall_mem_singleton.2 hname) (List.forall_mem_singleton.2 hcols)

theorem Schema.integral {s : Schema} (h : ∀ c ∈ s.columns, c.size < 2 ^ 53) :
    Integral ofInt (s.toJson ofInt) := by
  have hcols : Integral ofInt (.array (s.columns.map (Column.toJson ofInt))) :=
    .array (List.forall_mem_map.2 fun c hc => Column.integral (h c hc))
  exact .object (List.pairwise_singleton _ _) (List.forall_mem_singleton.2 hcols)

variable {toString : ν → Bytes}

/-- An object whose strings and names have no white space comes back from its file. -/
theorem Pson.Spells.read_write {ms : List (Bytes × Json ν)}
    (h : Spells strtod (.value (.object ms)) (printValue toString (.object ms)))
    (hs : Texts Solid (.object ms)) (ch : UInt8) (v₀ : Json ν) :
    ∃ file, write toString (.object ms) = some file ∧
      JsonFileRWer.read strtod ch file v₀ = some (true, .object ms) := by
  have hparse := (h.strip hs).parses v₀ [ch]
  have hchars : readChars ch (print toString ms) =
      Tadis.strip (printValue toString (.object ms)) ++ [ch] := readChars_eq ch _
  refine ⟨print toString ms, rfl, ?_⟩
  rw [JsonFileRWer.read, hchars, hparse, Option.map_some]

/-- What `close` writes, `open` reads. -/
theorem Schema.read_write (hd : DoubleText ofInt toString strtod) (he : ExactDoubles ofInt trunc)
    {s : Schema} (hn : ∀ c ∈ s.columns, Identifier c.name) (hs : ∀ c ∈ s.columns, c.size < 2 ^ 53)
    (ch : UInt8) (v₀ : Json ν) :
    ∃ file v, write toString (s.toJson ofInt) = some file ∧
      JsonFileRWer.read strtod ch file v₀ = some (true, v) ∧
      Schema.fromJson trunc ⟨[]⟩ v = some s := by
  have htexts : Texts Identifier (s.toJson ofInt) := Schema.texts hn
  have hspells := (Schema.integral hs).spells hd (htexts.mono fun _ => Identifier.paired)
  have hsolid := htexts.mono fun _ => Identifier.solid
  obtain ⟨file, hwrite, hread⟩ := hspells.read_write hsolid ch v₀
  exact ⟨file, s.toJson ofInt, hwrite, hread, Schema.fromJson_toJson he hs⟩

open Tadis.Parser Sql Lexer

variable {stof : Bytes → Option UInt32} {input : Bytes} {l : Lexer} {create : CreateTableStmt}

theorem mem_of_commaList {α : Type} {P : List Lexeme → α → Prop} {f : α → Lexeme} {ts : List Lexeme}
    {as : List α} (h : CommaList P ts as) (hf : ∀ us a, P us a → f a ∈ us) : ∀ a ∈ as, f a ∈ ts := by
  induction h with
  | one h =>
    intro a ha
    obtain rfl := List.mem_singleton.1 ha
    exact hf _ _ h
  | more h _ ih =>
    intro a ha
    rcases List.mem_cons.1 ha with rfl | ha
    · exact List.mem_append_left _ (hf _ _ h)
    · exact List.mem_append_right _ (List.mem_cons_of_mem _ (ih a ha))

theorem mem_reads {π τ δ : Type} {source : π → Option (Except δ (τ × π))} {ts : List τ} {p q : π}
    {t : τ} (h : Recognition.Reads source p ts q) (ht : t ∈ ts) :
    ∃ p q, source p = some (.ok (t, q)) := by
  induction ts generalizing p with
  | nil => cases ht
  | cons u ts ih =>
    obtain ⟨r, hr, h⟩ := h
    rcases List.mem_cons.1 ht with rfl | ht
    · exact ⟨p, r, hr⟩
    · exact ih h ht

theorem identifier_of_parsed (h : doParse stof input = some (.ok (.createTable create, l))) :
    ∀ col ∈ create.colAttrs, Identifier col.name := by
  obtain ⟨ts, stop, hw, hr, _⟩ := doParse_ok_iff.1 ⟨l, h, rfl⟩
  rcases statement_sound hw with ⟨_, hs⟩ | ⟨_, _, htype⟩ | ⟨_, ⟨_, htype⟩ | ⟨_, htype⟩⟩
  · cases hs with
    | @createTable cs cols table hcols =>
      intro col hcol
      have hmem : .id col.name ∈ cs :=
        mem_of_commaList (f := fun c => .id c.name) hcols (by rintro us c ⟨⟩; simp) col hcol
      obtain ⟨p, q, hp⟩ := mem_reads hr (t := .id col.name) (by simp [hmem])
      exact (lexeme_id hp).2.1
  · cases htype
  · cases htype
  · cases htype

theorem bindColumn_name {col : ColAttr} {c : Column} (h : Binder.bindColumn col = some c) :
    c.name = col.name ∧ (c.type = .char ∨ c.size = 0) := by
  rw [Binder.bindColumn] at h
  split_ifs at h <;> cases h <;> simp

theorem mem_mapM {α β : Type} {f : α → Option β} {as : List α} {bs : List β}
    (h : as.mapM f = some bs) {b : β} (hb : b ∈ bs) : ∃ a ∈ as, f a = some b := by
  induction as generalizing bs with
  | nil =>
    cases h
    cases hb
  | cons a as ih =>
    simp only [List.mapM_cons, Option.bind_eq_bind, Option.bind_eq_some_iff, Option.pure_def,
      Option.some.injEq] at h
    obtain ⟨c, hc, cs, hcs, rfl⟩ := h
    rcases List.mem_cons.1 hb with rfl | hb
    · exact ⟨a, List.mem_cons_self, hc⟩
    · obtain ⟨a', ha', hfa⟩ := ih hcs hb
      exact ⟨a', List.mem_cons_of_mem _ ha', hfa⟩

theorem mem_bindCreate {catalog : Catalog} {exec : CreateTableExecuter} {c : Column}
    (h : Binder.bindCreate catalog create = some (.ok exec)) (hc : c ∈ exec.cols) :
    ∃ col ∈ create.colAttrs, Binder.bindColumn col = some c := by
  rw [Binder.bindCreate] at h
  split_ifs at h
  · simp at h
  · simp at h
  · obtain ⟨cols, hcols, rfl⟩ : ∃ cols, create.colAttrs.mapM Binder.bindColumn = some cols ∧
        CreateTableExecuter.mk create.tableName cols = exec := by simpa using h
    exact mem_mapM hcols hc

/-- The schema of a parsed `CREATE TABLE` comes back from its file. -/
theorem createTable_read_write (hd : DoubleText ofInt toString strtod)
    (he : ExactDoubles ofInt trunc) {catalog : Catalog} {exec : CreateTableExecuter}
    (hparse : doParse stof input = some (.ok (.createTable create, l)))
    (hbind : Binder.bindCreate catalog create = some (.ok exec))
    (hsize : ∀ c ∈ exec.cols, c.type = .char → c.size < 2 ^ 53) (ch : UInt8) (v₀ : Json ν) :
    ∃ file v, write toString (Schema.toJson ofInt ⟨exec.cols⟩) = some file ∧
      JsonFileRWer.read strtod ch file v₀ = some (true, v) ∧
      Schema.fromJson trunc ⟨[]⟩ v = some ⟨exec.cols⟩ := by
  have hcols : ∀ c ∈ exec.cols, Identifier c.name ∧ c.size < 2 ^ 53 := by
    intro c hc
    obtain ⟨col, hcol, hbindc⟩ := mem_bindCreate hbind hc
    obtain ⟨hname, hzero⟩ := bindColumn_name hbindc
    refine ⟨hname ▸ identifier_of_parsed hparse col hcol, ?_⟩
    rcases hzero with hchar | hzero
    · exact hsize c hc hchar
    · rw [hzero]
      decide
  exact Schema.read_write hd he (fun c hc => (hcols c hc).1) (fun c hc => (hcols c hc).2) ch v₀

theorem createTable_read_write_two :
    ∃ file v, write (fun n => decimal n ++ zeros)
        (Schema.toJson id ⟨[⟨.int, str "a", 0⟩, ⟨.char, str "b", 5⟩]⟩) = some file ∧
      JsonFileRWer.read readDouble 0 file .null = some (true, v) ∧
      Schema.fromJson id ⟨[]⟩ v = some ⟨[⟨.int, str "a", 0⟩, ⟨.char, str "b", 5⟩]⟩ := by
  have hparse : doParse (fun _ => some 0) (str "CREATE TABLE t (a INT, b CHAR(5));") =
      some (.ok (.createTable ⟨[⟨str "a", str "INT", 0⟩, ⟨str "b", str "CHAR", 5⟩], str "t"⟩,
        ⟨34, .ints 5⟩)) := by decide
  have hbind : Binder.bindCreate ⟨∅⟩ ⟨[⟨str "a", str "INT", 0⟩, ⟨str "b", str "CHAR", 5⟩], str "t"⟩ =
      some (.ok ⟨str "t", [⟨.int, str "a", 0⟩, ⟨.char, str "b", 5⟩]⟩) := rfl
  exact createTable_read_write doubleText_readDouble (fun _ _ => rfl) hparse hbind (by decide) 0 .null

end Tadis
