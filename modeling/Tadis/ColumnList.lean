import Tadis.Acceptance
import Tadis.RowCodec

/-!
# The column list of an `INSERT`

The parser hands the column list on and `bind_insert` never looks at it: the values are checked
against the columns of the schema and stored in the order in which they are written. What the list
asks for is the row of the plain `INSERT` whose values are put in the order of the schema.
-/

namespace Tadis

open Sql in
theorem Sql.accepts_insert {stof : Bytes → Option UInt32} {input table : Bytes}
    {cs vs : List Lexeme} {cols : List Bytes} {values : List Value} (hc : IsCols cs cols)
    (hv : CommaList IsLiteral vs values)
    (hall : AllLexemes stof input (.sym .insertT :: .sym .intoT :: .id table :: cs ++ .sym .valuesT ::
      .sym .lbraceT :: vs ++ [.sym .rbraceT, .sym .colonT])) :
    ∃ l, Parser.doParse stof input = some (.ok (.insert ⟨table, cols, values⟩, l)) := by
  obtain ⟨q, hr, _⟩ := hall
  have hw := word_insertRule.2 ⟨rfl, table, cs, cols, vs, values, hc, hv, rfl, rfl⟩
  obtain ⟨l, hl, _⟩ := accepts_word ⟨.sym .insertT, _, rfl, hw⟩ hr (.empty q)
  exact ⟨l, hl⟩

namespace Binder

variable {catalog : Catalog} {table : Bytes} {schema : Schema} {cols : List Bytes}
  {values : List Value}

/-- The values match the types of the columns one by one. -/
def MatchesTypes (schema : Schema) (values : List Value) : Prop :=
  values.length = schema.columns.length ∧
    (values.zip schema.columns).all (fun x => checkAttrType x.1.attrType x.2.type) = true

/-- The values match the types of the columns that the list names. -/
def NamedTypes (schema : Schema) (cols : List Bytes) (values : List Value) : Prop :=
  values.length = cols.length ∧ ∀ x ∈ cols.zip values, ∀ c ∈ schema.columns, c.name = x.1 →
    checkAttrType x.2.attrType c.type = true

def schemaOrder (schema : Schema) (cols : List Bytes) (values : List Value) : List Value :=
  schema.columns.map (fun c => values.getD (cols.idxOf c.name) .undefined)

/-- The two lists of values are stored as the same fields. -/
def SameFields (schema : Schema) (vals vals' : List Value) : Prop :=
  List.zipWith encodeValue schema.columns vals = List.zipWith encodeValue schema.columns vals'

/-- The row that the statement stores, `none` when it is refused. -/
def storedRow (catalog : Catalog) (insert : InsertStmt) : Option Bytes :=
  match bindInsert catalog insert with
  | .error _ => none
  | .ok e => (Tuple.createTuple e.values e.schema).map Tuple.data

structure FollowsColumns (catalog : Catalog) (table : Bytes) (schema : Schema) (cols : List Bytes)
    (values : List Value) : Prop where
  named : ∀ e, bindInsert catalog ⟨table, cols, values⟩ = .ok e → ∀ x ∈ cols.zip values,
    ∃ j c w, schema.columnIdx x.1 = some j ∧ schema.columns[j]? = some c ∧ e.values[j]? = some w ∧
      encodeValue c w = encodeValue c x.2
  rejected : ¬ NamedTypes schema cols values →
    bindInsert catalog ⟨table, cols, values⟩ = .error { rc := .columnTypeMismatch }
  asPlain : values.length = cols.length → storedRow catalog ⟨table, cols, values⟩ =
    storedRow catalog ⟨table, [], schemaOrder schema cols values⟩

/-- The values match the types in both orders and give the same fields, or they match in neither. -/
def SameInBothOrders (schema : Schema) (cols : List Bytes) (values : List Value) : Prop :=
  (NamedTypes schema cols values ∧ MatchesTypes schema values ∧
      SameFields schema values (schemaOrder schema cols values)) ∨
    (¬ NamedTypes schema cols values ∧ ¬ MatchesTypes schema values)

theorem bindInsert_of_matches (cols : List Bytes) (ht : catalog.getTable table = some schema)
    (h : MatchesTypes schema values) : bindInsert catalog ⟨table, cols, values⟩ =
      .ok { table := table, schema := schema, values := values } := by
  unfold bindInsert
  rw [ht]
  dsimp only
  rw [if_neg (not_not.2 h.1), if_pos h.2]

theorem bindInsert_of_not_matches (cols : List Bytes) (ht : catalog.getTable table = some schema)
    (h : ¬ MatchesTypes schema values) :
    bindInsert catalog ⟨table, cols, values⟩ = .error { rc := .columnTypeMismatch } := by
  unfold bindInsert
  rw [ht]
  dsimp only
  by_cases hlen : values.length = schema.columns.length
  · rw [if_neg (not_not.2 hlen), if_neg (fun hall => h ⟨hlen, hall⟩)]
  · rw [if_pos hlen]

@[simp] theorem length_schemaOrder :
    (schemaOrder schema cols values).length = schema.columns.length := List.length_map _

theorem matchesTypes_schemaOrder_iff : MatchesTypes schema (schemaOrder schema cols values) ↔
    ∀ c ∈ schema.columns,
      checkAttrType (values.getD (cols.idxOf c.name) .undefined).attrType c.type = true := by
  have hzip : (schemaOrder schema cols values).zip schema.columns =
      schema.columns.map (fun c => (values.getD (cols.idxOf c.name) .undefined, c)) := by
    have hz := List.zip_map' (l := schema.columns)
      (f := fun c : Column => values.getD (cols.idxOf c.name) .undefined) (g := id)
    rwa [List.map_id] at hz
  rw [MatchesTypes, hzip, List.all_map, List.all_eq_true]
  simp

theorem length_eq_of_perm (hp : cols.Perm (schema.columns.map Column.name)) :
    cols.length = schema.columns.length := by
  rw [hp.length_eq, List.length_map]

theorem idxOf_name_lt (hp : cols.Perm (schema.columns.map Column.name)) {c : Column}
    (hc : c ∈ schema.columns) : cols.idxOf c.name < cols.length :=
  List.idxOf_lt_length_iff.2 (hp.mem_iff.2 (List.mem_map_of_mem hc))

theorem mem_zip_of_column (hp : cols.Perm (schema.columns.map Column.name))
    (hlen : values.length = cols.length) {c : Column} (hc : c ∈ schema.columns) :
    (c.name, values.getD (cols.idxOf c.name) .undefined) ∈ cols.zip values := by
  have hlt := idxOf_name_lt hp hc
  have hlt' : cols.idxOf c.name < values.length := hlen ▸ hlt
  have hz : cols.idxOf c.name < (cols.zip values).length := by
    rw [List.length_zip, hlen, min_self]
    exact hlt
  have hmem := List.getElem_mem hz
  rwa [List.getElem_zip, List.getElem_idxOf, List.getElem_eq_getD .undefined] at hmem

theorem getD_of_mem_zip (hnd : cols.Nodup) {x : Bytes × Value} (hx : x ∈ cols.zip values) :
    values.getD (cols.idxOf x.1) .undefined = x.2 := by
  obtain ⟨i, hi, rfl⟩ := List.getElem_of_mem hx
  rw [List.getElem_zip]
  dsimp only
  rw [hnd.idxOf_getElem, ← List.getElem_eq_getD]

theorem matchesTypes_schemaOrder (hnd : cols.Nodup)
    (hp : cols.Perm (schema.columns.map Column.name)) (hlen : values.length = cols.length) :
    MatchesTypes schema (schemaOrder schema cols values) ↔ NamedTypes schema cols values := by
  rw [matchesTypes_schemaOrder_iff, NamedTypes, and_iff_right hlen]
  constructor
  · intro h x hx c hc hname
    rw [← getD_of_mem_zip hnd hx, ← hname]
    exact h c hc
  · intro h c hc
    exact h _ (mem_zip_of_column hp hlen hc) c hc rfl

theorem sameFields_iff (hlen : values.length = schema.columns.length) :
    SameFields schema values (schemaOrder schema cols values) ↔
      ∀ (j : ℕ) c w, schema.columns[j]? = some c → values[j]? = some w →
        encodeValue c w = encodeValue c (values.getD (cols.idxOf c.name) .undefined) := by
  rw [SameFields, List.ext_getElem?_iff]
  constructor
  · intro h j c w hc hw
    have hj := h j
    rw [List.getElem?_zipWith, List.getElem?_zipWith, schemaOrder, List.getElem?_map, hc, hw] at hj
    exact Option.some.inj hj
  · intro h j
    rw [List.getElem?_zipWith, List.getElem?_zipWith, schemaOrder, List.getElem?_map]
    cases hc : schema.columns[j]? with
    | none => rfl
    | some c =>
      have hj : j < values.length := hlen ▸ (List.getElem?_eq_some_iff.1 hc).1
      have hw : values[j]? = some values[j] := List.getElem?_eq_getElem hj
      rw [hw]
      exact congrArg some (h j c _ hc hw)

theorem columnIdx_name (hn : (schema.columns.map Column.name).Nodup) {j : ℕ} {c : Column}
    (hc : schema.columns[j]? = some c) : schema.columnIdx c.name = some j := by
  obtain ⟨hj, rfl⟩ := List.getElem?_eq_some_iff.1 hc
  rw [Schema.columnIdx, List.findIdx?_eq_some_iff_getElem]
  refine ⟨hj, decide_eq_true rfl, fun i hi => ?_⟩
  have hne := List.nodup_iff_injective_get.1 hn
  intro he
  have hname : (schema.columns[i]).name = (schema.columns[j]).name := of_decide_eq_true he
  have hij := @hne ⟨i, by rw [List.length_map]; exact hi.trans hj⟩
    ⟨j, by rw [List.length_map]; exact hj⟩ (by simpa using hname)
  exact hi.ne (Fin.mk.inj hij)

/-- Each named column holds its value exactly when the two orders give the same fields. -/
theorem named_iff_sameFields (hn : (schema.columns.map Column.name).Nodup)
    (hp : cols.Perm (schema.columns.map Column.name)) (hlen : values.length = cols.length) :
    (∀ x ∈ cols.zip values, ∃ j c w, schema.columnIdx x.1 = some j ∧ schema.columns[j]? = some c ∧
      values[j]? = some w ∧ encodeValue c w = encodeValue c x.2) ↔
        SameFields schema values (schemaOrder schema cols values) := by
  have hlen' : values.length = schema.columns.length := hlen.trans (length_eq_of_perm hp)
  rw [sameFields_iff hlen']
  constructor
  · intro h j c w hc hw
    have hmem := mem_zip_of_column hp hlen (List.mem_of_getElem? hc)
    obtain ⟨i, c', w', hi, hc', hw', he⟩ := h _ hmem
    obtain rfl : j = i := Option.some.inj ((columnIdx_name hn hc).symm.trans hi)
    obtain rfl : c = c' := Option.some.inj (hc.symm.trans hc')
    obtain rfl : w = w' := Option.some.inj (hw.symm.trans hw')
    exact he
  · intro h x hx
    have hname : x.1 ∈ schema.columns.map Column.name :=
      hp.mem_iff.1 (List.of_mem_zip hx).1
    obtain ⟨c, hc, hcx⟩ := List.mem_map.1 hname
    obtain ⟨j, hj, rfl⟩ := List.getElem_of_mem hc
    have hcol : schema.columns[j]? = some schema.columns[j] := List.getElem?_eq_getElem hj
    obtain ⟨w, hw⟩ := Option.ne_none_iff_exists'.1
      (fun hno => absurd (hlen' ▸ hj) (not_lt.2 (List.getElem?_eq_none_iff.1 hno)))
    refine ⟨j, _, w, hcx ▸ columnIdx_name hn hcol, hcol, hw, ?_⟩
    rw [h j _ _ hcol hw, hcx, getD_of_mem_zip (hp.nodup_iff.2 hn) hx]

theorem encodeRow_congr {columns : List Column} {vals vals' : List Value}
    (hlen : vals.length = columns.length) (hlen' : vals'.length = columns.length)
    (h : List.zipWith encodeValue columns vals = List.zipWith encodeValue columns vals') :
    encodeRow vals columns = encodeRow vals' columns := by
  induction columns generalizing vals vals' with
  | nil => rw [List.length_eq_zero_iff.1 hlen, List.length_eq_zero_iff.1 hlen']
  | cons c columns ih =>
    obtain ⟨v, vals, rfl⟩ := List.exists_cons_of_length_eq_add_one hlen
    obtain ⟨v', vals', rfl⟩ := List.exists_cons_of_length_eq_add_one hlen'
    rw [List.zipWith_cons_cons, List.zipWith_cons_cons, List.cons.injEq] at h
    rw [encodeRow, encodeRow, h.1, ih (Nat.succ.inj hlen) (Nat.succ.inj hlen') h.2]

theorem storedRow_of_matches (ht : catalog.getTable table = some schema)
    (h : MatchesTypes schema values) :
    storedRow catalog ⟨table, cols, values⟩ = encodeRow values schema.columns := by
  rw [storedRow, bindInsert_of_matches cols ht h]
  dsimp only
  rw [Tuple.createTuple, Option.map_map]
  exact Option.map_id_apply

theorem storedRow_of_not_matches (ht : catalog.getTable table = some schema)
    (h : ¬ MatchesTypes schema values) : storedRow catalog ⟨table, cols, values⟩ = none := by
  rw [storedRow, bindInsert_of_not_matches cols ht h]

theorem followsColumns_iff (ht : catalog.getTable table = some schema)
    (hn : (schema.columns.map Column.name).Nodup)
    (hp : cols.Perm (schema.columns.map Column.name)) :
    FollowsColumns catalog table schema cols values ↔ SameInBothOrders schema cols values := by
  have hnd : cols.Nodup := hp.nodup_iff.2 hn
  by_cases hm : MatchesTypes schema values
  · have hlen : values.length = cols.length := hm.1.trans (length_eq_of_perm hp).symm
    have hbind := bindInsert_of_matches cols ht hm
    constructor
    · intro h
      have hnamed : NamedTypes schema cols values := by
        by_contra hno
        rw [h.rejected hno] at hbind
        cases hbind
      exact .inl ⟨hnamed, hm, (named_iff_sameFields hn hp hlen).1 (h.named _ hbind)⟩
    · rintro (⟨hnamed, _, hsame⟩ | ⟨_, hno⟩)
      · refine ⟨fun e he => ?_, fun hno => absurd hnamed hno, fun _ => ?_⟩
        · obtain rfl := Except.ok.inj (hbind.symm.trans he)
          exact (named_iff_sameFields hn hp hlen).2 hsame
        · rw [storedRow_of_matches ht hm,
            storedRow_of_matches ht ((matchesTypes_schemaOrder hnd hp hlen).2 hnamed)]
          exact encodeRow_congr hm.1 length_schemaOrder hsame
      · exact absurd hm hno
  · have hbind := bindInsert_of_not_matches cols ht hm
    constructor
    · intro h
      refine .inr ⟨fun hnamed => ?_, hm⟩
      -- the plain statement stores a row, and this one does not
      have hplain := (matchesTypes_schemaOrder hnd hp hnamed.1).2 hnamed
      obtain ⟨row, hrow⟩ := exists_encodeRow hplain.1 hplain.2
      have hstored := h.asPlain hnamed.1
      rw [storedRow_of_not_matches ht hm, storedRow_of_matches ht hplain, hrow] at hstored
      cases hstored
    · rintro (⟨_, hyes, _⟩ | ⟨hno, _⟩)
      · exact absurd hyes hm
      · refine ⟨fun e he => ?_, fun _ => hbind, fun hlen => ?_⟩
        · rw [hbind] at he
          cases he
        · rw [storedRow_of_not_matches ht hm, storedRow_of_not_matches ht]
          rwa [matchesTypes_schemaOrder hnd hp hlen]

open Sql in
/-- A complete `INSERT` with a column list reaches the binder as it is written, and it is bound and
stored as its list says exactly when the order of the list makes no difference. -/
theorem insert_columns_iff (ht : catalog.getTable table = some schema)
    (hn : (schema.columns.map Column.name).Nodup)
    (hp : cols.Perm (schema.columns.map Column.name)) :
    (∀ stof input cs vs, IsCols cs cols → CommaList IsLiteral vs values →
      AllLexemes stof input (.sym .insertT :: .sym .intoT :: .id table :: cs ++ .sym .valuesT ::
        .sym .lbraceT :: vs ++ [.sym .rbraceT, .sym .colonT]) →
      ∃ l, Parser.doParse stof input = some (.ok (.insert ⟨table, cols, values⟩, l))) ∧
    (FollowsColumns catalog table schema cols values ↔ SameInBothOrders schema cols values) :=
  ⟨fun _ _ _ _ hc hv hall => accepts_insert hc hv hall, followsColumns_iff ht hn hp⟩

def twoInts : Schema := ⟨[⟨.int, str "a", 0⟩, ⟨.int, str "b", 0⟩]⟩

def twoIntsCatalog : Catalog := Catalog.createTable ⟨∅⟩ (str "t") twoInts.columns

/-- `insert_columns_iff` for a list in the order of the schema. -/
theorem insert_columns_in_order :
    FollowsColumns twoIntsCatalog (str "t") twoInts [str "a", str "b"] [.ints 1, .ints 2] := by
  refine (insert_columns_iff (by decide) (by decide) (List.Perm.refl _)).2.2 (.inl ⟨?_, ?_, ?_⟩)
  · rw [NamedTypes]
    decide
  · rw [MatchesTypes]
    decide
  · rw [SameFields]
    decide

/-- `INSERT INTO t (b, a) VALUES (1, 2)` stores 1 in column `a`. -/
theorem insert_columns_swapped : ¬ ∀ catalog table schema cols values,
    catalog.getTable table = some schema → (schema.columns.map Column.name).Nodup →
      cols.Perm (schema.columns.map Column.name) →
        FollowsColumns catalog table schema cols values := by
  intro h
  have hlaw := h twoIntsCatalog (str "t") twoInts [str "b", str "a"] [.ints 1, .ints 2] (by decide)
    (by decide) (by decide)
  have hrow := hlaw.asPlain rfl
  exact absurd hrow (by decide)

end Binder

end Tadis
