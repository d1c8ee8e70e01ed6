import Tadis.Conditions
import Tadis.ColumnList

/-!
# The names of a query

A query may name columns in its select list and on both sides of a condition, with or without the
name of the table before them. The binder checks the qualifiers of the select list only, and asserts
that the columns of the conditions exist. The answer is the right one if the conditions are not
reached, or compile and are qualified by the table.
-/

namespace Tadis

def Value.refs : Value → List RelAttr
  | .relAttr a => [a]
  | _ => []

def Condition.refs (cnd : Condition) : List RelAttr := cnd.left.refs ++ cnd.right.refs

def Qualified (table : Bytes) (a : RelAttr) : Prop := a.table = [] ∨ a.table = table

structure Refers (schema : Schema) (table : Bytes) (a : RelAttr) : Prop where
  qualified : Qualified table a
  column : ∃ c ∈ schema.columns, c.name = a.attr

/-- Every attribute of the query belongs to its only table. -/
structure Resolves (catalog : Catalog) (select : SelectStmt) (table : Bytes) (schema : Schema) :
    Prop where
  fromList : select.fromList = [table]
  existing : catalog.getTable table = some schema
  selist : ∀ a ∈ select.selist,
    Refers schema table a ∨ Qualified table a ∧ a.attr = str "*"
  condList : ∀ cnd ∈ select.condList, ∀ a ∈ cnd.refs, Refers schema table a

namespace Binder

/-- The query gets an executer only if its names resolve, and an error otherwise. -/
structure AnswersByName (catalog : Catalog) (select : SelectStmt) : Prop where
  resolved : ∀ e, bindSelect catalog select = some (.ok e) →
    ∃ table schema, Resolves catalog select table schema
  refused : (∀ e, bindSelect catalog select ≠ some (.ok e)) →
    ∃ err, bindSelect catalog select = some (.error err) ∧ rcSuccess err.rc = false

/-- The query is not refused before its conditions are looked at. -/
structure ReachesConditions (catalog : Catalog) (select : SelectStmt) (table : Bytes)
    (schema : Schema) : Prop where
  selist : select.selist ≠ []
  fromList : select.fromList = [table]
  existing : catalog.getTable table = some schema
  qualified : ∀ a ∈ select.selist, Qualified table a

variable {catalog : Catalog} {select : SelectStmt} {table : Bytes} {schema : Schema}

theorem columnIdx_isSome_iff {name : Bytes} :
    (schema.columnIdx name).isSome ↔ ∃ c ∈ schema.columns, c.name = name := by
  rw [Schema.columnIdx, List.findIdx?_isSome, List.any_eq_true]
  simp only [decide_eq_true_eq]

theorem operandType_isSome_iff {v : Value} :
    (operandType schema v).isSome ↔ ∀ a ∈ v.refs, ∃ c ∈ schema.columns, c.name = a.attr := by
  rw [← operandExpress_isSome]
  cases v with
  | relAttr a =>
    rw [operandExpress, colValueExpress, Option.isSome_map, columnIdx_isSome_iff]
    simp only [Value.refs, List.forall_mem_singleton]
  | _ => simp [operandExpress, Value.refs]

theorem columns_of_compiles {cnd : Condition} (h : Compiles schema cnd) :
    ∀ a ∈ cnd.refs, ∃ c ∈ schema.columns, c.name = a.attr := by
  intro a ha
  rcases List.mem_append.1 ha with hleft | hright
  · exact operandType_isSome_iff.1 h.left a hleft
  · exact operandType_isSome_iff.1 h.right a hright

theorem namesColumns_iff {selist : List RelAttr} : NamesColumns schema table selist ↔
    ∀ a ∈ selist, Refers schema table a ∨ Qualified table a ∧ a.attr = str "*" := by
  apply forall₂_congr
  intro a _
  constructor
  · rintro ⟨hq, hstar | hcol⟩
    · exact .inr ⟨hq, hstar⟩
    · exact .inl ⟨hq, columnIdx_isSome_iff.1 (Option.isSome_iff_exists.2 hcol)⟩
  · rintro (⟨hq, hcol⟩ | ⟨hq, hstar⟩)
    · exact ⟨hq, .inr (Option.isSome_iff_exists.1 (columnIdx_isSome_iff.2 hcol))⟩
    · exact ⟨hq, .inl hstar⟩

/-- A query whose conditions compile is refused for the names of its select list only. -/
theorem bindQuery_cases (h : ∀ cnd ∈ select.condList, Compiles schema cnd)
    (hq : ∀ a ∈ select.selist, Qualified table a) :
    (NamesColumns schema table select.selist ∧
        ∃ e, bindQuery table schema select = some (.ok e)) ∨
      ¬ NamesColumns schema table select.selist ∧
        bindQuery table schema select = some (.error { rc := .columnNotExist }) := by
  obtain ⟨child, _, hchild, _⟩ := exists_scan (fun _ : Unit => none) (fun _ _ => 0) table h
  rw [bindQuery, hchild]
  dsimp only
  by_cases hnames : NamesColumns schema table select.selist
  · obtain ⟨output, hcopy, _⟩ := exists_copySchema schema select.selist
    refine .inl ⟨hnames, .projection ⟨(selectedIdx schema select.selist).map .columnValue⟩
      child output, ?_⟩
    rw [outputColumns_eq hnames]
    dsimp only
    rw [hcopy, Option.map_some]
  · refine .inr ⟨hnames, ?_⟩
    cases hout : outputColumns schema select.selist with
    | none => rfl
    | some idx => exact absurd (namesColumns_of_outputColumns hq hout) hnames

/-- Either the query is refused before its conditions are looked at, or it is bound to its table. -/
theorem bindSelect_reaches (catalog : Catalog) (select : SelectStmt) :
    (∃ err, bindSelect catalog select = some (.error err) ∧ rcSuccess err.rc = false ∧
        ∀ table schema, ¬ ReachesConditions catalog select table schema) ∨
      ∃ table schema, ReachesConditions catalog select table schema ∧
        bindSelect catalog select = bindQuery table schema select := by
  unfold bindSelect
  split
  · exact .inl ⟨_, rfl, rfl, fun _ _ h => h.selist ‹_›⟩
  · refine .inl ⟨_, rfl, rfl, fun _ _ h => ?_⟩
    exact absurd (h.fromList.symm.trans ‹select.fromList = []›) (by simp)
  · refine .inl ⟨_, rfl, rfl, fun _ _ h => ?_⟩
    exact absurd (h.fromList.symm.trans ‹select.fromList = _ :: _ :: _›) (by simp)
  · rename_i table hfrom hsel
    split
    · rename_i attr hattr
      refine .inl ⟨_, rfl, rfl, fun table' schema h => ?_⟩
      obtain rfl : table' = table := by simpa using h.fromList.symm.trans hfrom
      have hbad := List.find?_some hattr
      have hok := h.qualified attr (List.mem_of_find?_eq_some hattr)
      simp only [ne_eq, decide_eq_true_eq] at hbad
      exact hbad.2 (hok.resolve_left hbad.1).symm
    · rename_i hnone
      split
      · rename_i htable
        refine .inl ⟨_, rfl, rfl, fun table' schema h => ?_⟩
        obtain rfl : table' = table := by simpa using h.fromList.symm.trans hfrom
        rw [h.existing] at htable
        cases htable
      · rename_i schema htable
        refine .inr ⟨table, schema, ⟨hsel, hfrom, htable, fun a ha => ?_⟩, rfl⟩
        have hok := List.find?_eq_none.1 hnone a ha
        simp only [ne_eq, decide_eq_true_eq, not_and_or, not_not] at hok
        exact hok.imp id Eq.symm

theorem ReachesConditions.unique {table' : Bytes} {schema' : Schema}
    (h : ReachesConditions catalog select table schema)
    (h' : ReachesConditions catalog select table' schema') : table' = table ∧ schema' = schema := by
  obtain rfl : table' = table := by simpa using h'.fromList.symm.trans h.fromList
  exact ⟨rfl, Option.some.inj (h'.existing.symm.trans h.existing)⟩

theorem answersByName_iff_of_reaches (h : ReachesConditions catalog select table schema)
    (hbind : bindSelect catalog select = bindQuery table schema select) :
    AnswersByName catalog select ↔ (∀ cnd ∈ select.condList, Compiles schema cnd) ∧
      (NamesColumns schema table select.selist →
        ∀ cnd ∈ select.condList, ∀ a ∈ cnd.refs, Qualified table a) := by
  constructor
  · intro hanswer
    have hcomp : ∀ cnd ∈ select.condList, Compiles schema cnd := by
      by_contra hnot
      have hnone := hbind.trans (bindQuery_of_not_compiles hnot)
      obtain ⟨err, herr, _⟩ := hanswer.refused (fun e he => by simp [hnone] at he)
      simp [hnone] at herr
    refine ⟨hcomp, fun hnames cnd hcnd a ha => ?_⟩
    rcases bindQuery_cases hcomp h.qualified with ⟨_, e, he⟩ | ⟨hno, _⟩
    · obtain ⟨table', schema', hres⟩ := hanswer.resolved e (hbind.trans he)
      obtain rfl : table' = table := by simpa using hres.fromList.symm.trans h.fromList
      exact (hres.condList cnd hcnd a ha).qualified
    · exact absurd hnames hno
  · rintro ⟨hcomp, hqual⟩
    rcases bindQuery_cases hcomp h.qualified with ⟨hnames, e, he⟩ | ⟨_, herr⟩
    · refine ⟨fun _ _ => ⟨table, schema, h.fromList, h.existing, namesColumns_iff.1 hnames, ?_⟩,
        fun hno => absurd (hbind.trans he) (hno e)⟩
      intro cnd hcnd a ha
      exact ⟨hqual hnames cnd hcnd a ha, columns_of_compiles (hcomp cnd hcnd) a ha⟩
    · refine ⟨fun e he => ?_, fun _ => ⟨_, hbind.trans herr, rfl⟩⟩
      rw [hbind, herr] at he
      cases he

/-- A query is answered by its names exactly when its conditions are not reached, or compile and,
unless a name of the select list is unknown, are qualified by the table. -/
theorem answersByName_iff (catalog : Catalog) (select : SelectStmt) :
    AnswersByName catalog select ↔ ∀ table schema, ReachesConditions catalog select table schema →
      (∀ cnd ∈ select.condList, Compiles schema cnd) ∧
        (NamesColumns schema table select.selist →
          ∀ cnd ∈ select.condList, ∀ a ∈ cnd.refs, Qualified table a) := by
  rcases bindSelect_reaches catalog select with ⟨err, herr, hrc, hno⟩ | ⟨table, schema, h, hbind⟩
  · refine iff_of_true ⟨fun e he => ?_, fun _ => ⟨err, herr, hrc⟩⟩
      (fun table schema h => absurd h (hno table schema))
    rw [herr] at he
    cases he
  · rw [answersByName_iff_of_reaches h hbind]
    constructor
    · intro hconds table' schema' h'
      obtain ⟨rfl, rfl⟩ := h.unique h'
      exact hconds
    · exact fun hall => hall table schema h

/-- `SELECT a FROM t WHERE s.a = 1`. -/
def foreignCondition : SelectStmt :=
  ⟨[⟨[], str "a"⟩], [str "t"], [⟨.relAttr ⟨str "s", str "a"⟩, .ints 1, .eq⟩]⟩

/-- The condition is bound to the column `a` of `t`. -/
theorem foreign_condition_bound : ¬ ∀ catalog select, AnswersByName catalog select := by
  intro h
  obtain ⟨e, he⟩ : ∃ e, bindSelect twoIntsCatalog foreignCondition = some (.ok e) := ⟨_, rfl⟩
  obtain ⟨table, schema, hres⟩ := (h _ _).resolved e he
  obtain rfl : str "t" = table := (List.cons.inj hres.fromList).1
  have hrefers := hres.condList _ (List.mem_singleton.2 rfl) ⟨str "s", str "a"⟩ (by decide)
  exact absurd hrefers.qualified (by rw [Qualified]; decide)

end Binder

end Tadis
