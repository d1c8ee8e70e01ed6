import Tadis.RowCodec
import Tadis.Pull

/-!
# A query selects and projects

What a `SELECT` over one table means: the tuples of the scan for which every condition holds, in scan
order, each cut down to the selected columns. The executer tree that the binder builds delivers
exactly these.
-/

namespace Tadis

def ColumnType.attrType : ColumnType → AttrType
  | .int => .ints
  | .float => .floats
  | .varchar => .string
  | .char => .string
  | .unknown | .other _ _ => .undefined

/-- What an operator says about the sign of a comparison. -/
def CondOp.holds : CondOp → ℤ → Bool
  | .eq, c => c = 0
  | .notEq, c => c ≠ 0
  | .greater, c => 0 < c
  | .smaller, c => c < 0
  | _, _ => false

/-- The value of an operand in a tuple: that of the named column, or the constant. -/
def operandValue (schema : Schema) (t : Tuple) : Value → Option Value
  | .relAttr a => (schema.columnIdx a.attr).bind (t.valueAt schema)
  | v => some v

def condHolds (floatSub : UInt32 → UInt32 → ℤ) (schema : Schema) (t : Tuple) (cnd : Condition) :
    Bool :=
  match operandValue schema t cnd.left, operandValue schema t cnd.right with
  | some a, some b =>
    match a.compare floatSub b with
    | some c => cnd.op.holds c
    | none => false
  | _, _ => false

def selectedBy (floatSub : UInt32 → UInt32 → ℤ) (schema : Schema) (conds : List Condition)
    (t : Tuple) : Bool := conds.all (condHolds floatSub schema t)

/-- The selected columns; `*` stands for all columns in order. -/
def selectedIdx (schema : Schema) (selist : List RelAttr) : List ℕ :=
  selist.flatMap (fun a => if a.attr = str "*" then List.range schema.columns.length
    else (schema.columnIdx a.attr).toList)

/-- Output position `j` holds the value of the `j`-th selected column. -/
def Projects (schema : Schema) (idx : List ℕ) (output : Schema) (t out : Tuple) : Prop :=
  ∀ j i, idx[j]? = some i → ∃ v, t.valueAt schema i = some v ∧ out.valueAt output j = some v

/-- Every attribute of the select list is `*` or names a column of the table. -/
def NamesColumns (schema : Schema) (table : Bytes) (selist : List RelAttr) : Prop :=
  ∀ a ∈ selist, (a.table = [] ∨ a.table = table) ∧
    (a.attr = str "*" ∨ ∃ i, schema.columnIdx a.attr = some i)

def operandType (schema : Schema) : Value → Option AttrType
  | .relAttr a =>
    ((schema.columnIdx a.attr).bind (fun i => schema.columns[i]?)).map (fun c => c.type.attrType)
  | v => some v.attrType

/-- A comparison of two integers, two floats or two strings. -/
structure Typed (schema : Schema) (cnd : Condition) : Prop where
  op : cnd.op = .eq ∨ cnd.op = .notEq ∨ cnd.op = .greater ∨ cnd.op = .smaller
  operands : ∃ t, (t = .ints ∨ t = .floats ∨ t = .string) ∧
    operandType schema cnd.left = some t ∧ operandType schema cnd.right = some t

/-- The encoding of a row: integers in 32 bits, every `CHAR` as wide as declared, and no string
longer than its length can say. -/
def WellFormed (schema : Schema) (t : Tuple) : Prop :=
  ∃ vals, vals.length = schema.columns.length ∧ encodeRow vals schema.columns = some t.data ∧
    ∀ (i : ℕ) (c : Column) (v : Value), schema.columns[i]? = some c → vals[i]? = some v →
      c.Fits v ∧ c.Exact v

variable {schema : Schema} {t : Tuple}

theorem encodeValue_attrType {c : Column} {v : Value} {bytes : Bytes}
    (h : encodeValue c v = some bytes) : v.attrType = c.type.attrType := by
  cases v with
  | ints n => rw [(encodeValue_ints h).1]; rfl
  | floats f => rw [(encodeValue_floats h).1]; rfl
  | string s =>
    rcases encodeValue_string h with ⟨ht, _⟩ | ⟨ht, _⟩ <;> rw [ht] <;> rfl
  | undefined => cases h
  | relAttr a => cases h
  | nullA => cases h

theorem encodeValue_of_encodeRow {cols : List Column} {vals : List Value} {row : Bytes}
    (h : encodeRow vals cols = some row) {i : ℕ} {c : Column} {v : Value}
    (hc : cols[i]? = some c) (hv : vals[i]? = some v) : ∃ bytes, encodeValue c v = some bytes := by
  induction cols generalizing vals row i with
  | nil => simp at hc
  | cons c' cols ih =>
    cases vals with
    | nil => simp at hv
    | cons v' vals =>
      obtain ⟨bytes, rest, hb, hrest, _⟩ := encodeRow_cons h
      cases i with
      | zero =>
        obtain ⟨rfl, rfl⟩ : c' = c ∧ v' = v := ⟨by simpa using hc, by simpa using hv⟩
        exact ⟨bytes, hb⟩
      | succ i => exact ih hrest hc hv

theorem WellFormed.valueAt (h : WellFormed schema t) {i : ℕ} {c : Column}
    (hc : schema.columns[i]? = some c) :
    ∃ v bytes, t.valueAt schema i = some v ∧ encodeValue c v = some bytes ∧ c.Fits v ∧
      c.Exact v := by
  obtain ⟨vals, hlen, hrow, hall⟩ := h
  have hfits : RowFits schema.columns vals := by
    intro j d w hd hw
    exact ⟨(hall j d w hd hw).1, fun _ => (hall j d w hd hw).2⟩
  have hread := readsFrom_of_rowFits hrow hfits
  have hi : i < vals.length := by
    rw [hlen]
    exact (List.getElem?_eq_some_iff.1 hc).1
  have hv : vals[i]? = some vals[i] := List.getElem?_eq_getElem hi
  obtain ⟨bytes, hb⟩ := encodeValue_of_encodeRow hrow hc hv
  exact ⟨_, bytes, hread i _ hv, hb, hall i c _ hc hv⟩

theorem columnIdx_lt {name : Bytes} {i : ℕ} (h : schema.columnIdx name = some i) :
    ∃ c, schema.columns[i]? = some c := by
  obtain ⟨hlt, _⟩ := List.findIdx?_eq_some_iff_getElem.1 h
  exact ⟨_, List.getElem?_eq_getElem hlt⟩

theorem mapM_of_forall₂ {α β : Type} {f : α → Option β} {l : List α} {ys : List β}
    (h : List.Forall₂ (fun x y => f x = some y) l ys) : l.mapM f = some ys := by
  induction h with
  | nil => rfl
  | cons hx _ ih => simp [hx, ih]

theorem mapM_eq_map {α β : Type} {f : α → Option β} {g : α → β} {l : List α}
    (h : ∀ x ∈ l, f x = some (g x)) : l.mapM f = some (l.map g) := by
  apply mapM_of_forall₂
  exact List.forall₂_map_right_iff.2 (List.forall₂_same.2 h)

theorem getElem?_of_forall₂ {α β : Type} {R : α → β → Prop} {l : List α} {ys : List β}
    (h : List.Forall₂ R l ys) {j : ℕ} {x : α} (hx : l[j]? = some x) :
    ∃ y, ys[j]? = some y ∧ R x y := by
  induction h generalizing j with
  | nil => simp at hx
  | @cons x' y' l ys hR _ ih =>
    cases j with
    | zero =>
      obtain rfl : x' = x := by simpa using hx
      exact ⟨y', rfl, hR⟩
    | succ j => exact ih hx

theorem exists_mapM {α β : Type} {f : α → Option β} {R : α → β → Prop} {l : List α}
    (h : ∀ x ∈ l, ∃ y, f x = some y ∧ R x y) :
    ∃ ys, l.mapM f = some ys ∧ List.Forall₂ R l ys := by
  induction l with
  | nil => exact ⟨[], rfl, .nil⟩
  | cons x l ih =>
    obtain ⟨y, hy, hR⟩ := h x List.mem_cons_self
    obtain ⟨ys, hys, hRs⟩ := ih (fun z hz => h z (List.mem_cons_of_mem _ hz))
    exact ⟨y :: ys, by simp [hy, hys], .cons hR hRs⟩

variable (floatSub : UInt32 → UInt32 → ℤ)

theorem exists_operandExpress {w : Value} {type : AttrType} (h : operandType schema w = some type) :
    ∃ e, Binder.operandExpress schema w = some e ∧ ∀ t, WellFormed schema t →
      ∃ v, operandValue schema t w = some v ∧ v.attrType = type ∧
        e.evaluate floatSub t schema = some v := by
  cases w with
  | relAttr a =>
    obtain ⟨c, hc, rfl⟩ := Option.map_eq_some_iff.1 h
    obtain ⟨i, hi, hc⟩ := Option.bind_eq_some_iff.1 hc
    have he : Binder.operandExpress schema (.relAttr a) = some (.columnValue i) := by
      rw [Binder.operandExpress, Binder.colValueExpress, hi, Option.map_some]
    refine ⟨.columnValue i, he, fun t ht => ?_⟩
    obtain ⟨v, bytes, hv, hb, _⟩ := ht.valueAt hc
    exact ⟨v, by rw [operandValue, hi, Option.bind_some, hv], encodeValue_attrType hb, hv⟩
  | _ =>
    obtain rfl := Option.some.inj h
    exact ⟨_, rfl, fun t _ => ⟨_, rfl, rfl, rfl⟩⟩

theorem exists_convert {op : CondOp} (h : op = .eq ∨ op = .notEq ∨ op = .greater ∨ op = .smaller) :
    ∃ type, convert op = some type ∧ ∀ c, type.holds c = op.holds c := by
  rcases h with rfl | rfl | rfl | rfl <;> exact ⟨_, rfl, fun _ => rfl⟩

/-- A typed condition compiles to an expression that is `1` where it holds and `-1` elsewhere. -/
theorem exists_conditionExpress {cnd : Condition} (h : Typed schema cnd) :
    ∃ e, Binder.conditionExpress schema cnd = some e ∧ ∀ t, WellFormed schema t →
      e.evaluate floatSub t schema =
        some (.ints (if condHolds floatSub schema t cnd then 1 else -1)) := by
  obtain ⟨type, htype, hleft, hright⟩ := h.operands
  obtain ⟨left, hl, hlv⟩ := exists_operandExpress floatSub hleft
  obtain ⟨right, hr, hrv⟩ := exists_operandExpress floatSub hright
  obtain ⟨op, hop, hholds⟩ := exists_convert h.op
  refine ⟨.comparsion left right op, by rw [Binder.conditionExpress, hl, hr, hop], fun t ht => ?_⟩
  obtain ⟨a, ha, hat, hae⟩ := hlv t ht
  obtain ⟨b, hb, hbt, hbe⟩ := hrv t ht
  obtain ⟨c, hc⟩ := Value.compare_isSome floatSub htype hat hbt
  simp only [Expression.evaluate, hae, hbe, hc, Option.map_some, condHolds, ha, hb, hholds]

theorem evaluateFrom_eq {conds : List Condition} {es : List Expression}
    (h : List.Forall₂ (fun cnd e => e.evaluate floatSub t schema =
      some (.ints (if condHolds floatSub schema t cnd then 1 else -1))) conds es) :
    FilterExpression.evaluateFrom floatSub t schema (.ints 1) es =
      some (.ints (if selectedBy floatSub schema conds t then 1 else -1)) := by
  induction h with
  | nil => rfl
  | @cons cnd e conds es he _ ih =>
    rw [FilterExpression.evaluateFrom, he]
    cases hc : condHolds floatSub schema t cnd
    · simp [selectedBy, hc]
    · simpa [selectedBy, hc] using ih

/-- Whether a filter keeps a tuple, `none` where the evaluation goes wrong. -/
def FilterExpression.accepts (e : FilterExpression) (schema : Schema) (t : Tuple) : Option Bool :=
  match e.evaluate floatSub t schema with
  | some (.ints n) => some (n = 1)
  | _ => none

theorem exists_filterExecuter {conds : List Condition} (h : ∀ cnd ∈ conds, Typed schema cnd) :
    ∃ e, Binder.filterExecuter schema conds = some e ∧ ∀ t, WellFormed schema t →
      e.accepts floatSub schema t = some (selectedBy floatSub schema conds t) := by
  obtain ⟨es, hes, hall⟩ := exists_mapM (fun cnd hcnd => exists_conditionExpress floatSub (h cnd hcnd))
  refine ⟨⟨es⟩, by rw [Binder.filterExecuter, hes, Option.map_some], fun t ht => ?_⟩
  have hev := evaluateFrom_eq floatSub (hall.imp (fun _ _ he => he t ht))
  rw [FilterExpression.accepts, FilterExpression.evaluate, hev]
  cases selectedBy floatSub schema conds t <;> rfl

variable {σ : Type} {scan : σ → Option (Except RC Tuple × σ)}

theorem filterNext_eq (e : FilterExpression) (fuel : ℕ) (s : σ) :
    Executer.filterNext floatSub e schema scan fuel s =
      Pull.filter (e.accepts floatSub schema) scan fuel s := by
  induction fuel generalizing s with
  | zero => rfl
  | succ fuel ih =>
    rw [Executer.filterNext, Pull.filter]
    rcases scan s with _ | ⟨_ | t, s'⟩
    · rfl
    · rfl
    · simp only [FilterExpression.accepts]
      rcases e.evaluate floatSub t schema with _ | v
      · rfl
      · cases v with
        | ints n =>
          by_cases hn : n = 1
          · simp [hn]
          · simpa [hn] using ih s'
        | _ => rfl

/-- The tuple that a projection makes of one tuple of its child. -/
def ProjectionExpression.project (e : ProjectionExpression) (childSchema schema : Schema)
    (t : Tuple) : Option Tuple :=
  (e.children.mapM (Expression.evaluate floatSub t childSchema)).bind
    (fun values => Tuple.createTuple values schema)

theorem projectionNext_eq (e : ProjectionExpression) (childSchema schema : Schema) (s : σ) :
    Executer.projectionNext floatSub e childSchema schema scan s =
      Pull.map (e.project floatSub childSchema schema) scan s := by
  rw [Executer.projectionNext, Pull.map]
  rcases scan s with _ | ⟨_ | t, s'⟩
  · rfl
  · rfl
  · dsimp only [ProjectionExpression.project]
    cases e.children.mapM (Expression.evaluate floatSub t childSchema) <;> rfl

theorem outputColumns_eq {table : Bytes} {selist : List RelAttr}
    (h : NamesColumns schema table selist) :
    Binder.outputColumns schema selist = some (selectedIdx schema selist) := by
  rw [Binder.outputColumns, mapM_eq_map (g := fun a => if a.attr = str "*" then
    List.range schema.columns.length else (schema.columnIdx a.attr).toList)]
  · rfl
  · intro a ha
    rw [Binder.selectedColumns]
    split_ifs with hstar
    · rfl
    · obtain ⟨i, hi⟩ := (h a ha).2.resolve_left hstar
      rw [hi]
      rfl

theorem exists_copySchema (schema : Schema) (selist : List RelAttr) :
    ∃ output, schema.copySchema (selectedIdx schema selist) = some output ∧
      List.Forall₂ (fun i c => schema.columns[i]? = some c) (selectedIdx schema selist)
        output.columns := by
  have hlt : ∀ i ∈ selectedIdx schema selist, ∃ c, schema.columns[i]? = some c ∧
      schema.columns[i]? = some c := by
    intro i hi
    obtain ⟨a, _, hi⟩ := List.mem_flatMap.1 hi
    split_ifs at hi
    · have hc := List.getElem?_eq_getElem (List.mem_range.1 hi)
      exact ⟨_, hc, hc⟩
    · obtain ⟨c, hc⟩ := columnIdx_lt (Option.mem_toList.1 hi)
      exact ⟨c, hc, hc⟩
  obtain ⟨cols, hcols, hall⟩ := exists_mapM hlt
  exact ⟨⟨cols⟩, by rw [Schema.copySchema, hcols, Option.map_some], hall⟩

theorem exists_selectedRow (ht : WellFormed schema t) {idx : List ℕ} {cols : List Column}
    (h : List.Forall₂ (fun i c => schema.columns[i]? = some c) idx cols) :
    ∃ vals row, List.Forall₂ (fun i v => t.valueAt schema i = some v) idx vals ∧
      vals.length = cols.length ∧ encodeRow vals cols = some row ∧ RowFits cols vals := by
  induction h with
  | nil => exact ⟨[], [], .nil, rfl, rfl, fun i c v hc => by simp at hc⟩
  | @cons i c idx cols hc _ ih =>
    obtain ⟨vals, row, hread, hlen, hrow, hfits⟩ := ih
    obtain ⟨v, bytes, hv, hb, hfit, hexact⟩ := ht.valueAt hc
    refine ⟨v :: vals, bytes ++ row, .cons hv hread, by simp [hlen], ?_, ?_⟩
    · rw [encodeRow, hb, hrow]
    · exact rowFits_cons.2 ⟨hfit, fun _ => hexact, hfits⟩

theorem exists_project {idx : List ℕ} {output : Schema}
    (h : List.Forall₂ (fun i c => schema.columns[i]? = some c) idx output.columns)
    (ht : WellFormed schema t) :
    ∃ out, ProjectionExpression.project floatSub ⟨idx.map .columnValue⟩ schema output t = some out ∧
      Projects schema idx output t out := by
  obtain ⟨vals, row, hread, hlen, hrow, hfits⟩ := exists_selectedRow ht h
  have hvals : (idx.map Expression.columnValue).mapM (Expression.evaluate floatSub t schema) =
      some vals := by
    rw [List.mapM_map]
    exact mapM_of_forall₂ hread
  refine ⟨⟨row, {}⟩, ?_, fun j i hi => ?_⟩
  · rw [ProjectionExpression.project, hvals, Option.bind_some, Tuple.createTuple, hrow]
    rfl
  · obtain ⟨v, hv, hval⟩ := getElem?_of_forall₂ hread hi
    exact ⟨v, hval, readsFrom_of_rowFits hrow hfits j v hv⟩

namespace Binder

theorem bindSelect_eq {catalog : Catalog} {select : SelectStmt} {table : Bytes}
    (hsel : select.selist ≠ []) (hfrom : select.fromList = [table])
    (htable : catalog.getTable table = some schema)
    (hq : ∀ a ∈ select.selist, a.table = [] ∨ a.table = table) :
    bindSelect catalog select = bindQuery table schema select := by
  have hfind : select.selist.find? (fun a => a.table ≠ [] ∧ table ≠ a.table) = none := by
    simp only [List.find?_eq_none, decide_eq_true_eq]
    rintro a ha ⟨hne, hother⟩
    exact hother ((hq a ha).resolve_left hne).symm
  unfold bindSelect
  rw [hfrom]
  split
  · exact absurd ‹_› hsel
  · cases ‹[table] = []›
  · cases ‹[table] = _ :: _ :: _›
  · obtain rfl : table = _ := by simpa using ‹[table] = [_]›
    rw [hfind]
    dsimp only
    rw [htable]

/-- The scan, filtered when there are conditions, delivers the selected tuples. -/
theorem exists_child {conds : List Condition} (table : Bytes) {s u : σ} {tuples : List Tuple}
    {rc : RC} (htyped : ∀ cnd ∈ conds, Typed schema cnd) (hscan : Pull.Drains scan s tuples rc u)
    (hrows : ∀ t ∈ tuples, WellFormed schema t) :
    ∃ child : Executer, (if conds = [] then some (Executer.seqScan table schema)
        else (filterExecuter schema conds).map
          (fun e => .filter e (.seqScan table schema) schema)) = some child ∧
      child.schema = schema ∧ ∀ fuel, tuples.length < fuel →
        Pull.Drains (child.next floatSub scan fuel) s
          (tuples.filter (selectedBy floatSub schema conds)) rc u := by
  by_cases hnil : conds = []
  · subst hnil
    refine ⟨.seqScan table schema, rfl, rfl, fun fuel _ => ?_⟩
    have hself : tuples.filter (selectedBy floatSub schema []) = tuples :=
      List.filter_eq_self.2 (fun t _ => rfl)
    rw [hself]
    exact hscan
  · obtain ⟨e, he, haccepts⟩ := exists_filterExecuter floatSub htyped
    refine ⟨.filter e (.seqScan table schema) schema, by rw [if_neg hnil, he]; rfl, rfl,
      fun fuel hfuel => ?_⟩
    have hnext : (Executer.filter e (.seqScan table schema) schema).next floatSub scan fuel =
        Pull.filter (e.accepts floatSub schema) scan fuel :=
      funext (fun s => filterNext_eq floatSub e fuel s)
    rw [hnext]
    exact hscan.filter (fun t ht => haccepts t (hrows t ht)) hfuel

/-- Pulling from the executer of a typed query over well-formed tuples delivers the selected tuples
in scan order, each projected to the selected columns, and stops as the scan stops. -/
theorem select_projects {catalog : Catalog} {select : SelectStmt} {table : Bytes} {s u : σ}
    {tuples : List Tuple} {rc : RC} (hsel : select.selist ≠ []) (hfrom : select.fromList = [table])
    (htable : catalog.getTable table = some schema)
    (hnames : NamesColumns schema table select.selist)
    (htyped : ∀ cnd ∈ select.condList, Typed schema cnd) (hscan : Pull.Drains scan s tuples rc u)
    (hrows : ∀ t ∈ tuples, WellFormed schema t) :
    ∃ e outs, bindSelect catalog select = some (.ok e) ∧
      schema.copySchema (selectedIdx schema select.selist) = some e.schema ∧
      List.Forall₂ (Projects schema (selectedIdx schema select.selist) e.schema)
        (tuples.filter (selectedBy floatSub schema select.condList)) outs ∧
      ∀ fuel, tuples.length < fuel → Pull.Drains (e.next floatSub scan fuel) s outs rc u := by
  obtain ⟨output, hcopy, hall⟩ := exists_copySchema schema select.selist
  obtain ⟨child, hchild, hschema, hdrains⟩ :=
    exists_child floatSub table htyped hscan hrows
  let idx := selectedIdx schema select.selist
  let e : ProjectionExpression := ⟨idx.map .columnValue⟩
  have hproject : ∀ t ∈ tuples.filter (selectedBy floatSub schema select.condList),
      ∃ out, e.project floatSub schema output t = some out ∧ Projects schema idx output t out :=
    fun t ht => exists_project floatSub hall (hrows t (List.mem_of_mem_filter ht))
  obtain ⟨outs, houts, hprojects⟩ := exists_mapM hproject
  refine ⟨.projection e child output, outs, ?_, hcopy, hprojects, fun fuel hfuel => ?_⟩
  · rw [bindSelect_eq hsel hfrom htable fun a ha => (hnames a ha).1, bindQuery, hchild]
    dsimp only
    rw [outputColumns_eq hnames]
    dsimp only
    rw [hcopy, Option.map_some]
  · obtain ⟨ys, hys, hd⟩ := (hdrains fuel hfuel).map (R := fun t out =>
      e.project floatSub schema output t = some out) (fun t ht => by
        obtain ⟨out, hout, _⟩ := hproject t ht
        exact ⟨out, hout, hout⟩)
    obtain rfl : ys = outs := Option.some.inj ((mapM_of_forall₂ hys).symm.trans houts)
    have hnext : (Executer.projection e child output).next floatSub scan fuel =
        Pull.map (e.project floatSub schema output) (child.next floatSub scan fuel) := by
      funext s
      rw [Executer.next, hschema]
      exact projectionNext_eq floatSub e schema output s
    rw [hnext]
    exact hd

/-- `select_projects` for `SELECT name, * FROM t WHERE id > 1` over two rows. -/
theorem select_projects_greater :
    ∃ e outs, bindSelect
        (Catalog.createTable ⟨∅⟩ (str "t") [⟨.int, str "id", 0⟩, ⟨.char, str "name", 3⟩])
        ⟨[⟨[], str "name"⟩, ⟨[], str "*"⟩], [str "t"],
          [⟨.relAttr ⟨[], str "id"⟩, .ints 1, .greater⟩]⟩ = some (.ok e) ∧
      outs.length = 1 ∧ ∀ fuel, 2 < fuel →
        Pull.Drains (e.next (fun _ _ => 0) (Pull.fromList RC.recordIsDeleted) fuel)
          [⟨encodeInt 1 ++ str "abc", {}⟩, ⟨encodeInt 2 ++ str "xyz", {}⟩] outs .recordIsDeleted
          [] := by
  let schema : Schema := ⟨[⟨.int, str "id", 0⟩, ⟨.char, str "name", 3⟩]⟩
  let select : SelectStmt := ⟨[⟨[], str "name"⟩, ⟨[], str "*"⟩], [str "t"],
    [⟨.relAttr ⟨[], str "id"⟩, .ints 1, .greater⟩]⟩
  let tuples : List Tuple := [⟨encodeInt 1 ++ str "abc", {}⟩, ⟨encodeInt 2 ++ str "xyz", {}⟩]
  have htable : (Catalog.createTable ⟨∅⟩ (str "t")
      [⟨.int, str "id", 0⟩, ⟨.char, str "name", 3⟩]).getTable (str "t") = some schema := by decide
  have hfrom : select.fromList = [str "t"] := rfl
  have hnames : NamesColumns schema (str "t") select.selist := by
    intro a ha
    fin_cases ha
    · exact ⟨.inl rfl, .inr ⟨1, by decide⟩⟩
    · exact ⟨.inl rfl, .inl rfl⟩
  have htyped : ∀ cnd ∈ select.condList, Typed schema cnd := by
    intro cnd hcnd
    obtain rfl := List.mem_singleton.1 hcnd
    exact ⟨.inr (.inr (.inl rfl)), .ints, .inl rfl, by decide, rfl⟩
  have hrow : ∀ t vals, vals.length = 2 → encodeRow vals schema.columns = some t.data →
      (∀ x ∈ schema.columns.zip vals, x.1.Fits x.2 ∧ x.1.Exact x.2) → WellFormed schema t := by
    intro t vals hlen hrow hall
    refine ⟨vals, hlen, hrow, fun i c v hc hv => ?_⟩
    exact hall (c, v) (List.mem_of_getElem? (List.getElem?_zip_eq_some.2 ⟨hc, hv⟩))
  have hrows : ∀ t ∈ tuples, WellFormed schema t := by
    intro t ht
    rcases List.mem_pair.1 ht with rfl | rfl
    · exact hrow _ [.ints 1, .string (str "abc")] rfl (by decide) (by decide)
    · exact hrow _ [.ints 2, .string (str "xyz")] rfl (by decide) (by decide)
  obtain ⟨e, outs, he, _, hproj, hd⟩ := select_projects (fun _ _ => 0) (by decide) hfrom htable hnames
    htyped (Pull.drains_fromList RC.recordIsDeleted tuples) hrows
  have hone : (tuples.filter (selectedBy (fun _ _ => 0) schema select.condList)).length = 1 := by
    decide
  exact ⟨e, outs, he, hproj.length_eq.symm.trans hone, hd⟩

end Binder

end Tadis
