import Tadis.SelectProject

/-!
# Conditions that compile

The binder asserts that the columns of a condition exist and that its operator is implemented, and the
expressions assert that the operands of a comparison have one type. Both are what a condition needs
to be evaluated.
-/

namespace Tadis

variable {floatSub : UInt32 → UInt32 → ℤ} {schema : Schema} {t : Tuple}

/-- The columns of a condition exist and its operator is implemented. -/
structure Compiles (schema : Schema) (cnd : Condition) : Prop where
  op : cnd.op = .eq ∨ cnd.op = .notEq ∨ cnd.op = .greater ∨ cnd.op = .smaller
  left : (operandType schema cnd.left).isSome
  right : (operandType schema cnd.right).isSome

/-- Each condition that the conditions before it let through for `t` can be compared. -/
def Comparable (floatSub : UInt32 → UInt32 → ℤ) (schema : Schema) (t : Tuple)
    (conds : List Condition) : Prop :=
  ∀ pre cnd post, conds = pre ++ cnd :: post →
    (∀ c ∈ pre, condHolds floatSub schema t c = true) → Typed schema cnd

theorem operandExpress_isSome (schema : Schema) (v : Value) :
    (Binder.operandExpress schema v).isSome = (operandType schema v).isSome := by
  cases v with
  | relAttr a =>
    rw [Binder.operandExpress, Binder.colValueExpress, operandType, Option.isSome_map,
      Option.isSome_map]
    cases hi : schema.columnIdx a.attr with
    | none => rfl
    | some i =>
      obtain ⟨c, hc⟩ := columnIdx_lt hi
      rw [Option.bind_some, hc]
      rfl
  | _ => rfl

theorem convert_isSome {op : CondOp} :
    (convert op).isSome ↔ op = .eq ∨ op = .notEq ∨ op = .greater ∨ op = .smaller := by
  cases op <;> simp [convert]

theorem conditionExpress_isSome {cnd : Condition} :
    (Binder.conditionExpress schema cnd).isSome ↔ Compiles schema cnd := by
  have hleft := operandExpress_isSome schema cnd.left
  have hright := operandExpress_isSome schema cnd.right
  rw [Binder.conditionExpress]
  constructor
  · intro h
    split at h
    · refine ⟨convert_isSome.1 ?_, ?_, ?_⟩ <;> simp_all
    · cases h
  · rintro ⟨hop, hl, hr⟩
    rw [← hleft, Option.isSome_iff_exists] at hl
    rw [← hright, Option.isSome_iff_exists] at hr
    obtain ⟨l, hl⟩ := hl
    obtain ⟨r, hr⟩ := hr
    obtain ⟨type, htype⟩ := Option.isSome_iff_exists.1 (convert_isSome.2 hop)
    rw [hl, hr, htype]
    rfl

theorem mapM_isSome {α β : Type} {f : α → Option β} {l : List α} :
    (l.mapM f).isSome ↔ ∀ x ∈ l, (f x).isSome := by
  induction l with
  | nil => simp
  | cons x l ih =>
    rw [List.mapM_cons, List.forall_mem_cons, ← ih]
    cases f x <;> cases l.mapM f <;> simp

theorem filterExecuter_isSome {conds : List Condition} :
    (Binder.filterExecuter schema conds).isSome ↔ ∀ cnd ∈ conds, Compiles schema cnd := by
  rw [Binder.filterExecuter, Option.isSome_map, mapM_isSome]
  exact forall₂_congr fun _ _ => conditionExpress_isSome

theorem evaluate_isSome {cnd : Condition} {e : Expression}
    (he : Binder.conditionExpress schema cnd = some e) (ht : WellFormed schema t) :
    (∃ v, e.evaluate floatSub t schema = some v) ↔ Typed schema cnd := by
  have hc := conditionExpress_isSome.1 (Option.isSome_of_mem he)
  obtain ⟨tl, htl⟩ := Option.isSome_iff_exists.1 hc.left
  obtain ⟨tr, htr⟩ := Option.isSome_iff_exists.1 hc.right
  obtain ⟨l, hl, hlv⟩ := exists_operandExpress floatSub htl
  obtain ⟨r, hr, hrv⟩ := exists_operandExpress floatSub htr
  obtain ⟨type, htype⟩ := Option.isSome_iff_exists.1 (convert_isSome.2 hc.op)
  rw [Binder.conditionExpress, hl, hr, htype] at he
  obtain rfl := Option.some.inj he
  obtain ⟨a, _, rfl, ha⟩ := hlv t ht
  obtain ⟨b, _, rfl, hb⟩ := hrv t ht
  rw [Expression.evaluate, ha, hb]
  dsimp only
  constructor
  · rintro ⟨v, hv⟩
    obtain ⟨c, hcomp, _⟩ := Option.map_eq_some_iff.1 hv
    obtain ⟨ty, hty, hat, hbt⟩ := Value.compare_isSome_iff.1 ⟨c, hcomp⟩
    exact ⟨hc.op, ty, hty, hat ▸ htl, hbt ▸ htr⟩
  · intro h
    obtain ⟨ty, hty, hleft, hright⟩ := h.operands
    have hat : a.attrType = ty := Option.some.inj (htl.symm.trans hleft)
    have hbt : b.attrType = ty := Option.some.inj (htr.symm.trans hright)
    obtain ⟨c, hcomp⟩ := Value.compare_isSome floatSub hty hat hbt
    exact ⟨_, by rw [hcomp, Option.map_some]⟩

theorem evaluate_eq {cnd : Condition} {e : Expression}
    (he : Binder.conditionExpress schema cnd = some e) (ht : WellFormed schema t)
    (htyped : Typed schema cnd) : e.evaluate floatSub t schema =
      some (.ints (if condHolds floatSub schema t cnd then 1 else -1)) := by
  obtain ⟨e', he', hval⟩ := exists_conditionExpress floatSub htyped
  obtain rfl : e' = e := Option.some.inj (he'.symm.trans he)
  exact hval t ht

theorem comparable_cons {cnd : Condition} {conds : List Condition} :
    Comparable floatSub schema t (cnd :: conds) ↔ Typed schema cnd ∧
      (condHolds floatSub schema t cnd = true → Comparable floatSub schema t conds) := by
  constructor
  · intro h
    refine ⟨h [] cnd conds rfl (by simp), fun hholds pre c post hsplit hpre => ?_⟩
    exact h (cnd :: pre) c post (by rw [hsplit, List.cons_append])
      (List.forall_mem_cons.2 ⟨hholds, hpre⟩)
  · rintro ⟨htyped, hrest⟩ pre c post hsplit hpre
    cases pre with
    | nil =>
      obtain ⟨rfl, _⟩ := List.cons_eq_cons.1 hsplit
      exact htyped
    | cons c' pre =>
      obtain ⟨rfl, hrest'⟩ := List.cons_eq_cons.1 hsplit
      obtain ⟨hholds, hpre'⟩ := List.forall_mem_cons.1 hpre
      exact hrest hholds pre c post hrest' hpre'

/-- The conditions evaluate to an integer as far as they can be compared. -/
theorem evaluateFrom_iff {conds : List Condition} {es : List Expression}
    (h : List.Forall₂ (fun cnd e => Binder.conditionExpress schema cnd = some e) conds es)
    (ht : WellFormed schema t) :
    (∃ n, FilterExpression.evaluateFrom floatSub t schema (.ints 1) es = some (.ints n)) ↔
      Comparable floatSub schema t conds := by
  induction h with
  | nil =>
    refine ⟨fun _ pre c post hsplit => ?_, fun _ => ⟨1, rfl⟩⟩
    cases pre <;> cases hsplit
  | @cons cnd e conds es he _ ih =>
    rw [comparable_cons, FilterExpression.evaluateFrom]
    by_cases htyped : Typed schema cnd
    · rw [evaluate_eq he ht htyped]
      cases hholds : condHolds floatSub schema t cnd
      · simp [htyped]
      · simpa [htyped] using ih
    · have hnone : e.evaluate floatSub t schema = none := by
        by_contra hne
        exact htyped ((evaluate_isSome he ht).1 (Option.ne_none_iff_exists'.1 hne))
      rw [hnone]
      simp [htyped]

theorem accepts_ne_none {conds : List Condition} {e : FilterExpression}
    (he : Binder.filterExecuter schema conds = some e) (ht : WellFormed schema t) :
    e.accepts floatSub schema t ≠ none ↔ Comparable floatSub schema t conds := by
  obtain ⟨es, hes, rfl⟩ := Option.map_eq_some_iff.1 he
  obtain ⟨ys, hys, hall⟩ := exists_mapM (fun cnd hcnd =>
    (Option.isSome_iff_exists.1 (mapM_isSome.1 (Option.isSome_of_mem hes) cnd hcnd)).imp
      fun y hy => ⟨hy, hy⟩)
  obtain rfl : ys = es := Option.some.inj (hys.symm.trans hes)
  rw [← evaluateFrom_iff hall ht, FilterExpression.accepts, FilterExpression.evaluate]
  rcases FilterExpression.evaluateFrom floatSub t schema (.ints 1) ys with _ | v
  · simp
  · cases v <;> simp

theorem exists_scan {σ : Type} (scan : σ → Option (Except RC Tuple × σ))
    (floatSub : UInt32 → UInt32 → ℤ) {select : SelectStmt} (table : Bytes)
    (h : ∀ cnd ∈ select.condList, Compiles schema cnd) :
    ∃ (child : Executer) (p : Tuple → Option Bool),
      (if select.condList = [] then some (Executer.seqScan table schema)
        else (Binder.filterExecuter schema select.condList).map
          (fun e => .filter e (.seqScan table schema) schema)) = some child ∧
      child.schema = schema ∧
      (∀ fuel s, child.next floatSub scan (fuel + 1) s =
        Pull.filter p scan (fuel + 1) s) ∧
      ∀ t, WellFormed schema t → (p t ≠ none ↔ Comparable floatSub schema t select.condList) := by
  by_cases hnil : select.condList = []
  · refine ⟨.seqScan table schema, fun _ => some true, if_pos hnil, rfl, fun fuel s => ?_,
      fun t _ => ?_⟩
    · rw [Pull.filter, Executer.next]
      rcases scan s with _ | ⟨_ | t, s'⟩ <;> rfl
    · rw [hnil]
      refine ⟨fun _ pre c post hsplit => ?_, fun _ => by simp⟩
      cases pre <;> cases hsplit
  · obtain ⟨e, he⟩ := Option.isSome_iff_exists.1 (filterExecuter_isSome.2 h)
    refine ⟨.filter e (.seqScan table schema) schema, e.accepts floatSub schema,
      by rw [if_neg hnil, he, Option.map_some], rfl, fun fuel s => ?_,
      fun t ht => accepts_ne_none he ht⟩
    exact filterNext_eq floatSub e (fuel + 1) s

theorem namesColumns_of_outputColumns {selist : List RelAttr} {table : Bytes} {idx : List ℕ}
    (hq : ∀ a ∈ selist, a.table = [] ∨ a.table = table)
    (h : Binder.outputColumns schema selist = some idx) : NamesColumns schema table selist := by
  rw [Binder.outputColumns, Option.map_eq_some_iff] at h
  obtain ⟨idxs, hidxs, _⟩ := h
  intro a ha
  refine ⟨hq a ha, ?_⟩
  have hcol := mapM_isSome.1 (Option.isSome_of_mem hidxs) a ha
  rw [Binder.selectedColumns] at hcol
  split_ifs at hcol with hstar
  · exact .inl hstar
  · rw [Option.isSome_map] at hcol
    exact .inr (Option.isSome_iff_exists.1 hcol)

theorem bindQuery_of_not_compiles {select : SelectStmt} {table : Bytes}
    (h : ¬ ∀ cnd ∈ select.condList, Compiles schema cnd) :
    Binder.bindQuery table schema select = none := by
  have hne : select.condList ≠ [] := by
    intro hnil
    exact h (by simp [hnil])
  have hnone : Binder.filterExecuter schema select.condList = none := by
    rwa [← Option.not_isSome_iff_eq_none, filterExecuter_isSome]
  rw [Binder.bindQuery, if_neg hne, hnone]
  rfl

end Tadis
