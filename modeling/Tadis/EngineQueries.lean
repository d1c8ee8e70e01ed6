import Tadis.EngineRefinement

/-!
# The engine implements relations: queries

A query makes a scanner, pulls the tuples through the filter and the projection and deletes the
scanner again. If the select list names no column the scanner stays, with the pin that it holds.
-/

namespace Tadis.Engine

open TableHeap RecordScanner

variable {e : Engine} {r : Relations} {table sql : Bytes} {rel : Relation} {b : BoundExecuter}
  {floatSub : UInt32 → UInt32 → ℤ} {floatText : UInt32 → Bytes} {selist : List RelAttr}
  {conds : List Condition} {c : RecordScanner poolSize × BufferPool poolSize}

def scanning (e : Engine) (table : Bytes) (c : RecordScanner poolSize × BufferPool poolSize) :
    Running :=
  { engine := e.setHeap table c.2, table := table, scanner := some c.1 }

@[simp] theorem lookup_setHeap (e : Engine) (table : Bytes) (s : BufferPool poolSize) :
    (e.setHeap table s).heaps.lookup table = some s := AList.lookup_insert _

@[simp] theorem setHeap_setHeap (e : Engine) (table : Bytes) (s t : BufferPool poolSize) :
    (e.setHeap table s).setHeap table t = e.setHeap table t := by
  unfold setHeap
  rw [AList.insert_insert]

theorem scan_scanning (c : RecordScanner poolSize × BufferPool poolSize) :
    (scanning e table c).scan = (seqScanNext c).map (fun x =>
      (x.1.map (fun row => { data := row.2, rid := row.1 }), scanning e table x.2)) := by
  unfold scanning Running.scan
  dsimp only
  rw [lookup_setHeap]
  dsimp only
  simp only [setHeap_setHeap]

theorem Represents.scans (h : Represents e r) (hl : r.lookup table = some rel) :
    ∃ s' c t, e.heaps.lookup table = some s' ∧ RecordScanner.make s' = some c ∧
      Pull.Drains Running.scan (scanning e table c) (scanTuples rel.pages) .outOfRange
        (scanning e table t) ∧ Represents (e.setHeap table c.2) r ∧
      Represents (e.setHeap table (destroy t)) r := by
  obtain ⟨s, hs, hres⟩ := h.heaps table rel hl
  obtain ⟨sc, s', t, hi, hd, hres', ht, hq, hq'⟩ :=
    exists_drains hres (h.stored table rel hl).roomy.1
  obtain ⟨hdestroyed, hq''⟩ := destroy_resident ht t.1
  refine ⟨s, (sc, s'), t, hs, ?_, hd.embed _ (scanning e table) scan_scanning,
    h.setHeap hl hs hq.file hres', h.setHeap hl hs (hq''.file.trans hq'.file) hdestroyed⟩
  rw [make, hi]
  rfl

theorem scannedTable_eq (catalog : Catalog) (table : Bytes) :
    scannedTable catalog (.select ⟨selist, [table], conds⟩) =
      if selist = [] ∨ selist.any (fun attr => attr.table ≠ [] ∧ table ≠ attr.table) then none
      else if catalog.hasTable table then some table else none := by
  cases selist with
  | nil => rfl
  | cons a selist => simp only [scannedTable, reduceCtorEq, false_or]

theorem realizes_syntaxError {s : SelectStmt} {msg : Bytes} (h : Represents e r)
    (hscan : scannedTable e.catalog (.select s) = none)
    (hb : Binder.bindSelect e.catalog s = some (.error { rc := .syntaxError, msg := msg })) :
    Realizes floatSub floatText e sql (.select s) (.refused .syntaxError, r) := by
  refine realizes_error (x := { rc := .syntaxError, msg := msg }) h hscan ?_ (by simp) (by simp)
  rw [Binder.bind, hb]
  rfl

/-- A query that is refused before a scanner is made. -/
theorem realizes_malformed (h : Represents e r)
    (hbad : selist = [] ∨ ∃ a ∈ selist, a.table ≠ [] ∧ a.table ≠ table) :
    Realizes floatSub floatText e sql (.select ⟨selist, [table], conds⟩)
      (.refused .syntaxError, r) := by
  rcases selist with _ | ⟨a, selist⟩
  · exact realizes_syntaxError h rfl rfl
  · obtain ⟨a', ha', hne⟩ := hbad.resolve_left (by simp)
    have hbad' : (a :: selist).any (fun attr => attr.table ≠ [] ∧ table ≠ attr.table) = true :=
      List.any_eq_true.2 ⟨a', ha', decide_eq_true ⟨hne.1, hne.2.symm⟩⟩
    obtain ⟨attr, hattr⟩ := Option.isSome_iff_exists.1
      (List.find?_isSome.2 (List.any_eq_true.1 hbad'))
    have hb : Binder.bindSelect e.catalog ⟨a :: selist, [table], conds⟩ = some (.error
        { rc := .syntaxError, msg := attr.table ++ str " can't bind to " ++ table }) := by
      rw [Binder.bindSelect]
      dsimp only
      rw [hattr]
    refine realizes_syntaxError h ?_ hb
    rw [scannedTable_eq, if_pos (.inr hbad')]

structure WellQualified (selist : List RelAttr) (table : Bytes) : Prop where
  ne_nil : selist ≠ []
  qualifiers : ∀ a ∈ selist, a.table = [] ∨ a.table = table

theorem WellQualified.scannedTable_eq (hq : WellQualified selist table) (catalog : Catalog) :
    scannedTable catalog (.select ⟨selist, [table], conds⟩) =
      if catalog.hasTable table then some table else none := by
  rw [Engine.scannedTable_eq, if_neg]
  rintro (hnil | hany)
  · exact hq.ne_nil hnil
  · obtain ⟨a, ha, hbad⟩ := List.any_eq_true.1 hany
    obtain ⟨hne, hother⟩ := of_decide_eq_true hbad
    exact hother ((hq.qualifiers a ha).resolve_left hne).symm

theorem realizes_unknownTable (h : Represents e r) (hl : r.lookup table = none)
    (hq : WellQualified selist table) :
    Realizes floatSub floatText e sql (.select ⟨selist, [table], conds⟩)
      (.refused .tableNotExisted, r) := by
  have htable : e.catalog.getTable table = none := by rw [h.tables, hl, Option.map_none]
  have hfind : selist.find? (fun attr => attr.table ≠ [] ∧ table ≠ attr.table) = none := by
    refine List.find?_eq_none.2 fun a ha hbad => ?_
    obtain ⟨hne, hother⟩ := of_decide_eq_true hbad
    exact hother ((hq.qualifiers a ha).resolve_left hne).symm
  have hb : Binder.bindSelect e.catalog ⟨selist, [table], conds⟩ =
      some (.error { rc := .tableNotExisted }) := by
    rcases selist with _ | ⟨a, selist⟩
    · exact absurd rfl hq.ne_nil
    · rw [Binder.bindSelect]
      dsimp only
      rw [hfind]
      dsimp only
      rw [htable]
  refine realizes_error (x := { rc := .tableNotExisted }) h ?_ ?_ (by simp) (by simp)
  · rw [hq.scannedTable_eq, Catalog.hasTable, htable]
    rfl
  · rw [Binder.bind, hb]
    rfl

theorem WellQualified.bindSelect_eq (hq : WellQualified selist table) {schema : Schema}
    (htable : e.catalog.getTable table = some schema) :
    Binder.bindSelect e.catalog ⟨selist, [table], conds⟩ =
      Binder.bindQuery table schema ⟨selist, [table], conds⟩ :=
  Binder.bindSelect_eq hq.ne_nil rfl htable hq.qualifiers

theorem Represents.start_query (h : Represents e r) (hl : r.lookup table = some rel)
    (hq : WellQualified selist table) {s : BufferPool poolSize}
    (hs : e.heaps.lookup table = some s) (hmake : RecordScanner.make s = some c)
    {x : Except ErrorExecuter Executer}
    (hb : Binder.bindSelect e.catalog ⟨selist, [table], conds⟩ = some x) :
    e.start (.select ⟨selist, [table], conds⟩) =
      some (Binder.orError .query x, scanning e table c) := by
  have htable : e.catalog.hasTable table = true := by
    rw [h.hasTable_eq, hl]
    rfl
  rw [start, Binder.bind, hb, Option.map_some, Option.bind_some, hq.scannedTable_eq, if_pos htable]
  dsimp only
  rw [scanner, hs]
  dsimp only
  rw [hmake]
  rfl

theorem realizes_unknownColumn (h : Represents e r) (hl : r.lookup table = some rel)
    (hq : WellQualified selist table) (htyped : ∀ cnd ∈ conds, Typed rel.schema cnd)
    (hno : ¬ ∀ a ∈ selist, a.attr = str "*" ∨ (rel.schema.columnIdx a.attr).isSome) :
    Realizes floatSub floatText e sql (.select ⟨selist, [table], conds⟩)
      (.refused .columnNotExist, r) := by
  obtain ⟨s, c, t, hs, hmake, _, hrep, _⟩ := h.scans hl
  have hout : Binder.outputColumns rel.schema selist = none := by
    refine Option.eq_none_iff_forall_ne_some.2 fun idx hidx => hno fun a ha => ?_
    exact (namesColumns_of_outputColumns hq.qualifiers hidx a ha).2.imp id Option.isSome_iff_exists.2
  have hb : Binder.bindSelect e.catalog ⟨selist, [table], conds⟩ =
      some (.error { rc := .columnNotExist }) := by
    obtain ⟨f, hf, _⟩ := exists_filterExecuter floatSub htyped
    rw [hq.bindSelect_eq (h.getTable hl), Binder.bindQuery]
    dsimp only
    rw [hf, hout]
    split_ifs <;> rfl
  have hstart := h.start_query hl hq hs hmake hb
  have hnext : Running.next floatSub (scanning e table c) (.error { rc := .columnNotExist }) =
      some (.error .columnNotExist, scanning e table c) := rfl
  exact realizes_refused hstart hnext (by simp) (by simp) hrep

theorem forall₂_trans {α β γ : Type*} {R : α → β → Prop} {S : β → γ → Prop} {T : α → γ → Prop}
    {l : List α} {m : List β} {k : List γ} (h : List.Forall₂ R l m) (h' : List.Forall₂ S m k)
    (hT : ∀ a b c, R a b → S b c → T a c) : List.Forall₂ T l k := by
  induction h generalizing k with
  | nil =>
    cases h'
    exact .nil
  | cons hR _ ih =>
    cases h' with
    | cons hS h' => exact .cons (hT _ _ _ hR hS) (ih h')

/-- What is printed of the tuples that a query delivers. -/
theorem printRows_select {output : Schema} {tuples outs : List Tuple} {idx : List ℕ}
    {rows : List (List Value)} {schema : Schema}
    (hall : List.Forall₂ (fun i c => schema.columns[i]? = some c) idx output.columns)
    (hrows : List.Forall₂ (Encodes schema) rows tuples)
    (houts : List.Forall₂ (Projects schema idx output) tuples outs) :
    printRows floatText
        { rc := .success, tuples := outs, outputSchema := some output } =
      some (.rows (idx.filterMap (fun i => (schema.columns[i]?).map Column.name))
        ((rows.map (fun row => idx.filterMap (fun i => row[i]?))).map
          (fun row => row.map (Value.toString floatText)))) := by
  have hcells : List.Forall₂ (fun out cells => (List.range output.columns.length).mapM (fun j =>
      (out.valueAt output j).map (Value.toString floatText)) = some cells) outs
      ((rows.map (fun row => idx.filterMap (fun i => row[i]?))).map
        (fun row => row.map (Value.toString floatText))) := by
    rw [List.map_map, List.forall₂_map_right_iff]
    exact (forall₂_trans hrows houts fun row t out he hp => he.printed hall hp floatText).flip
  rw [printRows]
  dsimp only
  rw [mapM_of_forall₂ hcells, header_eq hall, Option.map_some]

theorem realizes_rows (h : Represents e r) (hl : r.lookup table = some rel)
    (hq : WellQualified selist table) (htyped : ∀ cnd ∈ conds, Typed rel.schema cnd)
    (hcols : ∀ a ∈ selist, a.attr = str "*" ∨ (rel.schema.columnIdx a.attr).isSome) :
    Realizes floatSub floatText e sql (.select ⟨selist, [table], conds⟩)
      (rel.select floatSub ⟨selist, [table], conds⟩, r) := by
  obtain ⟨s, c, t, hs, hmake, hd, _, hrep⟩ := h.scans hl
  have hencodes := (h.stored table rel hl).encodes
  have hnames : NamesColumns rel.schema table selist := fun a ha =>
    ⟨hq.qualifiers a ha, (hcols a ha).imp id Option.isSome_iff_exists.1⟩
  have htyped' : ∀ cnd ∈ (⟨selist, [table], conds⟩ : SelectStmt).condList, Typed rel.schema cnd :=
    htyped
  obtain ⟨x, outs, hb, hcopy, houts, hdrains⟩ := Binder.select_projects floatSub hq.ne_nil rfl
    (h.getTable hl) hnames htyped' hd (h.stored table rel hl).wellFormed
  obtain ⟨output, hcopy', hall⟩ := exists_copySchema rel.schema selist
  obtain rfl : output = x.schema := Option.some.inj (hcopy'.symm.trans hcopy)
  have hrows : List.Forall₂ (Encodes rel.schema)
      (rel.rows.filter (fun row => conds.all (Relation.holds floatSub rel.schema row)))
      ((scanTuples rel.pages).filter (selectedBy floatSub rel.schema conds)) := by
    refine List.rel_filter (fun row t he => ?_) hencodes
    dsimp only
    rw [he.selectedBy_eq]
  have hlen : outs.length < Running.scanFuel := by
    rw [← houts.length_eq]
    exact (List.length_filter_le _ _).trans_lt (h.stored table rel hl).length_lt
  have hstart := h.start_query hl hq hs hmake hb
  have hrun := executeStmt_eq sql hstart
    (hdrains Running.scanFuel (h.stored table rel hl).length_lt) hlen
  refine ⟨_, _, hrun, ?_, ?_⟩
  · rw [if_neg (by simp)]
    exact printRows_select hall hrows houts
  · have hfinish : (scanning e table t).finish (.query x) = e.setHeap table (destroy t) := by
      unfold scanning Running.finish
      dsimp only
      rw [lookup_setHeap]
      dsimp only
      rw [setHeap_setHeap]
    exact hfinish ▸ hrep

/-- Every query that is allowed is answered as the relations say. -/
theorem realizes_select (h : Represents e r) {s : SelectStmt} (hok : r.StmtOk (.select s)) :
    Realizes floatSub floatText e sql (.select s) (r.execute floatSub (.select s)) := by
  obtain ⟨selist, fromList, conds⟩ := s
  rcases fromList with _ | ⟨table, _ | ⟨table', tables⟩⟩
  · cases selist <;> exact realizes_syntaxError h rfl rfl
  · rw [Relations.execute, Relations.query]
    dsimp only
    split_ifs with hbad
    · exact realizes_malformed h hbad
    · have hq : WellQualified selist table := by
        rw [not_or, not_exists] at hbad
        refine ⟨hbad.1, fun a ha => ?_⟩
        by_contra hne
        rw [not_or] at hne
        exact hbad.2 a ⟨ha, hne⟩
      cases hl : r.lookup table with
      | none => exact realizes_unknownTable h hl hq
      | some rel =>
        have htyped := hok table List.mem_cons_self rel hl
        dsimp only
        split_ifs with hcols
        · exact realizes_rows h hl hq htyped hcols
        · exact realizes_unknownColumn h hl hq htyped hcols
  · cases selist <;> exact realizes_syntaxError h rfl rfl

end Tadis.Engine
