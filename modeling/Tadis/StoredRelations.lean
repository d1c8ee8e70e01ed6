import Tadis.Cursor
import Tadis.Relations
import Tadis.Sessions

/-!
# Relations on pages

The rows of a relation, written one behind the other onto the pages of a heap, are the tuples that a
scan of the heap delivers. What a query makes of these tuples is what it makes of the rows.
-/

namespace Tadis

open TableHeap RecordScanner

/-- `t` is the row as it is written, and as it is read back. -/
structure Encodes (schema : Schema) (row : List Value) (t : Tuple) : Prop where
  length_eq : row.length = schema.columns.length
  encode : encodeRow row schema.columns = some t.data
  fits : ∀ x ∈ schema.columns.zip row, x.1.Fits x.2 ∧ x.1.Exact x.2

/-- The tuples that the scan of some pages delivers. -/
def scanTuples (pages : List (List Slot)) : List Tuple :=
  (scanRows pages).map (fun row => { data := row.2, rid := row.1 })

variable {schema : Schema} {row : List Value} {t : Tuple} {rel : Relation}
  {pages : List (List Slot)}

theorem Schema.takes_iff : schema.takes row = true ↔ row.length = schema.columns.length ∧
    (row.zip schema.columns).all (fun x => checkAttrType x.1.attrType x.2.type) = true := by
  rw [takes, decide_eq_true_iff]

theorem Encodes.wellFormed (h : Encodes schema row t) : WellFormed schema t :=
  ⟨row, h.length_eq, h.encode, fun _ c v hc hv =>
    h.fits (c, v) (List.mem_of_getElem? (List.getElem?_zip_eq_some.2 ⟨hc, hv⟩))⟩

theorem Encodes.valueAt (h : Encodes schema row t) {i : ℕ} {c : Column}
    (hc : schema.columns[i]? = some c) : ∃ v, row[i]? = some v ∧ t.valueAt schema i = some v := by
  have hfits : RowFits schema.columns row := by
    intro j d v hd hv
    obtain ⟨hfit, hexact⟩ := h.fits (d, v)
      (List.mem_of_getElem? (List.getElem?_zip_eq_some.2 ⟨hd, hv⟩))
    exact ⟨hfit, fun _ => hexact⟩
  have hi : i < row.length := h.length_eq ▸ (List.getElem?_eq_some_iff.1 hc).1
  have hv := List.getElem?_eq_getElem hi
  exact ⟨_, hv, readsFrom_of_rowFits h.encode hfits i _ hv⟩

theorem Encodes.operandValue_eq (h : Encodes schema row t) (v : Value) :
    operandValue schema t v = Relation.operand schema row v := by
  cases v with
  | relAttr a =>
    rw [operandValue, Relation.operand]
    cases hi : schema.columnIdx a.attr with
    | none => rfl
    | some i =>
      obtain ⟨c, hc⟩ := columnIdx_lt hi
      obtain ⟨w, hw, ht⟩ := h.valueAt hc
      exact ht.trans hw.symm
  | _ => rfl

theorem Encodes.selectedBy_eq (h : Encodes schema row t) (floatSub : UInt32 → UInt32 → ℤ)
    (conds : List Condition) : selectedBy floatSub schema conds t =
      conds.all (Relation.holds floatSub schema row) := by
  refine congrArg conds.all (funext fun cnd => ?_)
  unfold condHolds Relation.holds
  exact h.operandValue_eq cnd.left ▸ h.operandValue_eq cnd.right ▸ rfl

theorem filterMap_of_forall₂ {α β : Type*} {f : α → Option β} {l : List α} {ys : List β}
    (h : List.Forall₂ (fun x y => f x = some y) l ys) : l.filterMap f = ys := by
  induction h with
  | nil => rfl
  | cons hx _ ih => rw [List.filterMap_cons_some hx, ih]

theorem Encodes.exists_cells {idx : List ℕ} {cols : List Column} (h : Encodes schema row t)
    (hall : List.Forall₂ (fun i c => schema.columns[i]? = some c) idx cols) :
    ∃ vals, List.Forall₂ (fun i v => row[i]? = some v) idx vals := by
  induction hall with
  | nil => exact ⟨[], .nil⟩
  | cons hc _ ih =>
    obtain ⟨v, hv, _⟩ := h.valueAt hc
    obtain ⟨vals, hvals⟩ := ih
    exact ⟨v :: vals, .cons hv hvals⟩

/-- The columns of an output tuple are the selected columns of the row. -/
theorem Encodes.printed {idx : List ℕ} {output : Schema} {out : Tuple} (h : Encodes schema row t)
    (hall : List.Forall₂ (fun i c => schema.columns[i]? = some c) idx output.columns)
    (hout : Projects schema idx output t out) (floatText : UInt32 → Bytes) :
    (List.range output.columns.length).mapM (fun j =>
        (out.valueAt output j).map (Value.toString floatText)) =
      some ((idx.filterMap (fun i => row[i]?)).map (Value.toString floatText)) := by
  obtain ⟨vals, hvals⟩ := h.exists_cells hall
  rw [filterMap_of_forall₂ hvals]
  apply mapM_of_forall₂
  rw [List.forall₂_map_right_iff, List.forall₂_iff_get]
  refine ⟨by rw [List.length_range, ← hall.length_eq, hvals.length_eq], fun j hj hj' => ?_⟩
  have hlt : j < idx.length := hvals.length_eq ▸ hj'
  have hidx := List.getElem?_eq_getElem hlt
  obtain ⟨c, _, hc⟩ := getElem?_of_forall₂ hall hidx
  obtain ⟨v, hv, ht⟩ := h.valueAt hc
  obtain ⟨w, hw, hval⟩ := hout j _ hidx
  obtain rfl : v = w := Option.some.inj (ht.symm.trans hw)
  obtain ⟨u, hu, hrow⟩ := getElem?_of_forall₂ hvals hidx
  obtain rfl : v = u := Option.some.inj (hv.symm.trans hrow)
  obtain rfl : vals[j] = v := by simpa [List.getElem?_eq_getElem hj'] using hu
  simp [hval]

theorem header_eq {idx : List ℕ} {cols : List Column}
    (h : List.Forall₂ (fun i c => schema.columns[i]? = some c) idx cols) :
    idx.filterMap (fun i => (schema.columns[i]?).map Column.name) = cols.map Column.name := by
  apply filterMap_of_forall₂
  rw [List.forall₂_map_right_iff]
  exact h.imp fun i c hc => by rw [hc, Option.map_some]

namespace Relation

/-- The schema can be saved, the rows come back as they were written, and their pages fit into a
pool. -/
structure Stored (rel : Relation) : Prop where
  columns : ∀ c ∈ rel.schema.columns, Identifier c.name ∧ c.size < 2 ^ 53
  fits : ∀ row ∈ rel.rows, ∀ x ∈ rel.schema.columns.zip row, x.1.Fits x.2 ∧ x.1.Exact x.2
  short : ∀ bytes ∈ rel.bytes, bytes.length ≤ 990
  roomy : Roomy poolSize rel.pages

theorem bytes_add (rel : Relation) (h : rel.schema.takes row = true) {bytes : Bytes}
    (hrow : encodeRow row rel.schema.columns = some bytes) :
    (rel.add row h).bytes = rel.bytes ++ [bytes] := by
  simp [Relation.bytes, add, hrow]

theorem pages_add (rel : Relation) (h : rel.schema.takes row = true) {bytes : Bytes}
    (hrow : encodeRow row rel.schema.columns = some bytes) :
    (rel.add row h).pages = (insertPages rel.pages bytes).2 := by
  rw [pages, bytes_add rel h hrow, List.foldl_append]
  rfl

theorem Stored.add (hs : rel.Stored) (h : rel.schema.takes row = true) (hok : rel.RowOk row)
    {bytes : Bytes} (hrow : encodeRow row rel.schema.columns = some bytes) :
    (rel.add row h).Stored := by
  obtain ⟨hfits, hbytes⟩ := hok
  obtain ⟨hlen, _, hroom⟩ := hbytes bytes hrow
  refine ⟨hs.columns, fun row' hr => ?_, fun bytes' hb => ?_, ?_⟩
  · rcases List.mem_append.1 hr with hr | hr
    · exact hs.fits row' hr
    · rw [List.mem_singleton.1 hr]
      exact hfits
  · rw [bytes_add rel h hrow] at hb
    rcases List.mem_append.1 hb with hb | hb
    · exact hs.short bytes' hb
    · rwa [List.mem_singleton.1 hb]
  · rw [pages_add rel h hrow]
    exact hroom

theorem stored_empty (hc : ∀ c ∈ schema.columns, Identifier c.name ∧ c.size < 2 ^ 53) :
    Stored { schema := schema } :=
  ⟨hc, by simp, by simp [Relation.bytes], show Roomy poolSize [] by decide⟩

theorem filled_foldl {bs : List Bytes} (h : Filled pages) (hb : ∀ bytes ∈ bs, bytes.length ≤ 990) :
    Filled (bs.foldl (fun pages bytes => (insertPages pages bytes).2) pages) ∧
      contents (bs.foldl (fun pages bytes => (insertPages pages bytes).2) pages) =
        contents pages ++ bs := by
  induction bs generalizing pages with
  | nil => exact ⟨h, (List.append_nil _).symm⟩
  | cons bytes bs ih =>
    obtain ⟨hlen, hrest⟩ := List.forall_mem_cons.1 hb
    obtain ⟨_, hfilled, hcontents, _⟩ := h.insertPages hlen
    obtain ⟨hf, hc⟩ := ih hfilled hrest
    refine ⟨hf, hc.trans ?_⟩
    rw [hcontents, List.append_assoc]
    rfl

theorem Stored.filled (h : rel.Stored) : Filled rel.pages ∧ contents rel.pages = rel.bytes :=
  filled_foldl filled_nil h.short

theorem Stored.encodes (h : rel.Stored) :
    List.Forall₂ (Encodes rel.schema) rel.rows (scanTuples rel.pages) := by
  obtain ⟨hfilled, hcontents⟩ := h.filled
  have hdata : (scanTuples rel.pages).map Tuple.data = rel.bytes := by
    rw [← hcontents, ← hfilled.scanRows_bytes, scanTuples, List.map_map]
    rfl
  have hencode : ∀ row ∈ rel.rows, ∃ b, encodeRow row rel.schema.columns = some b ∧
      Encodes rel.schema row { data := b } := by
    intro row hrow
    obtain ⟨hlen, htypes⟩ := Schema.takes_iff.1 (rel.typed row hrow)
    obtain ⟨b, hb⟩ := exists_encodeRow hlen htypes
    exact ⟨b, hb, hlen, hb, h.fits row hrow⟩
  obtain ⟨bs, _, hrows⟩ := exists_mapM hencode
  have hbs : rel.bytes = bs := filterMap_of_forall₂ (hrows.imp fun _ _ he => he.encode)
  rw [← hbs, ← hdata, List.forall₂_map_right_iff] at hrows
  exact hrows.imp fun _ _ ht => ⟨ht.length_eq, ht.encode, ht.fits⟩

theorem Stored.wellFormed (h : rel.Stored) : ∀ t ∈ scanTuples rel.pages, WellFormed rel.schema t := by
  have hencodes := h.encodes
  generalize rel.rows = rows, scanTuples rel.pages = tuples at hencodes
  induction hencodes with
  | nil => simp
  | cons he _ ih => exact List.forall_mem_cons.2 ⟨he.wellFormed, ih⟩

theorem length_le_of_room {slots : List Slot} (h : 32 < freeEnd slots) : slots.length ≤ pageSize := by
  have hlen : slots.length ≤ used slots := by
    unfold used
    refine (List.length_map _).symm.le.trans (List.length_le_sum_of_one_le _ ?_)
    simp
  unfold freeEnd at h
  omega

theorem Stored.length_lt (h : rel.Stored) : (scanTuples rel.pages).length < Running.scanFuel := by
  obtain ⟨hfilled, _⟩ := h.filled
  have hlen : (scanTuples rel.pages).length = rel.pages.flatten.length := by
    rw [scanTuples, List.length_map, ← List.length_map (f := Prod.snd), hfilled.scanRows_bytes, contents,
      List.length_map]
  have hpages : ∀ pages : List (List Slot), (∀ slots ∈ pages, slots.length ≤ pageSize) →
      pages.flatten.length ≤ pages.length * pageSize := by
    intro pages hp
    induction pages with
    | nil => simp
    | cons slots pages ih =>
      obtain ⟨hs, hp⟩ := List.forall_mem_cons.1 hp
      have := ih hp
      rw [List.flatten_cons, List.length_append, List.length_cons, Nat.succ_mul]
      omega
  have hle := hpages rel.pages fun slots hs => length_le_of_room (hfilled.room slots hs)
  have hroom := h.roomy.2
  rw [hlen]
  exact hle.trans_lt (Nat.mul_lt_mul_of_pos_right hroom (by decide))

end Relation

end Tadis
