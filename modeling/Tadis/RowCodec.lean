import Tadis.Binder

/-!
# Reading back an inserted row

`create_tuple` writes a `CHAR` without padding, an integer in 32 bits and a length in 32 bits;
`value_at` reads a `CHAR` at its declared width. A row is read back unchanged when every value fits its
column, and every `CHAR` before the last column has its declared width. A width is a `size_t` and is
read as an `int`; one that is negative as a `long` moves the cursor back, and only then can the row be
read back though its values do not fit, from places that happen to hold the right bytes.
-/

namespace Tadis

/-- The value of a column is read back from its own bytes. -/
def Column.Fits (c : Column) : Value → Prop
  | .ints n => -2 ^ 31 ≤ n.toInt ∧ n.toInt < 2 ^ 31
  | .string s => if c.type = .char then (Int32.ofNat c.size).toInt = s.length else s.length < 2 ^ 31
  | _ => True

/-- The value is as wide as its column is declared. -/
def Column.Exact (c : Column) : Value → Prop
  | .string s => c.type = .char → s.length = c.size
  | _ => True

instance (c : Column) : (v : Value) → Decidable (c.Fits v)
  | .ints n => inferInstanceAs (Decidable (-2 ^ 31 ≤ n.toInt ∧ n.toInt < 2 ^ 31))
  | .string s => inferInstanceAs (Decidable
      (if c.type = .char then (Int32.ofNat c.size).toInt = s.length else s.length < 2 ^ 31))
  | .undefined | .relAttr _ | .floats _ | .nullA => inferInstanceAs (Decidable True)

instance (c : Column) : (v : Value) → Decidable (c.Exact v)
  | .string s => inferInstanceAs (Decidable (c.type = .char → s.length = c.size))
  | .undefined | .relAttr _ | .ints _ | .floats _ | .nullA => inferInstanceAs (Decidable True)

/-- Every value fits, and those before the last column are as wide as declared. -/
def RowFits (cols : List Column) (vals : List Value) : Prop :=
  ∀ i c v, cols[i]? = some c → vals[i]? = some v →
    c.Fits v ∧ (i + 1 < cols.length → c.Exact v)

/-- How far `value_at` moves the cursor over a column whose value has these bytes. -/
def Column.width (c : Column) (bytes : Bytes) : ℕ := if c.type = .char then c.size else bytes.length

/-- From `off` on, the row has the bytes of every value where the widths of the columns lead to. -/
def Found (row : Bytes) : ℕ → List Column → List Value → Prop
  | off, c :: cols, v :: vals =>
    ∃ bytes, encodeValue c v = some bytes ∧ c.Fits v ∧ readBytes row off bytes.length = some bytes ∧
      (vals ≠ [] → ∃ off', advance row off (c.width bytes) = some off' ∧ Found row off' cols vals)
  | _, _, _ => True

/-- The row is longer than the negative width of a `CHAR`, which moves the cursor back in it, and every
value's bytes happen to be where the cursor then comes to. -/
def StepsBack (cols : List Column) (vals : List Value) : Prop :=
  ∃ row, encodeRow vals cols = some row ∧ Found row 0 cols vals ∧ ∃ c ∈ cols, c.type = .char ∧
    0 ≤ (Int32.ofNat c.size).toInt ∧ 2 ^ 64 ≤ row.length + c.size

/-- The row is written, and every value is read back from its column. -/
def ReadsBack (schema : Schema) (vals : List Value) : Prop :=
  ∃ t, Tuple.createTuple vals schema = some t ∧
    ∀ i v, vals[i]? = some v → t.valueAt schema i = some v

theorem rowFits_cons {c : Column} {cols : List Column} {v : Value} {vals : List Value} :
    RowFits (c :: cols) (v :: vals) ↔
      c.Fits v ∧ (cols ≠ [] → c.Exact v) ∧ RowFits cols vals := by
  constructor
  · intro h
    obtain ⟨hfit, hexact⟩ := h 0 c v rfl rfl
    refine ⟨hfit, fun hne => hexact ?_, fun i c' v' hc hv => ?_⟩
    · simpa [List.length_pos_iff] using hne
    · obtain ⟨hfit', hexact'⟩ := h (i + 1) c' v' hc hv
      exact ⟨hfit', fun hlt => hexact' (by simpa using hlt)⟩
  · rintro ⟨hfit, hexact, hrest⟩ i c' v' hc hv
    cases i with
    | zero =>
      obtain ⟨rfl, rfl⟩ : c = c' ∧ v = v' := ⟨by simpa using hc, by simpa using hv⟩
      exact ⟨hfit, fun hlt => hexact (by simpa [List.length_pos_iff] using hlt)⟩
    | succ i =>
      obtain ⟨hfit', hexact'⟩ := hrest i c' v' hc hv
      exact ⟨hfit', fun hlt => hexact' (by simpa using hlt)⟩

variable {data bytes : Bytes} {off off' k : ℕ} {c : Column} {v : Value}

theorem readBytes_middle (pre bs post : Bytes) :
    readBytes (pre ++ (bs ++ post)) pre.length bs.length = some bs := by
  rw [readBytes, if_pos (by simp), List.drop_left, List.take_left]

theorem length_of_readBytes (h : readBytes data off k = some bytes) :
    bytes.length = k ∧ off + k ≤ data.length := by
  unfold readBytes at h
  split_ifs at h with hle
  rw [← Option.some.inj h, List.length_take, List.length_drop]
  omega

theorem readBytes_append (bs bs' : Bytes) :
    readBytes data off (bs.length + bs'.length) = some (bs ++ bs') ↔
      readBytes data off bs.length = some bs ∧
        readBytes data (off + bs.length) bs'.length = some bs' := by
  simp only [readBytes, Option.ite_none_right_eq_some, Option.some.injEq]
  rw [List.take_add, List.drop_drop]
  constructor
  · rintro ⟨hle, h⟩
    have hlen : ((data.drop off).take bs.length).length = bs.length := by
      rw [List.length_take, List.length_drop]
      omega
    obtain ⟨h, h'⟩ := List.append_inj h hlen
    exact ⟨⟨by omega, h⟩, by omega, h'⟩
  · rintro ⟨⟨_, h⟩, hle, h'⟩
    exact ⟨by omega, by rw [h, h']⟩

theorem readInt_eq_iff {n : Int32} :
    readInt data off = some n ↔ readBytes data off 4 = some (encodeInt n) := by
  rw [readInt, Option.map_eq_some_iff]
  constructor
  · rintro ⟨bs, hbs, rfl⟩
    rwa [encodeInt_decodeInt (length_of_readBytes hbs).1]
  · exact fun h => ⟨_, h, decodeInt_encodeInt n⟩

theorem initValue_string_iff {size : Int32} {type : ColumnType} (ht : type = .char ∨ type = .varchar)
    {s : Bytes} : initValue data off size type = some (.string s) ↔
      size.toInt = s.length ∧ readBytes data off s.length = some s := by
  have hread : initValue data off size type =
      if 0 ≤ size.toInt then (readBytes data off size.toInt.toNat).map Value.string else none := by
    rcases ht with rfl | rfl <;> rfl
  rw [hread]
  constructor
  · intro h
    split_ifs at h with hpos
    obtain ⟨bs, hbs, he⟩ := Option.map_eq_some_iff.1 h
    cases he
    obtain ⟨hlen, _⟩ := length_of_readBytes hbs
    exact ⟨by omega, hlen ▸ hbs⟩
  · rintro ⟨hsize, h⟩
    rw [hsize, if_pos (Int.natCast_nonneg _), Int.toNat_natCast, h, Option.map_some]

theorem encodeValue_ints {n : Int64} (h : encodeValue c (.ints n) = some bytes) :
    c.type = .int ∧ bytes = encodeInt n.toInt32 := by
  simp only [encodeValue] at h
  split_ifs at h with ht
  exact ⟨ht, (Option.some.inj h).symm⟩

theorem encodeValue_floats {f : UInt32} (h : encodeValue c (.floats f) = some bytes) :
    c.type = .float ∧ bytes = LittleEndian.encode 4 f.toNat := by
  simp only [encodeValue] at h
  split_ifs at h with ht
  exact ⟨ht, (Option.some.inj h).symm⟩

theorem encodeValue_string {s : Bytes} (h : encodeValue c (.string s) = some bytes) :
    (c.type = .varchar ∧ bytes = encodeInt (Int32.ofNat s.length) ++ s) ∨
      (c.type = .char ∧ bytes = s) := by
  simp only [encodeValue] at h
  split_ifs at h with hv hc
  · exact .inl ⟨hv, (Option.some.inj h).symm⟩
  · exact .inr ⟨hc, (Option.some.inj h).symm⟩

theorem readValue_eq_iff (h : encodeValue c v = some bytes) :
    readValue data off c = some v ↔ c.Fits v ∧ readBytes data off bytes.length = some bytes := by
  cases v with
  | ints n =>
    obtain ⟨ht, rfl⟩ := encodeValue_ints h
    simp only [readValue, ht, initValue, Option.map_eq_some_iff, Value.ints.injEq, readInt_eq_iff,
      length_encodeInt, Column.Fits, ← toInt64_toInt32_eq_iff]
    constructor
    · rintro ⟨m, hm, rfl⟩
      simpa using hm
    · rintro ⟨hn, hb⟩
      exact ⟨_, hb, hn⟩
  | floats f =>
    obtain ⟨ht, rfl⟩ := encodeValue_floats h
    simp only [readValue, ht, initValue, Option.map_eq_some_iff, Value.floats.injEq,
      LittleEndian.length_encode, Column.Fits, true_and]
    constructor
    · rintro ⟨bs, hbs, rfl⟩
      rwa [encode_decode_uint32 (length_of_readBytes hbs).1]
    · exact fun hb => ⟨_, hb, decode_encode_uint32 f⟩
  | string s =>
    rcases encodeValue_string h with ⟨ht, rfl⟩ | ⟨ht, rfl⟩
    · have hfits : c.Fits (.string s) ↔ (Int32.ofNat s.length).toInt = s.length := by
        rw [toInt_ofNat_eq_iff]
        simp [Column.Fits, ht]
      simp only [readValue, ht, Option.bind_eq_some_iff, readInt_eq_iff, hfits,
        initValue_string_iff (.inr rfl), List.length_append]
      rw [readBytes_append, length_encodeInt]
      constructor
      · rintro ⟨size, hb, hsize, hs⟩
        have heq : Int32.ofNat s.length = size := by
          rw [← Int32.toInt_inj, hsize, toInt_ofNat_eq_iff]
          have := size.toInt_lt
          omega
        rw [heq]
        exact ⟨hsize, hb, hs⟩
      · rintro ⟨hsize, hb, hs⟩
        exact ⟨_, hb, hsize, hs⟩
    · simp only [readValue, ht, initValue_string_iff (.inl rfl), Column.Fits, if_true]
  | undefined => cases h
  | relAttr a => cases h
  | nullA => cases h

theorem intToSize_of_length {size : Int32} {s : Bytes} (h : size.toInt = s.length) :
    (4 + intToSize size) % 2 ^ 64 = 4 + s.length := by
  have hlt : size.toInt < 2 ^ 31 := size.toInt_lt
  unfold intToSize
  omega

theorem skipValue_eq (h : encodeValue c v = some bytes) (hf : c.Fits v)
    (hb : readBytes data off bytes.length = some bytes) :
    skipValue data off c = advance data off (c.width bytes) := by
  cases v with
  | ints n =>
    obtain ⟨ht, rfl⟩ := encodeValue_ints h
    simp [skipValue, Column.width, ht]
  | floats f =>
    obtain ⟨ht, rfl⟩ := encodeValue_floats h
    simp [skipValue, Column.width, ht]
  | string s =>
    rcases encodeValue_string h with ⟨ht, rfl⟩ | ⟨ht, rfl⟩
    · have hsize : (Int32.ofNat s.length).toInt = s.length := by
        rw [toInt_ofNat_eq_iff]
        simpa [Column.Fits, ht] using hf
      rw [List.length_append, readBytes_append, length_encodeInt, ← readInt_eq_iff] at hb
      simp only [skipValue, Column.width, ht, hb.1, Option.bind_some, intToSize_of_length hsize,
        List.length_append, length_encodeInt]
      rfl
    · simp [skipValue, Column.width, ht]
  | undefined => cases h
  | relAttr a => cases h
  | nullA => cases h

/-- The width of a column is the length of its value's bytes if the value is as wide as declared. -/
theorem width_eq_iff (h : encodeValue c v = some bytes) :
    c.width bytes = bytes.length ↔ c.Exact v := by
  cases v with
  | string s =>
    rcases encodeValue_string h with ⟨ht, rfl⟩ | ⟨ht, rfl⟩
    · simp [Column.width, Column.Exact, ht]
    · simp [Column.width, Column.Exact, ht, eq_comm]
  | ints n => simp [Column.width, Column.Exact, (encodeValue_ints h).1]
  | floats f => simp [Column.width, Column.Exact, (encodeValue_floats h).1]
  | undefined => cases h
  | relAttr a => cases h
  | nullA => cases h

/-- The width of a column is not below the length of the bytes of a value that fits. -/
theorem le_width (h : encodeValue c v = some bytes) (hf : c.Fits v) :
    bytes.length ≤ c.width bytes ∧ (c.type = .char → 0 ≤ (Int32.ofNat c.size).toInt) := by
  by_cases ht : c.type = .char
  · cases v with
    | string s =>
      obtain ⟨hv, _⟩ | ⟨_, rfl⟩ := encodeValue_string h
      · simp [ht] at hv
      · have hle := toInt_ofNat_le c.size
        simp only [Column.Fits, ht, if_true] at hf
        rw [Column.width, if_pos ht]
        omega
    | ints n => cases (encodeValue_ints h).1.symm.trans ht
    | floats f => cases (encodeValue_floats h).1.symm.trans ht
    | undefined => cases h
    | relAttr a => cases h
    | nullA => cases h
  · exact ⟨(if_neg ht).ge, fun hc => absurd hc ht⟩

theorem advance_eq_some (hle : off + k ≤ data.length) : advance data off k = some (off + k) :=
  if_pos hle

theorem advance_of_lt (h : advance data off k = some off') (hlt : off + k < 2 ^ 64) :
    off' = off + k := by
  unfold advance at h
  split_ifs at h with _ hwrap
  · exact (Option.some.inj h).symm
  · omega

theorem le_of_advance (h : encodeValue c v = some bytes) (hf : c.Fits v)
    (hend : off + bytes.length ≤ data.length) (hs : advance data off (c.width bytes) = some off')
    (hc : c.type = .char → 0 ≤ (Int32.ofNat c.size).toInt → data.length + c.size < 2 ^ 64) :
    off' = off + c.width bytes := by
  by_cases ht : c.type = .char
  · have hlt := hc ht ((le_width h hf).2 ht)
    refine advance_of_lt hs ?_
    rw [Column.width, if_pos ht]
    omega
  · rw [Column.width, if_neg ht] at hs ⊢
    rw [advance_eq_some hend] at hs
    exact (Option.some.inj hs).symm

variable {cols : List Column} {vals : List Value} {row : Bytes}

theorem encodeRow_cons (h : encodeRow (v :: vals) (c :: cols) = some row) :
    ∃ bytes rest, encodeValue c v = some bytes ∧ encodeRow vals cols = some rest ∧
      row = bytes ++ rest := by
  simp only [encodeRow] at h
  split at h
  · exact ⟨_, _, ‹_›, ‹_›, (Option.some.inj h).symm⟩
  · cases h

/-- Every value is read from the columns that start at `off`. -/
def ReadsFrom (data : Bytes) (off : ℕ) (cols : List Column) (vals : List Value) : Prop :=
  ∀ i v, vals[i]? = some v → valueFrom data off cols i = some v

/-- The first column is read at the cursor, the others from where it moves to. -/
theorem readsFrom_cons : ReadsFrom data off (c :: cols) (v :: vals) ↔
    readValue data off c = some v ∧
      (vals ≠ [] → ∃ off', skipValue data off c = some off' ∧ ReadsFrom data off' cols vals) := by
  constructor
  · intro h
    refine ⟨h 0 v rfl, fun hne => ?_⟩
    cases hs : skipValue data off c with
    | none =>
      obtain ⟨w, ws, rfl⟩ := List.exists_cons_of_ne_nil hne
      have h1 := h 1 w rfl
      rw [valueFrom, hs] at h1
      cases h1
    | some off' =>
      refine ⟨off', rfl, fun i w hw => ?_⟩
      have hi := h (i + 1) w hw
      rwa [valueFrom, hs, Option.bind_some] at hi
  · rintro ⟨h0, hrest⟩ i w hw
    cases i with
    | zero => rwa [← show v = w by simpa using hw]
    | succ i =>
      have hw : vals[i]? = some w := hw
      obtain ⟨off', hs, hread⟩ := hrest (by rintro rfl; simp at hw)
      rw [valueFrom, hs, Option.bind_some]
      exact hread i w hw

/-- The row is read back exactly when its values fit and their bytes are found. -/
theorem readsFrom_iff_found (hrow : encodeRow vals cols = some row) :
    ReadsFrom data off cols vals ↔ Found data off cols vals := by
  induction vals generalizing cols row off with
  | nil =>
    refine ⟨fun _ => ?_, fun _ i v hv => by simp at hv⟩
    cases cols <;> trivial
  | cons v vals ih =>
    obtain - | ⟨c, cols⟩ := cols
    · cases hrow
    obtain ⟨bytes, rest, hb, hrest, rfl⟩ := encodeRow_cons hrow
    rw [readsFrom_cons, readValue_eq_iff hb]
    constructor
    · rintro ⟨⟨hfit, hbytes⟩, hnext⟩
      refine ⟨bytes, hb, hfit, hbytes, fun hne => ?_⟩
      obtain ⟨off', hs, hfrom⟩ := hnext hne
      exact ⟨off', by rwa [← skipValue_eq hb hfit hbytes], (ih hrest).1 hfrom⟩
    · rintro ⟨bs, hbs, hfit, hbytes, hnext⟩
      obtain rfl := Option.some.inj (hb.symm.trans hbs)
      refine ⟨⟨hfit, hbytes⟩, fun hne => ?_⟩
      obtain ⟨off', hs, hfrom⟩ := hnext hne
      exact ⟨off', by rwa [skipValue_eq hb hfit hbytes], (ih hrest).2 hfrom⟩

/-- No `CHAR` that is read moves the cursor back. -/
def StaysForward (data : Bytes) (cols : List Column) : Prop :=
  ∀ c ∈ cols, c.type = .char → 0 ≤ (Int32.ofNat c.size).toInt → data.length + c.size < 2 ^ 64

theorem Found.le {p : ℕ} (h : Found data off cols vals) (hrow : encodeRow vals cols = some row)
    (hp : data.length = p + row.length) (hback : StaysForward data cols) (hne : vals ≠ []) :
    off ≤ p := by
  induction vals generalizing off p cols row with
  | nil => exact absurd rfl hne
  | cons v vals ih =>
    obtain - | ⟨c, cols⟩ := cols
    · cases hrow
    obtain ⟨bytes, rest, hb, hrest, rfl⟩ := encodeRow_cons hrow
    obtain ⟨bs, hbs, hfit, hbytes, hnext⟩ := h
    obtain rfl := Option.some.inj (hb.symm.trans hbs)
    have hend := (length_of_readBytes hbytes).2
    rw [List.length_append] at hp
    by_cases hnil : vals = []
    · subst hnil
      have hzero : rest = [] := by simpa [encodeRow, eq_comm] using hrest
      rw [hzero, List.length_nil] at hp
      omega
    · obtain ⟨off', hs, hfound⟩ := hnext hnil
      obtain ⟨hc, hback⟩ := List.forall_mem_cons.1 hback
      have hoff := le_of_advance hb hfit hend hs hc
      have hwidth := (le_width hb hfit).1
      have hle := ih hfound hrest (p := p + bytes.length) (by omega) hback hnil
      omega

theorem found_of_rowFits (hrow : encodeRow vals cols = some row) (hfits : RowFits cols vals)
    (pre : Bytes) : Found (pre ++ row) pre.length cols vals := by
  induction vals generalizing cols row pre with
  | nil => cases cols <;> trivial
  | cons v vals ih =>
    obtain - | ⟨c, cols⟩ := cols
    · cases hrow
    obtain ⟨bytes, rest, hb, hrest, rfl⟩ := encodeRow_cons hrow
    obtain ⟨hfit, hexact, hfits⟩ := rowFits_cons.1 hfits
    have ih := ih hrest hfits (pre ++ bytes)
    rw [List.append_assoc, List.length_append] at ih
    refine ⟨bytes, hb, hfit, readBytes_middle pre bytes rest, fun hne => ?_⟩
    have hne : cols ≠ [] := by
      rintro rfl
      obtain ⟨w, ws, rfl⟩ := List.exists_cons_of_ne_nil hne
      cases hrest
    rw [(width_eq_iff hb).2 (hexact hne)]
    exact ⟨_, advance_eq_some (by simp), ih⟩

theorem readsFrom_of_rowFits (hrow : encodeRow vals cols = some row) (hfits : RowFits cols vals) :
    ReadsFrom row 0 cols vals :=
  (readsFrom_iff_found hrow).2 (found_of_rowFits hrow hfits [])

/-- If the cursor is never moved back, only a row that fits its columns is found. -/
theorem rowFits_of_found (hlen : vals.length = cols.length) (hrow : encodeRow vals cols = some row)
    (pre : Bytes) (hback : StaysForward (pre ++ row) cols) (hfound : Found (pre ++ row) pre.length cols vals) :
    RowFits cols vals := by
  induction vals generalizing cols row pre with
  | nil => exact fun i c v _ hv => by simp at hv
  | cons v vals ih =>
    obtain - | ⟨c, cols⟩ := cols
    · cases hrow
    obtain ⟨bytes, rest, hb, hrest, rfl⟩ := encodeRow_cons hrow
    obtain ⟨bs, hbs, hfit, hbytes, hnext⟩ := hfound
    obtain rfl := Option.some.inj (hb.symm.trans hbs)
    rw [rowFits_cons]
    by_cases hne : vals = []
    · subst hne
      obtain rfl : cols = [] := by simpa [eq_comm] using hlen
      exact ⟨hfit, fun hn => absurd rfl hn, fun i c v hc => by simp at hc⟩
    · obtain ⟨off', hs, hfound⟩ := hnext hne
      obtain ⟨hc, hback⟩ := List.forall_mem_cons.1 hback
      have hoff := le_of_advance hb hfit (length_of_readBytes hbytes).2 hs hc
      have hwidth := (le_width hb hfit).1
      have hle := hfound.le hrest (p := pre.length + bytes.length) (by simp [Nat.add_assoc]) hback hne
      obtain rfl : off' = pre.length + bytes.length := by omega
      refine ⟨hfit, fun _ => (width_eq_iff hb).1 (by omega), ih (by simpa using hlen) hrest (pre ++ bytes) ?_ ?_⟩
      · rwa [List.append_assoc]
      · rwa [List.append_assoc, List.length_append]

theorem exists_encodeValue (h : checkAttrType v.attrType c.type = true) :
    ∃ bytes, encodeValue c v = some bytes := by
  cases v <;> cases ht : c.type <;> simp_all [checkAttrType, Value.attrType, encodeValue]

theorem exists_encodeRow (hlen : vals.length = cols.length)
    (h : (vals.zip cols).all (fun x => checkAttrType x.1.attrType x.2.type) = true) :
    ∃ row, encodeRow vals cols = some row := by
  induction cols generalizing vals with
  | nil => exact ⟨[], by rw [List.length_eq_zero_iff.1 hlen, encodeRow]⟩
  | cons c cols ih =>
    cases vals with
    | nil => cases hlen
    | cons v vals =>
      rw [List.zip_cons_cons, List.all_cons, Bool.and_eq_true] at h
      obtain ⟨bytes, hb⟩ := exists_encodeValue h.1
      obtain ⟨rest, hrest⟩ := ih (by simpa using hlen) h.2
      exact ⟨bytes ++ rest, by rw [encodeRow, hb, hrest]⟩

theorem readsBack_iff_readsFrom (hrow : encodeRow vals cols = some row) :
    ReadsBack ⟨cols⟩ vals ↔ ReadsFrom row 0 cols vals := by
  rw [ReadsBack, Tuple.createTuple, hrow, Option.map_some]
  constructor
  · rintro ⟨t, ht, hread⟩
    obtain rfl := Option.some.inj ht
    exact hread
  · exact fun hread => ⟨_, rfl, hread⟩

namespace Binder

theorem bindInsert_ok {catalog : Catalog} {insert : InsertStmt} {exec : InsertExecuter}
    (h : bindInsert catalog insert = .ok exec) :
    ∃ schema, catalog.getTable insert.tableName = some schema ∧
      insert.values.length = schema.columns.length ∧
      (insert.values.zip schema.columns).all
        (fun x => checkAttrType x.1.attrType x.2.type) = true ∧
      exec = { table := insert.tableName, schema := schema, values := insert.values } := by
  unfold bindInsert at h
  split at h
  · cases h
  · split_ifs at h with hlen hall
    exact ⟨_, ‹_›, not_not.1 hlen, hall, (Except.ok.inj h).symm⟩

theorem bindInsert_error {catalog : Catalog} {insert : InsertStmt} {x : ErrorExecuter}
    (h : bindInsert catalog insert = .error x) :
    x.rc = .tableNotExisted ∨ x.rc = .columnTypeMismatch := by
  unfold bindInsert at h
  split at h
  · cases h
    exact .inl rfl
  · split_ifs at h <;> cases h <;> exact .inr rfl

theorem bindCreate_ok {catalog : Catalog} {create : CreateTableStmt} {exec : CreateTableExecuter}
    (h : bindCreate catalog create = some (.ok exec)) :
    catalog.hasTable create.tableName = false ∧ exec.name = create.tableName := by
  unfold bindCreate at h
  split_ifs at h with htable hempty
  · cases h
  · cases h
  · obtain ⟨cols, _, he⟩ := Option.map_eq_some_iff.1 h
    rw [← Except.ok.inj he]
    exact ⟨by simpa using htable, rfl⟩

/-- A row accepted for a table that `CREATE TABLE` has built is read back unchanged exactly when it
fits the columns, or, in more than `2 ^ 31` bytes, a negative width hides that it does not. -/
theorem inserted_row_reads_back_iff {catalog : Catalog} {create : CreateTableStmt}
    {insert : InsertStmt} {table : CreateTableExecuter} {exec : InsertExecuter}
    (hcreate : bindCreate catalog create = some (.ok table))
    (hname : insert.tableName = create.tableName)
    (hinsert : bindInsert (catalog.createTable table.name table.cols) insert = .ok exec) :
    ReadsBack exec.schema exec.values ↔
      RowFits table.cols insert.values ∨ StepsBack table.cols insert.values := by
  obtain ⟨hfresh, htable⟩ := bindCreate_ok hcreate
  obtain ⟨schema, hget, hlen, hall, rfl⟩ := bindInsert_ok hinsert
  rw [hname, htable, Catalog.getTable_createTable hfresh] at hget
  obtain rfl := Option.some.inj hget
  obtain ⟨row, hrow⟩ := exists_encodeRow hlen hall
  rw [readsBack_iff_readsFrom hrow, readsFrom_iff_found hrow]
  constructor
  · intro hfound
    by_cases hback : StaysForward row table.cols
    · exact .inl (rowFits_of_found hlen hrow [] hback hfound)
    · unfold StaysForward at hback
      push Not at hback
      exact .inr ⟨row, hrow, hfound, hback⟩
  · rintro (hfits | ⟨row', hrow', hfound, _⟩)
    · exact found_of_rowFits hrow hfits []
    · rwa [Option.some.inj (hrow.symm.trans hrow')]

/-- `inserted_row_reads_back_iff` for a row that fits. -/
theorem inserted_row_reads_back_int_char :
    ReadsBack ⟨[⟨.int, str "id", 0⟩, ⟨.char, str "name", 3⟩]⟩ [.ints 7, .string (str "abc")] := by
  have hcreate : bindCreate ⟨∅⟩ ⟨[⟨str "id", str "INT", 0⟩, ⟨str "name", str "CHAR", 3⟩], str "t"⟩ =
      some (.ok ⟨str "t", [⟨.int, str "id", 0⟩, ⟨.char, str "name", 3⟩]⟩) := by decide
  have hinsert : bindInsert
      (Catalog.createTable ⟨∅⟩ (str "t") [⟨.int, str "id", 0⟩, ⟨.char, str "name", 3⟩])
      ⟨str "t", [], [.ints 7, .string (str "abc")]⟩ =
      .ok ⟨str "t", ⟨[⟨.int, str "id", 0⟩, ⟨.char, str "name", 3⟩]⟩,
        [.ints 7, .string (str "abc")]⟩ := by decide
  refine (inserted_row_reads_back_iff hcreate rfl hinsert).2 (.inl (rowFits_cons.2 ⟨by decide, ?_, ?_⟩))
  · exact fun _ => trivial
  · exact rowFits_cons.2 ⟨by decide, fun h => absurd rfl h, fun i c v hc => by simp at hc⟩

/-- A `CHAR(5)` holding two characters is read together with the bytes of the next column. -/
theorem inserted_short_char_not_read_back :
    ∃ create table insert exec, bindCreate ⟨∅⟩ create = some (.ok table) ∧
      insert.tableName = create.tableName ∧
      bindInsert (Catalog.createTable ⟨∅⟩ table.name table.cols) insert = .ok exec ∧
      ¬ ReadsBack exec.schema exec.values := by
  refine ⟨⟨[⟨str "name", str "CHAR", 5⟩, ⟨str "id", str "INT", 0⟩], str "t"⟩,
    ⟨str "t", [⟨.char, str "name", 5⟩, ⟨.int, str "id", 0⟩]⟩,
    ⟨str "t", [], [.string (str "ab"), .ints 7]⟩,
    ⟨str "t", ⟨[⟨.char, str "name", 5⟩, ⟨.int, str "id", 0⟩]⟩, [.string (str "ab"), .ints 7]⟩,
    by decide, rfl, by decide, ?_⟩
  rintro ⟨t, ht, hread⟩
  have hrow : Tuple.createTuple [.string (str "ab"), .ints 7]
      ⟨[⟨.char, str "name", 5⟩, ⟨.int, str "id", 0⟩]⟩ = some ⟨str "ab" ++ [7, 0, 0, 0], {}⟩ := by
    decide
  obtain rfl := Option.some.inj (hrow.symm.trans ht)
  exact absurd (hread 0 (.string (str "ab")) rfl) (by decide)

end Binder

end Tadis
