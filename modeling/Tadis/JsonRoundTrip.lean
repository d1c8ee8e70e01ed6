import Tadis.JsonSoundness
import Tadis.JsonDoubles

/-!
# The text of a value read back

A text spells what the parser reads from it. The writer puts strings and names between quotes as they
are, and the parser stores every backslash twice, so the text of a value spells the value exactly when
its strings and names have no quotes and their backslashes come in pairs.
-/

namespace Tadis.Pson

open JsonGrammar

/-- `P` holds of every string and every name. -/
inductive Texts {ν : Type} (P : Bytes → Prop) : Json ν → Prop
  | null : Texts P .null
  | bool {b} : Texts P (.bool b)
  | number {x} : Texts P (.number x)
  | string {s} (h : P s) : Texts P (.string s)
  | array {vs} (h : ∀ v ∈ vs, Texts P v) : Texts P (.array vs)
  | object {ms} (hn : ∀ m ∈ ms, P m.1) (h : ∀ m ∈ ms, Texts P m.2) : Texts P (.object ms)

/-- Every number is an integer below `2 ^ 53`, and every object is a map. -/
inductive Integral {ν : Type} (ofInt : ℤ → ν) : Json ν → Prop
  | null : Integral ofInt .null
  | bool {b} : Integral ofInt (.bool b)
  | number {n : ℤ} (hn : n.natAbs < 2 ^ 53) : Integral ofInt (.number (ofInt n))
  | string {s} : Integral ofInt (.string s)
  | array {vs} (h : ∀ v ∈ vs, Integral ofInt v) : Integral ofInt (.array vs)
  | object {ms} (ho : Ordered ms) (h : ∀ m ∈ ms, Integral ofInt m.2) : Integral ofInt (.object ms)

inductive Paired : Bytes → Prop
  | nil : Paired []
  | char {c s} (hq : c ≠ 0x22) (hb : c ≠ 0x5C) (h0 : c ≠ 0) (h : Paired s) : Paired (c :: s)
  | pair {s} (h : Paired s) : Paired (0x5C :: 0x5C :: s)

/-- The texts of what is read, with any white space between the tokens. -/
inductive Spells {ν : Type} (strtod : Bytes → Option ν) : Goal ν → Bytes → Prop
  | null : Spells strtod (.value .null) (str "null")
  | trueLit : Spells strtod (.value (.bool true)) (str "true")
  | falseLit : Spells strtod (.value (.bool false)) (str "false")
  | number {x t} (ht : IsNumber t) (hx : ∀ q, EndsNumber q → strtod (t ++ q) = some x) :
    Spells strtod (.value (.number x)) t
  | string {s} (hs : Paired s) : Spells strtod (.value (.string s)) (0x22 :: s ++ [0x22])
  | emptyArray : Spells strtod (.value (.array [])) [0x5B, 0x5D]
  | array {vs t} (h : Spells strtod (.values vs) t) :
    Spells strtod (.value (.array vs)) (0x5B :: t ++ [0x5D])
  | emptyObject : Spells strtod (.value (.object [])) [0x7B, 0x7D]
  | object {ms w t} (ho : Ordered ms) (hw : IsWs w) (h : Spells strtod (.members ms) t) :
    Spells strtod (.value (.object ms)) (0x7B :: w ++ t ++ [0x7D])
  | oneValue {v t} (h : Spells strtod (.value v) t) : Spells strtod (.values [v]) t
  | moreValues {v t w w' vs ts} (h : Spells strtod (.value v) t) (hw : IsWs w) (hw' : IsWs w')
      (hvs : Spells strtod (.values vs) ts) :
    Spells strtod (.values (v :: vs)) (t ++ w ++ 0x2C :: w' ++ ts)
  | member {name w w' v t} (hn : Paired name) (hw : IsWs w) (hw' : IsWs w')
      (h : Spells strtod (.value v) t) :
    Spells strtod (.member name v) (0x22 :: name ++ 0x22 :: w ++ 0x3A :: w' ++ t)
  | oneMember {name v t w} (h : Spells strtod (.member name v) t) (hw : IsWs w) :
    Spells strtod (.members [(name, v)]) (t ++ w)
  | moreMembers {name v t w w' ms ts} (h : Spells strtod (.member name v) t) (hw : IsWs w)
      (hw' : IsWs w') (hms : Spells strtod (.members ms) ts) :
    Spells strtod (.members ((name, v) :: ms)) (t ++ w ++ 0x2C :: w' ++ ts)

variable {ν : Type} {strtod : Bytes → Option ν} {p q r s t w : Bytes} {f : Bool} {v : Json ν}

theorem ReadsString.paired (h : ReadsString p s f q) : Paired s := by
  induction h with
  | close => exact .nil
  | char hq hb h0 _ ih => exact .char hq hb h0 ih
  | escape _ ih => exact .pair ih

theorem mem_emplace {name : Bytes} {m : Bytes × Json ν} {ms : List (Bytes × Json ν)}
    (h : m ∈ emplace name v ms) : m = (name, v) ∨ m ∈ ms := by
  induction ms with
  | nil => exact .inl (List.mem_singleton.1 h)
  | cons k ms ih =>
    rw [emplace] at h
    split_ifs at h with hlt heq
    · exact List.mem_cons.1 h
    · exact .inr h
    · rcases List.mem_cons.1 h with rfl | h
      · exact .inr List.mem_cons_self
      · exact (ih h).imp_right (List.mem_cons_of_mem _)

theorem mem_foldl_emplace {m : Bytes × Json ν} {ms acc : List (Bytes × Json ν)}
    (h : m ∈ ms.foldl (fun acc m => emplace m.1 m.2 acc) acc) : m ∈ ms ∨ m ∈ acc := by
  induction ms generalizing acc with
  | nil => exact .inr h
  | cons k ms ih =>
    rcases ih h with h | h
    · exact .inl (List.mem_cons_of_mem _ h)
    · rcases mem_emplace h with rfl | h
      · exact .inl List.mem_cons_self
      · exact .inr h

theorem mem_build {m : Bytes × Json ν} {ms : List (Bytes × Json ν)} (h : m ∈ build ms) : m ∈ ms :=
  (mem_foldl_emplace h).resolve_right (List.not_mem_nil)

/-- `P` holds of the strings and names of what is read. -/
def TextsGoal (P : Bytes → Prop) : Goal ν → Prop
  | .value v => Texts P v
  | .values vs => ∀ v ∈ vs, Texts P v
  | .member name v => P name ∧ Texts P v
  | .members ms => ∀ m ∈ ms, P m.1 ∧ Texts P m.2

/-- Whatever the text, the strings and names that are read have no quotes and no lone backslash. -/
theorem Reads.paired {g : Goal ν} (h : Reads strtod g p f q) : TextsGoal Paired g := by
  induction h with
  | nullLit => exact .null
  | trueLit | falseLit => exact .bool
  | number => exact .number
  | string h => exact .string h.paired
  | emptyArray => exact .array (by simp)
  | array _ ih => exact .array ih
  | emptyObject => exact .object (by simp) (by simp)
  | object _ _ ih => exact .object (fun m hm => (ih m (mem_build hm)).1) fun m hm => (ih m (mem_build hm)).2
  | oneValue _ _ ih => exact fun v hv => List.mem_singleton.1 hv ▸ ih
  | moreValues _ _ _ ih ihs => exact List.forall_mem_cons.2 ⟨ih, ihs⟩
  | member hname _ _ ih => exact ⟨hname.paired, ih⟩
  | oneMember _ _ ih => exact fun m hm => List.mem_singleton.1 hm ▸ ih
  | comma _ _ _ ih ihs => exact List.forall_mem_cons.2 ⟨ih, ihs⟩
  | noComma _ _ _ _ _ ih ihs => exact List.forall_mem_cons.2 ⟨ih, ihs⟩

theorem Paired.reads (hs : Paired s) (q : Bytes) : ∃ f, ReadsString (s ++ 0x22 :: q) s f q := by
  induction hs with
  | nil => exact ⟨false, .close⟩
  | char hq hb h0 _ ih =>
    obtain ⟨f, h⟩ := ih
    exact ⟨_, .char hq hb h0 h⟩
  | pair _ ih =>
    obtain ⟨f, h⟩ := ih
    exact ⟨_, .escape h⟩

theorem Spells.value_head (h : Spells strtod (.value v) t) :
    ∃ c u, t = c :: u ∧ isBlank c = false := by
  cases h with
  | number ht _ =>
    obtain ⟨c, u, rfl, hc⟩ := ht.head
    exact ⟨c, u, rfl, (isBlank_false hc).1⟩
  | null | trueLit | falseLit | string | emptyArray | array | emptyObject | object =>
    exact ⟨_, _, rfl, by decide⟩

theorem Spells.skip_value (h : Spells strtod (.value v) t) (hw : IsWs w) :
    skipWriteBlank (w ++ (t ++ p)) = t ++ p := by
  obtain ⟨c, u, rfl, hc⟩ := h.value_head
  exact skipWriteBlank_ws hw hc

theorem isWs_nil : IsWs [] := fun _ h => (List.not_mem_nil h).elim

theorem Spells.skip (h : Spells strtod (.value v) t) : skipWriteBlank (t ++ p) = t ++ p :=
  h.skip_value isWs_nil

theorem Spells.skip_values {vs : List (Json ν)} (h : Spells strtod (.values vs) t) (hw : IsWs w) :
    skipWriteBlank (w ++ (t ++ p)) = t ++ p := by
  cases h with
  | oneValue h => exact h.skip_value hw
  | @moreValues v t w₁ w₂ vs ts h _ _ _ =>
    simpa using h.skip_value (p := w₁ ++ 0x2C :: w₂ ++ ts ++ p) hw

theorem Spells.members_head {ms : List (Bytes × Json ν)} (h : Spells strtod (.members ms) t) :
    ∃ u, t = 0x22 :: u := by
  cases h with
  | oneMember h _ =>
    cases h with
    | member => exact ⟨_, rfl⟩
  | moreMembers h _ _ _ =>
    cases h with
    | member => exact ⟨_, rfl⟩

theorem Spells.skip_members {ms : List (Bytes × Json ν)} (h : Spells strtod (.members ms) t)
    (hw : IsWs w) : skipWriteBlank (w ++ (t ++ p)) = t ++ p := by
  obtain ⟨u, rfl⟩ := h.members_head
  exact skipWriteBlank_ws hw rfl

theorem Spells.object_reads {ms : List (Bytes × Json ν)} (ht : Spells strtod (.members ms) t)
    (ho : Ordered ms) (hw : IsWs w) (h : Reads strtod (.members ms) (t ++ 0x7D :: q) f q) :
    Reads strtod (.value (.object ms)) (0x7B :: w ++ t ++ [0x7D] ++ q) f q := by
  have hskip := ht.skip_members (p := 0x7D :: q) hw
  have hread : Reads strtod (.value (.object (build ms))) (0x7B :: (w ++ (t ++ 0x7D :: q))) f q := by
    refine .object ?_ ?_
    · obtain ⟨u, rfl⟩ := ht.members_head
      rw [hskip, List.cons_append, List.head?_cons]
      decide
    · rwa [hskip]
  rw [build_eq ho] at hread
  simpa using hread

/-- The goal is read from the text and the cursor moves behind it. -/
def ReadBack (strtod : Bytes → Option ν) : Goal ν → Bytes → Prop
  | .value v, t => ∀ q, EndsNumber q → ∃ f, Reads strtod (.value v) (t ++ q) f q
  | .values vs, t => ∀ q, ∃ f, Reads strtod (.values vs) (t ++ 0x5D :: q) f q
  | .member name v, t => ∀ q, EndsNumber q → ∃ f, Reads strtod (.member name v) (t ++ q) f q
  | .members ms, t => ∀ q, ∃ f, Reads strtod (.members ms) (t ++ 0x7D :: q) f q

theorem Spells.readBack {g : Goal ν} (h : Spells strtod g t) : ReadBack strtod g t := by
  induction h with
  | null => exact fun q _ => ⟨false, .nullLit rfl⟩
  | trueLit => exact fun q _ => ⟨false, .trueLit rfl⟩
  | falseLit => exact fun q _ => ⟨false, .falseLit rfl⟩
  | number ht hx => exact fun q hq => ⟨false, .number (scanNumber_complete ht hq) (hx q hq)⟩
  | @string s hs =>
    intro q _
    obtain ⟨f, h⟩ := hs.reads q
    have hread : Reads strtod (.value (.string s)) (0x22 :: (s ++ 0x22 :: q)) f q := .string h
    exact ⟨f, by simpa using hread⟩
  | emptyArray => exact fun q _ => ⟨false, .emptyArray rfl⟩
  | @array vs t _ ih =>
    intro q _
    obtain ⟨f, h⟩ := ih q
    have hread : Reads strtod (.value (.array vs)) (0x5B :: (t ++ 0x5D :: q)) f q := .array h
    exact ⟨f, by simpa using hread⟩
  | emptyObject => exact fun q _ => ⟨false, .emptyObject rfl⟩
  | @object ms w t ho hw ht ih =>
    intro q _
    obtain ⟨f, h⟩ := ih q
    exact ⟨f, ht.object_reads ho hw h⟩
  | @oneValue v t ht ih =>
    intro q
    obtain ⟨f, h⟩ := ih (0x5D :: q) (endsNumber_ws isWs_nil (.inr (.inl rfl)))
    rw [← ht.skip] at h
    exact ⟨f, .oneValue h rfl⟩
  | @moreValues v t w w' vs ts ht hw hw' hvs ih ihs =>
    intro q
    obtain ⟨f, h⟩ := ih (w ++ 0x2C :: (w' ++ (ts ++ 0x5D :: q))) (endsNumber_ws hw (.inl rfl))
    obtain ⟨f', hs⟩ := ihs q
    rw [← ht.skip] at h
    rw [← hvs.skip_values hw'] at hs
    refine ⟨f || f', ?_⟩
    simpa using Reads.moreValues h (skipWriteBlank_ws hw rfl) hs.values_skip
  | @member name w w' v t hn hw hw' ht ih =>
    intro q hq
    obtain ⟨f', h⟩ := ih q hq
    obtain ⟨f, hname⟩ := hn.reads (w ++ 0x3A :: (w' ++ (t ++ q)))
    rw [← ht.skip_value hw'] at h
    have hread := Reads.member (c := 0x22) hname (skipWriteBlank_ws hw rfl) h
    exact ⟨_, by simpa using hread⟩
  | @oneMember name v t w ht hw ih =>
    intro q
    obtain ⟨f, h⟩ := ih (w ++ 0x7D :: q) (endsNumber_ws hw (.inr (.inr rfl)))
    refine ⟨f, ?_⟩
    rw [List.append_assoc]
    exact .oneMember h (skipWriteBlank_ws hw rfl)
  | @moreMembers name v t w w' ms ts ht hw hw' hms ih ihs =>
    intro q
    obtain ⟨f, h⟩ := ih (w ++ 0x2C :: (w' ++ (ts ++ 0x7D :: q))) (endsNumber_ws hw (.inl rfl))
    obtain ⟨f', hs⟩ := ihs q
    refine ⟨f || f', ?_⟩
    have hskip := hms.skip_members (p := 0x7D :: q) hw'
    rw [← hskip] at hs
    simpa using Reads.comma h (skipWriteBlank_ws hw rfl) hs

variable {ofInt : ℤ → ν} {toString : ν → Bytes} {ms : List (Bytes × Json ν)}

theorem isWs_blank : IsWs [0x20] := by simp [IsWs]

variable {f : Json ν → Json ν}

theorem spells_printValues {vs : List (Json ν)}
    (h : ∀ u ∈ v :: vs, Spells strtod (.value (f u)) (printValue toString u)) :
    Spells strtod (.values ((v :: vs).map f))
      ((str " , ").intercalate (printValues toString (v :: vs))) := by
  induction vs generalizing v with
  | nil =>
    rw [printValues, printValues, List.intercalate_singleton]
    exact .oneValue (h v (by simp))
  | cons w vs ih =>
    obtain ⟨hv, hvs⟩ := List.forall_mem_cons.1 h
    have hsep : str " , " = [0x20] ++ 0x2C :: [0x20] := rfl
    have hspells := Spells.moreValues hv isWs_blank isWs_blank (ih hvs)
    rw [hsep] at hspells ⊢
    rw [printValues, printValues, List.intercalate_cons_cons, ← printValues]
    simpa using hspells

theorem spells_printMember {m : Bytes × Json ν} (hn : Paired m.1)
    (h : Spells strtod (.value (f m.2)) (printValue toString m.2)) :
    Spells strtod (.member m.1 (f m.2)) (quoted m.1 ++ str " : " ++ printValue toString m.2) := by
  have hsep : str " : " = [0x20] ++ 0x3A :: [0x20] := rfl
  have hquote : str "\"" = [0x22] := rfl
  have hspells := Spells.member hn isWs_blank isWs_blank h
  rw [hsep, quoted, hquote]
  simpa using hspells

theorem spells_printMembers {m : Bytes × Json ν} (hw : IsWs w)
    (h : ∀ k ∈ m :: ms, Paired k.1 ∧ Spells strtod (.value (f k.2)) (printValue toString k.2)) :
    Spells strtod (.members ((m :: ms).map (fun m => (m.1, f m.2))))
      ((str ", \n").intercalate (printMembers toString (m :: ms)) ++ w) := by
  induction ms generalizing m with
  | nil =>
    obtain ⟨hn, hv⟩ := h m (by simp)
    rw [printMembers, printMembers, List.intercalate_singleton]
    exact .oneMember (spells_printMember hn hv) hw
  | cons k ms ih =>
    obtain ⟨⟨hn, hv⟩, hms⟩ := List.forall_mem_cons.1 h
    have hsep : str ", \n" = 0x2C :: [0x20, 0x0A] := rfl
    have hspells := Spells.moreMembers (spells_printMember hn hv) isWs_nil
      (by simp [IsWs] : IsWs [0x20, 0x0A]) (ih hms)
    rw [hsep] at hspells ⊢
    rw [printMembers, printMembers, List.intercalate_cons_cons, ← printMembers]
    simpa using hspells

theorem spells_printArray {vs : List (Json ν)}
    (h : ∀ u ∈ vs, Spells strtod (.value (f u)) (printValue toString u)) :
    Spells strtod (.value (.array (vs.map f))) (printValue toString (.array vs)) := by
  cases vs with
  | nil => exact .emptyArray
  | cons v vs => exact .array (spells_printValues h)

theorem spells_printObject (ho : Ordered (ms.map (fun m => (m.1, f m.2))))
    (h : ∀ m ∈ ms, Paired m.1 ∧ Spells strtod (.value (f m.2)) (printValue toString m.2)) :
    Spells strtod (.value (.object (ms.map fun m => (m.1, f m.2))))
      (printValue toString (.object ms)) := by
  cases ms with
  | nil => exact .emptyObject
  | cons m ms =>
    have hopen : str "\x7b\n" = 0x7B :: [0x0A] := rfl
    have hclose : str "\n\x7d" = [0x0A] ++ [0x7D] := rfl
    have hws : IsWs [0x0A] := by simp [IsWs]
    have hspells := Spells.object ho hws (spells_printMembers hws h)
    rw [printValue, hopen, hclose]
    simpa using hspells

theorem Integral.spells (hd : DoubleText ofInt toString strtod) (hv : Integral ofInt v)
    (hp : Texts Paired v) : Spells strtod (.value v) (printValue toString v) := by
  induction hv with
  | null => exact .null
  | @bool b =>
    cases b
    · exact .falseLit
    · exact .trueLit
  | @number n hn =>
    rw [printValue, hd.shows n hn]
    exact .number (isNumber_decimal n) fun q hq => hd.reads n q hn hq
  | string =>
    cases hp with
    | string hs => exact .string hs
  | @array vs _ ih =>
    cases hp with
    | array hs =>
      have h := spells_printArray (f := id) fun u hu => ih u hu (hs u hu)
      rwa [List.map_id] at h
  | @object ms ho _ ih =>
    cases hp with
    | object hn hs =>
      have hms : ms.map (fun m => (m.1, id m.2)) = ms := by simp
      have h := spells_printObject (f := id) (hms.symm ▸ ho) fun m hm => ⟨hn m hm, ih m hm (hs m hm)⟩
      rwa [hms] at h

theorem Spells.parses (h : Spells strtod (.value (.object ms)) t) (v₀ : Json ν) (q : Bytes) :
    parse strtod v₀ (t ++ q) = some (true, .object ms, q ++ [0]) := by
  have hne : t ++ q ≠ [] := by
    obtain ⟨c, u, rfl, _⟩ := h.value_head
    simp
  refine (parse_iff hne).2 ?_
  rw [List.append_assoc, h.skip]
  cases h with
  | emptyObject => exact ⟨false, .emptyObject rfl⟩
  | object ho hw h =>
    obtain ⟨f, hread⟩ := h.readBack (q ++ [0])
    exact ⟨f, h.object_reads ho hw hread⟩

theorem paired_of_parse {v₀ : Json ν} (ht : t ≠ []) (h : parse strtod v₀ t = some (true, v, q)) :
    Texts Paired v := by
  obtain ⟨f, hread⟩ := (parse_iff ht).1 h
  exact hread.paired

/-- An object is read back from its text exactly when its strings and names are paired. -/
theorem print_parse_iff (hd : DoubleText ofInt toString strtod) (hv : Integral ofInt (.object ms))
    (v₀ : Json ν) :
    (∃ q, parse strtod v₀ (print toString ms) = some (true, .object ms, q)) ↔
      Texts Paired (.object ms) := by
  constructor
  · rintro ⟨q, h⟩
    refine paired_of_parse ?_ h
    cases ms <;> simp [print, printValue, str]
  · intro hp
    have h := (hv.spells hd hp).parses v₀ []
    exact ⟨[0], by rwa [List.append_nil] at h⟩

theorem print_parse_one :
    ∃ q, parse readDouble .null (print (fun n => decimal n ++ zeros) [([0x61], .number 1)]) =
      some (true, .object [([0x61], .number 1)], q) := by
  refine (print_parse_iff doubleText_readDouble (.object (by simp) ?_) .null).2 (.object ?_ ?_)
  · have hone : Integral id (.number (id 1)) := .number (by decide)
    simpa using hone
  · simpa using Paired.char (by decide) (by decide) (by decide) .nil
  · simpa using Texts.number

/-- A quote in a string ends the string for the parser. -/
theorem print_parse_quote : ¬ ∀ ms : List (Bytes × Json ℤ), Integral id (.object ms) →
    Texts (fun s => 0 ∉ s) (.object ms) →
    ∃ q, parse readDouble .null (print (fun n => decimal n ++ zeros) ms) =
      some (true, .object ms, q) := by
  intro h
  have hv : Integral id (.object [([0x61], .string [0x22])]) :=
    .object (by simp) (by simpa using Integral.string)
  have hs : Texts (fun s => 0 ∉ s) (.object [([0x61], .string [0x22])] : Json ℤ) :=
    .object (by simp) (by simpa using Texts.string (by decide))
  obtain ⟨q, hq⟩ := h _ hv hs
  cases paired_of_parse (by simp [print, printValue, str]) hq with
  | object _ hp =>
    cases hp _ List.mem_cons_self with
    | string hquote =>
      cases hquote with
      | char hne _ _ _ => exact hne rfl

end Tadis.Pson
