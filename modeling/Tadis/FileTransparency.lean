import Tadis.JsonSpacing

/-!
# A file against the memory

A value that is written to a file and read again has lost the white space of its text before it is
parsed. On a spaced text that makes no difference. Where strings and names have no quotes and no
lone backslash, the text of the value is spaced exactly when no string and no name has white space,
and in no other case does the file give what the memory gives.
-/

namespace Tadis.Pson

open JsonGrammar JsonFileRWer

/-- The texts of the numbers are numbers, the objects are maps, and the strings and names have no
quotes and no lone backslash. -/
inductive Printable {ν : Type} (toString : ν → Bytes) (strtod : Bytes → Option ν) : Json ν → Prop
  | null : Printable toString strtod .null
  | bool {b} : Printable toString strtod (.bool b)
  | number {x y} (ht : IsNumber (toString x))
      (hx : ∀ q, EndsNumber q → strtod (toString x ++ q) = some y) :
    Printable toString strtod (.number x)
  | string {s} (hs : Paired s) : Printable toString strtod (.string s)
  | array {vs} (h : ∀ v ∈ vs, Printable toString strtod v) : Printable toString strtod (.array vs)
  | object {ms} (ho : Ordered ms) (hn : ∀ m ∈ ms, Paired m.1)
      (h : ∀ m ∈ ms, Printable toString strtod m.2) : Printable toString strtod (.object ms)

variable {ν : Type} {strtod : Bytes → Option ν} {toString : ν → Bytes} {ρ : Bytes → Bytes}
  {p q r s t w : Bytes} {c d : UInt8} {v : Json ν} {ms : List (Bytes × Json ν)}

/-- Reading the file of an object is parsing its text. -/
def Transparent (toString : ν → Bytes) (strtod : Bytes → Option ν) (ms : List (Bytes × Json ν)) :
    Prop :=
  ∀ (ch : UInt8) (v₀ : Json ν), ∃ file, write toString (.object ms) = some file ∧
    JsonFileRWer.read strtod ch file v₀ =
      (parse strtod v₀ (print toString ms)).map (fun r => (r.1, r.2.1))

theorem Arrives.eq {x : Option Bytes} {o : Outcome (Json ν)} (h : Arrives ρ x v o) :
    o.1 = x.isSome ∧ o.2.1 = v := by
  cases x with
  | none =>
    obtain ⟨s, rfl⟩ := h
    exact ⟨rfl, rfl⟩
  | some q =>
    obtain rfl := h
    exact ⟨rfl, rfl⟩

theorem parse_alike {x : Option Bytes} {g : Json ν → Json ν} (hρ : Medium ρ)
    (hc : isSpace c = false) (h0 : c ≠ 0) (hbuf : t ++ [0] = ρ (c :: p))
    (hg : ∀ fuel v o, parseValue strtod fuel v (ρ (c :: p)) = some o → Arrives ρ x (g v) o)
    (v₀ : Json ν) : (parse strtod v₀ t).map (fun r => (r.1, r.2.1)) = some (x.isSome, g v₀) := by
  have hcons := hρ.cons (p := p) hc
  have hne : t ≠ [] := by
    rintro rfl
    rw [hcons] at hbuf
    exact h0 (List.cons_eq_cons.1 hbuf).1.symm
  have hskip : skipWriteBlank (ρ (c :: p)) = ρ (c :: p) := by
    rw [hcons, skipWriteBlank, List.dropWhile_cons_of_neg (by simp [isBlank_of_notSpace hc])]
  obtain ⟨ok, v, q, hparse, _⟩ := parse_in_bounds strtod t (Nat.zero_le _) v₀
  rw [parseFrom_zero] at hparse
  have hrun := hparse
  rw [parse, if_neg hne, hbuf, hskip] at hrun
  obtain ⟨rfl, rfl⟩ := (hg _ _ _ hrun).eq
  rw [hparse]
  rfl

theorem print_head (toString : ν → Bytes) (ms : List (Bytes × Json ν)) :
    ∃ u, print toString ms = '{'.toUInt8 :: u := by
  cases ms with
  | nil => exact ⟨_, rfl⟩
  | cons m ms => exact ⟨_, rfl⟩

theorem Spaced.transparent {x : Option Bytes} (h : Spaced strtod .value (print toString ms) x) :
    Transparent toString strtod ms := by
  intro ch v₀
  refine ⟨print toString ms, rfl, ?_⟩
  obtain ⟨g, hg⟩ := h.alike
  obtain ⟨u, hu⟩ := print_head toString ms
  have hfile : readChars ch (print toString ms) ++ [0] = fromFile ch (print toString ms) := by
    rw [readChars_eq, List.append_assoc]
    rfl
  rw [hu] at hg hfile ⊢
  have hread := parse_alike (medium_fromFile ch) (by decide) (by decide) hfile
    (hg _ (medium_fromFile ch)) v₀
  have hmemory := parse_alike medium_inMemory (by decide) (by decide) rfl (hg _ medium_inMemory) v₀
  exact hread.trans hmemory.symm

theorem Paired.row (h : Paired s) : Row s s := by
  induction h with
  | nil => exact .nil
  | char hq hb h0 _ ih => exact .char hq hb h0 ih
  | pair _ ih => exact .escape ih

theorem Foreign.endsNumber (h : Foreign q) : EndsNumber q := by
  obtain ⟨c, r, rfl, hc⟩ := h
  have hne : ∀ b, isNumberChar b = true → c ≠ b := by
    rintro b hb rfl
    rw [hc] at hb
    cases hb
  exact ⟨c, r, rfl, fun hd => hne c (isNumberChar_digit hd) rfl, hne _ (by decide),
    hne _ (by decide), hne _ (by decide)⟩

theorem isNumberChar_of_isNumber (h : IsNumber t) : ∀ b ∈ t, isNumberChar b = true := by
  intro b hb
  rcases h.mem hb with hdigit | hmark
  · exact isNumberChar_digit hdigit
  · have hall : [(0x2B : UInt8), 0x2D, 0x2E, 0x65, 0x45].all isNumberChar = true := by decide
    exact List.all_eq_true.1 hall b hmark

theorem spaced_number {x : ν} (ht : IsNumber t) (hx : ∀ q, EndsNumber q → strtod (t ++ q) = some x)
    (hq : Next q d r) (hd : isNumberChar d = false) : Spaced strtod .value (t ++ q) (some q) := by
  have hchars := isNumberChar_of_isNumber ht
  have hconv : Converts strtod t x [] := fun q hq =>
    ⟨scanNumber_complete ht hq.endsNumber, hx q hq.endsNumber⟩
  obtain ⟨c, u, rfl, hc⟩ := ht.head
  have hhead : c ∉ str "tfn" := fun hmem =>
    notMem_heads hc (List.mem_append_left (str "\"[\x7b") hmem)
  exact .number hhead hchars hconv hq hd

/-- A text that spells a value starts with no white space and no closing bracket. -/
theorem Spells.next (h : Spells strtod (.value v) t) :
    ∃ c u, t = c :: u ∧ c ≠ ']'.toUInt8 ∧ ∀ {w}, IsWs w → ∀ p, Next (w ++ (t ++ p)) c (u ++ p) := by
  have hhead : ∃ c u, t = c :: u ∧ c ≠ ']'.toUInt8 ∧ isSpace c = false := by
    cases h with
    | number ht _ =>
      have hchars := isNumberChar_of_isNumber ht
      obtain ⟨c, u, rfl, _⟩ := ht.head
      have hc := hchars c List.mem_cons_self
      refine ⟨c, u, rfl, ?_, isSpace_of_numberChar hc⟩
      rintro rfl
      exact absurd hc (by decide)
    | null | trueLit | falseLit | string | emptyArray | array | emptyObject | object =>
      exact ⟨_, _, rfl, by decide, by decide⟩
  obtain ⟨c, u, rfl, hne, hc⟩ := hhead
  exact ⟨c, u, rfl, hne, fun hw p => .mk hw hc⟩

theorem Spells.next_values {vs : List (Json ν)} (h : Spells strtod (.values vs) t) :
    ∃ c u, c ≠ ']'.toUInt8 ∧ ∀ {w}, IsWs w → ∀ p, Next (w ++ (t ++ p)) c (u ++ p) := by
  cases h with
  | oneValue h =>
    obtain ⟨c, u, rfl, hne, hnext⟩ := h.next
    exact ⟨c, u, hne, hnext⟩
  | @moreValues v t w₁ w₂ vs ts h _ _ _ =>
    obtain ⟨c, u, rfl, hne, hnext⟩ := h.next
    refine ⟨c, u ++ w₁ ++ 0x2C :: w₂ ++ ts, hne, fun hw p => ?_⟩
    simpa using hnext hw (w₁ ++ 0x2C :: w₂ ++ ts ++ p)

def SpacedGoal (strtod : Bytes → Option ν) : Goal ν → Bytes → Prop
  | .value _, t => ∀ q d r, Next q d r → isNumberChar d = false →
      Spaced strtod .value (t ++ q) (some q)
  | .values _, t => ∀ w q, IsWs w → Spaced strtod .values (w ++ (t ++ ']'.toUInt8 :: q)) (some q)
  | .member _ _, t => ∀ q d r, Next q d r → isNumberChar d = false →
      Spaced strtod .member (t ++ q) (some q)
  | .members _, t => ∀ q, Spaced strtod .members (t ++ '}'.toUInt8 :: q) (some q)

theorem spaced_object (hw : IsWs w) (h : Spells strtod (.members ms) t)
    (hread : Spaced strtod .members (t ++ '}'.toUInt8 :: q) (some q)) :
    Spaced strtod .value (0x7B :: w ++ t ++ [0x7D] ++ q) (some q) := by
  obtain ⟨u, rfl⟩ := h.members_head
  simp only [List.cons_append, List.append_assoc]
  exact .object (.mk hw (by decide)) (by decide) hread

theorem Spells.spaced {g : Goal ν} (h : Spells strtod g t) (hg : TextsGoal Solid g) :
    SpacedGoal strtod g t := by
  induction h with
  | null => exact fun q d r hq hd => .word (by decide)
  | trueLit => exact fun q d r hq hd => .word (by decide)
  | falseLit => exact fun q d r hq hd => .word (by decide)
  | number ht hx => exact fun q d r hq hd => spaced_number ht hx hq hd
  | @string s hs =>
    intro q d r _ _
    cases hg with
    | string hsolid =>
      simp only [List.cons_append, List.append_assoc]
      exact .string (.closed hsolid hs.row)
  | emptyArray => exact fun q d r _ _ => .emptyArray (.mk isWs_nil (by decide))
  | @array vs t h ih =>
    intro q d r _ _
    cases hg with
    | array hvs =>
      obtain ⟨c, u, hc, hnext⟩ := h.next_values
      simp only [List.cons_append, List.append_assoc]
      exact .array (hnext isWs_nil _) hc (ih hvs [] q isWs_nil)
  | emptyObject => exact fun q d r _ _ => .emptyObject (.mk isWs_nil (by decide))
  | object _ hw h ih =>
    cases hg with
    | object hn hms =>
      exact fun q _ _ _ _ => spaced_object hw h (ih (fun m hm => ⟨hn m hm, hms m hm⟩) q)
  | @oneValue v t h ih =>
    intro w q hw
    obtain ⟨c, u, rfl, _, hnext⟩ := h.next
    have hread := ih (hg _ (by simp)) (']'.toUInt8 :: q) _ _ (.mk isWs_nil (by decide)) (by decide)
    exact .lastValue (hnext hw _) hread (.mk isWs_nil (by decide))
  | @moreValues v t w₁ w₂ vs ts h hw₁ hw₂ hvs ih ihs =>
    intro w q hw
    obtain ⟨hv, hvs'⟩ := List.forall_mem_cons.1 hg
    have hcomma : Next (w₁ ++ 0x2C :: (w₂ ++ (ts ++ ']'.toUInt8 :: q))) 0x2C _ := .mk hw₁ (by decide)
    obtain ⟨c, u, rfl, _, hnext⟩ := h.next
    have hread := ih hv _ _ _ hcomma (by decide)
    simp only [List.append_assoc, List.cons_append] at hread hnext ⊢
    exact .moreValues (hnext hw _) hread hcomma (ihs hvs' w₂ q hw₂)
  | @member name w w' v t hn hw hw' h ih =>
    intro q d r hq hd
    obtain ⟨c, u, rfl, _, hnext⟩ := h.next
    have hread := ih hg.2 q d r hq hd
    simp only [List.append_assoc, List.cons_append] at hread hnext ⊢
    exact .member (by decide) (.closed hg.1 hn.row) (.mk hw (by decide)) (hnext hw' _) hread
  | @oneMember name v t w h hw ih =>
    intro q
    have hbrace : Next (w ++ '}'.toUInt8 :: q) '}'.toUInt8 q := .mk hw (by decide)
    rw [List.append_assoc]
    exact .lastMember (ih (hg _ List.mem_cons_self) _ _ _ hbrace (by decide)) hbrace
  | @moreMembers name v t w w' ms ts h hw hw' hms ih ihs =>
    intro q
    obtain ⟨hm, hms'⟩ := List.forall_mem_cons.1 hg
    have hcomma : Next (w ++ 0x2C :: (w' ++ (ts ++ '}'.toUInt8 :: q))) 0x2C _ := .mk hw (by decide)
    have hread := ih hm _ _ _ hcomma (by decide)
    have hmore := ihs hms' q
    obtain ⟨u, rfl⟩ := hms.members_head
    simp only [List.append_assoc, List.cons_append] at hread hmore hcomma ⊢
    exact .comma hread hcomma (.mk hw' (by decide)) hmore

theorem Spells.spaced_object_text (h : Spells strtod (.value (.object ms)) t)
    (hs : Texts Solid (.object ms)) : Spaced strtod .value t (some []) := by
  cases h with
  | emptyObject => exact .emptyObject (.mk isWs_nil (by decide))
  | object _ hw h =>
    cases hs with
    | object hn hms =>
      have hread := spaced_object hw h (h.spaced (fun m hm => ⟨hn m hm, hms m hm⟩) [])
      rwa [List.append_nil] at hread

theorem ReadsString.solid {f : Bool} (h : ReadsString p s f q) (hp : Solid p) : Solid s := by
  induction h with
  | close => exact solid_nil
  | char _ _ _ _ ih =>
    obtain ⟨hc, hp⟩ := List.forall_mem_cons.1 hp
    exact (ih hp).cons hc
  | escape _ ih =>
    obtain ⟨hb, hp⟩ := List.forall_mem_cons.1 hp
    exact ((ih (List.forall_mem_cons.1 hp).2).cons hb).cons hb

theorem Reads.solid {g : Goal ν} {f : Bool} (h : Reads strtod g p f q) (hp : Solid p) :
    TextsGoal Solid g := by
  induction h with
  | nullLit => exact .null
  | trueLit | falseLit => exact .bool
  | number => exact .number
  | string h => exact .string (h.solid (hp.of_suffix (List.suffix_cons _ _)))
  | emptyArray => exact .array (by simp)
  | array _ ih => exact .array (ih (hp.of_suffix (List.suffix_cons _ _)))
  | emptyObject => exact .object (by simp) (by simp)
  | object _ _ ih =>
    have hms := ih (hp.of_suffix ((List.dropWhile_suffix _).trans (List.suffix_cons _ _)))
    exact .object (fun m hm => (hms m (mem_build hm)).1) fun m hm => (hms m (mem_build hm)).2
  | oneValue _ _ ih =>
    have hv := ih (hp.of_suffix (List.dropWhile_suffix _))
    exact fun v hm => List.mem_singleton.1 hm ▸ hv
  | moreValues h hq _ ih ihs =>
    have hskip := hp.of_suffix (List.dropWhile_suffix isBlank)
    exact List.forall_mem_cons.2 ⟨ih hskip, ihs (hskip.of_suffix ((skip_suffix hq).trans h.suffix))⟩
  | member hname hq _ ih =>
    have hp' := hp.of_suffix (List.suffix_cons _ _)
    have hr := hp'.of_suffix ((skip_suffix hq).trans hname.suffix)
    exact ⟨hname.solid hp', ih (hr.of_suffix (List.dropWhile_suffix _))⟩
  | oneMember _ _ ih =>
    have hm := ih hp
    exact fun m hk => List.mem_singleton.1 hk ▸ hm
  | comma h hq _ ih ihs =>
    have hr := hp.of_suffix ((skip_suffix hq).trans h.suffix)
    exact List.forall_mem_cons.2 ⟨ih hp, ihs (hr.of_suffix (List.dropWhile_suffix _))⟩
  | noComma h hq _ _ _ ih ihs =>
    have hr := hp.of_suffix ((List.dropWhile_suffix isBlank).trans h.suffix)
    exact List.forall_mem_cons.2 ⟨ih hp, ihs (hq ▸ hr)⟩

/-- What the file gives has no white space in its strings, whatever the byte behind it. -/
theorem Transparent.solid (h : Transparent toString strtod ms) {v₀ : Json ν}
    (hparse : parse strtod v₀ (print toString ms) = some (true, v, q)) : Texts Solid v := by
  obtain ⟨_, ⟨⟩, hread⟩ := h 0x21 v₀
  rw [hparse] at hread
  obtain ⟨⟨ok, w, r⟩, hfile, hok⟩ := Option.map_eq_some_iff.1 hread
  cases hok
  have hne : readChars 0x21 (print toString ms) ≠ [] := by simp [readChars_eq]
  obtain ⟨f, hreads⟩ := (parse_iff hne).1 hfile
  have hsolid : Solid (readChars 0x21 (print toString ms) ++ [0]) := by
    rw [readChars_eq]
    exact ((solid_strip _).append (by decide)).append (by decide)
  exact hreads.solid (hsolid.of_suffix (List.dropWhile_suffix _))

mutual

def reread (f : ν → ν) : Json ν → Json ν
  | .null => .null
  | .bool b => .bool b
  | .number x => .number (f x)
  | .string s => .string s
  | .array vs => .array (rereadValues f vs)
  | .object ms => .object (rereadMembers f ms)

def rereadValues (f : ν → ν) : List (Json ν) → List (Json ν)
  | [] => []
  | v :: vs => reread f v :: rereadValues f vs

def rereadMembers (f : ν → ν) : List (Bytes × Json ν) → List (Bytes × Json ν)
  | [] => []
  | (name, v) :: ms => (name, reread f v) :: rereadMembers f ms

end

theorem rereadValues_eq (f : ν → ν) (vs : List (Json ν)) :
    rereadValues f vs = vs.map (reread f) := by
  induction vs with
  | nil => rfl
  | cons v vs ih => rw [rereadValues, ih, List.map_cons]

theorem rereadMembers_eq (f : ν → ν) (ms : List (Bytes × Json ν)) :
    rereadMembers f ms = ms.map fun m => (m.1, reread f m.2) := by
  induction ms with
  | nil => rfl
  | cons m ms ih => rw [rereadMembers, ih, List.map_cons]

/-- The double that the text of `x` is converted to. -/
def rounded (toString : ν → Bytes) (strtod : Bytes → Option ν) (x : ν) : ν :=
  (strtod (toString x ++ [0])).getD x

theorem Printable.spells (h : Printable toString strtod v) :
    Spells strtod (.value (reread (rounded toString strtod) v)) (printValue toString v) := by
  induction h with
  | null => exact .null
  | @bool b =>
    cases b
    · exact .falseLit
    · exact .trueLit
  | @number x y ht hx =>
    have hy : rounded toString strtod x = y := by
      rw [rounded, hx [0] ⟨0, [], rfl, by decide⟩]
      rfl
    exact .number ht (hy ▸ hx)
  | string hs => exact .string hs
  | array _ ih =>
    rw [reread, rereadValues_eq]
    exact spells_printArray ih
  | object ho hn _ ih =>
    rw [reread, rereadMembers_eq]
    exact spells_printObject (List.pairwise_map.2 ho) fun m hm => ⟨hn m hm, ih m hm⟩

theorem Printable.texts_iff (h : Printable toString strtod v) (f : ν → ν) (P : Bytes → Prop) :
    Texts P (reread f v) ↔ Texts P v := by
  induction h with
  | null | bool | string => rfl
  | number => exact ⟨fun _ => .number, fun _ => .number⟩
  | array _ ih =>
    rw [reread, rereadValues_eq]
    constructor
    · rintro ⟨⟩
      rename_i h
      exact .array fun v hv => (ih v hv).1 (h _ (List.mem_map_of_mem hv))
    · rintro ⟨⟩
      rename_i h
      exact .array (List.forall_mem_map.2 fun v hv => (ih v hv).2 (h v hv))
  | object _ _ _ ih =>
    rw [reread, rereadMembers_eq]
    constructor
    · rintro ⟨⟩
      rename_i hn h
      exact .object (fun m hm => hn (m.1, reread f m.2) (List.mem_map.2 ⟨m, hm, rfl⟩))
        fun m hm => (ih m hm).1 (h _ (List.mem_map.2 ⟨m, hm, rfl⟩))
    · rintro ⟨⟩
      rename_i hn h
      exact .object (List.forall_mem_map.2 hn)
        (List.forall_mem_map.2 fun m hm => (ih m hm).2 (h m hm))

theorem Printable.spaced (h : Printable toString strtod (.object ms))
    (hs : Texts Solid (.object ms)) : Spaced strtod .value (print toString ms) (some []) :=
  h.spells.spaced_object_text ((h.texts_iff _ _).2 hs)

theorem Printable.solid (h : Printable toString strtod (.object ms))
    (ht : Transparent toString strtod ms) : Texts Solid (.object ms) := by
  have hparse := h.spells.parses .null []
  rw [List.append_nil] at hparse
  exact (h.texts_iff _ _).1 (ht.solid hparse)

/-- A file gives what the memory gives where white space is met between tokens only, and where it does,
what is read has no white space in its strings. For values whose text spells them both are the same. -/
theorem transparent_iff (toString : ν → Bytes) (strtod : Bytes → Option ν)
    (ms : List (Bytes × Json ν)) :
    ((∃ x, Spaced strtod .value (print toString ms) x) → Transparent toString strtod ms) ∧
      (Transparent toString strtod ms → ∀ v₀ v q,
        parse strtod v₀ (print toString ms) = some (true, v, q) → Texts Solid v) ∧
      (Printable toString strtod (.object ms) →
        (Transparent toString strtod ms ↔ ∃ x, Spaced strtod .value (print toString ms) x) ∧
        (Transparent toString strtod ms ↔ Texts Solid (.object ms))) := by
  have hspaced : (∃ x, Spaced strtod .value (print toString ms) x) →
      Transparent toString strtod ms := fun ⟨_, h⟩ => h.transparent
  refine ⟨hspaced, fun ht _ _ _ hparse => ht.solid hparse, fun h => ⟨⟨?_, hspaced⟩, ?_⟩⟩
  · exact fun ht => ⟨_, h.spaced (h.solid ht)⟩
  · exact ⟨h.solid, fun hs => (h.spaced hs).transparent⟩

theorem transparent_one :
    Transparent (fun n => decimal n ++ zeros) readDouble [(str "a", .string (str "x"))] := by
  have hname : Paired (str "a") := .char (by decide) (by decide) (by decide) .nil
  have htext : Paired (str "x") := .char (by decide) (by decide) (by decide) .nil
  refine ((transparent_iff _ readDouble _).2.2 (.object (List.pairwise_singleton _ _) ?_ ?_)).2.2 ?_
  · exact List.forall_mem_singleton.2 hname
  · exact List.forall_mem_singleton.2 (.string htext)
  · exact .object (List.forall_mem_singleton.2 (by decide))
      (List.forall_mem_singleton.2 (.string (by decide)))

/-- A blank in a string is lost. -/
theorem blank_lost : ¬ ∀ ms : List (Bytes × Json ℤ),
    Transparent (fun n => decimal n ++ zeros) readDouble ms := by
  intro h
  obtain ⟨_, ⟨⟩, hread⟩ := h [(str "a", .string (str "x y"))] 0x7D .null
  have hfile : JsonFileRWer.read readDouble 0x7D
      (print (fun n => decimal n ++ zeros) [(str "a", .string (str "x y"))]) .null =
      some (true, .object [(str "a", .string (str "xy"))]) := rfl
  have hmemory : parse readDouble .null
      (print (fun n => decimal n ++ zeros) [(str "a", .string (str "x y"))]) =
      some (true, .object [(str "a", .string (str "x y"))], [0]) := rfl
  rw [hfile, hmemory] at hread
  simp [str] at hread

end Tadis.Pson
