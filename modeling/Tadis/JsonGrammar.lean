import Mathlib.Data.List.Basic

/-!
# The JSON grammar

The grammar of RFC 8259 over bytes: a byte above `7F` is part of the encoding of an unescaped
character. `Derives` relates a symbol of the grammar to its texts; the text of a value starts and ends
without white space.
-/

namespace JsonGrammar

def IsWs (t : List UInt8) : Prop := ∀ c ∈ t, c = 0x20 ∨ c = 0x09 ∨ c = 0x0A ∨ c = 0x0D

def IsDigit (c : UInt8) : Prop := 0x30 ≤ c ∧ c ≤ 0x39

structure IsDigits (t : List UInt8) : Prop where
  digits : ∀ c ∈ t, IsDigit c
  nonempty : t ≠ []

inductive IsInt : List UInt8 → Prop
  | zero : IsInt [0x30]
  | digits {c t} (hc : 0x31 ≤ c ∧ c ≤ 0x39) (h : ∀ d ∈ t, IsDigit d) : IsInt (c :: t)

inductive IsFrac : List UInt8 → Prop
  | none : IsFrac []
  | digits {t} (h : IsDigits t) : IsFrac (0x2E :: t)

inductive IsExp : List UInt8 → Prop
  | none : IsExp []
  | digits {e s t} (he : e = 0x65 ∨ e = 0x45) (hs : s = [] ∨ s = [0x2B] ∨ s = [0x2D])
      (h : IsDigits t) : IsExp (e :: s ++ t)

inductive IsNumber : List UInt8 → Prop
  | mk {s i f e} (hs : s = [] ∨ s = [0x2D]) (hi : IsInt i) (hf : IsFrac f) (he : IsExp e) :
    IsNumber (s ++ i ++ f ++ e)

/-- A number starts with a sign or a digit. -/
theorem IsNumber.head {t : List UInt8} (h : IsNumber t) :
    ∃ c u, t = c :: u ∧ (c = 0x2D ∨ IsDigit c) := by
  obtain ⟨hs, hi, _, _⟩ := h
  rcases hs with rfl | rfl
  · cases hi with
    | zero => exact ⟨0x30, _, rfl, .inr ⟨by decide, by decide⟩⟩
    | @digits c t hc ht =>
      exact ⟨c, _, rfl, .inr ⟨UInt8.le_trans (by decide) hc.1, hc.2⟩⟩
  · exact ⟨0x2D, _, rfl, .inl rfl⟩

theorem IsNumber.mem {t : List UInt8} (h : IsNumber t) {c : UInt8} (hc : c ∈ t) :
    IsDigit c ∨ c ∈ [(0x2B : UInt8), 0x2D, 0x2E, 0x65, 0x45] := by
  obtain ⟨hs, hi, hf, he⟩ := h
  simp only [List.mem_append] at hc
  rcases hc with ((hc | hc) | hc) | hc
  · rcases hs with rfl | rfl
    · cases hc
    · exact .inr (by simp [List.mem_singleton.1 hc])
  · cases hi with
    | zero => exact .inl (List.mem_singleton.1 hc ▸ ⟨by decide, by decide⟩)
    | digits hd ht =>
      rcases List.mem_cons.1 hc with rfl | hc
      · exact .inl ⟨UInt8.le_trans (by decide) hd.1, hd.2⟩
      · exact .inl (ht c hc)
  · cases hf with
    | none => cases hc
    | digits ht =>
      rcases List.mem_cons.1 hc with rfl | hc
      · exact .inr (by simp)
      · exact .inl (ht.digits c hc)
  · cases he with
    | none => cases hc
    | digits hexp hsign ht =>
      rcases List.mem_append.1 hc with hc | hc
      · rcases List.mem_cons.1 hc with rfl | hc
        · rcases hexp with rfl | rfl <;> exact .inr (by simp)
        · rcases hsign with rfl | rfl | rfl
          · cases hc
          · exact .inr (by simp [List.mem_singleton.1 hc])
          · exact .inr (by simp [List.mem_singleton.1 hc])
      · exact .inl (ht.digits c hc)

theorem IsNumber.ne_nil {t : List UInt8} (h : IsNumber t) : t ≠ [] := by
  obtain ⟨c, u, rfl, _⟩ := h.head
  simp

def IsHex (c : UInt8) : Prop := IsDigit c ∨ (0x41 ≤ c ∧ c ≤ 0x46) ∨ (0x61 ≤ c ∧ c ≤ 0x66)

instance (c : UInt8) : Decidable (IsDigit c) := inferInstanceAs (Decidable (_ ∧ _))

instance (c : UInt8) : Decidable (IsHex c) := inferInstanceAs (Decidable (_ ∨ _))

/-- The letters of the escapes of two characters. -/
def escapes : List UInt8 := [0x22, 0x5C, 0x2F, 0x62, 0x66, 0x6E, 0x72, 0x74]

/-- What stands between the quotes. -/
inductive IsChars : List UInt8 → Prop
  | nil : IsChars []
  | unescaped {c t} (hc : 0x20 ≤ c) (hq : c ≠ 0x22) (hb : c ≠ 0x5C) (h : IsChars t) : IsChars (c :: t)
  | escape {c t} (hc : c ∈ escapes) (h : IsChars t) : IsChars (0x5C :: c :: t)
  | unicode {u t} (hu : ∀ c ∈ u, IsHex c) (hlen : u.length = 4) (h : IsChars t) :
    IsChars (0x5C :: 0x75 :: (u ++ t))

inductive Symbol
  | value
  | values
  | member
  | members

inductive Derives : Symbol → List UInt8 → Prop
  | null : Derives .value [0x6E, 0x75, 0x6C, 0x6C]
  | true : Derives .value [0x74, 0x72, 0x75, 0x65]
  | false : Derives .value [0x66, 0x61, 0x6C, 0x73, 0x65]
  | number {t} (h : IsNumber t) : Derives .value t
  | string {t} (h : IsChars t) : Derives .value (0x22 :: t ++ [0x22])
  | emptyArray {w} (hw : IsWs w) : Derives .value (0x5B :: w ++ [0x5D])
  | array {t} (h : Derives .values t) : Derives .value (0x5B :: t ++ [0x5D])
  | emptyObject {w} (hw : IsWs w) : Derives .value (0x7B :: w ++ [0x7D])
  | object {t} (h : Derives .members t) : Derives .value (0x7B :: t ++ [0x7D])
  | oneValue {w t w'} (hw : IsWs w) (h : Derives .value t) (hw' : IsWs w') :
    Derives .values (w ++ t ++ w')
  | moreValues {w t w' ts} (hw : IsWs w) (h : Derives .value t) (hw' : IsWs w')
      (hts : Derives .values ts) : Derives .values (w ++ t ++ w' ++ 0x2C :: ts)
  | member {w k w₁ w₂ t w₃} (hw : IsWs w) (hk : IsChars k) (hw₁ : IsWs w₁) (hw₂ : IsWs w₂)
      (h : Derives .value t) (hw₃ : IsWs w₃) :
    Derives .member (w ++ 0x22 :: k ++ 0x22 :: w₁ ++ 0x3A :: w₂ ++ t ++ w₃)
  | oneMember {t} (h : Derives .member t) : Derives .members t
  | moreMembers {t ts} (h : Derives .member t) (hts : Derives .members ts) :
    Derives .members (t ++ 0x2C :: ts)

end JsonGrammar
