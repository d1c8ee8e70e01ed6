import Mathlib.Tactic.Common
import Mathlib.Data.List.GetD

/-!
# Fixed-size byte blocks

A `Block N` is an array of exactly `N` bytes. `load` copies bytes out of it and `store` copies a
byte list into it at an offset, as `memcpy` does for a range inside the block. Both are total: a
byte outside the block reads as zero and is not stored. Callers that copy a range which may leave
the block check `Fits` first.
-/

abbrev Block (N : ℕ) := Fin N → UInt8

namespace Block

variable {N : ℕ}

def zero : Block N := fun _ => 0

def byte (b : Block N) (i : ℕ) : UInt8 := if h : i < N then b ⟨i, h⟩ else 0

/-- The range of `len` bytes from `off` on lies inside a block of `N` bytes. -/
def Fits (N off len : ℕ) : Prop := off + len ≤ N

instance (N off len : ℕ) : Decidable (Fits N off len) := Nat.decLe _ _

def load (b : Block N) (off len : ℕ) : List UInt8 := (List.range len).map (fun i => b.byte (off + i))

def store (b : Block N) (off : ℕ) (bs : List UInt8) : Block N := fun i =>
  if off ≤ i.1 ∧ i.1 < off + bs.length then bs.getD (i.1 - off) 0 else b i

@[simp] theorem byte_zero (i : ℕ) : (zero : Block N).byte i = 0 := by
  unfold byte zero
  split <;> rfl

@[simp] theorem length_load (b : Block N) (off len : ℕ) : (b.load off len).length = len := by
  simp [load]

theorem load_zero (off len : ℕ) : (zero : Block N).load off len = List.replicate len 0 := by
  simp [load, List.map_const']

theorem getD_load (b : Block N) (off len i : ℕ) :
    (b.load off len).getD i 0 = if i < len then b.byte (off + i) else 0 := by
  unfold load
  split_ifs with h
  · rw [List.getD_eq_getElem _ _ (by simpa using h)]
    simp
  · exact List.getD_eq_default _ _ (by simpa using h)

theorem byte_store_of_mem (b : Block N) {off i : ℕ} {bs : List UInt8} (hi : i < N)
    (hlo : off ≤ i) (hhi : i < off + bs.length) : (b.store off bs).byte i = bs.getD (i - off) 0 := by
  simp [byte, store, hi, hlo, hhi]

theorem byte_store_of_lt (b : Block N) {off i : ℕ} {bs : List UInt8} (h : i < off) :
    (b.store off bs).byte i = b.byte i := by
  have hn : ¬ off ≤ i := by omega
  simp [byte, store, hn]

theorem byte_store_of_ge (b : Block N) {off i : ℕ} {bs : List UInt8} (h : off + bs.length ≤ i) :
    (b.store off bs).byte i = b.byte i := by
  have hn : ¬ i < off + bs.length := by omega
  simp [byte, store, hn]

theorem load_congr {b c : Block N} {off len : ℕ}
    (h : ∀ i, off ≤ i → i < off + len → b.byte i = c.byte i) : b.load off len = c.load off len := by
  apply List.map_congr_left
  intro i hi
  exact h (off + i) (by omega) (by have := List.mem_range.1 hi; omega)

/-- A stored range reads back as stored. -/
theorem load_store_same (b : Block N) {off : ℕ} {bs : List UInt8} (h : Fits N off bs.length) :
    (b.store off bs).load off bs.length = bs := by
  unfold Fits at h
  apply List.ext_getElem (by simp)
  intro i hi hi'
  simp only [load, List.getElem_map, List.getElem_range]
  rw [byte_store_of_mem b (by omega) (by omega) (by omega), Nat.add_sub_cancel_left,
    List.getD_eq_getElem bs 0 hi']

/-- A range disjoint from the stored one is unchanged. -/
theorem load_store_disjoint (b : Block N) {off off' len : ℕ} {bs : List UInt8}
    (h : off' + len ≤ off ∨ off + bs.length ≤ off') :
    (b.store off bs).load off' len = b.load off' len := by
  apply load_congr
  intro i hlo hhi
  rcases h with h | h
  · exact byte_store_of_lt b (by omega)
  · exact byte_store_of_ge b (by omega)

end Block
