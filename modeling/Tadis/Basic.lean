import Mathlib.Tactic
import Tadis.LittleEndian
import Tadis.Block

/-!
# Result codes, record identifiers and storage constants

The unsigned integers of the engine are `size_t`: 64-bit words held in memory and on disk as eight
little-endian bytes. They are modelled by naturals. A counter that only counts pages is not reduced
modulo `2 ^ 64`; where the code may pass below zero, and for pin counts, the wrap is written out.
-/

namespace Tadis

abbrev Bytes := List UInt8

/-- The bytes of a string literal of the source. -/
def str (s : String) : Bytes := s.toList.map Char.toUInt8

def invalidId : ℕ := 2 ^ 64 - 1

def pageSize : ℕ := 1024

def bfpMaxPageNum : ℕ := (pageSize - 8 * 2) * 8

def bfpBitmapMaxSize : ℕ := pageSize - 8 * 2

/-- `x--` on a `size_t`. -/
def sizeDec : ℕ → ℕ
  | 0 => 2 ^ 64 - 1
  | n + 1 => n

/-- `x++` on a `size_t`. -/
def sizeInc (n : ℕ) : ℕ := if n + 1 = 2 ^ 64 then 0 else n + 1

theorem sizeInc_of_lt {n : ℕ} (h : n + 1 < 2 ^ 64) : sizeInc n = n + 1 := if_neg h.ne

@[simp] theorem sizeDec_succ (n : ℕ) : sizeDec (n + 1) = n := rfl

@[simp] theorem sizeDec_sizeInc (n : ℕ) : sizeDec (sizeInc n) = n := by
  unfold sizeInc
  split_ifs with h
  · exact (Nat.sub_eq_of_eq_add h.symm)
  · rfl

theorem sizeDec_of_pos {n : ℕ} (h : 0 < n) : sizeDec n = n - 1 := by
  cases n with
  | zero => omega
  | succ n => rfl

/-- `a - b` on two `size_t` values below `2 ^ 64`. -/
def sizeSub (a b : ℕ) : ℕ := (a + 2 ^ 64 - b) % 2 ^ 64

theorem sizeSub_of_le {a b : ℕ} (h : b ≤ a) (ha : a < 2 ^ 64) : sizeSub a b = a - b := by
  unfold sizeSub
  omega

abbrev PageBlock := Block pageSize

def loadSize (b : PageBlock) (off : ℕ) : ℕ := LittleEndian.decode (b.load off 8)

def storeSize (b : PageBlock) (off n : ℕ) : PageBlock := b.store off (LittleEndian.encode 8 n)

@[simp] theorem loadSize_zero (off : ℕ) : loadSize Block.zero off = 0 := by
  rw [loadSize, Block.load_zero, LittleEndian.decode_replicate_zero]

theorem loadSize_storeSize_same (b : PageBlock) {off n : ℕ} (hoff : off + 8 ≤ pageSize)
    (hn : n < 2 ^ 64) : loadSize (storeSize b off n) off = n := by
  have hfit : Block.Fits pageSize off (LittleEndian.encode 8 n).length := by
    simpa [Block.Fits] using hoff
  have h := Block.load_store_same b hfit
  rw [LittleEndian.length_encode] at h
  rw [loadSize, storeSize, h]
  exact LittleEndian.decode_encode_of_lt hn

theorem loadSize_store_disjoint (b : PageBlock) {off off' : ℕ} {bs : Bytes}
    (h : off' + 8 ≤ off ∨ off + bs.length ≤ off') :
    loadSize (b.store off bs) off' = loadSize b off' := by
  rw [loadSize, Block.load_store_disjoint b h, loadSize]

theorem loadSize_storeSize_disjoint (b : PageBlock) {off off' n : ℕ}
    (h : off' + 8 ≤ off ∨ off + 8 ≤ off') : loadSize (storeSize b off n) off' = loadSize b off' := by
  apply loadSize_store_disjoint
  simpa using h

theorem load_storeSize_disjoint (b : PageBlock) {off off' len n : ℕ}
    (h : off' + len ≤ off ∨ off + 8 ≤ off') : (storeSize b off n).load off' len = b.load off' len := by
  apply Block.load_store_disjoint
  simpa using h

inductive RC
  | internalError
  | syntaxError
  | keyNotExist
  | columnNotExist
  | jsonDeserializationError
  | outOfRange
  | pageIsDeleted
  | recordIsDeleted
  | dbOpenTableError
  | uninit
  | tableAlreadyExisted
  | tableNotExisted
  | fetchPageError
  | recordTooLarge
  | ambiguousColumnName
  | columnTypeMismatch
  | success
  deriving DecidableEq, Repr

def rcSuccess (rc : RC) : Bool := rc = .success

structure RID where
  pageId : ℕ := invalidId
  slotId : ℕ := invalidId
  deriving DecidableEq, Repr

end Tadis
